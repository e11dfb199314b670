import NetworkLab.Lib.DoublyLinked
import NetworkLab.Rdt.Emulator
set_option autoImplicit false

/-! The emulator as the program has it: the event list is made of pointers, messages are
made from `nsim`, and the channel is a string of characters. `none` is undefined behaviour,
such as an access to memory that is not allocated: the program writes through every pointer
that `malloc` returns, and never asks whether it is null. -/

namespace NetworkLab.Rdt
open DoublyLinked

namespace Program

inductive Evtype where
  | timeRInterrupt | fromLayer5 | fromLayer3
  deriving DecidableEq, Repr

/-- `struct event` without `prev` and `next`. -/
structure EventCell (T : Type) where
  evtime_ : T
  evtype : Evtype
  eventity : Entity
  pktptr : Ptr
  pktTimer : Ptr

/-- The allocations of the program; a new event holds any pointers. -/
structure Malloc (T : Type) where
  event : Allocator (Node (EventCell T))
  pkt : Allocator Pkt
  timer : Allocator Int
  prev : Nat → Ptr
  next : Nat → Ptr

structure Malloc.Succeeds {T : Type} (malloc : Malloc T) : Prop where
  event : malloc.event.Succeeds
  pkt : malloc.pkt.Succeeds
  timer : malloc.timer.Succeeds

/-- The globals and the memory. Of a `struct timer` only `pkt_seq` is ever read. -/
structure Mem (T σ : Type) where
  vars : σ
  events : Heap (Node (EventCell T))
  pkts : Heap Pkt
  timers : Heap Int
  mallocs : Nat
  evlist : Ptr
  time_ : T
  nsim : Nat
  cp : Int
  ntolayer3 : Nat
  nlost : Nat
  ncorrupt : Nat

/-- The message that `main` fills with one letter: `97 + nsim % 26`. -/
def letter (nsim : Nat) : Msg := ⟨Vector.replicate 20 (UInt8.ofNat (97 + nsim % 26))⟩

/-- `pattern[cp % npttns]`, compared with 'x' and with '-'. An empty pattern is a
division by zero. -/
def fateAt (pttn : List UInt8) (cp : Int) : Option Fate :=
  (pttn[(cp % pttn.length).toNat]?).map fun ch =>
    if ch = 120 then .lost else if ch = 45 then .corrupt else .ok

section Program
variable {T σ : Type} [LinearOrder T] (malloc : Malloc T) (clock : Clock T)
variable (students : Students σ) (nsimmax : Nat) (pttn : List UInt8)

def mallocEvent (c : EventCell T) (m : Mem T σ) : Option (Nat × Mem T σ) :=
  (malloc.event.address m.mallocs m.events).map fun a =>
  (a,{ m with
    events := m.events.set a ⟨c,malloc.prev m.mallocs,malloc.next m.mallocs⟩
    mallocs := m.mallocs + 1 })

def mallocPkt (p : Pkt) (m : Mem T σ) : Option (Nat × Mem T σ) :=
  (malloc.pkt.address m.mallocs m.pkts).map fun a =>
  (a,{ m with pkts := m.pkts.set a p, mallocs := m.mallocs + 1 })

def mallocTimer (pktSeq : Int) (m : Mem T σ) : Option (Nat × Mem T σ) :=
  (malloc.timer.address m.mallocs m.timers).map fun a =>
  (a,{ m with timers := m.timers.set a pktSeq, mallocs := m.mallocs + 1 })

/-- The search loop goes on while `p->evtime_ >= q->evtime_`. -/
def insertevent (p : Ptr) (m : Mem T σ) : Option (Mem T σ) := do
  let e ← m.events.load p
  match m.evlist with
  | none => do
    let h ← linkOnly m.events p
    some { m with events := h, evlist := p }
  | some _ =>
    (walk m.events (fun x => some (decide (e.data.evtime_ < x.evtime_))) (m.events.bound + 1)
      m.evlist m.evlist).bind fun place =>
    match place.1 with
    | none => do
      let h ← linkLast m.events place.2 p
      some { m with events := h }
    | some q =>
      if some q = m.evlist then do
        let h ← linkFront m.events m.evlist p
        some { m with events := h, evlist := p }
      else do
        let h ← linkBefore m.events (some q) p
        some { m with events := h }

def generateNextArrival (m : Mem T σ) : Option (Mem T σ) :=
  if nsimmax ≤ m.nsim then some m
  else
    (mallocEvent malloc ⟨clock.nextArrival m.time_,.fromLayer5,.A,none,none⟩ m).bind fun evptr =>
    (insertevent (some evptr.1) evptr.2).map fun m => { m with nsim := m.nsim + 1 }

/-- A packet's event has a timer too, which nothing reads. -/
def tolayer3 (AorB : Entity) (packet : Pkt) (m : Mem T σ) : Option (Mem T σ) :=
  let m := { m with cp := m.cp + 1, ntolayer3 := m.ntolayer3 + 1 }
  (fateAt pttn m.cp).bind fun fate =>
  if fate = .lost then some { m with nlost := m.nlost + 1 }
  else
    (mallocPkt malloc packet m).bind fun mypktptr =>
    (mallocTimer malloc packet.acknum mypktptr.2).bind fun pktTimer =>
    (mallocEvent malloc
      ⟨clock.arrival m.time_,.fromLayer3,AorB.other,some mypktptr.1,some pktTimer.1⟩
      pktTimer.2).bind fun evptr =>
    if fate = .corrupt then
      (evptr.2.pkts.modify (some mypktptr.1) corrupted).bind fun pkts =>
      insertevent (some evptr.1)
        { evptr.2 with pkts := pkts, ncorrupt := evptr.2.ncorrupt + 1 }
    else insertevent (some evptr.1) evptr.2

def starttimeR (AorB : Entity) (pktSeq : Int) (m : Mem T σ) : Option (Mem T σ) :=
  (mallocTimer malloc pktSeq m).bind fun pktTimer =>
  (mallocEvent malloc ⟨clock.expiry m.time_,.timeRInterrupt,AorB,none,some pktTimer.1⟩
    pktTimer.2).bind fun evptr =>
  insertevent (some evptr.1) evptr.2

/-- The condition in the loop of `stoptime_r`; only the timer of a timer event is read. -/
def isTimer (timers : Heap Int) (AorB : Entity) (pktDel : Int) (q : EventCell T) : Option Bool :=
  if q.evtype = .timeRInterrupt then
    (timers.load q.pktTimer).map fun pktSeq => decide (pktSeq = pktDel ∧ q.eventity = AorB)
  else some false

/-- Behind the loop there is only a warning. -/
def stoptimeR (AorB : Entity) (pktDel : Int) (m : Mem T σ) : Option (Mem T σ) :=
  (walk m.events (isTimer m.timers AorB pktDel) (m.events.bound + 1) m.evlist
    m.evlist).bind fun place =>
  match place.1 with
  | none => some m
  | some q => do
    let u ← unlink m.events m.evlist (some q)
    let h ← u.1.free (some q)
    some { m with events := h, evlist := u.2 }

/-- `tolayer5` only prints. -/
def call (m : Mem T σ) : Call → Option (Mem T σ)
  | .tolayer3 AorB packet => tolayer3 malloc clock pttn AorB packet m
  | .tolayer5 _ => some m
  | .starttimeR pktSeq => starttimeR malloc clock .A pktSeq m
  | .stoptimeR pktDel => stoptimeR .A pktDel m

def perform (m : Mem T σ) (r : σ × List Call) : Option (Mem T σ) :=
  r.2.foldlM (call malloc clock pttn) { m with vars := r.1 }

/-- `char pattern[40]`, filled by `scanf("%s", pattern)` with a zero behind it. -/
def patternSize : Nat := 40

/-- `init` and `A_init`. -/
def start : Option (Mem T σ) :=
  if patternSize ≤ pttn.length then none
  else generateNextArrival malloc clock nsimmax
    { vars := students.aInit, events := .empty, pkts := .empty, timers := .empty, mallocs := 0,
      evlist := none, time_ := clock.start, nsim := 0, cp := -1, ntolayer3 := 0, nlost := 0,
      ncorrupt := 0 }

inductive Outcome (S : Type) where
  | terminated (s : S)
  | exited
  | running (s : S)

/-- What `main` does with the event that it has taken from the list; B has no timers and
gets nothing from layer 5. -/
def handle (eventptr : Nat) (c : EventCell T) (m : Mem T σ) : Option (Outcome (Mem T σ)) :=
  match c.evtype with
  | .fromLayer5 => do
    let m ← generateNextArrival malloc clock nsimmax m
    if c.eventity = .A then
      match students.aOutput (letter m.nsim) m.vars with
      | none => some .exited
      | some r => (perform malloc clock pttn m r).map .running
    else some (.running m)
  | .fromLayer3 => do
    let pkt2give ← m.pkts.load c.pktptr
    let r := if c.eventity = .A then students.aInput pkt2give m.vars
      else students.bInput pkt2give m.vars
    let m ← perform malloc clock pttn m r
    let e ← m.events.load (some eventptr)
    let pkts ← m.pkts.free e.data.pktptr
    some (.running { m with pkts := pkts })
  | .timeRInterrupt =>
    if c.eventity = .A then do
      let pktSeq ← m.timers.load c.pktTimer
      (perform malloc clock pttn m (students.aPacketTimeRinterrupt pktSeq m.vars)).map .running
    else some (.running m)

/-- A round of the loop in `main`. -/
def round (m : Mem T σ) : Option (Outcome (Mem T σ)) :=
  match m.evlist with
  | none => some (.terminated m)
  | some eventptr => do
    let e ← m.events.load (some eventptr)
    let d ← dropFirst m.events m.evlist
    let m := { m with events := d.1, evlist := d.2, time_ := e.data.evtime_ }
    match ← handle malloc clock students nsimmax pttn eventptr e.data m with
    | .running m => do
      let events ← m.events.free (some eventptr)
      some (.running { m with events := events })
    | o => some o

/-- At most `n` rounds. -/
def run : Nat → Mem T σ → Option (Outcome (Mem T σ))
  | 0, m => some (.running m)
  | n+1, m => do
    match ← round malloc clock students nsimmax pttn m with
    | .running m => run n m
    | o => some o

/-- `main` for at most `n` rounds. -/
def main (n : Nat) : Option (Outcome (Mem T σ)) :=
  (start malloc clock students nsimmax pttn).bind (run malloc clock students nsimmax pttn n)

end Program
end Program
end NetworkLab.Rdt
