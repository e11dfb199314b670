import NetworkLab.Lib.Machine
import NetworkLab.Lib.TimedList
import NetworkLab.Rdt.Packet
import Mathlib.Order.Monotone.Basic
import Mathlib.Algebra.Order.Archimedean.Basic
import Mathlib.Data.Rat.Floor
set_option autoImplicit false

/-! The network emulator, Sections III and IV of `gbn.c` and `stable.c`. Both files
contain it; it is one definition here, with the students' functions as a parameter. -/

namespace NetworkLab.Rdt
open TimedList

inductive Entity where
  | A | B
  deriving DecidableEq, Repr

/-- `(AorB + 1) % 2`. -/
def Entity.other : Entity → Entity
  | .A => .B
  | .B => .A

/-- `enum pttns`: what one character of the channel pattern does to a packet. -/
inductive Fate where
  | ok | corrupt | lost
  deriving DecidableEq, Repr

/-- The student-callable routines. A student function is a function on its own
variables that also returns the calls it makes, in order. All timers are A's. -/
inductive Call where
  | tolayer3 (AorB : Entity) (packet : Pkt)
  | tolayer5 (datasent : Payload)
  | starttimeR (pktSeq : Int)
  | stoptimeR (pktDel : Int)
  deriving DecidableEq, Repr

/-- The functions of Section II. `none` is `exit(1)`. -/
structure Students (σ : Type) where
  aInit : σ
  aOutput : Msg → σ → Option (σ × List Call)
  aInput : Pkt → σ → σ × List Call
  aPacketTimeRinterrupt : Int → σ → σ × List Call
  bInput : Pkt → σ → σ × List Call

/-- The `evtype` and the data of an event. -/
inductive EventType where
  | timeRInterrupt (pktSeq : Int)
  | fromLayer5
  | fromLayer3 (eventity : Entity) (pktptr : Pkt)
  deriving DecidableEq, Repr

structure Event (T : Type) where
  evtime : T
  evtype : EventType
  deriving DecidableEq, Repr

/-- What the emulator uses of its `float` clock: the three sums it forms, and that they
keep the order of their arguments, rounded or not. -/
structure Clock (T : Type) [LinearOrder T] where
  start : T
  /-- `time_ + lambda` -/
  nextArrival : T → T
  /-- `time_ + RTT / 2 - 1` -/
  arrival : T → T
  /-- `time_ + RTT` -/
  expiry : T → T
  le_nextArrival : ∀ t, t ≤ nextArrival t
  le_arrival : ∀ t, t ≤ arrival t
  le_expiry : ∀ t, t ≤ expiry t
  arrival_mono : Monotone arrival
  expiry_mono : Monotone expiry

/-- The timeouts that follow one another from any time up to `u` pass `u`. A `float` does
so below 2^28; from there on `time_ + RTT` is `time_`. -/
def Clock.Passes {T : Type} [LinearOrder T] (clock : Clock T) (u : T) : Prop :=
  ∀ t ≤ u, ∃ n, u < clock.expiry^[n] t

/-- The clock of the program in exact arithmetic: `RTT` is 15.0, and `lambda` is read
from the terminal with the demand that it be positive. -/
def exactClock (lambda : ℚ) (hl : 0 < lambda) : Clock ℚ where
  start := 0
  nextArrival t := t + lambda
  arrival t := t + 15/2 - 1
  expiry t := t + 15
  le_nextArrival t := by linarith
  le_arrival t := by linarith
  le_expiry t := by linarith
  arrival_mono a b h := by linarith
  expiry_mono a b h := by linarith

theorem exactClock_passes (lambda : ℚ) (hl : 0 < lambda) (u : ℚ) :
    (exactClock lambda hl).Passes u := by
  intro t _
  obtain ⟨n,hn⟩ := exists_nat_gt (u - t)
  refine ⟨n,?_⟩
  have hit : (exactClock lambda hl).expiry^[n] t = t + n*15 := by
    change (fun x : ℚ => x + 15)^[n] t = t + n*15
    rw [add_right_iterate (15 : ℚ) n]
    simp
  rw [hit]
  have h0 : (0 : ℚ) ≤ n := Nat.cast_nonneg n
  linarith

/-- One message every time unit. -/
def unitClock : Clock ℚ := exactClock 1 (by decide)

/-- The variables of the emulator and of the students. `given`, `taken` and `handed`
record what crossed layer 5 and what was handed to layer 3, with its fate. -/
structure Sim (T σ : Type) where
  vars : σ
  evlist : List (Event T)
  time_ : T
  nsim : Nat
  /-- The number of calls of `tolayer3` so far, the index of the next character. -/
  cp : Nat
  given : List Msg
  taken : List Payload
  handed : List (Entity × Pkt × Fate)

section Emulator
variable {T σ : Type} [LinearOrder T] (clock : Clock T) (students : Students σ)
variable (msgs : List Msg) (pattern : Nat → Fate)

def insertevent (p : Event T) (s : Sim T σ) : Sim T σ :=
  { s with evlist := insertTimed Event.evtime p s.evlist }

/-- `generate_next_arrival`: `nsimmax` is the number of messages. -/
def generateNextArrival (s : Sim T σ) : Sim T σ :=
  if msgs.length ≤ s.nsim then s
  else { insertevent ⟨clock.nextArrival s.time_,.fromLayer5⟩ s with nsim := s.nsim + 1 }

def tolayer3 (AorB : Entity) (packet : Pkt) (s : Sim T σ) : Sim T σ :=
  let fate := pattern s.cp
  let s := { s with cp := s.cp + 1, handed := s.handed ++ [(AorB,packet,fate)] }
  match fate with
  | .lost => s
  | .ok => insertevent ⟨clock.arrival s.time_,.fromLayer3 AorB.other packet⟩ s
  | .corrupt =>
      insertevent ⟨clock.arrival s.time_,.fromLayer3 AorB.other (corrupted packet)⟩ s

def starttimeR (pktSeq : Int) (s : Sim T σ) : Sim T σ :=
  insertevent ⟨clock.expiry s.time_,.timeRInterrupt pktSeq⟩ s

def isTimer (pktDel : Int) (q : Event T) : Bool := q.evtype = .timeRInterrupt pktDel

/-- The first timer event of that packet leaves the list. -/
def stoptimeR (pktDel : Int) (s : Sim T σ) : Sim T σ :=
  { s with evlist := s.evlist.eraseP (isTimer pktDel) }

def call (s : Sim T σ) : Call → Sim T σ
  | .tolayer3 AorB packet => tolayer3 clock pattern AorB packet s
  | .tolayer5 datasent => { s with taken := s.taken ++ [datasent] }
  | .starttimeR pktSeq => starttimeR clock pktSeq s
  | .stoptimeR pktDel => stoptimeR pktDel s

/-- A student function has returned its variables and its calls. -/
def perform (s : Sim T σ) (r : σ × List Call) : Sim T σ :=
  r.2.foldl (call clock pattern) { s with vars := r.1 }

/-- `init` and `A_init`. -/
def init : Sim T σ :=
  generateNextArrival clock msgs
    { vars := students.aInit, evlist := [], time_ := clock.start, nsim := 0, cp := 0,
      given := [], taken := [], handed := [] }

/-- One round of the loop in `main`: `none` when the event list is empty, and when
`A_output` exits. The message of the k-th arrival is the k-th of `msgs`. -/
def simStep (s : Sim T σ) : Option (Sim T σ) :=
  match s.evlist with
  | [] => none
  | e :: rest =>
    let s := { s with evlist := rest, time_ := e.evtime }
    match e.evtype with
    | .fromLayer5 =>
        let s := generateNextArrival clock msgs s
        let m := msgs.getD s.given.length default
        (students.aOutput m s.vars).map fun r =>
          perform clock pattern { s with given := s.given ++ [m] } r
    | .fromLayer3 .A p => some (perform clock pattern s (students.aInput p s.vars))
    | .fromLayer3 .B p => some (perform clock pattern s (students.bInput p s.vars))
    | .timeRInterrupt pktSeq =>
        some (perform clock pattern s (students.aPacketTimeRinterrupt pktSeq s.vars))

end Emulator

/-- The channel from the moment on at which layer 3 delivers everything intact. -/
def intact : Nat → Fate := fun _ => .ok

end NetworkLab.Rdt
