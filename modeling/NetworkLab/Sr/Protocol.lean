import NetworkLab.Rdt.Channel
import Mathlib.Logic.Function.Basic
set_option autoImplicit false

/-! Selective Repeat as `stable.c` has it, Section II. `winbuf` is memory from
`malloc`, so its first contents are a parameter. `W` is WINDOWSIZE. -/

namespace NetworkLab.Sr
open Rdt

def maxbufsize : Nat := 5000

/-- The globals of A. -/
structure AVars where
  nextseqnum : Nat
  base : Nat
  winbuf : Nat → Pkt
  winfront : Nat
  winrear : Nat
  pktnum : Nat
  buffer : Nat → Msg
  buffront : Nat
  bufrear : Nat
  msgNum : Nat

/-- The static variables of `B_input`. -/
structure BVars where
  expectedSeq : Nat
  recvWindow : Nat → Pkt
  recvMarked : Nat → Bool

structure Vars where
  a : AVars
  b : BVars

def aInit (junk : Nat → Pkt) : AVars :=
  { nextseqnum := 0, base := 0, winbuf := junk, winfront := 0, winrear := 0, pktnum := 0,
    buffer := fun _ => default, buffront := 0, bufrear := 0, msgNum := 0 }

def bInit : BVars :=
  { expectedSeq := 0, recvWindow := fun _ => default, recvMarked := fun _ => false }

/-- The first branch of `A_output`, which `A_input` repeats for a buffered message.
The acknum of a packet in `winbuf` says whether it has been acknowledged. -/
def sendPacket (W : Nat) (message : Msg) (s : AVars) : AVars × List Call :=
  let packet := dataPkt s.nextseqnum message.data
  ({ s with winbuf := Function.update s.winbuf s.winrear { packet with acknum := 0 }
            winrear := (s.winrear + 1) % W
            pktnum := s.pktnum + 1
            nextseqnum := s.nextseqnum + 1 },
    [.tolayer3 .A packet,.starttimeR s.nextseqnum])

def aOutput (W : Nat) (message : Msg) (s : AVars) : Option (AVars × List Call) :=
  if s.nextseqnum < s.base + W then some (sendPacket W message s)
  else if s.msgNum < maxbufsize - 1 then
    some ({ s with buffer := Function.update s.buffer s.bufrear message
                   bufrear := (s.bufrear + 1) % maxbufsize
                   msgNum := s.msgNum + 1 }, [])
  else none

/-- The search loop of `A_input` and of the timer: the slot of that packet, if it is
in the window and not acknowledged. -/
def findUnacked (W : Nat) (seq : Int) (s : AVars) : Option Nat :=
  ((List.range s.pktnum).map fun i => (s.winfront + i) % W).find? fun idx =>
    decide ((s.winbuf idx).seqnum = seq) && decide ((s.winbuf idx).acknum = 0)

/-- `while (pktnum > 0 && winbuf[winfront].acknum == 1 && winbuf[winfront].seqnum ==
base)`. Every round takes one from `pktnum`, so `pktnum` rounds are enough. -/
def slide (W : Nat) : Nat → AVars → AVars
  | 0, s => s
  | fuel+1, s =>
    if 0 < s.pktnum ∧ (s.winbuf s.winfront).acknum = 1 ∧
        (s.winbuf s.winfront).seqnum = s.base then
      slide W fuel { s with base := s.base + 1
                            winfront := (s.winfront + 1) % W
                            pktnum := s.pktnum - 1 }
    else s

/-- `buffront = (buffront + 1) % MAXBUFSIZE; msg_num--;` -/
def dropBuffered (s : AVars) : AVars :=
  { s with buffront := (s.buffront + 1) % maxbufsize, msgNum := s.msgNum - 1 }

/-- `while (msg_num > 0 && nextseqnum < base + WINDOWSIZE)`, in at most `msg_num`
rounds. -/
def sendBuffered (W : Nat) : Nat → AVars → AVars × List Call
  | 0, s => (s,[])
  | fuel+1, s =>
    if 0 < s.msgNum ∧ s.nextseqnum < s.base + W then
      let r := sendPacket W (s.buffer s.buffront) (dropBuffered s)
      let r' := sendBuffered W fuel r.1
      (r'.1,r.2 ++ r'.2)
    else (s,[])

/-- `winbuf[foundIndex].acknum = 1;` -/
def markAcked (idx : Nat) (s : AVars) : AVars :=
  { s with winbuf := Function.update s.winbuf idx { s.winbuf idx with acknum := 1 } }

def aInput (W : Nat) (packet : Pkt) (s : AVars) : AVars × List Call :=
  if checkCorrupted packet then (s,[])
  else if packet.acknum < s.base ∨ (s.nextseqnum : Int) ≤ packet.acknum then (s,[])
  else
    match findUnacked W packet.acknum s with
    | none => (s,[])
    | some foundIndex =>
      let s := slide W s.pktnum (markAcked foundIndex s)
      let r := sendBuffered W s.msgNum s
      (r.1,.stoptimeR packet.acknum :: r.2)

/-- The timer that went off is started again when its packet was found. -/
def aPacketTimeRinterrupt (W : Nat) (pktSeq : Int) (s : AVars) : AVars × List Call :=
  match findUnacked W pktSeq s with
  | none => (s,[])
  | some idx => (s,[.tolayer3 .A (s.winbuf idx),.starttimeR pktSeq])

/-- The `while` loop of `B_input`. A round clears one of the `W` slots, so after `W`
rounds none is marked. -/
def deliver (W : Nat) : Nat → BVars → BVars × List Call
  | 0, s => (s,[])
  | fuel+1, s =>
    let slot := s.expectedSeq % W
    if s.recvMarked slot = true ∧ (s.recvWindow slot).seqnum = s.expectedSeq then
      let r := deliver W fuel
        { s with recvMarked := Function.update s.recvMarked slot false
                 expectedSeq := s.expectedSeq + 1 }
      (r.1,.tolayer5 (s.recvWindow slot).payload :: r.2)
    else (s,[])

/-- The test under "2. check": one window ahead of `expected_seq`, or one behind. -/
def inWindow (W : Nat) (seqnum : Int) (expectedSeq : Nat) : Prop :=
  ((expectedSeq : Int) ≤ seqnum ∧ seqnum < expectedSeq + W) ∨
  (seqnum < expectedSeq ∧ (expectedSeq : Int) - W ≤ seqnum)

instance (W : Nat) (seqnum : Int) (e : Nat) : Decidable (inWindow W seqnum e) :=
  inferInstanceAs (Decidable (((e : Int) ≤ seqnum ∧ seqnum < e + W) ∨
    (seqnum < e ∧ (e : Int) - W ≤ seqnum)))

/-- The packet goes into its slot. -/
def store (slot : Nat) (packet : Pkt) (s : BVars) : BVars :=
  { s with recvWindow := Function.update s.recvWindow slot packet
           recvMarked := Function.update s.recvMarked slot true }

/-- `seqnum % WINDOWSIZE` is C's remainder. No packet has a negative number, for which
it would not be an index. -/
def bInput (W : Nat) (packet : Pkt) (s : BVars) : BVars × List Call :=
  if checkCorrupted packet then (s,[])
  else if inWindow W packet.seqnum s.expectedSeq then
    let slot := (packet.seqnum.tmod W).toNat
    if s.recvMarked slot = false ∨ (s.recvWindow slot).seqnum ≠ packet.seqnum then
      let r := deliver W W (store slot packet s)
      (r.1,.tolayer3 .B (ackPkt packet.seqnum) :: r.2)
    else deliver W W s
  else (s,[.tolayer3 .B (ackPkt packet.seqnum)])

def students (W : Nat) (junk : Nat → Pkt) : Students Vars where
  aInit := ⟨aInit junk,bInit⟩
  aOutput m s := (aOutput W m s.a).map fun r => (⟨r.1,s.b⟩,r.2)
  aInput p s := let r := aInput W p s.a; (⟨r.1,s.b⟩,r.2)
  aPacketTimeRinterrupt q s := let r := aPacketTimeRinterrupt W q s.a; (⟨r.1,s.b⟩,r.2)
  bInput p s := let r := bInput W p s.b; (⟨s.a,r.1⟩,r.2)

end NetworkLab.Sr
