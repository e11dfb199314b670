import NetworkLab.Rdt.Channel
import Mathlib.Logic.Function.Basic
set_option autoImplicit false

/-! Go-Back-N as `gbn.c` has it, Section II. `winbuf` is memory from `malloc`, so its
first contents are a parameter. `W` is WINDOWSIZE. -/

namespace NetworkLab.Gbn
open Rdt

def maxbufsize : Nat := 5000

/-- The globals of A and the static variable of `B_input`. -/
structure Vars where
  nextseqnum : Nat
  base : Nat
  winbuf : Nat → Pkt
  winfront : Nat
  winrear : Nat
  pktnum : Int
  buffer : Nat → Msg
  buffront : Nat
  bufrear : Nat
  msgNum : Nat
  expectedSeqnum : Nat

def aInit (junk : Nat → Pkt) : Vars :=
  { nextseqnum := 0, base := 0, winbuf := junk, winfront := 0, winrear := 0, pktnum := 0,
    buffer := fun _ => default, buffront := 0, bufrear := 0, msgNum := 0,
    expectedSeqnum := 0 }

/-- The timer is started before `nextseqnum++`, so the test asks for the second packet
of the window. -/
def aOutput (W : Nat) (message : Msg) (s : Vars) : Vars × List Call :=
  if s.nextseqnum < s.base + W then
    let packet := dataPkt s.nextseqnum message.data
    ({ s with winbuf := Function.update s.winbuf s.winrear packet
              winrear := (s.winrear + 1) % W
              pktnum := s.pktnum + 1
              nextseqnum := s.nextseqnum + 1 },
      .tolayer3 .A packet ::
        if (s.base : Int) = s.nextseqnum - 1 then [.starttimeR s.base] else [])
  else
    ({ s with buffer := Function.update s.buffer s.bufrear message
              bufrear := (s.bufrear + 1) % maxbufsize
              msgNum := s.msgNum + 1 }, [])

/-- `while (winfront != winrear && winbuf[winfront].seqnum < base)`. The front reaches
the rear within `W` rounds. -/
def popAcked (W : Nat) : Nat → Vars → Vars
  | 0, s => s
  | fuel+1, s =>
    if s.winfront ≠ s.winrear ∧ (s.winbuf s.winfront).seqnum < s.base then
      popAcked W fuel { s with winfront := (s.winfront + 1) % W, pktnum := s.pktnum - 1 }
    else s

/-- `buffront = (buffront + 1) % MAXBUFSIZE; msg_num--;` -/
def dropBuffered (s : Vars) : Vars :=
  { s with buffront := (s.buffront + 1) % maxbufsize, msgNum := s.msgNum - 1 }

/-- `while (msg_num > 0 && nextseqnum < base + WINDOWSIZE)`. Every round takes one
message out, so `msg_num` rounds are enough. -/
def sendBuffered (W : Nat) : Nat → Vars → Vars × List Call
  | 0, s => (s,[])
  | fuel+1, s =>
    if 0 < s.msgNum ∧ s.nextseqnum < s.base + W then
      let r := aOutput W (s.buffer s.buffront) (dropBuffered s)
      let r' := sendBuffered W fuel r.1
      (r'.1,r.2 ++ r'.2)
    else (s,[])

/-- The part of `A_input` behind the acceptance test. -/
def acceptAck (W : Nat) (acknum : Int) (s : Vars) : Vars × List Call :=
  let s' := popAcked W W { s with base := (acknum + 1).toNat }
  let timer := if s'.base < s'.nextseqnum then [Call.starttimeR s'.base] else []
  let r := sendBuffered W s'.msgNum s'
  (r.1,.stoptimeR s.base :: timer ++ r.2)

/-- The last two branches of the source only print. -/
def aInput (W : Nat) (packet : Pkt) (s : Vars) : Vars × List Call :=
  if checkCorrupted packet then (s,[])
  else if packet.acknum = notused then (s,[])
  else if (s.base : Int) ≤ packet.acknum ∧ packet.acknum < s.nextseqnum then
    acceptAck W packet.acknum s
  else (s,[])

def resendWindow (W : Nat) (s : Vars) : List Call :=
  (List.range (s.nextseqnum - s.base)).map fun i =>
    .tolayer3 .A (s.winbuf ((s.winfront + i) % W))

def aPacketTimeRinterrupt (W : Nat) (pktSeq : Int) (s : Vars) : Vars × List Call :=
  if pktSeq ≠ s.base then (s,[])
  else (s,resendWindow W s ++ [.starttimeR s.base])

def bInput (packet : Pkt) (s : Vars) : Vars × List Call :=
  if checkCorrupted packet then (s,[])
  else if packet.seqnum = s.expectedSeqnum then
    let s' := { s with expectedSeqnum := s.expectedSeqnum + 1 }
    (s',[.tolayer5 packet.payload,.tolayer3 .B (ackPkt (s'.expectedSeqnum - 1))])
  else (s,[.tolayer3 .B (ackPkt (s.expectedSeqnum - 1))])

def students (W : Nat) (junk : Nat → Pkt) : Students Vars where
  aInit := aInit junk
  aOutput m s := some (aOutput W m s)
  aInput := aInput W
  aPacketTimeRinterrupt := aPacketTimeRinterrupt W
  bInput := bInput

end NetworkLab.Gbn
