import Mathlib.Data.Nat.Bitwise
import Mathlib.Tactic.Linarith
set_option autoImplicit false

/-! Messages, packets and the checksum. These definitions are the same text in
`gbn.c` and in `stable.c`. -/

namespace NetworkLab.Rdt

abbrev Payload := Vector UInt8 20

/-- `struct msg_`: the unit that layer 5 gives to layer 4. -/
structure Msg where
  data : Payload
  deriving DecidableEq, Repr

instance : Inhabited Msg := ⟨⟨Vector.replicate 20 0⟩⟩

/-- `struct pkt`. The three headers are C `int`s. -/
structure Pkt where
  seqnum : Int
  acknum : Int
  checksum : Int
  payload : Payload
  deriving DecidableEq, Repr

instance : Inhabited Pkt := ⟨⟨0,0,0,Vector.replicate 20 0⟩⟩

/-- `NOTUSED`, the header value of a field that a packet does not use. -/
def notused : Int := 0

/-- Conversion of a C `int` to `unsigned int`. -/
def uint (x : Int) : Nat := (x % 4294967296).toNat

/-- One round of the checksum loop: add a byte, then fold the carry back in. -/
def foldByte (sum : Nat) (b : UInt8) : Nat :=
  let sum := (sum + b.toNat) % 4294967296
  if sum &&& 0xFFFF0000 ≠ 0 then (sum &&& 0xFFFF) + (sum >>> 16) else sum

def headerSum (p : Pkt) : Nat := (uint p.seqnum + uint p.acknum) % 4294967296

/-- The value of `sum` behind the loop. -/
def byteSum (p : Pkt) : Nat := p.payload.toList.foldl foldByte (headerSum p)

/-- `ComputeChecksum`: the field receives `~(sum & 0xFFFF)`. -/
def computeChecksum (p : Pkt) : Pkt :=
  { p with checksum := -((byteSum p &&& 0xFFFF : Nat) : Int) - 1 }

/-- `CheckCorrupted`: true when the packet is to be thrown away. -/
def checkCorrupted (p : Pkt) : Bool :=
  ((byteSum p + uint p.checksum) % 4294967296) &&& 0xFFFF != 0xFFFF

/-- What `tolayer3` does to a packet it corrupts. The checksum is left alone. -/
def corrupted (p : Pkt) : Pkt :=
  { p with payload := p.payload.set 0 90, seqnum := 999999, acknum := 999999 }

@[simp] theorem computeChecksum_seqnum (p : Pkt) : (computeChecksum p).seqnum = p.seqnum := rfl

@[simp] theorem computeChecksum_acknum (p : Pkt) : (computeChecksum p).acknum = p.acknum := rfl

@[simp] theorem computeChecksum_payload (p : Pkt) :
    (computeChecksum p).payload = p.payload := rfl

@[simp] theorem corrupted_seqnum (p : Pkt) : (corrupted p).seqnum = 999999 := rfl

@[simp] theorem corrupted_acknum (p : Pkt) : (corrupted p).acknum = 999999 := rfl

theorem byteSum_computeChecksum (p : Pkt) : byteSum (computeChecksum p) = byteSum p := rfl

theorem and_ffff (n : Nat) : n &&& 0xFFFF = n % 65536 :=
  Nat.and_two_pow_sub_one_eq_mod n 16

theorem uint_complement {m : Nat} (h : m < 65536) : uint (-(m : Int) - 1) = 4294967295 - m := by
  unfold uint
  omega

/-- A packet passes the check right after its checksum has been computed, whatever
its headers and its bytes are. -/
theorem checkCorrupted_computeChecksum (p : Pkt) :
    checkCorrupted (computeChecksum p) = false := by
  have hlow : byteSum p &&& 0xFFFF < 65536 := by
    rw [and_ffff]
    exact Nat.mod_lt _ (by decide)
  have hsum : (byteSum p + (4294967295 - byteSum p % 65536)) % 4294967296 % 65536 = 65535 := by
    omega
  simp only [checkCorrupted,byteSum_computeChecksum]
  simp only [computeChecksum,uint_complement hlow]
  simp only [and_ffff,hsum]
  decide

/-- The data packet that `A_output` builds for one message. -/
def dataPkt (seqnum : Int) (payload : Payload) : Pkt :=
  computeChecksum { seqnum := seqnum, acknum := notused, checksum := 0, payload := payload }

/-- The packet that `B_input` builds to acknowledge; its payload is cleared. -/
def ackPkt (acknum : Int) : Pkt :=
  computeChecksum
    { seqnum := notused, acknum := acknum, checksum := 0, payload := Vector.replicate 20 0 }

@[simp] theorem dataPkt_seqnum (k : Int) (d : Payload) : (dataPkt k d).seqnum = k := rfl

@[simp] theorem dataPkt_acknum (k : Int) (d : Payload) : (dataPkt k d).acknum = 0 := rfl

@[simp] theorem dataPkt_payload (k : Int) (d : Payload) : (dataPkt k d).payload = d := rfl

@[simp] theorem ackPkt_acknum (k : Int) : (ackPkt k).acknum = k := rfl

@[simp] theorem checkCorrupted_dataPkt (k : Int) (d : Payload) :
    checkCorrupted (dataPkt k d) = false := checkCorrupted_computeChecksum _

@[simp] theorem checkCorrupted_ackPkt (k : Int) :
    checkCorrupted (ackPkt k) = false := checkCorrupted_computeChecksum _

end NetworkLab.Rdt
