import NetworkLab.Lib.EndAround
import NetworkLab.Rdt.Packet
set_option autoImplicit false

/-! What the checksum of `ComputeChecksum` can tell apart: it is a sum with end-around carry
of the headers and the bytes. -/

namespace NetworkLab.Rdt
open EndAround

def payloadSum (d : Payload) : Nat := (d.toList.map UInt8.toNat).sum

theorem payloadSum_le (d : Payload) : payloadSum d ≤ 5100 := by
  have h := List.sum_le_card_nsmul (d.toList.map UInt8.toNat) 255 (by
    intro x hx
    obtain ⟨b,-,rfl⟩ := List.mem_map.mp hx
    exact Nat.le_of_lt_succ b.toNat_lt)
  simpa [payloadSum] using h

theorem payloadSum_set (d : Payload) {i : Nat} (hi : i < 20) (b : UInt8) :
    payloadSum (d.set i b) + d[i].toNat = payloadSum d + b.toNat := by
  have hlen : i < (d.toList.map UInt8.toNat).length := by simpa using hi
  have hset := List.sum_set (d.toList.map UInt8.toNat) i b.toNat
  have hsplit := List.sum_take_add_sum_drop (d.toList.map UInt8.toNat) i
  rw [List.drop_eq_getElem_cons hlen,List.sum_cons] at hsplit
  rw [if_pos hlen,← List.map_set] at hset
  simp only [payloadSum,Vector.toList_set,List.getElem_map,Vector.getElem_toList] at hset hsplit ⊢
  omega

theorem and_high {n : Nat} (h : n < 4294967296) : n &&& 0xFFFF0000 ≠ 0 ↔ ¬n < 65536 := by
  have hmod : (n &&& 0xFFFF0000) % 65536 = 0 := by
    rw [show 65536 = 2^16 by rfl,Nat.and_mod_two_pow]
    exact Nat.and_zero _
  have hdiv : (n &&& 0xFFFF0000) / 65536 = n / 65536 := by
    rw [show 65536 = 2^16 by rfl,Nat.and_div_two_pow]
    exact (and_ffff _).trans (Nat.mod_eq_of_lt (by omega))
  omega

theorem foldByte_eq {sum : Nat} {b : UInt8} (h : sum + b.toNat < 4294967296) :
    foldByte sum b = carry 65536 (sum + b.toNat) := by
  have hhigh := and_high h
  simp only [foldByte,carry,Nat.mod_eq_of_lt h,and_ffff,Nat.shiftRight_eq_div_pow]
  split <;> rename_i hc
  · rw [if_neg (hhigh.mp hc)]
  · rw [if_pos (by_contra fun hn => hc (hhigh.mpr hn))]

/-- From a header below `2^31` on nothing overflows 32 bits. -/
theorem foldl_foldByte {s : Nat} (hs : s < 2147483648) (bs : List UInt8) :
    bs.foldl foldByte s = wrapSum 65536 s (bs.map UInt8.toNat) := by
  induction bs generalizing s with
  | nil => rfl
  | cons b bs ih =>
    have hb := b.toNat_lt
    have hle := carry_le (B := 65536) (by decide) (s + b.toNat)
    rw [List.foldl_cons,foldByte_eq (by omega),ih (by omega)]
    rfl

/-- The value behind the loop is one 16-bit digit, and 0 only when all is 0. -/
theorem byteSum_eq {p : Pkt} (h : headerSum p < 2147483648) :
    byteSum p = digit 65536 (headerSum p + payloadSum p.payload) := by
  have hsum : byteSum p = wrapSum 65536 (headerSum p) (p.payload.toList.map UInt8.toNat) :=
    foldl_foldByte h _
  rw [hsum,payloadSum]
  refine wrapSum_eq_digit (by decide) ?_
  have hbyte : ∀ x ∈ p.payload.toList.map UInt8.toNat, x < 256 := by
    intro x hx
    obtain ⟨b,-,rfl⟩ := List.mem_map.mp hx
    exact b.toNat_lt
  have hlen : (p.payload.toList.map UInt8.toNat).length = 20 := by simp
  match hxs : p.payload.toList.map UInt8.toNat with
  | [] => rw [hxs] at hlen; cases hlen
  | [_] => rw [hxs] at hlen; cases hlen
  | x :: y :: xs =>
    rw [hxs] at hbyte
    have hx := hbyte x (by simp)
    have hy := hbyte y (by simp)
    refine wrapSum_cons_lt (by decide) (by omega) fun z hz => ?_
    have := hbyte z (by simp [hz])
    omega

/-- With the checksum of `p`, a packet passes whose sum is that of `p`. -/
theorem checkCorrupted_iff {p q : Pkt} (hq : q.checksum = (computeChecksum p).checksum) :
    checkCorrupted q = false ↔ byteSum q % 65536 = byteSum p % 65536 := by
  have hlow : byteSum p % 65536 < 65536 := Nat.mod_lt _ (by decide)
  have hsum : (byteSum q + (4294967295 - byteSum p % 65536)) % 4294967296 % 65536 = 65535 ↔
      byteSum q % 65536 = byteSum p % 65536 := by
    omega
  simp only [checkCorrupted,hq,computeChecksum,and_ffff,uint_complement hlow]
  rw [← hsum,bne_eq_false_iff_eq]

theorem checkCorrupted_iff_digit {p q : Pkt} (hq : q.checksum = (computeChecksum p).checksum)
    (hp : headerSum p < 2147483648) (hq' : headerSum q < 2147483648) :
    checkCorrupted q = false ↔
      digit 65536 (headerSum q + payloadSum q.payload) =
        digit 65536 (headerSum p + payloadSum p.payload) := by
  have hltp := digit_lt (B := 65536) (by decide) (headerSum p + payloadSum p.payload)
  have hltq := digit_lt (B := 65536) (by decide) (headerSum q + payloadSum q.payload)
  rw [checkCorrupted_iff hq,byteSum_eq hp,byteSum_eq hq',Nat.mod_eq_of_lt hltp,
    Nat.mod_eq_of_lt hltq]

/-! Soundness, and what the check detects. -/

/-- One of the two numbers is not used, and the other is not negative. -/
def OneNumber (p : Pkt) : Prop :=
  p.seqnum = 0 ∧ 0 ≤ p.acknum ∧ p.acknum < 2147483648 ∨
    p.acknum = 0 ∧ 0 ≤ p.seqnum ∧ p.seqnum < 2147483648

theorem OneNumber.headerSum {p : Pkt} (h : OneNumber p) :
    (headerSum p : Int) = p.seqnum + p.acknum ∧ Rdt.headerSum p < 2147483648 := by
  unfold Rdt.headerSum uint
  rcases h with ⟨h0,hlo,hhi⟩ | ⟨h0,hlo,hhi⟩ <;> omega

theorem detects_iff {p q : Pkt} (h : OneNumber p) (hs : q.seqnum = p.seqnum)
    (ha : q.acknum = p.acknum) (hc : q.checksum = (computeChecksum p).checksum) :
    checkCorrupted q = false ↔ payloadSum q.payload = payloadSum p.payload := by
  have hhead : headerSum q = headerSum p := by rw [headerSum,hs,ha,headerSum]
  have hp := h.headerSum.2
  have hleq := payloadSum_le q.payload
  have hlep := payloadSum_le p.payload
  rw [checkCorrupted_iff_digit hc hp (hhead ▸ hp),hhead,
    digit_inj_of_close (by decide) (by omega) (by omega)]
  omega

/-- Every packet passes with its own checksum. Under the same header the check tells two
payloads apart exactly when their bytes have different sums, so it notices each change of a
single byte. -/
theorem checksum_detects :
    (∀ p : Pkt, checkCorrupted (computeChecksum p) = false) ∧
    (∀ p q : Pkt, OneNumber p → q.seqnum = p.seqnum → q.acknum = p.acknum →
      q.checksum = (computeChecksum p).checksum →
      (checkCorrupted q = false ↔ payloadSum q.payload = payloadSum p.payload)) ∧
    ∀ p : Pkt, OneNumber p → ∀ (i : Fin 20) (b : UInt8), b ≠ p.payload[i] →
      checkCorrupted { computeChecksum p with payload := p.payload.set i b } = true := by
  refine ⟨checkCorrupted_computeChecksum,fun p q => detects_iff,fun p h i b hb => ?_⟩
  have hiff := detects_iff (q := { computeChecksum p with payload := p.payload.set i b })
    h rfl rfl rfl
  have hset := payloadSum_set p.payload i.isLt b
  have hne : b.toNat ≠ p.payload[i].toNat := fun he => hb (UInt8.toNat_inj.mp he)
  rw [← Bool.not_eq_false,hiff]
  change payloadSum (p.payload.set i b) + p.payload[i].toNat = _ at hset
  change payloadSum (p.payload.set i b) ≠ _
  omega

/-- Packet 7 with one byte that differs from the others. -/
def samplePkt : Pkt := computeChecksum ⟨7,0,0,(Vector.replicate 20 97).set (0 : Fin 20) 98⟩

theorem checksum_detects_swap :
    checkCorrupted { samplePkt with payload := (Vector.replicate 20 97).set 1 98 } = false ∧
      checkCorrupted { samplePkt with payload := samplePkt.payload.set (0 : Fin 20) 97 } =
        true := by
  have h : OneNumber samplePkt := Or.inr ⟨rfl,by decide,by decide⟩
  exact ⟨(checksum_detects.2.1 samplePkt _ h rfl rfl rfl).mpr (by decide),
    checksum_detects.2.2 samplePkt h 0 97 (by decide)⟩

/-! What happens to the packets that `tolayer3` corrupts. -/

/-- The packets that A and B build. -/
inductive Built : Pkt → Prop where
  | data (k : Int) (d : Payload) : 0 ≤ k → k < 2147483648 → Built (dataPkt k d)
  | ack (k : Int) : 0 ≤ k → k < 2147483648 → Built (ackPkt k)

theorem Built.oneNumber {p : Pkt} (h : Built p) :
    OneNumber p ∧ p.checksum = (computeChecksum p).checksum := by
  cases h with
  | data k d hlo hhi => exact ⟨Or.inr ⟨rfl,hlo,hhi⟩,rfl⟩
  | ack k hlo hhi => exact ⟨Or.inl ⟨rfl,hlo,hhi⟩,rfl⟩

/-- A corrupted packet is noticed unless its number and its first byte had the sum of what
they are replaced by, modulo 65535. -/
theorem corrupted_rejected {p : Pkt} (h : Built p) :
    checkCorrupted (corrupted p) = true ↔
      (p.seqnum + p.acknum + p.payload[(0 : Fin 20)].toNat) % 65535 ≠ 34038 := by
  obtain ⟨hone,hsum⟩ := h.oneNumber
  obtain ⟨hhead,hlt⟩ := hone.headerSum
  have hset := payloadSum_set p.payload (i := 0) (by decide) 90
  have hhead' : headerSum (corrupted p) = 1999998 := by simp [headerSum,uint]
  rw [← Bool.not_eq_false,
    checkCorrupted_iff_digit (p := p) (q := corrupted p) hsum hlt (by rw [hhead']; decide),
    not_iff_not,hhead',digit_inj (by decide)]
  change 1999998 + payloadSum (p.payload.set 0 90) ≡ _ [MOD 65535] ∧ _ ↔
    (p.seqnum + p.acknum + p.payload[0].toNat) % 65535 = 34038
  change payloadSum (p.payload.set 0 90) + p.payload[0].toNat = payloadSum p.payload + 90 at hset
  unfold Nat.ModEq
  omega

theorem corrupted_rejected_ack : checkCorrupted (corrupted (ackPkt 3)) = true :=
  (corrupted_rejected (.ack 3 (by decide) (by decide))).mpr (by decide)

theorem not_corrupted_rejected_always :
    ¬∀ p : Pkt, Built p → checkCorrupted (corrupted p) = true := by
  intro hall
  have h := hall _ (.data 33941 (Vector.replicate 20 97) (by decide) (by decide))
  exact absurd h (by decide +kernel)

end NetworkLab.Rdt
