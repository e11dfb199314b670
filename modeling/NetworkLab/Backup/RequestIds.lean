import NetworkLab.Lib.Digits
import NetworkLab.Backup.Utils
set_option autoImplicit false

/-! `generateRequestId` of `utils.cpp`: the clock and a counter in eight digits. -/

namespace NetworkLab.Backup
open Digits

/-- Lower 16 bits of the clock and of the counter; what is mixed has 64 bits until it is stored. -/
def mixed (ms : Int64) (cnt : UInt32) : UInt32 :=
  (((ms &&& 0xFFFF) <<< 16) ||| (cnt &&& 0xFFFF).toUInt64.toInt64).toUInt64.toUInt32

/-- With the nanoseconds of the clock, and the counter before and after it. The cast to
milliseconds rounds towards zero. -/
def generateRequestId (now : Int64) (counter : UInt32) : Bytes × UInt32 :=
  let ms := now / 1000000
  (ascii (padded 16 8 (mixed ms counter).toNat),counter + 1)

/-- Calls in the order of their increments, each with what it has read from the clock. -/
def requestIds (counter : UInt32) : List Int64 → List Bytes
  | [] => []
  | now :: readings =>
      let (id,counter) := generateRequestId now counter
      id :: requestIds counter readings

theorem length_requestIds (counter : UInt32) (readings : List Int64) :
    (requestIds counter readings).length = readings.length := by
  induction readings generalizing counter with
  | nil => rfl
  | cons now readings ih => simp [requestIds,ih]

theorem getElem?_requestIds (counter : UInt32) (readings : List Int64) (i : Nat) :
    (requestIds counter readings)[i]? =
      readings[i]?.map fun now => (generateRequestId now (counter + .ofNat i)).1 := by
  induction readings generalizing counter i with
  | nil => rfl
  | cons now readings ih =>
    cases i with
    | zero => simp [requestIds,generateRequestId]
    | succ i =>
      have hsucc : counter + 1 + UInt32.ofNat i = counter + UInt32.ofNat (i + 1) := by
        rw [UInt32.ofNat_add,UInt32.add_assoc,UInt32.add_comm 1]
        rfl
      rw [requestIds,List.getElem?_cons_succ,List.getElem?_cons_succ,← hsucc]
      exact ih (counter + 1) i

/-- The counter is in the lower 16 bits. -/
theorem mixed_mod (ms : Int64) (cnt : UInt32) :
    (mixed ms cnt).toNat % 2 ^ 16 = cnt.toNat % 2 ^ 16 := by
  have hshift : ((ms &&& 0xFFFF) <<< 16).toUInt64 = (ms &&& 0xFFFF).toUInt64 <<< 16 := rfl
  have hcnt : (cnt &&& 0xFFFF).toNat = cnt.toNat % 2 ^ 16 := by
    rw [UInt32.toNat_and]
    exact Nat.and_two_pow_sub_one_eq_mod cnt.toNat 16
  have hzero : ((ms &&& 0xFFFF).toUInt64 <<< 16).toNat % 2 ^ 16 = 0 := by
    rw [UInt64.toNat_shiftLeft,Nat.shiftLeft_eq]
    have hsixteen : UInt64.toNat 16 % 64 = 16 := rfl
    rw [hsixteen]
    omega
  rw [mixed,UInt64.toNat_toUInt32,Int64.toUInt64_or,hshift]
  rw [Nat.mod_mod_of_dvd _ (by decide),UInt64.toNat_or,Nat.or_mod_two_pow,hzero,Nat.zero_or]
  have hcast : (cnt &&& 0xFFFF).toUInt64.toInt64.toUInt64.toNat = (cnt &&& 0xFFFF).toNat := rfl
  rw [hcast,hcnt,Nat.mod_mod]

theorem chars_ascii {cs : List Char} (h : ∀ c ∈ cs, c.toNat < 256) :
    (ascii cs).map (fun b => Char.ofNat b.toNat) = cs := by
  rw [ascii,List.map_map]
  refine (List.map_congr_left fun c hc => ?_).trans (List.map_id cs)
  have hlt : (UInt8.ofNat c.toNat).toNat = c.toNat := UInt8.toNat_ofNat_of_lt' (h c hc)
  rw [Function.comp_apply,hlt,Char.ofNat_toNat]
  rfl

/-- `0123456789abcdef` -/
def hexDigits : Bytes := ascii "0123456789abcdef".toList

theorem digitChar_hex : ∀ {d : Nat}, d < 16 →
    d.digitChar.toNat < 256 ∧ UInt8.ofNat d.digitChar.toNat ∈ hexDigits := by
  decide

section Ids
variable {now now' : Int64} {counter counter' : UInt32}

theorem length_generateRequestId : (generateRequestId now counter).1.length = 8 := by
  rw [generateRequestId,ascii,List.length_map]
  exact length_padded (by decide) (by decide) (UInt32.toNat_lt _)

theorem mem_generateRequestId {c : UInt8} (hc : c ∈ (generateRequestId now counter).1) :
    c ∈ hexDigits := by
  obtain ⟨digit,hdigit,rfl⟩ := List.mem_map.mp hc
  obtain ⟨d,hd,rfl⟩ := mem_padded (by decide) hdigit
  exact (digitChar_hex hd).2

theorem ascii_padded_inj {width n m : Nat}
    (h : ascii (padded 16 width n) = ascii (padded 16 width m)) : n = m := by
  have hchars : ∀ n, ∀ c ∈ padded 16 width n, c.toNat < 256 := by
    intro n c hc
    obtain ⟨d,hd,rfl⟩ := mem_padded (by decide) hc
    exact (digitChar_hex hd).1
  have hpadded := congrArg (List.map fun b => Char.ofNat b.toNat) h
  rw [chars_ascii (hchars n),chars_ascii (hchars m)] at hpadded
  exact padded_inj (by decide) (by decide) hpadded

/-- The identifier tells the counter, whatever the clock has read. -/
theorem counter_of_generateRequestId
    (h : (generateRequestId now counter).1 = (generateRequestId now' counter').1) :
    counter.toNat % 2 ^ 16 = counter'.toNat % 2 ^ 16 := by
  rw [← mixed_mod (now / 1000000) counter,← mixed_mod (now' / 1000000) counter']
  exact congrArg (· % 2 ^ 16) (ascii_padded_inj h)

end Ids

/-- Eight digits, which do not come again within 65536 calls. -/
theorem requestIds_distinct (counter : UInt32) (readings : List Int64) :
    (requestIds counter readings).length = readings.length ∧
    (∀ id ∈ requestIds counter readings, id.length = 8 ∧ ∀ c ∈ id, c ∈ hexDigits) ∧
    ∀ (i j : Nat) (id id' : Bytes), (requestIds counter readings)[i]? = some id →
      (requestIds counter readings)[j]? = some id' → i ≠ j → i < j + 65536 → j < i + 65536 →
        id ≠ id' := by
  refine ⟨length_requestIds counter readings,?_,?_⟩
  · intro id hid
    obtain ⟨i,hi⟩ := List.mem_iff_getElem?.mp hid
    rw [getElem?_requestIds] at hi
    obtain ⟨now,-,rfl⟩ := Option.map_eq_some_iff.mp hi
    exact ⟨length_generateRequestId,fun c hc => mem_generateRequestId hc⟩
  · rintro i j id id' hi hj hne hij hji rfl
    rw [getElem?_requestIds] at hi hj
    obtain ⟨now,-,rfl⟩ := Option.map_eq_some_iff.mp hi
    obtain ⟨now',-,hsame⟩ := Option.map_eq_some_iff.mp hj
    have hcounter := counter_of_generateRequestId hsame
    rw [UInt32.toNat_add,UInt32.toNat_add,UInt32.toNat_ofNat',UInt32.toNat_ofNat'] at hcounter
    omega

example : (generateRequestId 1234567890123 0xABCD12).1 = ascii "d687cd12".toList := by decide

end NetworkLab.Backup
