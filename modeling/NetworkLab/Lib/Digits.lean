import Mathlib.Algebra.Group.Nat.Defs
set_option autoImplicit false

/-! Numbers in digits, in a field of fixed width. Nothing here is about a particular program. -/

namespace NetworkLab.Digits

def digitVal (c : Char) : Nat := if c.toNat < 97 then c.toNat - 48 else c.toNat - 87

theorem digitVal_digitChar : ∀ {d : Nat}, d < 16 → digitVal d.digitChar = d := by
  decide

/-- Reads the digits from the left. -/
def value (b : Nat) (cs : List Char) : Nat := cs.foldl (fun v c => b * v + digitVal c) 0

/-- The digits of the number, with zeros before them. -/
def padded (b width n : Nat) : List Char := List.leftpad width '0' (Nat.toDigits b n)

section Digits
variable {b width n m : Nat}

@[simp]
theorem value_concat (cs : List Char) (c : Char) :
    value b (cs ++ [c]) = b * value b cs + digitVal c := by
  simp [value]

theorem value_toDigits (hb : 1 < b) (hb' : b ≤ 16) (n : Nat) : value b (Nat.toDigits b n) = n := by
  induction n using Nat.strongRecOn with
  | ind n ih =>
    rw [Nat.toDigits_eq_if hb]
    split
    · rename_i hn
      simp [value,digitVal_digitChar (Nat.lt_of_lt_of_le hn hb')]
    · rename_i hn
      have hmod : n % b < 16 := Nat.lt_of_lt_of_le (Nat.mod_lt n (by omega)) hb'
      rw [value_concat,ih (n / b) (Nat.div_lt_self (by omega) hb),digitVal_digitChar hmod,
        Nat.div_add_mod]

theorem value_zeros_append (k : Nat) (cs : List Char) :
    value b (List.replicate k '0' ++ cs) = value b cs := by
  have hzeros : value b (List.replicate k '0') = 0 := by
    induction k with
    | zero => rfl
    | succ k ih =>
      rw [List.replicate_succ',value_concat,ih]
      rfl
  rw [value,List.foldl_append,← value,hzeros,← value]

theorem value_padded (hb : 1 < b) (hb' : b ≤ 16) (width n : Nat) :
    value b (padded b width n) = n := by
  rw [padded,List.leftpad,value_zeros_append,value_toDigits hb hb']

/-- Different numbers have different digits. -/
theorem padded_inj (hb : 1 < b) (hb' : b ≤ 16) (h : padded b width n = padded b width m) :
    n = m := by
  rw [← value_padded hb hb' width n,h,value_padded hb hb']

theorem length_padded (hb : 1 < b) (hw : 0 < width) (hn : n < b ^ width) :
    (padded b width n).length = width := by
  rw [padded,List.length_leftpad]
  exact Nat.max_eq_left ((Nat.length_toDigits_le_iff hb hw).mpr hn)

theorem mem_toDigits (hb : 1 < b) {c : Char} (hc : c ∈ Nat.toDigits b n) :
    ∃ d, d < b ∧ c = d.digitChar := by
  induction n using Nat.strongRecOn with
  | ind n ih =>
    rw [Nat.toDigits_eq_if hb] at hc
    split at hc
    · rename_i hn
      exact ⟨n,hn,List.mem_singleton.mp hc⟩
    · rcases List.mem_append.mp hc with hc | hc
      · exact ih (n / b) (Nat.div_lt_self (by omega) hb) hc
      · exact ⟨n % b,Nat.mod_lt n (by omega),List.mem_singleton.mp hc⟩

theorem mem_padded (hb : 1 < b) {c : Char} (hc : c ∈ padded b width n) :
    ∃ d, d < b ∧ c = d.digitChar := by
  rcases List.mem_append.mp hc with hc | hc
  · exact ⟨0,by omega,List.eq_of_mem_replicate hc⟩
  · exact mem_toDigits hb hc

end Digits

end NetworkLab.Digits
