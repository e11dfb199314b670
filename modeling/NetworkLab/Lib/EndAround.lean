import Mathlib.Data.Nat.ModEq
import Mathlib.Algebra.Order.BigOperators.Group.List
set_option autoImplicit false

/-! Sums with end-around carry in base `B`: what overflows a digit is added back in. They
are sums modulo `B - 1` in which zero is told apart from `B - 1`. -/

namespace NetworkLab.EndAround

variable {B : Nat}

/-- One addition: the carry goes back in once. -/
def carry (B n : Nat) : Nat := if n < B then n else n % B + n / B

def wrapSum (B s : Nat) (xs : List Nat) : Nat := xs.foldl (fun s x => carry B (s + x)) s

/-- The digit that stands for `n`: only zero itself is 0. -/
def digit (B n : Nat) : Nat := if n = 0 then 0 else (n - 1) % (B - 1) + 1

theorem carry_modEq (hB : 0 < B) (n : Nat) : carry B n ≡ n [MOD B - 1] := by
  unfold carry
  split
  · rfl
  · have hsplit : B*(n / B) = n / B + (B - 1)*(n / B) := by
      rw [Nat.sub_mul,Nat.one_mul]
      have := Nat.le_mul_of_pos_left (n / B) hB
      omega
    have hn : n = n % B + n / B + (B - 1)*(n / B) := by
      rw [Nat.add_assoc,← hsplit,Nat.mod_add_div]
    calc n % B + n / B ≡ n % B + n / B + (B - 1)*(n / B) [MOD B - 1] :=
          (Nat.ModEq.refl _).trans (by simp [Nat.ModEq])
      _ = n := hn.symm

theorem carry_eq_zero (hB : 0 < B) {n : Nat} : carry B n = 0 ↔ n = 0 := by
  unfold carry
  split
  · rfl
  · rename_i h
    have := Nat.div_pos (Nat.le_of_not_lt h) hB
    omega

theorem carry_le (hB : 0 < B) (n : Nat) : carry B n ≤ B - 1 + n / B := by
  unfold carry
  split
  · rename_i h
    exact (Nat.le_sub_one_of_lt h).trans (Nat.le_add_right _ _)
  · have := Nat.mod_lt n hB
    omega

/-- The carry of the carry: a sum that is one digit and a bit becomes one digit. -/
theorem carry_lt {n : Nat} (h : n + 1 < 2*B) : carry B n < B := by
  unfold carry
  split
  · assumption
  · rename_i hge
    have hdiv : n / B = 1 := by
      refine Nat.div_eq_of_lt_le ?_ ?_ <;> omega
    have hmod := Nat.mod_add_div n B
    rw [hdiv,Nat.mul_one] at hmod
    omega

theorem wrapSum_modEq (hB : 0 < B) (s : Nat) (xs : List Nat) :
    wrapSum B s xs ≡ s + xs.sum [MOD B - 1] := by
  induction xs generalizing s with
  | nil => rfl
  | cons x xs ih =>
    rw [List.sum_cons,← Nat.add_assoc]
    exact (ih _).trans ((carry_modEq hB (s + x)).add_right _)

theorem wrapSum_eq_zero (hB : 0 < B) {s : Nat} {xs : List Nat} :
    wrapSum B s xs = 0 ↔ s + xs.sum = 0 := by
  induction xs generalizing s with
  | nil => rfl
  | cons x xs ih =>
    rw [List.sum_cons,← Nat.add_assoc,Nat.add_eq_zero_iff,← carry_eq_zero hB (n := s + x),
      ← Nat.add_eq_zero_iff]
    exact ih

/-- A sum that is one digit stays so. -/
theorem wrapSum_lt {s : Nat} {xs : List Nat} (hs : s < B) (hxs : ∀ x ∈ xs, x < B) :
    wrapSum B s xs < B := by
  induction xs generalizing s with
  | nil => exact hs
  | cons x xs ih =>
    obtain ⟨hx,hxs⟩ := List.forall_mem_cons.mp hxs
    exact ih (carry_lt (by omega)) hxs

/-- Two rounds bring a sum down to one digit when the first carry is not too large. -/
theorem wrapSum_cons_lt {s x y : Nat} {xs : List Nat} (hB : 0 < B) (h : (s + x) / B + y < B)
    (hxs : ∀ z ∈ xs, z < B) : wrapSum B s (x :: y :: xs) < B := by
  have hfirst := carry_le hB (s + x)
  have hsecond : carry B (carry B (s + x) + y) < B := carry_lt (by omega)
  exact wrapSum_lt (s := carry B (carry B (s + x) + y)) hsecond hxs

theorem eq_digit (hB : 1 < B) {v n : Nat} (hv : v < B) (hmod : v ≡ n [MOD B - 1])
    (hzero : v = 0 ↔ n = 0) : v = digit B n := by
  unfold digit
  split
  · rename_i h
    exact hzero.mpr h
  · rename_i h
    have hv0 : v ≠ 0 := fun h0 => h (hzero.mp h0)
    have hpred : v - 1 ≡ n - 1 [MOD B - 1] := by
      refine Nat.ModEq.add_right_cancel' 1 ?_
      rwa [Nat.sub_add_cancel (Nat.pos_of_ne_zero hv0),Nat.sub_add_cancel (Nat.pos_of_ne_zero h)]
    have hlt : (v - 1) % (B - 1) = v - 1 := Nat.mod_eq_of_lt (by omega)
    have he : v - 1 = (n - 1) % (B - 1) := hlt.symm.trans hpred
    omega

theorem digit_lt (hB : 1 < B) (n : Nat) : digit B n < B := by
  unfold digit
  split
  · omega
  · have := Nat.mod_lt (n - 1) (show 0 < B - 1 by omega)
    omega

theorem digit_modEq (n : Nat) : digit B n ≡ n [MOD B - 1] := by
  unfold digit
  split
  · rename_i h
    rw [h]
  · rename_i h
    have hpred : (n - 1) % (B - 1) + 1 ≡ n - 1 + 1 [MOD B - 1] := (Nat.mod_modEq _ _).add_right 1
    rwa [Nat.sub_add_cancel (Nat.pos_of_ne_zero h)] at hpred

theorem digit_eq_zero {n : Nat} : digit B n = 0 ↔ n = 0 := by
  unfold digit
  split
  · rename_i h
    exact iff_of_true rfl h
  · rename_i h
    exact iff_of_false (Nat.succ_ne_zero _) h

theorem digit_inj (hB : 1 < B) {m n : Nat} :
    digit B m = digit B n ↔ m ≡ n [MOD B - 1] ∧ (m = 0 ↔ n = 0) := by
  constructor
  · intro h
    refine ⟨(digit_modEq m).symm.trans (h ▸ digit_modEq n),?_⟩
    rw [← digit_eq_zero (B := B),h,digit_eq_zero]
  · rintro ⟨hmod,hzero⟩
    exact eq_digit hB (digit_lt hB m) ((digit_modEq m).trans hmod)
      (digit_eq_zero.trans hzero)

theorem wrapSum_eq_digit (hB : 1 < B) {s : Nat} {xs : List Nat} (h : wrapSum B s xs < B) :
    wrapSum B s xs = digit B (s + xs.sum) :=
  eq_digit hB h (wrapSum_modEq (Nat.zero_lt_of_lt hB) s xs)
    (wrapSum_eq_zero (Nat.zero_lt_of_lt hB))

/-- Sums that are closer together than `B - 1` have different digits. -/
theorem digit_inj_of_close (hB : 1 < B) {m n : Nat} (hmn : m < n + (B - 1))
    (hnm : n < m + (B - 1)) : digit B m = digit B n ↔ m = n := by
  rw [digit_inj hB]
  constructor
  · rintro ⟨hmod,-⟩
    refine hmod.eq_of_abs_lt ?_
    rw [abs_lt]
    omega
  · rintro rfl
    exact ⟨rfl,Iff.rfl⟩

end NetworkLab.EndAround
