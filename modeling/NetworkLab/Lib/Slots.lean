import Mathlib.Data.Nat.ModEq
import Mathlib.Logic.Function.Basic
set_option autoImplicit false

/-! Arithmetic of a ring buffer with `W` slots in which item `k` lives in slot `k % W`. -/

namespace NetworkLab.Slots

theorem slot_succ (k W : Nat) : (k % W + 1) % W = (k + 1) % W := Nat.mod_add_mod k W 1

theorem slot_add (k i W : Nat) : (k % W + i) % W = (k + i) % W := Nat.mod_add_mod k W i

/-- Two items less than one round apart do not share a slot. -/
theorem slot_inj {a b W : Nat} (h : a % W = b % W) (hab : a < b + W) (hba : b < a + W) :
    a = b := by
  rcases Nat.le_total a b with hle | hle
  · have hd : W ∣ b - a := (Nat.modEq_iff_dvd' hle).mp h
    have hz : b - a = 0 := Nat.eq_zero_of_dvd_of_lt hd (by omega)
    omega
  · have hd : W ∣ a - b := (Nat.modEq_iff_dvd' hle).mp h.symm
    have hz : a - b = 0 := Nat.eq_zero_of_dvd_of_lt hd (by omega)
    omega

theorem slot_ne {a b W : Nat} (hab : a < b) (hba : b < a + W) : a % W ≠ b % W :=
  fun h => by have := slot_inj h (by omega) hba; omega

/-- Items that share a slot are at least one round apart. -/
theorem slot_apart {a b W : Nat} (h : a % W = b % W) (hne : a ≠ b) : a + W ≤ b ∨ b + W ≤ a := by
  by_contra hcon
  exact hne (slot_inj h (by omega) (by omega))

theorem slot_back {a W : Nat} (h : W ≤ a) : (a - W) % W = a % W :=
  (Nat.mod_eq_sub_mod h).symm

/-! A queue in a ring: `l` was put into consecutive slots from `front` on, and `rear`
is where the next element goes. -/

section Queue
variable {α : Type*} {slots : Nat → α} {cap front rear : Nat} {l : List α}

/-- Only the last `cap` elements of `l` are sure to be there still. -/
structure Written (slots : Nat → α) (cap front rear : Nat) (l : List α) : Prop where
  holds : ∀ i (h : i < l.length), l.length ≤ i + cap → slots ((front + i) % cap) = l[i]
  front_lt : front < cap
  rear_eq : rear = (front + l.length) % cap

theorem written_nil (h : 0 < cap) : Written slots cap 0 0 [] :=
  ⟨fun _ h => absurd h (Nat.not_lt_zero _),h,(Nat.zero_mod cap).symm⟩

theorem Written.push (h : Written slots cap front rear l) (x : α) :
    Written (Function.update slots rear x) cap front ((rear + 1) % cap) (l ++ [x]) := by
  refine ⟨fun i hi hc => ?_,h.front_lt,?_⟩
  · rw [List.length_append,List.length_singleton] at hi hc
    rw [h.rear_eq]
    rcases Nat.lt_or_eq_of_le (Nat.le_of_lt_succ hi) with hlt | rfl
    · rw [List.getElem_append_left hlt,
        Function.update_of_ne (slot_ne (by omega) (by omega)),h.holds i hlt (by omega)]
    · simp
  · rw [h.rear_eq,List.length_append,slot_succ]
    rfl

theorem Written.pop {x : α} (h : Written slots cap front rear (x :: l)) :
    Written slots cap ((front + 1) % cap) rear l := by
  refine ⟨fun i hi hc => ?_,Nat.mod_lt _ (Nat.zero_lt_of_lt h.front_lt),?_⟩
  · rw [slot_add,Nat.add_right_comm]
    exact h.holds (i + 1) (by simpa using hi) (by rw [List.length_cons]; omega)
  · rw [h.rear_eq,slot_add,List.length_cons,Nat.add_right_comm,Nat.add_assoc]

/-- The next element goes where the one `cap` places before it stands. -/
theorem Written.rear_back (h : Written slots cap front rear l) (hc : cap ≤ l.length) :
    rear = (front + (l.length - cap)) % cap := by
  have he : front + l.length = front + (l.length - cap) + cap := by omega
  rw [h.rear_eq,he,Nat.add_mod_right]

section Faithful
variable {β : Type*} {f : α → β}

/-- As far as `f` sees, the ring still holds all of `l`. -/
def Faithful (f : α → β) (slots : Nat → α) (cap front : Nat) (l : List α) : Prop :=
  ∀ i (h : i < l.length), f (slots ((front + i) % cap)) = f l[i]

/-- A ring stays faithful exactly when what it overwrites looks the same. -/
theorem Written.faithful_push (h : Written slots cap front rear l) (x : α) :
    Faithful f (Function.update slots rear x) cap front (l ++ [x]) ↔
      Faithful f slots cap front l ∧ (cap ≤ l.length → f (slots rear) = f x) := by
  have hlast : ∀ (hi : l.length < (l ++ [x]).length), (l ++ [x])[l.length] = x :=
    fun _ => by simp
  have hold : ∀ i (hi : i < l.length) (hi' : i < (l ++ [x]).length), (l ++ [x])[i] = l[i] :=
    fun i hi _ => List.getElem_append_left hi
  have hlap : ∀ i < l.length, (front + i) % cap = rear → cap ≤ l.length := by
    intro i hi he
    by_contra hc
    rw [h.rear_eq] at he
    exact slot_ne (by omega) (by omega) he
  constructor
  · intro hf
    have hrear : cap ≤ l.length → f (slots rear) = f x := by
      intro hc
      have hpos := Nat.zero_lt_of_lt h.front_lt
      have hlt : l.length - cap < l.length := by omega
      have hi := hf (l.length - cap) (by rw [List.length_append]; omega)
      rw [hold _ hlt,← h.rear_back hc,Function.update_self,
        ← h.holds (l.length - cap) hlt (by omega),← h.rear_back hc] at hi
      exact hi.symm
    refine ⟨fun i hi => ?_,hrear⟩
    have hfi := hf i (by rw [List.length_append]; omega)
    rw [hold i hi _] at hfi
    by_cases he : (front + i) % cap = rear
    · rw [he,Function.update_self] at hfi
      rw [he,hrear (hlap i hi he),hfi]
    · rwa [Function.update_of_ne he] at hfi
  · rintro ⟨hf,hrear⟩ i hi
    rw [List.length_append,List.length_singleton] at hi
    rcases Nat.lt_or_eq_of_le (Nat.le_of_lt_succ hi) with hlt | rfl
    · rw [hold i hlt]
      by_cases he : (front + i) % cap = rear
      · rw [he,Function.update_self,← hf i hlt,he,hrear (hlap i hlt he)]
      · rw [Function.update_of_ne he,hf i hlt]
    · rw [hlast,← h.rear_eq,Function.update_self]

theorem faithful_pop {x : α} (hfront : front < cap) :
    Faithful f slots cap front (x :: l) ↔
      f (slots front) = f x ∧ Faithful f slots cap ((front + 1) % cap) l := by
  constructor
  · intro h
    refine ⟨?_,fun i hi => ?_⟩
    · have h0 := h 0 (by simp)
      rwa [Nat.add_zero,Nat.mod_eq_of_lt hfront] at h0
    · rw [slot_add,Nat.add_right_comm]
      exact h (i + 1) (by simpa using hi)
  · rintro ⟨hx,h⟩ i hi
    cases i with
    | zero =>
      rw [Nat.add_zero,Nat.mod_eq_of_lt hfront]
      exact hx
    | succ i =>
      have := h i (by simpa using hi)
      rwa [slot_add,Nat.add_right_comm] at this

theorem faithful_nil : Faithful f slots cap front [] := fun _ h => absurd h (Nat.not_lt_zero _)

end Faithful

/-- A ring that has not overflowed. -/
structure Buffered (slots : Nat → α) (cap front rear : Nat) (l : List α) : Prop
    extends Written slots cap front rear l where
  le_cap : l.length ≤ cap

theorem buffered_nil (h : 0 < cap) : Buffered slots cap 0 0 [] :=
  ⟨written_nil h,Nat.zero_le _⟩

theorem Buffered.push (h : Buffered slots cap front rear l) (hc : l.length < cap) (x : α) :
    Buffered (Function.update slots rear x) cap front ((rear + 1) % cap) (l ++ [x]) := by
  refine ⟨h.toWritten.push x,?_⟩
  rw [List.length_append]
  exact hc

theorem Buffered.pop {x : α} (h : Buffered slots cap front rear (x :: l)) :
    slots front = x ∧ Buffered slots cap ((front + 1) % cap) rear l := by
  have hle := h.le_cap
  have hx := h.holds 0 (by simp) (by omega)
  rw [Nat.add_zero,Nat.mod_eq_of_lt h.front_lt] at hx
  refine ⟨hx,h.toWritten.pop,?_⟩
  rw [List.length_cons] at hle
  omega

end Queue

end NetworkLab.Slots
