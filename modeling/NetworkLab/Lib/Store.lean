import Mathlib.Logic.Function.Basic
import Mathlib.Data.List.Infix
set_option autoImplicit false

/-! A store of files: each file is absent or holds a list. Nothing here is about a
particular file system. -/

namespace NetworkLab

variable {F α : Type} [DecidableEq F]

abbrev Store (F α : Type) := F → Option (List α)

namespace Store
variable (s : Store F α) (f g : F) (data : List α)

/-- Make the file, or empty the one that is there. -/
def create : Store F α := Function.update s f (some [])

def append : Store F α := Function.update s f (some ((s f).getD [] ++ data))

def delete : Store F α := Function.update s f none

/-- `g` takes the content of `f` and replaces a file that is there; a file moved onto
itself stays. -/
def move : Store F α :=
  if f = g then s else Function.update (Function.update s g (s f)) f none

@[simp] theorem create_self : s.create f f = some [] := Function.update_self ..

@[simp] theorem delete_self : s.delete f f = none := Function.update_self ..

theorem move_self : s.move f f = s := if_pos rfl

variable {f g}

variable {s} in
omit [DecidableEq F] in
theorem ne_of_taken_of_free (hf : (s f).isSome) (hg : s g = none) : f ≠ g := by
  rintro rfl
  rw [hg] at hf
  cases hf

@[simp] theorem delete_of_ne (h : g ≠ f) : s.delete f g = s g := Function.update_of_ne h ..

theorem move_source (h : f ≠ g) : s.move f g f = none := by
  rw [move,if_neg h,Function.update_self]

theorem move_target : s.move f g g = s f := by
  by_cases h : f = g
  · rw [h,move_self]
  · rw [move,if_neg h,Function.update_of_ne (Ne.symm h),Function.update_self]

theorem move_of_ne {k : F} (hf : k ≠ f) (hg : k ≠ g) : s.move f g k = s k := by
  rw [move]
  split
  · rfl
  · rw [Function.update_of_ne hf,Function.update_of_ne hg]

variable {s} in
/-- What the target held before is lost. -/
theorem move_update_target (h : f ≠ g) (o : Option (List α)) :
    move (Function.update s g o) f g = s.move f g := by
  rw [move,move,if_neg h,if_neg h,Function.update_of_ne h,Function.update_idem]

/-- A file that is created and appended to holds what was appended. -/
theorem append_update (content : List α) :
    append (Function.update s f (some content)) f data =
      Function.update s f (some (content ++ data)) := by
  rw [append,Function.update_self,Function.update_idem]
  rfl

/-! Every file holds at most `n` elements. -/

def Bounded (n : Nat) : Prop := ∀ f content, s f = some content → content.length ≤ n

variable {s} {n : Nat}

theorem Bounded.update {o : Option (List α)} (h : s.Bounded n)
    (ho : ∀ content, o = some content → content.length ≤ n) :
    Bounded (Function.update s f o) n := by
  intro k content hk
  by_cases hf : k = f
  · rw [hf,Function.update_self] at hk
    exact ho content hk
  · rw [Function.update_of_ne hf] at hk
    exact h k content hk

theorem Bounded.delete (h : s.Bounded n) : (s.delete f).Bounded n :=
  h.update fun _ hc => by cases hc

theorem Bounded.move (h : s.Bounded n) : (s.move f g).Bounded n := by
  unfold Store.move
  split
  · exact h
  · exact (h.update (h f)).update fun _ hc => by cases hc

end Store

end NetworkLab
