import Mathlib.Logic.Function.Basic
import Mathlib.Order.Basic
set_option autoImplicit false

/-! Typed memory: cells at addresses, of which finitely many are allocated. A pointer is
null or an address. Whoever reads or writes a cell that is not allocated gets nothing. -/

namespace NetworkLab

abbrev Ptr := Option Nat

structure Heap (C : Type*) where
  cells : Nat → Option C
  bound : Nat
  above : ∀ a, bound ≤ a → cells a = none

namespace Heap
variable {C : Type*}

def empty : Heap C := ⟨fun _ => none,0,fun _ _ => rfl⟩

/-- The cell at `a` is allocated and holds `c` from now on. -/
def set (h : Heap C) (a : Nat) (c : C) : Heap C where
  cells := Function.update h.cells a (some c)
  bound := max h.bound (a+1)
  above b hb := by
    rw [Function.update_of_ne (by omega)]
    exact h.above b (by omega)

def erase (h : Heap C) (a : Nat) : Heap C where
  cells := Function.update h.cells a none
  bound := h.bound
  above b hb := by
    by_cases hab : b = a
    · rw [hab,Function.update_self]
    · rw [Function.update_of_ne hab]
      exact h.above b hb

def load (h : Heap C) (p : Ptr) : Option C := p.bind h.cells

def modify (h : Heap C) (p : Ptr) (f : C → C) : Option (Heap C) :=
  p.bind fun a => (h.cells a).map fun c => h.set a (f c)

/-- `none` also when the cell has been freed before. -/
def free (h : Heap C) (p : Ptr) : Option (Heap C) :=
  p.bind fun a => (h.cells a).map fun _ => h.erase a

section Access
variable {h : Heap C} {a b : Nat} {c : C}

@[simp] theorem empty_cells : (empty : Heap C).cells a = none := rfl

@[simp] theorem set_cells : (h.set a c).cells = Function.update h.cells a (some c) := rfl

@[simp] theorem erase_cells : (h.erase a).cells = Function.update h.cells a none := rfl

@[simp] theorem load_null : h.load none = none := rfl

@[simp] theorem load_some : h.load (some a) = h.cells a := rfl

theorem modify_some (hc : h.cells a = some c) (f : C → C) :
    h.modify (some a) f = some (h.set a (f c)) := by
  simp [modify,hc]

theorem free_some (hc : h.cells a = some c) : h.free (some a) = some (h.erase a) := by
  simp [free,hc]

theorem lt_bound (hc : h.cells a = some c) : a < h.bound := by
  by_contra hle
  rw [h.above a (by omega)] at hc
  cases hc

end Access
end Heap

/-- What `malloc` is: for the `n`-th call null, or an address at which nothing is allocated. -/
structure Allocator (C : Type*) where
  address : Nat → Heap C → Ptr
  fresh : ∀ (n : Nat) (h : Heap C) (a : Nat), address n h = some a → h.cells a = none

/-- No call is answered with null. -/
def Allocator.Succeeds {C : Type*} (al : Allocator C) : Prop := ∀ n h, al.address n h ≠ none

/-- The allocator that never uses an address twice. -/
def Allocator.bump {C : Type*} : Allocator C where
  address _ h := some h.bound
  fresh _ h a ha := by
    rw [← Option.some.inj ha]
    exact h.above h.bound (Nat.le_refl _)

theorem Allocator.bump_succeeds {C : Type*} : (bump : Allocator C).Succeeds :=
  fun _ _ h => Option.some_ne_none _ h

end NetworkLab
