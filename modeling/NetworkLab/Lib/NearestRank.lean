import Mathlib.Data.List.Sort
set_option autoImplicit false

/-! The elements of a list by their rank. Nothing here is about a particular list. -/

namespace NetworkLab.Rank

variable {α : Type} [LinearOrder α] {l s : List α} {x : α} {k : Nat}

/-- How many elements are at most `x`. -/
def atMost (l : List α) (x : α) : Nat := l.countP fun y => y ≤ x

theorem atMost_of_perm (h : s.Perm l) (x : α) : atMost s x = atMost l x := h.countP_eq _

theorem atMost_eq_length_iff : atMost l x = l.length ↔ ∀ y ∈ l, y ≤ x := by
  simp [atMost,List.countP_eq_length]

theorem lt_atMost_of_getElem_le (hs : s.SortedLE) (hk : k < s.length) (h : s[k] ≤ x) :
    k < atMost s x := by
  have hlen : (s.take (k + 1)).length = k + 1 := List.length_take_of_le hk
  have hall : (s.take (k + 1)).countP (fun y => y ≤ x) = (s.take (k + 1)).length := by
    rw [List.countP_eq_length]
    intro y hy
    obtain ⟨i,hi,rfl⟩ := List.mem_take_iff_getElem.mp hy
    have hle : s[i] ≤ s[k] := hs.getElem_le_getElem_of_le (by omega)
    exact decide_eq_true (hle.trans h)
  have hle : (s.take (k + 1)).countP (fun y => y ≤ x) ≤ atMost s x :=
    (List.take_sublist (k + 1) s).countP_le
  omega

/-- More than `k` elements are at most `x` exactly when the one with the rank `k` is. -/
theorem lt_atMost_iff (hs : s.SortedLE) (hk : k < s.length) : k < atMost s x ↔ s[k] ≤ x := by
  refine ⟨fun h => ?_,lt_atMost_of_getElem_le hs hk⟩
  by_contra hlt
  have hnone : (s.drop k).countP (fun y => y ≤ x) = 0 := by
    rw [List.countP_eq_zero]
    intro y hy
    obtain ⟨i,hi,rfl⟩ := List.mem_drop_iff_getElem.mp hy
    have hle : s[k] ≤ s[k + i] := hs.getElem_le_getElem_of_le (Nat.le_add_right k i)
    simpa using lt_of_lt_of_le (not_le.mp hlt) hle
  have hcount : atMost s x = (s.take k).countP (fun y => y ≤ x) := by
    have hsplit := congrArg (List.countP fun y => y ≤ x) (List.take_append_drop k s)
    rw [List.countP_append,hnone,Nat.add_zero] at hsplit
    exact hsplit.symm
  have hle : (s.take k).countP (fun y => y ≤ x) ≤ k :=
    List.countP_le_length.trans (List.length_take_le k s)
  omega

end NetworkLab.Rank
