import Mathlib.Algebra.Order.BigOperators.Group.List
import Mathlib.Algebra.Order.Ring.Nat
import Mathlib.Data.List.Perm.Basic
import Mathlib.Order.Basic
set_option autoImplicit false

/-! Lists kept in order of time by a stable insertion: an element goes behind every
element that is not later. The element type, its time and its cost are parameters. -/

namespace NetworkLab.TimedList

variable {E T : Type*} [LinearOrder T] (time : E → T)

/-- Insert before the first strictly later element. -/
def insertTimed (x : E) : List E → List E
  | [] => [x]
  | y :: l => if time y ≤ time x then y :: insertTimed x l else x :: y :: l

variable {time} in
theorem insertTimed_of_lt {x y : E} {l : List E} (h : time x < time y) :
    insertTimed time x (y :: l) = x :: y :: l := if_neg (not_le_of_gt h)

variable {time} in
theorem insertTimed_of_le {x y : E} {l : List E} (h : time y ≤ time x) :
    insertTimed time x (y :: l) = y :: insertTimed time x l := if_pos h

def Ordered (l : List E) : Prop := l.Pairwise (fun x y => time x ≤ time y)

theorem insertTimed_perm (x : E) (l : List E) : (insertTimed time x l).Perm (x :: l) := by
  induction l with
  | nil => exact .refl _
  | cons y l ih =>
    simp only [insertTimed]
    split
    · exact (List.Perm.cons y ih).trans (List.Perm.swap x y l)
    · exact .refl _

@[simp] theorem mem_insertTimed {x y : E} {l : List E} :
    y ∈ insertTimed time x l ↔ y = x ∨ y ∈ l := by
  rw [(insertTimed_perm time x l).mem_iff,List.mem_cons]

theorem insertTimed_ordered (x : E) {l : List E} (h : Ordered time l) :
    Ordered time (insertTimed time x l) := by
  induction l with
  | nil => simp [insertTimed,Ordered]
  | cons y l ih =>
    obtain ⟨hy,hl⟩ := List.pairwise_cons.mp h
    simp only [insertTimed]
    split
    · rename_i hyx
      refine List.pairwise_cons.mpr ⟨fun z hz => ?_,ih hl⟩
      rcases (mem_insertTimed time).mp hz with rfl | hz
      · exact hyx
      · exact hy z hz
    · rename_i hyx
      have hxy : time x ≤ time y := le_of_lt (lt_of_not_ge hyx)
      refine List.pairwise_cons.mpr ⟨fun z hz => ?_,h⟩
      rcases List.mem_cons.mp hz with rfl | hz
      · exact hxy
      · exact hxy.trans (hy z hz)

/-- First in, first out: among the elements that `f` keeps, one that is not earlier
than the others comes last. -/
theorem filterMap_insertTimed {K : Type*} (f : E → Option K) {x : E} {k : K} {l : List E}
    (hx : f x = some k) (ho : Ordered time l)
    (h : ∀ y ∈ l, (f y).isSome → time y ≤ time x) :
    (insertTimed time x l).filterMap f = l.filterMap f ++ [k] := by
  induction l with
  | nil => simp [insertTimed,hx]
  | cons y l ih =>
    obtain ⟨hy,hl⟩ := List.pairwise_cons.mp ho
    have ih := ih hl fun z hz => h z (List.mem_cons_of_mem y hz)
    simp only [insertTimed]
    split
    · cases hf : f y <;> simp [hf,ih]
    · rename_i hyx
      -- everything from `y` on is later than `x`, so `f` keeps none of it
      have hnone : ∀ z ∈ y :: l, f z = none := by
        intro z hz
        by_contra hf
        have hzx := h z hz (Option.isSome_iff_ne_none.mpr hf)
        rcases List.mem_cons.mp hz with rfl | hz
        · exact hyx hzx
        · exact hyx ((hy z hz).trans hzx)
      rw [List.filterMap_cons_some hx,List.filterMap_eq_nil_iff.mpr hnone]
      rfl

theorem filterMap_insertTimed_none {K : Type*} (f : E → Option K) {x : E} {l : List E}
    (hx : f x = none) : (insertTimed time x l).filterMap f = l.filterMap f := by
  induction l with
  | nil => simp [insertTimed,hx]
  | cons y l ih =>
    simp only [insertTimed]
    split
    · cases hf : f y <;> simp [hf,ih]
    · rw [List.filterMap_cons_none hx]

theorem filterMap_eraseP {K : Type*} [DecidableEq K] (f : E → Option K) (p : E → Bool)
    (k : K) (hp : ∀ y, p y = true ↔ f y = some k) (l : List E) :
    (l.eraseP p).filterMap f = (l.filterMap f).erase k := by
  induction l with
  | nil => rfl
  | cons y l ih =>
    by_cases hy : p y = true
    · rw [List.eraseP_cons_of_pos hy,List.filterMap_cons_some ((hp y).mp hy),
        List.erase_cons_head]
    · rw [List.eraseP_cons_of_neg hy]
      cases hf : f y with
      | none => simp [hf,ih]
      | some k' =>
        have hk : k' ≠ k := by
          rintro rfl
          exact hy ((hp y).mpr hf)
        rw [List.filterMap_cons_some hf,List.filterMap_cons_some hf,ih,
          List.erase_cons_tail (by simpa using hk)]

theorem filterMap_eraseP_none {K : Type*} (f : E → Option K) (p : E → Bool)
    (hp : ∀ y, p y = true → f y = none) (l : List E) :
    (l.eraseP p).filterMap f = l.filterMap f := by
  induction l with
  | nil => rfl
  | cons y l ih =>
    by_cases hy : p y = true
    · rw [List.eraseP_cons_of_pos hy,List.filterMap_cons_none (hp y hy)]
    · rw [List.eraseP_cons_of_neg hy]
      cases hf : f y <;> simp [hf,ih]

theorem eraseP_ordered (p : E → Bool) {l : List E} (h : Ordered time l) :
    Ordered time (l.eraseP p) :=
  List.Pairwise.sublist (List.eraseP_sublist) h

/-- `x` stands in the list and what stands before it costs at most `n`. -/
def Ahead (cost : E → Nat) (x : E) (n : Nat) (l : List E) : Prop :=
  ∃ pre post, l = pre ++ x :: post ∧ (pre.map cost).sum ≤ n

theorem exists_ahead (cost : E → Nat) {x : E} {l : List E} (h : x ∈ l) :
    ∃ n, Ahead cost x n l := by
  obtain ⟨pre,post,rfl⟩ := List.append_of_mem h
  exact ⟨_,pre,post,rfl,Nat.le_refl _⟩

theorem Ahead.mem {cost : E → Nat} {x : E} {n : Nat} {l : List E}
    (h : Ahead cost x n l) : x ∈ l := by
  obtain ⟨pre,post,rfl,_⟩ := h
  simp

theorem Ahead.mono {cost : E → Nat} {x : E} {m n : Nat} {l : List E}
    (h : Ahead cost x m l) (hmn : m ≤ n) : Ahead cost x n l := by
  obtain ⟨pre,post,hl,hc⟩ := h
  exact ⟨pre,post,hl,Nat.le_trans hc hmn⟩

/-- Either `x` is the first element, or the first element is paid for and goes. -/
theorem Ahead.head {cost : E → Nat} {x y : E} {n : Nat} {l : List E}
    (h : Ahead cost x n (y :: l)) :
    x = y ∨ cost y ≤ n ∧ Ahead cost x (n - cost y) l := by
  obtain ⟨pre,post,hl,hc⟩ := h
  cases pre with
  | nil =>
    simp only [List.nil_append,List.cons.injEq] at hl
    exact Or.inl hl.1.symm
  | cons z pre =>
    simp only [List.cons_append,List.cons.injEq] at hl
    obtain ⟨rfl,rfl⟩ := hl
    simp only [List.map_cons,List.sum_cons] at hc
    exact Or.inr ⟨by omega,pre,post,rfl,by omega⟩

/-- What leaves the list is not `x`, so `x` only moves up. -/
theorem Ahead.eraseP {cost : E → Nat} {x : E} {n : Nat} {l : List E} {p : E → Bool}
    (h : Ahead cost x n l) (hp : p x = false) : Ahead cost x n (l.eraseP p) := by
  obtain ⟨pre,post,rfl,hc⟩ := h
  by_cases hpre : ∃ y ∈ pre, p y = true
  · obtain ⟨y,hy,hpy⟩ := hpre
    refine ⟨pre.eraseP p,post,List.eraseP_append_left hpy _ hy,?_⟩
    have hle : ((pre.eraseP p).map cost).sum ≤ (pre.map cost).sum :=
      List.Sublist.sum_le_sum (List.Sublist.map _ List.eraseP_sublist) fun _ _ => Nat.zero_le _
    exact Nat.le_trans hle hc
  · have hnone : ∀ y ∈ pre, ¬p y = true := fun y hy hpy => hpre ⟨y,hy,hpy⟩
    refine ⟨pre,post.eraseP p,?_,hc⟩
    rw [List.eraseP_append_right _ hnone,List.eraseP_cons_of_neg (by simp [hp])]

/-- An insertion stands before `x` only when it is strictly earlier. -/
theorem Ahead.insert {cost : E → Nat} {x y : E} {n : Nat} {l : List E}
    (h : Ahead cost x n l) (ho : Ordered time l) :
    Ahead cost x (n + if time y < time x then cost y else 0) (insertTimed time y l) := by
  obtain ⟨pre,post,rfl,hc⟩ := h
  induction pre generalizing n with
  | nil =>
    by_cases hxy : time x ≤ time y
    · rw [if_neg (not_lt_of_ge hxy)]
      exact ⟨[],insertTimed time y post,by simp [insertTimed,hxy],by simp⟩
    · rw [if_pos (lt_of_not_ge hxy)]
      exact ⟨[y],post,by simp [insertTimed,hxy],by simp⟩
  | cons z pre ih =>
    obtain ⟨hz,ho⟩ := List.pairwise_cons.mp ho
    simp only [List.map_cons,List.sum_cons] at hc
    by_cases hzy : time z ≤ time y
    · obtain ⟨pre',post',he,hc'⟩ := ih (n := n - cost z) (by omega) ho
      refine ⟨z :: pre',post',?_,?_⟩
      · simpa [insertTimed,hzy] using he
      · simp only [List.map_cons,List.sum_cons]
        omega
    · have hyx : time y < time x := (lt_of_not_ge hzy).trans_le (hz x (by simp))
      rw [if_pos hyx]
      refine ⟨y :: z :: pre,post,by simp [insertTimed,hzy],?_⟩
      simp only [List.map_cons,List.sum_cons]
      omega

end NetworkLab.TimedList
