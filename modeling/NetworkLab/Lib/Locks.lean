import NetworkLab.Lib.Threads
import Mathlib.Algebra.Order.Ring.Nat
import Mathlib.Data.Set.Finite.Lemmas
import Mathlib.Data.Set.Finite.List
set_option autoImplicit false

/-! Threads with locks. When every thread takes its locks in the order of their ranks, some
thread can always go on; when it only touches what its locks guard, no two threads touch the
same thing at once. Nothing here is about particular locks. -/

namespace NetworkLab.Locks
open Relation Threads

/-- The actions are on what the locks guard. -/
inductive Op (L A : Type) where
  | lock (l : L)
  | unlock (l : L)
  | act (a : A)
  deriving DecidableEq, Repr

structure Thread (L A : Type) where
  held : List L
  rest : List (Op L A)

variable {L A : Type} [DecidableEq L]

/-- The shared state tells which locks are taken. -/
inductive Step : (L → Bool) → Thread L A → (L → Bool) → Thread L A → Prop where
  | lock {s : L → Bool} {l : L} {held : List L} {rest : List (Op L A)} : s l = false →
      Step s ⟨held,.lock l :: rest⟩ (Function.update s l true) ⟨l :: held,rest⟩
  | unlock {s : L → Bool} {l : L} {held : List L} {rest : List (Op L A)} :
      Step s ⟨held,.unlock l :: rest⟩ (Function.update s l false) ⟨held.erase l,rest⟩
  | act {s : L → Bool} {a : A} {held : List L} {rest : List (Op L A)} :
      Step s ⟨held,.act a :: rest⟩ s ⟨held,rest⟩

/-- Locks are taken in the order of their ranks, given back, and held by who needs them. -/
def Ordered (rank : L → Nat) (needs : A → List L) : List L → List (Op L A) → Prop
  | held, [] => held = []
  | held, .lock l :: rest => (∀ k ∈ held, rank k < rank l) ∧ Ordered rank needs (l :: held) rest
  | held, .unlock l :: rest => l ∈ held ∧ Ordered rank needs (held.erase l) rest
  | held, .act a :: rest => (∀ l ∈ needs a, l ∈ held) ∧ Ordered rank needs held rest

def start (programs : List (List (Op L A))) : (L → Bool) × List (Thread L A) :=
  (fun _ => false,programs.map fun ops => ⟨[],ops⟩)

/-- Each taken lock is held by one thread, and by that once. -/
structure Inv (rank : L → Nat) (needs : A → List L) (c : (L → Bool) × List (Thread L A)) :
    Prop where
  ordered : ∀ t ∈ c.2, Ordered rank needs t.held t.rest
  taken : ∀ l, (c.2.flatMap Thread.held).count l = (c.1 l).toNat

section Steps
variable {rank : L → Nat} {needs : A → List L} {c c' : (L → Bool) × List (Thread L A)}
variable {held : List L} {ops ops' : List (Op L A)} {programs : List (List (Op L A))}

/-- Operations that leave the locks as they find them. -/
def Balanced (rank : L → Nat) (needs : A → List L) (held : List L) (ops : List (Op L A)) : Prop :=
  ∀ rest, Ordered rank needs held rest → Ordered rank needs held (ops ++ rest)

/-- The lock is held as long as the operations take. -/
def guarded (l : L) (ops : List (Op L A)) : List (Op L A) := .lock l :: ops ++ [.unlock l]

theorem balanced_nil : Balanced rank needs held [] := fun _ h => h

theorem Balanced.append (h : Balanced rank needs held ops) (h' : Balanced rank needs held ops') :
    Balanced rank needs held (ops ++ ops') := by
  intro rest hrest
  rw [List.append_assoc]
  exact h _ (h' _ hrest)

theorem Balanced.act {a : A} (ha : ∀ l ∈ needs a, l ∈ held) (h : Balanced rank needs held ops) :
    Balanced rank needs held (.act a :: ops) := fun rest hrest => ⟨ha,h rest hrest⟩

theorem Balanced.guarded {l : L} (hl : ∀ k ∈ held, rank k < rank l)
    (h : Balanced rank needs (l :: held) ops) : Balanced rank needs held (guarded l ops) := by
  intro rest hrest
  have hunlock : Ordered rank needs (l :: held) (.unlock l :: rest) :=
    ⟨List.mem_cons_self,by rwa [List.erase_cons_head]⟩
  have happ : Locks.guarded l ops ++ rest = .lock l :: (ops ++ .unlock l :: rest) := by
    simp [Locks.guarded]
  rw [happ]
  exact ⟨hl,h _ hunlock⟩

theorem balanced_flatMap {α : Type} {f : α → List (Op L A)} {xs : List α}
    (h : ∀ x ∈ xs, Balanced rank needs held (f x)) : Balanced rank needs held (xs.flatMap f) := by
  induction xs with
  | nil => exact balanced_nil
  | cons x xs ih =>
    obtain ⟨hx,hrest⟩ := List.forall_mem_cons.mp h
    rw [List.flatMap_cons]
    exact hx.append (ih hrest)

theorem Balanced.ordered (h : Balanced rank needs [] ops) : Ordered rank needs [] ops := by
  have hops := h [] rfl
  rwa [List.append_nil] at hops

theorem inv_start (h : ∀ ops ∈ programs, Ordered rank needs [] ops) :
    Inv rank needs (start programs) := by
  refine ⟨fun t ht => ?_,fun l => ?_⟩
  · obtain ⟨ops,hops,rfl⟩ := List.mem_map.mp ht
    exact h ops hops
  · simp [start,List.count_eq_zero,List.mem_flatMap]

theorem Inv.step (h : Inv rank needs c) (hst : Threads.Step Step c c') : Inv rank needs c' := by
  cases hst with
  | @mk s s' t t' before after hst =>
    have hcount := h.taken
    simp only [List.flatMap_append,List.flatMap_cons,List.count_append] at hcount
    have ht := h.ordered t (by simp)
    have hothers : Ordered rank needs t'.held t'.rest →
        ∀ u ∈ before ++ t' :: after, Ordered rank needs u.held u.rest := by
      intro ht' u hu
      rcases List.mem_append.mp hu with hu | hu
      · exact h.ordered u (by simp [hu])
      · rcases List.mem_cons.mp hu with rfl | hu
        · exact ht'
        · exact h.ordered u (by simp [hu])
    cases hst with
    | @lock l held rest hfree =>
      refine ⟨hothers ht.2,fun k => ?_⟩
      have hk := hcount k
      simp only [List.flatMap_append,List.flatMap_cons,List.count_append,List.count_cons]
      by_cases he : k = l
      · subst he
        rw [hfree] at hk
        simp only [Function.update_self,Bool.toNat_true,Bool.toNat_false,beq_self_eq_true,
          if_true] at hk ⊢
        omega
      · have hne : (l == k) = false := by simpa using Ne.symm he
        simp only [Function.update_of_ne he,hne,Bool.false_eq_true,if_false]
        omega
    | @unlock l held rest =>
      obtain ⟨hmem,hrest⟩ := ht
      refine ⟨hothers hrest,fun k => ?_⟩
      have hk := hcount k
      simp only [List.flatMap_append,List.flatMap_cons,List.count_append]
      by_cases he : k = l
      · subst he
        have hpos : 0 < held.count k := List.count_pos_iff.mpr hmem
        have hle := Bool.toNat_le (s k)
        simp only at hk
        simp only [Function.update_self,Bool.toNat_false,List.count_erase_self]
        omega
      · rw [List.count_erase_of_ne he,Function.update_of_ne he]
        omega
    | act =>
      refine ⟨hothers ht.2,fun k => ?_⟩
      simpa only [List.flatMap_append,List.flatMap_cons,List.count_append] using hcount k

theorem Inv.run (h : Inv rank needs c) (hrun : Run Step c c') : Inv rank needs c' :=
  Machine.star_invariant (I := Inv rank needs) (fun _ _ hst hinv => hinv.step hst) hrun h

/-- Two threads never hold one lock. -/
theorem Inv.apart (h : Inv rank needs c) {before mid after : List (Thread L A)} {t u : Thread L A}
    (hc : c.2 = before ++ t :: mid ++ u :: after) {l : L} (ht : l ∈ t.held) : l ∉ u.held := by
  intro hu
  have hcount := h.taken l
  have hle := Bool.toNat_le (c.1 l)
  have ht := List.count_pos_iff.mpr ht
  have hu := List.count_pos_iff.mpr hu
  simp only [hc,List.flatMap_append,List.flatMap_cons,List.count_append] at hcount
  omega

/-- The rank of the lock that comes next. -/
def Thread.wanted (rank : L → Nat) (t : Thread L A) : Nat :=
  match t.rest with
  | .lock l :: _ => rank l
  | _ => 0

/-- A thread that cannot go on waits for a lock that is taken. -/
theorem waits_of_stuck (hstuck : ¬∃ c', Threads.Step Step c c') {t : Thread L A} (ht : t ∈ c.2)
    (hne : t.rest ≠ []) : ∃ l rest, t.rest = .lock l :: rest ∧ c.1 l = true := by
  obtain ⟨s,ts⟩ := c
  obtain ⟨held,rest⟩ := t
  obtain ⟨before,after,rfl⟩ := List.append_of_mem ht
  cases rest with
  | nil => exact absurd rfl hne
  | cons op rest =>
    cases op with
    | unlock l => exact absurd ⟨_,.mk before after .unlock⟩ hstuck
    | act a => exact absurd ⟨_,.mk before after .act⟩ hstuck
    | lock l =>
      refine ⟨l,rest,rfl,?_⟩
      by_contra hfree
      exact hstuck ⟨_,.mk before after (.lock (Bool.eq_false_iff.mpr hfree))⟩

/-- Some thread can go on: otherwise one waits for a lock of the highest rank, and who holds
that one waits for a lock of a higher rank. -/
theorem Inv.progress (h : Inv rank needs c) (hleft : ∃ t ∈ c.2, t.rest ≠ []) :
    ∃ c', Threads.Step Step c c' := by
  by_contra hstuck
  have hfinite : {t | t ∈ c.2 ∧ t.rest ≠ []}.Finite :=
    (List.finite_toSet c.2).subset fun t ht => ht.1
  obtain ⟨t,⟨ht,hne⟩,hmax⟩ := Set.exists_max_image _ (Thread.wanted rank) hfinite hleft
  obtain ⟨l,rest,hrest,htaken⟩ := waits_of_stuck hstuck ht hne
  have hheld : l ∈ c.2.flatMap Thread.held := by
    refine List.count_pos_iff.mp ?_
    rw [h.taken l,htaken]
    decide
  obtain ⟨u,hu,hl⟩ := List.mem_flatMap.mp hheld
  have hord := h.ordered u hu
  have hune : u.rest ≠ [] := by
    intro he
    rw [he] at hord
    have hnil : u.held = [] := hord
    simp [hnil] at hl
  obtain ⟨k,rest',hk,-⟩ := waits_of_stuck hstuck hu hune
  rw [hk] at hord
  have hlt : rank l < rank k := hord.1 l hl
  have hle : u.wanted rank ≤ t.wanted rank := hmax u ⟨hu,hune⟩
  simp only [Thread.wanted,hk,hrest] at hle
  omega

/-- Every step takes one operation. -/
theorem length_step (hst : Threads.Step Step c c') :
    (c.2.map fun t => t.rest.length).sum = (c'.2.map fun t => t.rest.length).sum + 1 := by
  cases hst with
  | mk before after hst =>
    simp only [List.map_append,List.map_cons,List.sum_append,List.sum_cons]
    cases hst with
    | lock hfree =>
      simp only [List.length_cons]
      omega
    | unlock =>
      simp only [List.length_cons]
      omega
    | act =>
      simp only [List.length_cons]
      omega

/-- However far the threads have come, they can all finish. -/
theorem Inv.finish (h : Inv rank needs c) :
    ∃ c', Run Step c c' ∧ ∀ t ∈ c'.2, t.rest = [] := by
  induction hn : (c.2.map fun t => t.rest.length).sum generalizing c with
  | zero =>
    refine ⟨c,.refl,fun t ht => ?_⟩
    have hzero := List.sum_eq_zero_iff_forall_eq_nat.mp hn t.rest.length (List.mem_map_of_mem ht)
    exact List.length_eq_zero_iff.mp hzero
  | succ n ih =>
    have hleft : ∃ t ∈ c.2, t.rest ≠ [] := by
      by_contra hall
      simp only [not_exists,not_and,not_not] at hall
      have hzero : (c.2.map fun t => t.rest.length).sum = 0 :=
        List.sum_eq_zero_iff_forall_eq_nat.mpr (by simpa using hall)
      omega
    obtain ⟨c₁,hst⟩ := h.progress hleft
    have hlen := length_step hst
    obtain ⟨c',hrun,hfin⟩ := ih (h.step hst) (by omega)
    exact ⟨c',.head hst hrun,hfin⟩

end Steps

end NetworkLab.Locks
