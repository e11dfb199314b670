import NetworkLab.Lib.Machine
import Mathlib.Data.List.Forall2
import Mathlib.Data.List.Perm.Basic
set_option autoImplicit false

/-! Threads over a shared state: one of them takes one step at a time, in any order. Nothing
here is about a particular program: `step` is any relation of what a thread finds, in the
shared state and in its own, to what it leaves. -/

namespace NetworkLab.Threads
open Relation

section Runs
variable {S T : Type*}

inductive Step (step : S → T → S → T → Prop) : S × List T → S × List T → Prop where
  | mk {s s' : S} {t t' : T} (before after : List T) : step s t s' t' →
      Step step (s,before ++ t :: after) (s',before ++ t' :: after)

def Run (step : S → T → S → T → Prop) : S × List T → S × List T → Prop :=
  ReflTransGen (Step step)

variable {step : S → T → S → T → Prop}

theorem Run.mono {step' : S → T → S → T → Prop} {c c' : S × List T} (hrun : Run step c c')
    (h : ∀ s t s' t', step s t s' t' → step' s t s' t') : Run step' c c' := by
  refine ReflTransGen.mono (fun c₁ c₂ hstep => ?_) _ _ hrun
  cases hstep with
  | mk before after hstep => exact .mk before after (h _ _ _ _ hstep)

/-- One thread takes all the steps. -/
def Alone (step : S → T → S → T → Prop) : S × T → S × T → Prop :=
  ReflTransGen fun c c' => step c.1 c.2 c'.1 c'.2

theorem Alone.one {s s' : S} {t t' : T} (h : step s t s' t') : Alone step (s,t) (s',t') :=
  .single h

theorem Alone.head {s s₁ : S} {t t₁ : T} {c : S × T} (h : step s t s₁ t₁)
    (h' : Alone step (s₁,t₁) c) : Alone step (s,t) c :=
  ReflTransGen.head (b := (s₁,t₁)) h h'

theorem Alone.run {c c' : S × T} (h : Alone step c c') (before after : List T) :
    Run step (c.1,before ++ c.2 :: after) (c'.1,before ++ c'.2 :: after) :=
  ReflTransGen.lift (fun c : S × T => (c.1,before ++ c.2 :: after))
    (fun _ _ hstep => .mk before after hstep) _ _ h

/-- Where each thread can go on until it has finished, and gets closer with its steps, the
threads can all finish. -/
theorem exists_run_finished {Finished : T → Prop} (rank : T → Nat)
    (h : ∀ s t, ¬Finished t → ∃ s' t', Alone step (s,t) (s',t') ∧ rank t' < rank t)
    (s : S) (ts : List T) : ∃ s' ts', Run step (s,ts) (s',ts') ∧ ∀ t ∈ ts', Finished t := by
  induction hn : (ts.map rank).sum using Nat.strongRecOn generalizing s ts with
  | ind n ih =>
    by_cases hall : ∀ t ∈ ts, Finished t
    · exact ⟨s,ts,.refl,hall⟩
    · obtain ⟨t,ht⟩ := not_forall.mp hall
      obtain ⟨hmem,hnot⟩ := Classical.not_imp.mp ht
      obtain ⟨before,after,rfl⟩ := List.append_of_mem hmem
      obtain ⟨s₁,t₁,hsteps,hlt⟩ := h s t hnot
      have hsum : ((before ++ t₁ :: after).map rank).sum < n := by
        simp only [List.map_append,List.map_cons,List.sum_append,List.sum_cons] at hn ⊢
        omega
      obtain ⟨s',ts',hrun,hfin⟩ := ih _ hsum s₁ (before ++ t₁ :: after) rfl
      exact ⟨s',ts',(hsteps.run before after).trans hrun,hfin⟩

/-- Threads that have no choice, in this order. -/
def follow (next : S → T → Option (S × T)) : List Nat → S × List T → Option (S × List T)
  | [], c => some c
  | i :: order, (s,ts) =>
      (ts[i]?.bind (next s)).bind fun (s',t') => follow next order (s',ts.set i t')

theorem run_follow {next : S → T → Option (S × T)} {order : List Nat} {c c' : S × List T}
    (h : follow next order c = some c') : Run (fun s t s' t' => next s t = some (s',t')) c c' := by
  induction order generalizing c with
  | nil =>
    obtain rfl := Option.some.inj h
    exact .refl
  | cons i order ih =>
    obtain ⟨s,ts⟩ := c
    obtain ⟨⟨s₁,t₁⟩,hbind,h⟩ := Option.bind_eq_some_iff.mp h
    obtain ⟨t,ht,hnext⟩ := Option.bind_eq_some_iff.mp hbind
    refine (ih h).head ?_
    obtain ⟨hi,rfl⟩ := List.getElem?_eq_some_iff.mp ht
    have hsplit : ts = ts.take i ++ ts[i] :: ts.drop (i + 1) := by
      rw [List.getElem_cons_drop,List.take_append_drop]
    have hset : ts.set i t₁ = ts.take i ++ t₁ :: ts.drop (i + 1) := by
      rw [List.set_eq_take_append_cons_drop,if_pos hi]
    have hstep : Step (fun s t s' t' => next s t = some (s',t'))
        (s,ts.take i ++ ts[i] :: ts.drop (i + 1)) (s₁,ts.take i ++ t₁ :: ts.drop (i + 1)) :=
      .mk _ _ hnext
    rwa [← hsplit,← hset] at hstep

end Runs

/-! Operations that are performed one at a time. -/

section Operations
variable {Op : Type*}

/-- The operations of the programs that are done, in the order in which they were performed,
and those that are left of each program. -/
structure Merged (programs : List (List Op)) (done : List Op) (left : List (List Op)) : Prop where
  suffixes : List.Forall₂ (· <:+ ·) left programs
  perm : (done ++ left.flatten).Perm programs.flatten

variable {programs left : List (List Op)} {done : List Op}

theorem Merged.start (programs : List (List Op)) : Merged programs [] programs :=
  ⟨List.forall₂_same.mpr fun ops _ => List.suffix_refl ops,.refl _⟩

theorem forall₂_append_cons {α β : Type*} {R : α → β → Prop} {before after : List α} {a : α}
    {bs : List β} (h : List.Forall₂ R (before ++ a :: after) bs) :
    ∃ before' b after', bs = before' ++ b :: after' ∧ List.Forall₂ R before before' ∧ R a b ∧
      List.Forall₂ R after after' := by
  induction before generalizing bs with
  | nil =>
    cases h with
    | cons hab hrest => exact ⟨[],_,_,rfl,.nil,hab,hrest⟩
  | cons x before ih =>
    cases h with
    | cons hxb hrest =>
      obtain ⟨before',b,after',rfl,hbefore,hab,hafter⟩ := ih hrest
      exact ⟨_ :: before',b,after',rfl,.cons hxb hbefore,hab,hafter⟩

theorem forall₂_insert {α β : Type*} {R : α → β → Prop} {before after : List α}
    {before' after' : List β} {a : α} {b : β} (hbefore : List.Forall₂ R before before')
    (hab : R a b) (hafter : List.Forall₂ R after after') :
    List.Forall₂ R (before ++ a :: after) (before' ++ b :: after') :=
  List.rel_append hbefore (.cons hab hafter)

/-- What each thread is related to, once all of them are finished. -/
theorem forall₂_right {α β : Type*} {R : α → β → Prop} {P : α → Prop} {Q : β → Prop}
    {as : List α} {bs : List β} (h : List.Forall₂ R as bs) (hall : ∀ a ∈ as, P a)
    (hR : ∀ a b, P a → R a b → Q b) : ∀ b ∈ bs, Q b := by
  induction h with
  | nil => simp
  | cons hab _ ih =>
    obtain ⟨ha,has⟩ := List.forall_mem_cons.mp hall
    exact List.forall_mem_cons.mpr ⟨hR _ _ ha hab,ih has⟩

theorem Merged.perform {before after : List (List Op)} {op : Op} {rest : List Op}
    (h : Merged programs done (before ++ (op :: rest) :: after)) :
    Merged programs (done ++ [op]) (before ++ rest :: after) := by
  obtain ⟨hsuffixes,hperm⟩ := h
  obtain ⟨before',program,after',rfl,hbefore,hsuffix,hafter⟩ := forall₂_append_cons hsuffixes
  refine ⟨forall₂_insert hbefore ((List.suffix_cons op rest).trans hsuffix) hafter,?_⟩
  refine List.Perm.trans ?_ hperm
  rw [List.append_assoc]
  refine List.Perm.append_left done ?_
  rw [List.singleton_append,List.flatten_append,List.flatten_append]
  exact List.perm_middle.symm

theorem suffix_append_cases {ops before after : List Op} (h : ops <:+ before ++ after) :
    ops <:+ after ∨ ∃ ops', ops = ops' ++ after ∧ ops' <:+ before := by
  induction before with
  | nil => exact Or.inl h
  | cons op before ih =>
    rcases List.suffix_cons_iff.mp h with rfl | h
    · exact Or.inr ⟨op :: before,rfl,List.suffix_refl _⟩
    · rcases ih h with h | ⟨ops',rfl,h'⟩
      · exact Or.inl h
      · exact Or.inr ⟨ops',rfl,h'.trans (List.suffix_cons op before)⟩

/-- What every suffix of each program has less of than of something else, is also left
less often. -/
theorem Merged.countP_le (h : Merged programs done left) {p q : Op → Bool}
    (hle : ∀ program ∈ programs, ∀ ops, ops <:+ program → ops.countP p ≤ ops.countP q) :
    left.flatten.countP p ≤ left.flatten.countP q := by
  have hsuffixes := h.suffixes
  clear h
  induction hsuffixes with
  | nil => exact Nat.le_refl _
  | @cons ops program left programs hsuffix _ ih =>
    rw [List.flatten_cons,List.countP_append,List.countP_append]
    refine Nat.add_le_add (hle program List.mem_cons_self ops hsuffix) (ih ?_)
    exact fun program hp => hle program (List.mem_cons_of_mem _ hp)

theorem Merged.countP_eq (h : Merged programs done left) (p : Op → Bool) :
    done.countP p + left.flatten.countP p = programs.flatten.countP p := by
  rw [← List.countP_append,h.perm.countP_eq]

theorem Merged.finished (h : Merged programs done left) (hleft : ∀ ops ∈ left, ops = []) :
    done.Perm programs.flatten := by
  have hperm := h.perm
  rwa [List.flatten_eq_nil_iff.mpr hleft,List.append_nil] at hperm

/-! Programs are calls, and each call is some operations. -/

variable {α : Type*} {f : α → List Op} {p q : Op → Bool}

theorem flatten_map_flatMap (f : α → List Op) (programs : List (List α)) :
    (programs.map fun calls => calls.flatMap f).flatten = programs.flatten.flatMap f := by
  induction programs with
  | nil => rfl
  | cons calls programs ih => simp [ih]

theorem countP_suffix_flatMap {calls : List α}
    (hle : ∀ call ∈ calls, ∀ ops, ops <:+ f call → ops.countP p ≤ ops.countP q) {ops : List Op}
    (h : ops <:+ calls.flatMap f) : ops.countP p ≤ ops.countP q := by
  induction calls generalizing ops with
  | nil =>
    rw [List.suffix_nil.mp h]
    exact Nat.le_refl _
  | cons call calls ih =>
    obtain ⟨hcall,hcalls⟩ := List.forall_mem_cons.mp hle
    rw [List.flatMap_cons] at h
    rcases suffix_append_cases h with h | ⟨ops',rfl,h'⟩
    · exact ih hcalls h
    · rw [List.countP_append,List.countP_append]
      exact Nat.add_le_add (hcall ops' h') (ih hcalls (List.suffix_refl _))

/-- It is enough to look at the suffixes of each call. -/
theorem Merged.countP_le_of_call {programs : List (List α)}
    (h : Merged (programs.map fun calls => calls.flatMap f) done left)
    (hle : ∀ call ∈ programs.flatten, ∀ ops, ops <:+ f call → ops.countP p ≤ ops.countP q) :
    left.flatten.countP p ≤ left.flatten.countP q := by
  refine h.countP_le fun program hprogram ops hops => ?_
  obtain ⟨calls,hcalls,rfl⟩ := List.mem_map.mp hprogram
  exact countP_suffix_flatMap (fun call hc => hle call (List.mem_flatten_of_mem hcalls hc)) hops

/-- The calls that have not begun are left. -/
theorem sublist_left {T : Type*} {R : T → List Op → Prop} {calls : T → List α} {ts : List T}
    (h : List.Forall₂ R ts left) (hR : ∀ t ops, R t ops → ((calls t).flatMap f).Sublist ops) :
    ((ts.flatMap calls).flatMap f).Sublist left.flatten := by
  induction h with
  | nil => exact List.Sublist.refl _
  | cons hops _ ih =>
    rw [List.flatMap_cons,List.flatMap_append,List.flatten_cons]
    exact (hR _ _ hops).append ih

end Operations

/-! The steps of the threads, as operations on a state without threads. -/

section Refinement
variable {S T A Op : Type*}

/-- `pending` has what a thread is still to perform. Its step performs the first of it, or
nothing, and takes nothing from the other threads. -/
structure Performs (step : S → T → S → T → Prop) (act : A → Op → A) (rel : S → A → Prop)
    (pending : S → T → List Op → Prop) : Prop where
  own : ∀ {s s' : S} {t t' : T} {a : A} {ops : List Op}, step s t s' t' → rel s a →
    pending s t ops → rel s' a ∧ pending s' t' ops ∨
      ∃ op rest, ops = op :: rest ∧ rel s' (act a op) ∧ pending s' t' rest
  other : ∀ {s s' : S} {t t' u : T} {a : A} {ops : List Op}, step s t s' t' → rel s a →
    pending s u ops → pending s' u ops

variable {next : S → T → S → T → Prop} {act : A → Op → A} {rel : S → A → Prop}
variable {pending : S → T → List Op → Prop} {s s' : S} {ts ts' : List T} {a : A}
variable {programs : List (List Op)}

theorem Performs.step (h : Performs next act rel pending) {done : List Op}
    {left : List (List Op)} (hstep : Step next (s,ts) (s',ts'))
    (hrel : rel s (done.foldl act a)) (hp : List.Forall₂ (pending s) ts left)
    (hm : Merged programs done left) :
    ∃ done' left', rel s' (done'.foldl act a) ∧ List.Forall₂ (pending s') ts' left' ∧
      Merged programs done' left' := by
  cases hstep with
  | @mk _ _ t t' before after hstep =>
    obtain ⟨before',ops,after',rfl,hbefore,hops,hafter⟩ := forall₂_append_cons hp
    have hbefore := hbefore.imp fun u _ hu => h.other hstep hrel hu
    have hafter := hafter.imp fun u _ hu => h.other hstep hrel hu
    rcases h.own hstep hrel hops with ⟨hrel',hops'⟩ | ⟨op,rest,rfl,hrel',hrest⟩
    · exact ⟨done,_,hrel',forall₂_insert hbefore hops' hafter,hm⟩
    · refine ⟨done ++ [op],_,?_,forall₂_insert hbefore hrest hafter,hm.perform⟩
      rwa [List.foldl_append]

/-- In each state of a run, some operations are done, and the rest is left. -/
theorem Performs.run (h : Performs next act rel pending) (hrun : Run next (s,ts) (s',ts'))
    (hrel : rel s a) (hp : List.Forall₂ (pending s) ts programs) :
    ∃ done left, rel s' (done.foldl act a) ∧ List.Forall₂ (pending s') ts' left ∧
      Merged programs done left := by
  refine Machine.star_invariant (I := fun c : S × List T => ∃ done left,
    rel c.1 (done.foldl act a) ∧ List.Forall₂ (pending c.1) c.2 left ∧
      Merged programs done left) ?_ hrun ⟨[],programs,hrel,hp,.start programs⟩
  rintro ⟨s₁,ts₁⟩ ⟨s₂,ts₂⟩ hstep ⟨done,left,hrel,hp,hm⟩
  exact h.step hstep hrel hp hm

end Refinement

end NetworkLab.Threads
