import Mathlib.Logic.Function.Basic
import Mathlib.Data.List.Basic
set_option autoImplicit false

/-! Commands that test a shared state, one test after the other, and then act on it in one
step; and what becomes of them when their steps alternate. Nothing here is about a
particular state. -/

namespace NetworkLab

/-- One list for each index, merged in any order. -/
inductive Shuffle {I α : Type} [DecidableEq I] : (I → List α) → List (I × α) → Prop where
  | nil {xs : I → List α} : (∀ i, xs i = []) → Shuffle xs []
  | cons {xs : I → List α} {i : I} {x : α} {rest : List α} {out : List (I × α)} :
      xs i = x :: rest → Shuffle (Function.update xs i rest) out → Shuffle xs ((i,x) :: out)

theorem Shuffle.single {α : Type} (xs : List α) :
    Shuffle (fun _ : Unit => xs) (xs.map fun x => ((),x)) := by
  induction xs with
  | nil => exact .nil fun _ => rfl
  | cons x xs ih =>
    refine .cons rfl ?_
    have hupdate : Function.update (fun _ : Unit => x :: xs) () xs = fun _ => xs :=
      funext fun _ => Function.update_self ..
    rw [hupdate]
    exact ih

/-- The first elements of one list come next. -/
theorem Shuffle.block {I α : Type} [DecidableEq I] {i : I} {as : List α} (rest : List α)
    {out : List (I × α)} {xs : I → List α} (hi : xs i = as ++ rest)
    (h : Shuffle (Function.update xs i rest) out) : Shuffle xs (as.map (fun x => (i,x)) ++ out) := by
  induction as generalizing xs with
  | nil =>
    rw [List.nil_append] at hi
    rwa [← hi,Function.update_eq_self] at h
  | cons a as ih =>
    refine .cons hi (ih (Function.update_self ..) ?_)
    rwa [Function.update_idem]

/-- The action fails where it gives no state. -/
structure Guarded (S : Type) where
  tests : List (S → Bool)
  act : S → Option S

namespace Guarded

/-- The tests still to be made, or the end. -/
inductive Status (S : Type) where
  | testing (rest : List (S → Bool))
  | done (ok : Bool)

variable {S : Type}

def start (c : Guarded S) : Status S := .testing c.tests

/-- The whole command in one state: whether it succeeds, and what it leaves. -/
def alone (c : Guarded S) (s : S) : Bool × S :=
  if c.tests.all (· s) then
    match c.act s with
    | some s' => (true,s')
    | none => (false,s)
  else (false,s)

theorem alone_of_act {c : Guarded S} {s s' : S} (ht : ∀ t ∈ c.tests, t s = true)
    (ha : c.act s = some s') : c.alone s = (true,s') := by
  rw [alone,if_pos (List.all_eq_true.mpr ht),ha]

theorem alone_of_not_tests {c : Guarded S} {s : S} (h : ¬∀ t ∈ c.tests, t s = true) :
    c.alone s = (false,s) := if_neg fun hall => h (List.all_eq_true.mp hall)

theorem alone_of_test {c : Guarded S} {s : S} {t : S → Bool} (ht : t ∈ c.tests)
    (hs : t s = false) : c.alone s = (false,s) := by
  refine alone_of_not_tests fun hall => ?_
  rw [hall t ht] at hs
  cases hs

theorem alone_of_miss {c : Guarded S} {s : S} (ha : c.act s = none) : c.alone s = (false,s) := by
  unfold alone
  rw [ha]
  split <;> rfl

theorem alone_true {c : Guarded S} {s s' : S} (h : c.alone s = (true,s')) :
    (∀ t ∈ c.tests, t s = true) ∧ c.act s = some s' := by
  unfold alone at h
  split at h
  · rename_i hall
    refine ⟨List.all_eq_true.mp hall,?_⟩
    split at h
    · rename_i s'' ha
      rw [ha,(Prod.mk.inj h).2]
    · cases h
  · cases h

section Together
variable {I : Type} [DecidableEq I]

/-- The commands take their steps in any order. The list has the successful actions, each
with the state that it found. -/
inductive Together (c : I → Guarded S) :
    (I → Status S) → S → List (I × S) → (I → Bool) → S → Prop where
  | stop {st : I → Status S} {s : S} {ok : I → Bool} : (∀ i, st i = .done (ok i)) →
      Together c st s [] ok s
  | pass {st : I → Status S} {s s' : S} {acts : List (I × S)} {ok : I → Bool} {i : I}
      {t : S → Bool} {ts : List (S → Bool)} : st i = .testing (t :: ts) → t s = true →
      Together c (Function.update st i (.testing ts)) s acts ok s' → Together c st s acts ok s'
  | fail {st : I → Status S} {s s' : S} {acts : List (I × S)} {ok : I → Bool} {i : I}
      {t : S → Bool} {ts : List (S → Bool)} : st i = .testing (t :: ts) → t s = false →
      Together c (Function.update st i (.done false)) s acts ok s' → Together c st s acts ok s'
  | act {st : I → Status S} {s s₁ s' : S} {acts : List (I × S)} {ok : I → Bool} {i : I} :
      st i = .testing [] → (c i).act s = some s₁ →
      Together c (Function.update st i (.done true)) s₁ acts ok s' →
      Together c st s ((i,s) :: acts) ok s'
  | miss {st : I → Status S} {s s' : S} {acts : List (I × S)} {ok : I → Bool} {i : I} :
      st i = .testing [] → (c i).act s = none →
      Together c (Function.update st i (.done false)) s acts ok s' → Together c st s acts ok s'

variable {c : I → Guarded S} {st : I → Status S} {s s' : S} {acts : List (I × S)} {ok : I → Bool}

theorem Together.ended (h : Together c st s acts ok s') {o : I → Bool}
    (hst : ∀ i, st i = .done (o i)) : acts = [] ∧ ok = o ∧ s' = s := by
  cases h with
  | stop hok =>
    refine ⟨rfl,funext fun i => ?_,rfl⟩
    have he := (hok i).symm.trans (hst i)
    injection he
  | @pass _ _ _ _ _ i _ _ hi => cases (hst i).symm.trans hi
  | @fail _ _ _ _ _ i _ _ hi => cases (hst i).symm.trans hi
  | @act _ _ _ _ _ _ i hi => cases (hst i).symm.trans hi
  | @miss _ _ _ _ _ i hi => cases (hst i).symm.trans hi

theorem done_update {st : I → Status S} {j : I} {o : I → Bool}
    (hst : ∀ i, i ≠ j → st i = .done (o i)) (b : Bool) (i : I) :
    Function.update st j (.done b) i = .done (Function.update o j b i) := by
  by_cases hi : i = j
  · rw [hi,Function.update_self,Function.update_self]
  · rw [Function.update_of_ne hi,Function.update_of_ne hi]
    exact hst i hi

theorem eq_of_testing {st : I → Status S} {i j : I} {o : I → Bool} {rest : List (S → Bool)}
    (hst : ∀ i, i ≠ j → st i = .done (o i)) (hi : st i = .testing rest) : i = j := by
  by_contra hne
  cases (hst i hne).symm.trans hi

/-- One command alone is left: it fails here, or its remaining tests hold and it acts. -/
theorem Together.solo (h : Together c st s acts ok s') {j : I} {ts : List (S → Bool)}
    {o : I → Bool} (hst : ∀ i, i ≠ j → st i = .done (o i)) (hj : st j = .testing ts) :
    (∀ i, i ≠ j → ok i = o i) ∧
      (ok j = false ∧ acts = [] ∧ s' = s ∧ ((∃ t ∈ ts, t s = false) ∨ (c j).act s = none) ∨
        ok j = true ∧ acts = [(j,s)] ∧ (c j).act s = some s' ∧ ∀ t ∈ ts, t s = true) := by
  have hokj : ∀ {b : Bool} {ok : I → Bool}, ok = Function.update o j b →
      (∀ i, i ≠ j → ok i = o i) ∧ ok j = b := by
    rintro b ok rfl
    exact ⟨fun i hi => Function.update_of_ne hi _ _,Function.update_self ..⟩
  induction h generalizing ts with
  | stop hok => cases (hok j).symm.trans hj
  | @pass st _ _ _ _ i t ts' hi ht hrun ih =>
    obtain rfl := eq_of_testing hst hi
    obtain rfl : ts = t :: ts' := Status.testing.inj (hj.symm.trans hi)
    obtain ⟨hother,hcase⟩ := ih (fun k hk => by rw [Function.update_of_ne hk]; exact hst k hk)
      (Function.update_self ..)
    refine ⟨hother,?_⟩
    rcases hcase with ⟨hf,ha,hs,⟨t',ht',hfail⟩ | hmiss⟩ | ⟨hok,ha,hact,hall⟩
    · exact Or.inl ⟨hf,ha,hs,Or.inl ⟨t',List.mem_cons_of_mem _ ht',hfail⟩⟩
    · exact Or.inl ⟨hf,ha,hs,Or.inr hmiss⟩
    · exact Or.inr ⟨hok,ha,hact,List.forall_mem_cons.mpr ⟨ht,hall⟩⟩
  | @fail st _ _ _ _ i t ts' hi ht hrun ih =>
    obtain rfl := eq_of_testing hst hi
    obtain rfl : ts = t :: ts' := Status.testing.inj (hj.symm.trans hi)
    obtain ⟨rfl,hok,rfl⟩ := hrun.ended (done_update hst false)
    obtain ⟨hother,hf⟩ := hokj hok
    exact ⟨hother,Or.inl ⟨hf,rfl,rfl,Or.inl ⟨t,List.mem_cons_self,ht⟩⟩⟩
  | @act st _ _ _ _ _ i hi hact hrun ih =>
    obtain rfl := eq_of_testing hst hi
    obtain rfl : ts = [] := Status.testing.inj (hj.symm.trans hi)
    obtain ⟨rfl,hok,rfl⟩ := hrun.ended (done_update hst true)
    obtain ⟨hother,ht⟩ := hokj hok
    exact ⟨hother,Or.inr ⟨ht,rfl,hact,by simp⟩⟩
  | @miss st _ _ _ _ i hi hact hrun ih =>
    obtain rfl := eq_of_testing hst hi
    obtain ⟨rfl,hok,rfl⟩ := hrun.ended (done_update hst false)
    obtain ⟨hother,hf⟩ := hokj hok
    exact ⟨hother,Or.inl ⟨hf,rfl,rfl,Or.inr hact⟩⟩

/-- A command that runs with no other behaves as in one state. -/
theorem Together.alone {c : Unit → Guarded S} {acts : List (Unit × S)} {ok : Unit → Bool}
    (h : Together c (fun i => (c i).start) s acts ok s') : (c ()).alone s = (ok (),s') := by
  obtain ⟨-,⟨hf,-,rfl,⟨t,ht,hfail⟩ | hmiss⟩ | ⟨hok,-,hact,hall⟩⟩ :=
    h.solo (j := ()) (o := fun _ => true) (fun i hi => absurd rfl hi) rfl
  · rw [alone_of_test ht hfail,hf]
  · rw [alone_of_miss hmiss,hf]
  · rw [alone_of_act hall hact,hok]

end Together

/-! Two commands. -/

section Two
variable {c : Bool → Guarded S} {st : Bool → Status S} {s s' : S} {acts : List (Bool × S)}
variable {ok : Bool → Bool}

/-- First `i`, then the other. -/
def Serial (c : Bool → Guarded S) (i : Bool) (s : S) (ok : Bool → Bool) (s' : S) : Prop :=
  ∃ s₁, (c i).alone s = (ok i,s₁) ∧ (c !i).alone s₁ = (ok !i,s')

/-- Every action finds a state in which all tests of its command hold. -/
def Fresh (c : Bool → Guarded S) (acts : List (Bool × S)) : Prop :=
  ∀ a ∈ acts, ∀ t ∈ (c a.1).tests, t a.2 = true

/-- The second action finds a state in which a test of its command, made before the first
action, no longer holds. -/
structure Stale (c : Bool → Guarded S) (i : Bool) (s s₁ : S) (acts : List (Bool × S))
    (ok : Bool → Bool) (s' : S) : Prop where
  acts_eq : acts = [(i,s),(!i,s₁)]
  first : (c i).alone s = (true,s₁)
  second : (c !i).act s₁ = some s'
  ok_eq : ∀ k, ok k = true
  tests : ∃ before after, (c !i).tests = before ++ after ∧ (∀ t ∈ before, t s = true) ∧
    ∀ t ∈ after, t s₁ = true
  failed : ∃ t ∈ (c !i).tests, t s₁ = false

/-- Nobody has acted yet: the tests that were made hold, or the command has failed here. -/
def Waiting (c : Guarded S) (st : Status S) (s : S) : Prop :=
  (∃ before rest, st = .testing rest ∧ c.tests = before ++ rest ∧ ∀ t ∈ before, t s = true) ∨
    st = .done false ∧ c.alone s = (false,s)

theorem Waiting.update {i : Bool} {st' : Status S} (hw : ∀ k, Waiting (c k) (st k) s)
    (hi : Waiting (c i) st' s) (k : Bool) : Waiting (c k) (Function.update st i st' k) s := by
  by_cases hk : k = i
  · subst hk
    rwa [Function.update_self]
  · rw [Function.update_of_ne hk]
    exact hw k

theorem Waiting.testing {c : Guarded S} {ts : List (S → Bool)}
    (hw : Waiting c (.testing ts) s) :
    ∃ before, c.tests = before ++ ts ∧ ∀ t ∈ before, t s = true := by
  rcases hw with ⟨before,rest,he,htests,hall⟩ | ⟨he,-⟩
  · obtain rfl := Status.testing.inj he
    exact ⟨before,htests,hall⟩
  · cases he

theorem waiting_start (c : Guarded S) : Waiting c c.start s :=
  Or.inl ⟨[],c.tests,rfl,rfl,by simp⟩

theorem Waiting.failed {c : Guarded S} (h : c.alone s = (false,s)) : Waiting c (.done false) s :=
  Or.inr ⟨rfl,h⟩

/-- The first action has just been made by `i`. -/
theorem Together.after_act {i : Bool} {s₁ : S}
    (h : Together c (Function.update st i (.done true)) s₁ acts ok s')
    (hfirst : (c i).alone s = (true,s₁)) (hw : Waiting (c !i) (st !i) s) :
    (Fresh c ((i,s) :: acts) ∧ ∃ k, Serial c k s ok s') ∨
      ∃ k s₂, Stale c k s s₂ ((i,s) :: acts) ok s' := by
  have hfresh : ∀ t ∈ (c i).tests, t s = true := (alone_true hfirst).1
  have hne : ∀ k, k ≠ !i → k = i := fun k hk => by cases k <;> cases i <;> simp_all
  have hdone : ∀ k, k ≠ !i → Function.update st i (.done true) k = .done true := by
    intro k hk
    rw [hne k hk,Function.update_self]
  have hother : Function.update st i (.done true) (!i) = st !i :=
    Function.update_of_ne (by cases i <;> simp) _ _
  rcases hw with ⟨before,rest,hst,htests,hbefore⟩ | ⟨hst,hfail⟩
  · obtain ⟨hok,hcase⟩ := h.solo (j := !i) (o := fun _ => true) hdone (hother.trans hst)
    have hoki : ok i = true := hok i (by cases i <;> simp)
    rcases hcase with ⟨hf,rfl,rfl,hwhy⟩ | ⟨ht,rfl,hact,hrest⟩
    · have hsecond : (c !i).alone s' = (false,s') := by
        rcases hwhy with ⟨t,ht,hts⟩ | hmiss
        · exact alone_of_test (htests ▸ List.mem_append_right _ ht) hts
        · exact alone_of_miss hmiss
      refine Or.inl ⟨by simpa [Fresh] using hfresh,i,s',?_,?_⟩
      · rw [hoki,hfirst]
      · rw [hf,hsecond]
    · by_cases hall : ∀ t ∈ (c !i).tests, t s₁ = true
      · refine Or.inl ⟨?_,i,s₁,?_,?_⟩
        · exact List.forall_mem_cons.mpr ⟨hfresh,List.forall_mem_singleton.mpr hall⟩
        · rw [hoki,hfirst]
        · rw [ht,alone_of_act hall hact]
      · refine Or.inr ⟨i,s₁,rfl,hfirst,hact,fun k => ?_,⟨before,rest,htests,hbefore,hrest⟩,?_⟩
        · by_cases hk : k = !i
          · rw [hk,ht]
          · exact hok k hk
        · obtain ⟨t,ht'⟩ := not_forall.mp hall
          obtain ⟨hmem,hts⟩ := Classical.not_imp.mp ht'
          exact ⟨t,hmem,by simpa using hts⟩
  · obtain ⟨rfl,rfl,rfl⟩ := h.ended (o := fun k => if k = i then true else false) (by
      intro k
      by_cases hk : k = i
      · rw [hk,Function.update_self,if_pos rfl]
      · have hki : k = !i := by cases k <;> cases i <;> simp_all
        rw [if_neg hk,hki,hother,hst])
    refine Or.inl ⟨by simpa [Fresh] using hfresh,!i,s,?_,?_⟩
    · have hnot : (!i) ≠ i := by cases i <;> simp
      simp only [hfail,if_neg hnot]
    · simp only [Bool.not_not,hfirst,if_true]

/-- What two commands do together, they do one after the other, unless one acts in a state
that it has not tested. -/
theorem Together.serial_or_stale (h : Together c st s acts ok s')
    (hw : ∀ i, Waiting (c i) (st i) s) :
    (Fresh c acts ∧ ∃ i, Serial c i s ok s') ∨ ∃ i s₁, Stale c i s s₁ acts ok s' := by
  induction h with
  | @stop st s ok hok =>
    have hfail : ∀ i, ok i = false ∧ (c i).alone s = (false,s) := by
      intro i
      rcases hw i with ⟨_,_,he,-⟩ | ⟨he,hfail⟩
      · cases (hok i).symm.trans he
      · have hdone := (hok i).symm.trans he
        exact ⟨Status.done.inj hdone,hfail⟩
    refine Or.inl ⟨fun _ ha => absurd ha List.not_mem_nil,true,s,?_,?_⟩
    · rw [(hfail true).1,(hfail true).2]
    · rw [(hfail _).1,(hfail _).2]
  | @pass st s s' acts ok i t ts hi ht hrun ih =>
    obtain ⟨before,htests,hbefore⟩ := (hi ▸ hw i).testing
    refine ih (Waiting.update hw (Or.inl ⟨before ++ [t],ts,rfl,?_,?_⟩))
    · rw [htests,List.append_assoc]
      rfl
    · exact List.forall_mem_append.mpr ⟨hbefore,List.forall_mem_singleton.mpr ht⟩
  | @fail st s s' acts ok i t ts hi ht hrun ih =>
    obtain ⟨before,htests,-⟩ := (hi ▸ hw i).testing
    have hmem : t ∈ (c i).tests := by rw [htests]; simp
    exact ih (Waiting.update hw (.failed (alone_of_test hmem ht)))
  | @act st s s₁ s' acts ok i hi hact hrun ih =>
    obtain ⟨before,htests,hbefore⟩ := (hi ▸ hw i).testing
    rw [List.append_nil] at htests
    exact hrun.after_act (alone_of_act (htests ▸ hbefore) hact) (hw _)
  | @miss st s s' acts ok i hi hact hrun ih =>
    exact ih (Waiting.update hw (.failed (alone_of_miss hact)))

end Two

end Guarded

end NetworkLab
