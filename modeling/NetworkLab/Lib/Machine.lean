import Mathlib.Logic.Relation
set_option autoImplicit false

/-! Machines that take one step at a time and may stop. Nothing here is about a
particular program: `step` is any partial function on states. -/

namespace NetworkLab.Machine
open Relation

/-- The state after `n` steps, or `none` when the machine stops before. -/
def run {S : Type*} (step : S → Option S) : Nat → S → Option S
  | 0, s => some s
  | n+1, s => (step s).bind (run step n)

def Reaches {S : Type*} (step : S → Option S) (s t : S) : Prop :=
  ∃ n, run step n s = some t

/-- After finitely many steps, none of them the last one, `Q` holds. -/
inductive Eventually {S : Type*} (step : S → Option S) (Q : S → Prop) : S → Prop where
  | now {s : S} : Q s → Eventually step Q s
  | later {s t : S} : step s = some t → Eventually step Q t → Eventually step Q s

/-- The induction every safety proof uses: what one step keeps, a whole run keeps. -/
theorem star_invariant {S : Type*} {r : S → S → Prop} {I : S → Prop}
    (hs : ∀ a b, r a b → I a → I b) {a b : S} (h : ReflTransGen r a b) (ha : I a) : I b := by
  induction h with
  | refl => exact ha
  | tail _ hr ih => exact hs _ _ hr ih

section Runs
variable {S : Type*} {step : S → Option S} {P Q I : S → Prop}

theorem run_add {m n : Nat} {s t : S} (h : run step m s = some t) :
    run step (m+n) s = run step n t := by
  induction m generalizing s with
  | zero =>
    simp only [run,Option.some.injEq] at h
    simp [h]
  | succ m ih =>
    cases hs : step s with
    | none => simp [run,hs] at h
    | some u =>
      simp only [run,hs,Option.bind_some] at h
      rw [Nat.succ_add]
      simpa [run,hs] using ih h

theorem Reaches.refl (s : S) : Reaches step s s := ⟨0,rfl⟩

theorem Reaches.single {s t : S} (h : step s = some t) : Reaches step s t :=
  ⟨1,by simp [run,h]⟩

theorem Reaches.trans {s t u : S} (h : Reaches step s t) (h' : Reaches step t u) :
    Reaches step s u := by
  obtain ⟨m,hm⟩ := h
  obtain ⟨n,hn⟩ := h'
  exact ⟨m+n,by rw [run_add hm,hn]⟩

theorem Reaches.invariant (hs : ∀ a b, step a = some b → I a → I b)
    {s t : S} (h : Reaches step s t) (hI : I s) : I t := by
  obtain ⟨n,hn⟩ := h
  induction n generalizing s with
  | zero =>
    simp only [run,Option.some.injEq] at hn
    exact hn ▸ hI
  | succ n ih =>
    cases hst : step s with
    | none => simp [run,hst] at hn
    | some u =>
      simp only [run,hst,Option.bind_some] at hn
      exact ih (hs _ _ hst hI) hn

theorem Eventually.mono (h : ∀ s, P s → Q s) {s : S} (he : Eventually step P s) :
    Eventually step Q s := by
  induction he with
  | now hp => exact .now (h _ hp)
  | later hst _ ih => exact .later hst ih

/-- Leads-to composes. -/
theorem Eventually.trans {s : S} (he : Eventually step P s)
    (h : ∀ t, P t → Eventually step Q t) : Eventually step Q s := by
  induction he with
  | now hp => exact h _ hp
  | later hst _ ih => exact .later hst ih

theorem eventually_iff_reaches {s : S} :
    Eventually step Q s ↔ ∃ t, Reaches step s t ∧ Q t := by
  constructor
  · intro h
    induction h with
    | now hq => exact ⟨_,Reaches.refl _,hq⟩
    | later hst _ ih =>
      obtain ⟨t,ht,hq⟩ := ih
      exact ⟨t,(Reaches.single hst).trans ht,hq⟩
  · rintro ⟨t,⟨n,hn⟩,hq⟩
    induction n generalizing s with
    | zero =>
      simp only [run,Option.some.injEq] at hn
      exact .now (hn ▸ hq)
    | succ n ih =>
      cases hst : step s with
      | none => simp [run,hst] at hn
      | some u =>
        simp only [run,hst,Option.bind_some] at hn
        exact .later hst (ih hn)

/-- An invariant that holds now still holds where the event happens. -/
theorem Eventually.with_invariant (hs : ∀ a b, step a = some b → I a → I b)
    {s : S} (h : Eventually step Q s) (hI : I s) :
    Eventually step (fun t => Q t ∧ I t) s := by
  induction h with
  | now hq => exact .now ⟨hq,hI⟩
  | later hst _ ih => exact .later hst (ih (hs _ _ hst hI))

/-- A state that stops the machine is met by every continuation of a run leading to it. -/
theorem Eventually.of_prefix (hstop : ∀ s, Q s → step s = none) {s t : S}
    (h : Eventually step Q s) (hr : Reaches step s t) : Eventually step Q t := by
  obtain ⟨n,hn⟩ := hr
  induction n generalizing s with
  | zero =>
    simp only [run,Option.some.injEq] at hn
    exact hn ▸ h
  | succ n ih =>
    cases h with
    | now hq => simp [run,hstop _ hq] at hn
    | later hst h =>
      simp only [run,hst,Option.bind_some] at hn
      exact ih h hn

/-- Progress by a rank: the run gets to `Q`, or to a state of smaller rank where the
invariant holds again. -/
theorem eventually_of_rank (rank : S → Nat)
    (h : ∀ s, I s → Eventually step (fun t => Q t ∨ I t ∧ rank t < rank s) s)
    {s : S} (hI : I s) : Eventually step Q s := by
  induction hr : rank s using Nat.strongRecOn generalizing s with
  | ind n ih =>
    refine (h s hI).trans ?_
    rintro t (hq | ⟨ht,hlt⟩)
    · exact .now hq
    · exact ih (rank t) (hr ▸ hlt) ht rfl

end Runs

end NetworkLab.Machine
