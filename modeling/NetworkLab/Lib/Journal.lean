import NetworkLab.Lib.Store
import Mathlib.Data.List.Basic
set_option autoImplicit false

/-! The changes of a store, one behind the other. A file must be there to be deleted or
moved. -/

namespace NetworkLab.Store

variable {F α : Type}

inductive Change (F α : Type) where
  | put (f : F) (content : List α)
  | delete (f : F)
  | move (f g : F)

/-- The files that a change is about. -/
def Change.files : Change F α → List F
  | .put f _ => [f]
  | .delete f => [f]
  | .move f g => [f,g]

variable [DecidableEq F]

def change (s : Store F α) : Change F α → Option (Store F α)
  | .put f content => some (Function.update s f (some content))
  | .delete f => if (s f).isSome then some (s.delete f) else none
  | .move f g => if (s f).isSome then some (s.move f g) else none

def replay (s : Store F α) (changes : List (Change F α)) : Option (Store F α) :=
  changes.foldlM change s

variable {s t : Store F α} {f : F} {content : List α} {changes changes' : List (Change F α)}

@[simp] theorem replay_nil : s.replay [] = some s := rfl

@[simp] theorem replay_cons {c : Change F α} :
    s.replay (c :: changes) = (s.change c).bind fun t => t.replay changes := rfl

theorem replay_append :
    s.replay (changes ++ changes') = (s.replay changes).bind fun t => t.replay changes' :=
  List.foldlM_append

theorem replay_delete (h : (s f).isSome) : s.replay [.delete f] = some (s.delete f) := by
  rw [replay_cons,change,if_pos h]
  rfl

theorem replay_move {g : F} (h : (s f).isSome) : s.replay [.move f g] = some (s.move f g) := by
  rw [replay_cons,change,if_pos h]
  rfl

theorem change_cases {c : Change F α} (h : s.change c = some t) :
    (∃ g data, c = .put g data ∧ t = Function.update s g (some data)) ∨
    (∃ g, c = .delete g ∧ t = s.delete g) ∨
    ∃ g k, c = .move g k ∧ t = s.move g k := by
  cases c with
  | put g data => exact Or.inl ⟨g,data,rfl,(Option.some.inj h).symm⟩
  | delete g =>
    obtain ⟨-,he⟩ := Option.ite_none_right_eq_some.mp h
    exact Or.inr (Or.inl ⟨g,rfl,(Option.some.inj he).symm⟩)
  | move g k =>
    obtain ⟨-,he⟩ := Option.ite_none_right_eq_some.mp h
    exact Or.inr (Or.inr ⟨g,k,rfl,(Option.some.inj he).symm⟩)

/-- What a file holds was there before, or is put there. -/
theorem change_origin {c : Change F α} (h : s.change c = some t) (hf : t f = some content) :
    (∃ g, s g = some content) ∨ ∃ g, c = .put g content := by
  rcases change_cases h with ⟨g,data,rfl,rfl⟩ | ⟨g,rfl,rfl⟩ | ⟨g,k,rfl,rfl⟩
  · by_cases he : f = g
    · rw [he,Function.update_self] at hf
      cases hf
      exact Or.inr ⟨g,rfl⟩
    · rw [Function.update_of_ne he] at hf
      exact Or.inl ⟨f,hf⟩
  · by_cases he : f = g
    · rw [he,delete_self] at hf
      cases hf
    · rw [delete_of_ne _ he] at hf
      exact Or.inl ⟨f,hf⟩
  · by_cases hk : f = k
    · rw [hk,move_target] at hf
      exact Or.inl ⟨g,hf⟩
    · by_cases hg : f = g
      · rw [hg,move_source _ (hg ▸ hk)] at hf
        cases hf
      · rw [move_of_ne _ hg hk] at hf
        exact Or.inl ⟨f,hf⟩

theorem change_untouched {c : Change F α} (h : s.change c = some t) (hf : f ∉ c.files) :
    t f = s f := by
  rcases change_cases h with ⟨g,data,rfl,rfl⟩ | ⟨g,rfl,rfl⟩ | ⟨g,k,rfl,rfl⟩
  · exact Function.update_of_ne (by simpa [Change.files] using hf) ..
  · exact delete_of_ne _ (by simpa [Change.files] using hf)
  · simp only [Change.files,List.mem_cons,List.not_mem_nil,or_false,not_or] at hf
    exact move_of_ne _ hf.1 hf.2

theorem replay_origin (h : s.replay changes = some t) (hf : t f = some content) :
    (∃ g, s g = some content) ∨ ∃ g, .put g content ∈ changes := by
  induction changes generalizing s with
  | nil =>
    cases h
    exact Or.inl ⟨f,hf⟩
  | cons c changes ih =>
    obtain ⟨u,hu,ht⟩ := Option.bind_eq_some_iff.mp h
    rcases ih ht with ⟨g,hg⟩ | ⟨g,hg⟩
    · exact (change_origin hu hg).imp_right fun ⟨k,hk⟩ => ⟨k,hk ▸ List.mem_cons_self⟩
    · exact Or.inr ⟨g,List.mem_cons_of_mem _ hg⟩

theorem replay_untouched (h : s.replay changes = some t) (hf : ∀ c ∈ changes, f ∉ c.files) :
    t f = s f := by
  induction changes generalizing s with
  | nil =>
    cases h
    rfl
  | cons c changes ih =>
    obtain ⟨u,hu,ht⟩ := Option.bind_eq_some_iff.mp h
    obtain ⟨hc,hf⟩ := List.forall_mem_cons.mp hf
    exact (ih ht hf).trans (change_untouched hu hc)

/-- The last change of a file decides what it holds. -/
theorem replay_put (h : s.replay (changes ++ .put f content :: changes') = some t)
    (hf : ∀ c ∈ changes', f ∉ c.files) : t f = some content := by
  rw [replay_append] at h
  obtain ⟨u,-,hu⟩ := Option.bind_eq_some_iff.mp h
  rw [replay_cons] at hu
  exact (replay_untouched hu hf).trans (Function.update_self ..)

end NetworkLab.Store
