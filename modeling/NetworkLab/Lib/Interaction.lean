set_option autoImplicit false

/-! Programs as trees of calls to what surrounds them. Nothing here is about a
particular program: `Op` are the calls and `Res o` is what the call `o` can return. -/

namespace NetworkLab.Interaction

inductive Prog {Op : Type} (Res : Op → Type) (α : Type) where
  | ret : α → Prog Res α
  | call : (o : Op) → (Res o → Prog Res α) → Prog Res α

/-- A call that was made, with its answer. -/
abbrev Event {Op : Type} (Res : Op → Type) := (o : Op) × Res o

section Programs
variable {Op : Type} {Res : Op → Type} {α β : Type}

def Prog.bind : Prog Res α → (α → Prog Res β) → Prog Res β
  | .ret a, f => f a
  | .call o k, f => .call o fun r => (k r).bind f

instance : Monad (Prog Res) where
  pure := .ret
  bind := Prog.bind

theorem Prog.bind_ret (p : Prog Res α) : p.bind .ret = p := by
  induction p with
  | ret a => rfl
  | call o k ih => exact congrArg (Prog.call o) (funext ih)

theorem Prog.bind_assoc {γ : Type} (p : Prog Res α) (f : α → Prog Res β) (g : β → Prog Res γ) :
    (p.bind f).bind g = p.bind fun a => (f a).bind g := by
  induction p with
  | ret a => rfl
  | call o k ih => exact congrArg (Prog.call o) (funext ih)

instance : LawfulMonad (Prog Res) :=
  LawfulMonad.mk' _ Prog.bind_ret (fun _ _ => rfl) Prog.bind_assoc

/-- The program runs to its end and returns `a`; `tr` are its calls on the way. -/
inductive Exec : Prog Res α → List (Event Res) → α → Prop where
  | ret (a : α) : Exec (.ret a) [] a
  | call {o : Op} {k : Res o → Prog Res α} {tr : List (Event Res)} {a : α} (r : Res o) :
      Exec (k r) tr a → Exec (.call o k) (⟨o,r⟩ :: tr) a

@[simp] theorem exec_ret {a b : α} {tr : List (Event Res)} :
    Exec (.ret a) tr b ↔ tr = [] ∧ b = a := by
  constructor
  · intro h
    cases h
    exact ⟨rfl,rfl⟩
  · rintro ⟨rfl,rfl⟩
    exact .ret _

@[simp] theorem exec_call {o : Op} {k : Res o → Prog Res α} {tr : List (Event Res)} {a : α} :
    Exec (.call o k) tr a ↔ ∃ r tr', tr = ⟨o,r⟩ :: tr' ∧ Exec (k r) tr' a := by
  constructor
  · intro h
    cases h with
    | call r h => exact ⟨r,_,rfl,h⟩
  · rintro ⟨r,tr',rfl,h⟩
    exact .call r h

theorem exec_cons {p : Prog Res α} {o : Op} {r : Res o} {tr : List (Event Res)} {a : α}
    (h : Exec p (⟨o,r⟩ :: tr) a) : ∃ k, p = .call o k ∧ Exec (k r) tr a := by
  cases h with
  | call r h => exact ⟨_,rfl,h⟩

theorem exec_bind {p : Prog Res α} {f : α → Prog Res β} {tr : List (Event Res)} {b : β} :
    Exec (p.bind f) tr b ↔ ∃ a tr₁ tr₂, Exec p tr₁ a ∧ Exec (f a) tr₂ b ∧ tr = tr₁ ++ tr₂ := by
  induction p generalizing tr with
  | ret a =>
    constructor
    · exact fun h => ⟨a,[],tr,.ret a,h,rfl⟩
    · rintro ⟨a',tr₁,tr₂,h₁,h₂,rfl⟩
      obtain ⟨rfl,rfl⟩ := exec_ret.mp h₁
      exact h₂
  | call o k ih =>
    constructor
    · intro h
      obtain ⟨r,tr',rfl,h'⟩ := exec_call.mp h
      obtain ⟨a,tr₁,tr₂,h₁,h₂,rfl⟩ := (ih r).mp h'
      exact ⟨a,_,tr₂,.call r h₁,h₂,rfl⟩
    · rintro ⟨a,tr₁,tr₂,h₁,h₂,rfl⟩
      obtain ⟨r,tr',rfl,h'⟩ := exec_call.mp h₁
      exact .call r ((ih r).mpr ⟨a,tr',tr₂,h',h₂,rfl⟩)

/-- Run the program on a given list of calls with their answers. -/
def replay [DecidableEq Op] : Prog Res α → List (Event Res) → Option α
  | .ret a, [] => some a
  | .ret _, _ :: _ => none
  | .call _ _, [] => none
  | .call o k, ⟨o',r⟩ :: tr => if h : o' = o then replay (k (h ▸ r)) tr else none

theorem exec_of_replay [DecidableEq Op] {p : Prog Res α} {tr : List (Event Res)} {a : α}
    (h : replay p tr = some a) : Exec p tr a := by
  induction p generalizing tr with
  | ret b =>
    cases tr with
    | nil =>
      obtain rfl := Option.some.inj h
      exact .ret _
    | cons => cases h
  | call o k ih =>
    cases tr with
    | nil => cases h
    | cons ev tr =>
      obtain ⟨o',r⟩ := ev
      rw [replay] at h
      split at h
      · rename_i he
        subst he
        exact .call r (ih r h)
      · cases h

theorem exec_of_isSome [DecidableEq Op] {p : Prog Res α} {tr : List (Event Res)}
    (h : (replay p tr).isSome) : ∃ a, Exec p tr a := by
  obtain ⟨a,ha⟩ := Option.isSome_iff_exists.mp h
  exact ⟨a,exec_of_replay ha⟩

theorem replay_of_isSome [DecidableEq Op] {p : Prog Res (α × β)} {tr : List (Event Res)}
    (h : (replay p tr).isSome) : ∃ a b, replay p tr = some (a,b) := by
  obtain ⟨⟨a,b⟩,hr⟩ := Option.isSome_iff_exists.mp h
  exact ⟨a,b,hr⟩

theorem exec_nil {p : Prog Res α} {a : α} (h : Exec p [] a) : p = .ret a := by
  cases h
  rfl

/-- All calls of the program satisfy `P`. -/
inductive Within (P : Op → Prop) : Prog Res α → Prop where
  | ret (a : α) : Within P (.ret a)
  | call {o : Op} {k : Res o → Prog Res α} : P o → (∀ r, Within P (k r)) → Within P (.call o k)

theorem Within.of_exec {P : Op → Prop} {p : Prog Res α} {tr : List (Event Res)} {a : α}
    (h : Within P p) (he : Exec p tr a) : ∀ ev ∈ tr, P ev.1 := by
  induction he with
  | ret a => simp
  | call r _ ih =>
    cases h with
    | call ho hk => exact List.forall_mem_cons.mpr ⟨ho,ih (hk r)⟩

end Programs

/-! Programs with variables of their own. -/

section Stateful
variable {Op : Type} {Res : Op → Type} {σ α β : Type}

abbrev Stateful (σ : Type) (Res : Op → Type) := StateT σ (Prog Res)

/-- One call. -/
def sys (o : Op) : Stateful σ Res (Res o) := fun s => .call o fun r => .ret (r,s)

/-- `p` started with the variables `s` ends with `s'` and returns `a`. -/
def Runs (p : Stateful σ Res α) (s : σ) (tr : List (Event Res)) (a : α) (s' : σ) : Prop :=
  Exec (p s) tr (a,s')

variable {s s' : σ} {tr : List (Event Res)}

@[simp] theorem runs_pure {a b : α} :
    Runs (pure a : Stateful σ Res α) s tr b s' ↔ tr = [] ∧ b = a ∧ s' = s := by
  change Exec (.ret (a,s)) tr (b,s') ↔ _
  rw [exec_ret,Prod.mk.injEq]

theorem runs_bind {p : Stateful σ Res α} {f : α → Stateful σ Res β} {b : β} :
    Runs (p >>= f) s tr b s' ↔ ∃ a s₁ tr₁ tr₂, Runs p s tr₁ a s₁ ∧ Runs (f a) s₁ tr₂ b s' ∧
      tr = tr₁ ++ tr₂ := by
  refine (exec_bind (p := p s) (f := fun r => f r.1 r.2)).trans ?_
  constructor
  · rintro ⟨⟨a,s₁⟩,tr₁,tr₂,h⟩
    exact ⟨a,s₁,tr₁,tr₂,h⟩
  · rintro ⟨a,s₁,tr₁,tr₂,h⟩
    exact ⟨(a,s₁),tr₁,tr₂,h⟩

@[simp] theorem runs_sys_bind {o : Op} {f : Res o → Stateful σ Res β} {b : β} :
    Runs (sys o >>= f) s tr b s' ↔ ∃ r tr', tr = ⟨o,r⟩ :: tr' ∧ Runs (f r) s tr' b s' :=
  exec_call

@[simp] theorem runs_sys {o : Op} {r : Res o} :
    Runs (sys o) s tr r s' ↔ tr = [⟨o,r⟩] ∧ s' = s := by
  constructor
  · intro h
    obtain ⟨r',tr',rfl,h'⟩ := exec_call.mp h
    obtain ⟨rfl,he⟩ := exec_ret.mp h'
    obtain ⟨rfl,rfl⟩ := Prod.mk.inj he
    exact ⟨rfl,rfl⟩
  · rintro ⟨rfl,rfl⟩
    exact .call r (.ret _)

@[simp] theorem runs_get_bind {f : σ → Stateful σ Res β} {b : β} :
    Runs (get >>= f) s tr b s' ↔ Runs (f s) s tr b s' := Iff.rfl

@[simp] theorem runs_modify_bind {g : σ → σ} {f : Unit → Stateful σ Res β} {b : β} :
    Runs ((modify g : Stateful σ Res Unit) >>= f) s tr b s' ↔ Runs (f ()) (g s) tr b s' :=
  Iff.rfl

@[simp] theorem runs_pure_bind {a : α} {f : α → Stateful σ Res β} {b : β} :
    Runs (pure a >>= f) s tr b s' ↔ Runs (f a) s tr b s' := Iff.rfl

@[simp] theorem runs_bind_assoc {γ : Type} {p : Stateful σ Res α}
    {f : α → Stateful σ Res β} {g : β → Stateful σ Res γ} {c : γ} :
    Runs (p >>= f >>= g) s tr c s' ↔ Runs (p >>= fun a => f a >>= g) s tr c s' := by
  simp only [runs_bind]
  constructor
  · rintro ⟨b,s₂,_,tr₃,⟨a,s₁,tr₁,tr₂,h₁,h₂,rfl⟩,h₃,rfl⟩
    exact ⟨a,s₁,tr₁,tr₂ ++ tr₃,h₁,⟨b,s₂,tr₂,tr₃,h₂,h₃,rfl⟩,List.append_assoc _ _ _⟩
  · rintro ⟨a,s₁,tr₁,_,h₁,⟨b,s₂,tr₂,tr₃,h₂,h₃,rfl⟩,rfl⟩
    exact ⟨b,s₂,tr₁ ++ tr₂,tr₃,⟨a,s₁,tr₁,tr₂,h₁,h₂,rfl⟩,h₃,(List.append_assoc _ _ _).symm⟩

theorem Within.ite {P : Op → Prop} {c : Prop} [Decidable c] {p q : Stateful σ Res α}
    (hp : c → Within P (p s)) (hq : ¬c → Within P (q s)) :
    Within P ((if c then p else q : Stateful σ Res α) s) := by
  by_cases h : c
  · rw [if_pos h]
    exact hp h
  · rw [if_neg h]
    exact hq h

end Stateful

end NetworkLab.Interaction
