import NetworkLab.Rdt.Emulator
import Mathlib.Logic.Relation
set_option autoImplicit false

/-! Two abstract networks under the students' functions: one with a first-in
first-out channel in each direction, and one in which whatever was ever handed to
layer 3 may arrive at any time, any number of times. Timers fire at any moment. -/

namespace NetworkLab.Rdt
open Relation

/-- A and B with the packets in flight and A's pending timers. -/
structure Net (σ : Type) where
  vars : σ
  toA : List Pkt
  toB : List Pkt
  timers : List Int
  cp : Nat
  given : List Msg
  taken : List Payload
  handed : List (Entity × Pkt × Fate)

/-- What comes out at the other end of a packet with this fate. -/
def Fate.apply (p : Pkt) : Fate → List Pkt
  | .ok => [p]
  | .corrupt => [corrupted p]
  | .lost => []

namespace Net
variable {σ : Type} (pattern : Nat → Fate)

def call (s : Net σ) : Call → Net σ
  | .tolayer3 .A p =>
      { s with toB := s.toB ++ (pattern s.cp).apply p, cp := s.cp + 1,
               handed := s.handed ++ [(.A,p,pattern s.cp)] }
  | .tolayer3 .B p =>
      { s with toA := s.toA ++ (pattern s.cp).apply p, cp := s.cp + 1,
               handed := s.handed ++ [(.B,p,pattern s.cp)] }
  | .tolayer5 d => { s with taken := s.taken ++ [d] }
  | .starttimeR q => { s with timers := s.timers ++ [q] }
  | .stoptimeR q => { s with timers := s.timers.erase q }

def perform (s : Net σ) (r : σ × List Call) : Net σ :=
  r.2.foldl (call pattern) { s with vars := r.1 }

def init (students : Students σ) : Net σ :=
  { vars := students.aInit, toA := [], toB := [], timers := [], cp := 0,
    given := [], taken := [], handed := [] }

/-- One event. Nothing says which of the possible events is next. -/
inductive Step (students : Students σ) : Net σ → Net σ → Prop where
  | submit {s : Net σ} {r : σ × List Call} (m : Msg) :
      students.aOutput m s.vars = some r →
      Step students s (perform pattern { s with given := s.given ++ [m] } r)
  | recvA {s : Net σ} (p : Pkt) (rest : List Pkt) : s.toA = p :: rest →
      Step students s (perform pattern { s with toA := rest } (students.aInput p s.vars))
  | recvB {s : Net σ} (p : Pkt) (rest : List Pkt) : s.toB = p :: rest →
      Step students s (perform pattern { s with toB := rest } (students.bInput p s.vars))
  | fire {s : Net σ} (q : Int) (before after : List Int) :
      s.timers = before ++ q :: after →
      Step students s (perform pattern { s with timers := before ++ after }
        (students.aPacketTimeRinterrupt q s.vars))

def Reachable (students : Students σ) (s : Net σ) : Prop :=
  ReflTransGen (Step pattern students) (init students) s

/-- Which event is next. -/
inductive Move where
  | submit (m : Msg)
  | recvA
  | recvB
  | fire (q : Int)

def act (students : Students σ) (s : Net σ) : Move → Option (Net σ)
  | .submit m => (students.aOutput m s.vars).map fun r =>
      perform pattern { s with given := s.given ++ [m] } r
  | .recvA => s.toA.head?.map fun p =>
      perform pattern { s with toA := s.toA.tail } (students.aInput p s.vars)
  | .recvB => s.toB.head?.map fun p =>
      perform pattern { s with toB := s.toB.tail } (students.bInput p s.vars)
  | .fire q => if q ∈ s.timers then
      some (perform pattern { s with timers := s.timers.erase q }
        (students.aPacketTimeRinterrupt q s.vars))
      else none

/-- The run that a list of events determines. -/
def follow (students : Students σ) : List Move → Net σ → Option (Net σ)
  | [], s => some s
  | m :: ms, s => (act pattern students s m).bind (follow students ms)

variable {pattern} in
theorem step_of_act {students : Students σ} {s t : Net σ} {m : Move}
    (h : act pattern students s m = some t) : Step pattern students s t := by
  cases m with
  | submit m =>
    obtain ⟨r,hr,rfl⟩ := Option.map_eq_some_iff.mp h
    exact .submit m hr
  | recvA =>
    obtain ⟨p,hp,rfl⟩ := Option.map_eq_some_iff.mp h
    exact .recvA p _ (List.eq_cons_of_mem_head? hp)
  | recvB =>
    obtain ⟨p,hp,rfl⟩ := Option.map_eq_some_iff.mp h
    exact .recvB p _ (List.eq_cons_of_mem_head? hp)
  | fire q =>
    rw [act] at h
    split at h
    · obtain rfl := Option.some.inj h
      obtain ⟨before,after,-,hq,he⟩ := List.exists_erase_eq ‹q ∈ s.timers›
      rw [he]
      exact .fire q before after hq
    · cases h

variable {pattern} in
theorem reachable_of_follow {students : Students σ} {s t : Net σ} {ms : List Move}
    (hs : Reachable pattern students s) (h : follow pattern students ms s = some t) :
    Reachable pattern students t := by
  induction ms generalizing s with
  | nil =>
    obtain rfl := Option.some.inj h
    exact hs
  | cons m ms ih =>
    obtain ⟨u,hu,ht⟩ := Option.bind_eq_some_iff.mp h
    exact ih (hs.tail (step_of_act hu)) ht

end Net

/-- The network that forgets nothing: `handed` is also what may arrive. -/
structure Soup (σ : Type) where
  vars : σ
  timers : List Int
  given : List Msg
  taken : List Payload
  handed : List (Entity × Pkt)

namespace Soup
variable {σ : Type}

def call (s : Soup σ) : Call → Soup σ
  | .tolayer3 e p => { s with handed := s.handed ++ [(e,p)] }
  | .tolayer5 d => { s with taken := s.taken ++ [d] }
  | .starttimeR q => { s with timers := s.timers ++ [q] }
  | .stoptimeR q => { s with timers := s.timers.erase q }

def perform (s : Soup σ) (r : σ × List Call) : Soup σ :=
  r.2.foldl call { s with vars := r.1 }

def init (students : Students σ) : Soup σ :=
  { vars := students.aInit, timers := [], given := [], taken := [], handed := [] }

/-- A packet that `e` once handed to layer 3, intact or as `tolayer3` corrupts it.
`noise` says which corrupted packets the channel produces. -/
def Arrives (noise : Pkt → Prop) (s : Soup σ) (e : Entity) (p : Pkt) : Prop :=
  ∃ p₀, (e,p₀) ∈ s.handed ∧ (p = p₀ ∨ p = corrupted p₀ ∧ noise p)

inductive Step (noise : Pkt → Prop) (students : Students σ) : Soup σ → Soup σ → Prop where
  | submit {s : Soup σ} {r : σ × List Call} (m : Msg) :
      students.aOutput m s.vars = some r →
      Step noise students s (perform { s with given := s.given ++ [m] } r)
  | recvA {s : Soup σ} (p : Pkt) : s.Arrives noise .B p →
      Step noise students s (perform s (students.aInput p s.vars))
  | recvB {s : Soup σ} (p : Pkt) : s.Arrives noise .A p →
      Step noise students s (perform s (students.bInput p s.vars))
  | fire {s : Soup σ} (q : Int) (before after : List Int) :
      s.timers = before ++ q :: after →
      Step noise students s (perform { s with timers := before ++ after }
        (students.aPacketTimeRinterrupt q s.vars))

def Reachable (noise : Pkt → Prop) (students : Students σ) (s : Soup σ) : Prop :=
  ReflTransGen (Step noise students) (init students) s

end Soup

/-- The packets that `e` hands over in a list of calls. -/
def outOf (e : Entity) : List Call → List Pkt :=
  List.filterMap fun c => match c with
    | .tolayer3 e' p => if e' = e then some p else none
    | _ => none

/-- The payloads that go up to layer 5 in a list of calls. -/
def takenOf : List Call → List Payload :=
  List.filterMap fun c => match c with
    | .tolayer5 d => some d
    | _ => none

section CallLists
variable (e e' : Entity) (p : Pkt) (d : Payload) (q : Int) (cs ds : List Call)

@[simp] theorem outOf_nil : outOf e [] = [] := rfl

@[simp] theorem outOf_append : outOf e (cs ++ ds) = outOf e cs ++ outOf e ds :=
  List.filterMap_append

@[simp] theorem outOf_tolayer3 :
    outOf e (.tolayer3 e' p :: cs) = if e' = e then p :: outOf e cs else outOf e cs := by
  by_cases h : e' = e <;> simp [outOf,h]

@[simp] theorem outOf_tolayer5 : outOf e (.tolayer5 d :: cs) = outOf e cs := rfl

@[simp] theorem outOf_starttimeR : outOf e (.starttimeR q :: cs) = outOf e cs := rfl

@[simp] theorem outOf_stoptimeR : outOf e (.stoptimeR q :: cs) = outOf e cs := rfl

@[simp] theorem takenOf_nil : takenOf [] = [] := rfl

@[simp] theorem takenOf_append : takenOf (cs ++ ds) = takenOf cs ++ takenOf ds :=
  List.filterMap_append

@[simp] theorem takenOf_tolayer3 : takenOf (.tolayer3 e p :: cs) = takenOf cs := rfl

@[simp] theorem takenOf_tolayer5 : takenOf (.tolayer5 d :: cs) = d :: takenOf cs := rfl

@[simp] theorem takenOf_starttimeR : takenOf (.starttimeR q :: cs) = takenOf cs := rfl

@[simp] theorem takenOf_stoptimeR : takenOf (.stoptimeR q :: cs) = takenOf cs := rfl

/-- A timer that is started under a condition. -/
@[simp] theorem outOf_ite_timer (c : Prop) [Decidable c] :
    outOf e (if c then [.starttimeR q] else []) = [] := by
  split <;> rfl

@[simp] theorem takenOf_ite_timer (c : Prop) [Decidable c] :
    takenOf (if c then [.starttimeR q] else []) = [] := by
  split <;> rfl

end CallLists

/-- A's pending timers behind a list of calls. -/
def timersAfter (timers : List Int) : List Call → List Int :=
  List.foldl (fun ts c => match c with
    | .starttimeR q => ts ++ [q]
    | .stoptimeR q => ts.erase q
    | _ => ts) timers

@[simp] theorem timersAfter_nil (ts : List Int) : timersAfter ts [] = ts := rfl

theorem timersAfter_append (ts : List Int) (cs ds : List Call) :
    timersAfter ts (cs ++ ds) = timersAfter (timersAfter ts cs) ds := List.foldl_append

/-- What a list of calls hands to layer 3, with the fates from call `cp` on. -/
def fated (pattern : Nat → Fate) : Nat → List Call → List (Entity × Pkt × Fate)
  | _, [] => []
  | cp, .tolayer3 e p :: cs => (e,p,pattern cp) :: fated pattern (cp+1) cs
  | cp, .tolayer5 _ :: cs => fated pattern cp cs
  | cp, .starttimeR _ :: cs => fated pattern cp cs
  | cp, .stoptimeR _ :: cs => fated pattern cp cs

/-- What comes out of the channel that leads away from `e`. -/
def arriving (e : Entity) (hs : List (Entity × Pkt × Fate)) : List Pkt :=
  hs.flatMap fun h => if h.1 = e then h.2.2.apply h.2.1 else []

theorem mem_fated {pattern : Nat → Fate} {e : Entity} {p : Pkt} {f : Fate} {cp : Nat}
    {cs : List Call} (h : (e,p,f) ∈ fated pattern cp cs) : p ∈ outOf e cs := by
  induction cs generalizing cp with
  | nil => cases h
  | cons c cs ih =>
    cases c with
    | tolayer3 e' p' =>
      simp only [fated,List.mem_cons,Prod.mk.injEq] at h
      rcases h with ⟨rfl,rfl,-⟩ | h
      · simp
      · rw [outOf_tolayer3]
        split
        · exact List.mem_cons_of_mem _ (ih h)
        · exact ih h
    | tolayer5 d => exact ih h
    | starttimeR q => exact ih h
    | stoptimeR q => exact ih h

theorem fated_const {fate : Fate} {x : Entity × Pkt × Fate} {cp : Nat} {cs : List Call}
    (h : x ∈ fated (fun _ => fate) cp cs) : x.2.2 = fate := by
  induction cs generalizing cp with
  | nil => cases h
  | cons c cs ih =>
    cases c with
    | tolayer3 e p =>
      rcases List.mem_cons.mp h with rfl | h
      · rfl
      · exact ih h
    | tolayer5 d => exact ih h
    | starttimeR q => exact ih h
    | stoptimeR q => exact ih h

/-- Whatever arrives was handed over, and is intact or corrupted. -/
theorem mem_arriving {pattern : Nat → Fate} {e : Entity} {p : Pkt} {cp : Nat}
    {cs : List Call} (h : p ∈ arriving e (fated pattern cp cs)) :
    ∃ p₀ ∈ outOf e cs, p = p₀ ∨ p = corrupted p₀ ∧ (e,p₀,Fate.corrupt) ∈ fated pattern cp cs := by
  obtain ⟨⟨e',p₀,f⟩,hmem,hp⟩ := List.mem_flatMap.mp h
  simp only at hp
  by_cases he : e' = e
  · subst he
    rw [if_pos rfl] at hp
    refine ⟨p₀,mem_fated hmem,?_⟩
    cases f with
    | ok => exact Or.inl (List.mem_singleton.mp hp)
    | corrupt => exact Or.inr ⟨List.mem_singleton.mp hp,hmem⟩
    | lost => cases hp
  · rw [if_neg he] at hp
    cases hp

theorem arriving_nil {pattern : Nat → Fate} {e : Entity} {cp : Nat} {cs : List Call}
    (h : outOf e cs = []) : arriving e (fated pattern cp cs) = [] := by
  refine List.eq_nil_iff_forall_not_mem.mpr fun p hp => ?_
  obtain ⟨p₀,hp₀,-⟩ := mem_arriving hp
  rw [h] at hp₀
  cases hp₀

/-- Through an intact channel everything that is handed over arrives. -/
theorem mem_arriving_ok {e : Entity} {p : Pkt} {cp : Nat} {cs : List Call}
    (h : p ∈ outOf e cs) : p ∈ arriving e (fated (fun _ => .ok) cp cs) := by
  induction cs generalizing cp with
  | nil => cases h
  | cons c cs ih =>
    cases c with
    | tolayer3 e' p' =>
      rw [outOf_tolayer3] at h
      simp only [fated,arriving,List.flatMap_cons,List.mem_append]
      by_cases he : e' = e
      · rw [if_pos he] at h ⊢
        rcases List.mem_cons.mp h with rfl | h
        · exact Or.inl (List.mem_singleton_self _)
        · exact Or.inr (ih h)
      · rw [if_neg he] at h
        exact Or.inr (ih h)
    | tolayer5 d => exact ih h
    | starttimeR q => exact ih h
    | stoptimeR q => exact ih h

/-- All that one student function does to the first-in first-out network. -/
theorem Net.perform_eq {σ : Type} (pattern : Nat → Fate) (s : Net σ) (r : σ × List Call) :
    (s.perform pattern r).vars = r.1 ∧ (s.perform pattern r).given = s.given ∧
    (s.perform pattern r).taken = s.taken ++ takenOf r.2 ∧
    (s.perform pattern r).timers = timersAfter s.timers r.2 ∧
    (s.perform pattern r).handed = s.handed ++ fated pattern s.cp r.2 ∧
    (s.perform pattern r).toB = s.toB ++ arriving .A (fated pattern s.cp r.2) ∧
    (s.perform pattern r).toA = s.toA ++ arriving .B (fated pattern s.cp r.2) := by
  obtain ⟨v,cs⟩ := r
  simp only [Net.perform]
  induction cs generalizing s with
  | nil => simp [fated,arriving]
  | cons c cs ih =>
    cases c with
    | tolayer3 e p =>
      cases e with
      | A =>
        obtain ⟨h₁,h₂,h₃,h₄,h₅,h₆,h₇⟩ := ih
          { s with toB := s.toB ++ (pattern s.cp).apply p, cp := s.cp + 1,
                   handed := s.handed ++ [(.A,p,pattern s.cp)] }
        refine ⟨h₁,h₂,h₃,h₄,h₅.trans ?_,h₆.trans ?_,h₇.trans ?_⟩ <;> simp [fated,arriving]
      | B =>
        obtain ⟨h₁,h₂,h₃,h₄,h₅,h₆,h₇⟩ := ih
          { s with toA := s.toA ++ (pattern s.cp).apply p, cp := s.cp + 1,
                   handed := s.handed ++ [(.B,p,pattern s.cp)] }
        refine ⟨h₁,h₂,h₃,h₄,h₅.trans ?_,h₆.trans ?_,h₇.trans ?_⟩ <;> simp [fated,arriving]
    | tolayer5 d =>
      obtain ⟨h₁,h₂,h₃,h₄⟩ := ih { s with taken := s.taken ++ [d] }
      exact ⟨h₁,h₂,h₃.trans (by simp),h₄⟩
    | starttimeR q => exact ih { s with timers := s.timers ++ [q] }
    | stoptimeR q => exact ih { s with timers := s.timers.erase q }

/-- Every step hands over what one student function handed over, fates included. -/
theorem Net.step_handed {σ : Type} {pattern : Nat → Fate} {students : Students σ}
    {s t : Net σ} (h : Net.Step pattern students s t) :
    (∃ cp cs, t.handed = s.handed ++ fated pattern cp cs) ∧
    s.given.length ≤ t.given.length := by
  cases h <;>
    (obtain ⟨-,hgiven,-,-,hhanded,-⟩ := Net.perform_eq pattern _ _
     rw [hgiven]
     exact ⟨⟨_,_,hhanded⟩,by simp⟩)

namespace Soup
variable {σ : Type}

def out (s : Soup σ) (e : Entity) : List Pkt :=
  s.handed.filterMap fun h => if h.1 = e then some h.2 else none

theorem mem_out {s : Soup σ} {e : Entity} {p : Pkt} : p ∈ s.out e ↔ (e,p) ∈ s.handed := by
  simp [out,List.mem_filterMap]

/-- All that one student function does to the network. -/
theorem perform_eq (s : Soup σ) (r : σ × List Call) :
    (s.perform r).vars = r.1 ∧ (s.perform r).given = s.given ∧
    (s.perform r).taken = s.taken ++ takenOf r.2 ∧
    (s.perform r).timers = timersAfter s.timers r.2 ∧
    ∀ e, (s.perform r).out e = s.out e ++ outOf e r.2 := by
  obtain ⟨v,cs⟩ := r
  simp only [perform]
  induction cs generalizing s with
  | nil => simp [takenOf,timersAfter,outOf,out]
  | cons c cs ih =>
    cases c with
    | tolayer3 e p =>
      obtain ⟨h₁,h₂,h₃,h₄,h₅⟩ := ih { s with handed := s.handed ++ [(e,p)] }
      refine ⟨h₁,h₂,h₃,h₄,fun e' => ?_⟩
      refine (h₅ e').trans ?_
      by_cases he : e = e' <;> simp [out,outOf,he]
    | tolayer5 d =>
      obtain ⟨h₁,h₂,h₃,h₄,h₅⟩ := ih { s with taken := s.taken ++ [d] }
      exact ⟨h₁,h₂,h₃.trans (by simp [takenOf]),h₄,h₅⟩
    | starttimeR q => exact ih { s with timers := s.timers ++ [q] }
    | stoptimeR q => exact ih { s with timers := s.timers.erase q }

theorem Step.given_le {noise : Pkt → Prop} {students : Students σ} {s t : Soup σ}
    (h : Step noise students s t) : s.given.length ≤ t.given.length := by
  cases h with
  | submit m hm => simp [(perform_eq _ _).2.1]
  | recvA p hp => simp [(perform_eq _ _).2.1]
  | recvB p hp => simp [(perform_eq _ _).2.1]
  | fire q before after hq => simp [(perform_eq _ _).2.1]

theorem arrives_iff {noise : Pkt → Prop} {s : Soup σ} {e : Entity} {p : Pkt} :
    s.Arrives noise e p ↔ ∃ p₀ ∈ s.out e, p = p₀ ∨ p = corrupted p₀ ∧ noise p := by
  simp only [Arrives,mem_out]

end Soup

/-! Every first-in first-out network is a soup: forget the order and the fates. -/

def Net.soup {σ : Type} (s : Net σ) : Soup σ :=
  { vars := s.vars, timers := s.timers, given := s.given, taken := s.taken,
    handed := s.handed.map fun h => (h.1,h.2.1) }

/-- What is in flight is what became of a packet that was handed over. -/
structure Net.Sourced {σ : Type} (s : Net σ) : Prop where
  toA : ∀ p ∈ s.toA, ∃ p₀ f, (.B,p₀,f) ∈ s.handed ∧ p ∈ f.apply p₀
  toB : ∀ p ∈ s.toB, ∃ p₀ f, (.A,p₀,f) ∈ s.handed ∧ p ∈ f.apply p₀

/-- The corrupted packets among those handed over are `noise`. -/
def Net.Noisy {σ : Type} (noise : Pkt → Prop) (s : Net σ) : Prop :=
  ∀ e p, (e,p,Fate.corrupt) ∈ s.handed → noise (corrupted p)

theorem Net.Noisy.of_step {σ : Type} {pattern : Nat → Fate} {students : Students σ}
    {noise : Pkt → Prop} {s t : Net σ} (h : t.Noisy noise) (hst : Net.Step pattern students s t) :
    s.Noisy noise := by
  obtain ⟨⟨cp,cs,hhanded⟩,-⟩ := Net.step_handed hst
  refine fun e p hp => h e p ?_
  rw [hhanded]
  exact List.mem_append_left _ hp

section Refinement
variable {σ : Type} (pattern : Nat → Fate) (students : Students σ) (noise : Pkt → Prop)

theorem Net.soup_call (s : Net σ) (c : Call) : (s.call pattern c).soup = s.soup.call c := by
  cases c with
  | tolayer3 e p => cases e <;> simp [Net.call,Net.soup,Soup.call]
  | tolayer5 d => rfl
  | starttimeR q => rfl
  | stoptimeR q => rfl

theorem Net.handed_call (s : Net σ) (c : Call) : s.handed ⊆ (s.call pattern c).handed := by
  cases c with
  | tolayer3 e p => cases e <;> exact List.subset_append_left _ _
  | tolayer5 d => exact fun _ h => h
  | starttimeR q => exact fun _ h => h
  | stoptimeR q => exact fun _ h => h

theorem Net.Sourced.call {s : Net σ} (h : s.Sourced) (c : Call) :
    (s.call pattern c).Sourced := by
  have hmono := Net.handed_call pattern s c
  have oldA : ∀ q ∈ s.toA, ∃ p₀ f, (.B,p₀,f) ∈ (s.call pattern c).handed ∧ q ∈ f.apply p₀ := by
    intro q hq
    obtain ⟨p₀,f,hp,hf⟩ := h.toA q hq
    exact ⟨p₀,f,hmono hp,hf⟩
  have oldB : ∀ q ∈ s.toB, ∃ p₀ f, (.A,p₀,f) ∈ (s.call pattern c).handed ∧ q ∈ f.apply p₀ := by
    intro q hq
    obtain ⟨p₀,f,hp,hf⟩ := h.toB q hq
    exact ⟨p₀,f,hmono hp,hf⟩
  cases c with
  | tolayer3 e p =>
    cases e with
    | A =>
      refine ⟨oldA,fun q hq => ?_⟩
      rcases List.mem_append.mp hq with hq | hq
      · exact oldB q hq
      · exact ⟨p,pattern s.cp,by simp [Net.call],hq⟩
    | B =>
      refine ⟨fun q hq => ?_,oldB⟩
      rcases List.mem_append.mp hq with hq | hq
      · exact oldA q hq
      · exact ⟨p,pattern s.cp,by simp [Net.call],hq⟩
  | tolayer5 d => exact ⟨oldA,oldB⟩
  | starttimeR q => exact ⟨oldA,oldB⟩
  | stoptimeR q => exact ⟨oldA,oldB⟩

theorem Net.perform_refines {s : Net σ} (h : s.Sourced) (r : σ × List Call) :
    (s.perform pattern r).Sourced ∧ (s.perform pattern r).soup = s.soup.perform r ∧
    s.handed ⊆ (s.perform pattern r).handed := by
  obtain ⟨v,cs⟩ := r
  simp only [Net.perform,Soup.perform]
  have h0 : Net.Sourced { s with vars := v } := ⟨h.toA,h.toB⟩
  change _ ∧ _ = List.foldl Soup.call (Net.soup { s with vars := v }) cs ∧
    Net.handed { s with vars := v } ⊆ _
  generalize { s with vars := v } = s₀ at h0
  induction cs generalizing s₀ with
  | nil => exact ⟨h0,rfl,List.Subset.refl _⟩
  | cons c cs ih =>
    simp only [List.foldl_cons]
    rw [← Net.soup_call pattern]
    obtain ⟨h₁,h₂,h₃⟩ := ih _ (h0.call pattern c)
    exact ⟨h₁,h₂,List.Subset.trans (Net.handed_call pattern s₀ c) h₃⟩

theorem Net.Sourced.arrives {s : Net σ} {e : Entity} {p p₀ : Pkt} {f : Fate}
    (hn : s.Noisy noise) (h : (e,p₀,f) ∈ s.handed) (hp : p ∈ f.apply p₀) :
    s.soup.Arrives noise e p := by
  refine ⟨p₀,List.mem_map.mpr ⟨_,h,rfl⟩,?_⟩
  cases f with
  | ok => exact Or.inl (List.mem_singleton.mp hp)
  | corrupt =>
    have he := List.mem_singleton.mp hp
    exact Or.inr ⟨he,he ▸ hn e p₀ h⟩
  | lost => cases hp

/-- Each step of the first-in first-out network is a step of the soup. -/
theorem Net.step_refines {s t : Net σ} (h : Net.Step pattern students s t) (hs : s.Sourced) :
    t.Sourced ∧ s.handed ⊆ t.handed ∧
    (s.Noisy noise → Soup.Step noise students s.soup t.soup) := by
  cases h with
  | @submit r m hm =>
    obtain ⟨h₁,h₂,h₃⟩ := Net.perform_refines pattern
      (s := { s with given := s.given ++ [m] }) ⟨hs.toA,hs.toB⟩ r
    refine ⟨h₁,h₃,fun _ => ?_⟩
    rw [h₂]
    exact .submit (s := s.soup) m hm
  | recvA p rest hp =>
    obtain ⟨h₁,h₂,h₃⟩ := Net.perform_refines pattern (s := { s with toA := rest })
      ⟨fun q hq => hs.toA q (by simp [hp,hq]),hs.toB⟩ (students.aInput p s.vars)
    refine ⟨h₁,h₃,fun hn => ?_⟩
    obtain ⟨p₀,f,hm,hf⟩ := hs.toA p (by simp [hp])
    rw [h₂]
    exact .recvA (s := s.soup) p (Net.Sourced.arrives noise hn hm hf)
  | recvB p rest hp =>
    obtain ⟨h₁,h₂,h₃⟩ := Net.perform_refines pattern (s := { s with toB := rest })
      ⟨hs.toA,fun q hq => hs.toB q (by simp [hp,hq])⟩ (students.bInput p s.vars)
    refine ⟨h₁,h₃,fun hn => ?_⟩
    obtain ⟨p₀,f,hm,hf⟩ := hs.toB p (by simp [hp])
    rw [h₂]
    exact .recvB (s := s.soup) p (Net.Sourced.arrives noise hn hm hf)
  | fire q before after hq =>
    obtain ⟨h₁,h₂,h₃⟩ := Net.perform_refines pattern
      (s := { s with timers := before ++ after }) ⟨hs.toA,hs.toB⟩
      (students.aPacketTimeRinterrupt q s.vars)
    refine ⟨h₁,h₃,fun _ => ?_⟩
    rw [h₂]
    exact .fire (s := s.soup) q before after hq

end Refinement

end NetworkLab.Rdt
