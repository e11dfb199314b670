import NetworkLab.Rdt.Refinement
set_option autoImplicit false

/-! What a list of calls adds: to what was handed to layer 3, and to the event list. -/

namespace NetworkLab.Rdt
open TimedList

/-- The packets that `e` has handed over, whatever became of them. -/
def sentBy (e : Entity) (hs : List (Entity × Pkt × Fate)) : List Pkt :=
  hs.filterMap fun h => if h.1 = e then some h.2.1 else none

section Sent
variable {e : Entity} {hs hs' : List (Entity × Pkt × Fate)}

@[simp] theorem sentBy_nil : sentBy e [] = [] := rfl

@[simp] theorem sentBy_append : sentBy e (hs ++ hs') = sentBy e hs ++ sentBy e hs' :=
  List.filterMap_append

theorem length_sentBy (hs : List (Entity × Pkt × Fate)) :
    (sentBy .A hs).length + (sentBy .B hs).length = hs.length := by
  induction hs with
  | nil => rfl
  | cons h hs ih =>
    obtain ⟨e,p,f⟩ := h
    cases e <;> simp [sentBy] at ih ⊢ <;> omega

@[simp] theorem sentBy_fated (e : Entity) (pattern : Nat → Fate) (cp : Nat) (cs : List Call) :
    sentBy e (fated pattern cp cs) = outOf e cs := by
  induction cs generalizing cp with
  | nil => rfl
  | cons c cs ih =>
    cases c with
    | tolayer3 e' p =>
      have := ih (cp+1)
      by_cases he : e' = e <;> simp [sentBy,fated,he] at this ⊢ <;> exact this
    | tolayer5 d => exact ih cp
    | starttimeR q => exact ih cp
    | stoptimeR q => exact ih cp

/-- Through an intact channel comes what is handed over. -/
theorem arriving_intact (e : Entity) (cp : Nat) (cs : List Call) :
    arriving e (fated intact cp cs) = outOf e cs := by
  induction cs generalizing cp with
  | nil => rfl
  | cons c cs ih =>
    cases c with
    | tolayer3 e' p =>
      have := ih (cp+1)
      by_cases he : e' = e <;> simp [arriving,fated,intact,Fate.apply,he] at this ⊢ <;> exact this
    | tolayer5 d => exact ih cp
    | starttimeR q => exact ih cp
    | stoptimeR q => exact ih cp

end Sent

section Spawned
variable {T σ : Type} [LinearOrder T] (clock : Clock T) {s : Sim T σ} {x : Event T}

/-- The event that a call adds over an intact channel. -/
def spawned (t : T) : Call → Option (Event T)
  | .tolayer3 AorB packet => some ⟨clock.arrival t,.fromLayer3 AorB.other packet⟩
  | .tolayer5 _ => none
  | .starttimeR pktSeq => some ⟨clock.expiry t,.timeRInterrupt pktSeq⟩
  | .stoptimeR _ => none

theorem call_time (s : Sim T σ) (c : Call) : (call clock intact s c).time_ = s.time_ := by
  cases c <;> rfl

theorem mem_call {c : Call} (h : x ∈ (call clock intact s c).evlist) :
    x ∈ s.evlist ∨ spawned clock s.time_ c = some x := by
  cases c with
  | tolayer3 e p =>
    rcases (mem_insertTimed Event.evtime).mp h with rfl | h
    · exact Or.inr rfl
    · exact Or.inl h
  | tolayer5 d => exact Or.inl h
  | starttimeR q =>
    rcases (mem_insertTimed Event.evtime).mp h with rfl | h
    · exact Or.inr rfl
    · exact Or.inl h
  | stoptimeR q => exact Or.inl (List.mem_of_mem_eraseP h)

/-- What is in the list was there before, or a call has put it there. -/
theorem mem_perform {r : σ × List Call} (h : x ∈ (perform clock intact s r).evlist) :
    x ∈ s.evlist ∨ ∃ c ∈ r.2, spawned clock s.time_ c = some x := by
  obtain ⟨v,cs⟩ := r
  simp only [perform] at h ⊢
  change x ∈ (Sim.evlist { s with vars := v }) ∨ ∃ c ∈ cs,
    spawned clock (Sim.time_ { s with vars := v }) c = some x
  generalize { s with vars := v } = s₀ at h ⊢
  induction cs generalizing s₀ with
  | nil => exact Or.inl h
  | cons c cs ih =>
    rcases ih (call clock intact s₀ c) h with hx | ⟨d,hd,hx⟩
    · rcases mem_call clock hx with hx | hx
      · exact Or.inl hx
      · exact Or.inr ⟨c,by simp,hx⟩
    · rw [call_time] at hx
      exact Or.inr ⟨d,List.mem_cons_of_mem _ hd,hx⟩

/-- Only timers are taken out of the list. -/
theorem call_keeps (hx : x ∈ s.evlist) (hq : ∀ q, isTimer q x = false) (c : Call) :
    x ∈ (call clock intact s c).evlist := by
  cases c with
  | tolayer3 e p => exact (mem_insertTimed Event.evtime).mpr (Or.inr hx)
  | tolayer5 d => exact hx
  | starttimeR q => exact (mem_insertTimed Event.evtime).mpr (Or.inr hx)
  | stoptimeR q => exact (List.mem_eraseP_of_neg (by simp [hq])).mpr hx

theorem perform_keeps (hx : x ∈ s.evlist) (hq : ∀ q, isTimer q x = false) (r : σ × List Call) :
    x ∈ (perform clock intact s r).evlist := by
  obtain ⟨v,cs⟩ := r
  simp only [perform]
  change x ∈ (Sim.evlist { s with vars := v }) at hx
  generalize { s with vars := v } = s₀ at hx ⊢
  induction cs generalizing s₀ with
  | nil => exact hx
  | cons c cs ih => exact ih _ (call_keeps clock hx hq c)

/-- A packet that is handed over gets its event. -/
theorem perform_spawns {r : σ × List Call} {e : Entity} {p : Pkt} (h : .tolayer3 e p ∈ r.2) :
    (⟨clock.arrival s.time_,.fromLayer3 e.other p⟩ : Event T) ∈
      (perform clock intact s r).evlist := by
  obtain ⟨v,cs⟩ := r
  simp only [perform] at h ⊢
  change (⟨clock.arrival (Sim.time_ { s with vars := v }),.fromLayer3 e.other p⟩ : Event T) ∈ _
  generalize { s with vars := v } = s₀
  induction cs generalizing s₀ with
  | nil => cases h
  | cons c cs ih =>
    rcases List.mem_cons.mp h with rfl | h
    · have hnew : (⟨clock.arrival s₀.time_,.fromLayer3 e.other p⟩ : Event T) ∈
          (call clock intact s₀ (.tolayer3 e p)).evlist :=
        (mem_insertTimed Event.evtime).mpr (Or.inl rfl)
      have := perform_keeps clock hnew (fun q => by simp [isTimer]) (s₀.vars,cs)
      exact this
    · have := ih h (call clock intact s₀ c)
      rwa [call_time] at this

end Spawned

end NetworkLab.Rdt
