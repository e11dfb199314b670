import NetworkLab.Rdt.Channel
set_option autoImplicit false

/-! The emulator's event list is the first-in first-out network: every packet takes
the same time, so the list keeps each direction in order. -/

namespace NetworkLab.Rdt
open TimedList

section Events
variable {T : Type}

/-- The packet of an event that goes to `e`. -/
def packetTo (e : Entity) (x : Event T) : Option Pkt :=
  match x.evtype with
  | .fromLayer3 e' p => if e' = e then some p else none
  | _ => none

def timerOf (x : Event T) : Option Int :=
  match x.evtype with
  | .timeRInterrupt q => some q
  | _ => none

def arrivalOf (x : Event T) : Option Unit :=
  match x.evtype with
  | .fromLayer5 => some ()
  | _ => none

theorem isTimer_iff {q : Int} {x : Event T} : isTimer q x = true ↔ timerOf x = some q := by
  obtain ⟨t,ty⟩ := x
  cases ty <;> simp [isTimer,timerOf]

theorem isTimer_packetTo {q : Int} {x : Event T} (e : Entity) (h : isTimer q x = true) :
    packetTo e x = none := by
  obtain ⟨t,ty⟩ := x
  cases ty <;> simp_all [isTimer,packetTo]

theorem isTimer_arrivalOf {q : Int} {x : Event T} (h : isTimer q x = true) :
    arrivalOf x = none := by
  obtain ⟨t,ty⟩ := x
  cases ty <;> simp_all [isTimer,arrivalOf]

theorem mem_packetTo {e : Entity} {p : Pkt} {l : List (Event T)}
    (h : p ∈ l.filterMap (packetTo e)) : ∃ x ∈ l, x.evtype = .fromLayer3 e p := by
  obtain ⟨x,hx,he⟩ := List.mem_filterMap.mp h
  refine ⟨x,hx,?_⟩
  cases hty : x.evtype <;> simp [packetTo,hty] at he
  rw [he.1,he.2]

theorem mem_timerOf {q : Int} {l : List (Event T)} (h : q ∈ l.filterMap timerOf) :
    ∃ x ∈ l, x.evtype = .timeRInterrupt q := by
  obtain ⟨x,hx,he⟩ := List.mem_filterMap.mp h
  refine ⟨x,hx,?_⟩
  cases hty : x.evtype <;> simp [timerOf,hty] at he
  rw [he]

end Events

section Refinement
variable {T σ : Type} [LinearOrder T] {clock : Clock T} {students : Students σ}
variable {msgs : List Msg} {pattern : Nat → Fate} {s t : Sim T σ}

/-- Forget the times. -/
def Sim.net (s : Sim T σ) : Net σ :=
  { vars := s.vars, toA := s.evlist.filterMap (packetTo .A),
    toB := s.evlist.filterMap (packetTo .B), timers := s.evlist.filterMap timerOf,
    cp := s.cp, given := s.given, taken := s.taken, handed := s.handed }

/-- The list is in order, and nothing in it lies further ahead than what a call made
now would add. -/
structure Timely (clock : Clock T) (s : Sim T σ) : Prop where
  ordered : Ordered Event.evtime s.evlist
  later : ∀ x ∈ s.evlist, s.time_ ≤ x.evtime
  packet : ∀ e, ∀ x ∈ s.evlist, (packetTo e x).isSome → x.evtime ≤ clock.arrival s.time_
  timer : ∀ x ∈ s.evlist, (timerOf x).isSome → x.evtime ≤ clock.expiry s.time_

theorem Timely.insert (h : Timely clock s) {x : Event T} (hx : s.time_ ≤ x.evtime)
    (hp : ∀ e, (packetTo e x).isSome → x.evtime ≤ clock.arrival s.time_)
    (ht : (timerOf x).isSome → x.evtime ≤ clock.expiry s.time_) :
    Timely clock (insertevent x s) := by
  constructor
  · exact insertTimed_ordered _ x h.ordered
  · intro y hy
    rcases (mem_insertTimed _).mp hy with rfl | hy
    · exact hx
    · exact h.later y hy
  · intro e y hy he
    rcases (mem_insertTimed _).mp hy with rfl | hy
    · exact hp e he
    · exact h.packet e y hy he
  · intro y hy he
    rcases (mem_insertTimed _).mp hy with rfl | hy
    · exact ht he
    · exact h.timer y hy he

/-- A packet event, whether its packet came through or not. -/
theorem Timely.insert_packet (h : Timely clock s) (e : Entity) (p : Pkt) :
    Timely clock (insertevent ⟨clock.arrival s.time_,.fromLayer3 e p⟩ s) ∧
    (insertevent ⟨clock.arrival s.time_,.fromLayer3 e p⟩ s).net =
      { s.net with toA := s.net.toA ++ if e = .A then [p] else []
                   toB := s.net.toB ++ if e = .B then [p] else [] } := by
  have hpkt : ∀ e', (insertTimed Event.evtime ⟨clock.arrival s.time_,.fromLayer3 e p⟩
      s.evlist).filterMap (packetTo e') =
      s.evlist.filterMap (packetTo e') ++ if e = e' then [p] else [] := by
    intro e'
    by_cases he : e = e'
    · rw [if_pos he]
      exact filterMap_insertTimed _ _ (by simp [packetTo,he]) h.ordered
        fun y hy hsome => h.packet e' y hy hsome
    · rw [if_neg he,List.append_nil]
      exact filterMap_insertTimed_none _ _ (by simp [packetTo,he])
  refine ⟨h.insert (clock.le_arrival _) (fun _ _ => le_refl _) (by simp [timerOf]),?_⟩
  simp only [Sim.net,insertevent,hpkt]
  rw [filterMap_insertTimed_none _ _ (by simp [timerOf])]

theorem Timely.call (h : Timely clock s) (pattern : Nat → Fate) (c : Call) :
    Timely clock (call clock pattern s c) ∧
    (call clock pattern s c).net = s.net.call pattern c ∧
    (call clock pattern s c).time_ = s.time_ := by
  cases c with
  | tolayer3 e p =>
    have h' : Timely clock { s with cp := s.cp + 1
                                    handed := s.handed ++ [(e,p,pattern s.cp)] } :=
      ⟨h.ordered,h.later,h.packet,h.timer⟩
    have hnet : (Sim.net { s with cp := s.cp + 1
                                  handed := s.handed ++ [(e,p,pattern s.cp)] }) =
        { s.net with cp := s.cp + 1, handed := s.handed ++ [(e,p,pattern s.cp)] } := rfl
    cases hf : pattern s.cp with
    | ok =>
      obtain ⟨h₁,h₂⟩ := h'.insert_packet e.other p
      simp only [Rdt.call,tolayer3,hf] at h₁ h₂ ⊢
      refine ⟨h₁,?_,rfl⟩
      rw [h₂]
      cases e <;> simp [Net.call,Fate.apply,Entity.other,hf,Sim.net]
    | corrupt =>
      obtain ⟨h₁,h₂⟩ := h'.insert_packet e.other (corrupted p)
      simp only [Rdt.call,tolayer3,hf] at h₁ h₂ ⊢
      refine ⟨h₁,?_,rfl⟩
      rw [h₂]
      cases e <;> simp [Net.call,Fate.apply,Entity.other,hf,Sim.net]
    | lost =>
      have he : Rdt.call clock pattern s (.tolayer3 e p) =
          { s with cp := s.cp + 1, handed := s.handed ++ [(e,p,.lost)] } := by
        simp [Rdt.call,tolayer3,hf]
      rw [he]
      refine ⟨⟨h.ordered,h.later,h.packet,h.timer⟩,?_,rfl⟩
      cases e <;> simp [Net.call,Fate.apply,hf,Sim.net]
  | tolayer5 d => exact ⟨⟨h.ordered,h.later,h.packet,h.timer⟩,rfl,rfl⟩
  | starttimeR q =>
    refine ⟨h.insert (clock.le_expiry _) (by simp [packetTo]) (fun _ => le_refl _),?_,rfl⟩
    have htimer := filterMap_insertTimed Event.evtime timerOf
      (x := ⟨clock.expiry s.time_,.timeRInterrupt q⟩) (k := q) (by simp [timerOf]) h.ordered
      fun y hy hsome => h.timer y hy hsome
    simp only [Rdt.call,starttimeR,insertevent,Sim.net,Net.call,htimer]
    rw [filterMap_insertTimed_none _ _ (by simp [packetTo]),
      filterMap_insertTimed_none _ _ (by simp [packetTo])]
  | stoptimeR q =>
    refine ⟨⟨eraseP_ordered _ _ h.ordered,?_,?_,?_⟩,?_,rfl⟩
    · exact fun x hx => h.later x (List.mem_of_mem_eraseP hx)
    · exact fun e x hx => h.packet e x (List.mem_of_mem_eraseP hx)
    · exact fun x hx => h.timer x (List.mem_of_mem_eraseP hx)
    · simp only [Rdt.call,stoptimeR,Sim.net,Net.call]
      rw [filterMap_eraseP timerOf _ q fun y => isTimer_iff,
        filterMap_eraseP_none _ _ fun y => isTimer_packetTo .A,
        filterMap_eraseP_none _ _ fun y => isTimer_packetTo .B]

theorem Timely.perform (h : Timely clock s) (pattern : Nat → Fate) (r : σ × List Call) :
    Timely clock (perform clock pattern s r) ∧
    (perform clock pattern s r).net = s.net.perform pattern r ∧
    (perform clock pattern s r).time_ = s.time_ := by
  obtain ⟨v,cs⟩ := r
  simp only [Rdt.perform,Net.perform]
  have h0 : Timely clock { s with vars := v } := ⟨h.ordered,h.later,h.packet,h.timer⟩
  change _ ∧ _ = List.foldl (Net.call pattern) (Sim.net { s with vars := v }) cs ∧
    _ = Sim.time_ { s with vars := v }
  generalize { s with vars := v } = s₀ at h0
  induction cs generalizing s₀ with
  | nil => exact ⟨h0,rfl,rfl⟩
  | cons c cs ih =>
    obtain ⟨h₁,h₂,h₃⟩ := h0.call pattern c
    simp only [List.foldl_cons]
    rw [← h₂,← h₃]
    exact ih _ h₁

/-- The head of the list is taken out and the time is set to its time. -/
theorem Timely.advance {e : Event T} {rest : List (Event T)} (h : Timely clock s)
    (hl : s.evlist = e :: rest) : Timely clock { s with evlist := rest, time_ := e.evtime } := by
  have hmem : ∀ x ∈ rest, x ∈ s.evlist := fun x hx => by simp [hl,hx]
  have hle : s.time_ ≤ e.evtime := h.later e (by simp [hl])
  obtain ⟨hfirst,hrest⟩ := List.pairwise_cons.mp (hl ▸ h.ordered)
  refine ⟨hrest,hfirst,?_,?_⟩
  · exact fun d x hx hd => (h.packet d x (hmem x hx) hd).trans (clock.arrival_mono hle)
  · exact fun x hx hd => (h.timer x (hmem x hx) hd).trans (clock.expiry_mono hle)

theorem Timely.generateNextArrival (h : Timely clock s) (msgs : List Msg) :
    Timely clock (generateNextArrival clock msgs s) ∧
    (generateNextArrival clock msgs s).net = s.net := by
  unfold Rdt.generateNextArrival
  split
  · exact ⟨h,rfl⟩
  · obtain ⟨h₁,h₂,h₃,h₄⟩ := h.insert (x := ⟨clock.nextArrival s.time_,.fromLayer5⟩)
      (clock.le_nextArrival _) (by simp [packetTo]) (by simp [timerOf])
    refine ⟨⟨h₁,h₂,h₃,h₄⟩,?_⟩
    simp only [Sim.net,insertevent]
    rw [filterMap_insertTimed_none _ _ (by simp [packetTo]),
      filterMap_insertTimed_none _ _ (by simp [packetTo]),
      filterMap_insertTimed_none _ _ (by simp [timerOf])]

variable (clock students msgs) in
theorem timely_init : Timely clock (init clock students msgs) ∧
    (init clock students msgs).net = Net.init students := by
  have h0 : Timely clock
      { vars := students.aInit, evlist := [], time_ := clock.start, nsim := 0, cp := 0,
        given := [], taken := [], handed := [] } :=
    ⟨List.Pairwise.nil,by simp,by simp,by simp⟩
  exact h0.generateNextArrival msgs

variable (clock msgs) in
theorem generateNextArrival_frame (s : Sim T σ) :
    (generateNextArrival clock msgs s).vars = s.vars ∧
    (generateNextArrival clock msgs s).given = s.given := by
  unfold generateNextArrival
  split <;> exact ⟨rfl,rfl⟩

section Round
variable (clock students msgs pattern) {e : Event T} {rest : List (Event T)} {p : Pkt} {q : Int}

theorem simStep_arrival (hl : s.evlist = e :: rest) (hty : e.evtype = .fromLayer5) :
    simStep clock students msgs pattern s =
      (students.aOutput (msgs.getD s.given.length default) s.vars).map fun r =>
        perform clock pattern
          { generateNextArrival clock msgs { s with evlist := rest, time_ := e.evtime } with
            given := s.given ++ [msgs.getD s.given.length default] } r := by
  obtain ⟨hv,hg⟩ := generateNextArrival_frame clock msgs
    { s with evlist := rest, time_ := e.evtime }
  simp only at hv hg
  simp only [simStep,hl,hty]
  rw [hv,hg]

theorem simStep_packetA (hl : s.evlist = e :: rest) (hty : e.evtype = .fromLayer3 .A p) :
    simStep clock students msgs pattern s = some (perform clock pattern
      { s with evlist := rest, time_ := e.evtime } (students.aInput p s.vars)) := by
  simp only [simStep,hl,hty]

theorem simStep_packetB (hl : s.evlist = e :: rest) (hty : e.evtype = .fromLayer3 .B p) :
    simStep clock students msgs pattern s = some (perform clock pattern
      { s with evlist := rest, time_ := e.evtime } (students.bInput p s.vars)) := by
  simp only [simStep,hl,hty]

theorem simStep_timer (hl : s.evlist = e :: rest) (hty : e.evtype = .timeRInterrupt q) :
    simStep clock students msgs pattern s = some (perform clock pattern
      { s with evlist := rest, time_ := e.evtime }
      (students.aPacketTimeRinterrupt q s.vars)) := by
  simp only [simStep,hl,hty]

end Round

/-- The four kinds of rounds of the main loop. -/
theorem simStep_cases (h : simStep clock students msgs pattern s = some t) :
    ∃ e rest, s.evlist = e :: rest ∧
    ((e.evtype = .fromLayer5 ∧ ∃ r,
        let s' := generateNextArrival clock msgs { s with evlist := rest, time_ := e.evtime }
        students.aOutput (msgs.getD s.given.length default) s.vars = some r ∧
        t = perform clock pattern
          { s' with given := s.given ++ [msgs.getD s.given.length default] } r) ∨
     (∃ p, e.evtype = .fromLayer3 .A p ∧ t = perform clock pattern
        { s with evlist := rest, time_ := e.evtime } (students.aInput p s.vars)) ∨
     (∃ p, e.evtype = .fromLayer3 .B p ∧ t = perform clock pattern
        { s with evlist := rest, time_ := e.evtime } (students.bInput p s.vars)) ∨
     (∃ q, e.evtype = .timeRInterrupt q ∧ t = perform clock pattern
        { s with evlist := rest, time_ := e.evtime }
        (students.aPacketTimeRinterrupt q s.vars))) := by
  cases hl : s.evlist with
  | nil => simp [simStep,hl] at h
  | cons e rest =>
    refine ⟨e,rest,rfl,?_⟩
    cases hty : e.evtype with
    | fromLayer5 =>
      rw [simStep_arrival _ _ _ _ hl hty] at h
      obtain ⟨r,hr,ht⟩ := Option.map_eq_some_iff.mp h
      exact Or.inl ⟨rfl,r,hr,ht.symm⟩
    | fromLayer3 d p =>
      cases d with
      | A =>
        rw [simStep_packetA _ _ _ _ hl hty,Option.some.injEq] at h
        exact Or.inr (Or.inl ⟨p,rfl,h.symm⟩)
      | B =>
        rw [simStep_packetB _ _ _ _ hl hty,Option.some.injEq] at h
        exact Or.inr (Or.inr (Or.inl ⟨p,rfl,h.symm⟩))
    | timeRInterrupt q =>
      rw [simStep_timer _ _ _ _ hl hty,Option.some.injEq] at h
      exact Or.inr (Or.inr (Or.inr ⟨q,rfl,h.symm⟩))

/-- Every round of the main loop is a step of the first-in first-out network. -/
theorem Timely.step (h : Timely clock s) (hst : simStep clock students msgs pattern s = some t) :
    Timely clock t ∧ Net.Step pattern students s.net t.net := by
  obtain ⟨e,rest,hl,hcase⟩ := simStep_cases hst
  have hadv := h.advance hl
  rcases hcase with ⟨hty,r,hr,rfl⟩ | ⟨p,hty,rfl⟩ | ⟨p,hty,rfl⟩ | ⟨q,hty,rfl⟩
  · obtain ⟨hgen,hnet⟩ := hadv.generateNextArrival msgs
    generalize Rdt.generateNextArrival clock msgs { s with evlist := rest, time_ := e.evtime } =
      s' at *
    have hgen' : Timely clock
        { s' with given := s.given ++ [msgs.getD s.given.length default] } :=
      ⟨hgen.ordered,hgen.later,hgen.packet,hgen.timer⟩
    obtain ⟨h₁,h₂,-⟩ := hgen'.perform pattern r
    refine ⟨h₁,?_⟩
    rw [h₂]
    have hs : Sim.net { s' with given := s.given ++ [msgs.getD s.given.length default] } =
        { s.net with given := s.given ++ [msgs.getD s.given.length default] } := by
      have hs' : Sim.net { s' with given := s.given ++ [msgs.getD s.given.length default] } =
          { s'.net with given := s.given ++ [msgs.getD s.given.length default] } := rfl
      rw [hs',hnet]
      simp [Sim.net,hl,packetTo,timerOf,hty]
    rw [hs]
    exact .submit (s := s.net) _ hr
  · obtain ⟨h₁,h₂,-⟩ := hadv.perform pattern (students.aInput p s.vars)
    refine ⟨h₁,?_⟩
    rw [h₂]
    have hs : Sim.net { s with evlist := rest, time_ := e.evtime } =
        { s.net with toA := rest.filterMap (packetTo .A) } := by
      simp [Sim.net,hl,packetTo,timerOf,hty]
    rw [hs]
    exact .recvA (s := s.net) p _ (by simp [Sim.net,hl,packetTo,hty])
  · obtain ⟨h₁,h₂,-⟩ := hadv.perform pattern (students.bInput p s.vars)
    refine ⟨h₁,?_⟩
    rw [h₂]
    have hs : Sim.net { s with evlist := rest, time_ := e.evtime } =
        { s.net with toB := rest.filterMap (packetTo .B) } := by
      simp [Sim.net,hl,packetTo,timerOf,hty]
    rw [hs]
    exact .recvB (s := s.net) p _ (by simp [Sim.net,hl,packetTo,hty])
  · obtain ⟨h₁,h₂,-⟩ := hadv.perform pattern
      (students.aPacketTimeRinterrupt q s.vars)
    refine ⟨h₁,?_⟩
    rw [h₂]
    have hs : Sim.net { s with evlist := rest, time_ := e.evtime } =
        { s.net with timers := [] ++ rest.filterMap timerOf } := by
      simp [Sim.net,hl,packetTo,timerOf,hty]
    rw [hs]
    exact .fire (s := s.net) q [] _ (by simp [Sim.net,hl,timerOf,hty])

end Refinement

end NetworkLab.Rdt
