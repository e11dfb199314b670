import NetworkLab.Rdt.Refinement
set_option autoImplicit false

/-! Progress of the emulator over an intact channel: every event has its turn. -/

namespace NetworkLab.Rdt
open TimedList Machine

section Supply
variable {T σ : Type} [LinearOrder T] {clock : Clock T} {students : Students σ}
variable {msgs : List Msg} {pattern : Nat → Fate} {s t : Sim T σ}

/-- Layer 5 has given a first part of `msgs`; as long as there is more, an arrival is
in the event list. -/
structure Supply (msgs : List Msg) (s : Sim T σ) : Prop where
  given : s.given = msgs.take s.given.length
  nsim : s.nsim = s.given.length + (s.evlist.filterMap arrivalOf).length
  nsim_le : s.nsim ≤ msgs.length
  pending : s.nsim = msgs.length ∨ s.evlist.filterMap arrivalOf ≠ []

/-- An invariant that asks something of the channel, which was so before if it is so now. -/
theorem invariant_while {P : Sim T σ → Prop} {Q : Net σ → Prop}
    (hback : ∀ {s t : Net σ}, Net.Step pattern students s t → Q t → Q s)
    (hinit : Q (init clock students msgs).net → P (init clock students msgs))
    (hstep : ∀ {s t : Sim T σ}, simStep clock students msgs pattern s = some t → Q t.net →
      P s → P t)
    (h : Reaches (simStep clock students msgs pattern) (init clock students msgs) s)
    (hq : Q s.net) : P s := by
  have hinv : Timely clock s ∧ (Q s.net → P s) := by
    refine h.invariant (I := fun s => Timely clock s ∧ (Q s.net → P s)) ?_ ?_
    · rintro a b hst ⟨htimely,hp⟩
      obtain ⟨htb,hnet⟩ := htimely.step hst
      exact ⟨htb,fun hq => hstep hst hq (hp (hback hnet hq))⟩
    · exact ⟨(timely_init clock students msgs).1,hinit⟩
  exact hinv.2 hq

/-- What every call keeps, the calls of a student function keep. -/
theorem perform_induct {P : Sim T σ → Prop} {s : Sim T σ} (r : σ × List Call)
    (h0 : P { s with vars := r.1 })
    (hc : ∀ s', P s' → ∀ c ∈ r.2, P (call clock pattern s' c)) :
    P (perform clock pattern s r) := by
  obtain ⟨v,cs⟩ := r
  simp only [perform] at h0 hc ⊢
  generalize { s with vars := v } = s₀ at h0
  induction cs generalizing s₀ with
  | nil => exact h0
  | cons c cs ih =>
    exact ih (fun s' hs d hd => hc s' hs d (List.mem_cons_of_mem c hd)) _
      (hc _ h0 c List.mem_cons_self)

variable (clock pattern) in
theorem call_frame (s : Sim T σ) (c : Call) :
    (call clock pattern s c).evlist.filterMap arrivalOf = s.evlist.filterMap arrivalOf ∧
    (call clock pattern s c).nsim = s.nsim ∧ (call clock pattern s c).given = s.given := by
  have hpkt : ∀ e p, (insertTimed Event.evtime
      (⟨clock.arrival s.time_,.fromLayer3 e p⟩ : Event T) s.evlist).filterMap arrivalOf =
      s.evlist.filterMap arrivalOf := fun e p => filterMap_insertTimed_none _ _ rfl
  cases c with
  | tolayer3 e p => cases hf : pattern s.cp <;> simp [call,tolayer3,hf,insertevent,hpkt]
  | tolayer5 d => exact ⟨rfl,rfl,rfl⟩
  | starttimeR q => exact ⟨filterMap_insertTimed_none _ _ rfl,rfl,rfl⟩
  | stoptimeR q => exact ⟨filterMap_eraseP_none _ _ (fun y => isTimer_arrivalOf) _,rfl,rfl⟩

variable (clock pattern) in
/-- The calls of a student function add no arrival and give no message. -/
theorem perform_frame (s : Sim T σ) (r : σ × List Call) :
    (perform clock pattern s r).evlist.filterMap arrivalOf = s.evlist.filterMap arrivalOf ∧
    (perform clock pattern s r).nsim = s.nsim ∧
    (perform clock pattern s r).given = s.given := by
  refine perform_induct (P := fun s' => s'.evlist.filterMap arrivalOf =
    s.evlist.filterMap arrivalOf ∧ s'.nsim = s.nsim ∧ s'.given = s.given) r
    ⟨rfl,rfl,rfl⟩ fun s' hs c _ => ?_
  obtain ⟨h₁,h₂,h₃⟩ := call_frame clock pattern s' c
  exact ⟨h₁.trans hs.1,h₂.trans hs.2.1,h₃.trans hs.2.2⟩

variable (clock pattern) in
theorem perform_vars (s : Sim T σ) (r : σ × List Call) :
    (perform clock pattern s r).vars = r.1 := by
  refine perform_induct (P := fun s' => s'.vars = r.1) r rfl fun s' hs c _ => ?_
  rw [← hs]
  cases c with
  | tolayer3 e p => cases hf : pattern s'.cp <;> simp [call,tolayer3,hf,insertevent]
  | tolayer5 d => rfl
  | starttimeR q => rfl
  | stoptimeR q => rfl

variable (clock msgs) in
/-- The next arrival is planned as long as there is another message. -/
theorem generateNextArrival_cases (s : Sim T σ) :
    (msgs.length ≤ s.nsim ∧ generateNextArrival clock msgs s = s) ∨
    (s.nsim < msgs.length ∧ (generateNextArrival clock msgs s).nsim = s.nsim + 1 ∧
      ((generateNextArrival clock msgs s).evlist.filterMap arrivalOf).length =
        (s.evlist.filterMap arrivalOf).length + 1) := by
  unfold generateNextArrival
  split
  · exact Or.inl ⟨by assumption,rfl⟩
  · refine Or.inr ⟨by omega,rfl,?_⟩
    have hp := (insertTimed_perm Event.evtime
      (⟨clock.nextArrival s.time_,.fromLayer5⟩ : Event T) s.evlist).filterMap arrivalOf
    simpa [insertevent,arrivalOf] using hp.length_eq

theorem supply_init : Supply msgs (init clock students msgs) := by
  unfold init
  rcases generateNextArrival_cases clock msgs
    ({ vars := students.aInit, evlist := [], time_ := clock.start, nsim := 0, cp := 0,
            given := [], taken := [], handed := [] } : Sim T σ) with ⟨hle,he⟩ | ⟨hlt,hn,hl⟩
  · rw [he]
    exact ⟨by simp,by simp,by simp,Or.inl (by simp only at hle ⊢; omega)⟩
  · have hg : ∀ s : Sim T σ, (generateNextArrival clock msgs s).given = s.given := by
      intro s
      unfold generateNextArrival
      split <;> rfl
    refine ⟨by simp [hg],by rw [hn,hl,hg]; rfl,by rw [hn]; exact hlt,Or.inr fun hnil => ?_⟩
    rw [hnil] at hl
    simp at hl

theorem Supply.step (h : Supply msgs s)
    (hst : simStep clock students msgs pattern s = some t) : Supply msgs t := by
  obtain ⟨e,rest,hl,hcase⟩ := simStep_cases hst
  have hn := h.nsim
  have hkeep : arrivalOf e = none → ∀ r : σ × List Call, Supply msgs
      (perform clock pattern { s with evlist := rest, time_ := e.evtime } r) := by
    intro he r
    obtain ⟨h₁,h₂,h₃⟩ := perform_frame clock pattern
      { s with evlist := rest, time_ := e.evtime } r
    have hsame : s.evlist.filterMap arrivalOf = rest.filterMap arrivalOf := by
      rw [hl,List.filterMap_cons_none he]
    refine ⟨?_,?_,?_,?_⟩
    · rw [h₃]
      exact h.given
    · rw [h₁,h₂,h₃,← hsame]
      exact hn
    · rw [h₂]
      exact h.nsim_le
    · rw [h₁,h₂,← hsame]
      exact h.pending
  rcases hcase with ⟨hty,r,-,rfl⟩ | ⟨p,hty,rfl⟩ | ⟨p,hty,rfl⟩ | ⟨q,hty,rfl⟩
  · have he : arrivalOf e = some () := by simp [arrivalOf,hty]
    rw [hl,List.filterMap_cons_some he,List.length_cons] at hn
    have hle := h.nsim_le
    obtain ⟨h₁,h₂,h₃⟩ := perform_frame clock pattern
      { generateNextArrival clock msgs { s with evlist := rest, time_ := e.evtime } with
        given := s.given ++ [msgs.getD s.given.length default] } r
    have hlen : s.given.length < msgs.length := by omega
    have hgiven : s.given ++ [msgs.getD s.given.length default] =
        msgs.take (s.given.length + 1) := by
      rw [List.take_add_one,← h.given,List.getElem?_eq_getElem hlen]
      simp [hlen]
    have hcases := generateNextArrival_cases clock msgs
      { s with evlist := rest, time_ := e.evtime }
    simp only at h₁ h₂ h₃ hcases
    refine ⟨?_,?_,?_,?_⟩
    · rw [h₃]
      simpa using hgiven
    · rw [h₁,h₂,h₃,List.length_append,List.length_singleton]
      rcases hcases with ⟨-,he⟩ | ⟨-,hn',hl'⟩
      · rw [he]
        simp only
        omega
      · rw [hn',hl']
        omega
    · rw [h₂]
      rcases hcases with ⟨-,he⟩ | ⟨hlt,hn',-⟩
      · rw [he]
        exact hle
      · rw [hn']
        exact hlt
    · rw [h₁,h₂]
      rcases hcases with ⟨hge,he⟩ | ⟨-,-,hl'⟩
      · rw [he]
        exact Or.inl (Nat.le_antisymm hle hge)
      · refine Or.inr fun hnil => ?_
        rw [hnil] at hl'
        simp at hl'
  all_goals exact hkeep (by simp [arrivalOf,hty]) _

omit [LinearOrder T] in
theorem Supply.arrival (h : Supply msgs s) (hlt : s.given.length < msgs.length) :
    ∃ x ∈ s.evlist, x.evtype = .fromLayer5 := by
  have hne : s.evlist.filterMap arrivalOf ≠ [] := by
    rcases h.pending with hn | hne
    · intro hnil
      have := h.nsim
      rw [hnil] at this
      simp only [List.length_nil] at this
      omega
    · exact hne
  obtain ⟨u,hu⟩ := List.exists_mem_of_ne_nil _ hne
  obtain ⟨x,hx,he⟩ := List.mem_filterMap.mp hu
  refine ⟨x,hx,?_⟩
  cases hty : x.evtype <;> simp [arrivalOf,hty] at he ⊢

omit [LinearOrder T] in
theorem Supply.given_le (h : Supply msgs s) : s.given.length ≤ msgs.length := by
  have := h.nsim
  have := h.nsim_le
  omega

end Supply

section Turn
variable {T σ : Type} [LinearOrder T] (clock : Clock T) (W : Nat)

open Classical in
/-- How many timeouts in a row from `t` on pass the time `u`. -/
noncomputable def level (u t : T) : Nat :=
  if h : ∃ n, u < clock.expiry^[n] t then Nat.find h else 0

open Classical in
theorem level_expiry {u t : T} (hu : clock.Passes u) (h : t ≤ u) :
    level clock u (clock.expiry t) + 1 ≤ level clock u t := by
  have hspec : u < clock.expiry^[level clock u t] t := by
    rw [level,dif_pos (hu t h)]
    exact Nat.find_spec (hu t h)
  cases hn : level clock u t with
  | zero =>
    rw [hn] at hspec
    exact absurd hspec (not_lt_of_ge h)
  | succ n =>
    rw [hn,Function.iterate_succ_apply] at hspec
    have hex : ∃ n, u < clock.expiry^[n] (clock.expiry t) := ⟨n,hspec⟩
    rw [level,dif_pos hex]
    exact Nat.succ_le_succ (Nat.find_min' hex hspec)

/-- What an event can still cause before the time `u`: a data packet an
acknowledgement, a timeout one window of data packets and the next timeout. -/
noncomputable def eventCost (u : T) (y : Event T) : Nat :=
  match y.evtype with
  | .fromLayer3 .A _ => 1
  | .fromLayer3 .B _ => 2
  | .timeRInterrupt _ => (2 * W + 1) * level clock u y.evtime
  | .fromLayer5 => 0

/-- The cost of the event that a call at the time `t` adds. -/
noncomputable def callCost (u t : T) : Call → Nat
  | .tolayer3 .A _ => 2
  | .tolayer3 .B _ => 1
  | .starttimeR _ => (2 * W + 1) * level clock u (clock.expiry t)
  | .tolayer5 _ => 0
  | .stoptimeR _ => 0

variable {clock W} {students : Students σ} {msgs : List Msg}

theorem call_ahead {s : Sim T σ} (h : Timely clock s) {x : Event T} {n : Nat}
    (ha : Ahead (eventCost clock W x.evtime) x n s.evlist) (c : Call)
    (hstop : ∀ q, c = .stoptimeR q → isTimer q x = false) :
    Ahead (eventCost clock W x.evtime) x (n + callCost clock W x.evtime s.time_ c)
      (call clock intact s c).evlist := by
  have hins : ∀ y : Event T, eventCost clock W x.evtime y = callCost clock W x.evtime s.time_ c →
      Ahead (eventCost clock W x.evtime) x (n + callCost clock W x.evtime s.time_ c)
        (insertTimed Event.evtime y s.evlist) := by
    intro y hy
    refine (ha.insert Event.evtime (y := y) h.ordered).mono ?_
    rw [hy]
    split <;> omega
  cases c with
  | tolayer3 e p => cases e <;> exact hins _ rfl
  | tolayer5 d => exact ha
  | starttimeR q => exact hins _ rfl
  | stoptimeR q => exact ha.eraseP (hstop q rfl)

theorem perform_ahead {s : Sim T σ} (h : Timely clock s) {x : Event T} {n : Nat}
    (ha : Ahead (eventCost clock W x.evtime) x n s.evlist) (r : σ × List Call)
    (hstop : ∀ q, .stoptimeR q ∈ r.2 → isTimer q x = false) :
    Ahead (eventCost clock W x.evtime) x
      (n + (r.2.map (callCost clock W x.evtime s.time_)).sum)
      (perform clock intact s r).evlist := by
  obtain ⟨v,cs⟩ := r
  simp only [perform] at hstop ⊢
  have h0 : Timely clock { s with vars := v } := ⟨h.ordered,h.later,h.packet,h.timer⟩
  have ht : Sim.time_ { s with vars := v } = s.time_ := rfl
  change Ahead _ x n (Sim.evlist { s with vars := v }) at ha
  rw [← ht]
  generalize { s with vars := v } = s₀ at *
  clear ht
  induction cs generalizing s₀ n with
  | nil => simpa using ha
  | cons c cs ih =>
    obtain ⟨h₁,-,h₂⟩ := h0.call intact c
    have ha' := call_ahead h0 ha c fun q hq => hstop q (by simp [hq])
    have := ih (fun q hq => hstop q (List.mem_cons_of_mem c hq)) _ h₁ ha'
    rw [h₂] at this
    simpa [Nat.add_assoc] using this

/-- On the rest of the run, over an intact channel, every event comes at a time that the
timeouts pass. -/
def Passing (clock : Clock T) (students : Students σ) (msgs : List Msg) (s : Sim T σ) : Prop :=
  ∀ t, Reaches (simStep clock students msgs intact) s t → ∀ x ∈ t.evlist, clock.Passes x.evtime

theorem Passing.step {s t : Sim T σ} (h : Passing clock students msgs s)
    (hst : simStep clock students msgs intact s = some t) : Passing clock students msgs t :=
  fun u hu => h u ((Reaches.single hst).trans hu)

/-- A round that brings the run nearer to `x`: what it adds costs less than what it
takes out, and it does not stop `x`. -/
structure Quiet (clock : Clock T) (W : Nat) (x e : Event T) (cs : List Call) : Prop where
  cost : (cs.map (callCost clock W x.evtime e.evtime)).sum <
    eventCost clock W x.evtime e
  stop : ∀ q, .stoptimeR q ∈ cs → isTimer q x = false

/-- Every event in the list has its turn, unless the run gets to `Q` before. -/
theorem eventually_turn {I Q : Sim T σ → Prop} {x : Event T}
    (htimely : ∀ s, I s → Timely clock s)
    (hround : ∀ s e rest, I s → s.evlist = e :: rest → e ≠ x → x ∈ rest →
      ∃ t, simStep clock students msgs intact s = some t ∧ (Q t ∨ I t ∧ ∃ r,
        t = perform clock intact { s with evlist := rest, time_ := e.evtime } r ∧
        Quiet clock W x e r.2))
    {s : Sim T σ} (hI : I s) (hx : x ∈ s.evlist) :
    Eventually (simStep clock students msgs intact)
      (fun t => Q t ∨ I t ∧ ∃ rest, t.evlist = x :: rest) s := by
  obtain ⟨n,hn⟩ := exists_ahead (eventCost clock W x.evtime) hx
  clear hx
  induction n using Nat.strongRecOn generalizing s with
  | ind n ih =>
    cases hl : s.evlist with
    | nil =>
      have := hn.mem
      rw [hl] at this
      cases this
    | cons e rest =>
      by_cases he : e = x
      · exact .now (Or.inr ⟨hI,rest,he ▸ hl⟩)
      · rw [hl] at hn
        rcases hn.head with hxe | ⟨hle,hrest⟩
        · exact absurd hxe.symm he
        · obtain ⟨t,hst,hq | ⟨hIt,r,rfl,hquiet⟩⟩ := hround s e rest hI hl he hrest.mem
          · exact .later hst (.now (Or.inl hq))
          · have hadv := (htimely s hI).advance hl
            have ha := perform_ahead hadv hrest r hquiet.stop
            have hcost := hquiet.cost
            have hless : n - eventCost clock W x.evtime e +
                (r.2.map (callCost clock W x.evtime e.evtime)).sum < n := by omega
            exact .later hst (ih _ hless hIt ha)

/-- A timeout that comes before `x` and sends at most one window again. -/
theorem quiet_timeout {x e : Event T} {q q' : Int} (hx : clock.Passes x.evtime)
    (he : e.evtype = .timeRInterrupt q) (hle : e.evtime ≤ x.evtime) (ps : List Pkt)
    (hps : ps.length ≤ W) :
    Quiet clock W x e (ps.map (Call.tolayer3 .A) ++ [.starttimeR q']) := by
  constructor
  · have hlevel := level_expiry clock hx hle
    have hsum : ((ps.map (Call.tolayer3 .A)).map
        (callCost clock W x.evtime e.evtime)).sum = 2 * ps.length := by
      clear hps
      induction ps with
      | nil => rfl
      | cons p ps ih =>
        rw [List.map_cons,List.map_cons,List.sum_cons,ih,List.length_cons,callCost]
        omega
    rw [List.map_append,List.sum_append,hsum]
    simp only [List.map_cons,List.map_nil,List.sum_cons,List.sum_nil,callCost,eventCost,he]
    have hmul := Nat.mul_le_mul_left (2 * W + 1) hlevel
    rw [Nat.mul_add] at hmul
    omega
  · intro q hq
    simp at hq

theorem quiet_nothing {x e : Event T} (hx : clock.Passes x.evtime)
    (hle : e.evtime ≤ x.evtime) (he : e.evtype ≠ .fromLayer5) : Quiet clock W x e [] := by
  refine ⟨?_,by simp⟩
  have hlevel := level_expiry clock hx hle
  obtain ⟨u,ty⟩ := e
  cases ty with
  | fromLayer5 => exact absurd rfl he
  | fromLayer3 d p => cases d <;> simp [eventCost]
  | timeRInterrupt q =>
    have : 0 < level clock x.evtime u := Nat.lt_of_lt_of_le (Nat.succ_pos _) hlevel
    simp [eventCost,this]

/-- A data packet causes at most one acknowledgement. -/
theorem quiet_ack {x e : Event T} {p : Pkt} {cs : List Call}
    (he : e.evtype = .fromLayer3 .B p)
    (hcost : (cs.map (callCost clock W x.evtime e.evtime)).sum ≤ 1)
    (hstop : ∀ q, .stoptimeR q ∉ cs) : Quiet clock W x e cs := by
  refine ⟨?_,fun q hq => absurd hq (hstop q)⟩
  simp only [eventCost,he]
  omega

/-! The end of a run, when A waits for nothing any more. -/

/-- A data packet may still be answered; everything else is gone after its turn. -/
def remains (y : Event T) : Nat :=
  match y.evtype with
  | .fromLayer3 .B _ => 2
  | _ => 1

omit [LinearOrder T] in
theorem remains_pos (y : Event T) : 0 < remains y := by
  unfold remains
  split <;> decide

def adds : Call → Nat
  | .tolayer3 .A _ => 2
  | .tolayer3 .B _ => 1
  | .starttimeR _ => 1
  | .tolayer5 _ => 0
  | .stoptimeR _ => 0

variable (clock) in
theorem call_remains (s : Sim T σ) (c : Call) :
    ((call clock intact s c).evlist.map remains).sum ≤ (s.evlist.map remains).sum + adds c := by
  have hins : ∀ y : Event T, remains y = adds c →
      ((insertTimed Event.evtime y s.evlist).map remains).sum ≤
        (s.evlist.map remains).sum + adds c := by
    intro y hy
    have hp := ((insertTimed_perm Event.evtime y s.evlist).map remains).sum_eq
    rw [hp,List.map_cons,List.sum_cons,hy]
    omega
  cases c with
  | tolayer3 e p => cases e <;> exact hins _ rfl
  | tolayer5 d => exact Nat.le_refl _
  | starttimeR q => exact hins _ rfl
  | stoptimeR q =>
    exact List.Sublist.sum_le_sum (List.Sublist.map _ List.eraseP_sublist)
      fun _ _ => Nat.zero_le _

variable (clock) in
theorem perform_remains (s : Sim T σ) (r : σ × List Call) :
    ((perform clock intact s r).evlist.map remains).sum ≤
      (s.evlist.map remains).sum + (r.2.map adds).sum := by
  obtain ⟨v,cs⟩ := r
  simp only [perform]
  change _ ≤ ((Sim.evlist { s with vars := v }).map remains).sum + _
  generalize { s with vars := v } = s₀
  induction cs generalizing s₀ with
  | nil => simp
  | cons c cs ih =>
    have hc := call_remains clock s₀ c
    have := ih (call clock intact s₀ c)
    simp only [List.foldl_cons,List.map_cons,List.sum_cons]
    omega

/-- A run whose rounds add less than they take out comes to an empty event list,
unless it gets to `Q` before. -/
theorem eventually_empty {I Q : Sim T σ → Prop}
    (hround : ∀ s e rest, I s → s.evlist = e :: rest →
      ∃ t, simStep clock students msgs intact s = some t ∧ (Q t ∨ I t ∧ ∃ r,
        t = perform clock intact { s with evlist := rest, time_ := e.evtime } r ∧
        (r.2.map adds).sum < remains e))
    {s : Sim T σ} (hI : I s) :
    Eventually (simStep clock students msgs intact) (fun t => Q t ∨ I t ∧ t.evlist = []) s := by
  refine eventually_of_rank (I := I) (fun s => (s.evlist.map remains).sum) ?_ hI
  intro s hs
  cases hl : s.evlist with
  | nil => exact .now (Or.inl (Or.inr ⟨hs,hl⟩))
  | cons e rest =>
    obtain ⟨t,hst,hq | ⟨ht,r,rfl,hadds⟩⟩ := hround s e rest hs hl
    · exact .later hst (.now (Or.inl (Or.inl hq)))
    · refine .later hst (.now (Or.inr ⟨ht,?_⟩))
      have hsum := perform_remains clock { s with evlist := rest, time_ := e.evtime } r
      rw [List.map_cons,List.sum_cons]
      exact Nat.lt_of_le_of_lt hsum (by simp only; omega)

end Turn

end NetworkLab.Rdt
