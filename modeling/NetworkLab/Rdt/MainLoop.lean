import NetworkLab.Rdt.Pointers
import NetworkLab.Rdt.Timers
import NetworkLab.Gbn.Protocol
set_option autoImplicit false

/-! The main loop in memory: every round owns what it touches, frees what it has taken out,
and is a round of the emulator. -/

namespace NetworkLab.Rdt.Program
open DoublyLinked TimedList

section Events
variable {T σ : Type} {m : Mem T σ} {s : Sim T σ} {l : Nodes (EventCell T)} {a : Nat}
variable {c : EventCell T}

/-- The first event is taken out of the list. -/
theorem Shows.take (h : Shows [] ((a,c) :: l) m s) :
    ∃ e rest h' p, c.event m.pkts m.timers = some e ∧ s.evlist = e :: rest ∧
      dropFirst m.events m.evlist = some (h',p) ∧
      Shows [(a,c)] l { m with events := h', evlist := p, time_ := c.evtime_ }
        { s with evlist := rest, time_ := e.evtime } := by
  have hevents := h.events
  obtain ⟨e,rest,hs⟩ : ∃ e rest, s.evlist = e :: rest :=
    List.exists_cons_of_ne_nil (by rintro hnil; simp [hnil] at hevents)
  rw [hs,List.map_cons,List.map_cons,List.cons.injEq] at hevents
  obtain ⟨h',p,he,hl',hout⟩ := dropFirst_spec h.list
  have ha : a ∉ addresses l := (List.nodup_cons.mp h.list.nodup).1
  refine ⟨e,rest,h',p,hevents.1,hs,he,hl',?_,hevents.2,h.vars,
    (EventCell.evtime_eq hevents.1).symm,h.nsim,h.cp,h.handed,h.ntolayer3,h.nlost,h.ncorrupt⟩
  refine h.owns.relink (fun x hx => ?_) fun b hb => hout b ?_
  · rcases List.mem_cons.mp hx with rfl | hx
    · obtain ⟨q,r,hc⟩ := h.owns.held (a,c) (by simp)
      exact ⟨q,r,(hout a ha).trans hc⟩
    · exact hl'.seg.mem hx
  · exact fun hm => hb (List.mem_cons_of_mem _ hm)

theorem Shows.release (h : Shows [(a,c)] l m s) (pkts' : Heap Pkt)
    (hgone : ∀ b, c.packet = some b → pkts'.cells b = none)
    (hsame : ∀ b, c.packet ≠ some b → pkts'.cells b = m.pkts.cells b) :
    Shows [] l { m with events := m.events.erase a, pkts := pkts' } s := by
  have ha : a ∉ addresses l := (List.nodup_cons.mp h.owns.nodup).1
  refine ⟨⟨h.list.head,h.list.seg.erase ha,h.list.nodup⟩,h.owns.free hgone hsame,?_,h.vars,h.time_,
    h.nsim,h.cp,h.handed,h.ntolayer3,h.nlost,h.ncorrupt⟩
  rw [← h.events]
  refine List.map_congr_left fun x hx => ?_
  have hmem : x.2.event m.pkts m.timers ∈ s.evlist.map some := by
    rw [← h.events]
    exact List.mem_map_of_mem hx
  obtain ⟨f,-,hf⟩ := List.mem_map.mp hmem
  have hn := h.owns.packetsNodup
  rw [List.cons_append,packets_cons] at hn
  rw [← hf]
  refine EventCell.event_congr hf.symm (fun b hb => hsame b fun hc => ?_) fun _ _ hq => hq
  exact (List.nodup_append.mp hn).2.2 b (Option.mem_toList.mpr hc) b
    (List.mem_filterMap.mpr ⟨x,hx,hb⟩) rfl

/-- The event of this round is still there. -/
theorem Shows.free (h : Shows [(a,c)] l m s) :
    m.events.free (some a) = some (m.events.erase a) := by
  obtain ⟨p,n,ha⟩ := h.owns.held (a,c) (by simp)
  exact Heap.free_some ha

end Events

section Rounds
variable {T σ : Type} [LinearOrder T] {m : Mem T σ} {s : Sim T σ} {l : Nodes (EventCell T)}
variable (malloc : Malloc T) (clock : Clock T) (students : Students σ) (nsimmax : Nat)
variable (pttn : List UInt8)

/-- What `main` makes of `nsim`: the number of the next message, as long as there is one. -/
def messages (nsimmax : Nat) : List Msg :=
  (List.range nsimmax).map fun k => letter (min (k+2) nsimmax)

@[simp] theorem length_messages : (messages nsimmax).length = nsimmax := by simp [messages]

/-- One arrival at a time is planned. -/
def OneArrival (s : Sim T σ) : Prop := (s.evlist.filterMap arrivalOf).length ≤ 1

theorem oneArrival_init (msgs : List Msg) : OneArrival (init clock students msgs) := by
  unfold init OneArrival
  rcases generateNextArrival_cases clock msgs
    ({ vars := students.aInit, evlist := [], time_ := clock.start, nsim := 0, cp := 0,
            given := [], taken := [], handed := [] } : Sim T σ) with ⟨-,he⟩ | ⟨-,-,hl⟩
  · rw [he]
    simp
  · rw [hl]
    simp

theorem OneArrival.step {msgs : List Msg} {pattern : Nat → Fate} {t : Sim T σ}
    (h : OneArrival s) (hst : simStep clock students msgs pattern s = some t) : OneArrival t := by
  obtain ⟨e,rest,hl,hcase⟩ := simStep_cases hst
  have hkeep : ∀ r : σ × List Call, OneArrival (Rdt.perform clock pattern
      { s with evlist := rest, time_ := e.evtime } r) := by
    intro r
    unfold OneArrival at h ⊢
    rw [(perform_frame clock pattern { s with evlist := rest, time_ := e.evtime } r).1]
    exact (List.Sublist.filterMap arrivalOf (by simp [hl])).length_le.trans h
  rcases hcase with ⟨hty,r,-,rfl⟩ | ⟨p,-,rfl⟩ | ⟨p,-,rfl⟩ | ⟨q,-,rfl⟩
  · have hrest : rest.filterMap arrivalOf = [] := by
      have he : arrivalOf e = some () := by simp [arrivalOf,hty]
      unfold OneArrival at h
      rw [hl,List.filterMap_cons_some he,List.length_cons] at h
      exact List.length_eq_zero_iff.mp (by omega)
    unfold OneArrival
    rw [(perform_frame clock pattern _ r).1]
    rcases generateNextArrival_cases clock msgs
      { s with evlist := rest, time_ := e.evtime } with ⟨-,he⟩ | ⟨-,-,hl'⟩
    · simp only [he,hrest]
      simp
    · simp only [hl',hrest]
      simp
  all_goals exact hkeep _

/-- The message of an arrival is the letter that `main` computes from `nsim`. -/
theorem letter_due {e : Event T} {rest : List (Event T)} (hsup : Supply (messages nsimmax) s)
    (hone : OneArrival s) (hl : s.evlist = e :: rest) (hty : e.evtype = .fromLayer5) :
    (messages nsimmax).getD s.given.length default =
      letter (Rdt.generateNextArrival clock (messages nsimmax)
        { s with evlist := rest, time_ := e.evtime }).nsim := by
  have he : arrivalOf e = some () := by simp [arrivalOf,hty]
  have hn := hsup.nsim
  have hle := hsup.nsim_le
  unfold OneArrival at hone
  rw [hl,List.filterMap_cons_some he,List.length_cons] at hn hone
  rw [length_messages] at hle
  have hlt : s.given.length < nsimmax := by omega
  have hmsg : (messages nsimmax).getD s.given.length default =
      letter (min (s.given.length + 2) nsimmax) := by
    simp [messages,List.getD_eq_getElem?_getD,List.getElem?_range hlt]
  rw [hmsg]
  rcases generateNextArrival_cases clock (messages nsimmax)
    { s with evlist := rest, time_ := e.evtime } with ⟨hge,hsame⟩ | ⟨hlt',hnext,-⟩
  · rw [hsame]
    simp only [length_messages] at hge ⊢
    congr 1
    omega
  · rw [hnext]
    simp only [length_messages] at hlt' ⊢
    congr 1
    omega

/-- A round of the program is a round of the emulator, and the memory is in order again. -/
inductive RoundAgrees (m : Mem T σ) (s : Sim T σ) : Outcome (Mem T σ) → Prop where
  | terminated : s.evlist = [] → RoundAgrees m s (.terminated m)
  | exited {e : Event T} : e ∈ s.evlist.head? → e.evtype = .fromLayer5 →
      students.aOutput ((messages nsimmax).getD s.given.length default) s.vars = none →
      RoundAgrees m s .exited
  | running {m' : Mem T σ} {l' : Nodes (EventCell T)} {t : Sim T σ} :
      simStep clock students (messages nsimmax) (channel pttn) s = some t → Shows [] l' m' t →
      RoundAgrees m s (.running m')

theorem Shows.round (h : Shows [] l m s) (hpttn : pttn ≠ []) (hsup : Supply (messages nsimmax) s)
    (hone : OneArrival s) :
    malloc.Yields (round malloc clock students nsimmax pttn m)
      (RoundAgrees clock students nsimmax pttn m s) := by
  have hhead := h.list.head
  cases l with
  | nil =>
    have hnil : s.evlist = [] := by simpa using h.events.symm
    exact .some (by simp [Program.round,hhead]) (.terminated hnil)
  | cons x l =>
    obtain ⟨a,c⟩ := x
    rw [first_cons] at hhead
    obtain ⟨p,n,ha⟩ := h.list.seg.mem (y := (a,c)) (by simp)
    obtain ⟨e,rest,h',p',hc,hs,hdrop,htake⟩ := h.take
    rw [hhead] at hdrop
    simp only [Program.round,hhead,Heap.load_some,ha,Option.bind_eq_bind,Option.bind_some,hdrop]
    rcases c.event_cases hc with ⟨hty,hA,rfl⟩ | ⟨b,pkt,hty,hb,hbp,rfl⟩ | ⟨b,q,hty,hA,hb,hbq,rfl⟩
    · simp only [handle,hty,hA,if_true,Option.bind_eq_bind,Option.bind_assoc]
      refine (htake.generateNextArrival malloc clock (length_messages nsimmax)).bind ?_
      rintro m₁ ⟨l₁,h₁⟩
      have hletter := letter_due clock nsimmax hsup hone hs rfl
      have hvars := h₁.vars.trans (generateNextArrival_frame clock (messages nsimmax) _).1
      rw [← h₁.nsim] at hletter
      cases hout : students.aOutput ((messages nsimmax).getD s.given.length default) s.vars with
      | none =>
        refine .some ?_ (.exited (by rw [hs]; rfl) rfl hout)
        rw [hletter] at hout
        simp [hvars,hout]
      | some r =>
        have h₁' : Shows [(a,c)] l₁ m₁
            { Rdt.generateNextArrival clock (messages nsimmax)
                { s with evlist := rest, time_ := c.evtime_ } with
              given := s.given ++ [(messages nsimmax).getD s.given.length default] } :=
          ⟨h₁.list,h₁.owns,h₁.events,h₁.vars,h₁.time_,h₁.nsim,h₁.cp,h₁.handed,h₁.ntolayer3,
            h₁.nlost,h₁.ncorrupt⟩
        have hnone : ∀ d, c.packet ≠ some d := by simp [EventCell.packet,hty]
        have hst := simStep_arrival clock students (messages nsimmax) (channel pttn) hs rfl
        rw [hout] at hst
        rw [hletter] at hout
        simp only [hvars,hout,Option.map_eq_bind,Option.bind_assoc]
        refine (h₁'.perform malloc clock pttn hpttn r).bind ?_
        rintro m₂ ⟨l₂,h₂⟩
        exact .some (by simp [h₂.free])
          (.running hst (h₂.release _ (fun d hd => absurd hd (hnone d)) fun _ _ => rfl))
    · -- the packet is handed to its entity, and freed with its event
      simp only [handle,hty,hb,Heap.load_some,hbp,Option.bind_eq_bind,Option.bind_some,
        Option.bind_assoc]
      refine (htake.perform malloc clock pttn hpttn
        (if c.eventity = .A then students.aInput pkt m.vars else students.bInput pkt m.vars)).bind ?_
      rintro m₂ ⟨l₂,h₂⟩
      have hpacket : ∀ d, c.packet = some d ↔ b = d := by simp [EventCell.packet,hty,hb]
      obtain ⟨p',n',ha'⟩ := h₂.owns.held (a,c) (by simp)
      obtain ⟨pkt',hpkt'⟩ := Option.ne_none_iff_exists'.mp
        (h₂.owns.packetsHeld b (by simp [packets,(hpacket b).mpr rfl]))
      refine .some (by simp [hb,ha',Heap.free_some hpkt',h₂.free])
        (.running ?_ (h₂.release (m₂.pkts.erase b) (fun d hd => ?_) fun d hd => ?_))
      · rw [← h.vars]
        cases hAB : c.eventity with
        | A =>
          rw [hAB] at hs
          simpa [h.vars] using simStep_packetA _ _ _ _ hs rfl
        | B =>
          rw [hAB] at hs
          simpa [h.vars] using simStep_packetB _ _ _ _ hs rfl
      · rw [← (hpacket d).mp hd]
        exact Function.update_self ..
      · exact Function.update_of_ne (fun hdb => hd ((hpacket d).mpr hdb.symm)) _ _
    · simp only [handle,hty,hA,if_true,hb,Heap.load_some,hbq,Option.bind_eq_bind,Option.bind_some,
        Option.map_eq_bind,Option.bind_assoc]
      refine (htake.perform malloc clock pttn hpttn
        (students.aPacketTimeRinterrupt q m.vars)).bind ?_
      rintro m₂ ⟨l₂,h₂⟩
      have hnone : ∀ d, c.packet ≠ some d := by simp [EventCell.packet,hty]
      refine .some (by simp [h₂.free])
        (.running ?_ (h₂.release _ (fun d hd => absurd hd (hnone d)) fun _ _ => rfl))
      rw [h.vars,simStep_timer _ _ _ _ hs rfl]

theorem shows_start (hsize : pttn.length < patternSize) :
    malloc.Yields (start malloc clock students nsimmax pttn) fun m =>
      ∃ l, Shows [] l m (init clock students (messages nsimmax)) := by
  have h0 : Shows [] []
      ({ vars := students.aInit, events := .empty, pkts := .empty, timers := .empty, mallocs := 0,
         evlist := none, time_ := clock.start, nsim := 0, cp := -1, ntolayer3 := 0, nlost := 0,
         ncorrupt := 0 } : Mem T σ)
      { vars := students.aInit, evlist := [], time_ := clock.start, nsim := 0, cp := 0,
        given := [], taken := [], handed := [] } :=
    ⟨⟨rfl,trivial,by simp⟩,⟨by simp,by simp,fun _ h => absurd rfl h,by simp [packets],
      by simp [packets],fun _ h => absurd rfl h⟩,rfl,rfl,rfl,rfl,rfl,rfl,rfl,rfl,rfl⟩
  rw [start,if_neg (Nat.not_le.mpr hsize)]
  exact h0.generateNextArrival malloc clock (length_messages nsimmax)

/-- What `main` has come to after `n` rounds, seen from the emulator. -/
inductive Agrees (n : Nat) : Outcome (Mem T σ) → Prop where
  | running {m : Mem T σ} {s : Sim T σ} {l : Nodes (EventCell T)} :
      Machine.run (simStep clock students (messages nsimmax) (channel pttn)) n
        (init clock students (messages nsimmax)) = some s →
      Shows [] l m s → Agrees n (.running m)
  | terminated {m : Mem T σ} {s : Sim T σ} {k : Nat} : k < n →
      Machine.run (simStep clock students (messages nsimmax) (channel pttn)) k
        (init clock students (messages nsimmax)) = some s →
      Shows [] [] m s → Agrees n (.terminated m)
  | exited {s : Sim T σ} {e : Event T} {k : Nat} : k < n →
      Machine.run (simStep clock students (messages nsimmax) (channel pttn)) k
        (init clock students (messages nsimmax)) = some s →
      e ∈ s.evlist.head? → e.evtype = .fromLayer5 →
      students.aOutput ((messages nsimmax).getD s.given.length default) s.vars = none →
      Agrees n .exited

theorem run_agrees (hpttn : pttn ≠ []) (n : Nat) {k : Nat}
    (hrun : Machine.run (simStep clock students (messages nsimmax) (channel pttn)) k
      (init clock students (messages nsimmax)) = some s) (h : Shows [] l m s) :
    malloc.Yields (run malloc clock students nsimmax pttn n m)
      (Agrees clock students nsimmax pttn (k+n)) := by
  induction n generalizing k s m l with
  | zero => exact .some rfl (.running hrun h)
  | succ n ih =>
    have hreach : Machine.Reaches (simStep clock students (messages nsimmax) (channel pttn))
        (init clock students (messages nsimmax)) s := ⟨k,hrun⟩
    have hsup := hreach.invariant (fun _ _ hst hs => Supply.step hs hst) supply_init
    have hone := hreach.invariant (fun _ _ hst hs => OneArrival.step clock students hs hst)
      (oneArrival_init clock students _)
    refine (h.round malloc clock students nsimmax pttn hpttn hsup hone).bind ?_
    intro o hround
    cases hround with
    | terminated hnil =>
      obtain rfl : l = [] := by simpa [hnil] using h.events
      exact .some rfl (.terminated (by omega) hrun h)
    | exited hhead hty hout => exact .some rfl (.exited (by omega) hrun hhead hty hout)
    | @running m' l' t hst h' =>
      have hrun' : Machine.run (simStep clock students (messages nsimmax) (channel pttn)) (k+1)
          (init clock students (messages nsimmax)) = some t := by
        rw [Machine.run_add hrun]
        simp [Machine.run,hst]
      rw [show k + (n+1) = k+1+n by omega]
      exact ih hrun' h'

theorem main_agrees (hpttn : pttn ≠ []) (hsize : pttn.length < patternSize) (n : Nat) :
    malloc.Yields (main malloc clock students nsimmax pttn n)
      (Agrees clock students nsimmax pttn n) := by
  refine (shows_start malloc clock students nsimmax pttn hsize).bind ?_
  rintro m ⟨l,hs⟩
  have hagr := run_agrees malloc clock students nsimmax pttn hpttn n (k := 0) rfl hs
  rwa [Nat.zero_add] at hagr

/-- Whatever `main` has come to, no allocation has failed and the pattern has fitted. -/
theorem agrees_of_main (hpttn : pttn ≠ []) {n : Nat} {o : Outcome (Mem T σ)}
    (h : main malloc clock students nsimmax pttn n = some o) :
    Agrees clock students nsimmax pttn n o := by
  have hsize : pttn.length < patternSize := by
    by_contra hge
    simp [main,start,Nat.not_lt.mp hge] at h
  rcases main_agrees malloc clock students nsimmax pttn hpttn hsize n with ⟨o',ho,hagr⟩ | ⟨ho,-⟩
  · rw [h,Option.some.injEq] at ho
    rwa [ho]
  · rw [h] at ho
    cases ho

/-- With memory enough and a pattern that fits, the program never touches memory that it
does not own, and does what the emulator does with the letters as messages and the pattern
as channel. -/
theorem main_refines (hmalloc : malloc.Succeeds) (hpttn : pttn ≠ [])
    (hsize : pttn.length < patternSize) (n : Nat) :
    (∃ m s l, main malloc clock students nsimmax pttn n = some (.running m) ∧
      Machine.run (simStep clock students (messages nsimmax) (channel pttn)) n
        (init clock students (messages nsimmax)) = some s ∧
      IsList m.events m.evlist l ∧
      l.map (fun x => x.2.event m.pkts m.timers) = s.evlist.map some ∧
      m.vars = s.vars ∧ m.time_ = s.time_) ∨
    (∃ m s k, k < n ∧ main malloc clock students nsimmax pttn n = some (.terminated m) ∧
      Machine.run (simStep clock students (messages nsimmax) (channel pttn)) k
        (init clock students (messages nsimmax)) = some s ∧
      s.evlist = [] ∧ m.vars = s.vars ∧ m.time_ = s.time_) ∨
    ∃ s k, k < n ∧ main malloc clock students nsimmax pttn n = some .exited ∧
      Machine.run (simStep clock students (messages nsimmax) (channel pttn)) k
        (init clock students (messages nsimmax)) = some s ∧
      s.evlist ≠ [] ∧ simStep clock students (messages nsimmax) (channel pttn) s = none := by
  obtain ⟨o,ho,hagr⟩ :=
    (main_agrees malloc clock students nsimmax pttn hpttn hsize n).resolve_right
      fun hno => hno.2 hmalloc
  cases hagr with
  | running hk hs =>
    exact Or.inl ⟨_,_,_,ho,hk,hs.list,hs.events,hs.vars,hs.time_⟩
  | @terminated m s k hlt hk hs =>
    have hnil : s.evlist = [] := by simpa using hs.events.symm
    exact Or.inr (Or.inl ⟨m,s,k,hlt,ho,hk,hnil,hs.vars,hs.time_⟩)
  | exited hlt hk hhead hty hout =>
    obtain ⟨rest,hrest⟩ := List.head?_eq_some_iff.mp hhead
    refine Or.inr (Or.inr ⟨_,_,hlt,ho,hk,by simp [hrest],?_⟩)
    rw [simStep_arrival _ _ _ _ hrest hty,hout]
    rfl

/-- The fates are those of the pattern, one call after another. -/
def FatesOf (pattern : Nat → Fate) (s : Sim T σ) : Prop :=
  s.handed.map (fun h => h.2.2) = (List.range s.handed.length).map pattern ∧
  s.cp = s.handed.length

variable {students nsimmax} in
theorem FatesOf.step {msgs : List Msg} {pattern : Nat → Fate} {t : Sim T σ}
    (h : FatesOf pattern s) (hst : simStep clock students msgs pattern s = some t) :
    FatesOf pattern t := by
  have hperform : ∀ s' : Sim T σ, FatesOf pattern s' → ∀ r : σ × List Call,
      FatesOf pattern (Rdt.perform clock pattern s' r) := by
    intro s' hs' r
    refine perform_induct (P := FatesOf pattern) r hs' fun u hu c _ => ?_
    cases c with
    | tolayer3 e p =>
      obtain ⟨h₁,h₂⟩ := hu
      have hcall : (Rdt.call clock pattern u (.tolayer3 e p)).handed =
          u.handed ++ [(e,p,pattern u.cp)] ∧
          (Rdt.call clock pattern u (.tolayer3 e p)).cp = u.cp + 1 := by
        cases hf : pattern u.cp <;> simp [Rdt.call,Rdt.tolayer3,hf,Rdt.insertevent]
      constructor
      · rw [hcall.1,List.map_append,h₁,List.length_append,List.length_singleton,List.range_succ,
          List.map_append,h₂]
        rfl
      · rw [hcall.1,hcall.2,h₂,List.length_append,List.length_singleton]
    | tolayer5 d => exact hu
    | starttimeR q => exact hu
    | stoptimeR q => exact hu
  obtain ⟨e,rest,hl,hcase⟩ := simStep_cases hst
  rcases hcase with ⟨hty,r,-,rfl⟩ | ⟨p,-,rfl⟩ | ⟨p,-,rfl⟩ | ⟨q,-,rfl⟩
  · refine hperform _ ?_ r
    unfold FatesOf Rdt.generateNextArrival at *
    split <;> exact h
  · exact hperform { s with evlist := rest, time_ := e.evtime } h _
  · exact hperform { s with evlist := rest, time_ := e.evtime } h _
  · exact hperform { s with evlist := rest, time_ := e.evtime } h _

omit [LinearOrder T] in
theorem Shows.counters {pattern : Nat → Fate} (h : Shows [] l m s) (hf : FatesOf pattern s) :
    m.nlost = (List.range m.ntolayer3).countP (fun k => pattern k = .lost) ∧
    m.ncorrupt = (List.range m.ntolayer3).countP (fun k => pattern k = .corrupt) := by
  have hcount : ∀ f : Fate, s.handed.countP (fun x => x.2.2 = f) =
      (List.range s.handed.length).countP fun k => pattern k = f := by
    intro f
    have hmap := congrArg (List.countP fun x => decide (x = f)) hf.1
    simpa [List.countP_map,Function.comp_def] using hmap
  rw [h.ntolayer3,← hcount,← hcount]
  exact ⟨h.nlost,h.ncorrupt⟩

omit [LinearOrder T] in
theorem Shows.evtimes (h : Shows [] l m s) :
    l.map (fun x => x.2.evtime_) = s.evlist.map Event.evtime := by
  have hmap : l.map (fun x => (x.2.event m.pkts m.timers).map Event.evtime) =
      s.evlist.map fun e => some e.evtime := by
    have := congrArg (List.map fun o : Option (Event T) => o.map Event.evtime) h.events
    simpa [Function.comp_def] using this
  have hl : ∀ x ∈ l, (x.2.event m.pkts m.timers).map Event.evtime = some x.2.evtime_ := by
    intro x hx
    have hmem : x.2.event m.pkts m.timers ∈ s.evlist.map some := by
      rw [← h.events]
      exact List.mem_map_of_mem hx
    obtain ⟨e,-,he⟩ := List.mem_map.mp hmem
    rw [← he,Option.map_some,EventCell.evtime_eq he.symm]
  rw [List.map_congr_left hl] at hmap
  exact List.map_injective_iff.mpr (Option.some_injective T)
    (by simpa [Function.comp_def] using hmap)

theorem simStep_time {msgs : List Msg} {pattern : Nat → Fate} {t : Sim T σ} (h : Timely clock s)
    (hst : simStep clock students msgs pattern s = some t) : s.time_ ≤ t.time_ := by
  obtain ⟨e,rest,hl,hcase⟩ := simStep_cases hst
  have hle : s.time_ ≤ e.evtime := h.later e (by simp [hl])
  have hadv := h.advance hl
  rcases hcase with ⟨-,r,-,rfl⟩ | ⟨p,-,rfl⟩ | ⟨p,-,rfl⟩ | ⟨q,-,rfl⟩
  · obtain ⟨hgen,-⟩ := hadv.generateNextArrival msgs
    have htime : (Rdt.generateNextArrival clock msgs
        { s with evlist := rest, time_ := e.evtime }).time_ = e.evtime := by
      unfold Rdt.generateNextArrival
      split <;> rfl
    generalize Rdt.generateNextArrival clock msgs _ = s' at *
    have hgiven : Timely clock
        { s' with given := s.given ++ [msgs.getD s.given.length default] } :=
      ⟨hgen.ordered,hgen.later,hgen.packet,hgen.timer⟩
    rw [(hgiven.perform pattern r).2.2,htime]
    exact hle
  · rw [(hadv.perform pattern _).2.2]
    exact hle
  · rw [(hadv.perform pattern _).2.2]
    exact hle
  · rw [(hadv.perform pattern _).2.2]
    exact hle

/-- The list in memory is in order of time, time never goes back, and what A and B do is a
run of the first-in first-out network. -/
theorem main_order (hpttn : pttn ≠ []) {n : Nat} {m : Mem T σ}
    (h : main malloc clock students nsimmax pttn n = some (.running m)) :
    (∃ l, IsList m.events m.evlist l ∧ (l.map fun x => x.2.evtime_).Pairwise (· ≤ ·) ∧
      ∀ x ∈ l, m.time_ ≤ x.2.evtime_) ∧
    (∃ net : Net σ, net.vars = m.vars ∧ Net.Reachable (channel pttn) students net) ∧
    ∀ m', main malloc clock students nsimmax pttn (n+1) = some (.running m') →
      m.time_ ≤ m'.time_ := by
  cases agrees_of_main malloc clock students nsimmax pttn hpttn h with
  | @running _ s l hk hs =>
    have hnet : Timely clock s ∧ Net.Reachable (channel pttn) students s.net := by
      refine Machine.Reaches.invariant (I := fun s => Timely clock s ∧
        Net.Reachable (channel pttn) students s.net) (fun a b hst hs => ?_) ⟨n,hk⟩ ?_
      · obtain ⟨htime,hstep⟩ := hs.1.step hst
        exact ⟨htime,hs.2.tail hstep⟩
      · obtain ⟨htime,hinit⟩ := timely_init clock students (messages nsimmax)
        exact ⟨htime,by rw [hinit]; exact Relation.ReflTransGen.refl⟩
    refine ⟨⟨l,hs.list,?_,fun x hx => ?_⟩,⟨s.net,hs.vars.symm,hnet.2⟩,fun m' hm' => ?_⟩
    · rw [hs.evtimes]
      exact List.pairwise_map.mpr hnet.1.ordered
    · have hmem : x.2.evtime_ ∈ s.evlist.map Event.evtime := by
        rw [← hs.evtimes]
        exact List.mem_map_of_mem hx
      obtain ⟨e,he,heq⟩ := List.mem_map.mp hmem
      rw [hs.time_,← heq]
      exact hnet.1.later e he
    · cases agrees_of_main malloc clock students nsimmax pttn hpttn hm' with
      | @running _ t l' hk' hs' =>
        rw [Machine.run_add hk] at hk'
        have hst : simStep clock students (messages nsimmax) (channel pttn) s = some t := by
          cases hst : simStep clock students (messages nsimmax) (channel pttn) s with
          | none => simp [Machine.run,hst] at hk'
          | some u => simpa [Machine.run,hst] using hk'
        rw [hs.time_,hs'.time_]
        exact simStep_time clock students hnet.1 hst

end Rounds

section Example

/-- Memory that is never used twice. -/
def ample : Malloc ℚ := ⟨.bump,.bump,.bump,fun _ => none,fun _ => none⟩

theorem ample_succeeds : ample.Succeeds :=
  ⟨Allocator.bump_succeeds,Allocator.bump_succeeds,Allocator.bump_succeeds⟩

/-- `gbn.c` with a window of two and two messages, over the pattern `xo`. -/
def small (n : Nat) : Option (Outcome (Mem ℚ Gbn.Vars)) :=
  main ample unitClock (Gbn.students 2 fun _ => default) 2 [120,111] n

def smallSim (n : Nat) : Option (Sim ℚ Gbn.Vars) :=
  Machine.run (simStep unitClock (Gbn.students 2 fun _ => default) (messages 2)
    (channel [120,111])) n (init unitClock (Gbn.students 2 fun _ => default) (messages 2))

/-- What `main` still does after `n` rounds: `some true` when it has come to its end. -/
def Outcome.ended {S : Type} : Outcome S → Option Bool
  | .terminated _ => some true
  | .exited => none
  | .running _ => some false

theorem exists_terminated {S : Type} {o : Option (Outcome S)}
    (h : o.bind Outcome.ended = some true) : ∃ s, o = some (.terminated s) := by
  obtain ⟨x,rfl,hx⟩ := Option.bind_eq_some_iff.mp h
  cases x with
  | terminated s => exact ⟨s,rfl⟩
  | exited => cases hx
  | running s => cases hx

theorem exists_running {S : Type} {o : Option (Outcome S)}
    (h : o.bind Outcome.ended = some false) : ∃ s, o = some (.running s) := by
  obtain ⟨x,rfl,hx⟩ := Option.bind_eq_some_iff.mp h
  cases x with
  | terminated s => cases hx
  | exited => cases hx
  | running s => exact ⟨s,rfl⟩

/-- The first packet has been lost. After four rounds its timer has sent it again, and the
two events in memory are its arrival and the next timeout; after eleven nothing is left. -/
theorem main_refines_small :
    (∃ m l, small 4 = some (.running m) ∧ IsList m.events m.evlist l ∧
      l.map (fun x => x.2.event m.pkts m.timers) =
        [some ⟨47/2,.fromLayer3 .B (dataPkt 0 (letter 2).data)⟩,
          some ⟨32,.timeRInterrupt 0⟩] ∧ m.time_ = 17) ∧
    ∃ m s, small 12 = some (.terminated m) ∧ smallSim 11 = some s ∧ s.evlist = [] ∧
      m.vars = s.vars := by
  have hrefines := main_refines ample unitClock (Gbn.students 2 fun _ => default) 2 [120,111]
    ample_succeeds (by decide) (by decide)
  constructor
  · obtain ⟨m₀,hm₀⟩ := exists_running (o := small 4) (by decide +kernel)
    have hsim : (smallSim 4).map (fun s => (s.evlist,s.time_)) =
        some ([⟨47/2,.fromLayer3 .B (dataPkt 0 (letter 2).data)⟩,⟨32,.timeRInterrupt 0⟩],17) := by
      decide +kernel
    rcases hrefines 4 with ⟨m,s,l,hm,hs,hl,hevents,-,htime⟩ | ⟨m,s,k,-,hm,-⟩ | ⟨s,k,-,hm,-⟩
    · rw [show smallSim 4 = some s from hs] at hsim
      simp only [Option.map_some,Option.some.injEq,Prod.mk.injEq] at hsim
      rw [hsim.1] at hevents
      exact ⟨m,l,hm,hl,hevents,htime.trans hsim.2⟩
    · cases hm₀.symm.trans hm
    · cases hm₀.symm.trans hm
  · obtain ⟨m₀,hm₀⟩ := exists_terminated (o := small 12) (by decide +kernel)
    rcases hrefines 12 with ⟨m,s,l,hm,-⟩ | ⟨m,s,k,hk,hm,hs,hnil,hvars,-⟩ | ⟨s,k,-,hm,-⟩
    · cases hm₀.symm.trans hm
    · have hsim : ∀ k < 12, (smallSim k).any (fun s => s.evlist.isEmpty) = true → k = 11 := by
        decide +kernel
      obtain rfl := hsim k hk (by simp [smallSim,hs,hnil])
      exact ⟨m,s,hm,hs,hnil,hvars⟩
    · cases hm₀.symm.trans hm

theorem main_order_small : ∃ m, small 5 = some (.running m) ∧
    ∃ net : Net Gbn.Vars, net.vars = m.vars ∧
      Net.Reachable (channel [120,111]) (Gbn.students 2 fun _ => default) net := by
  obtain ⟨m,hm⟩ := exists_running (o := small 5) (by decide +kernel)
  exact ⟨m,hm,(main_order ample unitClock _ 2 [120,111] (by decide) hm).2.1⟩

end Example

end NetworkLab.Rdt.Program
