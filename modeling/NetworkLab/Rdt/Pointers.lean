import NetworkLab.Rdt.Program
import NetworkLab.Rdt.Progress
set_option autoImplicit false

/-! The event list in memory holds the events of the emulator, and the program never
touches memory that is not allocated. -/

namespace NetworkLab.Rdt.Program
open DoublyLinked TimedList

section Cells
variable {T : Type}

/-- The packet that an event owns. -/
def EventCell.packet (c : EventCell T) : Ptr := if c.evtype = .fromLayer3 then c.pktptr else none

/-- The event that a cell stands for, with the packet and the timer it points to. -/
def EventCell.event (pkts : Heap Pkt) (timers : Heap Int) (c : EventCell T) : Option (Event T) :=
  match c.evtype with
  | .fromLayer5 => if c.eventity = .A then some ⟨c.evtime_,.fromLayer5⟩ else none
  | .fromLayer3 => (pkts.load c.pktptr).map fun p => ⟨c.evtime_,.fromLayer3 c.eventity p⟩
  | .timeRInterrupt =>
    if c.eventity = .A then
      (timers.load c.pktTimer).map fun q => ⟨c.evtime_,.timeRInterrupt q⟩
    else none

def packets (l : Nodes (EventCell T)) : List Nat := l.filterMap fun x => x.2.packet

variable {pkts pkts' : Heap Pkt} {timers timers' : Heap Int} {c : EventCell T} {e : Event T}

/-- The three kinds of cells. -/
theorem EventCell.event_cases (h : c.event pkts timers = some e) :
    (c.evtype = .fromLayer5 ∧ c.eventity = .A ∧ e = ⟨c.evtime_,.fromLayer5⟩) ∨
    (∃ b p, c.evtype = .fromLayer3 ∧ c.pktptr = some b ∧ pkts.cells b = some p ∧
      e = ⟨c.evtime_,.fromLayer3 c.eventity p⟩) ∨
    ∃ b q, c.evtype = .timeRInterrupt ∧ c.eventity = .A ∧ c.pktTimer = some b ∧
      timers.cells b = some q ∧ e = ⟨c.evtime_,.timeRInterrupt q⟩ := by
  unfold event at h
  cases hty : c.evtype with
  | fromLayer5 =>
    simp only [hty] at h
    split at h
    · rename_i hA
      exact Or.inl ⟨rfl,hA,(Option.some.inj h).symm⟩
    · cases h
  | fromLayer3 =>
    simp only [hty] at h
    obtain ⟨p,hp,rfl⟩ := Option.map_eq_some_iff.mp h
    obtain ⟨b,hb,hbp⟩ := Option.bind_eq_some_iff.mp hp
    exact Or.inr (Or.inl ⟨b,p,rfl,hb,hbp,rfl⟩)
  | timeRInterrupt =>
    simp only [hty] at h
    split at h
    · rename_i hA
      obtain ⟨q,hq,rfl⟩ := Option.map_eq_some_iff.mp h
      obtain ⟨b,hb,hbq⟩ := Option.bind_eq_some_iff.mp hq
      exact Or.inr (Or.inr ⟨b,q,rfl,hA,hb,hbq,rfl⟩)
    · cases h

theorem EventCell.evtime_eq (h : c.event pkts timers = some e) : e.evtime = c.evtime_ := by
  rcases c.event_cases h with ⟨-,-,rfl⟩ | ⟨b,p,-,-,-,rfl⟩ | ⟨b,q,-,-,-,-,rfl⟩ <;> rfl

/-- What a cell stands for does not depend on the rest of the memory. -/
theorem EventCell.event_congr (h : c.event pkts timers = some e)
    (hp : ∀ a, c.packet = some a → pkts'.cells a = pkts.cells a)
    (ht : ∀ a q, timers.cells a = some q → timers'.cells a = some q) :
    c.event pkts' timers' = some e := by
  rcases c.event_cases h with ⟨hty,hA,rfl⟩ | ⟨b,p,hty,hb,hbp,rfl⟩ | ⟨b,q,hty,hA,hb,hbq,rfl⟩
  · simp [event,hty,hA]
  · have := hp b (by simp [packet,hty,hb])
    simp [event,hty,hb,this,hbp]
  · simp [event,hty,hA,hb,ht b q hbq]

/-- The test of `stoptime_r` never fails on a cell that stands for an event. -/
theorem isTimer_event {q : Int} (h : c.event pkts timers = some e) :
    isTimer timers .A q c = some (Rdt.isTimer q e) := by
  rcases c.event_cases h with ⟨hty,hA,rfl⟩ | ⟨b,p,hty,hb,hbp,rfl⟩ | ⟨b,k,hty,hA,hb,hbk,rfl⟩
  · simp [isTimer,hty,Rdt.isTimer]
  · simp [isTimer,hty,Rdt.isTimer]
  · simp [isTimer,hty,hA,hb,hbk,Rdt.isTimer]

theorem packet_of_timer {q : Int} (h : isTimer timers .A q c = some true) : c.packet = none := by
  unfold isTimer at h
  unfold EventCell.packet
  split at h
  · rename_i hty
    simp [hty]
  · cases h

end Cells

section Shows
variable {T σ : Type} [LinearOrder T]

/-- Exactly these event cells are allocated, each with its data, and exactly the packets
that they point to, each of them by one. -/
structure Owns (events : Heap (Node (EventCell T))) (pkts : Heap Pkt) (own : Nodes (EventCell T)) :
    Prop where
  nodup : (addresses own).Nodup
  held : ∀ x ∈ own, ∃ p n, events.cells x.1 = some ⟨x.2,p,n⟩
  live : ∀ a, events.cells a ≠ none → a ∈ addresses own
  packetsNodup : (packets own).Nodup
  packetsHeld : ∀ a ∈ packets own, pkts.cells a ≠ none
  packetsLive : ∀ a, pkts.cells a ≠ none → a ∈ packets own

/-- The memory shows the state of the emulator; `l` is the event list and `busy` what has
been taken out of it or is not yet in it. -/
structure Shows (busy l : Nodes (EventCell T)) (m : Mem T σ) (s : Sim T σ) : Prop where
  list : IsList m.events m.evlist l
  owns : Owns m.events m.pkts (busy ++ l)
  events : l.map (fun x => x.2.event m.pkts m.timers) = s.evlist.map some
  vars : m.vars = s.vars
  time_ : m.time_ = s.time_
  nsim : m.nsim = s.nsim
  cp : m.cp + 1 = s.cp
  handed : s.cp = s.handed.length
  ntolayer3 : m.ntolayer3 = s.handed.length
  nlost : m.nlost = s.handed.countP fun h => h.2.2 = .lost
  ncorrupt : m.ncorrupt = s.handed.countP fun h => h.2.2 = .corrupt

variable {m : Mem T σ} {s : Sim T σ} {busy l : Nodes (EventCell T)} {a : Nat} {c : EventCell T}
variable {e : Event T} {events events' : Heap (Node (EventCell T))} {pkts pkts' : Heap Pkt}
variable {own own' : Nodes (EventCell T)}

omit [LinearOrder T] in
theorem Owns.perm (h : Owns events pkts own) (hp : own.Perm own') : Owns events pkts own' := by
  have ha : (addresses own).Perm (addresses own') := hp.map _
  have hq : (packets own).Perm (packets own') := hp.filterMap _
  exact ⟨ha.nodup_iff.mp h.nodup,fun x hx => h.held x (hp.mem_iff.mpr hx),
    fun a hc => ha.mem_iff.mp (h.live a hc),hq.nodup_iff.mp h.packetsNodup,
    fun a hc => h.packetsHeld a (hq.mem_iff.mpr hc),fun a hc => hq.mem_iff.mp (h.packetsLive a hc)⟩

omit [LinearOrder T] in
/-- Links have changed, in cells that are allocated. -/
theorem Owns.relink (h : Owns events pkts own)
    (hheld : ∀ x ∈ own, ∃ p n, events'.cells x.1 = some ⟨x.2,p,n⟩)
    (hout : Outside (addresses own) events events') : Owns events' pkts own := by
  refine ⟨h.nodup,hheld,fun a ha => ?_,h.packetsNodup,h.packetsHeld,h.packetsLive⟩
  by_contra hn
  exact hn (h.live a (by rwa [hout a hn] at ha))

/-- The place of a new event: behind all that are not later. -/
def before (c : EventCell T) (l : Nodes (EventCell T)) : Nodes (EventCell T) :=
  l.takeWhile fun x => !decide (c.evtime_ < x.2.evtime_)

def behind (c : EventCell T) (l : Nodes (EventCell T)) : Nodes (EventCell T) :=
  l.dropWhile fun x => !decide (c.evtime_ < x.2.evtime_)

theorem before_append_behind (c : EventCell T) (l : Nodes (EventCell T)) :
    before c l ++ behind c l = l := List.takeWhile_append_dropWhile

/-- The node goes to its place, whichever of the four branches that is. -/
theorem insertevent_eq (hl : IsList m.events m.evlist l) {n : Node (EventCell T)}
    (hc : m.events.cells a = some n) (ha : a ∉ addresses l) :
    ∃ h' p, insertevent (some a) m = some { m with events := h', evlist := p } ∧
      IsList h' p (before n.data l ++ (a,n.data) :: behind n.data l) ∧
      Outside (a :: addresses l) m.events h' := by
  have hwalk := walk_eq (fun x : EventCell T => some (decide (n.data.evtime_ < x.evtime_)))
    (fun x => decide (n.data.evtime_ < x.evtime_)) m.evlist hl.seg (fun _ _ => rfl)
    (Nat.lt_succ_of_le (hl.seg.length_le hl.nodup))
  rw [← hl.head] at hwalk
  change walk _ _ _ m.evlist m.evlist =
    some (first (behind n.data l) none,last m.evlist (before n.data l)) at hwalk
  have happ := before_append_behind n.data l
  generalize before n.data l = l₁ at *
  generalize behind n.data l = l₂ at *
  subst happ
  simp only [insertevent,Heap.load_some,hc,Option.bind_eq_bind,Option.bind_some,hwalk]
  rcases List.eq_nil_or_concat l₁ with rfl | ⟨k,⟨b,y⟩,rfl⟩
  · cases l₂ with
    | nil =>
      obtain ⟨h',he,hl',hout⟩ := linkOnly_spec hc
      have hp : m.evlist = none := hl.head
      exact ⟨h',some a,by simp [hp,he],hl',hout⟩
    | cons x l₂ =>
      obtain ⟨b,y⟩ := x
      obtain ⟨h',he,hl',hout⟩ := linkFront_spec hl hc ha
      have hp : m.evlist = some b := hl.head
      rw [hp] at he
      exact ⟨h',some a,by simp [hp,he],hl',hout⟩
  · rw [List.concat_eq_append] at *
    have hp : m.evlist = first (k ++ [(b,y)]) none := by
      rw [hl.head,first_append,first_append,first_append]
      cases k <;> rfl
    obtain ⟨d,hmem,hd⟩ := exists_first (l := k ++ [(b,y)]) (r := none) (by simp)
    rw [hd] at hp
    cases l₂ with
    | nil =>
      rw [List.append_nil] at hl ha ⊢
      obtain ⟨h',he,hl',hout⟩ := linkLast_spec hl hc ha
      exact ⟨h',m.evlist,by simp [hp,he],hl',hout⟩
    | cons x l₂ =>
      obtain ⟨q,z⟩ := x
      obtain ⟨h',he,hl',hout⟩ := linkBefore_spec hl hc ha
      have hne : q ≠ d := by
        rintro rfl
        exact (split_nodup hl.nodup).1.1 hmem
      exact ⟨h',m.evlist,by simp [hp,hne,he],hl',hout⟩

theorem insert_events {pkts : Heap Pkt} {timers : Heap Int} {evs : List (Event T)}
    (h : l.map (fun x => x.2.event pkts timers) = evs.map some)
    (he : c.event pkts timers = some e) :
    (before c l ++ (a,c) :: behind c l).map (fun x => x.2.event pkts timers) =
      (insertTimed Event.evtime e evs).map some := by
  induction l generalizing evs with
  | nil =>
    obtain rfl : evs = [] := by simpa using h.symm
    simp [before,behind,insertTimed,he]
  | cons x l ih =>
    obtain ⟨f,evs,rfl⟩ : ∃ f evs', evs = f :: evs' :=
      List.exists_cons_of_ne_nil (by rintro rfl; simp at h)
    simp only [List.map_cons,List.cons.injEq] at h
    have hf := EventCell.evtime_eq h.1
    have hc := EventCell.evtime_eq he
    by_cases hlt : c.evtime_ < x.2.evtime_
    · rw [insertTimed_of_lt (by rwa [hf,hc])]
      simp [before,behind,hlt,he,h]
    · rw [insertTimed_of_le (by rw [hf,hc]; exact le_of_not_gt hlt)]
      have hb : before c (x :: l) = x :: before c l := by simp [before,hlt]
      have hd : behind c (x :: l) = behind c l := by simp [behind,hlt]
      rw [hb,hd,List.cons_append,List.map_cons,List.map_cons,ih h.2,h.1]

/-- A new event goes from the hands of the program into the list. -/
theorem Shows.insertevent (h : Shows ((a,c) :: busy) l m s)
    (he : c.event m.pkts m.timers = some e) :
    ∃ h' p, insertevent (some a) m = some { m with events := h', evlist := p } ∧
      Shows busy (before c l ++ (a,c) :: behind c l) { m with events := h', evlist := p }
        (Rdt.insertevent e s) := by
  obtain ⟨q,r,hc⟩ := h.owns.held (a,c) (by simp)
  have hn := h.owns.nodup
  simp only [addresses,List.cons_append,List.map_cons,List.map_append,List.nodup_cons,
    List.mem_append,not_or] at hn
  obtain ⟨h',p,heq,hl',hout⟩ := insertevent_eq h.list hc hn.1.2
  have hmem : ∀ y ∈ (a,c) :: l, y ∈ before c l ++ (a,c) :: behind c l := by
    intro y hy
    have happ := before_append_behind c l
    rw [← happ] at hy
    simp only [List.mem_cons,List.mem_append] at hy ⊢
    tauto
  refine ⟨h',p,heq,hl',?_,insert_events h.events he,h.vars,h.time_,h.nsim,h.cp,h.handed,
    h.ntolayer3,h.nlost,h.ncorrupt⟩
  have hperm : ((a,c) :: busy ++ l).Perm (busy ++ (before c l ++ (a,c) :: behind c l)) := by
    conv_lhs => rw [← before_append_behind c l,List.cons_append,← List.append_assoc]
    rw [← List.append_assoc]
    exact List.perm_middle.symm
  refine (h.owns.relink (fun y hy => ?_) fun b hb => hout b ?_).perm hperm
  · rw [List.cons_append,List.mem_cons,List.mem_append] at hy
    by_cases hy' : y ∈ (a,c) :: l
    · exact hl'.seg.mem (hmem y hy')
    · have hyb : y ∈ busy := by
        simp only [List.mem_cons] at hy'
        tauto
      have hya : y.1 ∉ a :: addresses l := by
        have hd := (List.nodup_append.mp hn.2).2.2
        rw [List.mem_cons,not_or]
        refine ⟨fun hya => hn.1.1 (hya ▸ List.mem_map_of_mem hyb),fun hyl => ?_⟩
        exact hd y.1 (List.mem_map_of_mem hyb) y.1 hyl rfl
      obtain ⟨q,r,hc⟩ := h.owns.held y (by simp [hyb])
      exact ⟨q,r,(hout y.1 hya).trans hc⟩
  · simp only [addresses,List.cons_append,List.map_cons,List.map_append,List.mem_cons,
      List.mem_append,not_or] at hb ⊢
    exact ⟨hb.1,hb.2.2⟩

/-! A timer is taken out. -/

omit [LinearOrder T] in
theorem erase_events {pkts : Heap Pkt} {timers : Heap Int} {evs : List (Event T)} {q : Int}
    (stop : EventCell T → Bool) (h : l.map (fun x => x.2.event pkts timers) = evs.map some)
    (hstop : ∀ x ∈ l, isTimer timers .A q x.2 = some (stop x.2)) :
    ((l.takeWhile fun x => !stop x.2) ++ (l.dropWhile fun x => !stop x.2).tail).map
        (fun x => x.2.event pkts timers) = (evs.eraseP (Rdt.isTimer q)).map some := by
  induction l generalizing evs with
  | nil =>
    obtain rfl : evs = [] := by simpa using h.symm
    rfl
  | cons x l ih =>
    obtain ⟨f,evs,rfl⟩ : ∃ f evs', evs = f :: evs' :=
      List.exists_cons_of_ne_nil (by rintro rfl; simp at h)
    simp only [List.map_cons,List.cons.injEq] at h
    have hx := hstop x (by simp)
    rw [isTimer_event h.1,Option.some.injEq] at hx
    cases hs : stop x.2 with
    | true =>
      rw [List.eraseP_cons_of_pos (hx.trans hs)]
      simpa [hs] using h.2
    | false =>
      rw [List.eraseP_cons_of_neg (by rw [hx,hs]; simp)]
      have hrest := ih h.2 fun y hy => hstop y (List.mem_cons_of_mem _ hy)
      simpa [hs,h.1] using hrest

omit [LinearOrder T] in
theorem packets_cons : packets ((a,c) :: l) = c.packet.toList ++ packets l := by
  cases hc : c.packet <;> simp [packets,hc]

omit [LinearOrder T] in
/-- An event and its packet, if it has one, are freed. -/
theorem Owns.free (h : Owns events pkts ((a,c) :: own))
    (hgone : ∀ b, c.packet = some b → pkts'.cells b = none)
    (hsame : ∀ b, c.packet ≠ some b → pkts'.cells b = pkts.cells b) :
    Owns (events.erase a) pkts' own := by
  obtain ⟨ha,hn⟩ := List.nodup_cons.mp h.nodup
  have hpk := h.packetsNodup
  rw [packets_cons] at hpk
  have hne : ∀ b ∈ packets own, c.packet ≠ some b := fun b hb hc =>
    (List.nodup_append.mp hpk).2.2 b (Option.mem_toList.mpr hc) b hb rfl
  refine ⟨hn,fun x hx => ?_,fun b hb => ?_,(List.nodup_append.mp hpk).2.1,fun b hb => ?_,
    fun b hb => ?_⟩
  · obtain ⟨p,n,hx'⟩ := h.held x (List.mem_cons_of_mem _ hx)
    refine ⟨p,n,(Function.update_of_ne ?_ _ _).trans hx'⟩
    exact fun hxa => ha (List.mem_map.mpr ⟨x,hx,hxa⟩)
  · by_cases hba : b = a
    · exact absurd (by rw [hba]; exact Function.update_self ..) hb
    · have hb' : events.cells b ≠ none := by
        rwa [← Function.update_of_ne hba (none : Option (Node (EventCell T))) events.cells]
      exact (List.mem_cons.mp (h.live b hb')).resolve_left hba
  · rw [hsame b (hne b hb)]
    exact h.packetsHeld b (by rw [packets_cons]; exact List.mem_append_right _ hb)
  · by_cases hc : c.packet = some b
    · exact absurd (hgone b hc) hb
    · rw [hsame b hc] at hb
      have := h.packetsLive b hb
      rw [packets_cons,List.mem_append,Option.mem_toList] at this
      exact this.resolve_left hc

omit [LinearOrder T] in
theorem Shows.stoptimeR (h : Shows busy l m s) (q : Int) :
    ∃ h' p l', stoptimeR .A q m = some { m with events := h', evlist := p } ∧
      Shows busy l' { m with events := h', evlist := p } (Rdt.stoptimeR q s) := by
  have htest : ∀ x ∈ l, isTimer m.timers .A q x.2 =
      some ((x.2.event m.pkts m.timers).any (Rdt.isTimer q)) := by
    intro x hx
    have hmem : x.2.event m.pkts m.timers ∈ s.evlist.map some := by
      rw [← h.events]
      exact List.mem_map_of_mem hx
    obtain ⟨f,-,hf⟩ := List.mem_map.mp hmem
    rw [isTimer_event hf.symm,← hf]
    rfl
  have hevents := erase_events (fun x => (x.event m.pkts m.timers).any (Rdt.isTimer q))
    h.events htest
  have hwalk := walk_eq (isTimer m.timers .A q)
    (fun x => (x.event m.pkts m.timers).any (Rdt.isTimer q)) m.evlist h.list.seg htest
    (Nat.lt_succ_of_le (h.list.seg.length_le h.list.nodup))
  have happ := List.takeWhile_append_dropWhile
    (p := fun x : Nat × EventCell T => !(x.2.event m.pkts m.timers).any (Rdt.isTimer q)) (l := l)
  have hhead : ∀ x ∈ (l.dropWhile fun x => !(x.2.event m.pkts m.timers).any (Rdt.isTimer q)).head?,
      (x.2.event m.pkts m.timers).any (Rdt.isTimer q) = true := fun x hx => by
    have := List.head?_dropWhile_not (fun x : Nat × EventCell T =>
      !(x.2.event m.pkts m.timers).any (Rdt.isTimer q)) l
    rw [hx] at this
    simpa using this
  rw [← h.list.head] at hwalk
  change walk _ _ _ m.evlist m.evlist = _ at hwalk
  generalize (l.takeWhile fun x => !(x.2.event m.pkts m.timers).any (Rdt.isTimer q)) = l₁ at *
  generalize (l.dropWhile fun x => !(x.2.event m.pkts m.timers).any (Rdt.isTimer q)) = l₂ at *
  subst happ
  cases l₂ with
  | nil =>
    refine ⟨m.events,m.evlist,l₁,by simp [Program.stoptimeR,hwalk],?_⟩
    simp only [List.append_nil,List.tail_nil] at h hevents
    exact ⟨h.list,h.owns,hevents,h.vars,h.time_,h.nsim,h.cp,h.handed,h.ntolayer3,h.nlost,
      h.ncorrupt⟩
  | cons x l₂ =>
    obtain ⟨b,y⟩ := x
    obtain ⟨h',p,he,hl',hout⟩ := unlink_spec h.list
    obtain ⟨⟨hb₁,hb₂⟩,-⟩ := split_nodup h.list.nodup
    have hb : b ∉ addresses (l₁ ++ l₂) := by simp [hb₁,hb₂]
    obtain ⟨r,n,hc⟩ := h.list.seg.mem (y := (b,y)) (by simp)
    have hc' : h'.cells b = some ⟨y,r,n⟩ := (hout b hb).trans hc
    have hfree := Heap.free_some hc'
    refine ⟨h'.erase b,p,l₁ ++ l₂,by simp [Program.stoptimeR,hwalk,he,hfree],
      ⟨hl'.head,hl'.seg.erase hb,hl'.nodup⟩,?_,hevents,h.vars,h.time_,h.nsim,h.cp,h.handed,
      h.ntolayer3,h.nlost,h.ncorrupt⟩
    have hperm : (busy ++ (l₁ ++ (b,y) :: l₂)).Perm ((b,y) :: (busy ++ (l₁ ++ l₂))) := by
      rw [← List.append_assoc,← List.append_assoc]
      exact List.perm_middle
    have hy : isTimer m.timers .A q y = some true := by
      rw [htest (b,y) (by simp),hhead (b,y) rfl]
    have hrelink : Owns h' m.pkts ((b,y) :: (busy ++ (l₁ ++ l₂))) := by
      refine (h.owns.perm hperm).relink (fun z hz => ?_) fun d hd => hout d ?_
      · by_cases hz' : z ∈ l₁ ++ l₂
        · exact hl'.seg.mem hz'
        · obtain ⟨r,n,hc⟩ := (h.owns.perm hperm).held z hz
          refine ⟨r,n,(hout z.1 fun hd => ?_).trans hc⟩
          obtain ⟨w,hw,hwz⟩ := List.mem_map.mp hd
          have hn := (h.owns.perm hperm).nodup
          have hzw := List.inj_on_of_nodup_map hn hz (by simp at hw ⊢; tauto) hwz.symm
          exact hz' (hzw ▸ hw)
      · simp only [addresses,List.map_cons,List.map_append,List.mem_cons,List.mem_append,not_or]
          at hd ⊢
        exact hd.2.2
    have hnone : ∀ d, y.packet ≠ some d := by simp [packet_of_timer hy]
    exact hrelink.free (fun d hd => absurd hd (hnone d)) fun _ _ => rfl

/-! A new event is made. -/

omit [LinearOrder T] in
/-- A fresh cell for the event, and for its packet if it has one; timers are only added. -/
theorem Shows.allocate (h : Shows busy l m s) (c : EventCell T) (q r : Ptr) (pkts' : Heap Pkt)
    (timers' : Heap Int) (k : Nat) (ha : m.events.cells a = none)
    (hsame : ∀ b, c.packet ≠ some b → pkts'.cells b = m.pkts.cells b)
    (hnew : ∀ b, c.packet = some b → m.pkts.cells b = none ∧ pkts'.cells b ≠ none)
    (htimers : ∀ b x, m.timers.cells b = some x → timers'.cells b = some x) :
    Shows ((a,c) :: busy) l { m with
      events := m.events.set a ⟨c,q,r⟩
      pkts := pkts'
      timers := timers'
      mallocs := k } s := by
  have hfresh : a ∉ addresses (busy ++ l) := by
    intro hm
    obtain ⟨x,hx,rfl⟩ := List.mem_map.mp hm
    obtain ⟨p,n,hc⟩ := h.owns.held x hx
    rw [ha] at hc
    cases hc
  have hne : ∀ b ∈ packets (busy ++ l), c.packet ≠ some b := fun b hb hc =>
    h.owns.packetsHeld b hb (hnew b hc).1
  refine ⟨⟨h.list.head,h.list.seg.set ?_ _,h.list.nodup⟩,⟨?_,?_,?_,?_,?_,?_⟩,?_,h.vars,h.time_,
    h.nsim,h.cp,h.handed,h.ntolayer3,h.nlost,h.ncorrupt⟩
  · exact fun hm => hfresh (by simp at hm ⊢; tauto)
  · exact List.nodup_cons.mpr ⟨hfresh,h.owns.nodup⟩
  · intro x hx
    rcases List.mem_cons.mp hx with rfl | hx
    · exact ⟨q,r,Function.update_self ..⟩
    · obtain ⟨p,n,hc⟩ := h.owns.held x hx
      refine ⟨p,n,(Function.update_of_ne ?_ _ _).trans hc⟩
      exact fun hxa => hfresh (List.mem_map.mpr ⟨x,hx,hxa⟩)
  · intro b hb
    by_cases hba : b = a
    · simp [hba]
    · refine List.mem_cons_of_mem _ (h.owns.live b ?_)
      rwa [← Function.update_of_ne hba (some ⟨c,q,r⟩) m.events.cells]
  · rw [List.cons_append,packets_cons]
    refine List.nodup_append.mpr ⟨by cases c.packet <;> simp,h.owns.packetsNodup,?_⟩
    rintro b hb d hd rfl
    exact hne b hd (Option.mem_toList.mp hb)
  · intro b hb
    rw [List.cons_append,packets_cons,List.mem_append] at hb
    rcases hb with hb | hb
    · exact (hnew b (Option.mem_toList.mp hb)).2
    · rw [hsame b (hne b hb)]
      exact h.owns.packetsHeld b hb
  · intro b hb
    rw [List.cons_append,packets_cons,List.mem_append]
    by_cases hc : c.packet = some b
    · exact Or.inl (Option.mem_toList.mpr hc)
    · rw [hsame b hc] at hb
      exact Or.inr (h.owns.packetsLive b hb)
  · rw [← h.events]
    refine List.map_congr_left fun x hx => ?_
    have hmem : x.2.event m.pkts m.timers ∈ s.evlist.map some := by
      rw [← h.events]
      exact List.mem_map_of_mem hx
    obtain ⟨f,-,hf⟩ := List.mem_map.mp hmem
    rw [← hf]
    refine EventCell.event_congr hf.symm (fun b hb => hsame b (hne b ?_)) htimers
    exact List.mem_filterMap.mpr ⟨x,by simp [hx],hb⟩

section Calls
theorem keeps_fresh {C : Type} {h : Heap C} {a b : Nat} {c x : C} (ha : h.cells a = none)
    (hb : h.cells b = some x) : (h.set a c).cells b = some x := by
  refine (Function.update_of_ne ?_ _ _).trans hb
  rintro rfl
  rw [ha] at hb
  cases hb

variable (malloc : Malloc T) (clock : Clock T) (pttn : List UInt8)

/-- The channel of the program: the fate of the `k`-th call of `tolayer3`. -/
def channel (pttn : List UInt8) (k : Nat) : Fate := (fateAt pttn k).getD .ok

theorem fateAt_channel {pttn : List UInt8} (hpttn : pttn ≠ []) (k : Nat) :
    fateAt pttn k = some (channel pttn k) := by
  have hlt : k % pttn.length < pttn.length := Nat.mod_lt _ (List.length_pos_iff.mpr hpttn)
  have hmod : ((k : Int) % pttn.length).toNat = k % pttn.length := by omega
  simp [channel,fateAt,hmod,List.getElem?_eq_getElem hlt]

/-- The result is as `P` says, unless an allocation fails. -/
def Malloc.Yields {α : Type} (malloc : Malloc T) (o : Option α) (P : α → Prop) : Prop :=
  (∃ x, o = some x ∧ P x) ∨ o = none ∧ ¬malloc.Succeeds

omit [LinearOrder T] in
variable {malloc} in
theorem Malloc.Yields.bind {α β : Type} {o : Option α} {P : α → Prop} {f : α → Option β}
    {Q : β → Prop} (h : malloc.Yields o P) (hf : ∀ x, P x → malloc.Yields (f x) Q) :
    malloc.Yields (o.bind f) Q := by
  rcases h with ⟨x,rfl,hx⟩ | ⟨rfl,hno⟩
  · exact hf x hx
  · exact Or.inr ⟨rfl,hno⟩

omit [LinearOrder T] in
variable {malloc} in
theorem Malloc.Yields.some {α : Type} {o : Option α} {P : α → Prop} {x : α} (ho : o = some x)
    (hx : P x) : malloc.Yields o P := Or.inl ⟨x,ho,hx⟩

omit [LinearOrder T] in
theorem mallocEvent_yields (c : EventCell T) (m : Mem T σ) :
    malloc.Yields (mallocEvent malloc c m) fun r => ∃ a, m.events.cells a = none ∧
      r = (a,{ m with
        events := m.events.set a ⟨c,malloc.prev m.mallocs,malloc.next m.mallocs⟩
        mallocs := m.mallocs + 1 }) := by
  unfold mallocEvent
  cases ha : malloc.event.address m.mallocs m.events with
  | none => exact Or.inr ⟨rfl,fun hs => hs.event _ _ ha⟩
  | some a => exact .some rfl ⟨a,malloc.event.fresh _ _ a ha,rfl⟩

omit [LinearOrder T] in
theorem mallocPkt_yields (p : Pkt) (m : Mem T σ) :
    malloc.Yields (mallocPkt malloc p m) fun r => ∃ a, m.pkts.cells a = none ∧
      r = (a,{ m with pkts := m.pkts.set a p, mallocs := m.mallocs + 1 }) := by
  unfold mallocPkt
  cases ha : malloc.pkt.address m.mallocs m.pkts with
  | none => exact Or.inr ⟨rfl,fun hs => hs.pkt _ _ ha⟩
  | some a => exact .some rfl ⟨a,malloc.pkt.fresh _ _ a ha,rfl⟩

omit [LinearOrder T] in
theorem mallocTimer_yields (pktSeq : Int) (m : Mem T σ) :
    malloc.Yields (mallocTimer malloc pktSeq m) fun r => ∃ a, m.timers.cells a = none ∧
      r = (a,{ m with timers := m.timers.set a pktSeq, mallocs := m.mallocs + 1 }) := by
  unfold mallocTimer
  cases ha : malloc.timer.address m.mallocs m.timers with
  | none => exact Or.inr ⟨rfl,fun hs => hs.timer _ _ ha⟩
  | some a => exact .some rfl ⟨a,malloc.timer.fresh _ _ a ha,rfl⟩

theorem Shows.starttimeR (h : Shows busy l m s) (pktSeq : Int) :
    malloc.Yields (starttimeR malloc clock .A pktSeq m) fun m' =>
      ∃ l', Shows busy l' m' (Rdt.starttimeR clock pktSeq s) := by
  refine (mallocTimer_yields malloc pktSeq m).bind ?_
  rintro _ ⟨b,hb,rfl⟩
  refine (mallocEvent_yields malloc _ _).bind ?_
  rintro _ ⟨a,ha,rfl⟩
  have hadd := h.allocate ⟨clock.expiry m.time_,.timeRInterrupt,.A,none,some b⟩
    (malloc.prev (m.mallocs+1)) (malloc.next (m.mallocs+1)) m.pkts (m.timers.set b pktSeq)
    (m.mallocs+1+1) ha (fun _ _ => rfl) (by simp [EventCell.packet]) fun _ _ hx => keeps_fresh hb hx
  obtain ⟨h',p,he,hs⟩ := hadd.insertevent (e := ⟨clock.expiry s.time_,.timeRInterrupt pktSeq⟩)
    (by simp [EventCell.event,h.time_])
  exact .some he ⟨_,hs⟩

theorem Shows.generateNextArrival (h : Shows busy l m s) {nsimmax : Nat} {msgs : List Msg}
    (hlen : msgs.length = nsimmax) :
    malloc.Yields (generateNextArrival malloc clock nsimmax m) fun m' =>
      ∃ l', Shows busy l' m' (Rdt.generateNextArrival clock msgs s) := by
  unfold Program.generateNextArrival Rdt.generateNextArrival
  rw [hlen,h.nsim]
  split
  · exact .some rfl ⟨l,h⟩
  · refine (mallocEvent_yields malloc _ m).bind ?_
    rintro _ ⟨a,ha,rfl⟩
    have hadd := h.allocate ⟨clock.nextArrival m.time_,.fromLayer5,.A,none,none⟩
      (malloc.prev m.mallocs) (malloc.next m.mallocs) m.pkts m.timers (m.mallocs+1)
      ha (fun _ _ => rfl) (by simp [EventCell.packet]) fun _ _ hb => hb
    obtain ⟨h',p,he,hs⟩ := hadd.insertevent (e := ⟨clock.nextArrival s.time_,.fromLayer5⟩)
      (by simp [EventCell.event,h.time_])
    have hn : m.nsim + 1 = s.nsim + 1 := congrArg (· + 1) h.nsim
    exact .some (Option.map_eq_some_iff.mpr ⟨_,he,rfl⟩) ⟨_,hs.list,hs.owns,hs.events,hs.vars,
      hs.time_,hn,hs.cp,hs.handed,hs.ntolayer3,hs.nlost,hs.ncorrupt⟩

/-- A packet sets out: its event and its packet are new. -/
theorem Shows.depart (h : Shows busy l m s) (eventity : Entity) (p : Pkt) {b : Nat}
    (pkts' : Heap Pkt) (timers' : Heap Int) (q r pktTimer : Ptr) (k : Nat)
    (ha : m.events.cells a = none) (hb : m.pkts.cells b = none) (hp : pkts'.cells b = some p)
    (hsame : ∀ d, d ≠ b → pkts'.cells d = m.pkts.cells d)
    (htimers : ∀ d x, m.timers.cells d = some x → timers'.cells d = some x) :
    ∃ m' l', Program.insertevent (some a) { m with
        events := m.events.set a
          ⟨⟨clock.arrival m.time_,.fromLayer3,eventity,some b,pktTimer⟩,q,r⟩
        pkts := pkts'
        timers := timers'
        mallocs := k } = some m' ∧
      Shows busy l' m' (Rdt.insertevent ⟨clock.arrival s.time_,.fromLayer3 eventity p⟩ s) := by
  have hpacket : ∀ d, (⟨clock.arrival m.time_,.fromLayer3,eventity,some b,pktTimer⟩ :
      EventCell T).packet = some d ↔ b = d := by simp [EventCell.packet]
  have hadd := h.allocate ⟨clock.arrival m.time_,.fromLayer3,eventity,some b,pktTimer⟩ q r pkts'
    timers' k ha (fun d hd => hsame d fun hdb => hd ((hpacket d).mpr hdb.symm))
    (fun d hd => by
      obtain rfl := (hpacket d).mp hd
      exact ⟨hb,by simp [hp]⟩) htimers
  obtain ⟨h',p',he,hs⟩ := hadd.insertevent
    (e := ⟨clock.arrival s.time_,.fromLayer3 eventity p⟩)
    (by simp [EventCell.event,h.time_,hp])
  exact ⟨_,_,he,hs⟩

theorem Shows.tolayer3 (h : Shows busy l m s) (hpttn : pttn ≠ []) (AorB : Entity) (packet : Pkt) :
    malloc.Yields (tolayer3 malloc clock pttn AorB packet m) fun m' =>
      ∃ l', Shows busy l' m' (Rdt.tolayer3 clock (channel pttn) AorB packet s) := by
  have hfate : fateAt pttn (m.cp + 1) = some (channel pttn s.cp) := by
    rw [h.cp]
    exact fateAt_channel hpttn _
  -- the counters go up, with the fate of this call
  have hcount : Shows busy l
      { m with
        cp := m.cp + 1
        ntolayer3 := m.ntolayer3 + 1
        nlost := m.nlost + if channel pttn s.cp = .lost then 1 else 0
        ncorrupt := m.ncorrupt + if channel pttn s.cp = .corrupt then 1 else 0 }
      { s with cp := s.cp + 1, handed := s.handed ++ [(AorB,packet,channel pttn s.cp)] } := by
    refine ⟨h.list,h.owns,h.events,h.vars,h.time_,h.nsim,?_,?_,?_,?_,?_⟩
    · have := h.cp
      simp only
      omega
    · simp [h.handed]
    · simp [h.ntolayer3]
    · simp [h.nlost,List.countP_append,List.countP_singleton]
    · simp [h.ncorrupt,List.countP_append,List.countP_singleton]
  unfold Program.tolayer3 Rdt.tolayer3
  simp only [hfate,Option.bind_some]
  cases hf : channel pttn s.cp with
  | lost =>
    simp only [hf,reduceCtorEq,if_true,if_false] at hcount
    exact .some rfl ⟨_,hcount⟩
  | ok =>
    simp only [hf,reduceCtorEq,if_false] at hcount ⊢
    refine (mallocPkt_yields malloc packet _).bind ?_
    rintro _ ⟨b,hb,rfl⟩
    refine (mallocTimer_yields malloc packet.acknum _).bind ?_
    rintro _ ⟨d,hd,rfl⟩
    refine (mallocEvent_yields malloc _ _).bind ?_
    rintro _ ⟨a,ha,rfl⟩
    obtain ⟨m',l',he,hs⟩ := hcount.depart clock AorB.other packet (m.pkts.set b packet)
      (m.timers.set d packet.acknum) _ _ _ (m.mallocs+1+1+1) ha hb (Function.update_self ..)
      (fun x hx => Function.update_of_ne hx _ _) fun _ _ hx => keeps_fresh hd hx
    exact .some he ⟨l',hs⟩
  | corrupt =>
    simp only [hf,reduceCtorEq,if_true,if_false] at hcount ⊢
    refine (mallocPkt_yields malloc packet _).bind ?_
    rintro _ ⟨b,hb,rfl⟩
    refine (mallocTimer_yields malloc packet.acknum _).bind ?_
    rintro _ ⟨d,hd,rfl⟩
    refine (mallocEvent_yields malloc _ _).bind ?_
    rintro _ ⟨a,ha,rfl⟩
    have hdamage : (m.pkts.set b packet).modify (some b) corrupted =
        some ((m.pkts.set b packet).set b (corrupted packet)) :=
      Heap.modify_some (Function.update_self ..) _
    obtain ⟨m',l',he,hs⟩ := hcount.depart clock AorB.other (corrupted packet)
      ((m.pkts.set b packet).set b (corrupted packet))
      (m.timers.set d packet.acknum) _ _ _ (m.mallocs+1+1+1) ha hb (Function.update_self ..)
      (fun x hx => (Function.update_of_ne hx _ _).trans (Function.update_of_ne hx _ _))
      fun _ _ hx => keeps_fresh hd hx
    refine .some ?_ ⟨l',hs⟩
    simp only [hdamage,Option.bind_some]
    exact he

theorem Shows.call (h : Shows busy l m s) (hpttn : pttn ≠ []) (c : Call) :
    malloc.Yields (call malloc clock pttn m c) fun m' =>
      ∃ l', Shows busy l' m' (Rdt.call clock (channel pttn) s c) := by
  cases c with
  | tolayer3 AorB packet => exact h.tolayer3 malloc clock pttn hpttn AorB packet
  | tolayer5 d =>
    exact .some rfl ⟨l,h.list,h.owns,h.events,h.vars,h.time_,h.nsim,h.cp,h.handed,h.ntolayer3,
      h.nlost,h.ncorrupt⟩
  | starttimeR q => exact h.starttimeR malloc clock q
  | stoptimeR q =>
    obtain ⟨h',p,l',he,hs⟩ := h.stoptimeR q
    exact .some he ⟨l',hs⟩

/-- The calls of a student function. -/
theorem Shows.perform (h : Shows busy l m s) (hpttn : pttn ≠ []) (r : σ × List Call) :
    malloc.Yields (perform malloc clock pttn m r) fun m' =>
      ∃ l', Shows busy l' m' (Rdt.perform clock (channel pttn) s r) := by
  obtain ⟨v,cs⟩ := r
  have h0 : Shows busy l { m with vars := v } { s with vars := v } :=
    ⟨h.list,h.owns,h.events,rfl,h.time_,h.nsim,h.cp,h.handed,h.ntolayer3,h.nlost,h.ncorrupt⟩
  simp only [Program.perform,Rdt.perform]
  clear h
  generalize { m with vars := v } = m₀ at h0
  generalize { s with vars := v } = s₀ at h0
  induction cs generalizing m₀ s₀ l with
  | nil => exact .some rfl ⟨l,h0⟩
  | cons c cs ih =>
    rw [List.foldlM_cons]
    refine (h0.call malloc clock pttn hpttn c).bind ?_
    rintro m' ⟨l',hs⟩
    exact ih m' _ hs

end Calls

end Shows

end NetworkLab.Rdt.Program
