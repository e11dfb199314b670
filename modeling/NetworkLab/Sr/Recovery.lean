import NetworkLab.Sr.Acks
import NetworkLab.Rdt.Progress
set_option autoImplicit false

/-! When Selective Repeat recovers from losses, and when it is trapped. -/

namespace NetworkLab.Sr
open Rdt Machine

section Recovery
variable {T : Type} [LinearOrder T] {clock : Clock T} {W : Nat} {junk : Nat → Pkt}
variable {msgs : List Msg} {pattern : Nat → Fate} {s t : Sim T Vars}

/-- The simulator has nothing left to do, and all is delivered and acknowledged. -/
def Drained (msgs : List Msg) (s : Sim T Vars) : Prop :=
  s.evlist = [] ∧ s.taken = msgs.map Msg.data ∧
  s.vars.a.base = s.vars.a.nextseqnum ∧ s.vars.a.msgNum = 0

/-- The next event makes `A_output` exit: the window and the queue are full. -/
def Overflows (W : Nat) (s : Sim T Vars) : Prop :=
  (∃ e rest, s.evlist = e :: rest ∧ e.evtype = .fromLayer5) ∧
  s.vars.a.base + W ≤ s.vars.a.nextseqnum ∧ maxbufsize - 1 ≤ s.vars.a.msgNum

/-- All that holds of a state the simulator can reach. -/
structure Sound (clock : Clock T) (W : Nat) (msgs : List Msg) (s : Sim T Vars) : Prop where
  timely : Timely clock s
  supply : Supply msgs s
  inv : Inv W msgs.length s.net
  tally : Tally W msgs.length s.net
  clean : Clean msgs.length s.net

theorem Sound.step (h : Sound clock W msgs s) (hW : 0 < W) (hW8 : W ≤ 8)
    (hst : simStep clock (students W junk) msgs pattern s = some t)
    (hclean : Clean msgs.length t.net) : Sound clock W msgs t := by
  obtain ⟨htimely,hnet⟩ := h.timely.step hst
  have hsupply := h.supply.step hst
  have hN : t.net.given.length ≤ msgs.length := hsupply.given_le
  exact ⟨htimely,hsupply,h.inv.step hW hW8 hnet hN hclean,
    h.tally.step h.inv hW hW8 hnet hN hclean,hclean⟩

theorem sound_of_reaches (hW : 0 < W) (hW8 : W ≤ 8)
    (h : Reaches (simStep clock (students W junk) msgs pattern)
      (init clock (students W junk) msgs) s)
    (hclean : Clean msgs.length s.net) : Sound clock W msgs s := by
  refine invariant_while (Q := Clean msgs.length) (fun hst hc => hc.of_step hst) (fun hc => ?_)
    (fun hst hc hs => hs.step hW hW8 hst hc) h hclean
  obtain ⟨htimely,hnet⟩ := timely_init clock (students W junk) msgs
  refine ⟨htimely,supply_init,?_,?_,hc⟩
  · rw [hnet]
    exact inv_init W _ junk
  · rw [hnet]
    exact tally_init W _ junk

/-- Over an intact channel nothing more is corrupted and no acknowledgement is lost. -/
theorem intact_step (h : Timely clock s)
    (hst : simStep clock (students W junk) msgs intact s = some t) :
    (Clean msgs.length s.net → Clean msgs.length t.net) ∧
    ∀ k, lostAcks t.handed k = lostAcks s.handed k := by
  obtain ⟨⟨cp,cs,hhanded⟩,-⟩ := Net.step_handed (h.step hst).2
  change t.handed = s.handed ++ fated intact cp cs at hhanded
  constructor
  · refine Or.imp_right fun hn e p hp => ?_
    change (e,p,Fate.corrupt) ∈ t.handed at hp
    rw [hhanded,List.mem_append] at hp
    rcases hp with hp | hp
    · exact hn e p hp
    · cases fated_const hp
  · intro k
    rw [hhanded,lostAcks_append]
    have hzero : lostAcks (fated intact cp cs) k = 0 :=
      List.countP_eq_zero.mpr fun x hx => by simp [fated_const hx]
    rw [hzero,Nat.add_zero]

/-- A state from which the run goes on without an exit, and in which no packet has lost
both its acknowledgements. -/
structure Live (clock : Clock T) (W : Nat) (junk : Nat → Pkt) (msgs : List Msg)
    (s : Sim T Vars) : Prop extends Sound clock W msgs s where
  lost : ∀ k < msgs.length, lostAcks s.handed k ≤ 1
  stays : ∀ t, Reaches (simStep clock (students W junk) msgs intact) s t → ¬Overflows W t
  passes : Passing clock (students W junk) msgs s

theorem Live.step (h : Live clock W junk msgs s) (hW : 0 < W) (hW8 : W ≤ 8)
    (hst : simStep clock (students W junk) msgs intact s = some t) :
    Live clock W junk msgs t := by
  obtain ⟨hclean,hlost⟩ := intact_step h.timely hst
  refine ⟨h.toSound.step hW hW8 hst (hclean h.clean),fun k hk => ?_,fun u hu => ?_,
    h.passes.step hst⟩
  · rw [hlost]
    exact h.lost k hk
  · exact h.stays u ((Reaches.single hst).trans hu)

/-- How much is left to be given and to be acknowledged. -/
def rank (msgs : List Msg) (s : Sim T Vars) : Nat :=
  (msgs.length - s.given.length) + (msgs.length - s.vars.a.base)

/-- Nothing moved: the window and the number of messages are as before. -/
def Same (s t : Sim T Vars) : Prop :=
  t.vars.a.base = s.vars.a.base ∧ t.given = s.given ∧
  s.vars.a.nextseqnum ≤ t.vars.a.nextseqnum

theorem Sound.base_le_given (h : Sound clock W msgs s) :
    s.vars.a.base ≤ s.given.length ∧ s.given.length ≤ msgs.length := by
  have h₁ := h.inv.sender.ring.base_le
  have h₂ := h.inv.next_le
  exact ⟨h₁.trans h₂,h.supply.given_le⟩

/-- `A_output` takes the message unless the window and the queue are full. -/
theorem aOutput_isSome {m : Msg} {v : AVars}
    (h : ¬(v.base + W ≤ v.nextseqnum ∧ maxbufsize - 1 ≤ v.msgNum)) :
    ∃ r, aOutput W m v = some r := by
  unfold aOutput
  split
  · exact ⟨_,rfl⟩
  · split
    · exact ⟨_,rfl⟩
    · omega

/-- B answers a packet with one acknowledgement at most. -/
theorem bInput_calls {N : Nat} {v : Net Vars} (h : Inv W N v) (hW : 0 < W) (hW8 : W ≤ 8)
    {p : Pkt} (hp : p ∈ v.toB) :
    (bInput W p v.vars.b).2 = [] ∨ ∃ (a : Int) (ds : List Payload),
      (bInput W p v.vars.b).2 = .tolayer3 .B (ackPkt a) :: ds.map Call.tolayer5 := by
  rcases h.recvB_cases hW hW8 hp with
    ⟨-,hr⟩ | ⟨-,-,hr⟩ | ⟨k,-,-,⟨-,hr⟩ | ⟨-,hr⟩⟩
  · exact Or.inl (by rw [hr])
  · exact Or.inr ⟨999999,[],by rw [hr]; rfl⟩
  · exact Or.inl (by rw [hr])
  · exact Or.inr ⟨k,_,hr.calls⟩

theorem sum_answer (cost : Call → Nat) (hB : ∀ p, cost (.tolayer3 .B p) = 1)
    (h5 : ∀ d, cost (.tolayer5 d) = 0) {cs : List Call}
    (hcs : cs = [] ∨ ∃ (a : Int) (ds : List Payload),
      cs = .tolayer3 .B (ackPkt a) :: ds.map Call.tolayer5) : (cs.map cost).sum ≤ 1 := by
  rcases hcs with rfl | ⟨a,ds,rfl⟩
  · exact Nat.zero_le _
  · have hzero : ((ds.map Call.tolayer5).map cost).sum = 0 := by
      induction ds with
      | nil => rfl
      | cons d ds ih => simpa [h5] using ih
    rw [List.map_cons,List.sum_cons,hzero,hB]

/-- What a round does that is no progress. `x` is any later event but the timer of
another packet than the first of the window. -/
def Idle (clock : Clock T) (W : Nat) (s : Sim T Vars) (e : Event T)
    (rest : List (Event T)) (t : Sim T Vars) : Prop :=
  Same s t ∧ e.evtype ≠ .fromLayer5 ∧ ∃ r,
    t = perform clock intact { s with evlist := rest, time_ := e.evtime } r ∧
    ∀ x : Event T, clock.Passes x.evtime → e.evtime ≤ x.evtime →
      (∀ k : Nat, k ≠ s.vars.a.base → isTimer k x = false) → Quiet clock W x e r.2

section Rounds
variable {e : Event T} {rest : List (Event T)}

theorem Live.arrival_round (h : Live clock W junk msgs s) (hl : s.evlist = e :: rest)
    (hty : e.evtype = .fromLayer5) :
    ∃ t, simStep clock (students W junk) msgs intact s = some t ∧
      rank msgs t < rank msgs s := by
  have hno := h.stays s (Reaches.refl s)
  have hopen : ¬(s.vars.a.base + W ≤ s.vars.a.nextseqnum ∧
      maxbufsize - 1 ≤ s.vars.a.msgNum) := fun hc => hno ⟨⟨e,rest,hl,hty⟩,hc.1,hc.2⟩
  obtain ⟨r,hr⟩ := aOutput_isSome (m := msgs.getD s.given.length default) hopen
  obtain ⟨-,-,hbase⟩ := Sender.aOutput (v := s.vars.a) h.inv.sender hr
  have hst := simStep_arrival clock (students W junk) msgs intact hl hty
  simp only [students,hr,Option.map_some] at hst
  refine ⟨_,hst,?_⟩
  have hsupply := (h.supply.step hst).given_le
  have hgiven := (perform_frame clock intact
    { generateNextArrival clock msgs { s with evlist := rest, time_ := e.evtime } with
      given := s.given ++ [msgs.getD s.given.length default] } (⟨r.1,s.vars.b⟩,r.2)).2.2
  rw [hgiven] at hsupply
  simp only [List.length_append,List.length_singleton] at hsupply
  unfold rank
  rw [hgiven,perform_vars]
  simp only [List.length_append,List.length_singleton,hbase]
  omega

theorem perform_same (r : AVars × List Call) (hb : r.1.base = s.vars.a.base)
    (hn : s.vars.a.nextseqnum ≤ r.1.nextseqnum) (b : BVars) :
    Same s (perform clock intact { s with evlist := rest, time_ := e.evtime }
      (⟨r.1,b⟩,r.2)) := by
  obtain ⟨-,-,hgiven⟩ := perform_frame clock intact
    { s with evlist := rest, time_ := e.evtime } ((⟨r.1,b⟩,r.2) : Vars × List Call)
  unfold Same
  rw [perform_vars,hgiven]
  exact ⟨hb,rfl,hn⟩

/-- An acknowledgement of the first packet of the window moves the window. -/
theorem Live.ack_round (h : Live clock W junk msgs s) (hl : s.evlist = e :: rest) {p : Pkt}
    (hty : e.evtype = .fromLayer3 .A p) :
    ∃ t, simStep clock (students W junk) msgs intact s = some t ∧
      (rank msgs t < rank msgs s ∨ Idle clock W s e rest t ∧
        ¬(p = ackPkt s.vars.a.base ∧ s.vars.a.base < s.vars.a.nextseqnum)) := by
  have hst := simStep_packetA clock (students W junk) msgs intact hl hty
  have hnot5 : e.evtype ≠ .fromLayer5 := by simp [hty]
  refine ⟨_,hst,?_⟩
  simp only [students]
  rcases aInput_cases h.inv.sender p with ⟨hnot,he⟩ | ⟨k,-,hpk,hu,he⟩
  · change aInput W p s.vars.a = _ at he
    rw [he]
    refine Or.inr ⟨⟨perform_same (s.vars.a,[]) rfl (Nat.le_refl _) _,hnot5,_,rfl,
      fun x hx hle _ => quiet_nothing hx hle hnot5⟩,?_⟩
    rintro ⟨rfl,hlt⟩
    exact hnot _ (checkCorrupted_ackPkt _) rfl (h.inv.sender.head hlt)
  · change aInput W p s.vars.a = acceptAck W k s.vars.a at he
    rw [he]
    obtain ⟨-,hs⟩ := h.inv.sender.acceptAck hu
    have hle := h.base_le_given
    rcases h.inv.sender.acceptAck_cases hu with hlt | ⟨hbase,hne,hcalls⟩
    · left
      obtain ⟨-,-,hgiven⟩ := perform_frame clock intact
        { s with evlist := rest, time_ := e.evtime }
        ((⟨(acceptAck W k s.vars.a).1,s.vars.b⟩,(acceptAck W k s.vars.a).2) : Vars × List Call)
      have hnext : s.vars.a.nextseqnum ≤ s.given.length := h.inv.next_le
      have h₁ : s.vars.a.base ≤ k := hu.1
      have h₂ : k < s.vars.a.nextseqnum := hu.2.1
      change s.vars.a.base < (acceptAck W k s.vars.a).1.base at hlt
      unfold rank
      rw [perform_vars,hgiven]
      simp only
      omega
    · refine Or.inr ⟨⟨perform_same (acceptAck W k s.vars.a) hbase hs.next_le _,hnot5,_,rfl,
        fun x _ _ htimer => ⟨?_,?_⟩⟩,?_⟩
      · change ((acceptAck W k s.vars.a).2.map _).sum < _
        change (acceptAck W k s.vars.a).2 = _ at hcalls
        rw [hcalls]
        simp [callCost,eventCost,hty]
      · intro q hq
        change Call.stoptimeR q ∈ (acceptAck W k s.vars.a).2 at hq
        change (acceptAck W k s.vars.a).2 = _ at hcalls
        rw [hcalls] at hq
        obtain rfl : q = k := by simpa using hq
        exact htimer k hne
      · rintro ⟨rfl,-⟩
        rw [ackPkt_acknum] at hpk
        exact hne (Int.ofNat.inj hpk).symm

/-- B takes a packet in: A is not concerned, and a packet that is not in its slot is
acknowledged. -/
theorem Live.data_round (h : Live clock W junk msgs s) (hW : 0 < W) (hW8 : W ≤ 8)
    (hl : s.evlist = e :: rest) {p : Pkt} (hty : e.evtype = .fromLayer3 .B p) :
    ∃ t, simStep clock (students W junk) msgs intact s = some t ∧ Idle clock W s e rest t ∧
      ∀ k : Nat, p = sentPkt s.given k → ¬Marked W s.vars.b k → ackPkt k ∈ t.net.toA := by
  have hst := simStep_packetB clock (students W junk) msgs intact hl hty
  have hnot5 : e.evtype ≠ .fromLayer5 := by simp [hty]
  have hmem : p ∈ s.net.toB :=
    List.mem_filterMap.mpr ⟨e,by simp [hl],by simp [packetTo,hty]⟩
  refine ⟨_,hst,?_⟩
  have hadv := (h.timely.advance hl).perform intact
    ((students W junk).bInput p s.vars)
  have hA := (Net.perform_eq intact (Sim.net { s with evlist := rest, time_ := e.evtime })
    ((students W junk).bInput p s.vars)).2.2.2.2.2.2
  rw [← hadv.2.1] at hA
  have hcalls : (bInput W p s.vars.b).2 = [] ∨ ∃ (a : Int) (ds : List Payload),
      (bInput W p s.vars.b).2 = .tolayer3 .B (ackPkt a) :: ds.map Call.tolayer5 :=
    bInput_calls h.inv hW hW8 hmem
  refine ⟨⟨perform_same (s.vars.a,_) rfl (Nat.le_refl _) _,hnot5,_,rfl,fun x _ _ _ => ?_⟩,?_⟩
  · refine quiet_ack hty (sum_answer _ (fun _ => rfl) (fun _ => rfl) hcalls) fun q hq => ?_
    change Call.stoptimeR q ∈ (bInput W p s.vars.b).2 at hq
    rcases hcalls with hnil | ⟨a,ds,hcons⟩
    · rw [hnil] at hq
      cases hq
    · rw [hcons] at hq
      simp at hq
  · rintro k rfl hnm
    rcases h.inv.recvB_cases hW hW8 hmem with
      ⟨hf,-⟩ | ⟨hf,-⟩ | ⟨i,-,hpi,⟨hm,-⟩ | ⟨-,hr⟩⟩
    · have := hf.1
      simp at this
    · have := hf.1
      simp at this
    · have hki : k = i := Int.ofNat.inj (congrArg Pkt.seqnum hpi)
      exact absurd hm (hki ▸ hnm)
    · have hki : k = i := Int.ofNat.inj (congrArg Pkt.seqnum hpi)
      have hc := hr.calls
      change (bInput W (sentPkt s.given k) s.vars.b).2 = _ at hc
      rw [hA,← hki] at *
      refine List.mem_append_right _ ?_
      change _ ∈ arriving .B (fated intact _ (bInput W (sentPkt s.given k) s.vars.b).2)
      rw [hc]
      simp [fated,arriving,intact,Fate.apply]

/-- A timer goes off: its packet is on its way again. -/
theorem Live.timer_round (h : Live clock W junk msgs s) (hW : 0 < W)
    (hl : s.evlist = e :: rest) {q : Int} (hty : e.evtype = .timeRInterrupt q) :
    ∃ t, simStep clock (students W junk) msgs intact s = some t ∧ Idle clock W s e rest t ∧
      ∃ k : Nat, q = k ∧ sentPkt s.given k ∈ t.net.toB := by
  have hst := simStep_timer clock (students W junk) msgs intact hl hty
  have hnot5 : e.evtype ≠ .fromLayer5 := by simp [hty]
  have htimers : s.net.timers = [] ++ q :: rest.filterMap timerOf := by
    simp [Sim.net,hl,timerOf,hty]
  obtain ⟨k,rfl,hu,he,-⟩ := h.inv.sender.fire htimers
  change aPacketTimeRinterrupt W k s.vars.a =
    (s.vars.a,[.tolayer3 .A (sentPkt s.given k),.starttimeR k]) at he
  have hr : (students W junk).aPacketTimeRinterrupt k s.vars =
      (s.vars,[.tolayer3 .A (sentPkt s.given k),.starttimeR k]) := by
    simp [students,he]
  rw [hr] at hst
  refine ⟨_,hst,⟨perform_same (s.vars.a,_) rfl (Nat.le_refl _) s.vars.b,hnot5,_,rfl,
    fun x hx hle _ => ?_⟩,k,rfl,?_⟩
  · exact quiet_timeout hx hty hle [sentPkt s.given k] hW
  · have hadv := (h.timely.advance hl).perform intact
      ((s.vars,[.tolayer3 .A (sentPkt s.given k),.starttimeR k]) : Vars × List Call)
    rw [hadv.2.1,(Net.perform_eq intact _ _).2.2.2.2.2.1]
    simp [fated,arriving,intact,Fate.apply]

/-- One round over an intact channel makes progress, or costs less than its event was
worth. -/
theorem Live.round (h : Live clock W junk msgs s) (hW : 0 < W) (hW8 : W ≤ 8)
    (hl : s.evlist = e :: rest) :
    ∃ t, simStep clock (students W junk) msgs intact s = some t ∧
      (rank msgs t < rank msgs s ∨ Idle clock W s e rest t) := by
  cases hty : e.evtype with
  | fromLayer5 =>
    obtain ⟨t,hst,hlt⟩ := h.arrival_round hl hty
    exact ⟨t,hst,Or.inl hlt⟩
  | fromLayer3 d p =>
    cases d with
    | A =>
      obtain ⟨t,hst,hcase⟩ := h.ack_round hl hty
      exact ⟨t,hst,hcase.imp_right And.left⟩
    | B =>
      obtain ⟨t,hst,hidle,-⟩ := h.data_round hW hW8 hl hty
      exact ⟨t,hst,Or.inr hidle⟩
  | timeRInterrupt q =>
    obtain ⟨t,hst,hidle,-⟩ := h.timer_round hW hl hty
    exact ⟨t,hst,Or.inr hidle⟩

end Rounds

/-- The window still begins at `b`, no message was given after `g`, and at least `n`
packets have been sent. -/
def Waits (clock : Clock T) (W : Nat) (junk : Nat → Pkt) (msgs : List Msg) (b : Nat)
    (g : List Msg) (n : Nat) (s : Sim T Vars) : Prop :=
  Live clock W junk msgs s ∧ s.vars.a.base = b ∧ s.given = g ∧ n ≤ s.vars.a.nextseqnum

/-- Progress beyond that: a message was given or the window moved. -/
def Moved (clock : Clock T) (W : Nat) (junk : Nat → Pkt) (msgs : List Msg) (b : Nat)
    (g : List Msg) (s : Sim T Vars) : Prop :=
  Live clock W junk msgs s ∧ rank msgs s < (msgs.length - g.length) + (msgs.length - b)

section LeadsTo
variable {b n : Nat} {g : List Msg}

theorem Waits.of_idle (h : Waits clock W junk msgs b g n s) (ht : Live clock W junk msgs t)
    (hs : Same s t) : Waits clock W junk msgs b g n t :=
  ⟨ht,hs.1.trans h.2.1,hs.2.1.trans h.2.2.1,h.2.2.2.trans hs.2.2⟩

theorem Waits.moved (h : Waits clock W junk msgs b g n s) (ht : Live clock W junk msgs t)
    (hlt : rank msgs t < rank msgs s) : Moved clock W junk msgs b g t := by
  obtain ⟨-,hb,hg,-⟩ := h
  unfold rank at hlt
  rw [hb,hg] at hlt
  exact ⟨ht,hlt⟩

/-- While the window waits, every event has its turn, the first packet's timer included. -/
theorem Waits.turn (h : Waits clock W junk msgs b g n s) (hW : 0 < W) (hW8 : W ≤ 8)
    {x : Event T} (hx : x ∈ s.evlist) (htimer : ∀ k : Nat, k ≠ b → isTimer k x = false) :
    Eventually (simStep clock (students W junk) msgs intact)
      (fun t => Moved clock W junk msgs b g t ∨
        Waits clock W junk msgs b g n t ∧ ∃ rest, t.evlist = x :: rest) s := by
  have hpass : clock.Passes x.evtime := h.1.passes s (Reaches.refl s) x hx
  refine eventually_turn (W := W) (I := Waits clock W junk msgs b g n)
    (fun s hs => hs.1.timely) ?_ h hx
  intro s e rest hs hl hne hmem
  obtain ⟨t,hst,hcase⟩ := hs.1.round hW hW8 hl
  have ht := hs.1.step hW hW8 hst
  have hle : e.evtime ≤ x.evtime :=
    (List.pairwise_cons.mp (hl ▸ hs.1.timely.ordered)).1 x hmem
  refine ⟨t,hst,?_⟩
  rcases hcase with hlt | ⟨hsame,-,r,hr,hquiet⟩
  · exact Or.inl (hs.moved ht hlt)
  · refine Or.inr ⟨hs.of_idle ht hsame,r,hr,hquiet x hpass hle ?_⟩
    rw [hs.2.1]
    exact htimer

omit [LinearOrder T] in
theorem not_timer_of_packet {x : Event T} {d : Entity} {p : Pkt}
    (h : x.evtype = .fromLayer3 d p) (q : Int) : isTimer q x = false := by
  simp [isTimer,h]

/-- The acknowledgement is on its way to A. -/
theorem Waits.of_ack (h : Waits clock W junk msgs b g (b+1) s) (hW : 0 < W) (hW8 : W ≤ 8)
    (hack : ackPkt b ∈ s.net.toA) :
    Eventually (simStep clock (students W junk) msgs intact) (Moved clock W junk msgs b g) s := by
  obtain ⟨x,hx,hty⟩ := mem_packetTo hack
  refine (h.turn hW hW8 hx fun k _ => not_timer_of_packet hty k).trans ?_
  rintro t (hm | ⟨ht,rest,hl⟩)
  · exact .now hm
  · obtain ⟨u,hst,hcase⟩ := ht.1.ack_round hl hty
    refine .later hst (.now (ht.moved (ht.1.step hW hW8 hst) ?_))
    refine hcase.resolve_right fun hidle => hidle.2 ⟨?_,?_⟩
    · rw [ht.2.1]
    · rw [ht.2.1]
      exact ht.2.2.2

/-- The first packet is on its way to B. -/
theorem Waits.of_data (h : Waits clock W junk msgs b g (b+1) s) (hW : 0 < W) (hW8 : W ≤ 8)
    (hdata : sentPkt g b ∈ s.net.toB) :
    Eventually (simStep clock (students W junk) msgs intact) (Moved clock W junk msgs b g) s := by
  obtain ⟨x,hx,hty⟩ := mem_packetTo hdata
  refine (h.turn hW hW8 hx fun k _ => not_timer_of_packet hty k).trans ?_
  rintro t (hm | ⟨ht,rest,hl⟩)
  · exact .now hm
  · have hlive := ht.1
    have hb := ht.2.1
    have hlt := ht.2.2.2
    have hnext : t.vars.a.nextseqnum ≤ t.given.length := hlive.inv.next_le
    have hlost := hlive.lost b (Nat.lt_of_lt_of_le hlt (hnext.trans hlive.supply.given_le))
    have hstart := hlive.tally.live hlive.inv
    change t.vars.a.base < t.vars.a.nextseqnum →
      lostAcks t.handed t.vars.a.base ≤ 1 → ackPkt t.vars.a.base ∈ t.net.toA ∨
        ¬Marked W t.vars.b t.vars.a.base at hstart
    rw [hb] at hstart
    rcases hstart hlt hlost with hack | hnm
    · exact ht.of_ack hW hW8 hack
    · obtain ⟨u,hst,hidle,hsend⟩ := hlive.data_round hW hW8 hl hty
      have hu := ht.of_idle (hlive.step hW hW8 hst) hidle.1
      refine .later hst (hu.of_ack hW hW8 (hsend b ?_ hnm))
      rw [ht.2.2.1]

/-- The window always moves on: its first packet is sent again until it is acknowledged. -/
theorem Waits.moves (h : Waits clock W junk msgs b g (b+1) s) (hW : 0 < W) (hW8 : W ≤ 8) :
    Eventually (simStep clock (students W junk) msgs intact) (Moved clock W junk msgs b g) s := by
  have hu : Unacked W s.vars.a b := by
    have := h.1.inv.sender.head
    change s.vars.a.base < s.vars.a.nextseqnum → Unacked W s.vars.a s.vars.a.base at this
    rw [h.2.1] at this
    exact this h.2.2.2
  have hmem : (b : Int) ∈ s.evlist.filterMap timerOf :=
    (h.1.inv.sender.timed.mem b).mpr ⟨b,rfl,hu⟩
  obtain ⟨x,hx,hxty⟩ := mem_timerOf hmem
  refine (h.turn hW hW8 hx fun k hk => ?_).trans ?_
  · simp only [isTimer,hxty,decide_eq_false_iff_not,EventType.timeRInterrupt.injEq]
    omega
  · rintro t (hm | ⟨ht,rest,hl⟩)
    · exact .now hm
    · obtain ⟨u,hst,hidle,k,hk,hdata⟩ := ht.1.timer_round hW hl hxty
      have hu := ht.of_idle (ht.1.step hW hW8 hst) hidle.1
      refine .later hst (hu.of_data hW hW8 ?_)
      rw [← ht.2.2.1,Int.ofNat.inj hk]
      exact hdata

end LeadsTo

/-- Every message that is still to come is given. -/
theorem Live.arrives (h : Live clock W junk msgs s) (hW : 0 < W) (hW8 : W ≤ 8)
    (hlt : s.given.length < msgs.length) :
    Eventually (simStep clock (students W junk) msgs intact)
      (Moved clock W junk msgs s.vars.a.base s.given) s := by
  obtain ⟨x,hx,hty⟩ := h.supply.arrival hlt
  have hw : Waits clock W junk msgs s.vars.a.base s.given 0 s := ⟨h,rfl,rfl,Nat.zero_le _⟩
  refine (hw.turn hW hW8 hx fun k _ => by simp [isTimer,hty]).trans ?_
  rintro t (hm | ⟨ht,rest,hl⟩)
  · exact .now hm
  · obtain ⟨u,hst,hlt⟩ := ht.1.arrival_round hl hty
    exact .later hst (.now (ht.moved (ht.1.step hW hW8 hst) hlt))

/-- With an empty event list A waits for nothing. -/
theorem Sound.drained_of_nil (h : Sound clock W msgs s) (hW : 0 < W) (hl : s.evlist = []) :
    Drained msgs s := by
  have htimers : s.net.timers = [] := by simp [Sim.net,hl]
  obtain ⟨htaken,hb,hm⟩ := h.inv.quiet hW htimers
  have hlen : ¬s.given.length < msgs.length := fun hlt => by
    obtain ⟨x,hx,-⟩ := h.supply.arrival hlt
    rw [hl] at hx
    cases hx
  have hg : s.given = msgs := by
    rw [h.supply.given]
    exact List.take_of_length_le (by omega)
  rw [← hg]
  exact ⟨hl,htaken,hb,hm⟩

/-- Everything is given and acknowledged; only packets nobody waits for may be left. -/
def Settled (clock : Clock T) (W : Nat) (junk : Nat → Pkt) (msgs : List Msg)
    (s : Sim T Vars) : Prop :=
  Live clock W junk msgs s ∧ s.given.length = msgs.length ∧
  s.vars.a.base = s.vars.a.nextseqnum

theorem Live.settles (h : Live clock W junk msgs s) (hW : 0 < W) (hW8 : W ≤ 8) :
    Eventually (simStep clock (students W junk) msgs intact) (Settled clock W junk msgs) s := by
  refine eventually_of_rank (I := Live clock W junk msgs) (rank msgs) (fun s hs => ?_) h
  have hle := hs.supply.given_le
  have hb : s.vars.a.base ≤ s.vars.a.nextseqnum := hs.inv.sender.ring.base_le
  rcases Nat.lt_or_eq_of_le hle with hlt | heq
  · exact (hs.arrives hW hW8 hlt).mono fun _ => Or.inr
  · rcases Nat.lt_or_eq_of_le hb with hlt | hbn
    · have hw : Waits clock W junk msgs s.vars.a.base s.given (s.vars.a.base+1) s :=
        ⟨hs,rfl,rfl,hlt⟩
      exact (hw.moves hW hW8).mono fun _ => Or.inr
    · exact .now (Or.inl ⟨hs,heq,hbn⟩)

/-- When A waits for nothing, what is left in the event list dies out. -/
theorem Settled.drains (h : Settled clock W junk msgs s) (hW : 0 < W) (hW8 : W ≤ 8) :
    Eventually (simStep clock (students W junk) msgs intact)
      (fun t => Settled clock W junk msgs t ∧ t.evlist = []) s := by
  refine Eventually.mono (P := fun t => False ∨ Settled clock W junk msgs t ∧ t.evlist = [])
    (fun _ hu => hu.resolve_left id) (eventually_empty ?_ h)
  rintro s e rest ⟨hs,hg,hb⟩ hl
  have hnone : ∀ k, ¬Unacked W s.vars.a k := by
    intro k hu
    have := hu.1
    have := hu.2.1
    omega
  have hkeep : ∀ r : AVars × List Call, ∀ b : BVars, r.1 = s.vars.a →
      simStep clock (students W junk) msgs intact s = some (perform clock intact
        { s with evlist := rest, time_ := e.evtime } (⟨r.1,b⟩,r.2)) →
      (r.2.map adds).sum < remains e →
      ∃ t, simStep clock (students W junk) msgs intact s = some t ∧
        (False ∨ Settled clock W junk msgs t ∧ ∃ r : Vars × List Call,
          t = perform clock intact { s with evlist := rest, time_ := e.evtime } r ∧
          (r.2.map adds).sum < remains e) := by
    intro r b hr hst hadds
    obtain ⟨-,-,hgiven⟩ := perform_frame clock intact
      { s with evlist := rest, time_ := e.evtime } ((⟨r.1,b⟩,r.2) : Vars × List Call)
    refine ⟨_,hst,Or.inr ⟨⟨hs.step hW hW8 hst,?_,?_⟩,_,rfl,hadds⟩⟩
    · rw [hgiven]
      exact hg
    · rw [perform_vars]
      simp only [hr]
      exact hb
  cases hty : e.evtype with
  | fromLayer5 =>
    -- all messages have been given
    have hn := hs.supply.nsim
    have hle := hs.supply.nsim_le
    rw [hl,List.filterMap_cons_some (by simp [arrivalOf,hty] : arrivalOf e = some ())] at hn
    simp only [List.length_cons] at hn
    omega
  | fromLayer3 d p =>
    cases d with
    | A =>
      have hst := simStep_packetA clock (students W junk) msgs intact hl hty
      rcases aInput_cases hs.inv.sender p with ⟨-,he⟩ | ⟨k,-,-,hu,-⟩
      · change aInput W p s.vars.a = _ at he
        simp only [students,he] at hst
        exact hkeep (s.vars.a,[]) s.vars.b rfl hst (remains_pos e)
      · exact absurd hu (hnone k)
    | B =>
      have hst := simStep_packetB clock (students W junk) msgs intact hl hty
      have hmem : p ∈ s.net.toB :=
        List.mem_filterMap.mpr ⟨e,by simp [hl],by simp [packetTo,hty]⟩
      have hsum := sum_answer adds (fun _ => rfl) (fun _ => rfl)
        (bInput_calls hs.inv hW hW8 hmem)
      refine hkeep (s.vars.a,_) _ rfl hst (Nat.lt_of_le_of_lt hsum ?_)
      simp [remains,hty]
  | timeRInterrupt q =>
    have htimers : q ∈ s.net.timers := List.mem_filterMap.mpr ⟨e,by simp [hl],by simp [timerOf,hty]⟩
    obtain ⟨k,-,hu⟩ := (hs.inv.sender.timed.mem q).mp htimers
    exact absurd hu (hnone k)

theorem Live.drains (h : Live clock W junk msgs s) (hW : 0 < W) (hW8 : W ≤ 8) :
    Eventually (simStep clock (students W junk) msgs intact) (Drained msgs) s :=
  (h.settles hW hW8).trans fun _ ht =>
    (ht.drains hW hW8).mono fun _ hu => hu.1.1.drained_of_nil hW hu.2

/-- A packet that has lost two acknowledgements is never acknowledged again, and an
exit is not a drained state. -/
theorem Sound.live_of_drains (h : Sound clock W msgs s) (hW : 0 < W) (hW8 : W ≤ 8)
    (hd : Eventually (simStep clock (students W junk) msgs intact) (Drained msgs) s) :
    (∀ k < msgs.length, lostAcks s.handed k ≤ 1) ∧
    ∀ t, Reaches (simStep clock (students W junk) msgs intact) s t → ¬Overflows W t := by
  constructor
  · intro k hk
    have hinv := hd.with_invariant (I := fun t => Sound clock W msgs t ∧
        lostAcks t.handed k = lostAcks s.handed k) ?_ ⟨h,rfl⟩
    · obtain ⟨t,-,⟨hnil,htaken,hb,hm⟩,hsound,hlost⟩ := eventually_iff_reaches.mp hinv
      rw [← hlost]
      have hlen : s.given.length ≤ msgs.length := h.supply.given_le
      have hnext : k < t.vars.a.nextseqnum := by
        have hc := hsound.inv.sender.queue.count
        change t.vars.a.nextseqnum + t.vars.a.msgNum = t.given.length at hc
        have hall : ¬t.given.length < msgs.length := fun hlt => by
          obtain ⟨x,hx,-⟩ := hsound.supply.arrival hlt
          rw [hnil] at hx
          cases hx
        omega
      refine hsound.tally.lost_le hk hnext fun hu => ?_
      have h₁ : t.vars.a.base ≤ k := hu.1
      omega
    · rintro a b hst ⟨ha,hlost⟩
      obtain ⟨hclean,hsame⟩ := intact_step ha.timely hst
      exact ⟨ha.step hW hW8 hst (hclean ha.clean),(hsame k).trans hlost⟩
  · rintro t hr ⟨⟨e,rest,hl,hty⟩,hfull,hbuf⟩
    have hstop : ∀ u : Sim T Vars, Drained msgs u →
        simStep clock (students W junk) msgs intact u = none := by
      intro u hu
      simp [simStep,hu.1]
    have hnone : simStep clock (students W junk) msgs intact t = none := by
      rw [simStep_arrival _ _ _ _ hl hty]
      have hlt : ¬t.vars.a.nextseqnum < t.vars.a.base + W := by omega
      have hbuf' : ¬t.vars.a.msgNum < maxbufsize - 1 := by omega
      simp [students,aOutput,hlt,hbuf']
    cases hd.of_prefix hstop hr with
    | now hdr =>
      rw [hdr.1] at hl
      cases hl
    | later hst _ => simp [hnone] at hst

/-- A message that comes while fewer than a window and a queue of them have come is taken. -/
theorem Sound.not_overflows (h : Sound clock W msgs s) (hN : msgs.length < W + maxbufsize) :
    ¬Overflows W s := by
  rintro ⟨⟨e,rest,hl,hty⟩,hfull,hbuf⟩
  have hcount : s.vars.a.nextseqnum + s.vars.a.msgNum = s.given.length :=
    h.inv.sender.queue.count
  have hn := h.supply.nsim
  have hle := h.supply.nsim_le
  rw [hl,List.filterMap_cons_some (by simp [arrivalOf,hty] : arrivalOf e = some ())] at hn
  simp only [List.length_cons] at hn
  unfold maxbufsize at hN hbuf
  omega

theorem Sound.of_reaches_intact (h : Sound clock W msgs s) (hW : 0 < W) (hW8 : W ≤ 8)
    (hr : Reaches (simStep clock (students W junk) msgs intact) s t) : Sound clock W msgs t :=
  hr.invariant (fun _ _ hst ha => ha.step hW hW8 hst ((intact_step ha.timely hst).1 ha.clean)) h

/-- From any state the simulator can reach, an intact channel brings the run to its
end with everything delivered and acknowledged, exactly when no packet has lost both
acknowledgements that B sends for it and the run does not exit on a full queue. The clock
has to run on, and no corrupted packet may pass for another one. -/
theorem selectiveRepeat_recovers (clock : Clock T) (W : Nat) (junk : Nat → Pkt)
    (msgs : List Msg) (pattern : Nat → Fate) (s : Sim T Vars) (hW : 1 ≤ W) (hW8 : W ≤ 8)
    (h : Reaches (simStep clock (students W junk) msgs pattern)
      (init clock (students W junk) msgs) s)
    (hclean : Clean msgs.length s.net) (hpass : Passing clock (students W junk) msgs s) :
    Eventually (simStep clock (students W junk) msgs intact) (Drained msgs) s ↔
      (∀ k < msgs.length, lostAcks s.handed k ≤ 1) ∧
      ∀ t, Reaches (simStep clock (students W junk) msgs intact) s t → ¬Overflows W t := by
  have hs := sound_of_reaches hW hW8 h hclean
  exact ⟨hs.live_of_drains hW hW8,fun hc => Live.drains ⟨hs,hc.1,hc.2,hpass⟩ hW hW8⟩

end Recovery

/-- The second and the fourth packet handed to layer 3 are lost: with one message over a
window of one, these are both acknowledgements. -/
def twoAcksLost (n : Nat) : Fate := if n = 1 ∨ n = 3 then .lost else .ok

/-- The run of one message over that channel, at one message every time unit. -/
def sampleSim (n : Nat) : Option (Sim ℚ Vars) :=
  run (simStep unitClock (students 1 default) [default] twoAcksLost) n
    (init unitClock (students 1 default) [default])

theorem sampleSim_lost : (sampleSim 4).map (fun s => lostAcks s.handed 0) = some 2 := by
  decide +kernel

theorem not_selectiveRepeat_always_recovers :
    ¬∀ (W : Nat) (junk : Nat → Pkt) (msgs : List Msg) (pattern : Nat → Fate) (s : Sim ℚ Vars),
      1 ≤ W → W ≤ 8 →
      Reaches (simStep (exactClock 1 (by decide)) (students W junk) msgs pattern)
        (init (exactClock 1 (by decide)) (students W junk) msgs) s →
      Eventually (simStep (exactClock 1 (by decide)) (students W junk) msgs intact)
        (Drained msgs) s := by
  intro h
  obtain ⟨s,hs,hlost⟩ := Option.map_eq_some_iff.mp sampleSim_lost
  have hr : Reaches (simStep (exactClock 1 (by decide)) (students 1 default) [default]
      twoAcksLost) (init (exactClock 1 (by decide)) (students 1 default) [default]) s := ⟨4,hs⟩
  have hsound := sound_of_reaches (by decide) (by decide) hr (Or.inl (by decide))
  have hle := (hsound.live_of_drains (by decide) (by decide)
    (h 1 default [default] twoAcksLost s (by decide) (by decide) hr)).1 0 (by decide)
  omega

/-- Of two messages over a window of two, the first data packet and the acknowledgement of
the second one are lost. -/
def dataAndAckLost (n : Nat) : Fate := if n = 0 ∨ n = 2 then .lost else .ok

def lossySim (n : Nat) : Option (Sim ℚ Vars) :=
  run (simStep unitClock (students 2 default) sampleMsgs dataAndAckLost) n
    (init unitClock (students 2 default) sampleMsgs)

/-- Behind both losses B holds packet 1 and A has heard of nothing. -/
theorem lossySim_lost : (lossySim 3).map (fun s =>
    (s.vars.a.base,s.taken.length,s.handed.map fun h => h.2.2,lostAcks s.handed 0,
      lostAcks s.handed 1)) = some (0,0,[.lost,.ok,.lost],0,1) := by
  decide +kernel

theorem selectiveRepeat_recovers_lossySim : ∃ s, lossySim 3 = some s ∧
    s.handed.map (fun h => h.2.2) = [.lost,.ok,.lost] ∧
    Eventually (simStep (exactClock 1 (by decide)) (students 2 default) sampleMsgs intact)
      (Drained sampleMsgs) s := by
  obtain ⟨s,hs,hlost⟩ := Option.map_eq_some_iff.mp lossySim_lost
  simp only [Prod.mk.injEq] at hlost
  obtain ⟨-,-,hfates,hlost₀,hlost₁⟩ := hlost
  have hr : Reaches (simStep (exactClock 1 (by decide)) (students 2 default) sampleMsgs
      dataAndAckLost) (init (exactClock 1 (by decide)) (students 2 default) sampleMsgs) s := ⟨3,hs⟩
  have hclean : Clean sampleMsgs.length s.net := Or.inl (by decide)
  have hsound := sound_of_reaches (by decide) (by decide) hr hclean
  refine ⟨s,hs,hfates,(selectiveRepeat_recovers (exactClock 1 (by decide)) 2 default sampleMsgs
    dataAndAckLost s (by decide) (by decide) hr hclean
    fun _ _ x _ => exactClock_passes 1 (by decide) x.evtime).mpr ⟨fun k hk => ?_,fun t ht => ?_⟩⟩
  · have hk : k = 0 ∨ k = 1 := by
      change k < 2 at hk
      omega
    rcases hk with rfl | rfl <;> omega
  · exact (hsound.of_reaches_intact (by decide) (by decide) ht).not_overflows (by decide)

end NetworkLab.Sr
