import NetworkLab.Gbn.Timer
import NetworkLab.Rdt.Progress
set_option autoImplicit false

/-! When Go-Back-N recovers from losses, and when it is trapped or stops early. -/

namespace NetworkLab.Gbn
open Rdt Machine

/-- A corrupted packet is noticed, or its number is one that no packet has. -/
def Clean (N : Nat) (s : Net Vars) : Prop :=
  N < 999999 ∨ s.Noisy fun p => checkCorrupted p = true

section Recovery
variable {T : Type} [LinearOrder T] {clock : Clock T} {W : Nat} {junk : Nat → Pkt}
variable {msgs : List Msg} {pattern : Nat → Fate} {s t : Sim T Vars}

/-- The simulator has nothing left to do, and B has passed up every message. -/
def Drained (msgs : List Msg) (s : Sim T Vars) : Prop :=
  s.evlist = [] ∧ s.taken = msgs.map Msg.data

/-- The next event makes `A_output` overwrite a message that waits in the buffer. -/
def Loses (W : Nat) (msgs : List Msg) (s : Sim T Vars) : Prop :=
  (∃ e rest, s.evlist = e :: rest ∧ e.evtype = .fromLayer5) ∧
  Overwrites W (msgs.getD s.given.length default) s.vars

/-- All messages are given and B waits for the first packet of the window. No copy of it
is on its way, and no timeout will send one: the timer does not run, or the slots that
are sent again do not hold that packet. -/
structure Trap (W : Nat) (msgs : List Msg) (s : Sim T Vars) : Prop where
  given : s.given.length = msgs.length
  waits : s.vars.expectedSeqnum = s.vars.base
  unacked : s.vars.base < s.vars.nextseqnum
  gone : ∀ p ∈ s.net.toB, checkCorrupted p = false → p.seqnum ≠ s.vars.base
  never : (s.vars.base : Int) ∉ s.net.timers ∨ ∀ i < s.vars.nextseqnum - s.vars.base,
    (s.vars.winbuf ((s.vars.winfront + i) % W)).seqnum ≠ s.vars.base

/-- All that holds of a state the simulator can reach. -/
structure Sound (clock : Clock T) (W : Nat) (msgs : List Msg) (s : Sim T Vars) : Prop where
  timely : Timely clock s
  supply : Supply msgs s
  sourced : s.net.Sourced
  safe : Safe W s.net.soup
  sending : Sending W s.net.soup
  clean : Clean msgs.length s.net
  narrow : W = 1 → s.vars.base = 0

/-- Only an arrival gives a message. -/
theorem given_of_step (hst : simStep clock (students W junk) msgs pattern s = some t) :
    (∃ e rest, s.evlist = e :: rest ∧ e.evtype = .fromLayer5) ∧
      t.given = s.given ++ [msgs.getD s.given.length default] ∨
    ¬(∃ e rest, s.evlist = e :: rest ∧ e.evtype = .fromLayer5) ∧ t.given = s.given := by
  obtain ⟨e,rest,hl,hcase⟩ := simStep_cases hst
  have hnot : e.evtype ≠ .fromLayer5 →
      ¬∃ e rest, s.evlist = e :: rest ∧ e.evtype = .fromLayer5 := by
    rintro hne ⟨e',rest',hl',hty'⟩
    rw [hl,List.cons.injEq] at hl'
    exact hne (hl'.1 ▸ hty')
  rcases hcase with ⟨hty,r,-,rfl⟩ | ⟨p,hty,rfl⟩ | ⟨p,hty,rfl⟩ | ⟨q,hty,rfl⟩
  · exact Or.inl ⟨⟨e,rest,hl,hty⟩,(perform_frame clock pattern _ _).2.2⟩
  all_goals exact Or.inr ⟨hnot (by simp [hty]),(perform_frame clock pattern _ _).2.2⟩

/-- With a window of one, A never slides: the only acknowledgement that could fit is 0. -/
theorem narrow_step {noise : Pkt → Prop} {a b : Soup Vars} (hs : Safe 1 a)
    (h0 : a.vars.base = 0) (hst : Soup.Step noise (students 1 junk) a b) : b.vars.base = 0 := by
  cases hst with
  | @submit r m hm =>
    obtain rfl : aOutput 1 m a.vars = r := Option.some.inj hm
    rw [(Soup.perform_eq _ _).1,aOutput_base]
    exact h0
  | recvA p hp =>
    rw [(Soup.perform_eq _ _).1]
    simp only [students]
    rcases aInput_cases 1 p a.vars with he | ⟨k,-,-,hk0,hlo,hhi,-⟩
    · rw [he]
      exact h0
    · have := hs.window.next_le
      omega
  | recvB p hp =>
    rw [(Soup.perform_eq _ _).1]
    simp only [students]
    rcases bInput_cases p a.vars with ⟨-,he⟩ | ⟨-,he⟩ | ⟨-,he⟩ <;>
      rw [he] <;> exact h0
  | fire q before after hq =>
    rw [(Soup.perform_eq _ _).1]
    simp only [students,aPacketTimeRinterrupt]
    split <;> exact h0

/-- A round keeps everything but, possibly, a message it overwrites. -/
theorem Sound.round (h : Sound clock W msgs s)
    (hst : simStep clock (students W junk) msgs pattern s = some t)
    (hclean : Clean msgs.length t.net) : Sound clock W msgs t ∧
      (AllKept t.net.soup ↔ AllKept s.net.soup ∧ ¬Loses W msgs s) := by
  obtain ⟨htimely,hnet⟩ := h.timely.step hst
  have hsupply := h.supply.step hst
  obtain ⟨hsourced,-,hsoup⟩ := Net.step_refines pattern (students W junk)
    (fun p => msgs.length < 999999 ∨ checkCorrupted p = true) hnet h.sourced
  have hstep := hsoup (h.clean.elim (fun hN _ _ _ => Or.inl hN)
    fun hn e p hp => Or.inr (hn e p hp))
  have hharmless : Harmless (fun p => msgs.length < 999999 ∨ checkCorrupted p = true)
      msgs.length := by
    by_cases hN : msgs.length < 999999
    · exact Or.inr hN
    · exact Or.inl fun p hp => hp.resolve_left hN
  obtain ⟨hsending,hkept⟩ := h.sending.step h.safe hstep
  refine ⟨⟨htimely,hsupply,hsourced,h.safe.step hstep (hharmless.mono h.supply.given_le),
    hsending,hclean,fun hW => ?_⟩,hkept.trans (and_congr_right fun _ => ?_)⟩
  · subst hW
    exact narrow_step h.safe (h.narrow rfl) hstep
  · change (s.given.length < t.given.length →
      ¬Overwrites W (t.given.getD s.given.length default) s.vars) ↔ _
    rcases given_of_step hst with ⟨harr,hg⟩ | ⟨hnot,hg⟩
    · have hmsg : (s.given ++ [msgs.getD s.given.length default]).getD s.given.length default =
          msgs.getD s.given.length default := by simp
      rw [hg,hmsg]
      exact ⟨fun hno hl => hno (by simp) hl.2,fun hno _ ho => hno ⟨harr,ho⟩⟩
    · rw [hg]
      exact ⟨fun _ hl => hnot hl.1,fun _ hlt => absurd hlt (Nat.lt_irrefl _)⟩

theorem sound_of_reaches
    (h : Reaches (simStep clock (students W junk) msgs pattern)
      (init clock (students W junk) msgs) s)
    (hclean : Clean msgs.length s.net) : Sound clock W msgs s := by
  refine invariant_while (Q := Clean msgs.length)
    (fun hst hc => hc.imp_right fun hn => hn.of_step hst) (fun hc => ?_)
    (fun hst hc hs => (hs.round hst hc).1) h hclean
  obtain ⟨htimely,hnet⟩ := timely_init clock (students W junk) msgs
  refine ⟨htimely,supply_init,?_,?_,?_,hc,fun _ => ?_⟩
  · rw [hnet]
    exact ⟨by simp [Net.init],by simp [Net.init]⟩
  · rw [hnet]
    exact safe_init W junk
  · rw [hnet]
    exact sending_init W junk
  · exact congrArg (fun n : Net Vars => n.vars.base) hnet

/-- Over an intact channel nothing more is corrupted. -/
theorem Sound.intact_round (h : Sound clock W msgs s)
    (hst : simStep clock (students W junk) msgs intact s = some t) : Sound clock W msgs t ∧
      (AllKept t.net.soup ↔ AllKept s.net.soup ∧ ¬Loses W msgs s) := by
  obtain ⟨⟨cp,cs,hhanded⟩,-⟩ := Net.step_handed (h.timely.step hst).2
  refine h.round hst (h.clean.imp_right fun hn e p hp => ?_)
  rw [hhanded,List.mem_append] at hp
  rcases hp with hp | hp
  · exact hn e p hp
  · cases fated_const hp

/-- B has passed up the first `expected_seqnum` messages, unless one was overwritten. -/
theorem Sound.taken_eq (h : Sound clock W msgs s) (hk : AllKept s.net.soup) :
    s.taken = (s.given.take s.vars.expectedSeqnum).map Msg.data := by
  have hlen : s.taken.length = s.vars.expectedSeqnum := h.safe.taken
  have hexp : s.vars.expectedSeqnum ≤ s.vars.nextseqnum := h.safe.expected_le
  have hgiven : s.vars.nextseqnum ≤ s.given.length := h.safe.next_le_given
  apply List.ext_getElem
  · rw [hlen,List.length_map,List.length_take]
    omega
  · intro k hk₁ hk₂
    obtain ⟨p,hp,hseq,hget⟩ := h.safe.order k (hlen ▸ hk₁)
    change s.taken[k]? = some _ at hget
    rw [List.getElem?_eq_getElem hk₁,Option.some.injEq] at hget
    have hkl : k < s.given.length := by omega
    rw [hget,hk.packets p hp,hseq]
    change (s.given.getD k default).data = _
    simp [hkl]

theorem Sound.bounds (h : Sound clock W msgs s) :
    s.vars.base ≤ s.vars.expectedSeqnum ∧ s.vars.expectedSeqnum ≤ s.vars.nextseqnum ∧
    s.vars.nextseqnum + s.vars.msgNum = s.given.length ∧ s.given.length ≤ msgs.length ∧
    s.vars.nextseqnum ≤ s.vars.base + W :=
  ⟨h.safe.base_le,h.safe.expected_le,h.safe.count,h.supply.given_le,h.safe.window.next_le⟩

theorem Sound.resent_clean (h : Sound clock W msgs s) {i : Nat}
    (hi : i < s.vars.nextseqnum - s.vars.base) :
    checkCorrupted (s.vars.winbuf ((s.vars.winfront + i) % W)) = false := by
  have hmem := h.safe.window.mem_resend (s.vars.winbuf ((s.vars.winfront + i) % W)) (by
    rw [outOf_resendWindow]
    exact List.mem_map.mpr ⟨i,List.mem_range.mpr hi,rfl⟩)
  obtain ⟨k,-,hk⟩ := h.safe.window.made _ hmem
  rw [hk]
  exact checkCorrupted_dataPkt _ _

/-- The calls of a round in which neither end moves on. -/
inductive Reply (W : Nat) (v : Vars) (e : Event T) : List Call → Prop where
  | nothing : Reply W v e []
  | answer (p : Pkt) (a : Int) : e.evtype = .fromLayer3 .B p →
      Reply W v e [.tolayer3 .B (ackPkt a)]
  | resend : e.evtype = .timeRInterrupt v.base →
      Reply W v e (resendWindow W v ++ [.starttimeR v.base])

/-- A round in which neither end moves on. -/
def Idle (clock : Clock T) (W : Nat) (s : Sim T Vars) (e : Event T)
    (rest : List (Event T)) (t : Sim T Vars) : Prop :=
  e.evtype ≠ .fromLayer5 ∧ ∃ cs, Reply W s.vars e cs ∧
    t = perform clock intact { s with evlist := rest, time_ := e.evtime } (s.vars,cs)

/-- How much is left to be given, to be acknowledged and to be passed up. -/
def rank (msgs : List Msg) (s : Sim T Vars) : Nat :=
  (msgs.length - s.given.length) + (msgs.length - s.vars.base) +
    (msgs.length - s.vars.expectedSeqnum)

section Rounds
variable {e : Event T} {rest : List (Event T)}

theorem Reply.quiet {v : Vars} {cs : List Call} (h : Reply W v e cs)
    (hnot5 : e.evtype ≠ .fromLayer5) (hv : v.nextseqnum - v.base ≤ W) {x : Event T}
    (hx : clock.Passes x.evtime) (hle : e.evtime ≤ x.evtime) : Quiet clock W x e cs := by
  cases h with
  | nothing => exact quiet_nothing hx hle hnot5
  | answer p a hty => exact quiet_ack hty (by simp [callCost]) (by simp)
  | resend hty =>
    have hresend : resendWindow W v = ((List.range (v.nextseqnum - v.base)).map
        fun i => v.winbuf ((v.winfront + i) % W)).map (Call.tolayer3 .A) :=
      List.map_map.symm
    rw [hresend]
    exact quiet_timeout hx hty hle _ (by simpa using hv)

theorem Idle.frame (h : Idle clock W s e rest t) :
    t.vars = s.vars ∧ t.given = s.given := by
  obtain ⟨-,cs,-,rfl⟩ := h
  exact ⟨perform_vars _ _ _ _,(perform_frame clock intact _ _).2.2⟩

/-- What an idle round leaves in the channels and in the list of timers. -/
theorem Idle.channels (h : Idle clock W s e rest t) (hs : Timely clock s)
    (hl : s.evlist = e :: rest) :
    (∀ p ∈ t.net.toB, p ∈ s.net.toB ∨ e.evtype = .timeRInterrupt s.vars.base ∧
      ∃ i < s.vars.nextseqnum - s.vars.base,
        p = s.vars.winbuf ((s.vars.winfront + i) % W)) ∧
    (∀ q ∈ t.net.timers, q ∈ s.net.timers) := by
  obtain ⟨-,cs,hcs,rfl⟩ := h
  have hnet := ((hs.advance hl).perform intact (s.vars,cs)).2.1
  obtain ⟨-,-,-,htimers,-,hB,-⟩ :=
    Net.perform_eq intact (Sim.net { s with evlist := rest, time_ := e.evtime }) (s.vars,cs)
  have hrestB : ∀ p ∈ rest.filterMap (packetTo .B), p ∈ s.net.toB := by
    intro p hp
    change p ∈ s.evlist.filterMap _
    rw [hl]
    exact (List.sublist_cons_self e rest).filterMap _ |>.subset hp
  have hrestT : ∀ q ∈ rest.filterMap timerOf, q ∈ s.net.timers := by
    intro q hq
    change q ∈ s.evlist.filterMap _
    rw [hl]
    exact (List.sublist_cons_self e rest).filterMap _ |>.subset hq
  rw [hnet,hB,htimers]
  constructor
  · intro p hp
    rcases List.mem_append.mp hp with hp | hp
    · exact Or.inl (hrestB p hp)
    · obtain ⟨p₀,hout,hor⟩ := mem_arriving hp
      obtain rfl : p = p₀ := hor.resolve_right fun hc => by cases fated_const hc.2
      cases hcs with
      | nothing => cases hout
      | answer p' a _ => simp at hout
      | resend hty =>
        rw [outOf_append,outOf_resendWindow] at hout
        simp only [outOf_starttimeR,outOf_nil,List.append_nil] at hout
        obtain ⟨i,hi,rfl⟩ := List.mem_map.mp hout
        exact Or.inr ⟨hty,i,List.mem_range.mp hi,rfl⟩
  · intro q hq
    cases hcs with
    | nothing => exact hrestT q hq
    | answer p' a _ => exact hrestT q hq
    | resend hty =>
      rw [timersAfter_append,timersAfter_resendWindow] at hq
      rcases List.mem_append.mp hq with hq | hq
      · exact hrestT q hq
      · rw [List.mem_singleton.mp hq]
        exact List.mem_filterMap.mpr ⟨e,by simp [hl],by simp [timerOf,hty]⟩

/-- Rounds in which one of the two ends, or layer 5, moves on. -/
structure Forward (s t : Sim T Vars) : Prop where
  given : s.given.length ≤ t.given.length
  base : s.vars.base ≤ t.vars.base
  expected : s.vars.expectedSeqnum ≤ t.vars.expectedSeqnum
  moved : s.given.length < t.given.length ∨ s.vars.base < t.vars.base ∨
    s.vars.expectedSeqnum < t.vars.expectedSeqnum

theorem Forward.rank_lt (h : Forward s t) (ht : Sound clock W msgs t) :
    rank msgs t < rank msgs s := by
  obtain ⟨hg,hb,he,hm⟩ := h
  have hbounds := ht.bounds
  unfold rank
  omega

variable (clock W junk msgs) in
theorem arrival_round (hl : s.evlist = e :: rest) (hty : e.evtype = .fromLayer5) :
    ∃ t, simStep clock (students W junk) msgs intact s = some t ∧ Forward s t := by
  have hst := simStep_arrival clock (students W junk) msgs intact hl hty
  simp only [students,Option.map_some] at hst
  refine ⟨_,hst,?_⟩
  have hgiven := (perform_frame clock intact
    { generateNextArrival clock msgs { s with evlist := rest, time_ := e.evtime } with
      given := s.given ++ [msgs.getD s.given.length default] }
    (aOutput W (msgs.getD s.given.length default) s.vars)).2.2
  constructor
  · rw [hgiven]
    simp
  · rw [perform_vars,aOutput_base]
  · rw [perform_vars,aOutput_expectedSeqnum]
  · rw [hgiven]
    simp

variable (clock W junk msgs) in
/-- An acknowledgement inside the window moves the window. -/
theorem ack_round (hl : s.evlist = e :: rest) {p : Pkt} (hty : e.evtype = .fromLayer3 .A p) :
    ∃ t, simStep clock (students W junk) msgs intact s = some t ∧
      (s.vars.base < t.vars.base ∧ t.vars.expectedSeqnum = s.vars.expectedSeqnum ∧
          t.given = s.given ∨
        Idle clock W s e rest t ∧
          ∀ a : Nat, p = ackPkt a → a ≠ 0 → s.vars.base ≤ a → ¬a < s.vars.nextseqnum) := by
  have hst := simStep_packetA clock (students W junk) msgs intact hl hty
  have hnot5 : e.evtype ≠ .fromLayer5 := by simp [hty]
  refine ⟨_,hst,?_⟩
  simp only [students]
  rcases aInput_cases W p s.vars with he | ⟨a,hc,hpa,h0,hlo,hhi,he⟩
  · rw [he]
    refine Or.inr ⟨⟨hnot5,_,.nothing,rfl⟩,?_⟩
    rintro a rfl h0 hlo hhi
    have hacc := aInput_of_ack (W := W) (checkCorrupted_ackPkt _) rfl h0 hlo hhi
    rw [he] at hacc
    have hbase := congrArg (fun r => r.1.base) hacc
    rw [acceptAck_eq] at hbase
    have hb := (sendBuffered_frame W (slid W a s.vars).msgNum (slid W a s.vars)).1.trans
      (popAcked_frame W W { s.vars with base := a + 1 }).2.1
    simp only [hb] at hbase
    omega
  · rw [he]
    left
    obtain ⟨hb,hexp,-⟩ := sendBuffered_frame W (slid W a s.vars).msgNum (slid W a s.vars)
    obtain ⟨pe,pb,-⟩ := popAcked_frame W W { s.vars with base := a + 1 }
    rw [perform_vars,acceptAck_eq]
    refine ⟨?_,hexp.trans pe,(perform_frame clock intact _ _).2.2⟩
    rw [hb.trans pb]
    exact Nat.lt_succ_of_le hlo

variable (clock W junk msgs) in
/-- B passes up the packet it waits for; any other it answers with its last number. -/
theorem data_round (h : Timely clock s) (hl : s.evlist = e :: rest) {p : Pkt}
    (hty : e.evtype = .fromLayer3 .B p) :
    ∃ t, simStep clock (students W junk) msgs intact s = some t ∧
      (checkCorrupted p = false ∧ p.seqnum = s.vars.expectedSeqnum ∧ Forward s t ∨
        Idle clock W s e rest t ∧
          (checkCorrupted p = false → p.seqnum ≠ s.vars.expectedSeqnum ∧
            ackPkt (s.vars.expectedSeqnum - 1) ∈ t.net.toA)) := by
  have hst := simStep_packetB clock (students W junk) msgs intact hl hty
  have hnot5 : e.evtype ≠ .fromLayer5 := by simp [hty]
  refine ⟨_,hst,?_⟩
  simp only [students]
  rcases bInput_cases p s.vars with ⟨hc,he⟩ | ⟨hseq,he⟩ | ⟨hne,he⟩
  · rw [he]
    exact Or.inr ⟨⟨hnot5,_,.nothing,rfl⟩,fun hc' => by rw [hc] at hc'; cases hc'⟩
  · by_cases hc : checkCorrupted p = true
    · have hnil : bInput p s.vars = (s.vars,[]) := by simp [bInput,hc]
      rw [hnil]
      exact Or.inr ⟨⟨hnot5,_,.nothing,rfl⟩,fun hc' => by rw [hc] at hc'; cases hc'⟩
    · rw [he]
      have hgiven := (perform_frame clock intact { s with evlist := rest, time_ := e.evtime }
        ({ s.vars with expectedSeqnum := s.vars.expectedSeqnum + 1 },
          [.tolayer5 p.payload,.tolayer3 .B (ackPkt s.vars.expectedSeqnum)])).2.2
      refine Or.inl ⟨by simpa using hc,hseq,?_⟩
      refine ⟨hgiven ▸ Nat.le_refl _,?_,?_,Or.inr (Or.inr ?_)⟩ <;> rw [perform_vars] <;> simp
  · rw [he]
    refine Or.inr ⟨⟨hnot5,_,.answer p _ hty,rfl⟩,fun _ => ⟨hne,?_⟩⟩
    rw [((h.advance hl).perform intact _).2.1,(Net.perform_eq intact _ _).2.2.2.2.2.2]
    simp [fated,arriving,intact,Fate.apply]

variable (clock W junk msgs) in
/-- A timeout of the first packet of the window sends the window again. -/
theorem timer_round (h : Timely clock s) (hl : s.evlist = e :: rest) {q : Int}
    (hty : e.evtype = .timeRInterrupt q) :
    ∃ t, simStep clock (students W junk) msgs intact s = some t ∧ Idle clock W s e rest t ∧
      (q = s.vars.base → ∀ i < s.vars.nextseqnum - s.vars.base,
        s.vars.winbuf ((s.vars.winfront + i) % W) ∈ t.net.toB) := by
  have hst := simStep_timer clock (students W junk) msgs intact hl hty
  have hnot5 : e.evtype ≠ .fromLayer5 := by simp [hty]
  refine ⟨_,hst,?_⟩
  simp only [students,aPacketTimeRinterrupt]
  by_cases hq : q = s.vars.base
  · rw [if_neg (not_not.mpr hq)]
    refine ⟨⟨hnot5,_,.resend (hq ▸ hty),rfl⟩,fun _ i hi => ?_⟩
    rw [((h.advance hl).perform intact _).2.1,(Net.perform_eq intact _ _).2.2.2.2.2.1]
    refine List.mem_append_right _ (mem_arriving_ok ?_)
    rw [outOf_append,outOf_resendWindow]
    exact List.mem_append_left _ (List.mem_map.mpr ⟨i,List.mem_range.mpr hi,rfl⟩)
  · rw [if_pos hq]
    exact ⟨⟨hnot5,_,.nothing,rfl⟩,fun h' => absurd h' hq⟩

variable (clock W junk msgs) in
theorem forward_or_idle (h : Timely clock s) (hl : s.evlist = e :: rest) :
    ∃ t, simStep clock (students W junk) msgs intact s = some t ∧
      (Forward s t ∨ Idle clock W s e rest t) := by
  cases hty : e.evtype with
  | fromLayer5 =>
    obtain ⟨t,hst,hf⟩ := arrival_round clock W junk msgs hl hty
    exact ⟨t,hst,Or.inl hf⟩
  | fromLayer3 d p =>
    cases d with
    | A =>
      obtain ⟨t,hst,⟨hb,he,hg⟩ | ⟨hidle,-⟩⟩ := ack_round clock W junk msgs hl hty
      · exact ⟨t,hst,Or.inl ⟨by rw [hg],hb.le,he.ge,Or.inr (Or.inl hb)⟩⟩
      · exact ⟨t,hst,Or.inr hidle⟩
    | B =>
      obtain ⟨t,hst,⟨-,-,hf⟩ | ⟨hidle,-⟩⟩ := data_round clock W junk msgs h hl hty
      · exact ⟨t,hst,Or.inl hf⟩
      · exact ⟨t,hst,Or.inr hidle⟩
  | timeRInterrupt q =>
    obtain ⟨t,hst,hidle,-⟩ := timer_round clock W junk msgs h hl hty
    exact ⟨t,hst,Or.inr hidle⟩

/-- Once in the trap, the run stays there: the timer sends the wrong packets for ever,
or nothing happens any more. -/
theorem Trap.step (h : Trap W msgs s) (hs : Sound clock W msgs s)
    (hst : simStep clock (students W junk) msgs intact s = some t) : Trap W msgs t := by
  have ht := (hs.intact_round hst).1
  have hkeep : ∀ {e : Event T} {rest : List (Event T)}, s.evlist = e :: rest →
      Idle clock W s e rest t → Trap W msgs t := by
    intro e rest hl hidle
    obtain ⟨hv,hg⟩ := hidle.frame
    obtain ⟨hB,hT⟩ := hidle.channels hs.timely hl
    constructor
    · rw [hg]
      exact h.given
    · rw [hv]
      exact h.waits
    · rw [hv]
      exact h.unacked
    · rw [hv]
      intro p hp hc
      rcases hB p hp with hp | ⟨hty,i,hi,rfl⟩
      · exact h.gone p hp hc
      · refine h.never.resolve_left (not_not.mpr ?_) i hi
        exact List.mem_filterMap.mpr ⟨e,by simp [hl],by simp [timerOf,hty]⟩
    · rw [hv]
      exact h.never.imp_left fun hno hq => hno (hT _ hq)
  obtain ⟨e,rest,hl,-⟩ := simStep_cases hst
  cases hty : e.evtype with
  | fromLayer5 =>
    -- all messages have been given
    have hn := hs.supply.nsim
    have hle := hs.supply.nsim_le
    rw [hl,List.filterMap_cons_some (by simp [arrivalOf,hty] : arrivalOf e = some ())] at hn
    simp only [List.length_cons,h.given] at hn
    omega
  | fromLayer3 d p =>
    cases d with
    | A =>
      obtain ⟨u,hu,hcase⟩ := ack_round clock W junk msgs hl hty
      obtain rfl : u = t := Option.some.inj (hu.symm.trans hst)
      rcases hcase with ⟨hb,he,-⟩ | ⟨hidle,-⟩
      · have hle := ht.bounds.1
        have hw := h.waits
        omega
      · exact hkeep hl hidle
    | B =>
      obtain ⟨u,hu,hcase⟩ := data_round clock W junk msgs hs.timely hl hty
      obtain rfl : u = t := Option.some.inj (hu.symm.trans hst)
      rcases hcase with ⟨hc,hseq,-⟩ | ⟨hidle,-⟩
      · have hp : p ∈ s.net.toB :=
          List.mem_filterMap.mpr ⟨e,by simp [hl],by simp [packetTo,hty]⟩
        rw [h.waits] at hseq
        exact absurd hseq (h.gone p hp hc)
      · exact hkeep hl hidle
  | timeRInterrupt q =>
    obtain ⟨u,hu,hidle,-⟩ := timer_round clock W junk msgs hs.timely hl hty
    obtain rfl : u = t := Option.some.inj (hu.symm.trans hst)
    exact hkeep hl hidle

end Rounds

/-- A state from which the run does not get into the trap. -/
structure Live (clock : Clock T) (W : Nat) (junk : Nat → Pkt) (msgs : List Msg)
    (s : Sim T Vars) : Prop extends Sound clock W msgs s where
  free : ∀ t, Reaches (simStep clock (students W junk) msgs intact) s t → ¬Trap W msgs t
  passes : Passing clock (students W junk) msgs s

theorem Live.step (h : Live clock W junk msgs s)
    (hst : simStep clock (students W junk) msgs intact s = some t) :
    Live clock W junk msgs t :=
  ⟨(h.toSound.intact_round hst).1,fun u hu => h.free u ((Reaches.single hst).trans hu),
    h.passes.step hst⟩

/-- Neither end has moved on from `v`, and no message was given after `g`. -/
def Waits (clock : Clock T) (W : Nat) (junk : Nat → Pkt) (msgs : List Msg) (v : Vars)
    (g : List Msg) (s : Sim T Vars) : Prop :=
  Live clock W junk msgs s ∧ s.vars = v ∧ s.given = g

/-- Progress beyond that. -/
def Moved (clock : Clock T) (W : Nat) (junk : Nat → Pkt) (msgs : List Msg) (v : Vars)
    (g : List Msg) (s : Sim T Vars) : Prop :=
  Live clock W junk msgs s ∧ rank msgs s < (msgs.length - g.length) +
    (msgs.length - v.base) + (msgs.length - v.expectedSeqnum)

section LeadsTo
variable {v : Vars} {g : List Msg} {e : Event T} {rest : List (Event T)}

theorem Waits.of_idle (h : Waits clock W junk msgs v g s) (ht : Live clock W junk msgs t)
    (hidle : Idle clock W s e rest t) : Waits clock W junk msgs v g t :=
  ⟨ht,hidle.frame.1.trans h.2.1,hidle.frame.2.trans h.2.2⟩

theorem Waits.moved (h : Waits clock W junk msgs v g s) (ht : Live clock W junk msgs t)
    (hf : Forward s t) : Moved clock W junk msgs v g t := by
  have hlt := hf.rank_lt ht.toSound
  obtain ⟨-,hv,hg⟩ := h
  rw [rank.eq_def msgs s,hv,hg] at hlt
  exact ⟨ht,hlt⟩

/-- While nothing moves, every event has its turn. -/
theorem Waits.turn (h : Waits clock W junk msgs v g s) {x : Event T} (hx : x ∈ s.evlist) :
    Eventually (simStep clock (students W junk) msgs intact)
      (fun t => Moved clock W junk msgs v g t ∨
        Waits clock W junk msgs v g t ∧ ∃ rest, t.evlist = x :: rest) s := by
  have hpass : clock.Passes x.evtime := h.1.passes s (Reaches.refl s) x hx
  refine eventually_turn (W := W) (I := Waits clock W junk msgs v g)
    (fun s hs => hs.1.timely) ?_ h hx
  intro s e rest hs hl hne hmem
  obtain ⟨t,hst,hcase⟩ := forward_or_idle clock W junk msgs hs.1.timely hl
  have ht := hs.1.step hst
  have hle : e.evtime ≤ x.evtime :=
    (List.pairwise_cons.mp (hl ▸ hs.1.timely.ordered)).1 x hmem
  refine ⟨t,hst,?_⟩
  rcases hcase with hf | hidle
  · exact Or.inl (hs.moved ht hf)
  · have hkeep := hs.of_idle ht hidle
    obtain ⟨hnot5,cs,hcs,hperf⟩ := hidle
    have hb := hs.1.bounds
    exact Or.inr ⟨hkeep,_,hperf,hcs.quiet hnot5 (by omega) hpass hle⟩

/-- An acknowledgement inside the window is on its way to A. -/
theorem Waits.of_ack (h : Waits clock W junk msgs v g s) {a : Nat} (h0 : a ≠ 0)
    (hlo : v.base ≤ a) (hhi : a < v.nextseqnum) (hack : ackPkt a ∈ s.net.toA) :
    Eventually (simStep clock (students W junk) msgs intact) (Moved clock W junk msgs v g) s := by
  obtain ⟨x,hx,hty⟩ := mem_packetTo hack
  refine (h.turn hx).trans ?_
  rintro t (hm | ⟨ht,rest,hl⟩)
  · exact .now hm
  · obtain ⟨u,hst,hcase⟩ := ack_round clock W junk msgs hl hty
    have hu := ht.1.step hst
    rcases hcase with ⟨hb,he,hg⟩ | ⟨-,hno⟩
    · exact .later hst (.now (ht.moved hu ⟨by rw [hg],hb.le,he.ge,Or.inr (Or.inl hb)⟩))
    · rw [ht.2.1] at hno
      exact absurd hhi (hno a rfl h0 hlo)

/-- A packet on its way to B moves B, or makes it repeat an acknowledgement that A takes. -/
theorem Waits.of_data (h : Waits clock W junk msgs v g s) {p : Pkt} (hp : p ∈ s.net.toB)
    (hc : checkCorrupted p = false)
    (huse : p.seqnum = v.expectedSeqnum ∨ v.base < v.expectedSeqnum ∧ 2 ≤ v.expectedSeqnum) :
    Eventually (simStep clock (students W junk) msgs intact) (Moved clock W junk msgs v g) s := by
  obtain ⟨x,hx,hty⟩ := mem_packetTo hp
  refine (h.turn hx).trans ?_
  rintro t (hm | ⟨ht,rest,hl⟩)
  · exact .now hm
  · obtain ⟨u,hst,hcase⟩ := data_round clock W junk msgs ht.1.timely hl hty
    have hu := ht.1.step hst
    rcases hcase with ⟨-,-,hf⟩ | ⟨hidle,hanswer⟩
    · exact .later hst (.now (ht.moved hu hf))
    · obtain ⟨hne,hack⟩ := hanswer hc
      rw [ht.2.1] at hne hack
      obtain ⟨hb,h2⟩ := huse.resolve_left hne
      have hnext := ht.1.bounds.2.1
      rw [ht.2.1] at hnext
      have he : ((v.expectedSeqnum : Int) - 1) = ((v.expectedSeqnum - 1 : Nat) : Int) := by omega
      rw [he] at hack
      exact .later hst ((ht.of_idle hu hidle).of_ack (by omega) (by omega) (by omega) hack)

/-- The timer runs, and one of the packets it sends again is of use to B. -/
theorem Waits.of_timer (h : Waits clock W junk msgs v g s) {i : Nat}
    (htimer : (v.base : Int) ∈ s.net.timers) (hi : i < v.nextseqnum - v.base)
    (huse : (v.winbuf ((v.winfront + i) % W)).seqnum = v.expectedSeqnum ∨
      v.base < v.expectedSeqnum ∧ 2 ≤ v.expectedSeqnum) :
    Eventually (simStep clock (students W junk) msgs intact) (Moved clock W junk msgs v g) s := by
  obtain ⟨x,hx,hty⟩ := mem_timerOf htimer
  refine (h.turn hx).trans ?_
  rintro t (hm | ⟨ht,rest,hl⟩)
  · exact .now hm
  · obtain ⟨u,hst,hidle,hsent⟩ := timer_round clock W junk msgs ht.1.timely hl hty
    have hu := ht.of_idle (ht.1.step hst) hidle
    rw [ht.2.1] at hsent
    have hc := ht.1.resent_clean (i := i) (by rw [ht.2.1]; exact hi)
    rw [ht.2.1] at hc
    exact .later hst (hu.of_data (hsent rfl i hi) hc huse)

end LeadsTo

/-- B has everything, and no timeout will make A send any more. -/
def Finished (msgs : List Msg) (s : Sim T Vars) : Prop :=
  s.vars.expectedSeqnum = msgs.length ∧ (s.vars.base : Int) ∉ s.net.timers

/-- Outside the trap something always moves, until B has everything. -/
theorem Live.moves (h : Live clock W junk msgs s) (hW : 1 ≤ W)
    (hwide : 2 ≤ W ∨ msgs.length ≤ 1) (hnot : ¬Finished msgs s) :
    Eventually (simStep clock (students W junk) msgs intact)
      (Moved clock W junk msgs s.vars s.given) s := by
  have hw : Waits clock W junk msgs s.vars s.given s := ⟨h,rfl,rfl⟩
  obtain ⟨hbe,hen,hcount,hgiven,hroom⟩ := h.bounds
  have hfull : 0 < s.vars.msgNum → s.vars.base + W ≤ s.vars.nextseqnum := h.sending.full
  have hpending : s.vars.base + 2 ≤ s.vars.nextseqnum → (s.vars.base : Int) ∈ s.net.timers :=
    h.sending.paced.pending
  have hstale : (s.vars.base : Int) ∈ s.net.timers → s.vars.base < s.vars.nextseqnum ∧
      (s.vars.base = 0 → 2 ≤ s.vars.nextseqnum) := by
    intro hmem
    obtain ⟨k,hk,-,hkn,hk0⟩ := h.sending.paced.stale _ hmem
    obtain rfl : s.vars.base = k := Int.ofNat.inj hk
    exact ⟨hkn,hk0⟩
  have hfree := h.free s (Reaches.refl s)
  rcases Nat.lt_or_eq_of_le hgiven with hlt | hall
  · -- there are messages to come
    obtain ⟨x,hx,hty⟩ := h.supply.arrival hlt
    refine (hw.turn hx).trans ?_
    rintro t (hm | ⟨ht,rest,hl⟩)
    · exact .now hm
    · obtain ⟨u,hst,hf⟩ := arrival_round clock W junk msgs hl hty
      exact .later hst (.now (ht.moved (ht.1.step hst) hf))
  rcases Nat.lt_or_eq_of_le hbe with hlt | hbase
  · -- an acknowledgement was lost
    have htimer : (s.vars.base : Int) ∈ s.net.timers := by
      rcases Nat.lt_or_ge s.vars.nextseqnum (s.vars.base + 2) with hone | htwo
      · by_contra hno
        exact hnot ⟨by omega,hno⟩
      · exact hpending htwo
    by_cases h2 : 2 ≤ s.vars.expectedSeqnum
    · exact hw.of_timer htimer (i := 0) (by omega) (Or.inr ⟨hlt,h2⟩)
    · -- the acknowledgement of packet 0 is of no use, but packet 1 is
      have hn2 := (hstale htimer).2 (by omega)
      obtain ⟨F,hF,hbF,-,hor⟩ := h.safe.window.front
      change s.vars.winfront = F % W at hF
      change F = s.vars.base ∨ W ≤ s.vars.nextseqnum ∧ 0 < s.vars.base at hor
      have hslot : (s.vars.winbuf (1 % W)).seqnum = 1 :=
        (h.safe.window.slot 1 hn2 (by change s.vars.nextseqnum ≤ _; omega)).2
      refine hw.of_timer htimer (i := 1) (by omega) (Or.inl ?_)
      rw [hF,Slots.slot_add,show F + 1 = 1 by omega,hslot]
      omega
  · rcases Nat.lt_or_eq_of_le (hbe.trans hen) with hopen | hclosed
    · -- B waits for the first packet of the window
      by_cases hgone : ∀ p ∈ s.net.toB, checkCorrupted p = false → p.seqnum ≠ s.vars.base
      · have hnever : ¬((s.vars.base : Int) ∉ s.net.timers ∨
            ∀ i < s.vars.nextseqnum - s.vars.base,
              (s.vars.winbuf ((s.vars.winfront + i) % W)).seqnum ≠ s.vars.base) :=
          fun hn => hfree ⟨hall,hbase.symm,hopen,hgone,hn⟩
        rw [not_or,not_not] at hnever
        obtain ⟨htimer,hslots⟩ := hnever
        simp only [not_forall,not_not] at hslots
        obtain ⟨i,hi,hseq⟩ := hslots
        exact hw.of_timer htimer hi (Or.inl (by rw [hseq,hbase]))
      · simp only [not_forall,not_not] at hgone
        obtain ⟨p,hp,hc,hseq⟩ := hgone
        exact hw.of_data hp hc (Or.inl (by rw [hseq,hbase]))
    · refine absurd ⟨by omega,fun hmem => ?_⟩ hnot
      have := (hstale hmem).1
      omega

/-- What is left in the event list dies out, unless A still learns of an acknowledgement. -/
theorem Finished.ends (hf : Finished msgs s) (h : Live clock W junk msgs s) :
    Eventually (simStep clock (students W junk) msgs intact)
      (fun t => Moved clock W junk msgs s.vars s.given t ∨
        (Waits clock W junk msgs s.vars s.given t ∧ Finished msgs t) ∧ t.evlist = []) s := by
  refine eventually_empty (I := fun t => Waits clock W junk msgs s.vars s.given t ∧
    Finished msgs t) ?_ ⟨⟨h,rfl,rfl⟩,hf⟩
  rintro t e rest ⟨hw,hexp,htimer⟩ hl
  obtain ⟨u,hst,hcase⟩ := forward_or_idle clock W junk msgs hw.1.timely hl
  have hu := hw.1.step hst
  refine ⟨u,hst,?_⟩
  rcases hcase with hfwd | hidle
  · exact Or.inl (hw.moved hu hfwd)
  · have hkeep := hw.of_idle hu hidle
    obtain ⟨hv,-⟩ := hidle.frame
    obtain ⟨-,hT⟩ := hidle.channels hw.1.timely hl
    obtain ⟨-,cs,hcs,hperf⟩ := hidle
    refine Or.inr ⟨⟨hkeep,?_,?_⟩,_,hperf,?_⟩
    · rw [hv]
      exact hexp
    · rw [hv]
      exact fun hmem => htimer (hT _ hmem)
    · cases hcs with
      | nothing => exact remains_pos e
      | answer p a hty => simp [adds,remains,hty]
      | resend hty =>
        exact absurd (List.mem_filterMap.mpr ⟨e,by simp [hl],by simp [timerOf,hty]⟩) htimer

theorem Live.ends (h : Live clock W junk msgs s) (hW : 1 ≤ W)
    (hwide : 2 ≤ W ∨ msgs.length ≤ 1) :
    Eventually (simStep clock (students W junk) msgs intact)
      (fun t => t.evlist = [] ∧ t.vars.expectedSeqnum = msgs.length) s := by
  refine eventually_of_rank (I := Live clock W junk msgs) (rank msgs) (fun s hs => ?_) h
  by_cases hf : Finished msgs s
  · refine (hf.ends hs).mono fun t => ?_
    rintro (hm | ⟨⟨-,hexp,-⟩,hnil⟩)
    · exact Or.inr hm
    · exact Or.inl ⟨hnil,hexp⟩
  · exact (hs.moves hW hwide hf).mono fun _ => Or.inr

/-- As long as nothing waiting is overwritten, B's messages are the ones that were given. -/
theorem Sound.kept_of_reaches (h : Sound clock W msgs s)
    (hr : Reaches (simStep clock (students W junk) msgs intact) s t) :
    Sound clock W msgs t ∧ (AllKept t.net.soup → AllKept s.net.soup) := by
  refine hr.invariant (I := fun t => Sound clock W msgs t ∧
    (AllKept t.net.soup → AllKept s.net.soup)) ?_ ⟨h,id⟩
  rintro a b hst ⟨ha,hk⟩
  obtain ⟨hb,hkb⟩ := ha.intact_round hst
  exact ⟨hb,fun h' => hk (hkb.mp h').1⟩

theorem Sound.drains (h : Sound clock W msgs s) (hW : 1 ≤ W)
    (hwide : 2 ≤ W ∨ msgs.length ≤ 1) (hpass : Passing clock (students W junk) msgs s)
    (hkept : AllKept s.net.soup)
    (hrun : ∀ t, Reaches (simStep clock (students W junk) msgs intact) s t →
      ¬Loses W msgs t ∧ ¬Trap W msgs t) :
    Eventually (simStep clock (students W junk) msgs intact) (Drained msgs) s := by
  have hlive : Live clock W junk msgs s := ⟨h,fun t ht => (hrun t ht).2,hpass⟩
  refine (((hlive.ends hW hwide).with_invariant (I := fun t => Sound clock W msgs t ∧
    AllKept t.net.soup ∧ Reaches (simStep clock (students W junk) msgs intact) s t) ?_
    ⟨h,hkept,Reaches.refl s⟩)).mono ?_
  · rintro a b hst ⟨ha,hk,hr⟩
    obtain ⟨hb,hkb⟩ := ha.intact_round hst
    exact ⟨hb,hkb.mpr ⟨hk,(hrun a hr).1⟩,hr.trans (Reaches.single hst)⟩
  · rintro t ⟨⟨hnil,hexp⟩,ht,hk,-⟩
    have hb := ht.bounds
    have hg : t.given = msgs := by
      rw [ht.supply.given,show t.given.length = msgs.length by omega]
      exact List.take_length
    refine ⟨hnil,?_⟩
    rw [ht.taken_eq hk,hexp,hg,List.take_length]

/-- B's messages are all there: every packet carried its own message. -/
theorem Sound.kept_of_drained (h : Sound clock W msgs s) (hd : Drained msgs s) :
    AllKept s.net.soup := by
  obtain ⟨-,htaken⟩ := hd
  have hlen : s.taken.length = s.vars.expectedSeqnum := h.safe.taken
  rw [htaken,List.length_map] at hlen
  have hb := h.bounds
  have hg : s.given = msgs := by
    rw [h.supply.given,show s.given.length = msgs.length by omega]
    exact List.take_length
  refine ⟨fun p hp => ?_,?_⟩
  · obtain ⟨k,hk,hpk⟩ := h.safe.window.made p hp
    change k < s.vars.nextseqnum at hk
    obtain ⟨p',hp',hseq,hget⟩ := h.safe.order k (by change k < s.vars.expectedSeqnum; omega)
    have hpseq : p.seqnum = k := by rw [hpk,dataPkt_seqnum]
    rw [h.safe.window.once p hp p' hp' (hpseq.trans hseq.symm),hseq]
    change s.taken[k]? = _ at hget
    change _ = (s.given.getD k default).data
    have hkl : k < msgs.length := by omega
    rw [htaken,List.getElem?_map,List.getElem?_eq_getElem hkl] at hget
    simp only [Option.map_some,Option.some.injEq] at hget
    rw [hg,← hget]
    simp [hkl]
  · change Slots.Faithful _ _ _ _ (s.given.drop s.vars.nextseqnum)
    rw [List.drop_eq_nil_of_le (by omega)]
    exact Slots.faithful_nil

/-- Nothing that stops or loses a run is on the way to the drained state. -/
theorem Sound.of_drains (h : Sound clock W msgs s) (hW : 1 ≤ W)
    (hd : Eventually (simStep clock (students W junk) msgs intact) (Drained msgs) s) :
    (2 ≤ W ∨ msgs.length ≤ 1) ∧ AllKept s.net.soup ∧
    ∀ t, Reaches (simStep clock (students W junk) msgs intact) s t →
      ¬Loses W msgs t ∧ ¬Trap W msgs t := by
  have hstop : ∀ u : Sim T Vars, Drained msgs u →
      simStep clock (students W junk) msgs intact u = none := by
    intro u hu
    simp [simStep,hu.1]
  have hkept : ∀ t, Reaches (simStep clock (students W junk) msgs intact) s t →
      AllKept t.net.soup := by
    intro t ht
    obtain ⟨u,hu,hdu⟩ := eventually_iff_reaches.mp (hd.of_prefix hstop ht)
    obtain ⟨hsu,hk⟩ := (h.kept_of_reaches ht).1.kept_of_reaches hu
    exact hk (hsu.kept_of_drained hdu)
  refine ⟨?_,hkept s (Reaches.refl s),fun t ht => ⟨?_,?_⟩⟩
  · obtain ⟨u,hu,-,htaken⟩ := eventually_iff_reaches.mp hd
    have hsu := (h.kept_of_reaches hu).1
    have hlen : u.taken.length = u.vars.expectedSeqnum := hsu.safe.taken
    rw [htaken,List.length_map] at hlen
    have hb := hsu.bounds
    have hnarrow := hsu.narrow
    by_contra hcon
    have hW1 : W = 1 := by omega
    have := hnarrow hW1
    omega
  · intro hl
    have hst := (h.kept_of_reaches ht).1
    cases hd.of_prefix hstop ht with
    | now hdt =>
      obtain ⟨⟨e,rest,he,-⟩,-⟩ := hl
      rw [hdt.1] at he
      cases he
    | later hu _ =>
      exact ((hst.intact_round hu).2.mp (hkept _ (ht.trans (Reaches.single hu)))).2 hl
  · intro htrap
    have hst := (h.kept_of_reaches ht).1
    obtain ⟨u,hu,-,htaken⟩ := eventually_iff_reaches.mp (hd.of_prefix hstop ht)
    obtain ⟨hsu,hut⟩ := hu.invariant (I := fun u => Sound clock W msgs u ∧ Trap W msgs u)
      (fun a b hab hI => ⟨(hI.1.intact_round hab).1,hI.2.step hI.1 hab⟩) ⟨hst,htrap⟩
    have hlen : u.taken.length = u.vars.expectedSeqnum := hsu.safe.taken
    rw [htaken,List.length_map] at hlen
    have hb := hsu.bounds
    have hw := hut.waits
    have hopen := hut.unacked
    omega

end Recovery

end NetworkLab.Gbn
