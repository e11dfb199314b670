import NetworkLab.Gbn.Safety
set_option autoImplicit false

/-! When the single timer of Go-Back-N runs, and which messages its packets carry as
long as the buffer does not overflow. -/

namespace NetworkLab.Gbn
open Rdt Slots

/-- The timer of `base` runs once two packets are out. Timers that run on are for
packets A has slid past, and never for packet 0 alone. -/
structure Paced (v : Vars) (timers : List Int) : Prop where
  pending : v.base + 2 ≤ v.nextseqnum → (v.base : Int) ∈ timers
  stale : ∀ q ∈ timers, ∃ k : Nat, q = k ∧ k ≤ v.base ∧ k < v.nextseqnum ∧
    (k = 0 → 2 ≤ v.nextseqnum)

/-- The messages that are not packets yet were put into the buffer, in order. -/
structure Fed (v : Vars) (given : List Msg) : Prop where
  count : v.nextseqnum + v.msgNum = given.length
  written : Written v.buffer maxbufsize v.buffront v.bufrear (given.drop v.nextseqnum)

/-- Packet `k` carries message `k`, and every message that waits is still in the buffer. -/
structure Kept (v : Vars) (given : List Msg) (out : List Pkt) : Prop where
  packets : ∀ p ∈ out, p.payload = (given.getD p.seqnum.toNat default).data
  waiting : Faithful Msg.data v.buffer maxbufsize v.buffront (given.drop v.nextseqnum)

/-- `A_output` is about to overwrite a message that waits by another one. -/
def Overwrites (W : Nat) (m : Msg) (v : Vars) : Prop :=
  v.base + W ≤ v.nextseqnum ∧ maxbufsize ≤ v.msgNum ∧ (v.buffer v.bufrear).data ≠ m.data

section Functions
variable {W : Nat} {v : Vars} {given : List Msg} {out : List Pkt} {timers : List Int}

theorem Paced.aOutput (h : Paced v timers) {m : Msg} :
    Paced (aOutput W m v).1 (timersAfter timers (aOutput W m v).2) := by
  rcases Nat.lt_or_ge v.nextseqnum (v.base + W) with hlt | hge
  · rw [aOutput_of_lt hlt]
    by_cases hsecond : (v.base : Int) = v.nextseqnum - 1
    · rw [if_pos hsecond]
      refine ⟨fun _ => by simp [timersAfter],fun q hq => ?_⟩
      simp only [timersAfter,List.foldl_cons,List.foldl_nil,List.mem_append,
        List.mem_singleton] at hq
      rcases hq with hq | rfl
      · obtain ⟨k,hk,hkb,hkn,hk0⟩ := h.stale q hq
        exact ⟨k,hk,hkb,by simp only; omega,fun h0 => by have := hk0 h0; simp only; omega⟩
      · exact ⟨v.base,rfl,Nat.le_refl _,by simp only; omega,fun _ => by simp only; omega⟩
    · rw [if_neg hsecond]
      refine ⟨fun hp => h.pending ?_,fun q hq => ?_⟩
      · simp only at hp
        omega
      · obtain ⟨k,hk,hkb,hkn,hk0⟩ := h.stale q hq
        exact ⟨k,hk,hkb,by simp only; omega,fun h0 => by have := hk0 h0; simp only; omega⟩
  · rw [aOutput_of_ge hge]
    exact ⟨h.pending,h.stale⟩

/-- Messages wait only behind a full window. -/
theorem full_aOutput (hfull : 0 < v.msgNum → v.base + W ≤ v.nextseqnum) {m : Msg} :
    0 < (aOutput W m v).1.msgNum →
      (aOutput W m v).1.base + W ≤ (aOutput W m v).1.nextseqnum := by
  rcases Nat.lt_or_ge v.nextseqnum (v.base + W) with hlt | hge
  · rw [aOutput_of_lt hlt]
    simp only
    omega
  · rw [aOutput_of_ge hge]
    exact fun _ => hge

theorem kept_congr {v' : Vars} (hb : v'.buffer = v.buffer) (hf : v'.buffront = v.buffront)
    (hn : v'.nextseqnum = v.nextseqnum) : Kept v' given out ↔ Kept v given out := by
  constructor
  · intro h
    exact ⟨h.packets,hb ▸ hf ▸ hn ▸ h.waiting⟩
  · intro h
    refine ⟨h.packets,?_⟩
    rw [hb,hf,hn]
    exact h.waiting

theorem Fed.drop_length (h : Fed v given) : (given.drop v.nextseqnum).length = v.msgNum := by
  have := h.count
  rw [List.length_drop]
  omega

theorem Fed.submit (h : Fed v given) (hfull : 0 < v.msgNum → v.base + W ≤ v.nextseqnum)
    (m : Msg) : Fed (aOutput W m v).1 (given ++ [m]) := by
  have hc := h.count
  have hw := h.written
  rcases Nat.lt_or_ge v.nextseqnum (v.base + W) with hlt | hge
  · rw [aOutput_of_lt hlt]
    refine ⟨?_,?_⟩
    · simp only [List.length_append,List.length_singleton]
      omega
    · have hnil : given.drop v.nextseqnum = [] := List.drop_eq_nil_of_le (by omega)
      have hnil' : (given ++ [m]).drop (v.nextseqnum + 1) = [] :=
        List.drop_eq_nil_of_le (by simp; omega)
      rw [hnil,← hnil'] at hw
      exact hw
  · rw [aOutput_of_ge hge]
    refine ⟨?_,?_⟩
    · simp only [List.length_append,List.length_singleton]
      omega
    · rw [List.drop_append_of_le_length (show v.nextseqnum ≤ given.length by omega)]
      exact hw.push m

/-- A round of the drain loop sends the next message. -/
theorem Fed.round (h : Fed v given) (h0 : 0 < v.msgNum) (hlt : v.nextseqnum < v.base + W)
    (m : Msg) : Fed (Gbn.aOutput W m (dropBuffered v)).1 given := by
  have hc := h.count
  have hw := h.written
  rw [List.drop_eq_getElem_cons (show v.nextseqnum < given.length by omega)] at hw
  rw [aOutput_of_lt (v := dropBuffered v) hlt]
  refine ⟨?_,hw.pop⟩
  simp only [dropBuffered]
  omega

/-- A message is lost for good when it is overwritten, and only then. -/
theorem Fed.kept_submit (h : Fed v given)
    (hfull : 0 < v.msgNum → v.base + W ≤ v.nextseqnum) (hw : Window W v out) (m : Msg) :
    Kept (aOutput W m v).1 (given ++ [m]) (out ++ outOf .A (aOutput W m v).2) ↔
      Kept v given out ∧ ¬Overwrites W m v := by
  have hc := h.count
  have hold : ∀ p ∈ out, (given ++ [m]).getD p.seqnum.toNat default =
      given.getD p.seqnum.toNat default := by
    intro p hp
    obtain ⟨k,hk,he⟩ := hw.made p hp
    have hs : p.seqnum = k := by rw [he,dataPkt_seqnum]
    have hlt : p.seqnum.toNat < given.length := by omega
    simp [List.getElem?_append_left hlt]
  rcases Nat.lt_or_ge v.nextseqnum (v.base + W) with hlt | hge
  · have hgiven : v.nextseqnum = given.length := by omega
    have hnil : given.drop v.nextseqnum = [] := List.drop_eq_nil_of_le (by omega)
    have hnil' : (given ++ [m]).drop (v.nextseqnum + 1) = [] :=
      List.drop_eq_nil_of_le (by simp; omega)
    have hno : ¬Overwrites W m v := fun ho => Nat.not_lt.mpr ho.1 hlt
    rw [aOutput_of_lt hlt,outOf_tolayer3,if_pos rfl,outOf_ite_timer]
    constructor
    · intro hk
      refine ⟨⟨fun p hp => ?_,hnil ▸ faithful_nil⟩,hno⟩
      rw [hk.packets p (List.mem_append_left _ hp),hold p hp]
    · rintro ⟨hk,-⟩
      refine ⟨fun p hp => ?_,?_⟩
      · rcases List.mem_append.mp hp with hp | hp
        · rw [hk.packets p hp,hold p hp]
        · rw [List.mem_singleton.mp hp]
          simp [hgiven]
      · change Faithful _ _ _ _ ((given ++ [m]).drop (v.nextseqnum + 1))
        rw [hnil']
        exact faithful_nil
  · rw [aOutput_of_ge hge,outOf_nil,List.append_nil]
    have hpush := h.written.faithful_push (f := Msg.data) m
    have hdrop : (given ++ [m]).drop v.nextseqnum = given.drop v.nextseqnum ++ [m] :=
      List.drop_append_of_le_length (by omega)
    rw [← hdrop,h.drop_length] at hpush
    constructor
    · intro hk
      obtain ⟨hf,heq⟩ := hpush.mp hk.waiting
      refine ⟨⟨fun p hp => ?_,hf⟩,fun ho => ho.2.2 (heq ho.2.1)⟩
      rw [hk.packets p hp,hold p hp]
    · rintro ⟨hk,ho⟩
      refine ⟨fun p hp => ?_,hpush.mpr ⟨hk.waiting,fun hcap => ?_⟩⟩
      · rw [hk.packets p hp,hold p hp]
      · by_contra hne
        exact ho ⟨hge,hcap,hne⟩

theorem Fed.kept_round (h : Fed v given) (h0 : 0 < v.msgNum)
    (hlt : v.nextseqnum < v.base + W) :
    Kept (Gbn.aOutput W (v.buffer v.buffront) (dropBuffered v)).1 given
        (out ++ outOf .A (Gbn.aOutput W (v.buffer v.buffront) (dropBuffered v)).2) ↔
      Kept v given out := by
  have hc := h.count
  have hn : v.nextseqnum < given.length := by omega
  have hpop : Faithful Msg.data v.buffer maxbufsize v.buffront
      (given[v.nextseqnum] :: given.drop (v.nextseqnum + 1)) ↔ _ :=
    faithful_pop h.written.front_lt
  rw [← List.drop_eq_getElem_cons hn] at hpop
  rw [aOutput_of_lt (v := dropBuffered v) hlt,outOf_tolayer3,if_pos rfl,outOf_ite_timer]
  have hnew : (given.getD v.nextseqnum default).data = (given[v.nextseqnum]).data := by
    simp [hn]
  constructor
  · intro hk
    refine ⟨fun p hp => hk.packets p (List.mem_append_left _ hp),hpop.mpr ⟨?_,hk.waiting⟩⟩
    have := hk.packets _ (List.mem_append_right _ (List.mem_singleton_self _))
    rw [← hnew]
    exact this
  · intro hk
    obtain ⟨hx,hf⟩ := hpop.mp hk.waiting
    refine ⟨fun p hp => ?_,hf⟩
    rcases List.mem_append.mp hp with hp | hp
    · exact hk.packets p hp
    · rw [List.mem_singleton.mp hp,dataPkt_payload,hx,← hnew]
      rfl

/-- Between the two loops of `A_input` the timer of the new `base` has been started. -/
theorem Paced.slid {a : Nat} (h : Paced v timers) (hlo : v.base ≤ a) :
    Paced (slid W a v) (timersAfter timers (.stoptimeR v.base ::
      if (Gbn.slid W a v).base < (Gbn.slid W a v).nextseqnum
        then [Call.starttimeR (Gbn.slid W a v).base] else [])) := by
  obtain ⟨hbase,hnext,-⟩ := slid_frame W a v
  have hold : ∀ q ∈ timers.erase v.base, ∃ k : Nat, q = k ∧ k ≤ (Gbn.slid W a v).base ∧
      k < (Gbn.slid W a v).nextseqnum ∧ (k = 0 → 2 ≤ (Gbn.slid W a v).nextseqnum) := by
    intro q hq
    obtain ⟨k,hk,hkb,hkn,hk0⟩ := h.stale q (List.mem_of_mem_erase hq)
    rw [hbase,hnext]
    exact ⟨k,hk,by omega,hkn,hk0⟩
  by_cases hlt : (Gbn.slid W a v).base < (Gbn.slid W a v).nextseqnum
  · rw [if_pos hlt]
    refine ⟨fun _ => by simp [timersAfter],fun q hq => ?_⟩
    simp only [timersAfter,List.foldl_cons,List.foldl_nil,List.mem_append,
      List.mem_singleton] at hq
    rcases hq with hq | rfl
    · exact hold q hq
    · exact ⟨_,rfl,Nat.le_refl _,hlt,fun h0 => by omega⟩
  · rw [if_neg hlt]
    exact ⟨fun hp => by omega,hold⟩

theorem Paced.acceptAck {a : Nat} (h : Paced v timers) (hlo : v.base ≤ a) :
    Paced (acceptAck W a v).1 (timersAfter timers (Gbn.acceptAck W a v).2) := by
  rw [acceptAck_eq,timersAfter_append]
  exact sendBuffered_induct (W := W) (P := fun v' cs => Paced v' (timersAfter _ cs))
    (fun v' cs _ _ hp => by
      rw [timersAfter_append]
      exact Paced.aOutput (v := dropBuffered v') ⟨hp.pending,hp.stale⟩)
    _ _ [] (h.slid hlo)

/-- What `A_input` sends it takes from the buffer in order, and it loses nothing. -/
theorem Fed.acceptAck (h : Fed v given) (W : Nat) (out : List Pkt) (a : Nat) :
    Fed (acceptAck W a v).1 given ∧
    (Kept (Gbn.acceptAck W a v).1 given (out ++ outOf .A (Gbn.acceptAck W a v).2) ↔
      Kept v given out) := by
  obtain ⟨-,hnext,hmsg,hbuf,hbf,hbr⟩ := slid_frame W a v
  have hfed : Fed (Gbn.slid W a v) given := by
    refine ⟨?_,?_⟩
    · rw [hnext,hmsg]
      exact h.count
    · rw [hnext,hbuf,hbf,hbr]
      exact h.written
  have hloop := sendBuffered_induct (W := W)
    (P := fun v' cs => Fed v' given ∧ (Kept v' given (out ++ outOf .A cs) ↔ Kept v given out))
    (fun v' cs h0 hlt hp => by
      obtain ⟨hf,hk⟩ := hp
      refine ⟨hf.round h0 hlt _,?_⟩
      rw [outOf_append,← List.append_assoc]
      exact (hf.kept_round h0 hlt).trans hk)
    (Gbn.slid W a v).msgNum (Gbn.slid W a v) []
    ⟨hfed,by rw [outOf_nil,List.append_nil]; exact kept_congr hbuf hbf hnext⟩
  rw [acceptAck_eq]
  simpa using hloop

end Functions

/-- What holds of A beyond `Safe` in the emulator, where a timer runs out once. -/
structure Sending (W : Nat) (s : Soup Vars) : Prop where
  paced : Paced s.vars s.timers
  fed : Fed s.vars s.given
  full : 0 < s.vars.msgNum → s.vars.base + W ≤ s.vars.nextseqnum

def AllKept (s : Soup Vars) : Prop := Gbn.Kept s.vars s.given (s.out .A)

theorem sending_init (W : Nat) (junk : Nat → Pkt) :
    Sending W (Soup.init (students W junk)) := by
  refine ⟨?_,⟨rfl,written_nil (Nat.zero_lt_succ _)⟩,?_⟩
  · constructor <;> simp [Soup.init,students,aInit]
  · simp [Soup.init,students,aInit]

section Steps
variable {W : Nat} {s : Soup Vars}

theorem Sending.submit (h : Sending W s) (hs : Safe W s) (m : Msg) :
    Sending W (Soup.perform { s with given := s.given ++ [m] } (aOutput W m s.vars)) ∧
    (AllKept (Soup.perform { s with given := s.given ++ [m] } (aOutput W m s.vars)) ↔
      AllKept s ∧ ¬Overwrites W m s.vars) := by
  obtain ⟨hv,hgiven,-,htimers,hout⟩ :=
    Soup.perform_eq { s with given := s.given ++ [m] } (aOutput W m s.vars)
  refine ⟨⟨?_,?_,?_⟩,?_⟩
  · rw [hv,htimers]
    exact h.paced.aOutput
  · rw [hv,hgiven]
    exact h.fed.submit h.full m
  · rw [hv]
    exact full_aOutput h.full
  · unfold AllKept
    rw [hv,hgiven,hout]
    exact h.fed.kept_submit h.full hs.window m

theorem Sending.acceptAck (h : Sending W s) {a : Nat} (hlo : s.vars.base ≤ a) :
    Sending W (s.perform (acceptAck W a s.vars)) ∧
    (AllKept (s.perform (Gbn.acceptAck W a s.vars)) ↔ AllKept s) := by
  obtain ⟨hv,hgiven,-,htimers,hout⟩ := Soup.perform_eq s (Gbn.acceptAck W a s.vars)
  obtain ⟨hf,hk⟩ := h.fed.acceptAck W (s.out .A) a
  refine ⟨⟨?_,?_,?_⟩,?_⟩
  · rw [hv,htimers]
    exact h.paced.acceptAck hlo
  · rw [hv,hgiven]
    exact hf
  · rw [hv,acceptAck_eq]
    exact sendBuffered_full W (Nat.le_refl _)
  · unfold AllKept
    rw [hv,hgiven,hout]
    exact hk

/-- Nothing new is sent, and the timer of `base` goes on. -/
theorem Sending.unchanged (h : Sending W s) (ts : List Int) (e : Nat) {cs : List Call}
    (hA : ∀ p ∈ outOf .A cs, p ∈ s.out .A) (hts : Paced s.vars (timersAfter ts cs)) :
    Sending W (Soup.perform { s with timers := ts }
      ({ s.vars with expectedSeqnum := e },cs)) ∧
    (AllKept (Soup.perform { s with timers := ts }
      ({ s.vars with expectedSeqnum := e },cs)) ↔ AllKept s) := by
  obtain ⟨hv,hgiven,-,htimers,hout⟩ := Soup.perform_eq { s with timers := ts }
    ({ s.vars with expectedSeqnum := e },cs)
  refine ⟨⟨?_,?_,?_⟩,?_⟩
  · rw [hv,htimers]
    exact ⟨hts.pending,hts.stale⟩
  · rw [hv,hgiven]
    exact ⟨h.fed.count,h.fed.written⟩
  · rw [hv]
    exact h.full
  · unfold AllKept
    rw [hv,hgiven,hout]
    constructor
    · exact fun hk => ⟨fun p hp => hk.packets p (List.mem_append_left _ hp),hk.waiting⟩
    · refine fun hk => ⟨fun p hp => ?_,hk.waiting⟩
      rcases List.mem_append.mp hp with hp | hp
      · exact hk.packets p hp
      · exact hk.packets p (hA p hp)

theorem Sending.fire (h : Sending W s) (hs : Safe W s) {q : Int} {before after : List Int}
    (hq : s.timers = before ++ q :: after) :
    Sending W (Soup.perform { s with timers := before ++ after }
      (aPacketTimeRinterrupt W q s.vars)) ∧
    (AllKept (Soup.perform { s with timers := before ++ after }
      (aPacketTimeRinterrupt W q s.vars)) ↔ AllKept s) := by
  have hmem : ∀ r ∈ before ++ after, r ∈ s.timers := by
    intro r hr
    rw [hq]
    simp only [List.mem_append,List.mem_cons] at hr ⊢
    exact hr.imp_right Or.inr
  unfold aPacketTimeRinterrupt
  split
  · rename_i hne
    refine h.unchanged _ s.vars.expectedSeqnum (by simp)
      ⟨fun hp => ?_,fun r hr => h.paced.stale r (hmem r hr)⟩
    have hb := h.paced.pending hp
    rw [hq] at hb
    simp only [List.mem_append,List.mem_cons] at hb
    simp only [timersAfter_nil,List.mem_append]
    rcases hb with hb | rfl | hb
    · exact Or.inl hb
    · exact absurd rfl hne
    · exact Or.inr hb
  · rename_i heq
    obtain rfl : q = s.vars.base := Decidable.not_not.mp heq
    have hts : timersAfter (before ++ after) (resendWindow W s.vars ++
        [.starttimeR s.vars.base]) = before ++ after ++ [(s.vars.base : Int)] := by
      rw [timersAfter_append,timersAfter_resendWindow]
      rfl
    refine h.unchanged _ s.vars.expectedSeqnum (fun p hp => ?_) ?_
    · exact hs.window.mem_resend p (by simpa using hp)
    · rw [hts]
      refine ⟨fun _ => by simp,fun r hr => h.paced.stale r ?_⟩
      rcases List.mem_append.mp hr with hr | hr
      · exact hmem r hr
      · rw [List.mem_singleton.mp hr,hq]
        simp

/-- The step lemma of this module: a message is lost in the step that overwrites it. -/
theorem Sending.step {junk : Nat → Pkt} {noise : Pkt → Prop} {t : Soup Vars}
    (h : Sending W s) (hs : Safe W s) (hst : Soup.Step noise (students W junk) s t) :
    Sending W t ∧ (AllKept t ↔ AllKept s ∧
      (s.given.length < t.given.length →
        ¬Overwrites W (t.given.getD s.given.length default) s.vars)) := by
  have hsame : ∀ {u : Soup Vars}, u.given = s.given →
      (Sending W u ∧ (AllKept u ↔ AllKept s)) →
      Sending W u ∧ (AllKept u ↔ AllKept s ∧
        (s.given.length < u.given.length →
          ¬Overwrites W (u.given.getD s.given.length default) s.vars)) := by
    rintro u hg ⟨hu,hk⟩
    refine ⟨hu,hk.trans ⟨fun hk => ⟨hk,fun hlt => ?_⟩,And.left⟩⟩
    rw [hg] at hlt
    exact absurd hlt (Nat.lt_irrefl _)
  cases hst with
  | @submit r m hm =>
    have hr : aOutput W m s.vars = r := Option.some.inj hm
    obtain ⟨hu,hk⟩ := h.submit hs m
    rw [← hr,(Soup.perform_eq _ _).2.1]
    refine ⟨hu,hk.trans (and_congr_right fun _ => ?_)⟩
    simp
  | recvA p hp =>
    refine hsame (Soup.perform_eq _ _).2.1 ?_
    simp only [students]
    rcases aInput_cases W p s.vars with he | ⟨a,-,-,-,hlo,-,he⟩
    · rw [he]
      exact h.unchanged s.timers s.vars.expectedSeqnum (by simp) h.paced
    · rw [he]
      exact h.acceptAck hlo
  | recvB p hp =>
    refine hsame (Soup.perform_eq _ _).2.1 ?_
    simp only [students]
    rcases bInput_cases p s.vars with ⟨-,he⟩ | ⟨-,he⟩ | ⟨-,he⟩
    · rw [he]
      exact h.unchanged s.timers s.vars.expectedSeqnum (by simp) h.paced
    · rw [he]
      exact h.unchanged s.timers _ (by simp) h.paced
    · rw [he]
      exact h.unchanged s.timers s.vars.expectedSeqnum (by simp) h.paced
  | fire q before after hq =>
    exact hsame (Soup.perform_eq _ _).2.1 (h.fire hs hq)

end Steps

end NetworkLab.Gbn
