import NetworkLab.Gbn.Recovery
import NetworkLab.Gbn.Cumulative
set_option autoImplicit false

/-! Which step takes Go-Back-N into the trap, and so from which states it recovers. -/

namespace NetworkLab.Gbn
open Rdt Machine Slots

/-- None of the `n` slots from `front` on is the one of packet `k`. -/
def Misses (W front n k : Nat) : Prop := ∀ i < n, (front + i) % W ≠ k % W

theorem not_misses_all {W : Nat} (hW : 0 < W) (front k : Nat) : ¬Misses W front W k := by
  intro h
  refine h ((k + (W - front % W)) % W) (Nat.mod_lt _ hW) ?_
  have hle : front % W ≤ W := (Nat.mod_lt front hW).le
  have hsum : front + (k + (W - front % W)) = k + W * (front / W + 1) := by
    have hdiv := Nat.div_add_mod front W
    rw [Nat.mul_add]
    omega
  rw [Nat.add_mod_mod,hsum,Nat.add_mul_mod_self_left]

section Slots
variable {W : Nat} {v : Vars} {out : List Pkt}

/-- A timeout sends packet `base` exactly if it reads the slot of that packet. -/
theorem Window.misses_iff (h : Window W v out) :
    (∀ i < v.nextseqnum - v.base, (v.winbuf ((v.winfront + i) % W)).seqnum ≠ v.base) ↔
      Misses W v.winfront (v.nextseqnum - v.base) v.base := by
  have hnext := h.next_le
  refine forall_congr' fun i => imp_congr_right fun hi => not_congr ?_
  obtain ⟨F,hF,hbF,hFn,hor⟩ := h.front
  have hj : ∃ j < v.nextseqnum, v.nextseqnum ≤ j + W ∧ (v.winfront + i) % W = j % W := by
    rw [hF,slot_add]
    rcases Nat.lt_or_ge (F + i) v.nextseqnum with hlt | hge
    · exact ⟨F + i,hlt,by omega,rfl⟩
    · exact ⟨F + i - W,by omega,by omega,(slot_back (by omega)).symm⟩
  obtain ⟨j,hjn,hjW,hslot⟩ := hj
  rw [hslot,(h.slot j hjn hjW).2]
  constructor
  · intro he
    rw [Int.ofNat.inj he]
  · intro he
    rw [slot_inj he (by omega) (by omega)]

/-- With `winfront` on `winrear`, or on a packet that is not acknowledged, the pop loop does
nothing. -/
theorem slid_stays {a : Nat}
    (h : v.winfront = v.winrear ∨ (a + 1 : Nat) < (v.winbuf v.winfront).seqnum) :
    (slid W a v).winfront = v.winfront := by
  have hstop : ¬(v.winfront ≠ v.winrear ∧ (v.winbuf v.winfront).seqnum < (a + 1 : Nat)) := by
    rintro ⟨hne,hlt⟩
    rcases h with heq | hgt
    · exact hne heq
    · omega
  unfold slid
  cases W with
  | zero => rfl
  | succ W => rw [popAcked,if_neg hstop]

/-- Only then the slot of the new `base` can be missed. -/
theorem Window.stays_of_misses (h : Window W v out) {a n : Nat} (hhi : a + 1 < v.nextseqnum)
    (hn : 0 < n) (hmiss : Misses W (slid W a v).winfront n (a + 1)) :
    v.winfront = v.winrear ∨ (a + 1 : Nat) < (v.winbuf v.winfront).seqnum := by
  by_contra hcon
  rw [not_or,Int.not_lt] at hcon
  obtain ⟨hne,hle⟩ := hcon
  obtain ⟨F,hF,hbF,hFn,-⟩ := h.front
  have hnext := h.next_le
  have hrear := h.rear
  have hlt : v.nextseqnum < F + W := by
    by_contra hge
    refine hne ?_
    rw [hF,hrear,show v.nextseqnum = F + W by omega,Nat.add_mod_right]
  have hFlt : F < v.nextseqnum := by
    refine lt_of_le_of_ne hFn fun he => hne ?_
    rw [hF,hrear,he]
  rw [hF,(h.slot F hFlt (by omega)).2] at hle
  have hpop := popAcked_of_lt (W := W) (F := F) W (v := { v with base := a + 1 }) hF hrear hFn hlt
    (by simp only; omega) (by simp only; omega)
    (fun k hk hkn => (h.slot k hkn (by simp only at hkn; omega)).2)
  have hmax : max F (a + 1) = a + 1 := by omega
  refine hmiss 0 hn ?_
  rw [slid,hpop]
  simp only [hmax,Nat.add_zero,Nat.mod_mod]

end Slots

section Stranding
variable {T : Type} [LinearOrder T] {clock : Clock T} {W : Nat} {junk : Nat → Pkt}
variable {msgs : List Msg} {pattern : Nat → Fate} {s t : Sim T Vars}

/-- B waits for packet `k`, and no intact copy of it is on its way. -/
structure Missing (k : Nat) (s : Sim T Vars) : Prop where
  waits : s.vars.expectedSeqnum = k
  gone : ∀ p ∈ s.net.toB, checkCorrupted p = false → p.seqnum ≠ k

/-- The next event makes A wait for a packet that is lost and that no timeout will send:
an acknowledgement slides the window up to that packet while the pop loop leaves `winfront`
where it is, or it is the last message, after which nothing more fills the window. -/
inductive Strands (W : Nat) (msgs : List Msg) (s : Sim T Vars) : Prop where
  | ack (e : Event T) (rest : List (Event T)) (p : Pkt) (a : Nat) :
      s.evlist = e :: rest → e.evtype = .fromLayer3 .A p → checkCorrupted p = false →
      p.acknum = a → a ≠ 0 → s.vars.base ≤ a → a + 1 < s.vars.nextseqnum →
      s.given.length = msgs.length → Missing (a + 1) s →
      (s.vars.winfront = s.vars.winrear ∨
        (a + 1 : Nat) < (s.vars.winbuf s.vars.winfront).seqnum) →
      Misses W s.vars.winfront
        (min (s.vars.nextseqnum + s.vars.msgNum) (a + 1 + W) - (a + 1)) (a + 1) →
      Strands W msgs s
  | last (e : Event T) (rest : List (Event T)) :
      s.evlist = e :: rest → e.evtype = .fromLayer5 → s.given.length + 1 = msgs.length →
      s.vars.base < s.vars.nextseqnum → s.vars.nextseqnum < s.vars.base + W →
      Missing s.vars.base s →
      Misses W s.vars.winfront (s.vars.nextseqnum + 1 - s.vars.base) s.vars.base →
      Strands W msgs s

/-- What a round over an intact channel leaves, if `toB`, `timers` and `given` are what its
event has left and `r` is what A or B did. -/
structure Leaves (t : Sim T Vars) (toB : List Pkt) (timers : List Int) (given : List Msg)
    (r : Vars × List Call) : Prop where
  vars : t.vars = r.1
  given : t.given = given
  toB : ∀ p, p ∈ t.net.toB ↔ p ∈ toB ∨ p ∈ outOf .A r.2
  timers : t.net.timers = timersAfter timers r.2

theorem leaves_perform (h : Timely clock s) (r : Vars × List Call) :
    Leaves (perform clock intact s r) s.net.toB s.net.timers s.given r := by
  obtain ⟨-,-,-,htimers,-,hB,-⟩ := Net.perform_eq intact s.net r
  have hnet := (h.perform intact r).2.1
  refine ⟨perform_vars _ _ _ _,(perform_frame clock intact _ _).2.2,fun p => ?_,?_⟩
  · rw [hnet,hB,List.mem_append]
    refine or_congr_right ⟨fun hp => ?_,mem_arriving_ok⟩
    obtain ⟨p₀,hp₀,hor⟩ := mem_arriving hp
    obtain rfl : p = p₀ := hor.resolve_right fun hc => by cases fated_const hc.2
    exact hp₀
  · rw [hnet,htimers]

/-- The four kinds of rounds. -/
theorem round_leaves (h : Timely clock s)
    (hst : simStep clock (students W junk) msgs intact s = some t) :
    ∃ e rest, s.evlist = e :: rest ∧
    (e.evtype = .fromLayer5 ∧
      Leaves t s.net.toB s.net.timers (s.given ++ [msgs.getD s.given.length default])
        (aOutput W (msgs.getD s.given.length default) s.vars) ∨
     (∃ p, e.evtype = .fromLayer3 .A p ∧
      Leaves t s.net.toB s.net.timers s.given (aInput W p s.vars)) ∨
     (∃ p toB, e.evtype = .fromLayer3 .B p ∧ s.net.toB = p :: toB ∧
      Leaves t toB s.net.timers s.given (bInput p s.vars)) ∨
     ∃ q timers, e.evtype = .timeRInterrupt q ∧ s.net.timers = q :: timers ∧
      Leaves t s.net.toB timers s.given (aPacketTimeRinterrupt W q s.vars)) := by
  obtain ⟨e,rest,hl,hcase⟩ := simStep_cases hst
  have hadv := h.advance hl
  refine ⟨e,rest,hl,?_⟩
  rcases hcase with ⟨hty,r,hr,rfl⟩ | ⟨p,hty,rfl⟩ | ⟨p,hty,rfl⟩ | ⟨q,hty,rfl⟩
  · obtain rfl : aOutput W (msgs.getD s.given.length default) s.vars = r := Option.some.inj hr
    obtain ⟨hgen,hnet⟩ := hadv.generateNextArrival msgs
    have hadvnet : Sim.net { s with evlist := rest, time_ := e.evtime } = s.net := by
      simp [Sim.net,hl,packetTo,timerOf,hty]
    rw [hadvnet] at hnet
    generalize Rdt.generateNextArrival clock msgs { s with evlist := rest, time_ := e.evtime } =
      s' at *
    have hgen' : Timely clock
        { s' with given := s.given ++ [msgs.getD s.given.length default] } :=
      ⟨hgen.ordered,hgen.later,hgen.packet,hgen.timer⟩
    have hleaves := leaves_perform hgen' (aOutput W (msgs.getD s.given.length default) s.vars)
    have htoB : s'.net.toB = s.net.toB := congrArg Net.toB hnet
    have htimers : s'.net.timers = s.net.timers := congrArg Net.timers hnet
    change Leaves _ s'.net.toB s'.net.timers _ _ at hleaves
    rw [htoB,htimers] at hleaves
    exact Or.inl ⟨hty,hleaves⟩
  · have hnet : Sim.net { s with evlist := rest, time_ := e.evtime } =
        { s.net with toA := rest.filterMap (packetTo .A) } := by
      simp [Sim.net,hl,packetTo,timerOf,hty]
    have hleaves := leaves_perform hadv (aInput W p s.vars)
    rw [hnet] at hleaves
    exact Or.inr (Or.inl ⟨p,hty,hleaves⟩)
  · have hnet : Sim.net { s with evlist := rest, time_ := e.evtime } =
        { s.net with toB := rest.filterMap (packetTo .B) } := by
      simp [Sim.net,hl,packetTo,timerOf,hty]
    have hleaves := leaves_perform hadv (bInput p s.vars)
    rw [hnet] at hleaves
    exact Or.inr (Or.inr (Or.inl ⟨p,_,hty,by simp [Sim.net,hl,packetTo,hty],hleaves⟩))
  · have hnet : Sim.net { s with evlist := rest, time_ := e.evtime } =
        { s.net with timers := rest.filterMap timerOf } := by
      simp [Sim.net,hl,packetTo,timerOf,hty]
    have hleaves := leaves_perform hadv (aPacketTimeRinterrupt W q s.vars)
    rw [hnet] at hleaves
    exact Or.inr (Or.inr (Or.inr ⟨q,_,hty,by simp [Sim.net,hl,timerOf,hty],hleaves⟩))

/-- The trap, with the slots of the window in place of the packets in them. -/
theorem Sound.trap_iff (h : Sound clock W msgs s) : Trap W msgs s ↔
    s.given.length = msgs.length ∧ Missing s.vars.base s ∧ s.vars.base < s.vars.nextseqnum ∧
    ((s.vars.base : Int) ∉ s.net.timers ∨
      Misses W s.vars.winfront (s.vars.nextseqnum - s.vars.base) s.vars.base) := by
  have hmiss : (∀ i < s.vars.nextseqnum - s.vars.base,
      (s.vars.winbuf ((s.vars.winfront + i) % W)).seqnum ≠ s.vars.base) ↔
      Misses W s.vars.winfront (s.vars.nextseqnum - s.vars.base) s.vars.base :=
    h.safe.window.misses_iff
  rw [← hmiss]
  constructor
  · rintro ⟨hg,hw,hu,hgone,hnever⟩
    exact ⟨hg,⟨hw,hgone⟩,hu,hnever⟩
  · rintro ⟨hg,⟨hw,hgone⟩,hu,hnever⟩
    exact ⟨hg,hw,hu,hgone,hnever⟩

/-- The data packets that A sends are numbered from `nextseqnum` on. -/
theorem mem_sendCalls {base n : Nat} {ms : List Msg} {p : Pkt}
    (hp : p ∈ outOf .A (sendCalls base n ms)) : ∃ k, n ≤ k ∧ k < n + ms.length ∧ p.seqnum = k := by
  rw [outOf_sendCalls,List.mem_mapIdx] at hp
  obtain ⟨i,hi,rfl⟩ := hp
  exact ⟨n + i,by omega,by omega,dataPkt_seqnum _ _⟩

/-- An accepted acknowledgement leads into the trap exactly if it strands A. -/
theorem Sound.ack_strands (h : Sound clock W msgs s) (ht : Sound clock W msgs t) {a : Nat}
    (hlo : s.vars.base ≤ a) (hhi : a < s.vars.nextseqnum)
    (hleaves : Leaves t s.net.toB s.net.timers s.given (acceptAck W a s.vars)) :
    Trap W msgs t ↔ s.given.length = msgs.length ∧ Missing (a + 1) s ∧
      a + 1 < s.vars.nextseqnum ∧
      (s.vars.winfront = s.vars.winrear ∨
        (a + 1 : Nat) < (s.vars.winbuf s.vars.winfront).seqnum) ∧
      Misses W s.vars.winfront
        (min (s.vars.nextseqnum + s.vars.msgNum) (a + 1 + W) - (a + 1)) (a + 1) := by
  obtain ⟨hvars,hgiven,htoB,htimers⟩ := hleaves
  obtain ⟨hb,hn,-,hcalls⟩ := acceptAck_spec W a s.vars rfl
  have hexp : (acceptAck W a s.vars).1.expectedSeqnum = s.vars.expectedSeqnum := by
    rw [acceptAck_eq]
    exact (sendBuffered_frame _ _ _).2.1.trans (popAcked_frame W W { s.vars with base := a + 1 }).1
  have hfront : (acceptAck W a s.vars).1.winfront = (slid W a s.vars).winfront :=
    (acceptAck_winfront W a s.vars).1
  have hroom : s.vars.nextseqnum ≤ s.vars.base + W := h.bounds.2.2.2.2
  have hmin : s.vars.nextseqnum + min s.vars.msgNum (a + 1 + W - s.vars.nextseqnum) =
      min (s.vars.nextseqnum + s.vars.msgNum) (a + 1 + W) := by omega
  rw [hmin] at hn
  have hout : outOf .A (acceptAck W a s.vars).2 = outOf .A (sendCalls (a + 1) s.vars.nextseqnum
      ((queued s.vars).take (min s.vars.msgNum (a + 1 + W - s.vars.nextseqnum)))) := by
    rw [hcalls,outOf_append]
    split <;> simp
  rw [ht.trap_iff,hvars,hgiven,hb,hn,hfront]
  constructor
  · rintro ⟨hg,⟨hw,hgone⟩,hu,hnever⟩
    rw [hvars,hexp] at hw
    have hopen : a + 1 < s.vars.nextseqnum := by
      rcases Nat.lt_or_eq_of_le (Nat.succ_le_of_lt hhi) with hlt | heq
      · exact hlt
      · -- packet a + 1 has just been sent, so it is on its way
        exfalso
        have hlen := length_queued s.vars
        cases hq : queued s.vars with
        | nil =>
          rw [hq,List.length_nil] at hlen
          omega
        | cons m ms =>
          have hsend : dataPkt s.vars.nextseqnum m.data ∈ outOf .A (acceptAck W a s.vars).2 := by
            obtain ⟨k,hk⟩ : ∃ k, min s.vars.msgNum (a + 1 + W - s.vars.nextseqnum) = k + 1 :=
              ⟨_,(Nat.succ_pred_eq_of_pos (by omega)).symm⟩
            rw [hout,hq,hk,List.take_succ_cons,outOf_sendCalls,List.mapIdx_cons]
            simp
          refine hgone _ ((htoB _).mpr (Or.inr hsend)) (checkCorrupted_dataPkt _ _) ?_
          rw [dataPkt_seqnum,← heq]
    have hmiss : Misses W (slid W a s.vars).winfront
        (min (s.vars.nextseqnum + s.vars.msgNum) (a + 1 + W) - (a + 1)) (a + 1) := by
      refine hnever.resolve_left (not_not.mpr ?_)
      have hmem : ((acceptAck W a s.vars).1.base : Int) ∈
          timersAfter s.net.timers (acceptAck W a s.vars).2 := mem_timersAfter_acceptAck hopen
      rw [hb] at hmem
      rw [htimers]
      exact hmem
    have hstay := h.safe.window.stays_of_misses hopen (by omega) hmiss
    rw [slid_stays (v := s.vars) hstay] at hmiss
    exact ⟨hg,⟨hw,fun p hp => hgone p ((htoB p).mpr (Or.inl hp))⟩,hopen,hstay,hmiss⟩
  · rintro ⟨hg,⟨hw,hgone⟩,hopen,hstay,hmiss⟩
    rw [slid_stays hstay]
    refine ⟨hg,⟨by rw [hvars,hexp,hw],fun p hp hc => ?_⟩,by omega,Or.inr hmiss⟩
    rcases (htoB p).mp hp with hold | hnew
    · exact hgone p hold hc
    · rw [hout] at hnew
      obtain ⟨k,hk,-,hseq⟩ := mem_sendCalls hnew
      omega

/-- The last arrival leads into the trap exactly if it strands A. -/
theorem Sound.last_strands (ht : Sound clock W msgs t) (hW : 1 ≤ W)
    (hwide : 2 ≤ W ∨ msgs.length ≤ 1) {m : Msg}
    (hleaves : Leaves t s.net.toB s.net.timers (s.given ++ [m]) (aOutput W m s.vars)) :
    Trap W msgs t ↔ s.given.length + 1 = msgs.length ∧ s.vars.base < s.vars.nextseqnum ∧
      s.vars.nextseqnum < s.vars.base + W ∧ Missing s.vars.base s ∧
      Misses W s.vars.winfront (s.vars.nextseqnum + 1 - s.vars.base) s.vars.base := by
  obtain ⟨hvars,hgiven,htoB,htimers⟩ := hleaves
  rw [ht.trap_iff]
  have hpending : t.vars.base + 2 ≤ t.vars.nextseqnum → (t.vars.base : Int) ∈ t.net.timers :=
    ht.sending.paced.pending
  rcases Nat.lt_or_ge s.vars.nextseqnum (s.vars.base + W) with hlt | hge
  · rw [aOutput_of_lt hlt] at hvars htoB htimers
    rw [hvars] at hpending ⊢
    simp only [outOf_tolayer3,outOf_ite_timer,if_true,List.mem_singleton] at htoB hpending ⊢
    rw [hgiven,List.length_append,List.length_singleton]
    constructor
    · rintro ⟨hg,⟨hw,hgone⟩,hu,hnever⟩
      rw [hvars] at hw
      have hopen : s.vars.base < s.vars.nextseqnum := by
        refine lt_of_le_of_ne (by omega) fun he => ?_
        -- packet base has just been sent
        refine hgone _ ((htoB _).mpr (Or.inr rfl)) (checkCorrupted_dataPkt _ _) ?_
        rw [dataPkt_seqnum,he]
      exact ⟨hg,hopen,hlt,⟨hw,fun p hp => hgone p ((htoB p).mpr (Or.inl hp))⟩,
        hnever.resolve_left (not_not.mpr (hpending (by omega)))⟩
    · rintro ⟨hg,hopen,-,⟨hw,hgone⟩,hmiss⟩
      refine ⟨hg,⟨by rw [hvars]; exact hw,fun p hp hc => ?_⟩,by omega,Or.inr hmiss⟩
      rcases (htoB p).mp hp with hold | rfl
      · exact hgone p hold hc
      · rw [dataPkt_seqnum]
        omega
  · -- the window is full, so its timeout reads every slot
    rw [aOutput_of_ge hge] at hvars
    have hb := ht.bounds
    rw [hvars] at hpending hb ⊢
    simp only at hpending hb ⊢
    constructor
    · rintro ⟨hg,-,hu,hnever⟩
      have hfull : s.vars.nextseqnum - s.vars.base = W := by omega
      rw [hfull] at hnever
      rcases hnever with hno | hmiss
      · exact absurd (hpending (by omega)) hno
      · exact absurd hmiss (not_misses_all hW _ _)
    · rintro ⟨-,-,hlt,-⟩
      omega

/-- A round in which neither end moves on comes from the trap if it leads there: what it took
off the channel was no intact copy of the packet that B waits for. -/
theorem Sound.trap_of_leaves (h : Sound clock W msgs s) (ht : Sound clock W msgs t)
    {toB : List Pkt} {timers : List Int} {cs : List Call}
    (hleaves : Leaves t toB timers s.given (s.vars,cs))
    (htoB : ∀ p ∈ s.net.toB, p ∈ toB ∨ checkCorrupted p = true ∨ p.seqnum ≠ s.vars.expectedSeqnum)
    (htimers : (s.vars.base : Int) ∈ s.net.timers → (s.vars.base : Int) ∈ timersAfter timers cs)
    (htrap : Trap W msgs t) : Trap W msgs s := by
  obtain ⟨hvars,hgiven,hsub,htimers'⟩ := hleaves
  rw [ht.trap_iff,hvars,hgiven,htimers'] at htrap
  obtain ⟨hg,⟨hw,hgone⟩,hu,hnever⟩ := htrap
  rw [hvars] at hw
  refine h.trap_iff.mpr ⟨hg,⟨hw,fun p hp hc => ?_⟩,hu,hnever.imp_left fun hno hq => hno (htimers hq)⟩
  rcases htoB p hp with hin | hcor | hne
  · exact hgone p ((hsub p).mpr (Or.inl hin)) hc
  · rw [hc] at hcor
    cases hcor
  · rw [← hw]
    exact hne

/-- A round over an intact channel leads into the trap exactly if it strands A, or if it
starts there. -/
theorem Sound.trap_step (h : Sound clock W msgs s) (hW : 1 ≤ W)
    (hwide : 2 ≤ W ∨ msgs.length ≤ 1)
    (hst : simStep clock (students W junk) msgs intact s = some t) :
    Trap W msgs t ↔ Trap W msgs s ∨ Strands W msgs s := by
  have ht := (h.intact_round hst).1
  obtain ⟨e,rest,hl,hcase⟩ := round_leaves h.timely hst
  constructor
  · intro htrap
    rcases hcase with ⟨hty,hleaves⟩ | ⟨p,hty,hleaves⟩ | ⟨p,toB,hty,hp,hleaves⟩ |
      ⟨q,timers,hty,hq,hleaves⟩
    · obtain ⟨hg,hopen,hlt,hmissing,hmiss⟩ := (ht.last_strands hW hwide hleaves).mp htrap
      exact Or.inr (.last e rest hl hty hg hopen hlt hmissing hmiss)
    · rcases aInput_cases W p s.vars with he | ⟨a,hc,hpa,h0,hlo,hhi,he⟩
      · rw [he] at hleaves
        exact Or.inl (h.trap_of_leaves ht hleaves (fun _ => Or.inl) id htrap)
      · rw [he] at hleaves
        obtain ⟨hg,hmissing,hopen,hstay,hmiss⟩ := (h.ack_strands ht hlo hhi hleaves).mp htrap
        exact Or.inr (.ack e rest p a hl hty hc hpa h0 hlo hopen hg hmissing hstay hmiss)
    · left
      rcases bInput_cases p s.vars with ⟨hc,he⟩ | ⟨hseq,he⟩ | ⟨hne,he⟩
      · rw [he] at hleaves
        refine h.trap_of_leaves ht hleaves (fun p' hp' => ?_) id htrap
        rw [hp] at hp'
        rcases List.mem_cons.mp hp' with rfl | hp'
        · exact Or.inr (Or.inl hc)
        · exact Or.inl hp'
      · -- B moves on, but in the trap it waits for base
        exfalso
        rw [he] at hleaves
        have hw := htrap.waits
        have hle := h.bounds.1
        rw [hleaves.vars] at hw
        simp only at hw
        omega
      · rw [he] at hleaves
        refine h.trap_of_leaves ht hleaves (fun p' hp' => ?_) id htrap
        rw [hp] at hp'
        rcases List.mem_cons.mp hp' with rfl | hp'
        · exact Or.inr (Or.inr hne)
        · exact Or.inl hp'
    · left
      by_cases hb : q = s.vars.base
      · have he : aPacketTimeRinterrupt W q s.vars =
            (s.vars,resendWindow W s.vars ++ [.starttimeR s.vars.base]) := by
          simp [aPacketTimeRinterrupt,hb]
        rw [he] at hleaves
        refine h.trap_of_leaves ht hleaves (fun _ => Or.inl) (fun _ => ?_) htrap
        rw [timersAfter_append]
        simp [timersAfter]
      · have he : aPacketTimeRinterrupt W q s.vars = (s.vars,[]) := by
          simp [aPacketTimeRinterrupt,hb]
        rw [he] at hleaves
        refine h.trap_of_leaves ht hleaves (fun _ => Or.inl) (fun hmem => ?_) htrap
        rw [hq] at hmem
        exact (List.mem_cons.mp hmem).resolve_left fun heq => hb heq.symm
  · rintro (htrap | hstrands)
    · exact htrap.step h hst
    · cases hstrands with
      | ack e' rest' p a hl' hty' hc hpa h0 hlo hopen hg hmissing hstay hmiss =>
        obtain ⟨rfl,rfl⟩ := List.cons.inj (hl.symm.trans hl')
        rcases hcase with ⟨hty,-⟩ | ⟨p',hty,hleaves⟩ | ⟨p',toB,hty,-⟩ | ⟨q,timers,hty,-⟩
        · rw [hty'] at hty
          cases hty
        · rw [hty'] at hty
          cases hty
          rw [aInput_of_ack hc hpa h0 hlo (by omega)] at hleaves
          exact (h.ack_strands ht hlo (by omega) hleaves).mpr ⟨hg,hmissing,hopen,hstay,hmiss⟩
        · rw [hty'] at hty
          cases hty
        · rw [hty'] at hty
          cases hty
      | last e' rest' hl' hty' hg hopen hlt hmissing hmiss =>
        obtain ⟨rfl,rfl⟩ := List.cons.inj (hl.symm.trans hl')
        rcases hcase with ⟨hty,hleaves⟩ | ⟨p',hty,-⟩ | ⟨p',toB,hty,-⟩ | ⟨q,timers,hty,-⟩
        · exact (ht.last_strands hW hwide hleaves).mpr ⟨hg,hopen,hlt,hmissing,hmiss⟩
        · rw [hty'] at hty
          cases hty
        · rw [hty'] at hty
          cases hty
        · rw [hty'] at hty
          cases hty

/-- A run that does not start in the trap gets there exactly by a step that strands A. -/
theorem Sound.free_iff (h : Sound clock W msgs s) (hW : 1 ≤ W)
    (hwide : 2 ≤ W ∨ msgs.length ≤ 1) :
    (∀ t, Reaches (simStep clock (students W junk) msgs intact) s t → ¬Trap W msgs t) ↔
      ¬Trap W msgs s ∧
      ∀ t, Reaches (simStep clock (students W junk) msgs intact) s t → ¬Strands W msgs t := by
  constructor
  · intro hfree
    refine ⟨hfree s (Reaches.refl s),fun t ht hstrands => ?_⟩
    have hsound := (h.kept_of_reaches ht).1
    obtain ⟨e,rest,hl⟩ : ∃ e rest, t.evlist = e :: rest := by
      cases hstrands with
      | ack e rest p a hl => exact ⟨e,rest,hl⟩
      | last e rest hl => exact ⟨e,rest,hl⟩
    obtain ⟨u,hu,-⟩ := forward_or_idle clock W junk msgs hsound.timely hl
    exact hfree u (ht.trans (Reaches.single hu))
      ((hsound.trap_step hW hwide hu).mpr (Or.inr hstrands))
  · rintro ⟨hs,hno⟩ t ht
    refine (ht.invariant (I := fun t => Sound clock W msgs t ∧ ¬Trap W msgs t ∧
      Reaches (simStep clock (students W junk) msgs intact) s t) ?_ ⟨h,hs,Reaches.refl s⟩).2.1
    rintro a b hst ⟨ha,hta,hr⟩
    refine ⟨(ha.intact_round hst).1,fun htb => ?_,hr.trans (Reaches.single hst)⟩
    rcases (ha.trap_step hW hwide hst).mp htb with htrap | hstrands
    · exact hta htrap
    · exact hno a hr hstrands

/-- From any state the simulator can reach, an intact channel brings the run to its end
with everything delivered, exactly when the window is not too narrow for the
acknowledgements, nothing has been overwritten, the state is no trap, and no later step
overwrites a waiting message or strands A. The clock has to run on, and no corrupted packet
may pass for another one. -/
theorem goBackN_recovers (clock : Clock T) (W : Nat) (junk : Nat → Pkt) (msgs : List Msg)
    (pattern : Nat → Fate) (s : Sim T Vars) (hW : 1 ≤ W)
    (h : Reaches (simStep clock (students W junk) msgs pattern)
      (init clock (students W junk) msgs) s)
    (hclean : Clean msgs.length s.net) (hpass : Passing clock (students W junk) msgs s) :
    Eventually (simStep clock (students W junk) msgs intact) (Drained msgs) s ↔
      (2 ≤ W ∨ msgs.length ≤ 1) ∧ AllKept s.net.soup ∧ ¬Trap W msgs s ∧
      ∀ t, Reaches (simStep clock (students W junk) msgs intact) s t →
        ¬Loses W msgs t ∧ ¬Strands W msgs t := by
  have hs := sound_of_reaches h hclean
  constructor
  · intro hd
    obtain ⟨hwide,hkept,hrun⟩ := hs.of_drains hW hd
    obtain ⟨htrap,hstrands⟩ := (hs.free_iff hW hwide).mp fun t ht => (hrun t ht).2
    exact ⟨hwide,hkept,htrap,fun t ht => ⟨(hrun t ht).1,hstrands t ht⟩⟩
  · rintro ⟨hwide,hkept,htrap,hrun⟩
    have hfree := (hs.free_iff hW hwide).mpr ⟨htrap,fun t ht => (hrun t ht).2⟩
    exact hs.drains hW hwide hpass hkept fun t ht => ⟨(hrun t ht).1,hfree t ht⟩

end Stranding

/-- The first packet handed to layer 3 is lost. -/
def firstLost (n : Nat) : Fate := if n = 0 then .lost else .ok

/-- The run of one message over that channel, with a window of eight. -/
def sampleSim (n : Nat) : Option (Sim ℚ Vars) :=
  run (simStep unitClock (students 8 default) [default] firstLost) n
    (init unitClock (students 8 default) [default])

/-- No timer was started for the packet, so the main loop ends with nothing delivered. -/
theorem sampleSim_stops :
    (sampleSim 1).map (fun s => (s.evlist.length,s.taken.length)) = some (0,0) := by
  decide +kernel

theorem not_goBackN_always_recovers :
    ¬∀ (W : Nat) (junk : Nat → Pkt) (msgs : List Msg) (pattern : Nat → Fate) (s : Sim ℚ Vars),
      1 ≤ W →
      Reaches (simStep (exactClock 1 (by decide)) (students W junk) msgs pattern)
        (init (exactClock 1 (by decide)) (students W junk) msgs) s →
      Eventually (simStep (exactClock 1 (by decide)) (students W junk) msgs intact)
        (Drained msgs) s := by
  intro h
  obtain ⟨s,hs,hlen⟩ := Option.map_eq_some_iff.mp sampleSim_stops
  obtain ⟨hnil,htaken⟩ := Prod.mk.injEq _ _ _ _ ▸ hlen
  rw [List.length_eq_zero_iff] at hnil
  cases h 8 default [default] firstLost s (by decide) ⟨1,hs⟩ with
  | now hd =>
    rw [hd.2] at htaken
    cases htaken
  | later hst _ => simp [simStep,hnil] at hst

/-- Three messages over a window of two, with packet 1 lost the first time. -/
def sampleMsgs : List Msg :=
  [⟨Vector.replicate 20 97⟩,⟨Vector.replicate 20 98⟩,⟨Vector.replicate 20 99⟩]

def secondLost (n : Nat) : Fate := if n = 1 then .lost else .ok

def lossySim (n : Nat) : Option (Sim ℚ Vars) :=
  run (simStep unitClock (students 2 default) sampleMsgs secondLost) n
    (init unitClock (students 2 default) sampleMsgs)

/-- Behind the loss the third message waits in the buffer. -/
theorem lossySim_lost : (lossySim 3).map (fun s =>
    (s.handed.map (fun h => h.2.2),s.vars.msgNum)) = some ([.ok,.lost],1) := by
  decide +kernel

/-- Nine rounds later all is delivered. -/
theorem lossySim_drained : ((lossySim 3).bind
    (run (simStep unitClock (students 2 default) sampleMsgs intact) 9)).map
      (fun t => (t.evlist.length,t.taken)) = some (0,sampleMsgs.map Msg.data) := by
  decide +kernel

theorem goBackN_recovers_lossySim : ∃ s, lossySim 3 = some s ∧
    s.handed.map (fun h => h.2.2) = [.ok,.lost] ∧
    Eventually (simStep (exactClock 1 (by decide)) (students 2 default) sampleMsgs intact)
      (Drained sampleMsgs) s ∧ AllKept s.net.soup ∧ ¬Trap 2 sampleMsgs s ∧
    ∀ t, Reaches (simStep (exactClock 1 (by decide)) (students 2 default) sampleMsgs intact) s t →
      ¬Loses 2 sampleMsgs t ∧ ¬Strands 2 sampleMsgs t := by
  obtain ⟨s,hs,hlost⟩ := Option.map_eq_some_iff.mp lossySim_lost
  obtain ⟨t,ht,hend⟩ := Option.map_eq_some_iff.mp lossySim_drained
  rw [hs,Option.bind_some] at ht
  simp only [Prod.mk.injEq] at hlost hend
  have hd : Eventually (simStep (exactClock 1 (by decide)) (students 2 default) sampleMsgs intact)
      (Drained sampleMsgs) s :=
    eventually_iff_reaches.mpr ⟨t,⟨9,ht⟩,List.length_eq_zero_iff.mp hend.1,hend.2⟩
  have hcond := (goBackN_recovers (exactClock 1 (by decide)) 2 default sampleMsgs secondLost s
    (by decide) ⟨3,hs⟩ (Or.inl (by decide))
    fun _ _ x _ => exactClock_passes 1 (by decide) x.evtime).mp hd
  exact ⟨s,hs,hlost.1,hd,hcond.2⟩

end NetworkLab.Gbn
