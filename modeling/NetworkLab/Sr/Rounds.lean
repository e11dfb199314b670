import NetworkLab.Sr.Receiver
import NetworkLab.Rdt.Refinement
set_option autoImplicit false

/-! The simulator when nothing is lost and every message is acknowledged before layer 5 gives
the next one. -/

namespace NetworkLab.Sr
open Rdt Slots TimedList Machine

/-- Messages come a hundred units of time apart. -/
def slowClock : Clock ℚ := exactClock 100 (by norm_num)

/-- `n` messages are through, and the next one is planned. -/
structure Between (W n : Nat) (s : Sim ℚ Vars) : Prop where
  evlist : ∃ t, s.evlist = [⟨t,.fromLayer5⟩]
  nsim : s.nsim = n + 1
  given : s.given.length = n
  sender : Sender W s.vars.a s.given []
  base : s.vars.a.base = n
  nextseqnum : s.vars.a.nextseqnum = n
  receiver : Receiver W s.vars.b s.given n s.taken
  expectedSeq : s.vars.b.expectedSeq = n

/-- Message `n` is on its way to B. -/
structure Underway (W n : Nat) (s : Sim ℚ Vars) : Prop where
  evlist : ∃ t, s.evlist = [⟨t + 15/2 - 1,.fromLayer3 .B (sentPkt s.given n)⟩,
    ⟨t + 15,.timeRInterrupt n⟩,⟨t + 100,.fromLayer5⟩]
  nsim : s.nsim = n + 2
  given : s.given.length = n + 1
  sender : Sender W s.vars.a s.given [(n : Int)]
  base : s.vars.a.base = n
  nextseqnum : s.vars.a.nextseqnum = n + 1
  receiver : Receiver W s.vars.b s.given (n + 1) s.taken
  expectedSeq : s.vars.b.expectedSeq = n

/-- The acknowledgement of message `n` is on its way back. -/
structure Answered (W n : Nat) (s : Sim ℚ Vars) : Prop where
  evlist : ∃ t u v, s.evlist = [⟨t,.fromLayer3 .A (ackPkt n)⟩,⟨u,.timeRInterrupt n⟩,
    ⟨v,.fromLayer5⟩]
  nsim : s.nsim = n + 2
  given : s.given.length = n + 1
  sender : Sender W s.vars.a s.given [(n : Int)]
  base : s.vars.a.base = n
  nextseqnum : s.vars.a.nextseqnum = n + 1
  receiver : Receiver W s.vars.b s.given (n + 1) s.taken
  expectedSeq : s.vars.b.expectedSeq = n + 1

section Rounds
variable {W n : Nat} {junk : Nat → Pkt} {msgs : List Msg} {s : Sim ℚ Vars}

theorem between_init (h : 0 < msgs.length) :
    Between W 0 (init slowClock (students W junk) msgs) := by
  have hlt : ¬msgs.length ≤ 0 := Nat.not_le.mpr h
  unfold init generateNextArrival
  rw [if_neg hlt]
  exact ⟨⟨_,rfl⟩,rfl,rfl,sender_aInit W junk,rfl,rfl,receiver_bInit W,rfl⟩

/-- Layer 5 gives the next message. -/
theorem Between.arrival (h : Between W n s) (hW : 0 < W) (hn : n + 1 < msgs.length) :
    ∃ t, simStep slowClock (students W junk) msgs intact s = some t ∧ Underway W n t := by
  obtain ⟨time,hl⟩ := h.evlist
  generalize hm : msgs.getD s.given.length default = m
  have hlt : s.vars.a.nextseqnum < s.vars.a.base + W := by
    rw [h.base,h.nextseqnum]
    omega
  have hout : aOutput W m s.vars.a = some (sendPacket W m s.vars.a) := if_pos hlt
  obtain ⟨hsender,-,-⟩ := h.sender.aOutput hout
  have hmore : ¬msgs.length ≤ s.nsim := by
    rw [h.nsim]
    omega
  have hgen : generateNextArrival slowClock msgs { s with evlist := [], time_ := time } =
      { s with
        evlist := [⟨time + 100,.fromLayer5⟩]
        time_ := time
        nsim := s.nsim + 1 } := if_neg hmore
  have hst := simStep_arrival slowClock (students W junk) msgs intact hl rfl
  rw [hgen,hm] at hst
  simp only [students,hout,Option.map_some] at hst
  refine ⟨_,hst,⟨time,?_⟩,congrArg (· + 1) h.nsim,?_,?_,?_,?_,?_,?_⟩
  · have hpkt : dataPkt s.vars.a.nextseqnum m.data = sentPkt (s.given ++ [m]) n := by
      simp [sentPkt,h.nextseqnum,← h.given]
    change insertTimed Event.evtime ⟨time + 15,.timeRInterrupt s.vars.a.nextseqnum⟩
      (insertTimed Event.evtime ⟨time + 15/2 - 1,
        .fromLayer3 .B (dataPkt s.vars.a.nextseqnum m.data)⟩ [⟨time + 100,.fromLayer5⟩]) =
      [⟨time + 15/2 - 1,.fromLayer3 .B (sentPkt (s.given ++ [m]) n)⟩,_,_]
    rw [hpkt,h.nextseqnum,insertTimed_of_lt (by simp only; linarith),
      insertTimed_of_le (by simp only; linarith),insertTimed_of_lt (by simp only; linarith)]
  · change (s.given ++ [m]).length = n + 1
    rw [List.length_append,h.given,List.length_singleton]
  · change Sender W _ _ [(s.vars.a.nextseqnum : Int)] at hsender
    rw [h.nextseqnum] at hsender
    exact hsender
  · exact h.base
  · exact congrArg (· + 1) h.nextseqnum
  · exact h.receiver.grow h.given.ge (Nat.le_succ n) [m] (Or.inr ⟨m,rfl⟩)
  · exact h.expectedSeq

/-- `B_input` on the packet that B waits for, with nothing behind it. -/
theorem Underway.bInput (h : Underway W n s) (hW : 0 < W) :
    ∃ d, (Sr.bInput W (sentPkt s.given n) s.vars.b).2 = [.tolayer3 .B (ackPkt n),.tolayer5 d] ∧
      Receiver W (Sr.bInput W (sentPkt s.given n) s.vars.b).1 s.given (n + 1) (s.taken ++ [d]) ∧
      (Sr.bInput W (sentPkt s.given n) s.vars.b).1.expectedSeq = n + 1 := by
  have hexp := h.expectedSeq
  have hbehind : ∀ i, Has W s.vars.b i → i < n + W := by
    rintro i (hi | hi)
    · omega
    · have := (h.receiver.of_marked hW hi).1
      omega
  rcases bInput_spec h.receiver hW h.given.ge (Nat.lt_succ_self n) (by omega) (by omega) hbehind with
    ⟨hm,-⟩ | ⟨-,hr⟩
  · rw [← hexp] at hm
    exact absurd hm h.receiver.waits
  · have hnew : (Sr.bInput W (sentPkt s.given n) s.vars.b).1.expectedSeq = n + 1 := by
      have hlo := hr.expected_le
      have hhi := hr.receiver.expected_le
      rcases (hr.has n).mpr (Or.inr rfl) with hlt | hm
      · omega
      · by_contra hne
        have he : n = (Sr.bInput W (sentPkt s.given n) s.vars.b).1.expectedSeq := by omega
        exact hr.receiver.waits (he ▸ hm)
    have hold := congrArg List.length h.receiver.taken_eq
    have htaken := congrArg List.length hr.receiver.taken_eq
    have hgiven := h.given
    simp only [List.length_append,List.length_map,List.length_take,hnew] at hold htaken
    obtain ⟨d,hd⟩ := List.length_eq_one_iff.mp
      (show (takenOf (Sr.bInput W (sentPkt s.given n) s.vars.b).2).length = 1 by omega)
    refine ⟨d,?_,hd ▸ hr.receiver,hnew⟩
    rw [hr.calls,hd]
    rfl

/-- The packet arrives. -/
theorem Underway.delivered (h : Underway W n s) (hW : 0 < W) :
    ∃ t, simStep slowClock (students W junk) msgs intact s = some t ∧ Answered W n t := by
  obtain ⟨time,hl⟩ := h.evlist
  obtain ⟨d,hcalls,hreceiver,hexp⟩ := h.bInput hW
  have hst := simStep_packetB slowClock (students W junk) msgs intact hl rfl
  simp only [students,hcalls] at hst
  refine ⟨_,hst,⟨time + 15/2 - 1 + 15/2 - 1,time + 15,time + 100,?_⟩,h.nsim,h.given,h.sender,h.base,
    h.nextseqnum,hreceiver,hexp⟩
  change insertTimed Event.evtime ⟨time + 15/2 - 1 + 15/2 - 1,.fromLayer3 .A (ackPkt n)⟩
    [⟨time + 15,.timeRInterrupt n⟩,⟨time + 100,.fromLayer5⟩] = _
  exact insertTimed_of_lt (by simp only; linarith)

/-- `A_input` on the only acknowledgement that A waits for. -/
theorem Answered.aInput (h : Answered W n s) :
    (Sr.aInput W (ackPkt n) s.vars.a).2 = [.stoptimeR n] ∧
    Sender W (Sr.aInput W (ackPkt n) s.vars.a).1 s.given [] ∧
    (Sr.aInput W (ackPkt n) s.vars.a).1.base = n + 1 ∧
    (Sr.aInput W (ackPkt n) s.vars.a).1.nextseqnum = n + 1 := by
  have hbase := h.base
  have hnext := h.nextseqnum
  have hu : Unacked W s.vars.a n := by
    have := h.sender.head (by omega)
    rwa [hbase] at this
  have hr : Sr.aInput W (ackPkt n) s.vars.a = Sr.acceptAck W n s.vars.a := by
    rcases aInput_cases h.sender (ackPkt n) with ⟨hno,-⟩ | ⟨k,-,hk,-,hr⟩
    · exact absurd hu (hno n (checkCorrupted_ackPkt _) rfl)
    · obtain rfl : n = k := Int.ofNat.inj hk
      exact hr
  obtain ⟨hsender,hs⟩ := h.sender.acceptAck hu
  have hcount := h.sender.queue.count
  have hcount' := hsender.queue.count
  have hgiven := h.given
  have hle := hs.next_le
  have hwin := hsender.ring.base_le
  have hcalls : (Sr.acceptAck W n s.vars.a).2 = [.stoptimeR n] := by
    obtain ⟨-,-,hframe,-⟩ := slide_spec (h.sender.ring.markAcked hu) (Nat.le_refl _)
    change slide W s.vars.a.pktnum (markAcked (n % W) s.vars.a) = _ at hframe
    have hm : (slide W s.vars.a.pktnum (markAcked (n % W) s.vars.a)).msgNum = 0 := by
      rw [hframe]
      change s.vars.a.msgNum = 0
      omega
    simp only [Sr.acceptAck,hm]
    rfl
  rw [hr]
  refine ⟨hcalls,?_,?_,by omega⟩
  · rw [hcalls] at hsender
    simpa [timersAfter] using hsender
  · by_contra hne
    have hlo := hs.base_le
    rcases (hs.unacked _).mp (hsender.head (by omega)) with ⟨hk,hkn⟩ | ⟨hge,hlt⟩
    · have := hk.2.1
      have := hk.1
      omega
    · omega

/-- The acknowledgement arrives, and the round is over. -/
theorem Answered.acknowledged (h : Answered W n s) :
    ∃ t, simStep slowClock (students W junk) msgs intact s = some t ∧ Between W (n + 1) t := by
  obtain ⟨time,u,v,hl⟩ := h.evlist
  obtain ⟨hcalls,hsender,hbase,hnext⟩ := h.aInput
  have hst := simStep_packetA slowClock (students W junk) msgs intact hl rfl
  simp only [students,hcalls] at hst
  refine ⟨_,hst,⟨v,?_⟩,h.nsim,h.given,hsender,hbase,hnext,h.receiver,h.expectedSeq⟩
  exact List.eraseP_cons_of_pos (by simp [isTimer])

/-- As many rounds as there are messages. -/
theorem reaches_between (hW : 0 < W) (hn : n < msgs.length) :
    ∃ s, Reaches (simStep slowClock (students W junk) msgs intact)
      (init slowClock (students W junk) msgs) s ∧ Between W n s := by
  induction n with
  | zero => exact ⟨_,Reaches.refl _,between_init hn⟩
  | succ n ih =>
    obtain ⟨s,hr,hs⟩ := ih (Nat.lt_of_succ_lt hn)
    obtain ⟨t,hst,ht⟩ := hs.arrival hW hn
    obtain ⟨u,htu,hu⟩ := ht.delivered hW
    obtain ⟨v,huv,hv⟩ := hu.acknowledged
    exact ⟨v,((hr.trans (Reaches.single hst)).trans (Reaches.single htu)).trans
      (Reaches.single huv),hv⟩

variable (junk) in
theorem reaches_underway (hW : 0 < W) (hn : n + 1 < msgs.length) :
    ∃ s, Reaches (simStep slowClock (students W junk) msgs intact)
      (init slowClock (students W junk) msgs) s ∧ Underway W n s := by
  obtain ⟨s,hr,hs⟩ := reaches_between hW (Nat.lt_of_succ_lt hn)
  obtain ⟨t,hst,ht⟩ := hs.arrival hW hn
  exact ⟨t,hr.trans (Reaches.single hst),ht⟩

end Rounds

end NetworkLab.Sr
