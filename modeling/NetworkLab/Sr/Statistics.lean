import NetworkLab.Rdt.Statistics
import NetworkLab.Sr.Sender
set_option autoImplicit false

/-! What the statistics of `stable.c` say at any moment of a run. -/

namespace NetworkLab.Sr
open Rdt Relation

def aOutputStats (W : Nat) (s : AVars) (k : Stats) : Stats :=
  if s.nextseqnum < s.base + W then { k with packetSent := k.packetSent + 1 } else k

/-- The loop of `slide`. -/
def slideStats (W : Nat) : Nat → AVars → Stats → Stats
  | 0, _, k => k
  | fuel+1, s, k =>
    if 0 < s.pktnum ∧ (s.winbuf s.winfront).acknum = 1 ∧
        (s.winbuf s.winfront).seqnum = s.base then
      slideStats W fuel { s with base := s.base + 1
                                 winfront := (s.winfront + 1) % W
                                 pktnum := s.pktnum - 1 }
        { k with ackAdvNum := k.ackAdvNum + 1 }
    else k

/-- The loop of `sendBuffered`. -/
def sendBufferedStats (W : Nat) : Nat → AVars → Stats → Stats
  | 0, _, k => k
  | fuel+1, s, k =>
    if 0 < s.msgNum ∧ s.nextseqnum < s.base + W then
      sendBufferedStats W fuel (sendPacket W (s.buffer s.buffront) (dropBuffered s)).1
        { k with packetSent := k.packetSent + 1 }
    else k

def aInputStats (W : Nat) (packet : Pkt) (s : AVars) (k : Stats) : Stats :=
  if checkCorrupted packet then k
  else if packet.acknum < s.base ∨ (s.nextseqnum : Int) ≤ packet.acknum then k
  else
    match findUnacked W packet.acknum s with
    | none => k
    | some foundIndex =>
      let s' := slide W s.pktnum (markAcked foundIndex s)
      sendBufferedStats W s'.msgNum s' (slideStats W s.pktnum (markAcked foundIndex s) k)

def aPacketTimeRinterruptStats (W : Nat) (pktSeq : Int) (s : AVars) (k : Stats) : Stats :=
  let k := { k with packetTimeOut := k.packetTimeOut + 1 }
  match findUnacked W pktSeq s with
  | none => k
  | some _ => { k with packetSent := k.packetSent + 1, packetResent := k.packetResent + 1 }

/-- The loop of `deliver`. -/
def deliverStats (W : Nat) : Nat → BVars → Stats → Stats
  | 0, _, k => k
  | fuel+1, s, k =>
    let slot := s.expectedSeq % W
    if s.recvMarked slot = true ∧ (s.recvWindow slot).seqnum = s.expectedSeq then
      deliverStats W fuel
        { s with recvMarked := Function.update s.recvMarked slot false
                 expectedSeq := s.expectedSeq + 1 }
        { k with packetReceieve := k.packetReceieve + 1 }
    else k

def bInputStats (W : Nat) (packet : Pkt) (s : BVars) (k : Stats) : Stats :=
  if checkCorrupted packet then k
  else if inWindow W packet.seqnum s.expectedSeq then
    let slot := (packet.seqnum.tmod W).toNat
    if s.recvMarked slot = false ∨ (s.recvWindow slot).seqnum ≠ packet.seqnum then
      deliverStats W W (store slot packet s) k
    else deliverStats W W s k
  else k

/-- This file's `tolayer3` counts what it loses and corrupts, whoever sends. -/
def tolayer3Stats (fate : Fate) (k : Stats) : Stats :=
  match fate with
  | .ok => k
  | .corrupt => { k with packetCorrupt := k.packetCorrupt + 1 }
  | .lost => { k with packetLost := k.packetLost + 1 }

def counting (W : Nat) : Counting Vars where
  aOutput s := aOutputStats W s.a
  aInput p s := aInputStats W p s.a
  aPacketTimeRinterrupt q s := aPacketTimeRinterruptStats W q s.a
  bInput p s := bInputStats W p s.b
  tolayer3 := tolayer3Stats

section Functions
variable {W : Nat} {v : AVars} {b : BVars} {k : Stats} {given : List Msg} {timers : List Int}

theorem slideStats_eq (fuel : Nat) :
    slideStats W fuel v k = { k with ackAdvNum := k.ackAdvNum + (slide W fuel v).base - v.base } ∧
    v.base ≤ (slide W fuel v).base ∧ (slide W fuel v).nextseqnum = v.nextseqnum := by
  induction fuel generalizing v k with
  | zero => exact ⟨by simp [slideStats,slide],Nat.le_refl _,rfl⟩
  | succ fuel ih =>
    by_cases hgo : 0 < v.pktnum ∧ (v.winbuf v.winfront).acknum = 1 ∧
        (v.winbuf v.winfront).seqnum = v.base
    · obtain ⟨hstats,hbase,hnext⟩ := ih
        (v := { v with base := v.base + 1, winfront := (v.winfront + 1) % W,
                       pktnum := v.pktnum - 1 })
        (k := { k with ackAdvNum := k.ackAdvNum + 1 })
      simp only [slideStats,slide,if_pos hgo]
      simp only at hbase
      refine ⟨hstats.trans ?_,by omega,hnext⟩
      simp only [Stats.mk.injEq,and_true]
      omega
    · simp [slideStats,slide,hgo]

theorem sendBufferedStats_eq (fuel : Nat) :
    sendBufferedStats W fuel v k = { k with
      packetSent := k.packetSent + (outOf .A (sendBuffered W fuel v).2).length } ∧
    (sendBuffered W fuel v).1.nextseqnum =
      v.nextseqnum + (outOf .A (sendBuffered W fuel v).2).length := by
  induction fuel generalizing v k with
  | zero => exact ⟨rfl,rfl⟩
  | succ fuel ih =>
    by_cases hgo : 0 < v.msgNum ∧ v.nextseqnum < v.base + W
    · obtain ⟨hstats,hnext⟩ := ih (v := (sendPacket W (v.buffer v.buffront) (dropBuffered v)).1)
        (k := { k with packetSent := k.packetSent + 1 })
      have hone :
          (outOf .A (sendPacket W (v.buffer v.buffront) (dropBuffered v)).2).length = 1 := by
        simp [sendPacket]
      simp only [sendBufferedStats,sendBuffered,if_pos hgo,outOf_append,List.length_append,hone]
      refine ⟨hstats.trans ?_,hnext.trans ?_⟩
      · simp only [Nat.add_assoc]
      · simp only [sendPacket,dropBuffered]
        omega
    · rw [sendBufferedStats,if_neg hgo,sendBuffered_of_not hgo]
      exact ⟨rfl,rfl⟩

theorem deliverStats_eq (fuel : Nat) :
    deliverStats W fuel b k = { k with
      packetReceieve := k.packetReceieve + (takenOf (deliver W fuel b).2).length } ∧
    (deliver W fuel b).1.expectedSeq =
      b.expectedSeq + (takenOf (deliver W fuel b).2).length ∧
    outOf .A (deliver W fuel b).2 = [] ∧ ∀ ts, timersAfter ts (deliver W fuel b).2 = ts := by
  induction fuel generalizing b k with
  | zero => exact ⟨rfl,rfl,rfl,fun _ => rfl⟩
  | succ fuel ih =>
    by_cases hgo : b.recvMarked (b.expectedSeq % W) = true ∧
        (b.recvWindow (b.expectedSeq % W)).seqnum = b.expectedSeq
    · obtain ⟨hstats,hnext,hA,ht⟩ := ih
        (b := { b with recvMarked := Function.update b.recvMarked (b.expectedSeq % W) false
                       expectedSeq := b.expectedSeq + 1 })
        (k := { k with packetReceieve := k.packetReceieve + 1 })
      simp only [deliverStats,deliver,if_pos hgo,takenOf_tolayer5,outOf_tolayer5,
        List.length_cons]
      refine ⟨hstats.trans ?_,hnext.trans ?_,hA,ht⟩
      · simp only [Stats.mk.injEq,true_and]
        omega
      · simp only
        omega
    · simp [deliverStats,deliver,hgo]

theorem aInputStats_eq (p : Pkt) :
    aInputStats W p v k = { k with
      ackAdvNum := k.ackAdvNum + (aInput W p v).1.base - v.base
      packetSent := k.packetSent + (outOf .A (aInput W p v).2).length } ∧
    v.base ≤ (aInput W p v).1.base ∧
    (aInput W p v).1.nextseqnum = v.nextseqnum + (outOf .A (aInput W p v).2).length := by
  unfold aInputStats aInput
  by_cases hc : checkCorrupted p = true
  · simp [hc]
  · by_cases hr : p.acknum < v.base ∨ (v.nextseqnum : Int) ≤ p.acknum
    · simp [hc,hr]
    · rw [if_neg hc,if_neg hc,if_neg hr,if_neg hr]
      cases findUnacked W p.acknum v with
      | none => simp
      | some idx =>
        obtain ⟨hslide,hbase,hnext⟩ :=
          slideStats_eq (W := W) (v := markAcked idx v) (k := k) v.pktnum
        simp only
        generalize slide W v.pktnum (markAcked idx v) = s at *
        obtain ⟨hstats,hsent⟩ := sendBufferedStats_eq (W := W) (v := s)
          (k := slideStats W v.pktnum (markAcked idx v) k) s.msgNum
        rw [hstats,hslide,hsent,sendBuffered_base,outOf_stoptimeR]
        exact ⟨rfl,hbase,by rw [hnext]; rfl⟩

theorem bInputStats_eq (p : Pkt) :
    bInputStats W p b k = { k with
      packetReceieve := k.packetReceieve + (takenOf (bInput W p b).2).length } ∧
    (bInput W p b).1.expectedSeq = b.expectedSeq + (takenOf (bInput W p b).2).length ∧
    outOf .A (bInput W p b).2 = [] ∧ ∀ ts, timersAfter ts (bInput W p b).2 = ts := by
  unfold bInputStats bInput
  by_cases hc : checkCorrupted p = true
  · simp [hc]
  · by_cases hin : inWindow W p.seqnum b.expectedSeq
    · simp only [hc,hin,if_true,Bool.false_eq_true,if_false]
      generalize (p.seqnum.tmod W).toNat = slot
      by_cases hnew : b.recvMarked slot = false ∨ (b.recvWindow slot).seqnum ≠ p.seqnum
      · obtain ⟨h₁,h₂,h₃,h₄⟩ := deliverStats_eq (W := W) (b := store slot p b) (k := k) W
        rw [if_pos hnew,if_pos hnew]
        exact ⟨h₁,h₂,h₃,h₄⟩
      · rw [if_neg hnew,if_neg hnew]
        exact deliverStats_eq W
    · simp only [hc,hin,if_false,Bool.false_eq_true]
      exact ⟨rfl,rfl,rfl,fun _ => rfl⟩

theorem tolayer3s_eq (hs : List (Entity × Pkt × Fate)) :
    (counting W).tolayer3s hs k = { k with
      packetLost := k.packetLost + (fatesBy .lost .A hs + fatesBy .lost .B hs)
      packetCorrupt := k.packetCorrupt + (fatesBy .corrupt .A hs + fatesBy .corrupt .B hs) } := by
  unfold Counting.tolayer3s
  induction hs generalizing k with
  | nil => rfl
  | cons h hs ih =>
    obtain ⟨e,p,f⟩ := h
    rw [List.foldl_cons,ih]
    cases e <;> cases f <;>
      simp only [counting,tolayer3Stats,fatesBy,List.countP_cons,Stats.mk.injEq,true_and,
        and_true,decide_true,decide_false,reduceCtorEq,Bool.and_true,Bool.and_false,
        Bool.false_eq_true,if_true,if_false] <;> omega

end Functions

/-- What the statistics are worth: `s` is the network, `k` the counters. -/
structure Ledger (W : Nat) (s : Net Vars) (k : Stats) : Prop where
  sender : Sender W s.vars.a s.given s.timers
  sent : k.packetSent = (sentBy .A s.handed).length
  resent : k.packetSent = s.vars.a.nextseqnum + k.packetResent
  timeOut : k.packetResent = k.packetTimeOut
  advanced : k.ackAdvNum = s.vars.a.base
  receieve : k.packetReceieve = s.taken.length ∧ s.vars.b.expectedSeq = s.taken.length
  lost : k.packetLost = fatesBy .lost .A s.handed + fatesBy .lost .B s.handed
  corrupt : k.packetCorrupt = fatesBy .corrupt .A s.handed + fatesBy .corrupt .B s.handed

theorem ledger_init (W : Nat) (junk : Nat → Pkt) :
    Ledger W (Net.init (students W junk)) Stats.zero :=
  ⟨sender_aInit W junk,rfl,rfl,rfl,rfl,⟨rfl,rfl⟩,rfl,rfl⟩

section Steps
variable {W : Nat} {pattern : Nat → Fate} {junk : Nat → Pkt} {s t : Net Vars} {k k' : Stats}

/-- One event: the function returned `r` and made `k'` of the counters, then `tolayer3`
counted. -/
theorem Ledger.perform (h : Ledger W s k) (l : List Msg) (ps qs : List Pkt) (ts : List Int)
    {r : Vars × List Call} (hsender : Sender W r.1.a l (timersAfter ts r.2))
    (hsent : k'.packetSent = k.packetSent + (outOf .A r.2).length)
    (hresent : k'.packetSent = r.1.a.nextseqnum + k'.packetResent)
    (htime : k'.packetResent = k'.packetTimeOut) (hadvanced : k'.ackAdvNum = r.1.a.base)
    (hreceieve : k'.packetReceieve = k.packetReceieve + (takenOf r.2).length)
    (hexpected : r.1.b.expectedSeq = s.vars.b.expectedSeq + (takenOf r.2).length)
    (hkeeps : k'.packetLost = k.packetLost ∧ k'.packetCorrupt = k.packetCorrupt) :
    Ledger W (Net.perform pattern { s with given := l, toA := ps, toB := qs, timers := ts } r)
      ((counting W).tolayer3s (fated pattern s.cp r.2) k') := by
  obtain ⟨hv,hgiven,htk,htm,hhanded,-,-⟩ :=
    Net.perform_eq pattern { s with given := l, toA := ps, toB := qs, timers := ts } r
  have hrec := h.receieve
  have hlost := h.lost
  have hcorrupt := h.corrupt
  rw [tolayer3s_eq]
  constructor
  · rw [hv,hgiven,htm]
    exact hsender
  · rw [hhanded,sentBy_append,sentBy_fated,List.length_append]
    exact hsent.trans (by rw [h.sent])
  · rw [hv]
    exact hresent
  · exact htime
  · rw [hv]
    exact hadvanced
  · rw [hv,htk,List.length_append,hexpected]
    exact ⟨hreceieve.trans (by rw [hrec.1]),by rw [hrec.2]⟩
  · simp only [hhanded,fatesBy_append]
    omega
  · simp only [hhanded,fatesBy_append]
    omega

theorem Ledger.step (h : Ledger W s k)
    (hst : Counts pattern (students W junk) (counting W) (s,k) (t,k')) : Ledger W t k' := by
  have hresent := h.resent
  have hadvanced := h.advanced
  cases hst with
  | @submit _ _ r m hm =>
    obtain ⟨r',hr',rfl⟩ := Option.map_eq_some_iff.mp hm
    obtain ⟨hsender,hs,hbase⟩ := h.sender.aOutput hr'
    have hstats : (counting W).aOutput s.vars k = { k with
        packetSent := k.packetSent + (outOf .A r'.2).length } ∧
        r'.1.nextseqnum = s.vars.a.nextseqnum + (outOf .A r'.2).length := by
      simp only [counting,aOutputStats]
      unfold aOutput at hr'
      split at hr'
      · obtain rfl := Option.some.inj hr'
        rename_i hlt
        rw [if_pos hlt]
        simp [sendPacket]
      · rename_i hge
        split at hr'
        · obtain rfl := Option.some.inj hr'
          rw [if_neg hge]
          exact ⟨rfl,rfl⟩
        · cases hr'
    rw [hstats.1]
    refine h.perform _ s.toA s.toB s.timers hsender rfl ?_ h.timeOut ?_ ?_ ?_ ⟨rfl,rfl⟩
    · simp only [hstats.2]
      omega
    · exact hadvanced.trans hbase.symm
    · rw [hs.taken]
      rfl
    · rw [hs.taken]
      rfl
  | recvA p rest hp =>
    obtain ⟨hstats,hbase,hnext⟩ := aInputStats_eq (W := W) (v := s.vars.a) (k := k) p
    have hkept : Sender W (aInput W p s.vars.a).1 s.given
        (timersAfter s.timers (aInput W p s.vars.a).2) ∧
        takenOf (aInput W p s.vars.a).2 = [] := by
      rcases aInput_cases h.sender p with ⟨-,he⟩ | ⟨j,-,-,hu,he⟩
      · rw [he]
        exact ⟨h.sender,rfl⟩
      · rw [he]
        obtain ⟨hsender,hs⟩ := h.sender.acceptAck hu
        exact ⟨hsender,hs.taken⟩
    have hcount : (counting W).aInput p s.vars k = aInputStats W p s.vars.a k := rfl
    rw [hcount,hstats]
    refine h.perform _ rest s.toB s.timers hkept.1 rfl ?_ h.timeOut ?_ ?_ ?_ ⟨rfl,rfl⟩
    · simp only [students,hnext]
      omega
    · simp only [students]
      omega
    · simp only [students]
      rw [hkept.2]
      rfl
    · simp only [students]
      rw [hkept.2]
      rfl
  | recvB p rest hp =>
    obtain ⟨hstats,hnext,hA,ht⟩ := bInputStats_eq (W := W) (b := s.vars.b) (k := k) p
    have hcount : (counting W).bInput p s.vars k = bInputStats W p s.vars.b k := rfl
    rw [hcount,hstats]
    refine h.perform _ s.toA rest s.timers ?_ ?_ ?_ h.timeOut hadvanced rfl hnext ⟨rfl,rfl⟩
    · simp only [students]
      rw [ht]
      exact h.sender
    · simp only [students]
      rw [hA]
      rfl
    · exact hresent
  | fire q before after hq =>
    obtain ⟨j,rfl,hu,he,hsender⟩ := h.sender.fire hq
    have hstats : (counting W).aPacketTimeRinterrupt j s.vars k = { k with
        packetTimeOut := k.packetTimeOut + 1, packetSent := k.packetSent + 1,
        packetResent := k.packetResent + 1 } := by
      simp only [counting,aPacketTimeRinterruptStats]
      rw [findUnacked_of_unacked h.sender.ring hu]
    have hr : (students W junk).aPacketTimeRinterrupt j s.vars =
        (s.vars,[.tolayer3 .A (sentPkt s.given j),.starttimeR j]) := by
      simp [students,he]
    rw [hstats,hr]
    refine h.perform _ s.toA s.toB _ ?_ ?_ ?_ ?_ hadvanced rfl rfl ⟨rfl,rfl⟩
    · simpa [timersAfter] using hsender
    · rfl
    · simp only
      omega
    · exact congrArg Nat.succ h.timeOut

/-- In every run each timeout is one retransmission, what is not one has a number of its own,
and the printed losses and corruptions are those of both directions. B's arrays have eight
slots, so a wider window writes outside them and is no run of this model. -/
theorem selectiveRepeat_statistics (W : Nat) (junk : Nat → Pkt) (pattern : Nat → Fate)
    (s : Net Vars) (k : Stats) (_hW : 1 ≤ W) (_hW8 : W ≤ 8)
    (h : ReflTransGen (Counts pattern (students W junk) (counting W))
      (Net.init (students W junk),Stats.zero) (s,k)) :
    Net.Reachable pattern (students W junk) s ∧
    (k.packetSent = (sentBy .A s.handed).length ∧
      k.packetSent = s.vars.a.nextseqnum + k.packetResent ∧
      k.packetResent = k.packetTimeOut) ∧
    (k.ackAdvNum = s.vars.a.base ∧ (printInfo k).packetCorrect = s.taken.length) ∧
    (k.packetLost = fatesBy .lost .A s.handed + fatesBy .lost .B s.handed ∧
      k.packetCorrupt = fatesBy .corrupt .A s.handed + fatesBy .corrupt .B s.handed) ∧
    k.packetSent + (sentBy .B s.handed).length =
      k.packetLost + k.packetCorrupt + (fatesBy .ok .A s.handed + fatesBy .ok .B s.handed) := by
  obtain ⟨hreach,hl⟩ := counts_run (P := Ledger W) (ledger_init W junk)
    (fun _ _ _ _ hl hst => hl.step hst) h
  refine ⟨hreach,⟨hl.sent,hl.resent,hl.timeOut⟩,⟨hl.advanced,?_⟩,⟨hl.lost,hl.corrupt⟩,?_⟩
  · exact congrArg Nat.cast hl.receieve.1
  · have hA := length_fates .A s.handed
    have hB := length_fates .B s.handed
    have hsent := hl.sent
    have hlost := hl.lost
    have hcorrupt := hl.corrupt
    omega

/-- The first packet of two is lost and the first acknowledgement corrupted; the two timeouts
bring both messages over. -/
def lossyPattern (n : Nat) : Fate := if n = 0 then .lost else if n = 2 then .corrupt else .ok

def lossyRun : Option (Net Vars) :=
  Net.follow lossyPattern (students 2 default)
    [.submit ⟨Vector.replicate 20 97⟩,.submit ⟨Vector.replicate 20 98⟩,.recvB,.recvA,.fire 0,
      .fire 1,.recvB,.recvB,.recvA,.recvA] (Net.init (students 2 default))

theorem lossyRun_ends : lossyRun.map (fun s =>
    (s.vars.a.nextseqnum,s.vars.a.base,s.taken.length,(sentBy .A s.handed).length,
      (sentBy .B s.handed).length)) = some (2,2,2,4,3) := by
  decide +kernel

theorem lossyRun_fates : lossyRun.map (fun s =>
    (fatesBy .lost .A s.handed,fatesBy .lost .B s.handed,fatesBy .corrupt .A s.handed,
      fatesBy .corrupt .B s.handed)) = some (1,0,0,1) := by
  decide +kernel

theorem selectiveRepeat_statistics_lossyRun : ∃ s k, lossyRun = some s ∧
    ReflTransGen (Counts lossyPattern (students 2 default) (counting 2))
      (Net.init (students 2 default),Stats.zero) (s,k) ∧
    k.packetSent = 4 ∧ k.packetResent = 2 ∧ k.packetTimeOut = 2 ∧ k.ackAdvNum = 2 ∧
    (printInfo k).packetCorrect = 2 ∧ k.packetLost = 1 ∧ k.packetCorrupt = 1 := by
  obtain ⟨s,hs,hend⟩ := Option.map_eq_some_iff.mp lossyRun_ends
  have hfates := lossyRun_fates
  rw [hs,Option.map_some,Option.some.injEq] at hfates
  simp only [Prod.mk.injEq] at hend hfates
  obtain ⟨hnext,hbase,htaken,hlen,-⟩ := hend
  obtain ⟨hlostA,hlostB,hcorA,hcorB⟩ := hfates
  obtain ⟨k,hk⟩ := counted_of_reachable (counting 2)
    (Net.reachable_of_follow ReflTransGen.refl hs)
  obtain ⟨-,⟨hsent,hresent,htimeOut⟩,⟨hadv,hprint⟩,⟨hlost,hcorrupt⟩,-⟩ :=
    selectiveRepeat_statistics 2 default lossyPattern s k (by decide) (by decide) hk
  exact ⟨s,k,hs,hk,by omega,by omega,by omega,by omega,by omega,by omega,by omega⟩

end Steps

end NetworkLab.Sr
