import NetworkLab.Rdt.Statistics
import NetworkLab.Gbn.Timer
set_option autoImplicit false

/-! What the statistics of `gbn.c` say at any moment of a run. -/

namespace NetworkLab.Gbn
open Rdt Relation

def aOutputStats (W : Nat) (s : Vars) (k : Stats) : Stats :=
  if s.nextseqnum < s.base + W then { k with packetSent := k.packetSent + 1 } else k

/-- The loop of `sendBuffered`. -/
def sendBufferedStats (W : Nat) : Nat → Vars → Stats → Stats
  | 0, _, k => k
  | fuel+1, s, k =>
    if 0 < s.msgNum ∧ s.nextseqnum < s.base + W then
      sendBufferedStats W fuel (aOutput W (s.buffer s.buffront) (dropBuffered s)).1
        (aOutputStats W (dropBuffered s) k)
    else k

/-- `packet_correct += (acknum - base + 1);` before `base` moves. -/
def acceptAckStats (W : Nat) (acknum : Int) (s : Vars) (k : Stats) : Stats :=
  let s' := popAcked W W { s with base := (acknum + 1).toNat }
  sendBufferedStats W s'.msgNum s'
    { k with packetCorrect := k.packetCorrect + (acknum - s.base + 1) }

def aInputStats (W : Nat) (packet : Pkt) (s : Vars) (k : Stats) : Stats :=
  if checkCorrupted packet then k
  else if packet.acknum = notused then k
  else if (s.base : Int) ≤ packet.acknum ∧ packet.acknum < s.nextseqnum then
    acceptAckStats W packet.acknum s k
  else k

def aPacketTimeRinterruptStats (pktSeq : Int) (s : Vars) (k : Stats) : Stats :=
  if pktSeq ≠ s.base then k
  else { k with packetSent := k.packetSent + (s.nextseqnum - s.base)
                packetResent := k.packetResent + (s.nextseqnum - s.base)
                packetTimeOut := k.packetTimeOut + 1 }

def bInputStats (packet : Pkt) (s : Vars) (k : Stats) : Stats :=
  if checkCorrupted packet then { k with packetCorrupt := k.packetCorrupt + 1 }
  else if packet.seqnum = s.expectedSeqnum then
    { k with packetReceieve := k.packetReceieve + 1 }
  else k

/-- This file's `tolayer3` leaves the statistics alone. -/
def counting (W : Nat) : Counting Vars where
  aOutput := aOutputStats W
  aInput := aInputStats W
  aPacketTimeRinterrupt := aPacketTimeRinterruptStats
  bInput := bInputStats
  tolayer3 _ k := k

section Functions
variable {W : Nat} {v : Vars} {k : Stats}

/-- A new packet is counted, and has the next number. -/
theorem aOutputStats_eq (m : Msg) :
    aOutputStats W v k = { k with
      packetSent := k.packetSent + (outOf .A (aOutput W m v).2).length } ∧
    (aOutput W m v).1.nextseqnum = v.nextseqnum + (outOf .A (aOutput W m v).2).length := by
  rcases Nat.lt_or_ge v.nextseqnum (v.base + W) with hlt | hge
  · rw [outOf_aOutput_of_lt hlt,aOutput_of_lt hlt,aOutputStats,if_pos hlt]
    exact ⟨rfl,rfl⟩
  · rw [aOutput_of_ge hge,aOutputStats,if_neg (Nat.not_lt.mpr hge)]
    exact ⟨rfl,rfl⟩

theorem sendBufferedStats_eq (fuel : Nat) :
    sendBufferedStats W fuel v k = { k with
      packetSent := k.packetSent + (outOf .A (sendBuffered W fuel v).2).length } ∧
    (sendBuffered W fuel v).1.nextseqnum =
      v.nextseqnum + (outOf .A (sendBuffered W fuel v).2).length := by
  induction fuel generalizing v k with
  | zero => exact ⟨rfl,rfl⟩
  | succ fuel ih =>
    by_cases hgo : 0 < v.msgNum ∧ v.nextseqnum < v.base + W
    · obtain ⟨hstats,hnext⟩ := aOutputStats_eq (W := W) (v := dropBuffered v) (k := k)
        (v.buffer v.buffront)
      obtain ⟨hstats',hnext'⟩ := ih (v := (aOutput W (v.buffer v.buffront) (dropBuffered v)).1)
        (k := aOutputStats W (dropBuffered v) k)
      simp only [sendBufferedStats,sendBuffered,if_pos hgo,outOf_append,List.length_append]
      refine ⟨?_,?_⟩
      · rw [hstats',hstats]
        simp only [Nat.add_assoc]
      · rw [hnext',hnext,Nat.add_assoc]
        rfl
    · rw [sendBufferedStats,if_neg hgo,sendBuffered_of_not hgo]
      exact ⟨rfl,rfl⟩

theorem acceptAckStats_eq (a : Nat) :
    acceptAckStats W a v k = { k with
      packetSent := k.packetSent + (outOf .A (acceptAck W a v).2).length
      packetCorrect := k.packetCorrect + ((a + 1 : Nat) - (v.base : Int)) } ∧
    (acceptAck W a v).1.nextseqnum =
      v.nextseqnum + (outOf .A (acceptAck W a v).2).length ∧
    (acceptAck W a v).1.base = a + 1 := by
  have ha : ((a : Int) + 1).toNat = a + 1 := by omega
  obtain ⟨hbase,hnext,-⟩ := slid_frame W a v
  obtain ⟨hstats,hsent⟩ := sendBufferedStats_eq (W := W) (v := slid W a v)
    (k := { k with packetCorrect := k.packetCorrect + ((a : Int) - v.base + 1) })
    (slid W a v).msgNum
  have hout : outOf .A (acceptAck W a v).2 =
      outOf .A (sendBuffered W (slid W a v).msgNum (slid W a v)).2 := by
    rw [acceptAck_eq]
    simp
  refine ⟨?_,?_,?_⟩
  · simp only [acceptAckStats,ha]
    rw [hout]
    refine hstats.trans ?_
    have hc : k.packetCorrect + ((a : Int) - v.base + 1) =
        k.packetCorrect + ((a + 1 : Nat) - (v.base : Int)) := by omega
    rw [hc]
  · rw [hout,acceptAck_eq,hsent,hnext]
  · rw [acceptAck_eq]
    exact (sendBuffered_frame W _ _).1.trans hbase

end Functions

/-- What the statistics are worth: `s` is the network, `k` the counters. -/
structure Ledger (W : Nat) (s : Net Vars) (k : Stats) : Prop where
  window : Window W s.vars (sentBy .A s.handed)
  paced : Paced s.vars s.timers
  sent : k.packetSent = (sentBy .A s.handed).length
  resent : k.packetSent = s.vars.nextseqnum + k.packetResent
  timeOut : k.packetTimeOut ≤ k.packetResent ∧ k.packetResent ≤ W*k.packetTimeOut
  correct : k.packetCorrect = s.vars.base
  receieve : k.packetReceieve = s.taken.length ∧ s.vars.expectedSeqnum = s.taken.length
  lost : k.packetLost = 0
  arrived : (sentBy .A s.handed).length =
    fatesBy .lost .A s.handed + s.toB.length + k.packetCorrupt + (sentBy .B s.handed).length

theorem ledger_init (W : Nat) (junk : Nat → Pkt) :
    Ledger W (Net.init (students W junk)) Stats.zero := by
  refine ⟨window_aInit W junk,?_,rfl,rfl,⟨Nat.le_refl 0,Nat.zero_le _⟩,rfl,⟨rfl,rfl⟩,rfl,rfl⟩
  constructor <;> simp [Net.init,students,aInit]

section Steps
variable {W : Nat} {pattern : Nat → Fate} {junk : Nat → Pkt} {s t : Net Vars} {k k' : Stats}

@[simp] theorem counting_tolayer3s (hs : List (Entity × Pkt × Fate)) :
    (counting W).tolayer3s hs k = k := by
  unfold Counting.tolayer3s
  induction hs with
  | nil => rfl
  | cons h hs ih => exact ih

/-- A function of A. -/
theorem Ledger.sender (h : Ledger W s k) (l : List Msg) (ps : List Pkt) (ts : List Int)
    {r : Vars × List Call} (hwindow : Window W r.1 (sentBy .A s.handed ++ outOf .A r.2))
    (hpaced : Paced r.1 (timersAfter ts r.2)) (hB : outOf .B r.2 = [])
    (htaken : takenOf r.2 = []) (hexpected : r.1.expectedSeqnum = s.vars.expectedSeqnum)
    (hsent : k'.packetSent = k.packetSent + (outOf .A r.2).length)
    (hresent : k'.packetSent = r.1.nextseqnum + k'.packetResent)
    (htime : k'.packetTimeOut ≤ k'.packetResent ∧ k'.packetResent ≤ W*k'.packetTimeOut)
    (hcorrect : k'.packetCorrect = r.1.base)
    (hkeeps : k'.packetReceieve = k.packetReceieve ∧ k'.packetLost = k.packetLost ∧
      k'.packetCorrupt = k.packetCorrupt) :
    Ledger W (Net.perform pattern { s with given := l, toA := ps, timers := ts } r) k' := by
  obtain ⟨hv,-,htk,htm,hhanded,htoB,-⟩ :=
    Net.perform_eq pattern { s with given := l, toA := ps, timers := ts } r
  have harr := length_arriving .A (fated pattern s.cp r.2)
  rw [sentBy_fated] at harr
  have hold := h.arrived
  have hsent' := h.sent
  have hrec := h.receieve
  have hlost := h.lost
  constructor
  · rw [hv,hhanded,sentBy_append,sentBy_fated]
    exact hwindow
  · rw [hv,htm]
    exact hpaced
  · rw [hhanded,sentBy_append,sentBy_fated,List.length_append,hsent,hsent']
  · rw [hv]
    exact hresent
  · exact htime
  · rw [hv]
    exact hcorrect
  · rw [hv,htk,htaken,List.append_nil,hexpected,hkeeps.1]
    exact hrec
  · rw [hkeeps.2.1]
    exact hlost
  · rw [hhanded,htoB]
    simp only [sentBy_append,sentBy_fated,List.length_append,fatesBy_append,hB]
    simp only [List.length_nil]
    omega

theorem Ledger.submit (h : Ledger W s k) (m : Msg) :
    Ledger W (Net.perform pattern { s with given := s.given ++ [m] } (aOutput W m s.vars))
      (aOutputStats W s.vars k) := by
  obtain ⟨hstats,hnext⟩ := aOutputStats_eq (W := W) (v := s.vars) (k := k) m
  have hresent := h.resent
  rw [hstats]
  refine h.sender _ s.toA s.timers h.window.aOutput h.paced.aOutput (by simp) (by simp) (by simp)
    rfl ?_ h.timeOut ?_ ⟨rfl,rfl,rfl⟩
  · simp only
    omega
  · simpa using h.correct

theorem aInputStats_cases (W : Nat) (p : Pkt) (v : Vars) (k : Stats) :
    aInput W p v = (v,[]) ∧ aInputStats W p v k = k ∨
    ∃ a : Nat, v.base ≤ a ∧ a < v.nextseqnum ∧ aInput W p v = acceptAck W a v ∧
      aInputStats W p v k = acceptAckStats W a v k := by
  unfold aInputStats
  rcases aInput_cases W p v with he | ⟨a,hc,hpa,h0,hlo,hhi,he⟩
  · by_cases hc : checkCorrupted p = true
    · exact Or.inl ⟨he,if_pos hc⟩
    · by_cases h0 : p.acknum = notused
      · exact Or.inl ⟨he,by rw [if_neg hc,if_pos h0]⟩
      · by_cases hr : (v.base : Int) ≤ p.acknum ∧ p.acknum < v.nextseqnum
        · obtain ⟨a,ha⟩ := Int.eq_ofNat_of_zero_le (by omega : (0 : Int) ≤ p.acknum)
          refine Or.inr ⟨a,by omega,by omega,?_,?_⟩
          · rw [aInput,if_neg hc,if_neg h0,if_pos hr,ha]
          · rw [if_neg hc,if_neg h0,if_pos hr,ha]
        · exact Or.inl ⟨he,by rw [if_neg hc,if_neg h0,if_neg hr]⟩
  · have h0' : ¬p.acknum = notused := by
      unfold notused
      omega
    refine Or.inr ⟨a,hlo,hhi,he,?_⟩
    rw [if_neg (by simp [hc]),if_neg h0',if_pos (by omega),hpa]

theorem Ledger.recvA (h : Ledger W s k) (p : Pkt) (rest : List Pkt) :
    Ledger W (Net.perform pattern { s with toA := rest } (aInput W p s.vars))
      (aInputStats W p s.vars k) := by
  rcases aInputStats_cases W p s.vars k with ⟨he,hk⟩ | ⟨a,hlo,hhi,he,hk⟩
  · rw [he,hk]
    exact h.sender s.given rest s.timers (by simpa using h.window) h.paced rfl rfl rfl rfl
      h.resent h.timeOut h.correct ⟨rfl,rfl,rfl⟩
  · obtain ⟨hstats,hnext,hbase⟩ := acceptAckStats_eq (W := W) (v := s.vars) (k := k) a
    have hframe := sendBuffered_frame W (slid W a s.vars).msgNum (slid W a s.vars)
    have hslid := popAcked_frame W W { s.vars with base := a + 1 }
    have hcalls := acceptAck_eq W a s.vars
    have hresent := h.resent
    have hcorrect := h.correct
    rw [he,hk,hstats]
    refine h.sender s.given rest s.timers (h.window.acceptAck hlo hhi) (h.paced.acceptAck hlo)
      ?_ ?_ ?_ rfl ?_ h.timeOut ?_ ⟨rfl,rfl,rfl⟩
    · rw [hcalls]
      simpa using hframe.2.2.2.1
    · rw [hcalls]
      simpa using hframe.2.2.2.2
    · rw [hcalls]
      exact hframe.2.1.trans hslid.1
    · simp only
      omega
    · simp only
      omega

/-- The timer of `base` runs only while a packet is out, so a timeout sends one at least. -/
theorem Ledger.fire (h : Ledger W s k) {q : Int} {before after : List Int}
    (hq : s.timers = before ++ q :: after) :
    Ledger W (Net.perform pattern { s with timers := before ++ after }
      (aPacketTimeRinterrupt W q s.vars)) (aPacketTimeRinterruptStats q s.vars k) := by
  have hmem : ∀ r ∈ before ++ after, r ∈ s.timers := by
    intro r hr
    rw [hq]
    simp only [List.mem_append,List.mem_cons] at hr ⊢
    exact hr.imp_right Or.inr
  have hstale : ∀ r ∈ before ++ after, _ := fun r hr => h.paced.stale r (hmem r hr)
  unfold aPacketTimeRinterrupt aPacketTimeRinterruptStats
  by_cases hne : q ≠ s.vars.base
  · rw [if_pos hne,if_pos hne]
    refine h.sender s.given s.toA _ (by simpa using h.window) ⟨fun hp => ?_,hstale⟩
      rfl rfl rfl rfl h.resent h.timeOut h.correct ⟨rfl,rfl,rfl⟩
    have hb := h.paced.pending hp
    rw [hq] at hb
    simp only [List.mem_append,List.mem_cons] at hb
    simp only [timersAfter_nil,List.mem_append]
    rcases hb with hb | rfl | hb
    · exact Or.inl hb
    · exact absurd rfl hne
    · exact Or.inr hb
  · obtain rfl : q = s.vars.base := Decidable.not_not.mp hne
    obtain ⟨b,hb,-,hout,-⟩ := h.paced.stale s.vars.base (by simp [hq])
    have hfull := h.window.next_le
    have hresent := h.resent
    obtain ⟨htime,hbound⟩ := h.timeOut
    have hlen : (outOf .A (resendWindow W s.vars)).length = s.vars.nextseqnum - s.vars.base := by
      simp
    have hts : timersAfter (before ++ after) (resendWindow W s.vars ++
        [.starttimeR s.vars.base]) = before ++ after ++ [(s.vars.base : Int)] := by
      rw [timersAfter_append,timersAfter_resendWindow]
      rfl
    have hB : outOf .B (resendWindow W s.vars) = [] := by
      simp [outOf,resendWindow,List.filterMap_map]
    have htaken : takenOf (resendWindow W s.vars) = [] := by
      simp [takenOf,resendWindow,List.filterMap_map]
    rw [if_neg hne,if_neg hne]
    refine h.sender s.given s.toA _ ?_ ?_ (by simp [hB]) (by simp [htaken]) rfl ?_ ?_ ?_
      h.correct ⟨rfl,rfl,rfl⟩
    · refine h.window.resent (fun p hp => h.window.mem_resend p ?_)
      simpa using hp
    · rw [hts]
      refine ⟨fun _ => by simp,fun r hr => ?_⟩
      rcases List.mem_append.mp hr with hr | hr
      · exact hstale r hr
      · rw [List.mem_singleton.mp hr]
        exact h.paced.stale s.vars.base (by simp [hq])
    · rw [outOf_append,List.length_append,hlen]
      rfl
    · simp only
      omega
    · simp only [Nat.mul_add,Nat.mul_one]
      omega

/-- Each packet that arrives at B is found corrupted or answered. -/
theorem Ledger.receiver (h : Ledger W s k) {p : Pkt} {rest : List Pkt} (hp : s.toB = p :: rest)
    {e : Nat} {cs : List Call} (hA : outOf .A cs = [])
    (htimers : timersAfter s.timers cs = s.timers)
    (hexpected : e = s.vars.expectedSeqnum + (takenOf cs).length) {c : Nat}
    (hcount : c + (outOf .B cs).length = 1) :
    Ledger W (Net.perform pattern { s with toB := rest } ({ s.vars with expectedSeqnum := e },cs))
      { k with packetCorrupt := k.packetCorrupt + c
               packetReceieve := k.packetReceieve + (takenOf cs).length } := by
  obtain ⟨hv,-,htk,htm,hhanded,htoB,-⟩ :=
    Net.perform_eq pattern { s with toB := rest } ({ s.vars with expectedSeqnum := e },cs)
  have harr := length_arriving .A (fated pattern s.cp cs)
  have hold := h.arrived
  have hrec := h.receieve
  rw [sentBy_fated,hA] at harr
  rw [hp] at hold
  constructor
  · rw [hv,hhanded,sentBy_append,sentBy_fated,hA,List.append_nil]
    exact h.window.frame rfl rfl rfl rfl rfl
  · rw [hv,htm,htimers]
    exact ⟨h.paced.pending,h.paced.stale⟩
  · rw [hhanded,sentBy_append,sentBy_fated,hA,List.append_nil]
    exact h.sent
  · rw [hv]
    exact h.resent
  · exact h.timeOut
  · rw [hv]
    exact h.correct
  · rw [hv,htk,List.length_append,hexpected,hrec.1,hrec.2]
    exact ⟨rfl,rfl⟩
  · exact h.lost
  · rw [hhanded,htoB]
    simp only [sentBy_append,sentBy_fated,List.length_append,fatesBy_append,hA]
    simp only [List.length_nil,List.length_cons] at harr hold ⊢
    omega

theorem Ledger.recvB (h : Ledger W s k) {p : Pkt} {rest : List Pkt} (hp : s.toB = p :: rest) :
    Ledger W (Net.perform pattern { s with toB := rest } (bInput p s.vars))
      (bInputStats p s.vars k) := by
  unfold bInput bInputStats
  by_cases hc : checkCorrupted p = true
  · rw [if_pos hc,if_pos hc]
    exact h.receiver hp (e := s.vars.expectedSeqnum) rfl rfl rfl (c := 1) rfl
  · rw [if_neg hc,if_neg hc]
    by_cases he : p.seqnum = s.vars.expectedSeqnum
    · rw [if_pos he,if_pos he]
      exact h.receiver hp (e := s.vars.expectedSeqnum + 1) rfl rfl rfl (c := 0) rfl
    · rw [if_neg he,if_neg he]
      exact h.receiver hp (e := s.vars.expectedSeqnum) rfl rfl rfl (c := 0) rfl

theorem Ledger.step (h : Ledger W s k)
    (hst : Counts pattern (students W junk) (counting W) (s,k) (t,k')) : Ledger W t k' := by
  cases hst with
  | @submit _ _ r m hm =>
    obtain rfl : aOutput W m s.vars = r := Option.some.inj hm
    rw [counting_tolayer3s]
    exact h.submit m
  | recvA p rest hp =>
    rw [counting_tolayer3s]
    exact h.recvA p rest
  | recvB p rest hp =>
    rw [counting_tolayer3s]
    exact h.recvB hp
  | fire q before after hq =>
    rw [counting_tolayer3s]
    exact h.fire hq

/-- In every run the printed statistics are what the names say, but for the losses, of which
none is ever counted. -/
theorem goBackN_statistics (W : Nat) (junk : Nat → Pkt) (pattern : Nat → Fate) (s : Net Vars)
    (k : Stats) (h : ReflTransGen (Counts pattern (students W junk) (counting W))
      (Net.init (students W junk),Stats.zero) (s,k)) :
    Net.Reachable pattern (students W junk) s ∧
    (k.packetSent = (sentBy .A s.handed).length ∧
      k.packetSent = s.vars.nextseqnum + k.packetResent) ∧
    (k.packetTimeOut ≤ k.packetResent ∧ k.packetResent ≤ W*k.packetTimeOut) ∧
    (k.packetCorrect = s.vars.base ∧ (printInfo k).packetCorrect = s.taken.length) ∧
    k.packetLost = 0 ∧
    k.packetSent = fatesBy .lost .A s.handed + s.toB.length + k.packetCorrupt +
      (sentBy .B s.handed).length := by
  obtain ⟨hreach,hl⟩ := counts_run (P := Ledger W) (ledger_init W junk)
    (fun _ _ _ _ hl hst => hl.step hst) h
  refine ⟨hreach,⟨hl.sent,hl.resent⟩,hl.timeOut,⟨hl.correct,?_⟩,hl.lost,hl.sent.trans hl.arrived⟩
  exact congrArg Nat.cast hl.receieve.1

/-- The first packet of two is lost and the first acknowledgement corrupted; after a timeout
both messages are delivered and acknowledged. -/
def lossyPattern (n : Nat) : Fate := if n = 0 then .lost else if n = 2 then .corrupt else .ok

def lossyRun : Option (Net Vars) :=
  Net.follow lossyPattern (students 2 default)
    [.submit ⟨Vector.replicate 20 97⟩,.submit ⟨Vector.replicate 20 98⟩,.recvB,.fire 0,
      .recvB,.recvB,.recvA,.recvA,.recvA] (Net.init (students 2 default))

theorem lossyRun_ends : lossyRun.map (fun s =>
    (s.vars.nextseqnum,s.vars.base,s.taken.length,(sentBy .A s.handed).length,
      fatesBy .lost .A s.handed)) = some (2,2,2,4,1) := by
  decide +kernel

theorem goBackN_statistics_lossyRun : ∃ s k, lossyRun = some s ∧
    ReflTransGen (Counts lossyPattern (students 2 default) (counting 2))
      (Net.init (students 2 default),Stats.zero) (s,k) ∧
    k.packetSent = 4 ∧ k.packetResent = 2 ∧ 1 ≤ k.packetTimeOut ∧ k.packetTimeOut ≤ 2 ∧
    k.packetCorrect = 2 ∧ (printInfo k).packetCorrect = 2 ∧
    k.packetLost = 0 ∧ fatesBy .lost .A s.handed = 1 := by
  obtain ⟨s,hs,hend⟩ := Option.map_eq_some_iff.mp lossyRun_ends
  simp only [Prod.mk.injEq] at hend
  obtain ⟨hnext,hbase,htaken,hlen,hlost⟩ := hend
  obtain ⟨k,hk⟩ := counted_of_reachable (counting 2)
    (Net.reachable_of_follow ReflTransGen.refl hs)
  obtain ⟨-,⟨hsent,hresent⟩,⟨hle,hge⟩,⟨hcorrect,hprint⟩,hzero,-⟩ :=
    goBackN_statistics 2 default lossyPattern s k hk
  exact ⟨s,k,hs,hk,by omega,by omega,by omega,by omega,by omega,by omega,hzero,hlost⟩

end Steps

end NetworkLab.Gbn
