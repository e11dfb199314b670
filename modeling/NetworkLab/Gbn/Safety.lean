import NetworkLab.Gbn.Window
set_option autoImplicit false

/-! End-to-end safety of Go-Back-N over a channel that loses, repeats, reorders and
corrupts. -/

namespace NetworkLab.Gbn
open Rdt Relation

/-- The three ways through `B_input`. -/
theorem bInput_cases (p : Pkt) (v : Vars) :
    checkCorrupted p = true ∧ bInput p v = (v,[]) ∨
    p.seqnum = v.expectedSeqnum ∧
      bInput p v = ({ v with expectedSeqnum := v.expectedSeqnum + 1 },
        [.tolayer5 p.payload,.tolayer3 .B (ackPkt v.expectedSeqnum)]) ∨
    p.seqnum ≠ v.expectedSeqnum ∧
      bInput p v = (v,[.tolayer3 .B (ackPkt (v.expectedSeqnum - 1))]) := by
  unfold bInput
  by_cases hc : checkCorrupted p = true
  · exact Or.inl ⟨hc,by simp [hc]⟩
  · by_cases hs : p.seqnum = v.expectedSeqnum
    · exact Or.inr (Or.inl ⟨hs,by simp [hc,hs]⟩)
    · exact Or.inr (Or.inr ⟨hs,by simp [hc,hs]⟩)

/-- The messages that layer 5 gave are either packets or still in the buffer. -/
theorem aOutput_count (W : Nat) (m : Msg) (v : Vars) :
    (aOutput W m v).1.nextseqnum + (aOutput W m v).1.msgNum =
      v.nextseqnum + v.msgNum + 1 := by
  unfold aOutput
  split <;> simp only <;> omega

theorem sendBuffered_count (W fuel : Nat) (v : Vars) :
    (sendBuffered W fuel v).1.nextseqnum + (sendBuffered W fuel v).1.msgNum =
      v.nextseqnum + v.msgNum := by
  have := sendBuffered_induct (W := W)
    (P := fun v' _ => v'.nextseqnum + v'.msgNum = v.nextseqnum + v.msgNum)
    (fun v' cs hm _ hp => by
      rw [aOutput_count]
      simp only [dropBuffered_frame]
      omega)
    fuel v [] rfl
  exact this

/-- What the two ends agree on. Every acknowledgement that B ever handed over is below
`expected_seqnum`, so A cannot slide past B. -/
structure Safe (W : Nat) (s : Soup Vars) : Prop where
  window : Window W s.vars (s.out .A)
  base_le : s.vars.base ≤ s.vars.expectedSeqnum
  expected_le : s.vars.expectedSeqnum ≤ s.vars.nextseqnum
  acks : ∀ p ∈ s.out .B, p.acknum < s.vars.expectedSeqnum
  count : s.vars.nextseqnum + s.vars.msgNum = s.given.length
  taken : s.taken.length = s.vars.expectedSeqnum
  order : ∀ k < s.vars.expectedSeqnum, ∃ p ∈ s.out .A,
    p.seqnum = k ∧ s.taken[k]? = some p.payload

theorem safe_init (W : Nat) (junk : Nat → Pkt) : Safe W (Soup.init (students W junk)) := by
  constructor
  · exact window_aInit W junk
  all_goals simp [Soup.init,students,aInit,Soup.out]

/-- A corrupted packet is noticed, or its number is one that no packet has. -/
def Harmless (noise : Pkt → Prop) (n : Nat) : Prop :=
  (∀ p, noise p → checkCorrupted p = true) ∨ n < 999999

section Steps
variable {W : Nat} {s : Soup Vars}

/-- A student function that leaves B alone and keeps the window. -/
theorem Safe.sender {r : Vars × List Call} (h : Safe W s) (n : Nat)
    (hw : Window W r.1 (s.out .A ++ outOf .A r.2))
    (he : r.1.expectedSeqnum = s.vars.expectedSeqnum)
    (hb : r.1.base ≤ s.vars.expectedSeqnum)
    (hn : s.vars.nextseqnum ≤ r.1.nextseqnum)
    (hc : r.1.nextseqnum + r.1.msgNum = n)
    (hB : outOf .B r.2 = []) (ht : takenOf r.2 = [])
    {g : List Msg} (hg : g.length = n) :
    Safe W (Soup.perform { s with given := g } r) := by
  obtain ⟨hv,hgiven,htaken,-,hout⟩ := Soup.perform_eq { s with given := g } r
  have houtA : (Soup.perform { s with given := g } r).out .A = s.out .A ++ outOf .A r.2 :=
    hout .A
  have houtB : (Soup.perform { s with given := g } r).out .B = s.out .B := by
    rw [hout .B,hB]
    simp [Soup.out]
  rw [ht,List.append_nil] at htaken
  constructor
  · rw [hv,houtA]
    exact hw
  · rw [hv,he]
    exact hb
  · rw [hv,he]
    exact h.expected_le.trans hn
  · rw [hv,he,houtB]
    exact h.acks
  · rw [hv,hgiven,hc]
    exact hg.symm
  · rw [hv,he,htaken]
    exact h.taken
  · rw [hv,he,htaken,houtA]
    intro k hk
    obtain ⟨p,hp,hs⟩ := h.order k hk
    exact ⟨p,List.mem_append_left _ hp,hs⟩

theorem Safe.submit (h : Safe W s) (m : Msg) :
    Safe W (Soup.perform { s with given := s.given ++ [m] } (aOutput W m s.vars)) := by
  have hc := aOutput_count W m s.vars
  have hcount := h.count
  refine h.sender (s.given.length + 1) h.window.aOutput (by simp) (by simpa using h.base_le)
    ?_ (by omega) (by simp) (by simp) (by simp)
  unfold aOutput
  split <;> simp

theorem Safe.acceptAck {a : Nat} (h : Safe W s) (hlo : s.vars.base ≤ a)
    (hhi : a < s.vars.expectedSeqnum) :
    Safe W (s.perform (acceptAck W a s.vars)) := by
  have hw := h.window.acceptAck hlo (Nat.lt_of_lt_of_le hhi h.expected_le)
  obtain ⟨hb,he,hn,hB,ht⟩ :=
    sendBuffered_frame W (slid W a s.vars).msgNum (slid W a s.vars)
  obtain ⟨pe,pb,pn,pm,-⟩ := popAcked_frame W W { s.vars with base := a + 1 }
  have hcount := sendBuffered_count W (slid W a s.vars).msgNum (slid W a s.vars)
  have hgiven := h.count
  rw [acceptAck_eq] at hw ⊢
  refine h.sender s.given.length hw (he.trans pe) ?_ ?_ ?_ (by simp [hB]) (by simp [ht]) rfl
  · simp only [hb]
    exact pb.le.trans hhi
  · exact pn.symm.le.trans hn
  · rw [hcount]
    unfold slid
    rw [pn,pm]
    exact hgiven

/-- Nothing happens to the protocol when a function returns its variables unchanged
and hands over only packets that were handed over before. -/
theorem Safe.unchanged (h : Safe W s) (cs : List Call) (hA : ∀ p ∈ outOf .A cs, p ∈ s.out .A)
    (hB : outOf .B cs = []) (ht : takenOf cs = []) : Safe W (s.perform (s.vars,cs)) :=
  h.sender s.given.length (h.window.resent hA) rfl h.base_le (Nat.le_refl _) h.count hB ht rfl

theorem Safe.next_le_given (h : Safe W s) : s.vars.nextseqnum ≤ s.given.length := by
  have := h.count
  omega

theorem Safe.recvA {noise : Pkt → Prop} (h : Safe W s) {p : Pkt}
    (hp : s.Arrives noise .B p) (hn : Harmless noise s.given.length) :
    Safe W (s.perform (aInput W p s.vars)) := by
  rcases aInput_cases W p s.vars with he | ⟨a,hc,hpa,-,hlo,hhi,he⟩
  · rw [he]
    exact h.unchanged [] (by simp) rfl rfl
  · rw [he]
    obtain ⟨p₀,hp₀,rfl | ⟨rfl,hnp⟩⟩ := Soup.arrives_iff.mp hp
    · have hlt := h.acks _ hp₀
      exact h.acceptAck hlo (by omega)
    · -- a corrupted acknowledgement that passed carries 999999
      have hle := h.next_le_given
      rcases hn with hn | hn
      · simp [hn _ hnp] at hc
      · simp only [corrupted_acknum] at hpa
        omega

/-- B takes the next packet in order, or repeats its last acknowledgement. -/
theorem Safe.recvB {noise : Pkt → Prop} (h : Safe W s) {p : Pkt}
    (hp : s.Arrives noise .A p) (hn : Harmless noise s.given.length) :
    Safe W (s.perform (bInput p s.vars)) := by
  obtain ⟨p₀,hp₀,hpp⟩ := Soup.arrives_iff.mp hp
  rcases bInput_cases p s.vars with ⟨-,he⟩ | ⟨hseq,he⟩ | ⟨-,he⟩
  · rw [he]
    exact h.unchanged [] (by simp) rfl rfl
  · have hin : p ∈ s.out .A := by
      rcases hpp with rfl | ⟨rfl,hnp⟩
      · exact hp₀
      · have hle := h.next_le_given
        have hel := h.expected_le
        simp only [corrupted_seqnum] at hseq
        rcases hn with hn | hn
        · have hc := hn _ hnp
          unfold bInput at he
          simp [hc] at he
        · omega
    have hlt : s.vars.expectedSeqnum < s.vars.nextseqnum := by
      obtain ⟨j,hj,hpj⟩ := h.window.made p hin
      have : p.seqnum = j := by rw [hpj,dataPkt_seqnum]
      omega
    obtain ⟨hv,hgiven,htaken,-,hout⟩ := Soup.perform_eq s
      ({ s.vars with expectedSeqnum := s.vars.expectedSeqnum + 1 },
        [.tolayer5 p.payload,.tolayer3 .B (ackPkt s.vars.expectedSeqnum)])
    rw [he]
    generalize s.perform _ = t at hv hgiven htaken hout ⊢
    have hA := hout .A
    have hB := hout .B
    simp only [outOf_tolayer5,outOf_tolayer3,outOf_nil,takenOf_tolayer5,takenOf_tolayer3,
      takenOf_nil,reduceCtorEq,if_true,if_false,List.append_nil] at hv hA hB htaken
    constructor
    · rw [hv,hA]
      exact h.window.frame rfl rfl rfl rfl rfl
    · rw [hv]
      exact Nat.le_succ_of_le h.base_le
    · rw [hv]
      exact hlt
    · rw [hv,hB]
      intro q hq
      rcases List.mem_append.mp hq with hq | hq
      · have := h.acks q hq
        simp only
        omega
      · rw [List.mem_singleton.mp hq]
        simp
    · rw [hv,hgiven]
      exact h.count
    · rw [hv,htaken]
      simp [h.taken]
    · rw [hv,hA,htaken]
      intro k hk
      rcases Nat.lt_or_eq_of_le (Nat.le_of_lt_succ hk) with hk | rfl
      · obtain ⟨q,hq,hs,ht⟩ := h.order k hk
        exact ⟨q,hq,hs,by rw [List.getElem?_append_left (by rw [h.taken]; exact hk),ht]⟩
      · refine ⟨p,hin,hseq,?_⟩
        rw [← h.taken,List.getElem?_append_right (Nat.le_refl _)]
        simp
  · obtain ⟨hv,hgiven,htaken,-,hout⟩ := Soup.perform_eq s
      (s.vars,[.tolayer3 .B (ackPkt (s.vars.expectedSeqnum - 1))])
    rw [he]
    generalize s.perform _ = t at hv hgiven htaken hout ⊢
    have hA := hout .A
    have hB := hout .B
    simp only [outOf_tolayer3,outOf_nil,takenOf_tolayer3,takenOf_nil,reduceCtorEq,if_true,
      if_false,List.append_nil] at hv hA hB htaken
    constructor
    · rw [hv,hA]; exact h.window
    · rw [hv]; exact h.base_le
    · rw [hv]; exact h.expected_le
    · rw [hv,hB]
      intro q hq
      rcases List.mem_append.mp hq with hq | hq
      · exact h.acks q hq
      · rw [List.mem_singleton.mp hq,ackPkt_acknum]
        omega
    · rw [hv,hgiven]; exact h.count
    · rw [hv,htaken]; exact h.taken
    · rw [hv,hA,htaken]; exact h.order

theorem Safe.fire (h : Safe W s) (q : Int) (ts : List Int) :
    Safe W (Soup.perform { s with timers := ts } (aPacketTimeRinterrupt W q s.vars)) := by
  have h' : Safe W { s with timers := ts } :=
    ⟨h.window,h.base_le,h.expected_le,h.acks,h.count,h.taken,h.order⟩
  unfold aPacketTimeRinterrupt
  split
  · exact h'.unchanged [] (by simp) rfl rfl
  · refine h'.unchanged (resendWindow W s.vars ++ [.starttimeR s.vars.base]) ?_ ?_ ?_
    · intro p hp
      exact h.window.mem_resend p (by simpa using hp)
    · simp [outOf,resendWindow,List.filterMap_map]
    · simp [takenOf,resendWindow,List.filterMap_map]

theorem Safe.step {junk : Nat → Pkt} {noise : Pkt → Prop} {t : Soup Vars} (h : Safe W s)
    (hst : Soup.Step noise (students W junk) s t) (hn : Harmless noise s.given.length) :
    Safe W t := by
  cases hst with
  | @submit r m hm =>
    have hr : aOutput W m s.vars = r := Option.some.inj hm
    exact hr ▸ h.submit m
  | recvA p hp => exact h.recvA hp hn
  | recvB p hp => exact h.recvB hp hn
  | fire q before after => exact h.fire q (before ++ after)

end Steps

theorem Harmless.mono {noise : Pkt → Prop} {m n : Nat} (h : Harmless noise n)
    (hmn : m ≤ n) : Harmless noise m := h.imp_right (Nat.lt_of_le_of_lt hmn)

theorem safe_of_reachable {W : Nat} {junk : Nat → Pkt} {noise : Pkt → Prop}
    {s : Soup Vars} (h : Soup.Reachable noise (students W junk) s)
    (hn : Harmless noise s.given.length) : Safe W s := by
  induction h with
  | refl => exact safe_init W junk
  | tail _ hst ih =>
    have hn' := hn.mono (Soup.Step.given_le hst)
    exact (ih hn').step hst hn'

/-- The payload of packet `k` as `A_output` first created it. -/
def firstCreated (s : Soup Vars) (k : Nat) : Option Payload :=
  ((s.out .A).find? fun p => decide (p.seqnum = (k : Int))).map Pkt.payload

theorem Safe.firstCreated_eq {W : Nat} {s : Soup Vars} (h : Safe W s) {k : Nat} {p : Pkt}
    (hp : p ∈ s.out .A) (hk : p.seqnum = k) : firstCreated s k = some p.payload := by
  unfold firstCreated
  have hsome : ((s.out .A).find? fun q => decide (q.seqnum = (k : Int))).isSome :=
    List.find?_isSome.mpr ⟨p,hp,by simpa using hk⟩
  obtain ⟨q,hf⟩ := Option.isSome_iff_exists.mp hsome
  have hq : q.seqnum = k := by simpa using List.find?_some hf
  rw [hf,h.window.once q (List.mem_of_find?_eq_some hf) p hp (hq.trans hk.symm)]
  rfl

theorem Safe.taken_eq {W : Nat} {s : Soup Vars} (h : Safe W s) :
    s.taken.map some = (List.range s.vars.expectedSeqnum).map (firstCreated s) := by
  apply List.ext_getElem
  · simp [h.taken]
  · intro k hk _
    have hk' : k < s.vars.expectedSeqnum := by simpa [h.taken] using hk
    obtain ⟨p,hp,hs,ht⟩ := h.order k hk'
    rw [List.getElem_map,List.getElem_map,List.getElem_range,h.firstCreated_eq hp hs]
    rw [List.getElem?_eq_some_iff] at ht
    obtain ⟨_,ht⟩ := ht
    rw [ht]

/-- Whatever the channel does with the packets, B has passed up exactly the first
`expected_seqnum` packets, and A stays between B and one window ahead of it. -/
theorem goBackN_safety (W : Nat) (junk : Nat → Pkt) (s : Soup Vars)
    (h : Soup.Reachable (fun _ => True) (students W junk) s) (hN : s.given.length < 999999) :
    s.taken.map some = (List.range s.vars.expectedSeqnum).map (firstCreated s) ∧
    s.vars.base ≤ s.vars.expectedSeqnum ∧ s.vars.expectedSeqnum ≤ s.vars.nextseqnum ∧
    s.vars.nextseqnum ≤ s.vars.base + W := by
  have hs := safe_of_reachable h (Or.inr hN)
  exact ⟨hs.taken_eq,hs.base_le,hs.expected_le,hs.window.next_le⟩

/-- Two messages over a window of two; B receives the first packet twice. -/
def sampleRun (m : Msg) (junk : Nat → Pkt) : Soup Vars :=
  let s₀ := Soup.init (students 2 junk)
  let s₁ := Soup.perform { s₀ with given := [m] } (aOutput 2 m s₀.vars)
  let s₂ := Soup.perform { s₁ with given := [m,m] } (aOutput 2 m s₁.vars)
  let s₃ := s₂.perform (bInput (dataPkt 0 m.data) s₂.vars)
  s₃.perform (bInput (dataPkt 0 m.data) s₃.vars)

theorem sampleRun_reachable (m : Msg) (junk : Nat → Pkt) :
    Soup.Reachable (fun _ => True) (students 2 junk) (sampleRun m junk) := by
  have h₁ : Soup.Reachable (fun _ => True) (students 2 junk) _ :=
    ReflTransGen.single (Soup.Step.submit m rfl)
  have h₂ := h₁.tail (Soup.Step.submit m rfl)
  have h₃ := h₂.tail (Soup.Step.recvB (dataPkt 0 m.data) ⟨_,List.Mem.head _,Or.inl rfl⟩)
  refine h₃.tail (Soup.Step.recvB (dataPkt 0 m.data)
    (Soup.arrives_iff.mpr ⟨dataPkt 0 m.data,?_,Or.inl rfl⟩))
  rw [(Soup.perform_eq _ _).2.2.2.2]
  exact List.mem_append_left _ (Soup.mem_out.mpr (List.Mem.head _))

theorem goBackN_safety_sampleRun :
    (sampleRun default default).taken.map some =
      (List.range (sampleRun default default).vars.expectedSeqnum).map
        (firstCreated (sampleRun default default)) ∧
    (sampleRun default default).vars.base ≤ (sampleRun default default).vars.expectedSeqnum ∧
    (sampleRun default default).vars.expectedSeqnum ≤
      (sampleRun default default).vars.nextseqnum ∧
    (sampleRun default default).vars.nextseqnum ≤ (sampleRun default default).vars.base + 2 :=
  goBackN_safety 2 default (sampleRun default default)
    (sampleRun_reachable default default) (by
      have hg : (sampleRun default default).given = [default,default] := by
        unfold sampleRun
        rw [(Soup.perform_eq _ _).2.1,(Soup.perform_eq _ _).2.1,(Soup.perform_eq _ _).2.1]
      rw [hg]
      decide)

end NetworkLab.Gbn
