import NetworkLab.Rdt.Service
import NetworkLab.Sr.Safety
set_option autoImplicit false

/-! Selective Repeat over a channel that loses, corrupts, repeats and reorders. It may come
to a halt there, but what B passes up is right. -/

namespace NetworkLab.Sr
open Rdt Relation

/-- Nothing but packets of A is in B's slots, whatever the channel does with them. -/
structure Genuine (W : Nat) (s : Soup Vars) : Prop where
  sender : Sender W s.vars.a s.given s.timers
  receiver : Receiver W s.vars.b s.given s.vars.a.nextseqnum s.taken
  data : ∀ p ∈ s.out .A, ∃ k < s.vars.a.nextseqnum, p = sentPkt s.given k

section Steps
variable {W : Nat} {s t : Soup Vars} {junk : Nat → Pkt}

theorem genuine_init (W : Nat) (junk : Nat → Pkt) :
    Genuine W (Soup.init (students W junk)) :=
  ⟨sender_aInit W junk,receiver_bInit W,by simp [Soup.init,Soup.out]⟩

theorem Genuine.next_le (h : Genuine W s) : s.vars.a.nextseqnum ≤ s.given.length := by
  have := h.sender.queue.count
  omega

/-- A function of A runs; layer 5 may have given one more message. -/
theorem Genuine.sends (h : Genuine W s) (l : List Msg) (hl : l = [] ∨ ∃ m, l = [m])
    (timers : List Int) {P : Nat → Prop} {r : AVars × List Call}
    (hs : Sends W s.vars.a (s.given ++ l) P r)
    (hsender : Sender W r.1 (s.given ++ l) (timersAfter timers r.2)) :
    Genuine W (Soup.perform { s with given := s.given ++ l, timers := timers }
      (⟨r.1,s.vars.b⟩,r.2)) := by
  obtain ⟨hv,hgiven,htaken,htimers,hout⟩ := Soup.perform_eq
    { s with given := s.given ++ l, timers := timers } ((⟨r.1,s.vars.b⟩,r.2) : Vars × List Call)
  generalize Soup.perform _ _ = t at *
  simp only at hv hgiven htaken htimers hout
  have hnext := hs.next_le
  have hlen := h.next_le
  refine ⟨?_,?_,fun p hp => ?_⟩
  · rw [hv,hgiven,htimers]
    exact hsender
  · rw [hv,hgiven,htaken,hs.taken,List.append_nil]
    exact h.receiver.grow hlen hnext l hl
  · rw [hv,hgiven]
    rw [hout,List.mem_append] at hp
    rcases hp with hp | hp
    · obtain ⟨k,hk,rfl⟩ := h.data p hp
      refine ⟨k,by simp only; omega,?_⟩
      rcases hl with rfl | ⟨m,rfl⟩
      · rw [List.append_nil]
      · exact (sentPkt_append (by omega) m).symm
    · obtain ⟨k,hu,hk⟩ := hs.out p hp
      exact ⟨k,hu.2.1,hk⟩

/-- `B_input` takes any packet of A, in any order and as often as it comes. -/
theorem bInput_genuine {b : BVars} {given : List Msg} {n k : Nat} {taken : List Payload}
    (h : Receiver W b given n taken) (hW : 0 < W) (hn : n ≤ given.length) (hk : k < n) :
    Receiver W (bInput W (sentPkt given k) b).1 given n
      (taken ++ takenOf (bInput W (sentPkt given k) b).2) ∧
    outOf .A (bInput W (sentPkt given k) b).2 = [] ∧
    ∀ ts, timersAfter ts (bInput W (sentPkt given k) b).2 = ts := by
  have hup : ∀ (ds : List Payload) (ts : List Int), outOf .A (ds.map Call.tolayer5) = [] ∧
      timersAfter ts (ds.map Call.tolayer5) = ts := by
    intro ds ts
    induction ds with
    | nil => exact ⟨rfl,rfl⟩
    | cons d ds ih => exact ih
  by_cases hwin : inWindow W (k : Int) b.expectedSeq
  · obtain ⟨hdup,hfresh⟩ := bInput_of_window (b := b) (p := sentPkt given k)
      (checkCorrupted_dataPkt _ _) (sentPkt_seqnum given k) hwin
    by_cases hm : Marked W b k
    · rw [hdup hm,deliver_of_not_marked h.waits W]
      exact ⟨by simpa using h,rfl,fun _ => rfl⟩
    · have hd := deliver_delivers (h.toStock.store hk) hW hn
      have hcalls := hd.calls
      rw [hfresh hm]
      generalize deliver W W (store (k % W) (sentPkt given k) b) = r at *
      refine ⟨hd.receiver,?_,fun ts => ?_⟩
      · change outOf .A r.2 = []
        rw [hcalls]
        exact (hup _ []).1
      · change timersAfter ts r.2 = ts
        rw [hcalls]
        exact (hup _ ts).2
  · have he : bInput W (sentPkt given k) b = (b,[.tolayer3 .B (ackPkt k)]) := by
      simp [bInput,checkCorrupted_dataPkt,sentPkt,hwin]
    rw [he]
    exact ⟨by simpa using h,rfl,fun _ => rfl⟩

/-- B runs, and hands over nothing to A's end of the channel. -/
theorem Genuine.receives (h : Genuine W s) {r : BVars × List Call}
    (hr : Receiver W r.1 s.given s.vars.a.nextseqnum (s.taken ++ takenOf r.2))
    (hA : outOf .A r.2 = []) (ht : ∀ ts, timersAfter ts r.2 = ts) :
    Genuine W (s.perform (⟨s.vars.a,r.1⟩,r.2)) := by
  obtain ⟨hv,hgiven,htaken,htimers,hout⟩ := s.perform_eq ((⟨s.vars.a,r.1⟩,r.2) : Vars × List Call)
  refine ⟨?_,?_,?_⟩
  · rw [hv,hgiven,htimers,ht]
    exact h.sender
  · rw [hv,hgiven,htaken]
    exact hr
  · rw [hv,hgiven,hout,hA,List.append_nil]
    exact h.data

theorem Genuine.step (h : Genuine W s) (hW : 0 < W) (hW8 : W ≤ 8)
    (hst : Soup.Step (fun _ => True) (students W junk) s t) (hN : t.given.length < 999000) :
    Genuine W t := by
  have hgiven := Soup.Step.given_le hst
  cases hst with
  | @submit r m hm =>
    obtain ⟨r',hr',rfl⟩ := Option.map_eq_some_iff.mp hm
    obtain ⟨hsender,hs,-⟩ := h.sender.aOutput hr'
    exact h.sends [m] (Or.inr ⟨m,rfl⟩) s.timers hs hsender
  | recvA p hp =>
    rcases aInput_cases h.sender p with ⟨-,he⟩ | ⟨k,-,-,hu,he⟩
    · have := h.sends [] (Or.inl rfl) s.timers (r := (s.vars.a,[])) (by
        simpa using sends_nothing rfl rfl rfl) (by simpa using h.sender)
      simpa [students,he] using this
    · obtain ⟨hsender,hs⟩ := h.sender.acceptAck hu
      have := h.sends [] (Or.inl rfl) s.timers (by simpa using hs) (by simpa using hsender)
      simpa [students,he] using this
  | recvB p hp =>
    obtain ⟨p₀,hp₀,hcase⟩ := Soup.arrives_iff.mp hp
    obtain ⟨k,hk,rfl⟩ := h.data p₀ hp₀
    have hnext := h.next_le
    rcases hcase with rfl | ⟨rfl,-⟩
    · obtain ⟨hr,hA,ht⟩ := bInput_genuine h.receiver hW hnext hk
      exact h.receives hr hA ht
    · have hle := h.receiver.expected_le
      rcases bInput_foul (b := s.vars.b) hW8 (by omega) (corrupted_seqnum (sentPkt s.given k)) with
        he | he
      · simp only [students,he]
        exact h.receives (r := (s.vars.b,[])) (by simpa using h.receiver) rfl fun _ => rfl
      · simp only [students,he]
        exact h.receives (r := (s.vars.b,[.tolayer3 .B (ackPkt 999999)]))
          (by simpa using h.receiver) rfl fun _ => rfl
  | fire q before after hq =>
    obtain ⟨k,rfl,hu,he,hsender⟩ := h.sender.fire hq
    have := h.sends [] (Or.inl rfl) (before ++ after) (by simpa using hu.resends s.given)
      (by simpa [timersAfter] using hsender)
    simpa [students,he] using this

theorem Genuine.inOrder (h : Genuine W s) : Pipe.InOrder s.service := by
  have ht := h.receiver.taken_eq
  rw [Pipe.InOrder,Soup.service,ht,List.map_take]
  exact List.take_prefix _ _

end Steps

/-- Over any channel every run of the two ends is a run of the pipe: what is delivered is,
in order and each once, what was accepted. -/
theorem selectiveRepeat_pipe (W : Nat) (junk : Nat → Pkt) (s t : Soup Vars) (hW : 1 ≤ W)
    (hW8 : W ≤ 8) (h : Soup.Reachable (fun _ => True) (students W junk) s)
    (hst : ReflTransGen (Soup.Step (fun _ => True) (students W junk)) s t)
    (hN : t.given.length < 999000) :
    ReflTransGen Pipe.Step s.service t.service ∧ Pipe.InOrder t.service := by
  have hmono : ∀ {a b : Soup Vars},
      ReflTransGen (Soup.Step (fun _ => True) (students W junk)) a b →
      a.given.length ≤ b.given.length := by
    intro a b hab
    induction hab with
    | refl => exact Nat.le_refl _
    | tail _ hr ih => exact ih.trans (Soup.Step.given_le hr)
  have hrun : ∀ {a b : Soup Vars},
      ReflTransGen (Soup.Step (fun _ => True) (students W junk)) a b →
      b.given.length < 999000 → Genuine W a →
      Genuine W b ∧ ReflTransGen Pipe.Step a.service b.service := by
    intro a b hab hb ha
    induction hab with
    | refl => exact ⟨ha,ReflTransGen.refl⟩
    | tail _ hr ih =>
      obtain ⟨hg,hp⟩ := ih (Nat.lt_of_le_of_lt (Soup.Step.given_le hr) hb)
      have hg' := hg.step hW hW8 hr hb
      exact ⟨hg',hp.trans (hr.service_run hg'.inOrder)⟩
  obtain ⟨hs,hstart⟩ := hrun h (Nat.lt_of_le_of_lt (hmono hst) hN) (genuine_init W junk)
  have hp := (hrun hst hN hs).2
  exact ⟨hp,Pipe.inOrder_of_run (hstart.trans hp)⟩

/-- One message, and its packet received twice. -/
def sampleTwice (m : Msg) : Soup Vars :=
  let s₀ := Soup.init (students 1 default)
  let s₁ := Soup.perform { s₀ with given := [m] }
    (⟨(sendPacket 1 m s₀.vars.a).1,s₀.vars.b⟩,(sendPacket 1 m s₀.vars.a).2)
  let s₂ := s₁.perform ((students 1 default).bInput (dataPkt 0 m.data) s₁.vars)
  s₂.perform ((students 1 default).bInput (dataPkt 0 m.data) s₂.vars)

theorem sampleTwice_given (m : Msg) : (sampleTwice m).given = [m] := by
  unfold sampleTwice
  rw [(Soup.perform_eq _ _).2.1,(Soup.perform_eq _ _).2.1,(Soup.perform_eq _ _).2.1]

theorem sampleTwice_reachable (m : Msg) :
    Soup.Reachable (fun _ => True) (students 1 default) (sampleTwice m) := by
  have h₁ : Soup.Reachable (fun _ => True) (students 1 default) _ :=
    ReflTransGen.single (Soup.Step.submit m rfl)
  have h₂ := h₁.tail (Soup.Step.recvB (dataPkt 0 m.data) ⟨_,List.Mem.head _,Or.inl rfl⟩)
  refine h₂.tail (Soup.Step.recvB (dataPkt 0 m.data)
    (Soup.arrives_iff.mpr ⟨dataPkt 0 m.data,?_,Or.inl rfl⟩))
  rw [(Soup.perform_eq _ _).2.2.2.2]
  exact List.mem_append_left _ (Soup.mem_out.mpr (List.Mem.head _))

theorem selectiveRepeat_pipe_sampleTwice :
    ReflTransGen Pipe.Step (Soup.init (students 1 default)).service
      (sampleTwice default).service ∧ Pipe.InOrder (sampleTwice default).service :=
  selectiveRepeat_pipe 1 default _ (sampleTwice default) (by decide) (by decide)
    ReflTransGen.refl (sampleTwice_reachable default) (by
      rw [sampleTwice_given]
      decide)

end NetworkLab.Sr
