import NetworkLab.Sr.Receiver
set_option autoImplicit false

/-! End-to-end safety of Selective Repeat over a first-in first-out channel that loses
and corrupts. -/

namespace NetworkLab.Sr
open Rdt Relation

/-- A corrupted packet is noticed, or its number is one that no packet has. `N` bounds
the number of messages. -/
def Clean (N : Nat) (s : Net Vars) : Prop :=
  N < 999000 ∨ s.Noisy fun p => checkCorrupted p = true

def FoulData (N : Nat) (p : Pkt) : Prop :=
  p.acknum = 999999 ∧ p.seqnum = 999999 ∧ (checkCorrupted p = true ∨ N < 999000)

def FoulAck (N : Nat) (p : Pkt) : Prop :=
  checkCorrupted p = true ∨ N < 999000 ∧ p.acknum = 999999

/-- The two ends and what is in flight between them. The channel keeps the order, so a
data packet is less than a window behind everything that was sent before it. -/
structure Inv (W N : Nat) (s : Net Vars) : Prop where
  given_le : s.given.length ≤ N
  sender : Sender W s.vars.a s.given s.timers
  receiver : Receiver W s.vars.b s.given s.vars.a.nextseqnum s.taken
  acked : ∀ k < s.vars.a.nextseqnum, ¬Unacked W s.vars.a k → Has W s.vars.b k
  toB : ∀ p ∈ s.toB, (∃ k < s.vars.a.nextseqnum, p = sentPkt s.given k) ∨ FoulData N p
  order : s.toB.Pairwise fun (q p : Pkt) =>
    q.acknum = 0 → p.acknum = 0 → q.seqnum < p.seqnum + W
  behind : ∀ p ∈ s.toB, p.acknum = 0 → ∀ i : Nat, Has W s.vars.b i → (i : Int) < p.seqnum + W
  toA : ∀ p ∈ s.toA, (∃ k : Nat, p = ackPkt k ∧ Has W s.vars.b k) ∨ FoulAck N p

theorem inv_init (W N : Nat) (junk : Nat → Pkt) :
    Inv W N (Net.init (students W junk)) := by
  refine ⟨Nat.zero_le _,sender_aInit W junk,receiver_bInit W,?_,?_,List.Pairwise.nil,?_,?_⟩
  all_goals simp [Net.init,students,aInit]

section Derived
variable {W N : Nat} {s : Net Vars}

theorem Inv.next_le (h : Inv W N s) : s.vars.a.nextseqnum ≤ s.given.length := by
  have := h.sender.queue.count
  omega

theorem Inv.has_lt (h : Inv W N s) (hW : 0 < W) {k : Nat} (hk : Has W s.vars.b k) :
    k < s.vars.a.nextseqnum := by
  rcases hk with hk | hk
  · exact Nat.lt_of_lt_of_le hk h.receiver.expected_le
  · exact (h.receiver.of_marked hW hk).1

theorem Inv.base_le (h : Inv W N s) : s.vars.a.base ≤ s.vars.b.expectedSeq := by
  by_contra hlt
  have hb := h.sender.ring.base_le
  rcases h.acked s.vars.b.expectedSeq (by omega) (fun hu => hlt hu.1) with he | he
  · exact Nat.lt_irrefl _ he
  · exact h.receiver.waits he

/-- A packet in flight is at most one window behind B, and less than one ahead. -/
theorem Inv.window (h : Inv W N s) {k : Nat} (hk : k < s.vars.a.nextseqnum)
    (hp : sentPkt s.given k ∈ s.toB) :
    s.vars.b.expectedSeq ≤ k + W ∧ k < s.vars.b.expectedSeq + W := by
  have hb := h.base_le
  have hn := h.sender.ring.next_le
  refine ⟨?_,by omega⟩
  rcases Nat.eq_zero_or_pos s.vars.b.expectedSeq with he | he
  · omega
  · have := h.behind _ hp rfl (s.vars.b.expectedSeq - 1) (Or.inl (by omega))
    rw [sentPkt_seqnum] at this
    omega

/-- Only B's own acknowledgement is clean and carries a number that was sent. -/
theorem Inv.ack_of_accepted (h : Inv W N s) {p : Pkt} (hp : p ∈ s.toA)
    (hc : checkCorrupted p = false) {k : Nat} (hk : p.acknum = k)
    (hlt : k < s.vars.a.nextseqnum) : p = ackPkt k ∧ Has W s.vars.b k := by
  rcases h.toA p hp with ⟨j,rfl,hj⟩ | hf | ⟨hN,hf⟩
  · rw [ackPkt_acknum] at hk
    obtain rfl := Int.ofNat.inj hk
    exact ⟨rfl,hj⟩
  · rw [hf] at hc
    cases hc
  · have := h.next_le
    have := h.given_le
    omega

end Derived

theorem Clean.foulAck {N : Nat} {s : Net Vars} (h : Clean N s) {e : Entity} {p : Pkt}
    (hp : (e,p,Fate.corrupt) ∈ s.handed) : FoulAck N (corrupted p) :=
  h.elim (fun hN => Or.inr ⟨hN,rfl⟩) fun hn => Or.inl (hn e p hp)

theorem Clean.foulData {N : Nat} {s : Net Vars} (h : Clean N s) {e : Entity} {p : Pkt}
    (hp : (e,p,Fate.corrupt) ∈ s.handed) : FoulData N (corrupted p) :=
  ⟨rfl,rfl,h.elim Or.inr fun hn => Or.inl (hn e p hp)⟩

section Steps
variable {W N : Nat} {s : Net Vars} {pattern : Nat → Fate}

/-- What A adds to the channel is in its new window, or noticed. -/
theorem Sends.arrives {v : AVars} {given : List Msg} {P : Nat → Prop} {r : AVars × List Call}
    {cp : Nat} {p : Pkt} (hs : Sends W v given P r) (hclean : Clean N s)
    (hhanded : fated pattern cp r.2 ⊆ s.handed) (hp : p ∈ arriving .A (fated pattern cp r.2)) :
    FoulData N p ∨ ∃ k, r.1.base ≤ k ∧ k < r.1.nextseqnum ∧ p = sentPkt given k := by
  obtain ⟨p₀,hp₀,rfl | ⟨rfl,hc⟩⟩ := mem_arriving hp
  · obtain ⟨k,hu,hk⟩ := hs.out _ hp₀
    exact Or.inr ⟨k,hu.1,hu.2.1,hk⟩
  · exact Or.inl (hclean.foulData (e := .A) (hhanded hc))

/-- A function of A runs: layer 5 has given `l`, an acknowledgement may have left the
channel, a timer may have gone off. -/
theorem Inv.sends (h : Inv W N s) (hW : 0 < W) (pattern : Nat → Fate) (l : List Msg)
    (toA : List Pkt) (timers : List Int) (hl : l = [] ∨ ∃ m, l = [m])
    (hN : (s.given ++ l).length ≤ N) (htoA : ∀ p ∈ toA, p ∈ s.toA)
    {P : Nat → Prop} {r : AVars × List Call}
    (hs : Sends W s.vars.a (s.given ++ l) P r)
    (hsender : Sender W r.1 (s.given ++ l) (timersAfter timers r.2))
    (hP : ∀ k, ¬P k → Has W s.vars.b k)
    (hclean : Clean N (Net.perform pattern
      { s with given := s.given ++ l, toA := toA, timers := timers } (⟨r.1,s.vars.b⟩,r.2))) :
    Inv W N (Net.perform pattern
      { s with given := s.given ++ l, toA := toA, timers := timers }
      (⟨r.1,s.vars.b⟩,r.2)) := by
  obtain ⟨hv,hgiven,htaken,htimers,hhanded,hB,hA⟩ := Net.perform_eq pattern
    { s with given := s.given ++ l, toA := toA, timers := timers } (⟨r.1,s.vars.b⟩,r.2)
  generalize Net.perform pattern _ _ = t at *
  simp only at *
  have hnext := hs.next_le
  have hlen := h.next_le
  have hold : ∀ k < s.vars.a.nextseqnum, sentPkt (s.given ++ l) k = sentPkt s.given k := by
    intro k hk
    rcases hl with rfl | ⟨m,rfl⟩
    · rw [List.append_nil]
    · exact sentPkt_append (by omega) m
  have hadds : ∀ p ∈ arriving .A (fated pattern s.cp r.2), FoulData N p ∨
      ∃ k, r.1.base ≤ k ∧ k < r.1.nextseqnum ∧ p = sentPkt (s.given ++ l) k :=
    fun p hp => hs.arrives hclean (by rw [hhanded]; exact List.subset_append_right _ _) hp
  have hmade : ∀ p ∈ t.toB,
      (∃ k < r.1.nextseqnum, p = sentPkt (s.given ++ l) k) ∨ FoulData N p := by
    intro p hp
    rw [hB,List.mem_append] at hp
    rcases hp with hp | hp
    · rcases h.toB p hp with ⟨k,hk,rfl⟩ | hf
      · exact Or.inl ⟨k,by omega,(hold k hk).symm⟩
      · exact Or.inr hf
    · rcases hadds p hp with hf | ⟨k,-,hk,rfl⟩
      · exact Or.inr hf
      · exact Or.inl ⟨k,hk,rfl⟩
  have hbelow : ∀ q ∈ t.toB, q.acknum = 0 → q.seqnum < r.1.nextseqnum := by
    intro q hq h0
    rcases hmade q hq with ⟨k,hk,rfl⟩ | hf
    · rw [sentPkt_seqnum]
      omega
    · have := hf.1
      omega
  have hwide := hsender.ring.next_le
  -- so nothing that is on its way is a window ahead of it
  have hfresh : ∀ p ∈ arriving .A (fated pattern s.cp r.2), p.acknum = 0 →
      (r.1.nextseqnum : Int) ≤ p.seqnum + W := by
    intro p hp h0
    rcases hadds p hp with hf | ⟨k,hk,-,rfl⟩
    · have := hf.1
      omega
    · rw [sentPkt_seqnum]
      omega
  refine ⟨?_,?_,?_,?_,?_,?_,?_,?_⟩
  · rw [hgiven]
    exact hN
  · rw [hv,hgiven,htimers]
    exact hsender
  · rw [hv,hgiven,htaken,hs.taken,List.append_nil]
    exact h.receiver.grow hlen hnext l hl
  · rw [hv]
    intro k hk hu
    simp only at hk hu ⊢
    rw [hs.unacked] at hu
    by_cases hP' : P k
    · refine h.acked k ?_ fun hu' => hu (Or.inl ⟨hu',hP'⟩)
      by_contra hge
      exact hu (Or.inr ⟨by omega,hk⟩)
    · exact hP k hP'
  · rw [hv,hgiven]
    exact hmade
  · rw [hB,List.pairwise_append]
    refine ⟨h.order,List.pairwise_of_forall_mem_list fun q hq p hp hq0 hp0 => ?_,
      fun q hq p hp hq0 hp0 => ?_⟩
    · have := hbelow q (by rw [hB]; exact List.mem_append_right _ hq) hq0
      have := hfresh p hp hp0
      omega
    · have := hbelow q (by rw [hB]; exact List.mem_append_left _ hq) hq0
      have := hfresh p hp hp0
      omega
  · rw [hv,hB]
    intro p hp hp0 i hi
    rcases List.mem_append.mp hp with hp | hp
    · exact h.behind p hp hp0 i hi
    · have := h.has_lt hW hi
      have := hfresh p hp hp0
      omega
  · rw [hv,hA,arriving_nil hs.outB,List.append_nil]
    exact fun p hp => h.toA p (htoA p hp)

/-- `B_input` runs on the first packet of its channel. -/
theorem Inv.receives (h : Inv W N s) {p : Pkt} {rest : List Pkt}
    (hp : s.toB = p :: rest) {r : BVars × List Call}
    (hr : Receiver W r.1 s.given s.vars.a.nextseqnum (s.taken ++ takenOf r.2))
    (hkeep : ∀ i, Has W s.vars.b i → Has W r.1 i)
    (honly : ∀ i : Nat, Has W r.1 i → Has W s.vars.b i ∨ p.acknum = 0 ∧ p.seqnum = i)
    (houtA : outOf .A r.2 = []) (htimers : timersAfter s.timers r.2 = s.timers)
    (hack : ∀ q ∈ outOf .B r.2, (∃ k : Nat, q = ackPkt k ∧ Has W r.1 k) ∨ FoulAck N q)
    (hclean : Clean N (Net.perform pattern { s with toB := rest } (⟨s.vars.a,r.1⟩,r.2))) :
    Inv W N (Net.perform pattern { s with toB := rest } (⟨s.vars.a,r.1⟩,r.2)) := by
  obtain ⟨hv,hgiven,htaken,htimers',hhanded,hB,hA⟩ := Net.perform_eq pattern
    { s with toB := rest } (⟨s.vars.a,r.1⟩,r.2)
  generalize Net.perform pattern _ _ = t at *
  simp only at *
  rw [arriving_nil houtA,List.append_nil] at hB
  obtain ⟨hfirst,hrest⟩ := List.pairwise_cons.mp (hp ▸ h.order)
  have hmem : ∀ q ∈ rest, q ∈ s.toB := fun q hq => by simp [hp,hq]
  refine ⟨?_,?_,?_,?_,?_,?_,?_,?_⟩
  · rw [hgiven]
    exact h.given_le
  · rw [hv,hgiven,htimers',htimers]
    exact h.sender
  · rw [hv,hgiven,htaken]
    exact hr
  · rw [hv]
    exact fun k hk hu => hkeep k (h.acked k hk hu)
  · rw [hv,hgiven,hB]
    exact fun q hq => h.toB q (hmem q hq)
  · rw [hB]
    exact hrest
  · rw [hv,hB]
    intro q hq hq0 i hi
    rcases honly i hi with hi | ⟨hp0,hpi⟩
    · exact h.behind q (hmem q hq) hq0 i hi
    · have := hfirst q hq hp0 hq0
      omega
  · rw [hv,hA]
    intro q hq
    rcases List.mem_append.mp hq with hq | hq
    · rcases h.toA q hq with ⟨k,hk,hh⟩ | hf
      · exact Or.inl ⟨k,hk,hkeep k hh⟩
      · exact Or.inr hf
    · obtain ⟨p₀,hp₀,rfl | ⟨rfl,hc⟩⟩ := mem_arriving hq
      · exact hack _ hp₀
      · refine Or.inr (hclean.foulAck (e := .B) ?_)
        rw [hhanded]
        exact List.mem_append_right _ hc

/-- What `B_input` can do with the first packet of its channel. -/
theorem Inv.recvB_cases (h : Inv W N s) (hW : 0 < W) (hW8 : W ≤ 8) {p : Pkt}
    (hp : p ∈ s.toB) :
    FoulData N p ∧ bInput W p s.vars.b = (s.vars.b,[]) ∨
    FoulData N p ∧ N < 999000 ∧
      bInput W p s.vars.b = (s.vars.b,[.tolayer3 .B (ackPkt 999999)]) ∨
    ∃ k < s.vars.a.nextseqnum, p = sentPkt s.given k ∧
      (Marked W s.vars.b k ∧ bInput W p s.vars.b = (s.vars.b,[]) ∨
       ¬Marked W s.vars.b k ∧
        Accepts W s.vars.b s.given s.vars.a.nextseqnum s.taken k (bInput W p s.vars.b)) := by
  have hlen := h.next_le
  rcases h.toB p hp with ⟨k,hk,rfl⟩ | hf
  · obtain ⟨hlo,hhi⟩ := h.window hk hp
    exact Or.inr (Or.inr ⟨k,hk,rfl,bInput_spec h.receiver hW hlen hk hlo hhi
      fun i hi => by
        have := h.behind _ hp rfl i hi
        rw [sentPkt_seqnum] at this
        omega⟩)
  · rcases hf.2.2 with hc | hN
    · exact Or.inl ⟨hf,bInput_of_corrupted hc⟩
    · have he := h.receiver.expected_le
      have hg := h.given_le
      rcases bInput_foul (b := s.vars.b) hW8 (by omega) hf.2.1 with hr | hr
      · exact Or.inl ⟨hf,hr⟩
      · exact Or.inr (Or.inl ⟨hf,hN,hr⟩)

theorem Inv.recvB (h : Inv W N s) (hW : 0 < W) (hW8 : W ≤ 8) {p : Pkt} {rest : List Pkt}
    (hp : s.toB = p :: rest)
    (hclean : Clean N (Net.perform pattern { s with toB := rest }
      (⟨s.vars.a,(bInput W p s.vars.b).1⟩,(bInput W p s.vars.b).2))) :
    Inv W N (Net.perform pattern { s with toB := rest }
      (⟨s.vars.a,(bInput W p s.vars.b).1⟩,(bInput W p s.vars.b).2)) := by
  have hsame : Receiver W s.vars.b s.given s.vars.a.nextseqnum (s.taken ++ []) := by
    simpa using h.receiver
  rcases h.recvB_cases hW hW8 (p := p) (by simp [hp]) with
    ⟨-,hr⟩ | ⟨-,hN,hr⟩ | ⟨k,hk,rfl,⟨-,hr⟩ | ⟨-,hr⟩⟩
  · rw [hr] at hclean ⊢
    exact h.receives hp hsame (fun _ hi => hi) (fun _ hi => Or.inl hi) rfl rfl (by simp) hclean
  · rw [hr] at hclean ⊢
    refine h.receives hp hsame (fun _ hi => hi) (fun _ hi => Or.inl hi) rfl rfl ?_ hclean
    intro q hq
    exact Or.inr (Or.inr ⟨hN,by simpa using congrArg Pkt.acknum (List.mem_singleton.mp hq)⟩)
  · rw [hr] at hclean ⊢
    exact h.receives hp hsame (fun _ hi => hi) (fun _ hi => Or.inl hi) rfl rfl (by simp) hclean
  · refine h.receives hp hr.receiver (fun i hi => (hr.has i).mpr (Or.inl hi)) ?_ hr.outA
      (hr.timers _) ?_ hclean
    · exact fun i hi => ((hr.has i).mp hi).imp_right fun hik => ⟨rfl,by rw [hik,sentPkt_seqnum]⟩
    · intro q hq
      rw [hr.outB] at hq
      exact Or.inl ⟨k,List.mem_singleton.mp hq,(hr.has k).mpr (Or.inr rfl)⟩

theorem Inv.recvA (h : Inv W N s) (hW : 0 < W) {p : Pkt} {rest : List Pkt}
    (hp : s.toA = p :: rest)
    (hclean : Clean N (Net.perform pattern { s with toA := rest }
      (⟨(aInput W p s.vars.a).1,s.vars.b⟩,(aInput W p s.vars.a).2))) :
    Inv W N (Net.perform pattern { s with toA := rest }
      (⟨(aInput W p s.vars.a).1,s.vars.b⟩,(aInput W p s.vars.a).2)) := by
  have hrest : ∀ q ∈ rest, q ∈ s.toA := fun q hq => by simp [hp,hq]
  have hmain : ∀ {P : Nat → Prop} {r : AVars × List Call}, aInput W p s.vars.a = r →
      Sends W s.vars.a s.given P r → Sender W r.1 s.given (timersAfter s.timers r.2) →
      (∀ k, ¬P k → Has W s.vars.b k) →
      Inv W N (Net.perform pattern { s with toA := rest } (⟨r.1,s.vars.b⟩,r.2)) := by
    intro P r he hs hsender hP
    have := Inv.sends h hW pattern [] rest s.timers (r := r) (Or.inl rfl) (by simpa using h.given_le)
      hrest (by simpa using hs) (by simpa using hsender) hP (by simpa [he] using hclean)
    simpa using this
  rcases aInput_cases h.sender p with ⟨-,he⟩ | ⟨k,hc,hpk,hu,he⟩
  · have := hmain he (sends_nothing rfl rfl rfl) h.sender (fun k hk => absurd trivial hk)
    simpa [he] using this
  · obtain ⟨hsender,hs⟩ := h.sender.acceptAck hu
    have := hmain he hs hsender fun i hi => ?_
    · simpa [he] using this
    · obtain rfl : i = k := by simpa using hi
      exact (h.ack_of_accepted (p := p) (by simp [hp]) hc hpk hu.2.1).2

theorem Inv.step (h : Inv W N s) (hW : 0 < W) (hW8 : W ≤ 8) {junk : Nat → Pkt} {t : Net Vars}
    (hst : Net.Step pattern (students W junk) s t) (hN : t.given.length ≤ N)
    (hclean : Clean N t) : Inv W N t := by
  cases hst with
  | @submit r m hm =>
    obtain ⟨r',hr',rfl⟩ := Option.map_eq_some_iff.mp hm
    obtain ⟨hsender,hs,-⟩ := h.sender.aOutput hr'
    refine Inv.sends h hW pattern [m] s.toA s.timers (Or.inr ⟨m,rfl⟩) ?_
      (fun _ hp => hp) hs hsender (fun k hk => absurd trivial hk) hclean
    rwa [(Net.perform_eq _ _ _).2.1] at hN
  | recvA p rest hp => exact h.recvA hW hp hclean
  | recvB p rest hp => exact h.recvB hW hW8 hp hclean
  | fire q before after hq =>
    obtain ⟨k,rfl,hu,he,hsender⟩ := h.sender.fire hq
    have hs := hu.resends s.given
    have := Inv.sends h hW pattern [] s.toA (before ++ after) (Or.inl rfl) (by simpa using h.given_le)
      (fun _ hp => hp) (by simpa using hs) (by simpa [timersAfter] using hsender)
      (fun k hk => absurd trivial hk)
      (by simpa [students,he] using hclean)
    simpa [students,he] using this

end Steps

section Runs
variable {W N : Nat} {s t : Net Vars} {pattern : Nat → Fate} {junk : Nat → Pkt}

theorem Clean.of_step (h : Clean N t) (hst : Net.Step pattern (students W junk) s t) :
    Clean N s :=
  h.imp_right fun hn => hn.of_step hst

theorem inv_of_reachable (hW : 0 < W) (hW8 : W ≤ 8)
    (h : Net.Reachable pattern (students W junk) s) (hN : s.given.length ≤ N)
    (hclean : Clean N s) : Inv W N s := by
  induction h with
  | refl => exact inv_init W N junk
  | tail _ hst ih =>
    exact (ih ((Net.step_handed hst).2.trans hN) (hclean.of_step hst)).step hW hW8 hst hN hclean

/-- When nothing is in flight and no timer runs, A waits for nothing. -/
theorem Inv.quiet (h : Inv W N s) (hW : 0 < W) (htimers : s.timers = []) :
    s.taken = s.given.map Msg.data ∧ s.vars.a.base = s.vars.a.nextseqnum ∧
    s.vars.a.msgNum = 0 := by
  have hb := h.sender.ring.base_le
  have hdone : s.vars.a.base = s.vars.a.nextseqnum := by
    by_contra hne
    have hu := h.sender.head (by omega)
    have := (h.sender.timed.mem _).mpr ⟨_,rfl,hu⟩
    rw [htimers] at this
    cases this
  have hm : s.vars.a.msgNum = 0 := by
    have := h.sender.full
    omega
  have hc := h.sender.queue.count
  have he := h.base_le
  refine ⟨?_,hdone,hm⟩
  rw [h.receiver.taken_eq,List.take_of_length_le (by omega)]

/-- Over a channel that keeps the order of what it does not lose, B passes up exactly
the messages given to A, in order; and when nothing is left to happen, all of them. -/
theorem selectiveRepeat_safety (W : Nat) (junk : Nat → Pkt) (pattern : Nat → Fate)
    (s : Net Vars) (hW : 1 ≤ W) (hW8 : W ≤ 8)
    (h : Net.Reachable pattern (students W junk) s) (hN : s.given.length < 999000) :
    (s.vars.a.base ≤ s.vars.b.expectedSeq ∧
      s.vars.b.expectedSeq ≤ s.vars.a.nextseqnum ∧
      s.vars.a.nextseqnum ≤ s.vars.a.base + W ∧
      s.vars.b.expectedSeq ≤ s.given.length ∧
      s.taken = (s.given.take s.vars.b.expectedSeq).map Msg.data) ∧
    (s.toA = [] → s.toB = [] → s.timers = [] →
      s.taken = s.given.map Msg.data ∧ s.vars.a.base = s.vars.a.nextseqnum ∧
      s.vars.a.msgNum = 0) := by
  have hinv := inv_of_reachable hW hW8 h (Nat.le_refl _) (Or.inl hN)
  have he := hinv.receiver.expected_le
  exact ⟨⟨hinv.base_le,he,hinv.sender.ring.next_le,he.trans hinv.next_le,
    hinv.receiver.taken_eq⟩,fun _ _ => hinv.quiet hW⟩

/-- Two messages over a window of two. -/
def sampleMsgs : List Msg := [⟨Vector.replicate 20 97⟩,⟨Vector.replicate 20 98⟩]

/-- The first packet handed to layer 3 is lost. -/
def firstLost (n : Nat) : Fate := if n = 0 then .lost else .ok

def sampleRun (moves : List Net.Move) : Option (Net Vars) :=
  Net.follow firstLost (students 2 default) (sampleMsgs.map .submit ++ moves)
    (Net.init (students 2 default))

theorem sampleRun_reachable {moves : List Net.Move} {s : Net Vars} (h : sampleRun moves = some s) :
    Net.Reachable firstLost (students 2 default) s :=
  Net.reachable_of_follow ReflTransGen.refl h

/-- B holds packet 1 until the timeout sends packet 0 again. -/
theorem sampleRun_ends : (sampleRun [.recvB,.recvA,.fire 0,.recvB,.recvA]).map (fun s =>
    (s.given.length,s.toA.length,s.toB.length,s.timers,s.handed.map fun h => h.2.2)) =
    some (2,0,0,[],[.lost,.ok,.ok,.ok,.ok]) := by
  decide +kernel

theorem selectiveRepeat_safety_sampleRun :
    ∃ s, sampleRun [.recvB,.recvA,.fire 0,.recvB,.recvA] = some s ∧
      s.handed.map (fun h => h.2.2) = [.lost,.ok,.ok,.ok,.ok] ∧
      (s.vars.b.expectedSeq ≤ s.vars.a.nextseqnum ∧ s.vars.a.nextseqnum ≤ s.vars.a.base + 2 ∧
        s.taken = (s.given.take s.vars.b.expectedSeq).map Msg.data) ∧
      s.taken = s.given.map Msg.data ∧ s.vars.a.base = s.vars.a.nextseqnum ∧
      s.vars.a.msgNum = 0 := by
  obtain ⟨s,hs,hend⟩ := Option.map_eq_some_iff.mp sampleRun_ends
  simp only [Prod.mk.injEq] at hend
  obtain ⟨hg,htoA,htoB,htimers,hfates⟩ := hend
  obtain ⟨⟨-,he,hn,-,htaken⟩,hquiet⟩ := selectiveRepeat_safety 2 default firstLost s (by decide)
    (by decide) (sampleRun_reachable hs) (by omega)
  exact ⟨s,hs,hfates,⟨he,hn,htaken⟩,hquiet (List.length_eq_zero_iff.mp htoA)
    (List.length_eq_zero_iff.mp htoB) htimers⟩

end Runs

end NetworkLab.Sr
