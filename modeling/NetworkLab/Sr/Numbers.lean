import NetworkLab.Sr.Acks
set_option autoImplicit false

/-! How far the numbers in flight lie from those that A and B expect: less than a window
ahead, at most a window behind. So `2 * W` sequence numbers would be enough. -/

namespace NetworkLab.Sr
open Rdt Relation

/-- The number in the window around `e` that has the residue `r`. -/
def recover (W : Nat) (e : Nat) (r : Int) : Int :=
  (e - W : Int) + (r - (e - W : Int)) % (2 * W)

theorem recover_eq {W e : Nat} {k : Int} (hlo : (e : Int) ≤ k + W) (hhi : k < e + W) :
    recover W e (k % (2 * W)) = k := by
  have hmod : (k % (2 * W) - (e - W)) % (2 * W) = k - (e - W) := by
    rw [Int.emod_sub_emod]
    exact Int.emod_eq_of_lt (by omega) (by omega)
  rw [recover,hmod]
  omega

/-- The channel to A keeps the order, so an acknowledgement is less than a window behind
everything that A has heard before it. -/
structure AckOrder (W N : Nat) (s : Net Vars) : Prop where
  order : s.toA.Pairwise fun (q p : Pkt) => ∀ i < N, ∀ k < N, q = ackPkt (i : Nat) →
    p = ackPkt (k : Nat) → i < k + W
  behind : ∀ k : Nat, k < N → ackPkt k ∈ s.toA → ∀ j < s.vars.a.nextseqnum,
    ¬Unacked W s.vars.a j → j < k + W

theorem ackOrder_init (W N : Nat) (junk : Nat → Pkt) :
    AckOrder W N (Net.init (students W junk)) := by
  constructor <;> simp [Net.init]

section Steps
variable {W N : Nat} {s : Net Vars} {pattern : Nat → Fate}

/-- A function of A runs, which may have taken an acknowledgement out of the channel. -/
theorem AckOrder.sends (h : AckOrder W N s) (pattern : Nat → Fate) (given : List Msg)
    {toA : List Pkt} (hsub : toA.Sublist s.toA) (timers : List Int) {P : Nat → Prop}
    {r : AVars × List Call}
    (hs : Sends W s.vars.a given P r)
    (hP : ∀ j, ¬P j → ∀ k : Nat, k < N → ackPkt k ∈ toA → j < k + W) :
    AckOrder W N (Net.perform pattern { s with given := given, toA := toA, timers := timers }
      (⟨r.1,s.vars.b⟩,r.2)) := by
  obtain ⟨hv,-,-,-,-,-,hA⟩ := Net.perform_eq pattern
    { s with given := given, toA := toA, timers := timers }
    ((⟨r.1,s.vars.b⟩,r.2) : Vars × List Call)
  generalize Net.perform pattern _ _ = t at *
  simp only at hv hA
  rw [arriving_nil hs.outB,List.append_nil] at hA
  constructor
  · rw [hA]
    exact h.order.sublist hsub
  · rw [hA,hv]
    intro k hk hmem j hj hu
    simp only at hj hu
    rw [hs.unacked] at hu
    by_cases hP' : P j
    · refine h.behind k hk (hsub.subset hmem) j ?_ fun hu' => hu (Or.inl ⟨hu',hP'⟩)
      by_contra hge
      exact hu (Or.inr ⟨by omega,hj⟩)
    · exact hP j hP' k hk hmem

theorem AckOrder.recvA (h : AckOrder W N s) (hinv : Inv W N s) {p : Pkt} {rest : List Pkt}
    (hp : s.toA = p :: rest) : AckOrder W N (Net.perform pattern { s with toA := rest }
      (⟨(aInput W p s.vars.a).1,s.vars.b⟩,(aInput W p s.vars.a).2)) := by
  have hsub : rest.Sublist s.toA := hp ▸ List.sublist_cons_self p rest
  rcases aInput_cases hinv.sender p with ⟨-,he⟩ | ⟨i,hc,hpi,hu,he⟩
  · rw [he]
    exact h.sends pattern s.given hsub s.timers (sends_nothing rfl rfl rfl)
      fun j hj => absurd trivial hj
  · rw [he]
    refine h.sends pattern s.given hsub s.timers (hinv.sender.acceptAck hu).2
      fun j hj k hk hmem => ?_
    obtain rfl : j = i := not_not.mp hj
    have hlen := hinv.next_le
    have hN := hinv.given_le
    have hpa := (hinv.ack_of_accepted (p := p) (by simp [hp]) hc hpi hu.2.1).1
    have horder := h.order
    rw [hp] at horder
    have hjn := hu.2.1
    exact (List.pairwise_cons.mp horder).1 _ hmem j (by omega) k hk hpa rfl

theorem AckOrder.recvB (h : AckOrder W N s) (hinv : Inv W N s) (hW : 0 < W) (hW8 : W ≤ 8)
    {p : Pkt} {rest : List Pkt} (hp : s.toB = p :: rest)
    (hclean : Clean N (Net.perform pattern { s with toB := rest }
      (⟨s.vars.a,(bInput W p s.vars.b).1⟩,(bInput W p s.vars.b).2))) :
    AckOrder W N (Net.perform pattern { s with toB := rest }
      (⟨s.vars.a,(bInput W p s.vars.b).1⟩,(bInput W p s.vars.b).2)) := by
  have hmem : p ∈ s.toB := by simp [hp]
  have hhas : ∀ i < N, ackPkt (i : Nat) ∈ s.toA → Has W s.vars.b i := by
    intro i hi hq
    rcases hinv.toA _ hq with ⟨j,hj,hh⟩ | hf
    · exact (ackPkt_inj.mp hj) ▸ hh
    · exact absurd rfl (hf.ne_ackPkt hi)
  -- what B hands over is the acknowledgement of this packet
  have hnew : ∀ k < N, ackPkt (k : Nat) ∈ outOf .B (bInput W p s.vars.b).2 →
      p = sentPkt s.given k := by
    intro k hk hq
    rcases hinv.recvB_cases hW hW8 hmem with ⟨-,hr⟩ | ⟨-,hN,hr⟩ | ⟨i,-,hpi,⟨-,hr⟩ | ⟨-,hr⟩⟩
    · rw [hr] at hq
      cases hq
    · rw [hr] at hq
      have := congrArg Pkt.acknum (List.mem_singleton.mp hq)
      rw [ackPkt_acknum,ackPkt_acknum] at this
      omega
    · rw [hr] at hq
      cases hq
    · rw [hr.outB,List.mem_singleton,ackPkt_inj] at hq
      rw [hpi,hq]
  obtain ⟨hv,-,-,-,hhanded,-,hA⟩ := Net.perform_eq pattern { s with toB := rest }
    ((⟨s.vars.a,(bInput W p s.vars.b).1⟩,(bInput W p s.vars.b).2) : Vars × List Call)
  generalize Net.perform pattern _ _ = t at *
  simp only at hv hhanded hA
  have hadds : ∀ k < N, ackPkt (k : Nat) ∈
      arriving .B (fated pattern s.cp (bInput W p s.vars.b).2) → p = sentPkt s.given k := by
    intro k hk hq
    obtain ⟨p₀,hp₀,rfl | ⟨he,hc⟩⟩ := mem_arriving hq
    · exact hnew k hk hp₀
    · have hfoul := hclean.foulAck (e := .B) (p := p₀) (by
        rw [hhanded]
        exact List.mem_append_right _ hc)
      exact absurd he.symm (hfoul.ne_ackPkt hk)
  have hclose : ∀ i, Has W s.vars.b i → ∀ k : Nat, p = sentPkt s.given k → i < k + W := by
    rintro i hi k rfl
    have := hinv.behind _ hmem rfl i hi
    rw [sentPkt_seqnum] at this
    omega
  constructor
  · rw [hA,List.pairwise_append]
    refine ⟨h.order,List.pairwise_of_forall_mem_list ?_,?_⟩
    · rintro _ hq _ hq' i hi k hk rfl rfl
      have := hadds i hi hq
      have := hadds k hk hq'
      have hik : i = k := by
        have := congrArg Pkt.seqnum ((hadds i hi hq).symm.trans (hadds k hk hq'))
        rw [sentPkt_seqnum,sentPkt_seqnum] at this
        omega
      omega
    · rintro _ hq _ hq' i hi k hk rfl rfl
      exact hclose i (hhas i hi hq) k (hadds k hk hq')
  · rw [hA,hv]
    intro k hk hq j hj hu
    rcases List.mem_append.mp hq with hq | hq
    · exact h.behind k hk hq j hj hu
    · exact hclose j (hinv.acked j hj hu) k (hadds k hk hq)

theorem AckOrder.step (h : AckOrder W N s) (hinv : Inv W N s) (hW : 0 < W) (hW8 : W ≤ 8)
    {junk : Nat → Pkt} {t : Net Vars} (hst : Net.Step pattern (students W junk) s t)
    (hclean : Clean N t) : AckOrder W N t := by
  cases hst with
  | @submit r m hm =>
    obtain ⟨r',hr',rfl⟩ := Option.map_eq_some_iff.mp hm
    exact h.sends pattern (s.given ++ [m]) (List.Sublist.refl _) s.timers
      (hinv.sender.aOutput hr').2.1
      fun j hj => absurd trivial hj
  | recvA p rest hp => exact h.recvA hinv hp
  | recvB p rest hp => exact h.recvB hinv hW hW8 hp hclean
  | fire q before after hq =>
    obtain ⟨k,rfl,hu,he,-⟩ := hinv.sender.fire hq
    have := h.sends pattern s.given (List.Sublist.refl _) (before ++ after)
      (hu.resends s.given) fun j hj => absurd trivial hj
    simpa [students,he] using this

/-- Every intact packet in flight has a number in the window around the number that its
receiver expects, so its residue modulo `2 * W` is enough to know it, and `B_input` always
finds it in its window. -/
theorem selectiveRepeat_numbers (W : Nat) (junk : Nat → Pkt) (pattern : Nat → Fate)
    (s : Net Vars) (hW : 1 ≤ W) (hW8 : W ≤ 8)
    (h : Net.Reachable pattern (students W junk) s) (hN : s.given.length < 999000) :
    (∀ p ∈ s.toB, p.seqnum ≠ 999999 → inWindow W p.seqnum s.vars.b.expectedSeq ∧
      recover W s.vars.b.expectedSeq (p.seqnum % (2 * W)) = p.seqnum) ∧
    ∀ p ∈ s.toA, checkCorrupted p = false → p.acknum ≠ 999999 →
      recover W s.vars.a.base (p.acknum % (2 * W)) = p.acknum := by
  have hinv := inv_of_reachable hW hW8 h (Nat.le_refl _) (Or.inl hN)
  have hack : AckOrder W s.given.length s := by
    have hboth : ∀ N, s.given.length ≤ N → N < 999000 → AckOrder W N s := by
      intro N hle hlt
      clear hinv hN
      induction h with
      | refl => exact ackOrder_init W N junk
      | tail hreach hst ih =>
        have hle' := (Net.step_handed hst).2.trans hle
        exact (ih hle').step (inv_of_reachable hW hW8 hreach hle' (Or.inl hlt)) hW hW8 hst
          (Or.inl hlt)
    exact hboth _ (Nat.le_refl _) hN
  constructor
  · intro p hp hseq
    rcases hinv.toB p hp with ⟨k,hk,rfl⟩ | hf
    · obtain ⟨hlo,hhi⟩ := hinv.window hk hp
      rw [sentPkt_seqnum]
      refine ⟨?_,recover_eq (by omega) (by omega)⟩
      unfold inWindow
      omega
    · exact absurd hf.2.1 hseq
  · intro p hp hc hne
    rcases hinv.toA p hp with ⟨k,rfl,hk⟩ | hf | ⟨-,hf⟩
    · have hkn := hinv.has_lt hW hk
      have hnext := hinv.sender.ring.next_le
      have hlen := hinv.next_le
      rw [ackPkt_acknum]
      refine recover_eq ?_ (by omega)
      rcases Nat.eq_zero_or_pos s.vars.a.base with hb | hb
      · omega
      · have hble := hinv.sender.ring.base_le
        have := hack.behind k (by omega) hp (s.vars.a.base - 1) (by omega) fun hu => by
          have := hu.1
          omega
        omega
    · rw [hf] at hc
      cases hc
    · exact absurd hf hne

/-- Packet 0 is on its way again while the acknowledgement of packet 1 is. -/
theorem sampleRun_crossing : (sampleRun [.recvB,.fire 0]).map (fun s =>
    (s.given.length,s.toA.map Pkt.acknum,s.toB.map Pkt.seqnum,s.vars.b.expectedSeq)) =
    some (2,[1],[0],0) := by
  decide +kernel

theorem selectiveRepeat_numbers_sampleRun : ∃ s, sampleRun [.recvB,.fire 0] = some s ∧
    s.toA.map Pkt.acknum = [1] ∧ s.toB.map Pkt.seqnum = [0] ∧
    (∀ p ∈ s.toB, p.seqnum ≠ 999999 → inWindow 2 p.seqnum s.vars.b.expectedSeq ∧
      recover 2 s.vars.b.expectedSeq (p.seqnum % (2 * (2 : Nat))) = p.seqnum) ∧
    ∀ p ∈ s.toA, checkCorrupted p = false → p.acknum ≠ 999999 →
      recover 2 s.vars.a.base (p.acknum % (2 * (2 : Nat))) = p.acknum := by
  obtain ⟨s,hs,hend⟩ := Option.map_eq_some_iff.mp sampleRun_crossing
  simp only [Prod.mk.injEq] at hend
  obtain ⟨hg,htoA,htoB,-⟩ := hend
  exact ⟨s,hs,htoA,htoB,selectiveRepeat_numbers 2 default firstLost s (by decide) (by decide)
    (sampleRun_reachable hs) (by omega)⟩

end Steps

end NetworkLab.Sr
