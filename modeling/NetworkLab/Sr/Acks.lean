import NetworkLab.Sr.Safety
set_option autoImplicit false

/-! How often B acknowledges a packet: once when it stores it, once more when it
stores a duplicate of a packet it has passed up, and then never again. -/

namespace NetworkLab.Sr
open Rdt Relation

abbrev Handed := List (Entity × Pkt × Fate)

/-- The acknowledgements of packet `k` among the packets handed to layer 3. -/
def sentAcks (hs : Handed) (k : Nat) : Nat :=
  hs.countP fun h => decide (h.1 = .B ∧ h.2.1 = ackPkt k)

/-- Those of them that came through intact. -/
def okAcks (hs : Handed) (k : Nat) : Nat :=
  hs.countP fun h => decide (h.1 = .B ∧ h.2.1 = ackPkt k ∧ h.2.2 = .ok)

/-- Those of them that were lost or corrupted. -/
def lostAcks (hs : Handed) (k : Nat) : Nat :=
  hs.countP fun h => decide (h.1 = .B ∧ h.2.1 = ackPkt k ∧ h.2.2 ≠ .ok)

section Counts
variable {hs hs' : Handed} {k : Nat}

theorem ackPkt_inj {i k : Nat} : ackPkt i = ackPkt k ↔ i = k := by
  constructor
  · intro h
    exact Int.ofNat.inj (congrArg Pkt.acknum h)
  · rintro rfl
    rfl

theorem sentAcks_append : sentAcks (hs ++ hs') k = sentAcks hs k + sentAcks hs' k :=
  List.countP_append

theorem okAcks_append : okAcks (hs ++ hs') k = okAcks hs k + okAcks hs' k :=
  List.countP_append

theorem lostAcks_append : lostAcks (hs ++ hs') k = lostAcks hs k + lostAcks hs' k :=
  List.countP_append

theorem sentAcks_eq (hs : Handed) (k : Nat) : sentAcks hs k = okAcks hs k + lostAcks hs k := by
  induction hs with
  | nil => rfl
  | cons h hs ih =>
    obtain ⟨e,p,f⟩ := h
    simp only [sentAcks,okAcks,lostAcks,List.countP_cons,ne_eq] at ih ⊢
    by_cases he : e = .B ∧ p = ackPkt k
    · by_cases hf : f = .ok
      · simp only [he,hf,and_self,not_true,and_false,decide_true,decide_false,
          if_true,Bool.false_eq_true,if_false]
        omega
      · simp only [he,hf,and_self,not_false_eq_true,and_false,decide_true,
          decide_false,if_true,Bool.false_eq_true,if_false]
        omega
    · have h₁ : ¬(e = .B ∧ p = ackPkt k ∧ f = .ok) := fun h => he ⟨h.1,h.2.1⟩
      have h₂ : ¬(e = .B ∧ p = ackPkt k ∧ ¬f = .ok) := fun h => he ⟨h.1,h.2.1⟩
      simp only [he,h₁,h₂,decide_false,Bool.false_eq_true,if_false]
      omega

/-- Only what B hands over counts. -/
theorem acks_of_A {pattern : Nat → Fate} {cp : Nat} {cs : List Call}
    (h : outOf .B cs = []) (k : Nat) :
    sentAcks (fated pattern cp cs) k = 0 ∧ okAcks (fated pattern cp cs) k = 0 := by
  have hnone : ∀ x ∈ fated pattern cp cs, x.1 ≠ .B := by
    rintro ⟨e,p,f⟩ hx rfl
    have := mem_fated hx
    rw [h] at this
    cases this
  constructor <;>
    exact List.countP_eq_zero.mpr fun x hx => by simp [hnone x hx]

/-- One acknowledgement is handed over. -/
theorem acks_of_one (pattern : Nat → Fate) (cp : Nat) {cs : List Call} {a : Nat}
    (hA : outOf .A cs = []) (hB : outOf .B cs = [ackPkt a]) :
    ∃ f, fated pattern cp cs = [(.B,ackPkt a,f)] := by
  induction cs generalizing cp with
  | nil => cases hB
  | cons c cs ih =>
    cases c with
    | tolayer3 e p =>
      cases e with
      | A => simp at hA
      | B =>
        simp only [outOf_tolayer3,if_true,List.cons.injEq,reduceCtorEq,if_false] at hA hB
        obtain ⟨rfl,hnil⟩ := hB
        refine ⟨pattern cp,?_⟩
        have : fated pattern (cp+1) cs = [] := by
          refine List.eq_nil_iff_forall_not_mem.mpr fun ⟨e,p,f⟩ hx => ?_
          have hmem := mem_fated hx
          cases e with
          | A => rw [hA] at hmem; cases hmem
          | B => rw [hnil] at hmem; cases hmem
        rw [fated,this]
    | tolayer5 d => exact ih _ hA hB
    | starttimeR q => exact ih _ hA hB
    | stoptimeR q => exact ih _ hA hB

end Counts

/-- What the acknowledgements handed over so far say about B, about A and about the
channel. -/
structure Tally (W N : Nat) (s : Net Vars) : Prop where
  none : ∀ k < N, ¬Has W s.vars.b k → sentAcks s.handed k = 0
  some : ∀ k < N, Has W s.vars.b k → 1 ≤ sentAcks s.handed k ∧ sentAcks s.handed k ≤ 2
  twice : ∀ k < N, sentAcks s.handed k = 2 →
    k < s.vars.b.expectedSeq ∧ Marked W s.vars.b k ∨ Has W s.vars.b (k + W)
  again : ∀ k < s.vars.b.expectedSeq, Marked W s.vars.b k → sentAcks s.handed k = 2
  flight : ∀ k < s.vars.a.nextseqnum, Unacked W s.vars.a k →
    okAcks s.handed k = s.toA.count (ackPkt k)
  got : ∀ k < s.vars.a.nextseqnum, ¬Unacked W s.vars.a k → 1 ≤ okAcks s.handed k

theorem tally_init (W N : Nat) (junk : Nat → Pkt) :
    Tally W N (Net.init (students W junk)) := by
  constructor <;> simp [Net.init,students,aInit,bInit,Has,Marked,sentAcks]

section Steps
variable {W N : Nat} {s : Net Vars} {pattern : Nat → Fate}

/-- A corrupted packet is never taken for an acknowledgement that A waits for. -/
theorem FoulAck.ne_ackPkt {p : Pkt} (h : FoulAck N p) {k : Nat} (hk : k < N) :
    p ≠ ackPkt k := by
  rintro rfl
  rcases h with hc | ⟨hN,ha⟩
  · rw [checkCorrupted_ackPkt] at hc
    cases hc
  · rw [ackPkt_acknum] at ha
    omega

theorem Tally.sends (h : Tally W N s) (hinv : Inv W N s) (hW : 0 < W) (pattern : Nat → Fate)
    (given : List Msg) (toA : List Pkt) (timers : List Int) {P : Nat → Prop} {r : AVars × List Call}
    (hs : Sends W s.vars.a given P r)
    (hcount : ∀ k < s.vars.a.nextseqnum, Unacked W s.vars.a k → P k →
      toA.count (ackPkt k) = s.toA.count (ackPkt k))
    (hP : ∀ k < s.vars.a.nextseqnum, Unacked W s.vars.a k → ¬P k → ackPkt k ∈ s.toA)
    (hfresh : toA ⊆ s.toA) (hN : r.1.nextseqnum ≤ N) :
    Tally W N (Net.perform pattern
      { s with given := given, toA := toA, timers := timers } (⟨r.1,s.vars.b⟩,r.2)) := by
  obtain ⟨hv,-,-,-,hhanded,-,hA⟩ := Net.perform_eq pattern
    { s with given := given, toA := toA, timers := timers } (⟨r.1,s.vars.b⟩,r.2)
  generalize Net.perform pattern _ _ = t at *
  simp only at *
  have hsent : ∀ k, sentAcks t.handed k = sentAcks s.handed k := by
    intro k
    rw [hhanded,sentAcks_append,(acks_of_A hs.outB k).1,Nat.add_zero]
  have hok : ∀ k, okAcks t.handed k = okAcks s.handed k := by
    intro k
    rw [hhanded,okAcks_append,(acks_of_A hs.outB k).2,Nat.add_zero]
  rw [arriving_nil hs.outB,List.append_nil] at hA
  constructor
  · intro k hk hn
    rw [hsent]
    rw [hv] at hn
    exact h.none k hk hn
  · intro k hk hh
    rw [hsent]
    rw [hv] at hh
    exact h.some k hk hh
  · intro k hk h2
    rw [hsent] at h2
    rw [hv]
    exact h.twice k hk h2
  · rw [hv]
    intro k hk hm
    rw [hsent]
    exact h.again k hk hm
  · rw [hv]
    intro k hk hu
    rw [hok,hA]
    rcases (hs.unacked k).mp hu with ⟨hu,hp⟩ | ⟨hge,-⟩
    · rw [hcount k hu.2.1 hu hp]
      exact h.flight k hu.2.1 hu
    · -- a packet sent just now has no acknowledgement yet
      have hnot : ¬Has W s.vars.b k := fun hh => Nat.not_lt.mpr hge (hinv.has_lt hW hh)
      have h0 := h.none k (Nat.lt_of_lt_of_le hk hN) hnot
      rw [sentAcks_eq] at h0
      have hmem : ackPkt k ∉ toA := by
        intro hmem
        rcases hinv.toA _ (hfresh hmem) with ⟨j,hj,hh⟩ | hf
        · exact hnot (ackPkt_inj.mp hj ▸ hh)
        · exact hf.ne_ackPkt (Nat.lt_of_lt_of_le hk hN) rfl
      rw [List.count_eq_zero.mpr hmem]
      omega
  · rw [hv]
    intro k hk hu
    rw [hok]
    rw [hs.unacked] at hu
    have hlt : k < s.vars.a.nextseqnum := by
      by_contra hge
      exact hu (Or.inr ⟨by omega,hk⟩)
    by_cases hu' : Unacked W s.vars.a k
    · have hmem := hP k hlt hu' fun hp => hu (Or.inl ⟨hu',hp⟩)
      rw [h.flight k hlt hu']
      exact List.count_pos_iff.mpr hmem
    · exact h.got k hlt hu'

/-- One acknowledgement goes out: as many as come through intact come into the channel. -/
theorem counts_of_one {rest : List Pkt} {r : BVars × List Call} {a : Nat}
    (hA : outOf .A r.2 = []) (hB : outOf .B r.2 = [ackPkt a])
    (hclean : Clean N (Net.perform pattern { s with toB := rest } (⟨s.vars.a,r.1⟩,r.2))) :
    let t := Net.perform pattern { s with toB := rest } (⟨s.vars.a,r.1⟩,r.2)
    (∀ k, sentAcks t.handed k = sentAcks s.handed k + if a = k then 1 else 0) ∧
    ∀ k < N, ∃ d, okAcks t.handed k = okAcks s.handed k + d ∧
      t.toA.count (ackPkt k) = s.toA.count (ackPkt k) + d := by
  obtain ⟨-,-,-,-,hhanded,-,htoA⟩ := Net.perform_eq pattern
    { s with toB := rest } (⟨s.vars.a,r.1⟩,r.2)
  simp only
  generalize Net.perform pattern _ _ = t at *
  simp only at *
  obtain ⟨f,hf⟩ := acks_of_one pattern s.cp hA hB
  rw [hf] at hhanded htoA
  have heq : ∀ k : Nat, (ackPkt (a : Int) = ackPkt (k : Int)) = (a = k) :=
    fun k => propext ackPkt_inj
  refine ⟨fun k => ?_,fun k hk => ?_⟩
  · rw [hhanded,sentAcks_append]
    by_cases hak : a = k <;> simp [sentAcks,heq,hak]
  · rw [hhanded,htoA,okAcks_append,List.count_append]
    refine ⟨_,rfl,?_⟩
    congr 1
    cases f with
    | ok => by_cases hak : a = k <;> simp [okAcks,arriving,Fate.apply,heq,hak]
    | lost => simp [okAcks,arriving,Fate.apply]
    | corrupt =>
      have hne : corrupted (ackPkt a) ≠ ackPkt k := by
        refine FoulAck.ne_ackPkt (hclean.foulAck (e := .B) ?_) hk
        simp [hhanded]
      simp [okAcks,arriving,Fate.apply,hne]

/-- What B hands over intact is on its way to A. -/
theorem Tally.answered {t : Net Vars} (h : Tally W N s) (ha : t.vars.a = s.vars.a)
    (hnext : s.vars.a.nextseqnum ≤ N)
    (hok : ∀ k < N, ∃ d, okAcks t.handed k = okAcks s.handed k + d ∧
      t.toA.count (ackPkt k) = s.toA.count (ackPkt k) + d) :
    (∀ k < t.vars.a.nextseqnum, Unacked W t.vars.a k →
      okAcks t.handed k = t.toA.count (ackPkt k)) ∧
    ∀ k < t.vars.a.nextseqnum, ¬Unacked W t.vars.a k → 1 ≤ okAcks t.handed k := by
  rw [ha]
  constructor
  · intro k hk hu
    obtain ⟨d,h₁,h₂⟩ := hok k (Nat.lt_of_lt_of_le hk hnext)
    rw [h₁,h₂,h.flight k hk hu]
  · intro k hk hu
    obtain ⟨d,h₁,-⟩ := hok k (Nat.lt_of_lt_of_le hk hnext)
    rw [h₁]
    exact Nat.le_add_right_of_le (h.got k hk hu)

/-- B keeps its variables, and hands over nothing or an acknowledgement of a number
that no packet has. -/
theorem Tally.receives_same (h : Tally W N s) {rest : List Pkt} {cs : List Call}
    (hcs : cs = [] ∨ N < 999000 ∧ cs = [.tolayer3 .B (ackPkt 999999)])
    (hinv : Inv W N s) (hclean : Clean N (Net.perform pattern { s with toB := rest }
      (⟨s.vars.a,s.vars.b⟩,cs))) :
    Tally W N (Net.perform pattern { s with toB := rest } (⟨s.vars.a,s.vars.b⟩,cs)) := by
  have hnext := hinv.next_le.trans hinv.given_le
  rcases hcs with rfl | ⟨hN,rfl⟩
  · exact ⟨h.none,h.some,h.twice,h.again,h.flight,h.got⟩
  · obtain ⟨hsent,hok⟩ := counts_of_one (a := 999999)
      (r := (s.vars.b,[.tolayer3 .B (ackPkt 999999)])) (by simp) (by simp) hclean
    obtain ⟨hv,-⟩ := Net.perform_eq pattern { s with toB := rest }
      (⟨s.vars.a,s.vars.b⟩,[.tolayer3 .B (ackPkt 999999)])
    simp only at hsent hok
    generalize Net.perform pattern _ _ = t at *
    have hsent' : ∀ k < N, sentAcks t.handed k = sentAcks s.handed k := by
      intro k hk
      rw [hsent,if_neg (by omega),Nat.add_zero]
    constructor
    · intro k hk hn
      rw [hv] at hn
      rw [hsent' k hk]
      exact h.none k hk hn
    · intro k hk hh
      rw [hv] at hh
      rw [hsent' k hk]
      exact h.some k hk hh
    · intro k hk h2
      rw [hsent' k hk] at h2
      rw [hv]
      exact h.twice k hk h2
    · rw [hv]
      intro k hk hm
      have := hinv.receiver.expected_le
      rw [hsent' k (by simp only at hk; omega)]
      exact h.again k hk hm
    · exact (h.answered (congrArg Vars.a hv) hnext hok).1
    · exact (h.answered (congrArg Vars.a hv) hnext hok).2

/-- A packet that is not in its slot was acknowledged once if it was passed up, and not at
all before. -/
theorem Tally.sent_before (h : Tally W N s) {a : Nat} (ha : a < N)
    (hbehind : ¬Has W s.vars.b (a + W)) (hm : ¬Marked W s.vars.b a) :
    sentAcks s.handed a = if a < s.vars.b.expectedSeq then 1 else 0 := by
  split
  · rename_i hlt
    have h12 := h.some a ha (Or.inl hlt)
    have hnot2 : sentAcks s.handed a ≠ 2 := by
      intro h2
      rcases h.twice a ha h2 with ⟨-,hmark⟩ | hh
      · exact hm hmark
      · exact hbehind hh
    omega
  · rename_i hge
    exact h.none a ha fun hh => hh.elim hge hm

/-- When `a` comes into the slot of a packet that was passed up, B has the packet one round
behind that one already, or it is `a`. -/
theorem has_of_slot {a k e : Nat} (hslot : k % W = a % W) (hne : a ≠ k)
    (hhi : a < e + W) (hbehind : k < a + W) : k + W < e ∨ k + W = a := by
  have hka : k + W ≤ a := (Slots.slot_apart hslot hne.symm).resolve_right (by omega)
  by_cases he : k + W = a
  · exact Or.inr he
  · have hmod : (k + W) % W = a % W := (Nat.add_mod_right k W).trans hslot
    have hapart := (Slots.slot_apart hmod he).resolve_right (by omega)
    exact Or.inl (by omega)

/-- B stores packet `a`: it has acknowledged it not at all before, or once and passed
it up since. -/
theorem Tally.accepts (h : Tally W N s) (hinv : Inv W N s) {rest : List Pkt}
    {r : BVars × List Call} {a : Nat} (ha : a < s.vars.a.nextseqnum)
    (hhi : a < s.vars.b.expectedSeq + W) (hbehind : ∀ i, Has W s.vars.b i → i < a + W)
    (hm : ¬Marked W s.vars.b a)
    (hr : Accepts W s.vars.b s.given s.vars.a.nextseqnum s.taken a r)
    (hclean : Clean N (Net.perform pattern { s with toB := rest } (⟨s.vars.a,r.1⟩,r.2))) :
    Tally W N (Net.perform pattern { s with toB := rest } (⟨s.vars.a,r.1⟩,r.2)) := by
  have hnext := hinv.next_le.trans hinv.given_le
  obtain ⟨hsent,hok⟩ := counts_of_one hr.outA hr.outB hclean
  obtain ⟨hv,-⟩ := Net.perform_eq pattern { s with toB := rest } (⟨s.vars.a,r.1⟩,r.2)
  generalize Net.perform pattern _ _ = t at *
  have hle := hr.expected_le
  have hsent_ne : ∀ k, a ≠ k → sentAcks t.handed k = sentAcks s.handed k := by
    intro k hk
    rw [hsent,if_neg hk,Nat.add_zero]
  have hsent_a : sentAcks t.handed a = sentAcks s.handed a + 1 := by rw [hsent,if_pos rfl]
  have hbefore : sentAcks s.handed a = if a < s.vars.b.expectedSeq then 1 else 0 :=
    h.sent_before (by omega) (fun hh => Nat.lt_irrefl _ (hbehind _ hh)) hm
  constructor
  · intro k hk hn
    rw [hv,hr.has] at hn
    rw [hsent_ne k fun he => hn (Or.inr he.symm)]
    exact h.none k hk fun hh => hn (Or.inl hh)
  · intro k hk hh
    by_cases hak : a = k
    · subst hak
      rw [hsent_a,hbefore]
      split <;> omega
    · rw [hv,hr.has] at hh
      rw [hsent_ne k hak]
      exact h.some k hk (hh.resolve_right fun he => hak he.symm)
  · intro k hk h2
    rw [hv]
    by_cases hak : a = k
    · subst hak
      rw [hsent_a,hbefore] at h2
      split at h2
      · exact Or.inl ⟨by simp only; omega,(hr.marked a).mpr ⟨Or.inr rfl,by omega⟩⟩
      · omega
    · rw [hsent_ne k hak] at h2
      rcases h.twice k hk h2 with ⟨hlt,hmark⟩ | hh
      · by_cases he : k % W = a % W
        · -- the slot of `k` now belongs to `a`, one or more rounds later
          right
          rw [hr.has]
          exact (has_of_slot he hak hhi (hbehind k (Or.inl hlt))).imp_left Or.inl
        · exact Or.inl ⟨by simp only; omega,(hr.marked k).mpr ⟨Or.inl ⟨hmark,he⟩,by omega⟩⟩
      · exact Or.inr ((hr.has _).mpr (Or.inl hh))
  · rw [hv]
    intro k hk hmark
    obtain ⟨hor,hout⟩ := (hr.marked k).mp hmark
    have hlt : k < s.vars.b.expectedSeq := by
      simp only at hk
      omega
    rcases hor with ⟨hmk,hne⟩ | rfl
    · have hak : a ≠ k := by
        rintro rfl
        exact hne rfl
      rw [hsent_ne k hak]
      exact h.again k hlt hmk
    · rw [hsent_a,hbefore,if_pos hlt]
  · exact (h.answered (by rw [hv]) hnext hok).1
  · exact (h.answered (by rw [hv]) hnext hok).2

theorem Tally.recvA (h : Tally W N s) (hinv : Inv W N s) (hW : 0 < W) {p : Pkt}
    {rest : List Pkt} (hp : s.toA = p :: rest) :
    Tally W N (Net.perform pattern { s with toA := rest }
      (⟨(aInput W p s.vars.a).1,s.vars.b⟩,(aInput W p s.vars.a).2)) := by
  have hrest : rest ⊆ s.toA := fun q hq => by simp [hp,hq]
  have hcount : ∀ k : Nat, p ≠ ackPkt k → rest.count (ackPkt k) = s.toA.count (ackPkt k) := by
    intro k hk
    rw [hp,List.count_cons_of_ne hk]
  rcases aInput_cases hinv.sender p with ⟨hnot,he⟩ | ⟨k,hc,hpk,hu,he⟩
  · rw [he]
    refine Tally.sends h hinv hW pattern s.given rest s.timers (r := (s.vars.a,[]))
      (sends_nothing rfl rfl rfl) ?_ (fun k _ _ hk => absurd trivial hk) hrest
      (hinv.next_le.trans hinv.given_le)
    intro k _ hu _
    refine hcount k ?_
    rintro rfl
    exact hnot k (checkCorrupted_ackPkt _) rfl hu
  · rw [he]
    obtain ⟨hsender,hs⟩ := hinv.sender.acceptAck hu
    obtain ⟨hpe,-⟩ := hinv.ack_of_accepted (p := p) (by simp [hp]) hc hpk hu.2.1
    refine Tally.sends h hinv hW pattern s.given rest s.timers hs ?_ ?_ hrest ?_
    · intro i _ _ hik
      refine hcount i ?_
      rw [hpe]
      exact fun hack => hik (ackPkt_inj.mp hack).symm
    · intro i _ _ hik
      obtain rfl : i = k := Decidable.not_not.mp hik
      rw [← hpe,hp]
      exact List.mem_cons_self
    · have := hsender.queue.count
      have := hinv.given_le
      omega

theorem Tally.recvB (h : Tally W N s) (hinv : Inv W N s) (hW : 0 < W) (hW8 : W ≤ 8) {p : Pkt}
    {rest : List Pkt} (hp : s.toB = p :: rest)
    (hclean : Clean N (Net.perform pattern { s with toB := rest }
      (⟨s.vars.a,(bInput W p s.vars.b).1⟩,(bInput W p s.vars.b).2))) :
    Tally W N (Net.perform pattern { s with toB := rest }
      (⟨s.vars.a,(bInput W p s.vars.b).1⟩,(bInput W p s.vars.b).2)) := by
  have hmem : p ∈ s.toB := by simp [hp]
  rcases hinv.recvB_cases hW hW8 hmem with
    ⟨-,hr⟩ | ⟨-,hN,hr⟩ | ⟨k,hk,rfl,⟨-,hr⟩ | ⟨hm,hr⟩⟩
  · rw [hr] at hclean ⊢
    exact h.receives_same (Or.inl rfl) hinv hclean
  · rw [hr] at hclean ⊢
    exact h.receives_same (Or.inr ⟨hN,rfl⟩) hinv hclean
  · rw [hr] at hclean ⊢
    exact h.receives_same (Or.inl rfl) hinv hclean
  · refine h.accepts hinv hk (hinv.window hk hmem).2 ?_ hm hr hclean
    intro i hi
    have := hinv.behind _ hmem rfl i hi
    rw [sentPkt_seqnum] at this
    omega

theorem Tally.step (h : Tally W N s) (hinv : Inv W N s) (hW : 0 < W) (hW8 : W ≤ 8)
    {junk : Nat → Pkt} {t : Net Vars} (hst : Net.Step pattern (students W junk) s t)
    (hN : t.given.length ≤ N) (hclean : Clean N t) : Tally W N t := by
  cases hst with
  | @submit r m hm =>
    obtain ⟨r',hr',rfl⟩ := Option.map_eq_some_iff.mp hm
    obtain ⟨hsender,hs,-⟩ := hinv.sender.aOutput hr'
    refine Tally.sends h hinv hW pattern _ s.toA s.timers hs
      (fun _ _ _ _ => rfl) (fun k _ _ hk => absurd trivial hk) (List.Subset.refl _) ?_
    rw [(Net.perform_eq _ _ _).2.1] at hN
    have := hsender.queue.count
    simp only at hN
    omega
  | recvA p rest hp => exact h.recvA hinv hW hp
  | recvB p rest hp => exact h.recvB hinv hW hW8 hp hclean
  | fire q before after hq =>
    obtain ⟨k,rfl,hu,he,-⟩ := hinv.sender.fire hq
    have := Tally.sends h hinv hW pattern s.given s.toA (before ++ after) (hu.resends s.given)
      (fun _ _ _ _ => rfl) (fun k _ _ hk => absurd trivial hk) (List.Subset.refl _)
      (hinv.next_le.trans hinv.given_le)
    simpa [students,he] using this

/-- Never more than two acknowledgements of one packet go out; once A has one of them,
at most one was lost. -/
theorem Tally.lost_le (h : Tally W N s) {k : Nat} (hk : k < N)
    (hlt : k < s.vars.a.nextseqnum) (hu : ¬Unacked W s.vars.a k) :
    lostAcks s.handed k ≤ 1 := by
  have hgot := h.got k hlt hu
  have heq := sentAcks_eq s.handed k
  by_cases hh : Has W s.vars.b k
  · have := h.some k hk hh
    omega
  · have := h.none k hk hh
    omega

/-- The first packet of the window waits for an acknowledgement that is on its way, or
B would acknowledge it when it came again. -/
theorem Tally.live (h : Tally W N s) (hinv : Inv W N s)
    (hb : s.vars.a.base < s.vars.a.nextseqnum) (hlost : lostAcks s.handed s.vars.a.base ≤ 1) :
    ackPkt s.vars.a.base ∈ s.toA ∨ ¬Marked W s.vars.b s.vars.a.base := by
  by_cases hmem : ackPkt s.vars.a.base ∈ s.toA
  · exact Or.inl hmem
  · right
    intro hm
    have hbase := hinv.base_le
    have hne : s.vars.a.base ≠ s.vars.b.expectedSeq := by
      intro heq
      rw [heq] at hm
      exact hinv.receiver.waits hm
    have h2 := h.again s.vars.a.base (by omega) hm
    have hok := h.flight s.vars.a.base hb (hinv.sender.head hb)
    rw [List.count_eq_zero.mpr hmem] at hok
    rw [sentAcks_eq] at h2
    omega

end Steps

end NetworkLab.Sr
