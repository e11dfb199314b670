import NetworkLab.Sr.Sender
set_option autoImplicit false

/-! The receiver: its slots, the packets it has, and what it passes up. -/

namespace NetworkLab.Sr
open Rdt Slots

/-- The slot of packet `k` holds packet `k`. -/
def Marked (W : Nat) (b : BVars) (k : Nat) : Prop :=
  b.recvMarked (k % W) = true ∧ (b.recvWindow (k % W)).seqnum = k

/-- B has packet `k`: it passed it up, or holds it for later. -/
def Has (W : Nat) (b : BVars) (k : Nat) : Prop := k < b.expectedSeq ∨ Marked W b k

theorem marked_slot {W : Nat} {b : BVars} {i k : Nat} (hi : Marked W b i) (hk : Marked W b k)
    (he : i % W = k % W) : i = k := by
  have h₁ := hi.2
  have h₂ := hk.2
  rw [he,h₂] at h₁
  exact (Int.ofNat.inj h₁).symm

/-- `n` packets have been sent and `taken` is what went up so far. A marked slot holds
one of these packets. -/
structure Stock (W : Nat) (b : BVars) (given : List Msg) (n : Nat) (taken : List Payload) :
    Prop where
  taken_eq : taken = (given.take b.expectedSeq).map Msg.data
  expected_le : b.expectedSeq ≤ n
  slot : ∀ j < W, b.recvMarked j = true →
    ∃ k < n, k % W = j ∧ b.recvWindow j = sentPkt given k

/-- B between two events: what it waits for is not in its slots. -/
structure Receiver (W : Nat) (b : BVars) (given : List Msg) (n : Nat) (taken : List Payload) :
    Prop extends Stock W b given n taken where
  waits : ¬Marked W b b.expectedSeq

section Receiver
variable {W n : Nat} {b : BVars} {given : List Msg} {taken : List Payload}

theorem receiver_bInit (W : Nat) : Receiver W bInit [] 0 [] := by
  refine ⟨⟨rfl,Nat.le_refl _,?_⟩,?_⟩ <;> simp [bInit,Marked]

theorem Stock.of_marked (h : Stock W b given n taken) (hW : 0 < W) {k : Nat}
    (hk : Marked W b k) : k < n ∧ b.recvWindow (k % W) = sentPkt given k := by
  obtain ⟨i,hi,-,hp⟩ := h.slot (k % W) (Nat.mod_lt _ hW) hk.1
  have hs := hk.2
  rw [hp,sentPkt_seqnum] at hs
  obtain rfl := Int.ofNat.inj hs
  exact ⟨hi,hp⟩

/-- A has sent more, and layer 5 may have given one more message. -/
theorem Stock.grow (h : Stock W b given n taken) (hn : n ≤ given.length) {n' : Nat}
    (hle : n ≤ n') (l : List Msg) (hl : l = [] ∨ ∃ m, l = [m]) :
    Stock W b (given ++ l) n' taken := by
  have he := h.expected_le
  refine ⟨?_,by omega,fun j hj hm => ?_⟩
  · rw [List.take_append_of_le_length (by omega)]
    exact h.taken_eq
  · obtain ⟨k,hk,hkj,hp⟩ := h.slot j hj hm
    refine ⟨k,by omega,hkj,?_⟩
    rw [hp]
    rcases hl with rfl | ⟨m,rfl⟩
    · rw [List.append_nil]
    · exact (sentPkt_append (by omega) m).symm

theorem Receiver.grow (h : Receiver W b given n taken) (hn : n ≤ given.length) {n' : Nat}
    (hle : n ≤ n') (l : List Msg) (hl : l = [] ∨ ∃ m, l = [m]) :
    Receiver W b (given ++ l) n' taken := ⟨h.toStock.grow hn hle l hl,h.waits⟩

/-- One round of the loop in `B_input`. -/
def pass (W : Nat) (b : BVars) : BVars :=
  { b with recvMarked := Function.update b.recvMarked (b.expectedSeq % W) false
           expectedSeq := b.expectedSeq + 1 }

theorem marked_pass (hm : Marked W b b.expectedSeq) (k : Nat) :
    Marked W (pass W b) k ↔ Marked W b k ∧ k ≠ b.expectedSeq := by
  by_cases he : k % W = b.expectedSeq % W
  · constructor
    · intro hk
      simp [Marked,pass,he] at hk
    · rintro ⟨hk,hne⟩
      exact absurd (marked_slot hk hm he) hne
  · have hne : k ≠ b.expectedSeq := by
      rintro rfl
      exact he rfl
    simp [Marked,pass,Function.update_of_ne he,hne]

theorem deliver_of_marked (hm : Marked W b b.expectedSeq) (fuel : Nat) :
    deliver W (fuel+1) b = ((deliver W fuel (pass W b)).1,
      .tolayer5 (b.recvWindow (b.expectedSeq % W)).payload ::
        (deliver W fuel (pass W b)).2) := by
  simp only [deliver]
  exact if_pos hm

theorem deliver_of_not_marked (hm : ¬Marked W b b.expectedSeq) (fuel : Nat) :
    deliver W fuel b = (b,[]) := by
  cases fuel with
  | zero => rfl
  | succ fuel =>
    simp only [deliver]
    exact if_neg hm

/-- What the loop has done when it ends, whatever its slots hold. -/
structure Passes (W : Nat) (b : BVars) (r : BVars × List Call) : Prop where
  expected_le : b.expectedSeq ≤ r.1.expectedSeq
  recvWindow : r.1.recvWindow = b.recvWindow
  passed : ∀ k, b.expectedSeq ≤ k → k < r.1.expectedSeq → Marked W b k
  marked : ∀ k, Marked W r.1 k ↔
    Marked W b k ∧ ¬(b.expectedSeq ≤ k ∧ k < r.1.expectedSeq)
  cleared : ∀ j, r.1.recvMarked j = true → b.recvMarked j = true
  waits : ¬Marked W r.1 r.1.expectedSeq
  taken : takenOf r.2 = (List.range (r.1.expectedSeq - b.expectedSeq)).map fun i =>
    (b.recvWindow ((b.expectedSeq + i) % W)).payload
  calls : r.2 = (takenOf r.2).map Call.tolayer5

/-- Nothing to pass up: the loop does not go round. -/
theorem passes_nothing (hm : ¬Marked W b b.expectedSeq) : Passes W b (b,[]) := by
  refine ⟨Nat.le_refl _,rfl,fun k hk hk' => ?_,fun k => ?_,fun _ => id,hm,?_,rfl⟩
  · exact absurd hk' (Nat.not_lt.mpr hk)
  · exact ⟨fun hk => ⟨hk,fun hc => Nat.not_lt.mpr hc.1 hc.2⟩,And.left⟩
  · simp

/-- `W` rounds clear every slot, so the loop ends by its own test. -/
theorem deliver_passes (fuel : Nat) (hdone : W ≤ b.expectedSeq + fuel)
    (hclear : ∀ k < b.expectedSeq, b.expectedSeq + fuel ≤ k + W →
      b.recvMarked (k % W) = false) (hfuel : fuel ≤ W) (hW : 0 < W) :
    Passes W b (deliver W fuel b) := by
  induction fuel generalizing b with
  | zero =>
    refine passes_nothing fun hm => ?_
    have hlast := hclear (b.expectedSeq - W) (by omega) (by omega)
    rw [slot_back (by omega)] at hlast
    rw [hm.1] at hlast
    cases hlast
  | succ fuel ih =>
    by_cases hm : Marked W b b.expectedSeq
    · have hrest := ih (b := pass W b) (by simp only [pass]; omega) (by
        intro k hk hkW
        simp only [pass] at hk hkW ⊢
        by_cases he : k % W = b.expectedSeq % W
        · rw [he,Function.update_self]
        · rw [Function.update_of_ne he]
          have hne : k ≠ b.expectedSeq := by
            rintro rfl
            exact he rfl
          exact hclear k (by omega) (by omega)) (by omega)
      have hle : b.expectedSeq + 1 ≤ (deliver W fuel (pass W b)).1.expectedSeq :=
        hrest.expected_le
      rw [deliver_of_marked hm]
      refine ⟨Nat.le_of_succ_le hle,hrest.recvWindow,fun k hk hk' => ?_,fun k => ?_,fun j hj => ?_,
        hrest.waits,?_,congrArg _ hrest.calls⟩
      · rcases Nat.lt_or_eq_of_le hk with hk | rfl
        · exact ((marked_pass hm k).mp (hrest.passed k hk hk')).1
        · exact hm
      · rw [hrest.marked,marked_pass hm]
        change (_ ∧ ¬(b.expectedSeq + 1 ≤ k ∧ _)) ↔
          _ ∧ ¬(_ ∧ k < (deliver W fuel (pass W b)).1.expectedSeq)
        constructor
        · rintro ⟨⟨hk,hne⟩,hout⟩
          exact ⟨hk,by omega⟩
        · rintro ⟨hk,hout⟩
          exact ⟨⟨hk,by omega⟩,by omega⟩
      · have hp := hrest.cleared j hj
        simp only [pass] at hp
        by_cases he : j = b.expectedSeq % W
        · rw [he,Function.update_self] at hp
          cases hp
        · rwa [Function.update_of_ne he] at hp
      · have hcount : (deliver W fuel (pass W b)).1.expectedSeq - b.expectedSeq =
            (deliver W fuel (pass W b)).1.expectedSeq - (pass W b).expectedSeq + 1 := by
          simp only [pass] at hle ⊢
          omega
        simp only [takenOf_tolayer5,hrest.taken,hcount,List.range_succ_eq_map,List.map_cons,
          List.map_map,Nat.add_zero]
        congr 1
        refine List.map_congr_left fun i _ => ?_
        simp only [pass,Function.comp,Nat.succ_eq_add_one,Nat.add_assoc,Nat.add_comm 1]
    · rw [deliver_of_not_marked hm]
      exact passes_nothing hm

/-- What the loop has done when it ends. -/
structure Delivers (W : Nat) (b : BVars) (given : List Msg) (n : Nat) (taken : List Payload)
    (r : BVars × List Call) : Prop where
  receiver : Receiver W r.1 given n (taken ++ takenOf r.2)
  expected_le : b.expectedSeq ≤ r.1.expectedSeq
  passed : ∀ k, b.expectedSeq ≤ k → k < r.1.expectedSeq → Marked W b k
  marked : ∀ k, Marked W r.1 k ↔
    Marked W b k ∧ ¬(b.expectedSeq ≤ k ∧ k < r.1.expectedSeq)
  calls : r.2 = (takenOf r.2).map Call.tolayer5

/-- The loop passes up the messages of what it finds in the slots. -/
theorem Passes.delivers {r : BVars × List Call} (h : Stock W b given n taken) (hW : 0 < W)
    (hn : n ≤ given.length) (hp : Passes W b r) : Delivers W b given n taken r := by
  have hle := hp.expected_le
  have hbn := h.expected_le
  have hrn : r.1.expectedSeq ≤ n := by
    rcases Nat.lt_or_eq_of_le hle with hlt | heq
    · have := (h.of_marked hW (hp.passed (r.1.expectedSeq - 1) (by omega) (by omega))).1
      omega
    · omega
  refine ⟨⟨⟨?_,hrn,fun j hj hm => ?_⟩,hp.waits⟩,hle,hp.passed,hp.marked,hp.calls⟩
  · obtain ⟨m,hm⟩ := Nat.exists_eq_add_of_le hle
    have hcount : b.expectedSeq + m - b.expectedSeq = m := by omega
    rw [h.taken_eq,hp.taken,hm,hcount,List.take_add,List.map_append]
    congr 1
    refine List.ext_getElem ?_ fun i hi _ => ?_
    · simp only [List.length_map,List.length_range,List.length_take,List.length_drop]
      omega
    · simp only [List.length_map,List.length_range] at hi
      have hk := (h.of_marked hW (hp.passed (b.expectedSeq + i) (by omega) (by omega))).2
      have hlt : b.expectedSeq + i < given.length := by omega
      simp [hk,sentPkt,hlt]
  · obtain ⟨k,hk,hkj,hw⟩ := h.slot j hj (hp.cleared j hm)
    exact ⟨k,hk,hkj,by rw [hp.recvWindow,hw]⟩

theorem deliver_delivers (h : Stock W b given n taken) (hW : 0 < W) (hn : n ≤ given.length) :
    Delivers W b given n taken (deliver W W b) :=
  (deliver_passes W (Nat.le_add_left _ _) (fun k hk hkW => by omega) (Nat.le_refl _) hW).delivers
    h hW hn

theorem Delivers.has {r : BVars × List Call} (h : Delivers W b given n taken r) (k : Nat) :
    Has W r.1 k ↔ Has W b k := by
  have hle := h.expected_le
  simp only [Has,h.marked]
  constructor
  · rintro (hk | ⟨hk,-⟩)
    · rcases Nat.lt_or_ge k b.expectedSeq with hlt | hge
      · exact Or.inl hlt
      · exact Or.inr (h.passed k hge hk)
    · exact Or.inr hk
  · rintro (hk | hk)
    · exact Or.inl (by omega)
    · by_cases hp : b.expectedSeq ≤ k ∧ k < r.1.expectedSeq
      · exact Or.inl hp.2
      · exact Or.inr ⟨hk,hp⟩

/-! Putting a packet into its slot. -/

theorem Stock.store (h : Stock W b given n taken) {k : Nat} (hk : k < n) :
    Stock W (store (k % W) (sentPkt given k) b) given n taken := by
  refine ⟨h.taken_eq,h.expected_le,fun j hj hm => ?_⟩
  simp only [Sr.store] at hm ⊢
  by_cases he : j = k % W
  · exact ⟨k,hk,he.symm,by rw [he,Function.update_self]⟩
  · rw [Function.update_of_ne he] at hm ⊢
    exact h.slot j hj hm

theorem marked_store_pkt {p : Pkt} {k : Nat} (hp : p.seqnum = k) (i : Nat) :
    Marked W (store (k % W) p b) i ↔ Marked W b i ∧ i % W ≠ k % W ∨ i = k := by
  by_cases he : i % W = k % W
  · simp only [Marked,store,he,Function.update_self,hp,true_and,not_true,and_false,false_or,ne_eq]
    exact ⟨fun h => (Int.ofNat.inj h).symm,fun h => congrArg _ h.symm⟩
  · have hne : i ≠ k := by
      rintro rfl
      exact he rfl
    simp [Marked,store,he,hne]

theorem marked_store (k i : Nat) : Marked W (store (k % W) (sentPkt given k) b) i ↔
    Marked W b i ∧ i % W ≠ k % W ∨ i = k := marked_store_pkt (sentPkt_seqnum given k) i

/-- A clean packet inside the window. -/
theorem bInput_of_window {p : Pkt} {k : Nat} (hc : checkCorrupted p = false)
    (hs : p.seqnum = k) (hwin : inWindow W k b.expectedSeq) :
    (Marked W b k → bInput W p b = deliver W W b) ∧
    (¬Marked W b k → bInput W p b =
      ((deliver W W (store (k % W) p b)).1,.tolayer3 .B (ackPkt k) ::
        (deliver W W (store (k % W) p b)).2)) := by
  have hslot : ((k : Int).tmod W).toNat = k % W := by
    rw [← Int.ofNat_tmod]
    exact Int.toNat_natCast _
  rw [bInput,hs]
  simp only [hc,Bool.false_eq_true,if_false,if_pos hwin,hslot]
  constructor
  · intro hm
    refine if_neg ?_
    rw [hm.1,hm.2]
    simp
  · intro hm
    refine if_pos ?_
    by_contra hcon
    simp only [ne_eq,not_or,Bool.not_eq_false,Decidable.not_not] at hcon
    exact hm hcon

/-- What `B_input` does with an intact packet `k`. -/
structure Accepts (W : Nat) (b : BVars) (given : List Msg) (n : Nat) (taken : List Payload)
    (k : Nat) (r : BVars × List Call) : Prop where
  receiver : Receiver W r.1 given n (taken ++ takenOf r.2)
  expected_le : b.expectedSeq ≤ r.1.expectedSeq
  has : ∀ i, Has W r.1 i ↔ Has W b i ∨ i = k
  marked : ∀ i, Marked W r.1 i ↔ (Marked W b i ∧ i % W ≠ k % W ∨ i = k) ∧
    ¬(b.expectedSeq ≤ i ∧ i < r.1.expectedSeq)
  calls : r.2 = .tolayer3 .B (ackPkt k) :: (takenOf r.2).map Call.tolayer5

theorem Accepts.outA {k : Nat} {r : BVars × List Call}
    (h : Accepts W b given n taken k r) : outOf .A r.2 = [] := by
  rw [h.calls]
  simp [outOf,List.filterMap_map]

theorem Accepts.outB {k : Nat} {r : BVars × List Call}
    (h : Accepts W b given n taken k r) : outOf .B r.2 = [ackPkt k] := by
  rw [h.calls]
  simp [outOf,List.filterMap_map]

theorem Accepts.timers {k : Nat} {r : BVars × List Call}
    (h : Accepts W b given n taken k r) (ts : List Int) : timersAfter ts r.2 = ts := by
  rw [h.calls]
  change timersAfter ts ((takenOf r.2).map Call.tolayer5) = ts
  induction takenOf r.2 with
  | nil => rfl
  | cons d ds ih => exact ih

/-- An intact packet that no packet B has is a whole window ahead of: B ignores it when
its slot still holds it, and otherwise stores it and acknowledges. -/
theorem bInput_spec (h : Receiver W b given n taken) (hW : 0 < W) (hn : n ≤ given.length)
    {k : Nat} (hk : k < n) (hlo : b.expectedSeq ≤ k + W) (hhi : k < b.expectedSeq + W)
    (hbehind : ∀ i, Has W b i → i < k + W) :
    Marked W b k ∧ bInput W (sentPkt given k) b = (b,[]) ∨
    ¬Marked W b k ∧ Accepts W b given n taken k (bInput W (sentPkt given k) b) := by
  have hwin : inWindow W (k : Int) b.expectedSeq := by
    unfold inWindow
    omega
  obtain ⟨hdup,hfresh⟩ := bInput_of_window (b := b) (p := sentPkt given k)
    (checkCorrupted_dataPkt _ _) (sentPkt_seqnum given k) hwin
  by_cases hm : Marked W b k
  · refine Or.inl ⟨hm,?_⟩
    rw [hdup hm]
    exact deliver_of_not_marked h.waits W
  · refine Or.inr ⟨hm,?_⟩
    have hr := hfresh hm
    have hd := deliver_delivers (h.toStock.store hk) hW hn
    have hstore : ∀ i, Has W (store (k % W) (sentPkt given k) b) i ↔ Has W b i ∨ i = k := by
      intro i
      simp only [Has,marked_store]
      constructor
      · rintro (hi | ⟨hi,-⟩ | rfl)
        · exact Or.inl (Or.inl hi)
        · exact Or.inl (Or.inr hi)
        · exact Or.inr rfl
      · rintro ((hi | hi) | rfl)
        · exact Or.inl hi
        · by_cases he : i % W = k % W
          · -- what loses its slot to `k` is older than `k` and was passed up
            have hlt := hbehind i (Or.inr hi)
            by_cases hik : i = k
            · exact Or.inr (Or.inr hik)
            · left
              simp only [store]
              by_contra hge
              exact hik (slot_inj he hlt (by omega))
          · exact Or.inr (Or.inl ⟨hi,he⟩)
        · exact Or.inr (Or.inr rfl)
    rw [hr]
    refine ⟨?_,hd.expected_le,fun i => (hd.has i).trans (hstore i),fun i => ?_,?_⟩
    · simpa using hd.receiver
    · simp only [hd.marked,marked_store]
      rfl
    · exact congrArg _ hd.calls

/-- A corrupted packet: thrown away, or, when its checksum happens to fit, answered
with an acknowledgement of the number 999999. -/
theorem bInput_foul {p : Pkt} (hW : W ≤ 8) (he : b.expectedSeq < 999000)
    (hs : p.seqnum = 999999) :
    bInput W p b = (b,[]) ∨ bInput W p b = (b,[.tolayer3 .B (ackPkt 999999)]) := by
  have hout : ¬inWindow W 999999 b.expectedSeq := by
    unfold inWindow
    omega
  by_cases hc : checkCorrupted p = true
  · exact Or.inl (by simp [bInput,hc])
  · exact Or.inr (by simp [bInput,hc,hs,hout])

theorem bInput_of_corrupted {p : Pkt} (hc : checkCorrupted p = true) :
    bInput W p b = (b,[]) := by simp [bInput,hc]

end Receiver

end NetworkLab.Sr
