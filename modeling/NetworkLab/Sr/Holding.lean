import NetworkLab.Sr.Receiver
import Mathlib.Logic.Relation
set_option autoImplicit false

/-! The receiver alone, under intact packets in any order: what it has acknowledged it has
passed up or holds, until a late packet takes the slot of one that waits. -/

namespace NetworkLab.Sr
open Rdt Slots Relation

/-- B with the packets it was given, what went up to layer 5, and the numbers it has
acknowledged. -/
structure Recv where
  vars : BVars
  received : List Pkt
  taken : List Payload
  acked : List Int

namespace Recv

def start : Recv := ⟨bInit,[],[],[]⟩

/-- `B_input` has returned. -/
def receive (W : Nat) (s : Recv) (p : Pkt) : Recv :=
  let r := bInput W p s.vars
  { vars := r.1
    received := s.received ++ [p]
    taken := s.taken ++ takenOf r.2
    acked := s.acked ++ (outOf .B r.2).map Pkt.acknum }

/-- An intact packet of a sender that stays within its window. -/
def Arrives (W : Nat) (s : Recv) (p : Pkt) : Prop :=
  checkCorrupted p = false ∧ 0 ≤ p.seqnum ∧ p.seqnum < s.vars.expectedSeq + W

/-- The packet with number `k` that came first. -/
def first (s : Recv) (k : Nat) : Option Pkt := s.received.find? fun p => p.seqnum = k

end Recv

/-- What went up are the packets in order, each once; and what was acknowledged went up or
is held in its slot. -/
structure KeepsAcked (W : Nat) (s : Recv) : Prop where
  order : s.taken.map some =
    (List.range s.vars.expectedSeq).map fun k => (s.first k).map Pkt.payload
  kept : ∀ q ∈ s.acked, ∃ k : Nat, q = k ∧ (k < s.vars.expectedSeq ∨
    s.vars.recvMarked (k % W) = true ∧ (s.vars.recvWindow (k % W)).seqnum = k ∧
      (s.first k).map Pkt.payload = some (s.vars.recvWindow (k % W)).payload)

/-- A packet of the old half of the window comes once more, while its slot holds the packet
one window ahead of it. -/
def Evicts (W : Nat) (b : BVars) (p : Pkt) : Prop :=
  ∃ k : Nat, p.seqnum = k ∧ k < b.expectedSeq ∧ b.expectedSeq ≤ k + W ∧ Marked W b (k + W)

/-- B between two packets, as long as nothing has been evicted. -/
structure Holding (W : Nat) (s : Recv) : Prop where
  order : s.taken.map some =
    (List.range s.vars.expectedSeq).map fun k => (s.first k).map Pkt.payload
  held : ∀ k, Marked W s.vars k → k < s.vars.expectedSeq + W ∧
    (s.vars.expectedSeq ≤ k →
      s.first k = some (s.vars.recvWindow (k % W)) ∧ (k : Int) ∈ s.acked)
  received : ∀ p ∈ s.received, ∃ k : Nat, p.seqnum = k ∧ Has W s.vars k
  acked : ∀ q ∈ s.acked, ∃ k : Nat, q = k ∧ Has W s.vars k
  waits : ¬Marked W s.vars s.vars.expectedSeq

section Holding
variable {W : Nat} {s : Recv} {p : Pkt}

theorem holding_start (W : Nat) : Holding W Recv.start := by
  refine ⟨rfl,fun k hk => ?_,fun p hp => (nomatch hp),fun q hq => (nomatch hq),fun hm => ?_⟩
  · cases hk.1
  · cases hm.1

theorem Holding.keepsAcked (h : Holding W s) : KeepsAcked W s := by
  refine ⟨h.order,fun q hq => ?_⟩
  obtain ⟨k,rfl,hlt | hm⟩ := h.acked q hq
  · exact ⟨k,rfl,Or.inl hlt⟩
  · rcases Nat.lt_or_ge k s.vars.expectedSeq with hlt | hge
    · exact ⟨k,rfl,Or.inl hlt⟩
    · exact ⟨k,rfl,Or.inr ⟨hm.1,hm.2,by rw [((h.held k hm).2 hge).1]; rfl⟩⟩

theorem first_receive {k : Nat} {q : Pkt} (h : s.first k = some q) :
    (s.receive W p).first k = some q := by
  change (s.received ++ [p]).find? _ = some q
  rw [List.find?_append,← Recv.first,h]
  rfl

/-- A number that did not come before. -/
theorem first_receive_new {k : Nat} (hp : p.seqnum = k) (hnew : ∀ q ∈ s.received, q.seqnum ≠ k) :
    (s.receive W p).first k = some p := by
  have hnone : s.received.find? (fun q => decide (q.seqnum = (k : Int))) = none :=
    List.find?_eq_none.mpr fun q hq => by simpa using hnew q hq
  change (s.received ++ [p]).find? _ = some p
  rw [List.find?_append,hnone]
  simp [hp]

/-- An old number, a packet that is held, and one that goes into its slot. -/
theorem receive_cases {k : Nat} (h : Holding W s) (hW : 0 < W) (ha : s.Arrives W p)
    (hk : p.seqnum = k) :
    (k + W < s.vars.expectedSeq ∧ bInput W p s.vars = (s.vars,[.tolayer3 .B (ackPkt k)])) ∨
    (Marked W s.vars k ∧ bInput W p s.vars = (s.vars,[])) ∨
    (s.vars.expectedSeq ≤ k + W ∧ ¬Marked W s.vars k ∧
      ∃ r, Passes W (store (k % W) p s.vars) r ∧
        bInput W p s.vars = (r.1,.tolayer3 .B (ackPkt k) :: r.2)) := by
  obtain ⟨hc,-,hhi⟩ := ha
  by_cases hold : k + W < s.vars.expectedSeq
  · have hout : ¬inWindow W (k : Int) s.vars.expectedSeq := by
      unfold inWindow
      omega
    refine Or.inl ⟨hold,?_⟩
    rw [bInput,if_neg (by simp [hc]),hk,if_neg hout]
  · have hwin : inWindow W (k : Int) s.vars.expectedSeq := by
      unfold inWindow
      omega
    obtain ⟨hdup,hfresh⟩ := bInput_of_window hc hk hwin
    by_cases hm : Marked W s.vars k
    · exact Or.inr (Or.inl ⟨hm,(hdup hm).trans (deliver_of_not_marked h.waits W)⟩)
    · refine Or.inr (Or.inr ⟨by omega,hm,_,?_,hfresh hm⟩)
      exact deliver_passes W (Nat.le_add_left _ _) (fun i hi hiW => by omega) (Nat.le_refl _) hW

/-- What is still to come keeps its slot when nothing is evicted. -/
theorem Holding.slot_ne {k i : Nat} (h : Holding W s) (ha : s.Arrives W p) (hk : p.seqnum = k)
    (hlo : s.vars.expectedSeq ≤ k + W) (hm : ¬Marked W s.vars k) (hno : ¬Evicts W s.vars p)
    (hi : Marked W s.vars i) (hei : s.vars.expectedSeq ≤ i) : i % W ≠ k % W := by
  intro he
  have hiW := (h.held i hi).1
  have hhi := ha.2.2
  rcases Nat.lt_or_ge k s.vars.expectedSeq with hlt | hge
  · have hik : i = k + W := by
      refine slot_inj (he.trans (Nat.add_mod_right k W).symm) ?_ ?_
      · omega
      · omega
    exact hno ⟨k,hk,hlt,hlo,hik ▸ hi⟩
  · have hik : i = k := slot_inj he (by omega) (by omega)
    exact hm (hik ▸ hi)

/-- What went up came first before this packet. -/
theorem Holding.order_receive (h : Holding W s) (p : Pkt) : s.taken.map some =
    (List.range s.vars.expectedSeq).map fun k =>
      ((s.receive W p).first k).map Pkt.payload := by
  refine h.order.trans (List.map_congr_left fun i hi => ?_)
  have hsome : ((s.first i).map Pkt.payload).isSome := by
    have hmem : (s.first i).map Pkt.payload ∈ s.taken.map some := by
      rw [h.order]
      exact List.mem_map_of_mem hi
    obtain ⟨d,-,hd⟩ := List.mem_map.mp hmem
    rw [← hd]
    rfl
  obtain ⟨q,hq⟩ := Option.isSome_iff_exists.mp (Option.isSome_map.symm.trans hsome)
  rw [hq,first_receive hq]

/-- B has that packet: its variables and what went up stay as they are. -/
theorem Holding.repeated {k : Nat} {cs : List Call} (h : Holding W s) (hk : p.seqnum = k)
    (hhas : Has W s.vars k) (hr : bInput W p s.vars = (s.vars,cs))
    (hcs : cs = [] ∨ cs = [.tolayer3 .B (ackPkt k)]) : Holding W (s.receive W p) := by
  have hvars : (s.receive W p).vars = s.vars := by simp only [Recv.receive,hr]
  have htaken : (s.receive W p).taken = s.taken := by
    rcases hcs with rfl | rfl <;> simp [Recv.receive,hr]
  have hacked : (s.receive W p).acked = s.acked ∨
      (s.receive W p).acked = s.acked ++ [(k : Int)] := by
    rcases hcs with rfl | rfl <;> simp [Recv.receive,hr,outOf]
  refine ⟨?_,fun i hi => ?_,fun q hq => ?_,fun q hq => ?_,?_⟩
  · rw [hvars,htaken]
    exact h.order_receive p
  · rw [hvars] at hi ⊢
    refine ⟨(h.held i hi).1,fun hei => ?_⟩
    obtain ⟨hfirst,hmem⟩ := (h.held i hi).2 hei
    refine ⟨first_receive hfirst,?_⟩
    rcases hacked with he | he <;> simp [he,hmem]
  · rw [hvars]
    rcases List.mem_append.mp hq with hq | hq
    · exact h.received q hq
    · rw [List.mem_singleton.mp hq]
      exact ⟨k,hk,hhas⟩
  · rw [hvars]
    rcases hacked with he | he
    · exact h.acked q (he ▸ hq)
    · rcases List.mem_append.mp (he ▸ hq) with hq | hq
      · exact h.acked q hq
      · rw [List.mem_singleton.mp hq]
        exact ⟨k,rfl,hhas⟩
  · rw [hvars]
    exact h.waits

section Stored
variable {k : Nat} {r : BVars × List Call}

/-- What is in the slots when the packet has been put into its own. -/
theorem Holding.held_stored (h : Holding W s) (ha : s.Arrives W p) (hk : p.seqnum = k)
    (hlo : s.vars.expectedSeq ≤ k + W) (hm : ¬Marked W s.vars k) :
    ∀ i, Marked W (store (k % W) p s.vars) i → i < s.vars.expectedSeq + W ∧
      (s.vars.expectedSeq ≤ i →
        (s.receive W p).first i = some ((store (k % W) p s.vars).recvWindow (i % W)) ∧
          ((i : Int) ∈ s.acked ∨ i = k)) := by
  have hkW := ha.2.2
  intro i hi
  rcases (marked_store_pkt hk i).mp hi with ⟨hi,hne⟩ | rfl
  · refine ⟨(h.held i hi).1,fun hei => ?_⟩
    obtain ⟨hfirst,hmem⟩ := (h.held i hi).2 hei
    refine ⟨?_,Or.inl hmem⟩
    rw [first_receive hfirst]
    exact congrArg some (Function.update_of_ne hne _ _).symm
  · refine ⟨by omega,fun hei => ⟨?_,Or.inr rfl⟩⟩
    rw [first_receive_new hk fun q hq hqi => ?_]
    · simp [store]
    · obtain ⟨j,hj,hhas⟩ := h.received q hq
      obtain rfl : j = i := by omega
      rcases hhas with hlt | hmj
      · omega
      · exact hm hmj

/-- Nothing that B had is lost, and it has the packet too. -/
theorem Holding.has_stored (h : Holding W s) (ha : s.Arrives W p) (hk : p.seqnum = k)
    (hlo : s.vars.expectedSeq ≤ k + W) (hm : ¬Marked W s.vars k) (hno : ¬Evicts W s.vars p)
    (hp : Passes W (store (k % W) p s.vars) r) {i : Nat} (hi : Has W s.vars i ∨ i = k) :
    Has W r.1 i := by
  have hle : s.vars.expectedSeq ≤ r.1.expectedSeq := hp.expected_le
  by_cases hpassed : i < r.1.expectedSeq
  · exact Or.inl hpassed
  · refine Or.inr ((hp.marked i).mpr ⟨(marked_store_pkt hk i).mpr ?_,fun hc => hpassed hc.2⟩)
    rcases hi with (hlt | hmi) | rfl
    · omega
    · exact Or.inl ⟨hmi,h.slot_ne ha hk hlo hm hno hmi (by omega)⟩
    · exact Or.inr rfl

/-- What the loop passes up came first under its numbers. -/
theorem Holding.order_stored (h : Holding W s) (ha : s.Arrives W p) (hk : p.seqnum = k)
    (hlo : s.vars.expectedSeq ≤ k + W) (hm : ¬Marked W s.vars k)
    (hp : Passes W (store (k % W) p s.vars) r) :
    (s.taken ++ takenOf r.2).map some =
      (List.range r.1.expectedSeq).map fun i => ((s.receive W p).first i).map Pkt.payload := by
  have hle : s.vars.expectedSeq ≤ r.1.expectedSeq := hp.expected_le
  obtain ⟨m,hm'⟩ := Nat.exists_eq_add_of_le hle
  have hcount : s.vars.expectedSeq + m - s.vars.expectedSeq = m := by omega
  rw [hm',List.range_add,List.map_append,List.map_append,h.order_receive p,hp.taken,hm']
  refine congrArg _ ?_
  change List.map some (List.map _ (List.range (s.vars.expectedSeq + m - s.vars.expectedSeq))) = _
  rw [hcount,List.map_map,List.map_map]
  refine List.map_congr_left fun i hi => ?_
  have hi' := List.mem_range.mp hi
  have hmark := hp.passed (s.vars.expectedSeq + i) (Nat.le_add_right _ _) (by omega)
  have hfirst := ((h.held_stored ha hk hlo hm _ hmark).2 (Nat.le_add_right _ _)).1
  simp only [Function.comp]
  rw [hfirst]
  rfl

/-- The packet goes into its slot, and what is complete goes up. -/
theorem Holding.stored (h : Holding W s) (ha : s.Arrives W p) (hk : p.seqnum = k)
    (hlo : s.vars.expectedSeq ≤ k + W) (hm : ¬Marked W s.vars k) (hno : ¬Evicts W s.vars p)
    (hp : Passes W (store (k % W) p s.vars) r)
    (hr : bInput W p s.vars = (r.1,.tolayer3 .B (ackPkt k) :: r.2)) :
    Holding W (s.receive W p) := by
  have hvars : (s.receive W p).vars = r.1 := by simp only [Recv.receive,hr]
  have htaken : (s.receive W p).taken = s.taken ++ takenOf r.2 := by
    simp only [Recv.receive,hr,takenOf_tolayer3]
  have hacked : (s.receive W p).acked = s.acked ++ [(k : Int)] := by
    have hnone : outOf .B r.2 = [] := by
      rw [hp.calls]
      simp [outOf,List.filterMap_map]
    simp [Recv.receive,hr,hnone]
  have hle : s.vars.expectedSeq ≤ r.1.expectedSeq := hp.expected_le
  have hhas : ∀ i, Has W s.vars i ∨ i = k → Has W r.1 i :=
    fun i hi => h.has_stored ha hk hlo hm hno hp hi
  refine ⟨?_,fun i hi => ?_,?_,?_,?_⟩
  · rw [htaken,hvars]
    exact h.order_stored ha hk hlo hm hp
  · rw [hvars] at hi ⊢
    obtain ⟨hmark,-⟩ := (hp.marked i).mp hi
    obtain ⟨hlt,hrest⟩ := h.held_stored ha hk hlo hm i hmark
    rw [hp.recvWindow,hacked]
    refine ⟨by omega,fun hei => ?_⟩
    obtain ⟨hfirst,hmem⟩ := hrest (hle.trans hei)
    exact ⟨hfirst,by simpa using hmem⟩
  · rw [hvars]
    refine List.forall_mem_append.mpr ⟨fun q hq => ?_,?_⟩
    · obtain ⟨j,hj,hhj⟩ := h.received q hq
      exact ⟨j,hj,hhas j (Or.inl hhj)⟩
    · exact List.forall_mem_singleton.mpr ⟨k,hk,hhas k (Or.inr rfl)⟩
  · rw [hvars,hacked]
    refine List.forall_mem_append.mpr ⟨fun q hq => ?_,?_⟩
    · obtain ⟨j,hj,hhj⟩ := h.acked q hq
      exact ⟨j,hj,hhas j (Or.inl hhj)⟩
    · exact List.forall_mem_singleton.mpr ⟨k,rfl,hhas k (Or.inr rfl)⟩
  · rw [hvars]
    exact hp.waits

end Stored

/-- One packet that evicts nothing. -/
theorem Holding.receive (h : Holding W s) (hW : 0 < W) (ha : s.Arrives W p)
    (hno : ¬Evicts W s.vars p) : Holding W (s.receive W p) := by
  obtain ⟨k,hk⟩ := Int.eq_ofNat_of_zero_le ha.2.1
  rcases receive_cases h hW ha hk with ⟨hold,hr⟩ | ⟨hm,hr⟩ | ⟨hlo,hm,r,hp,hr⟩
  · exact h.repeated hk (Or.inl (by omega)) hr (Or.inr rfl)
  · exact h.repeated hk (Or.inr hm) hr (Or.inl rfl)
  · exact h.stored ha hk hlo hm hno hp hr

/-- The evicted packet was acknowledged, and B has it no more. -/
theorem Holding.receive_of_evicts (h : Holding W s) (hW : 0 < W) (ha : s.Arrives W p)
    (hev : Evicts W s.vars p) : ¬KeepsAcked W (s.receive W p) := by
  obtain ⟨k,hk,hlt,hlo,hm⟩ := hev
  have hslot : (k + W) % W = k % W := Nat.add_mod_right k W
  have hnk : ¬Marked W s.vars k := by
    intro hmk
    have := marked_slot hmk hm hslot.symm
    omega
  rcases receive_cases h hW ha hk with ⟨hold,-⟩ | ⟨hmk,-⟩ | ⟨-,-,r,hp,hr⟩
  · omega
  · exact absurd hmk hnk
  · have hvars : (s.receive W p).vars = r.1 := by simp only [Recv.receive,hr]
    intro hkeep
    have hacked : ((k + W : Nat) : Int) ∈ (s.receive W p).acked :=
      List.mem_append_left _ ((h.held _ hm).2 hlo).2
    -- the loop stops at once: what B waits for is not in its slots
    have hstop : r.1.expectedSeq = s.vars.expectedSeq := by
      by_contra hne
      have hle : s.vars.expectedSeq ≤ r.1.expectedSeq := hp.expected_le
      rcases (marked_store_pkt hk _).mp
        (hp.passed s.vars.expectedSeq (Nat.le_refl _) (by omega)) with ⟨hmk,-⟩ | he
      · exact h.waits hmk
      · omega
    obtain ⟨i,hi,hcase⟩ := hkeep.kept _ hacked
    obtain rfl : k + W = i := by omega
    rw [hvars,hstop] at hcase
    rcases hcase with hlt' | ⟨hmark,hseq,-⟩
    · omega
    · rcases (marked_store_pkt hk _).mp ((hp.marked _).mp ⟨hmark,hseq⟩).1 with ⟨-,hne⟩ | he
      · exact hne hslot
      · omega

/-- A window of one packet has nothing to evict. -/
theorem Holding.not_evicts_one (h : Holding 1 s) (p : Pkt) : ¬Evicts 1 s.vars p := by
  rintro ⟨k,-,hlt,hlo,hm⟩
  have hk : k + 1 = s.vars.expectedSeq := by omega
  exact h.waits (hk ▸ hm)

/-- A run in which no packet evicts another. -/
theorem holding_of_run (hW : 0 < W)
    (hr : ReflTransGen (fun s t => ∃ p, s.Arrives W p ∧ ¬Evicts W s.vars p ∧ t = s.receive W p)
      Recv.start s) : Holding W s := by
  induction hr with
  | refl => exact holding_start W
  | tail _ hstep ih =>
    obtain ⟨p,ha,hno,rfl⟩ := hstep
    exact ih.receive hW ha hno

/-- B keeps what it acknowledged, up to the packet that takes the slot of one that waits. -/
theorem keepsAcked_iff {W : Nat} {s : Recv} (hW : 0 < W)
    (hr : ReflTransGen (fun s t => ∃ p, s.Arrives W p ∧ ¬Evicts W s.vars p ∧ t = s.receive W p)
      Recv.start s) :
    KeepsAcked W s ∧
      ∀ p, s.Arrives W p → (KeepsAcked W (s.receive W p) ↔ ¬Evicts W s.vars p) := by
  have h := holding_of_run hW hr
  refine ⟨h.keepsAcked,fun p ha => ⟨fun hkeep hev => ?_,fun hno => ?_⟩⟩
  · exact h.receive_of_evicts hW ha hev hkeep
  · exact (h.receive hW ha hno).keepsAcked

/-- Packet 1 waits in its slot for packet 0. -/
theorem keepsAcked_iff_waiting :
    KeepsAcked 2 (Recv.start.receive 2 (dataPkt 1 default)) ∧
      (KeepsAcked 2 ((Recv.start.receive 2 (dataPkt 1 default)).receive 2 (dataPkt 0 default)) ↔
        ¬Evicts 2 (Recv.start.receive 2 (dataPkt 1 default)).vars (dataPkt 0 default)) := by
  have harr : Recv.start.Arrives 2 (dataPkt 1 default) := by
    refine ⟨checkCorrupted_dataPkt _ _,?_,?_⟩ <;> decide
  have hno : ¬Evicts 2 Recv.start.vars (dataPkt 1 default) := by
    rintro ⟨k,-,hlt,-⟩
    exact Nat.not_lt_zero k hlt
  have h := keepsAcked_iff (W := 2) Nat.two_pos (ReflTransGen.single ⟨_,harr,hno,rfl⟩)
  refine ⟨h.1,h.2 _ ⟨checkCorrupted_dataPkt _ _,?_,?_⟩⟩
  · decide
  · exact Int.add_pos_of_nonneg_of_pos (Int.natCast_nonneg _) (by decide)

/-- Window 2: packet 0 goes up, packet 2 is acknowledged and waits, and then packet 0 comes
once more. -/
theorem not_keepsAcked_always : ¬∀ (W : Nat) (s : Recv), 1 ≤ W → W ≤ 8 →
    ReflTransGen (fun s t => ∃ p, s.Arrives W p ∧ t = s.receive W p) Recv.start s →
      KeepsAcked W s := by
  intro h
  let p₀ : Pkt := dataPkt 0 default
  let p₂ : Pkt := dataPkt 2 default
  have h₁ : Recv.start.Arrives 2 p₀ := ⟨checkCorrupted_dataPkt _ _,by decide,by decide⟩
  have h₂ : (Recv.start.receive 2 p₀).Arrives 2 p₂ :=
    ⟨checkCorrupted_dataPkt _ _,by decide,by decide +kernel⟩
  have h₃ : ((Recv.start.receive 2 p₀).receive 2 p₂).Arrives 2 p₀ :=
    ⟨checkCorrupted_dataPkt _ _,by decide,by decide +kernel⟩
  have hkeep := h 2 _ (by decide) (by decide)
    (((ReflTransGen.single ⟨p₀,h₁,rfl⟩).tail ⟨p₂,h₂,rfl⟩).tail ⟨p₀,h₃,rfl⟩)
  obtain ⟨k,hk,hcase⟩ := hkeep.kept 2 (by decide +kernel)
  obtain rfl : k = 2 := by omega
  revert hcase
  decide +kernel

end Holding

end NetworkLab.Sr
