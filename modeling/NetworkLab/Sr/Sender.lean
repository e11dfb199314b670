import NetworkLab.Sr.Protocol
import NetworkLab.Lib.Slots
set_option autoImplicit false

/-! The sender: its window of packets, its queue of messages and its timers. -/

namespace NetworkLab.Sr
open Rdt Slots

/-- Packet `k` as A first sends it. -/
def sentPkt (given : List Msg) (k : Nat) : Pkt := dataPkt k (given.getD k default).data

@[simp] theorem sentPkt_seqnum (given : List Msg) (k : Nat) : (sentPkt given k).seqnum = k := rfl

@[simp] theorem sentPkt_acknum (given : List Msg) (k : Nat) : (sentPkt given k).acknum = 0 := rfl

theorem sentPkt_append {given : List Msg} {k : Nat} (hk : k < given.length) (m : Msg) :
    sentPkt (given ++ [m]) k = sentPkt given k := by
  simp [sentPkt,List.getElem?_append_left hk]

/-- Packet `k` is in the window and waits for its acknowledgement. -/
def Unacked (W : Nat) (v : AVars) (k : Nat) : Prop :=
  v.base ≤ k ∧ k < v.nextseqnum ∧ (v.winbuf (k % W)).acknum = 0

/-- Slot `k % W` holds packet `k` of the window, unchanged or marked as acknowledged. -/
structure Ring (W : Nat) (v : AVars) (given : List Msg) : Prop where
  base_le : v.base ≤ v.nextseqnum
  next_le : v.nextseqnum ≤ v.base + W
  front : v.winfront = v.base % W
  rear : v.winrear = v.nextseqnum % W
  pktnum : v.base + v.pktnum = v.nextseqnum
  slot : ∀ k, v.base ≤ k → k < v.nextseqnum → v.winbuf (k % W) = sentPkt given k ∨
    v.winbuf (k % W) = { sentPkt given k with acknum := 1 }

/-- What layer 5 has given is what has been sent and, behind it, the queue. -/
structure Queue (v : AVars) (given : List Msg) : Prop where
  count : v.nextseqnum + v.msgNum = given.length
  buffered : Buffered v.buffer maxbufsize v.buffront v.bufrear (given.drop v.nextseqnum)

/-- One timer runs for each packet that waits, and no other. -/
structure Timed (W : Nat) (v : AVars) (timers : List Int) : Prop where
  nodup : timers.Nodup
  mem : ∀ q, q ∈ timers ↔ ∃ k : Nat, q = k ∧ Unacked W v k

section Ring
variable {W : Nat} {v : AVars} {given : List Msg}

theorem Ring.seqnum (h : Ring W v given) {k : Nat} (hb : v.base ≤ k) (hk : k < v.nextseqnum) :
    (v.winbuf (k % W)).seqnum = k := by
  rcases h.slot k hb hk with hs | hs
  · rw [hs,sentPkt_seqnum]
  · rw [hs]
    rfl

theorem Ring.of_unacked (h : Ring W v given) {k : Nat} (hk : Unacked W v k) :
    v.winbuf (k % W) = sentPkt given k := by
  rcases h.slot k hk.1 hk.2.1 with hs | hs
  · exact hs
  · have := hk.2.2
    rw [hs] at this
    exact absurd this Int.one_ne_zero

theorem Ring.of_acked (h : Ring W v given) {k : Nat} (hb : v.base ≤ k) (hk : k < v.nextseqnum)
    (hu : ¬Unacked W v k) : v.winbuf (k % W) = { sentPkt given k with acknum := 1 } := by
  rcases h.slot k hb hk with hs | hs
  · exact absurd ⟨hb,hk,by rw [hs,sentPkt_acknum]⟩ hu
  · exact hs

theorem Ring.acked (h : Ring W v given) {k : Nat} (hb : v.base ≤ k) (hk : k < v.nextseqnum)
    (hu : ¬Unacked W v k) : (v.winbuf (k % W)).acknum = 1 := by rw [h.of_acked hb hk hu]

theorem Ring.grow (h : Ring W v given) (hn : v.nextseqnum ≤ given.length) (m : Msg) :
    Ring W v (given ++ [m]) := by
  refine ⟨h.base_le,h.next_le,h.front,h.rear,h.pktnum,fun k hb hk => ?_⟩
  rw [sentPkt_append (Nat.lt_of_lt_of_le hk hn)]
  exact h.slot k hb hk

/-- Two packets of the window live in different slots. -/
theorem Ring.slot_inj (h : Ring W v given) {i k : Nat} (hi : v.base ≤ i)
    (hin : i < v.nextseqnum) (hk : v.base ≤ k) (hkn : k < v.nextseqnum)
    (he : i % W = k % W) : i = k := by
  have := h.next_le
  exact Slots.slot_inj he (by omega) (by omega)

/-! Sending one packet. -/

theorem Ring.sendPacket (h : Ring W v given) (hlt : v.nextseqnum < v.base + W) {m : Msg}
    (hm : given.getD v.nextseqnum default = m) : Ring W (sendPacket W m v).1 given := by
  have hb := h.base_le
  have hp := h.pktnum
  refine ⟨?_,?_,h.front,?_,?_,fun k hbk hk => ?_⟩
  · simp only [Sr.sendPacket]
    omega
  · simp only [Sr.sendPacket]
    omega
  · simp only [Sr.sendPacket,h.rear]
    exact slot_succ _ _
  · simp only [Sr.sendPacket]
    omega
  · simp only [Sr.sendPacket] at hbk hk ⊢
    rw [h.rear]
    rcases Nat.lt_or_eq_of_le (Nat.le_of_lt_succ hk) with hk | rfl
    · have hne : k % W ≠ v.nextseqnum % W := slot_ne hk (by omega)
      rw [Function.update_of_ne hne]
      exact h.slot k hbk hk
    · left
      rw [Function.update_self,sentPkt,hm]
      rfl

theorem unacked_sendPacket (h : Ring W v given) (hlt : v.nextseqnum < v.base + W) {m : Msg}
    (k : Nat) : Unacked W (sendPacket W m v).1 k ↔ Unacked W v k ∨ k = v.nextseqnum := by
  have hb := h.base_le
  simp only [Unacked,sendPacket,h.rear]
  rcases Nat.lt_trichotomy k v.nextseqnum with hk | rfl | hk
  · by_cases hbk : v.base ≤ k
    · rw [Function.update_of_ne (slot_ne hk (by omega))]
      omega
    · omega
  · simp [hb]
  · omega

theorem Timed.sendPacket {timers : List Int} (ht : Timed W v timers) (h : Ring W v given)
    (hlt : v.nextseqnum < v.base + W) {m : Msg} :
    Timed W (sendPacket W m v).1 (timers ++ [(v.nextseqnum : Int)]) := by
  constructor
  · refine List.nodup_append.mpr ⟨ht.nodup,by simp,fun q hq r hr => ?_⟩
    obtain ⟨k,rfl,hu⟩ := (ht.mem _).mp hq
    have := hu.2.1
    rw [List.mem_singleton.mp hr]
    omega
  · intro q
    rw [List.mem_append,List.mem_singleton,ht.mem]
    constructor
    · rintro (⟨k,rfl,hu⟩ | rfl)
      · exact ⟨k,rfl,(unacked_sendPacket h hlt k).mpr (Or.inl hu)⟩
      · exact ⟨_,rfl,(unacked_sendPacket h hlt _).mpr (Or.inr rfl)⟩
    · rintro ⟨k,rfl,hu⟩
      rcases (unacked_sendPacket h hlt k).mp hu with hu | rfl
      · exact Or.inl ⟨k,rfl,hu⟩
      · exact Or.inr rfl

/-! The search for a slot. -/

theorem findUnacked_of_unacked (h : Ring W v given) {k : Nat} (hk : Unacked W v k) :
    findUnacked W k v = some (k % W) := by
  have hp := h.pktnum
  have hmem : k % W ∈ (List.range v.pktnum).map fun i => (v.winfront + i) % W := by
    refine List.mem_map.mpr ⟨k - v.base,List.mem_range.mpr ?_,?_⟩
    · have := hk.2.1
      have := hk.1
      omega
    · rw [h.front,slot_add]
      congr 1
      have := hk.1
      omega
  have hsome : (findUnacked W k v).isSome := by
    refine List.find?_isSome.mpr ⟨k % W,hmem,?_⟩
    simp [h.of_unacked hk]
  obtain ⟨idx,hidx⟩ := Option.isSome_iff_exists.mp hsome
  obtain ⟨i,hi,rfl⟩ := List.mem_map.mp (List.mem_of_find?_eq_some hidx)
  have hfound := List.find?_some hidx
  rw [List.mem_range] at hi
  rw [hidx,h.front,slot_add]
  rw [h.front,slot_add,h.seqnum (by omega) (by omega)] at hfound
  have : v.base + i = k := by
    simp only [Bool.and_eq_true,decide_eq_true_eq] at hfound
    omega
  rw [this]

theorem findUnacked_eq_none (h : Ring W v given) {q : Int}
    (hq : ∀ k : Nat, q = k → ¬Unacked W v k) : findUnacked W q v = none := by
  have hp := h.pktnum
  refine List.find?_eq_none.mpr fun idx hidx => ?_
  obtain ⟨i,hi,rfl⟩ := List.mem_map.mp hidx
  rw [List.mem_range] at hi
  rw [h.front,slot_add,h.seqnum (k := v.base + i) (by omega) (by omega)]
  simp only [Bool.and_eq_true,decide_eq_true_eq,not_and]
  intro he h0
  exact hq _ he.symm ⟨by omega,by omega,h0⟩

/-! An acknowledgement: mark, slide, send. -/

theorem Ring.markAcked (h : Ring W v given) {k : Nat} (hk : Unacked W v k) :
    Ring W (markAcked (k % W) v) given := by
  refine ⟨h.base_le,h.next_le,h.front,h.rear,h.pktnum,fun i hb hi => ?_⟩
  simp only [Sr.markAcked] at hb hi ⊢
  by_cases he : i % W = k % W
  · obtain rfl := h.slot_inj hb hi hk.1 hk.2.1 he
    right
    rw [Function.update_self,h.of_unacked hk]
  · rw [Function.update_of_ne he]
    exact h.slot i hb hi

theorem unacked_markAcked (h : Ring W v given) {k : Nat} (hk : Unacked W v k) (i : Nat) :
    Unacked W (markAcked (k % W) v) i ↔ Unacked W v i ∧ i ≠ k := by
  simp only [Unacked,markAcked]
  by_cases he : i % W = k % W
  · rw [he,Function.update_self]
    constructor
    · rintro ⟨-,-,h0⟩
      exact absurd h0 Int.one_ne_zero
    · rintro ⟨⟨hb,hi,-⟩,hne⟩
      exact absurd (h.slot_inj hb hi hk.1 hk.2.1 he) hne
  · rw [Function.update_of_ne he]
    constructor
    · rintro hu
      exact ⟨hu,by rintro rfl; exact he rfl⟩
    · exact And.left

/-- The slide loop takes the acknowledged packets off the front of the window. -/
theorem slide_spec {fuel : Nat} (h : Ring W v given) (hfuel : v.pktnum ≤ fuel) :
    Ring W (slide W fuel v) given ∧ v.base ≤ (slide W fuel v).base ∧
    (slide W fuel v = { v with base := (slide W fuel v).base
                               winfront := (slide W fuel v).winfront
                               pktnum := (slide W fuel v).pktnum }) ∧
    (∀ k, Unacked W (slide W fuel v) k ↔ Unacked W v k) ∧
    ((slide W fuel v).base < v.nextseqnum → Unacked W v (slide W fuel v).base) := by
  have hp := h.pktnum
  induction fuel generalizing v with
  | zero =>
    refine ⟨h,Nat.le_refl _,rfl,fun _ => Iff.rfl,fun hlt => ?_⟩
    simp only [slide] at hlt
    omega
  | succ fuel ih =>
    by_cases hgo : 0 < v.pktnum ∧ (v.winbuf v.winfront).acknum = 1 ∧
        (v.winbuf v.winfront).seqnum = v.base
    · obtain ⟨hpos,hack,-⟩ := hgo
      rw [h.front] at hack
      have hring : Ring W { v with base := v.base + 1, winfront := (v.winfront + 1) % W,
                                   pktnum := v.pktnum - 1 } given := by
        have hn := h.next_le
        refine ⟨?_,?_,?_,h.rear,?_,fun k hb hk => h.slot k (by simp only at hb; omega) hk⟩
        · simp only
          omega
        · simp only
          omega
        · simp only [h.front]
          exact slot_succ _ _
        · simp only
          omega
      obtain ⟨h₁,h₂,h₃,h₄,h₅⟩ := ih hring (by simp only; omega) hring.pktnum
      have hun : ∀ k, Unacked W { v with base := v.base + 1, winfront := (v.winfront + 1) % W,
                                         pktnum := v.pktnum - 1 } k ↔ Unacked W v k := by
        intro k
        simp only [Unacked]
        constructor
        · rintro ⟨hb,hk,h0⟩
          exact ⟨by omega,hk,h0⟩
        · rintro ⟨hb,hk,h0⟩
          refine ⟨?_,hk,h0⟩
          rcases Nat.lt_or_eq_of_le hb with hb | rfl
          · exact hb
          · rw [hack] at h0
            exact absurd h0 (by decide)
      rw [slide,if_pos ⟨hpos,by rw [h.front]; exact hack,
        by rw [h.front]; exact h.seqnum (Nat.le_refl _) (by omega)⟩]
      refine ⟨h₁,Nat.le_of_succ_le h₂,h₃,fun k => (h₄ k).trans (hun k),fun hlt => ?_⟩
      exact (hun _).mp (h₅ hlt)
    · rw [slide,if_neg hgo]
      refine ⟨h,Nat.le_refl _,rfl,fun _ => Iff.rfl,fun hlt => ?_⟩
      by_contra hu
      refine hgo ⟨by omega,?_,?_⟩
      · rw [h.front]
        exact h.acked (Nat.le_refl _) hlt hu
      · rw [h.front]
        exact h.seqnum (Nat.le_refl _) hlt

end Ring

/-- What one run of a function of A does. `P` are the waiting packets that it leaves
waiting. It sends waiting packets only, and every new one. -/
structure Sends (W : Nat) (v : AVars) (given : List Msg) (P : Nat → Prop)
    (r : AVars × List Call) : Prop where
  base_le : v.base ≤ r.1.base
  next_le : v.nextseqnum ≤ r.1.nextseqnum
  out : ∀ p ∈ outOf .A r.2, ∃ k, Unacked W r.1 k ∧ p = sentPkt given k
  fresh : ∀ k, v.nextseqnum ≤ k → k < r.1.nextseqnum → sentPkt given k ∈ outOf .A r.2
  outB : outOf .B r.2 = []
  taken : takenOf r.2 = []
  unacked : ∀ k, Unacked W r.1 k ↔
    Unacked W v k ∧ P k ∨ v.nextseqnum ≤ k ∧ k < r.1.nextseqnum

section Sending
variable {W : Nat} {v : AVars} {given : List Msg} {timers : List Int}

theorem sends_nothing {v' : AVars} (hb : v'.base = v.base) (hn : v'.nextseqnum = v.nextseqnum)
    (hw : v'.winbuf = v.winbuf) : Sends W v given (fun _ => True) (v',[]) := by
  refine ⟨hb.ge,hn.ge,by simp,fun k hle hlt => absurd (hn ▸ hlt) (Nat.not_lt.mpr hle),
    rfl,rfl,fun k => ?_⟩
  simp only [Unacked,hb,hn,hw,and_true]
  constructor
  · exact Or.inl
  · rintro (hu | ⟨hle,hlt⟩)
    · exact hu
    · omega

theorem Queue.buffer (h : Queue v given) (hs : v.msgNum < maxbufsize - 1) (m : Msg) :
    Queue { v with buffer := Function.update v.buffer v.bufrear m
                   bufrear := (v.bufrear + 1) % maxbufsize
                   msgNum := v.msgNum + 1 } (given ++ [m]) := by
  have hc := h.count
  have hl : (given.drop v.nextseqnum).length = v.msgNum := by
    rw [List.length_drop]
    omega
  constructor
  · simp only [List.length_append,List.length_singleton]
    omega
  · rw [List.drop_append_of_le_length (show v.nextseqnum ≤ given.length by omega)]
    exact h.buffered.push (by omega) m

/-- A message that is sent at once was given when the queue was empty. -/
theorem Queue.sendPacket (h : Queue v given) (h0 : v.msgNum = 0) (m : Msg) :
    Queue (sendPacket W m v).1 (given ++ [m]) := by
  have hc := h.count
  have hold : given.drop v.nextseqnum = [] := List.drop_eq_nil_of_le (by omega)
  have hnew : (given ++ [m]).drop (v.nextseqnum + 1) = [] :=
    List.drop_eq_nil_of_le (by simp; omega)
  constructor
  · simp [Sr.sendPacket,h0]
    omega
  · have hb := h.buffered
    rw [hold,← hnew] at hb
    exact hb

theorem Queue.next (h : Queue v given) (h0 : 0 < v.msgNum) :
    given.getD v.nextseqnum default = v.buffer v.buffront ∧
    Queue (Sr.sendPacket W (v.buffer v.buffront) (dropBuffered v)).1 given := by
  have hc := h.count
  have hlt : v.nextseqnum < given.length := by omega
  have hb := h.buffered
  rw [List.drop_eq_getElem_cons hlt] at hb
  obtain ⟨hx,hpop⟩ := hb.pop
  refine ⟨by simp [hx,hlt],?_,hpop⟩
  simp only [Sr.sendPacket,dropBuffered]
  omega

theorem sendBuffered_of_not {fuel : Nat}
    (h : ¬(0 < v.msgNum ∧ v.nextseqnum < v.base + W)) : sendBuffered W fuel v = (v,[]) := by
  cases fuel <;> simp [sendBuffered,h]

theorem sendBuffered_base (W fuel : Nat) (v : AVars) :
    (sendBuffered W fuel v).1.base = v.base := by
  induction fuel generalizing v with
  | zero => rfl
  | succ fuel ih =>
    by_cases hgo : 0 < v.msgNum ∧ v.nextseqnum < v.base + W
    · simp only [sendBuffered,if_pos hgo,ih]
      rfl
    · rw [sendBuffered_of_not hgo]

/-- The loop that drains the queue sends the next packets, until the queue is empty or
the window full. -/
theorem sendBuffered_spec {fuel : Nat} (hr : Ring W v given) (hq : Queue v given)
    (ht : Timed W v timers) (hfuel : v.msgNum ≤ fuel) :
    let r := sendBuffered W fuel v
    Ring W r.1 given ∧ Queue r.1 given ∧ Timed W r.1 (timersAfter timers r.2) ∧
    Sends W v given (fun _ => True) r ∧ r.1.base = v.base ∧
    ¬(0 < r.1.msgNum ∧ r.1.nextseqnum < r.1.base + W) := by
  induction fuel generalizing v timers with
  | zero =>
    refine ⟨hr,hq,ht,sends_nothing rfl rfl rfl,rfl,?_⟩
    simp only [sendBuffered]
    omega
  | succ fuel ih =>
    by_cases hgo : 0 < v.msgNum ∧ v.nextseqnum < v.base + W
    · obtain ⟨hm,hlt⟩ := hgo
      obtain ⟨hget,hqnext⟩ := hq.next (W := W) hm
      have hrd : Ring W (dropBuffered v) given := ⟨hr.1,hr.2,hr.3,hr.4,hr.5,hr.6⟩
      have hrnext := hrd.sendPacket hlt hget
      have htnext := Timed.sendPacket (m := v.buffer v.buffront)
        (v := dropBuffered v) ⟨ht.nodup,ht.mem⟩ hrd hlt
      have hun := unacked_sendPacket (m := v.buffer v.buffront) hrd hlt
      obtain ⟨h₁,h₂,h₃,h₄,h₅,h₆⟩ := ih hrnext hqnext htnext
        (by simp only [sendPacket,dropBuffered]; omega)
      simp only [sendBuffered,if_pos (And.intro hm hlt)]
      refine ⟨h₁,h₂,?_,?_,h₅,h₆⟩
      · rw [timersAfter_append]
        exact h₃
      · have hbase := h₅
        have hnext := h₄.next_le
        simp only [sendPacket,dropBuffered] at hbase hnext
        have hb := hr.base_le
        have hfirst : outOf .A (sendPacket W (v.buffer v.buffront) (dropBuffered v)).2 =
            [sentPkt given v.nextseqnum] := by
          rw [sentPkt,hget]
          simp [sendPacket,dropBuffered]
        refine ⟨hbase.ge,Nat.le_of_succ_le hnext,?_,?_,?_,?_,fun k => ?_⟩
        · intro p hp
          rw [outOf_append,hfirst,List.mem_append,List.mem_singleton] at hp
          rcases hp with hp | hp
          · refine ⟨v.nextseqnum,(h₄.unacked _).mpr (Or.inl ⟨?_,trivial⟩),hp⟩
            exact (hun _).mpr (Or.inr rfl)
          · exact h₄.out p hp
        · intro k hle hlt
          rw [outOf_append,hfirst,List.mem_append,List.mem_singleton]
          rcases Nat.lt_or_eq_of_le hle with hle | rfl
          · exact Or.inr (h₄.fresh k hle hlt)
          · exact Or.inl rfl
        · rw [outOf_append,h₄.outB]
          rfl
        · rw [takenOf_append,h₄.taken]
          rfl
        · rw [h₄.unacked,hun]
          change ((Unacked W v k ∨ k = v.nextseqnum) ∧ True ∨ v.nextseqnum + 1 ≤ k ∧ _) ↔ _
          constructor
          · rintro (⟨hu | rfl,-⟩ | ⟨hle,hlt⟩)
            · exact Or.inl ⟨hu,trivial⟩
            · exact Or.inr ⟨Nat.le_refl _,hnext⟩
            · exact Or.inr ⟨Nat.le_of_succ_le hle,hlt⟩
          · rintro (⟨hu,-⟩ | ⟨hle,hlt⟩)
            · exact Or.inl ⟨Or.inl hu,trivial⟩
            · rcases Nat.lt_or_eq_of_le hle with hle | rfl
              · exact Or.inr ⟨hle,hlt⟩
              · exact Or.inl ⟨Or.inr rfl,trivial⟩
    · rw [sendBuffered_of_not hgo]
      exact ⟨hr,hq,ht,sends_nothing rfl rfl rfl,rfl,hgo⟩

/-- A between two events: the first packet of the window waits, and nothing is queued
unless the window is full. -/
structure Sender (W : Nat) (v : AVars) (given : List Msg) (timers : List Int) : Prop where
  ring : Ring W v given
  queue : Queue v given
  timed : Timed W v timers
  head : v.base < v.nextseqnum → Unacked W v v.base
  full : 0 < v.msgNum → v.nextseqnum = v.base + W

theorem sender_aInit (W : Nat) (junk : Nat → Pkt) : Sender W (aInit junk) [] [] := by
  constructor
  · constructor <;> simp [aInit]
  · exact ⟨rfl,buffered_nil (Nat.zero_lt_succ _)⟩
  · constructor
    · simp
    · simp [Unacked,aInit]
  · simp [aInit]
  · simp [aInit]

/-- `A_output` sends the message or queues it behind the others. -/
theorem Sender.aOutput (h : Sender W v given timers) {m : Msg} {r : AVars × List Call}
    (hr : aOutput W m v = some r) :
    Sender W r.1 (given ++ [m]) (timersAfter timers r.2) ∧
    Sends W v (given ++ [m]) (fun _ => True) r ∧ r.1.base = v.base := by
  have hc := h.queue.count
  have hgrow := h.ring.grow (by omega) m
  by_cases hlt : v.nextseqnum < v.base + W
  · have h0 : v.msgNum = 0 := by
      have := h.full
      omega
    have hget : (given ++ [m]).getD v.nextseqnum default = m := by
      have : v.nextseqnum = given.length := by omega
      simp [this]
    have hun := unacked_sendPacket (m := m) hgrow hlt
    simp only [Sr.aOutput,if_pos hlt,Option.some.injEq] at hr
    subst hr
    refine ⟨⟨hgrow.sendPacket hlt hget,h.queue.sendPacket h0 m,h.timed.sendPacket h.ring hlt,
      fun _ => (hun _).mpr ?_,fun hm => ?_⟩,?_,rfl⟩
    · rcases Nat.lt_or_eq_of_le h.ring.base_le with hb | hb
      · exact Or.inl (h.head hb)
      · exact Or.inr hb
    · simp only [sendPacket] at hm
      omega
    · have hfirst : outOf .A (Sr.sendPacket W m v).2 = [sentPkt (given ++ [m]) v.nextseqnum] := by
        rw [sentPkt,hget]
        simp [sendPacket]
      refine ⟨Nat.le_refl _,Nat.le_succ _,fun p hp => ?_,fun k hle hlt => ?_,rfl,rfl,fun k => ?_⟩
      · rw [hfirst,List.mem_singleton] at hp
        exact ⟨v.nextseqnum,(hun _).mpr (Or.inr rfl),hp⟩
      · obtain rfl := Nat.le_antisymm (Nat.le_of_lt_succ hlt) hle
        rw [hfirst]
        exact List.mem_singleton_self _
      · rw [hun]
        simp only [sendPacket,and_true]
        constructor
        · exact Or.imp_right fun hk => by omega
        · exact Or.imp_right fun hk => by omega
  · by_cases hs : v.msgNum < maxbufsize - 1
    · simp only [Sr.aOutput,if_neg hlt,if_pos hs,Option.some.injEq] at hr
      subst hr
      have hnext := h.ring.next_le
      refine ⟨⟨⟨hgrow.1,hgrow.2,hgrow.3,hgrow.4,hgrow.5,hgrow.6⟩,h.queue.buffer hs m,
        ⟨h.timed.nodup,h.timed.mem⟩,h.head,fun _ => ?_⟩,sends_nothing rfl rfl rfl,rfl⟩
      simp only
      omega
    · simp [Sr.aOutput,hlt,hs] at hr

/-- The part of `A_input` behind the search. -/
def acceptAck (W k : Nat) (v : AVars) : AVars × List Call :=
  let s := slide W v.pktnum (markAcked (k % W) v)
  let r := sendBuffered W s.msgNum s
  (r.1,.stoptimeR k :: r.2)

/-- `A_input` ignores the packet, or it acknowledges one that waits. -/
theorem aInput_cases (h : Sender W v given timers) (p : Pkt) :
    ((∀ k : Nat, checkCorrupted p = false → p.acknum = k → ¬Unacked W v k) ∧
      aInput W p v = (v,[])) ∨
    ∃ k : Nat, checkCorrupted p = false ∧ p.acknum = k ∧ Unacked W v k ∧
      aInput W p v = acceptAck W k v := by
  by_cases hc : checkCorrupted p = true
  · exact Or.inl ⟨by simp [hc],by simp [aInput,hc]⟩
  · by_cases hk : ∃ k : Nat, p.acknum = k ∧ Unacked W v k
    · obtain ⟨k,hpk,hu⟩ := hk
      have hrange : ¬(p.acknum < v.base ∨ (v.nextseqnum : Int) ≤ p.acknum) := by
        have := hu.1
        have := hu.2.1
        omega
      refine Or.inr ⟨k,by simpa using hc,hpk,hu,?_⟩
      simp only [aInput,hc,if_neg hrange,Bool.false_eq_true,if_false]
      rw [hpk,findUnacked_of_unacked h.ring hu]
      rfl
    · have hnone := findUnacked_eq_none h.ring (q := p.acknum)
        (fun k hpk hu => hk ⟨k,hpk,hu⟩)
      refine Or.inl ⟨fun k _ hpk hu => hk ⟨k,hpk,hu⟩,?_⟩
      simp [aInput,hc,hnone]

theorem Sender.acceptAck (h : Sender W v given timers) {k : Nat} (hk : Unacked W v k) :
    Sender W (acceptAck W k v).1 given (timersAfter timers (acceptAck W k v).2) ∧
    Sends W v given (· ≠ k) (acceptAck W k v) := by
  have hmark := h.ring.markAcked hk
  have hun := unacked_markAcked h.ring hk
  obtain ⟨hring,hbase,hframe,hslide,hstop⟩ :=
    slide_spec hmark (Nat.le_refl (markAcked (k % W) v).pktnum)
  have hwait : ∀ i, Unacked W (slide W v.pktnum (markAcked (k % W) v)) i ↔
      Unacked W v i ∧ i ≠ k := fun i => (hslide i).trans (hun i)
  change Ring W (slide W v.pktnum (markAcked (k % W) v)) given at hring
  change v.base ≤ (slide W v.pktnum (markAcked (k % W) v)).base at hbase
  change slide W v.pktnum (markAcked (k % W) v) = _ at hframe
  change (slide W v.pktnum (markAcked (k % W) v)).base < v.nextseqnum →
    Unacked W _ (slide W v.pktnum (markAcked (k % W) v)).base at hstop
  have hq := h.queue
  unfold Sr.acceptAck
  generalize slide W v.pktnum (markAcked (k % W) v) = s at *
  have hn : s.nextseqnum = v.nextseqnum := by rw [hframe]; rfl
  have hqs : Queue s given := by
    rw [hframe]
    exact ⟨hq.count,hq.buffered⟩
  have hts : Timed W s (timers.erase k) := by
    refine ⟨h.timed.nodup.erase _,fun q => ?_⟩
    rw [h.timed.nodup.mem_erase_iff,h.timed.mem]
    constructor
    · rintro ⟨hne,i,rfl,hi⟩
      exact ⟨i,rfl,(hwait i).mpr ⟨hi,by rintro rfl; exact hne rfl⟩⟩
    · rintro ⟨i,rfl,hi⟩
      obtain ⟨hi,hne⟩ := (hwait i).mp hi
      exact ⟨by omega,i,rfl,hi⟩
  obtain ⟨h₁,h₂,h₃,h₄,h₅,h₆⟩ := sendBuffered_spec hring hqs hts (Nat.le_refl s.msgNum)
  have hle := h₄.next_le
  simp only at *
  refine ⟨⟨h₁,h₂,h₃,fun hlt => ?_,fun hm => ?_⟩,?_⟩
  · rw [h₅] at hlt ⊢
    rw [h₄.unacked]
    rcases Nat.lt_or_ge s.base s.nextseqnum with hs | hs
    · have hu := (hun _).mp (hstop (by omega))
      exact Or.inl ⟨(hwait _).mpr hu,trivial⟩
    · exact Or.inr ⟨hs,hlt⟩
  · have := h₁.next_le
    omega
  · refine ⟨hbase.trans h₅.ge,hn.ge.trans hle,h₄.out,fun i hi => h₄.fresh i (hn.trans_le hi),
      by simpa using h₄.outB,by simpa using h₄.taken,fun i => ?_⟩
    rw [h₄.unacked,hwait]
    simp only [and_true,hn]

/-- An acknowledgement of another packet than the first only marks and stops; the
window moves on the first one. -/
theorem Sender.acceptAck_cases (h : Sender W v given timers) {k : Nat} (hk : Unacked W v k) :
    v.base < (Sr.acceptAck W k v).1.base ∨
    (Sr.acceptAck W k v).1.base = v.base ∧ k ≠ v.base ∧
      (Sr.acceptAck W k v).2 = [.stoptimeR k] := by
  obtain ⟨hsender,hs⟩ := h.acceptAck hk
  rcases Nat.lt_or_eq_of_le hs.base_le with hlt | heq
  · exact Or.inl hlt
  · refine Or.inr ⟨heq.symm,?_,?_⟩
    · rintro rfl
      have hle := hs.next_le
      have hhead := hsender.head (by have := hk.2.1; omega)
      rw [← heq] at hhead
      rcases (hs.unacked _).mp hhead with ⟨-,hne⟩ | ⟨hge,-⟩
      · exact hne rfl
      · exact absurd hk.2.1 (Nat.not_lt.mpr hge)
    · have hmark := h.ring.markAcked hk
      obtain ⟨hring,-,hframe,-⟩ := slide_spec hmark (Nat.le_refl (markAcked (k % W) v).pktnum)
      change Ring W (slide W v.pktnum (markAcked (k % W) v)) given at hring
      change slide W v.pktnum (markAcked (k % W) v) = _ at hframe
      have hsame : (sendBuffered W (slide W v.pktnum (markAcked (k % W) v)).msgNum
          (slide W v.pktnum (markAcked (k % W) v))).1.base = v.base := heq.symm
      unfold Sr.acceptAck
      generalize slide W v.pktnum (markAcked (k % W) v) = s at *
      rw [sendBuffered_base] at hsame
      have hn : s.nextseqnum = v.nextseqnum := by rw [hframe]; rfl
      have hm : s.msgNum = v.msgNum := by rw [hframe]; rfl
      have hstop : ¬(0 < s.msgNum ∧ s.nextseqnum < s.base + W) := by
        have := h.full
        omega
      simp only [sendBuffered_of_not hstop]

/-- A timer that fires sends its packet again and is started again. -/
theorem Sender.fire (h : Sender W v given timers) {q : Int} {before after : List Int}
    (hq : timers = before ++ q :: after) :
    ∃ k : Nat, q = k ∧ Unacked W v k ∧
      aPacketTimeRinterrupt W q v = (v,[.tolayer3 .A (sentPkt given k),.starttimeR k]) ∧
      Sender W v given ((before ++ after) ++ [(k : Int)]) := by
  obtain ⟨k,rfl,hu⟩ := (h.timed.mem q).mp (by simp [hq])
  refine ⟨k,rfl,hu,?_,⟨h.ring,h.queue,?_,h.head,h.full⟩⟩
  · simp [aPacketTimeRinterrupt,findUnacked_of_unacked h.ring hu,h.ring.of_unacked hu]
  · have hperm : timers.Perm ((before ++ after) ++ [(k : Int)]) := by
      rw [hq]
      exact List.perm_middle.trans (List.perm_append_singleton _ _).symm
    exact ⟨hperm.nodup_iff.mp h.timed.nodup,fun r => by rw [← hperm.mem_iff,h.timed.mem]⟩

theorem Unacked.resends {k : Nat} (hu : Unacked W v k) (given : List Msg) :
    Sends W v given (fun _ => True) (v,[.tolayer3 .A (sentPkt given k),.starttimeR k]) := by
  have hnone : Sends W v given (fun _ => True) (v,[]) := sends_nothing rfl rfl rfl
  refine ⟨Nat.le_refl _,Nat.le_refl _,fun p hp => ?_,fun k hle hlt => ?_,rfl,rfl,hnone.unacked⟩
  · exact ⟨k,hu,by simpa using hp⟩
  · exact absurd hle (Nat.not_le.mpr hlt)

end Sending

end NetworkLab.Sr
