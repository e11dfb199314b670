import NetworkLab.Sr.Solo
set_option autoImplicit false

/-! Two acknowledgements in either order. What A is between two events follows from the
messages it was given and from which packets still wait, so the two runs need not be compared
step by step. -/

namespace NetworkLab.Sr
open Rdt Slots

/-- `A_input` twice. -/
def aInputs (W : Nat) (p q : Pkt) (v : AVars) : AVars × List Call :=
  let r := aInput W p v
  let r' := aInput W q r.1
  (r'.1,r.2 ++ r'.2)

/-- Two runs out of a state with these timers end alike and send alike. -/
structure Agree (W : Nat) (timers : List Int) (r r' : AVars × List Call) : Prop where
  base : r.1.base = r'.1.base
  nextseqnum : r.1.nextseqnum = r'.1.nextseqnum
  winfront : r.1.winfront = r'.1.winfront
  winrear : r.1.winrear = r'.1.winrear
  pktnum : r.1.pktnum = r'.1.pktnum
  window : ∀ i < r.1.pktnum, r.1.windowSlot W i = r'.1.windowSlot W i
  buffer : r.1.buffer = r'.1.buffer
  buffront : r.1.buffront = r'.1.buffront
  bufrear : r.1.bufrear = r'.1.bufrear
  msgNum : r.1.msgNum = r'.1.msgNum
  timers : (timersAfter timers r.2).Perm (timersAfter timers r'.2)
  packets : outOf .A r.2 = outOf .A r'.2

/-- What a run of acknowledgements leaves: of the packets that waited those in `P` wait still,
and the new ones went out in their order. -/
structure Leaves (W : Nat) (v : AVars) (given : List Msg) (timers : List Int) (P : Nat → Prop)
    (r : AVars × List Call) : Prop where
  sender : Sender W r.1 given (timersAfter timers r.2)
  base_le : v.base ≤ r.1.base
  next_le : v.nextseqnum ≤ r.1.nextseqnum
  unacked : ∀ k, Unacked W r.1 k ↔
    Unacked W v k ∧ P k ∨ v.nextseqnum ≤ k ∧ k < r.1.nextseqnum
  out : outOf .A r.2 =
    (List.range' v.nextseqnum (r.1.nextseqnum - v.nextseqnum)).map (sentPkt given)
  buffer : r.1.buffer = v.buffer
  bufrear : r.1.bufrear = v.bufrear

section Commute
variable {W : Nat} {v : AVars} {given : List Msg} {timers : List Int}

theorem slide_buffer (W fuel : Nat) (v : AVars) :
    (slide W fuel v).buffer = v.buffer ∧ (slide W fuel v).bufrear = v.bufrear := by
  induction fuel generalizing v with
  | zero => exact ⟨rfl,rfl⟩
  | succ fuel ih =>
    rw [slide]
    split
    · exact ih _
    · exact ⟨rfl,rfl⟩

theorem sendBuffered_buffer (W fuel : Nat) (v : AVars) :
    (sendBuffered W fuel v).1.buffer = v.buffer ∧
      (sendBuffered W fuel v).1.bufrear = v.bufrear := by
  induction fuel generalizing v with
  | zero => exact ⟨rfl,rfl⟩
  | succ fuel ih =>
    rw [sendBuffered]
    split
    · exact ih _
    · exact ⟨rfl,rfl⟩

/-- The drain loop numbers what it takes from the queue in order. -/
theorem Queue.drained (h : Queue v given) (fuel : Nat) :
    v.nextseqnum ≤ (sendBuffered W fuel v).1.nextseqnum ∧
    outOf .A (sendBuffered W fuel v).2 = (List.range' v.nextseqnum
      ((sendBuffered W fuel v).1.nextseqnum - v.nextseqnum)).map (sentPkt given) := by
  induction fuel generalizing v with
  | zero => simp [sendBuffered]
  | succ fuel ih =>
    by_cases hgo : 0 < v.msgNum ∧ v.nextseqnum < v.base + W
    · obtain ⟨hget,hnext⟩ := h.next (W := W) hgo.1
      obtain ⟨hle,hout⟩ := ih hnext
      have hfirst : outOf .A (Sr.sendPacket W (v.buffer v.buffront) (dropBuffered v)).2 =
          [sentPkt given v.nextseqnum] := by
        rw [sentPkt,hget]
        simp [Sr.sendPacket,dropBuffered]
      change v.nextseqnum + 1 ≤ _ at hle
      obtain ⟨m,hm⟩ := Nat.exists_eq_add_of_le hle
      change outOf .A _ = (List.range' (v.nextseqnum + 1) (_ - (v.nextseqnum + 1))).map _ at hout
      simp only [sendBuffered,if_pos hgo]
      rw [outOf_append,hfirst,hout,hm]
      refine ⟨by omega,?_⟩
      rw [show v.nextseqnum + 1 + m - (v.nextseqnum + 1) = m by omega,
        show v.nextseqnum + 1 + m - v.nextseqnum = m + 1 by omega,List.range'_succ]
      rfl
    · rw [sendBuffered_of_not hgo]
      simp

theorem Sender.leaves_nothing (h : Sender W v given timers) {P : Nat → Prop}
    (hP : ∀ k, Unacked W v k → P k) : Leaves W v given timers P (v,[]) := by
  refine ⟨h,Nat.le_refl _,Nat.le_refl _,fun k => ?_,by simp,rfl,rfl⟩
  constructor
  · exact fun hu => Or.inl ⟨hu,hP k hu⟩
  · rintro (hu | ⟨hle,hlt⟩)
    · exact hu.1
    · exact absurd hlt (Nat.not_lt.mpr hle)

/-- One intact acknowledgement, of a packet that waits or not. -/
theorem Sender.leaves (h : Sender W v given timers) {p : Pkt} {a : Nat}
    (hc : checkCorrupted p = false) (hp : p.acknum = a) :
    Leaves W v given timers (· ≠ a) (aInput W p v) := by
  rcases aInput_cases h p with ⟨hno,hr⟩ | ⟨k,-,hpk,hu,hr⟩
  · rw [hr]
    refine h.leaves_nothing fun k hk => ?_
    rintro rfl
    exact hno k hc hp hk
  · obtain rfl : k = a := by omega
    obtain ⟨hsender,hs⟩ := h.acceptAck hu
    rw [hr]
    refine ⟨hsender,hs.base_le,hs.next_le,hs.unacked,?_,?_,?_⟩
    · obtain ⟨-,-,hframe,-⟩ := slide_spec (h.ring.markAcked hu) (Nat.le_refl _)
      change slide W v.pktnum (markAcked (k % W) v) = _ at hframe
      have hq : Queue (slide W v.pktnum (markAcked (k % W) v)) given := by
        rw [hframe]
        exact ⟨h.queue.count,h.queue.buffered⟩
      have hn : (slide W v.pktnum (markAcked (k % W) v)).nextseqnum = v.nextseqnum := by
        rw [hframe]
        rfl
      have hout := (hq.drained (W := W) (slide W v.pktnum (markAcked (k % W) v)).msgNum).2
      rw [hn] at hout
      exact hout
    · exact (sendBuffered_buffer _ _ _).1.trans (slide_buffer _ _ _).1
    · exact (sendBuffered_buffer _ _ _).2.trans (slide_buffer _ _ _).2

/-- One run behind another. The second takes none of the packets that the first sent. -/
theorem Leaves.trans {P Q : Nat → Prop} {r r' : AVars × List Call}
    (h : Leaves W v given timers P r)
    (h' : Leaves W r.1 given (timersAfter timers r.2) Q r')
    (hQ : ∀ k, v.nextseqnum ≤ k → Q k) :
    Leaves W v given timers (fun k => P k ∧ Q k) (r'.1,r.2 ++ r'.2) := by
  have hle := h.next_le
  have hle' := h'.next_le
  refine ⟨?_,h.base_le.trans h'.base_le,hle.trans hle',fun k => ?_,?_,h'.buffer.trans h.buffer,
    h'.bufrear.trans h.bufrear⟩
  · rw [timersAfter_append]
    exact h'.sender
  · rw [h'.unacked,h.unacked]
    constructor
    · rintro (⟨⟨hu,hP⟩ | ⟨hge,hlt⟩,hQk⟩ | ⟨hge,hlt⟩)
      · exact Or.inl ⟨hu,hP,hQk⟩
      · exact Or.inr ⟨hge,hlt.trans_le hle'⟩
      · exact Or.inr ⟨hle.trans hge,hlt⟩
    · rintro (⟨hu,hP,hQk⟩ | ⟨hge,hlt⟩)
      · exact Or.inl ⟨Or.inl ⟨hu,hP⟩,hQk⟩
      · rcases Nat.lt_or_ge k r.1.nextseqnum with hk | hk
        · exact Or.inl ⟨Or.inr ⟨hge,hk⟩,hQ k hge⟩
        · exact Or.inr ⟨hk,hlt⟩
  · obtain ⟨m,hm⟩ := Nat.exists_eq_add_of_le hle
    obtain ⟨n,hn⟩ := Nat.exists_eq_add_of_le hle'
    rw [outOf_append,h.out,h'.out,hn,hm,← List.map_append]
    refine congrArg _ ?_
    rw [show v.nextseqnum + m - v.nextseqnum = m by omega,
      show v.nextseqnum + m + n - (v.nextseqnum + m) = n by omega,
      show v.nextseqnum + m + n - v.nextseqnum = m + n by omega,List.range'_append_1]

/-! What A is, read off the packets that wait. -/

/-- `base` is the oldest packet that waits, or the end of what had been sent. -/
theorem Leaves.base_le_of {P : Nat → Prop} {r r' : AVars × List Call}
    (h : Leaves W v given timers P r) (h' : Leaves W v given timers P r') :
    r.1.base ≤ r'.1.base := by
  have hb := h.sender.ring.base_le
  have hb' := h'.sender.ring.base_le
  have hn' := h'.next_le
  -- a packet that was waiting all the time is in both windows
  have hold : ∀ k, Unacked W v k ∧ P k → r.1.base ≤ k := fun k hk =>
    ((h.unacked k).mpr (Or.inl hk)).1
  -- and no window begins behind the packets that had been sent
  have hend : r.1.base ≤ v.nextseqnum := by
    by_contra hgt
    have := ((h.unacked v.nextseqnum).mpr (Or.inr ⟨Nat.le_refl _,by omega⟩)).1
    omega
  rcases Nat.lt_or_eq_of_le hb' with hlt | heq
  · rcases (h'.unacked _).mp (h'.sender.head hlt) with hk | ⟨hge,-⟩
    · exact hold _ hk
    · omega
  · omega

theorem Sender.nextseqnum_eq (h : Sender W v given timers) :
    v.nextseqnum = min given.length (v.base + W) := by
  have hc := h.queue.count
  have hle := h.ring.next_le
  have hfull := h.full
  omega

theorem Leaves.agree {P Q : Nat → Prop} {r r' : AVars × List Call}
    (h : Leaves W v given timers P r) (h' : Leaves W v given timers Q r')
    (hPQ : ∀ k, P k ↔ Q k) : Agree W timers r r' := by
  obtain rfl : P = Q := funext fun k => propext (hPQ k)
  have hs := h.sender
  have hs' := h'.sender
  have hbase : r.1.base = r'.1.base := Nat.le_antisymm (h.base_le_of h') (h'.base_le_of h)
  have hnext : r.1.nextseqnum = r'.1.nextseqnum := by
    rw [hs.nextseqnum_eq,hs'.nextseqnum_eq,hbase]
  have hun : ∀ k, Unacked W r.1 k ↔ Unacked W r'.1 k := by
    intro k
    rw [h.unacked,h'.unacked,hnext]
  have hpkt := hs.ring.pktnum
  have hpkt' := hs'.ring.pktnum
  have hrear : r.1.bufrear = r'.1.bufrear := h.bufrear.trans h'.bufrear.symm
  refine ⟨hbase,hnext,?_,?_,by omega,fun i hi => ?_,h.buffer.trans h'.buffer.symm,?_,hrear,?_,?_,?_⟩
  · rw [hs.ring.front,hs'.ring.front,hbase]
  · rw [hs.ring.rear,hs'.ring.rear,hnext]
  · rw [hs.ring.windowSlot,hs'.ring.windowSlot,hbase]
    have hlo : r.1.base ≤ r'.1.base + i := by omega
    have hhi : r'.1.base + i < r.1.nextseqnum := by omega
    by_cases hu : Unacked W r.1 (r'.1.base + i)
    · rw [hs.ring.of_unacked hu,hs'.ring.of_unacked ((hun _).mp hu)]
    · rw [hs.ring.of_acked hlo hhi hu,
        hs'.ring.of_acked (Nat.le_add_right _ _) (hnext ▸ hhi) ((hun _).not.mp hu)]
  · have hb := hs.queue.buffered
    have hb' := hs'.queue.buffered
    have he := hb.rear_eq.symm.trans (hrear.trans hb'.rear_eq)
    have hlt := hb.front_lt
    have hlt' := hb'.front_lt
    rw [hnext] at he
    have := slot_inj he (by omega) (by omega)
    omega
  · have hc := hs.queue.count
    have hc' := hs'.queue.count
    omega
  · refine (List.perm_ext_iff_of_nodup hs.timed.nodup hs'.timed.nodup).mpr fun q => ?_
    simp only [hs.timed.mem,hs'.timed.mem,hun]
  · rw [h.out,h'.out,hnext]

end Commute

section Commute
variable {W : Nat} {junk : Nat → Pkt} {s : Solo Vars} {p q : Pkt}

/-- Two acknowledgements of packets in the window may come in either order. -/
theorem acks_commute (h : Solo.Reach (students W junk) s) (hp : checkCorrupted p = false)
    (hq : checkCorrupted q = false)
    (hpw : s.vars.a.base ≤ p.acknum ∧ p.acknum < s.vars.a.nextseqnum)
    (hqw : s.vars.a.base ≤ q.acknum ∧ q.acknum < s.vars.a.nextseqnum) :
    Agree W s.timers (aInputs W p q s.vars.a) (aInputs W q p s.vars.a) := by
  obtain ⟨a,ha⟩ : ∃ a : Nat, p.acknum = a := ⟨p.acknum.toNat,by omega⟩
  obtain ⟨b,hb⟩ : ∃ b : Nat, q.acknum = b := ⟨q.acknum.toNat,by omega⟩
  have hs := (reach_sending h).sender
  have hfirst := hs.leaves hp ha
  have hfirst' := hs.leaves hq hb
  have hpq := hfirst.trans (hfirst.sender.leaves hq hb) fun k hk => by omega
  have hqp := hfirst'.trans (hfirst'.sender.leaves hp ha) fun k hk => by omega
  exact hpq.agree hqp fun k => and_comm

/-- Two packets wait in a window of two, with a third message behind them. -/
theorem acks_commute_full :
    ∃ s : Solo Vars, s.vars.a.msgNum = 1 ∧
      Agree 2 s.timers (aInputs 2 (ackPkt 0) (ackPkt 1) s.vars.a)
        (aInputs 2 (ackPkt 1) (ackPkt 0) s.vars.a) := by
  have h₁ : Solo.Reach (students 2 fun _ => default) _ :=
    Relation.ReflTransGen.single (.aOutput default _ rfl)
  have h₂ := h₁.tail (.aOutput default _ rfl)
  have h₃ := h₂.tail (.aOutput default _ rfl)
  exact ⟨_,rfl,acks_commute h₃ (checkCorrupted_ackPkt 0) (checkCorrupted_ackPkt 1)
    (by decide) (by decide)⟩

end Commute

end NetworkLab.Sr
