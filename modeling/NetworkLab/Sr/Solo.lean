import NetworkLab.Rdt.Solo
import NetworkLab.Sr.Sender
set_option autoImplicit false

/-! The sender alone, under any packets and any order of its timers: what the window,
the acknowledgements and the timers have to do with each other between two events. -/

namespace NetworkLab.Sr
open Rdt

/-- `A_input` has accepted an acknowledgement of packet `k`: an intact one, at a moment
when `k` was in the window. -/
def Accepted (s : Solo Vars) (k : Nat) : Prop :=
  ∃ e ∈ s.received, checkCorrupted e.2 = false ∧ e.2.acknum = k ∧
    e.1.a.base ≤ k ∧ k < e.1.a.nextseqnum

structure Sending (W : Nat) (s : Solo Vars) : Prop where
  sender : Sender W s.vars.a s.given s.timers
  unacked : ∀ k, s.vars.a.base ≤ k → k < s.vars.a.nextseqnum →
    (Unacked W s.vars.a k ↔ ¬Accepted s k)
  old : ∀ k, Accepted s k → k < s.vars.a.nextseqnum
  sent : ∀ k < s.vars.a.nextseqnum, sentPkt s.given k ∈ s.handed
  made : ∀ p ∈ s.handed, ∃ k < s.vars.a.nextseqnum, p = sentPkt s.given k

section Sending
variable {W : Nat} {junk : Nat → Pkt} {s t : Solo Vars}

theorem sending_start (W : Nat) (junk : Nat → Pkt) : Sending W (Solo.start (students W junk)) := by
  constructor
  · exact sender_aInit W junk
  · intro k _ hk
    exact absurd hk (Nat.not_lt_zero k)
  · rintro k ⟨e,he,-⟩
    exact absurd he List.not_mem_nil
  · intro k hk
    exact absurd hk (Nat.not_lt_zero k)
  · intro p hp
    exact absurd hp List.not_mem_nil

theorem Sending.first (h : Sending W s) {k : Nat} (hk : k < s.vars.a.nextseqnum) :
    s.first k = some (sentPkt s.given k) := by
  refine Solo.first_of_mem (h.sent k hk) rfl fun q hq hqk => ?_
  obtain ⟨j,-,rfl⟩ := h.made q hq
  rw [sentPkt_seqnum,Int.ofNat_inj] at hqk
  rw [hqk]

/-- A function of A returns. `u` is the state that called it. -/
theorem Sending.after (h : Sending W s) (u : Solo Vars) {r : AVars × List Call} {P : Nat → Prop}
    (hh : u.handed = s.handed)
    (hgiven : ∀ k < s.vars.a.nextseqnum, sentPkt u.given k = sentPkt s.given k)
    (hsender : Sender W r.1 u.given (timersAfter u.timers r.2))
    (hs : Sends W s.vars.a u.given P r)
    (hold : ∀ k, Accepted u k → k < s.vars.a.nextseqnum)
    (hacc : ∀ k, s.vars.a.base ≤ k → k < s.vars.a.nextseqnum →
      (Unacked W s.vars.a k ∧ P k ↔ ¬Accepted u k)) (b : BVars) :
    Sending W (u.after (⟨r.1,b⟩,r.2)) := by
  have hbase := hs.base_le
  have hnext := hs.next_le
  constructor
  · exact hsender
  · intro k hb hk
    change r.1.base ≤ k at hb
    change k < r.1.nextseqnum at hk
    change Unacked W r.1 k ↔ ¬Accepted u k
    rw [hs.unacked]
    rcases Nat.lt_or_ge k s.vars.a.nextseqnum with hlt | hge
    · rw [← hacc k (by omega) hlt]
      constructor
      · rintro (hu | ⟨hle,-⟩)
        · exact hu
        · exact absurd hlt (Nat.not_lt.mpr hle)
      · exact Or.inl
    · have hno : ¬Accepted u k := fun ha => absurd (hold k ha) (Nat.not_lt.mpr hge)
      simp [hno,hge,hk]
  · exact fun k hk => Nat.lt_of_lt_of_le (hold k hk) hnext
  · intro k hk
    rw [Solo.after_handed,List.mem_append,hh]
    rcases Nat.lt_or_ge k s.vars.a.nextseqnum with hlt | hge
    · left
      exact (hgiven k hlt) ▸ h.sent k hlt
    · exact Or.inr (hs.fresh k hge hk)
  · intro p hp
    rw [Solo.after_handed,List.mem_append,hh] at hp
    rcases hp with hp | hp
    · obtain ⟨k,hk,rfl⟩ := h.made p hp
      exact ⟨k,Nat.lt_of_lt_of_le hk hnext,(hgiven k hk).symm⟩
    · obtain ⟨k,hu,rfl⟩ := hs.out p hp
      exact ⟨k,hu.2.1,rfl⟩

theorem accepted_received {p : Pkt} {k : Nat} :
    Accepted { s with received := s.received ++ [(s.vars,p)] } k ↔
      Accepted s k ∨ checkCorrupted p = false ∧ p.acknum = k ∧
        s.vars.a.base ≤ k ∧ k < s.vars.a.nextseqnum := by
  simp [Accepted,or_and_right,exists_or]

theorem Sending.step (h : Sending W s) (hst : Solo.Step (students W junk) s t) :
    Sending W t ∧ ∀ out, t.handed = s.handed ++ out →
      ∀ p ∈ out, ∃ k, Unacked W t.vars.a k ∧ p = sentPkt t.given k := by
  have hkeep : ∀ k, s.vars.a.base ≤ k → k < s.vars.a.nextseqnum →
      (Unacked W s.vars.a k ∧ True ↔ ¬Accepted s k) := by
    intro k hb hk
    rw [and_true]
    exact h.unacked k hb hk
  cases hst with
  | aOutput m r hr =>
    obtain ⟨r',hr',rfl⟩ := Option.map_eq_some_iff.mp hr
    obtain ⟨hsender,hs,-⟩ := h.sender.aOutput hr'
    refine ⟨h.after { s with given := s.given ++ [m] } rfl (fun k hk => ?_) hsender hs
      h.old hkeep _,fun out ho => ?_⟩
    · have := h.sender.queue.count
      exact sentPkt_append (by omega) m
    · obtain rfl := List.append_cancel_left ho
      exact hs.out
  | aInput p =>
    rcases aInput_cases h.sender p with ⟨hno,hr⟩ | ⟨k,hc,hpk,hu,hr⟩
    · have hs : Sends W s.vars.a s.given (fun _ => True) (s.vars.a,[]) := sends_nothing rfl rfl rfl
      refine ⟨?_,fun out ho => ?_⟩
      · simp only [students,hr]
        refine h.after { s with received := s.received ++ [(s.vars,p)] } rfl (fun _ _ => rfl)
          h.sender hs (fun k ha => ?_) (fun k hb hk => ?_) _
        · rcases accepted_received.mp ha with ha | ⟨-,-,-,hk⟩
          · exact h.old k ha
          · exact hk
        · rw [accepted_received,hkeep k hb hk]
          constructor
          · rintro hna (ha | ⟨hc,hpk,-⟩)
            · exact hna ha
            · exact hno k hc hpk ((h.unacked k hb hk).mpr hna)
          · exact fun hna ha => hna (Or.inl ha)
      · have : out = [] := by simpa [students,hr] using ho
        simp [this]
    · obtain ⟨hsender,hs⟩ := h.sender.acceptAck hu
      refine ⟨?_,fun out ho => ?_⟩
      · simp only [students,hr]
        refine h.after { s with received := s.received ++ [(s.vars,p)] } rfl (fun _ _ => rfl)
          hsender hs (fun i ha => ?_) (fun i hb hi => ?_) _
        · rcases accepted_received.mp ha with ha | ⟨-,-,-,hi⟩
          · exact h.old i ha
          · exact hi
        · rw [accepted_received,h.unacked i hb hi]
          constructor
          · rintro ⟨hna,hne⟩ (ha | ⟨-,hpi,-⟩)
            · exact hna ha
            · exact hne (by omega)
          · intro hna
            refine ⟨fun ha => hna (Or.inl ha),?_⟩
            rintro rfl
            exact hna (Or.inr ⟨hc,hpk,hb,hi⟩)
      · simp only [students,hr] at ho ⊢
        obtain rfl := List.append_cancel_left ho
        exact hs.out
  | @interrupt before after q hq =>
    obtain ⟨k,rfl,hu,hr,hsender⟩ := h.sender.fire hq
    have hs := hu.resends s.given
    refine ⟨?_,fun out ho => ?_⟩
    · simp only [students,hr]
      exact h.after { s with timers := before ++ after } rfl (fun _ _ => rfl) hsender hs h.old
        hkeep _
    · simp only [students,hr] at ho ⊢
      obtain rfl := List.append_cancel_left ho
      exact hs.out

theorem reach_sending (h : Solo.Reach (students W junk) s) : Sending W s :=
  h.invariant (sending_start W junk) fun _ _ hst hs => (hs.step hst).1

end Sending

/-- The slot of the `i`-th packet of the window. -/
def AVars.windowSlot (W : Nat) (v : AVars) (i : Nat) : Pkt := v.winbuf ((v.winfront + i) % W)

/-- What holds of A between two events, read off its variables. -/
structure Windowed (W : Nat) (s : Solo Vars) : Prop where
  pktnum : (s.vars.a.pktnum : Int) = s.vars.a.nextseqnum - s.vars.a.base
  pktnum_le : s.vars.a.pktnum ≤ W
  winrear : s.vars.a.winrear = (s.vars.a.winfront + s.vars.a.pktnum) % W
  seqnum : ∀ i < s.vars.a.pktnum,
    (s.vars.a.windowSlot W i).seqnum = (s.vars.a.base + i : Nat)
  acknum : ∀ i < s.vars.a.pktnum,
    (s.vars.a.windowSlot W i).acknum = 0 ∧ ¬Accepted s (s.vars.a.base + i) ∨
    (s.vars.a.windowSlot W i).acknum = 1 ∧ Accepted s (s.vars.a.base + i)
  asFirst : ∀ i < s.vars.a.pktnum, ∃ first, s.first (s.vars.a.base + i : Nat) = some first ∧
    (s.vars.a.windowSlot W i).payload = first.payload ∧
    (s.vars.a.windowSlot W i).checksum = first.checksum
  front : 0 < s.vars.a.pktnum → (s.vars.a.winbuf s.vars.a.winfront).acknum = 0
  full : 0 < s.vars.a.msgNum → s.vars.a.pktnum = W
  timers_nodup : s.timers.Nodup
  timers : ∀ q : Int, q ∈ s.timers ↔ ∃ i < s.vars.a.pktnum, q = (s.vars.a.base + i : Nat) ∧
    (s.vars.a.windowSlot W i).acknum = 0

section Windowed
variable {W : Nat} {junk : Nat → Pkt} {s t : Solo Vars}

theorem Ring.windowSlot {v : AVars} {given : List Msg} (h : Ring W v given) (i : Nat) :
    v.windowSlot W i = v.winbuf ((v.base + i) % W) := by
  rw [AVars.windowSlot,h.front,Slots.slot_add]

/-- The waiting packets, counted from the front of the window. -/
theorem Ring.unacked_iff {v : AVars} {given : List Msg} (h : Ring W v given) (k : Nat) :
    Unacked W v k ↔ ∃ i < v.pktnum, k = v.base + i ∧ (v.windowSlot W i).acknum = 0 := by
  have hp := h.pktnum
  constructor
  · rintro ⟨hb,hk,h0⟩
    have he : v.base + (k - v.base) = k := by omega
    refine ⟨k - v.base,by omega,he.symm,?_⟩
    rwa [h.windowSlot,he]
  · rintro ⟨i,hi,rfl,h0⟩
    rw [h.windowSlot] at h0
    exact ⟨Nat.le_add_right _ _,by omega,h0⟩

theorem Sending.windowed (h : Sending W s) : Windowed W s := by
  have hr := h.sender.ring
  have hp := hr.pktnum
  have hle := hr.next_le
  constructor
  · omega
  · omega
  · rw [hr.rear,hr.front,Slots.slot_add,hp]
  · intro i hi
    rw [hr.windowSlot]
    exact hr.seqnum (Nat.le_add_right _ _) (by omega)
  · intro i hi
    have hu := h.unacked (s.vars.a.base + i) (Nat.le_add_right _ _) (by omega)
    rw [hr.windowSlot]
    by_cases ha : Accepted s (s.vars.a.base + i)
    · exact Or.inr ⟨hr.acked (Nat.le_add_right _ _) (by omega) fun hw => hu.mp hw ha,ha⟩
    · exact Or.inl ⟨(hu.mpr ha).2.2,ha⟩
  · intro i hi
    refine ⟨_,h.first (k := s.vars.a.base + i) (by omega),?_⟩
    rw [hr.windowSlot]
    rcases hr.slot (s.vars.a.base + i) (Nat.le_add_right _ _) (by omega) with hs | hs
    · rw [hs]
      exact ⟨rfl,rfl⟩
    · rw [hs]
      exact ⟨rfl,rfl⟩
  · intro h0
    rw [hr.front]
    exact (h.sender.head (by omega)).2.2
  · intro hm
    have := h.sender.full hm
    omega
  · exact h.sender.timed.nodup
  · intro q
    rw [h.sender.timed.mem]
    constructor
    · rintro ⟨k,rfl,hu⟩
      obtain ⟨i,hi,rfl,h0⟩ := (hr.unacked_iff k).mp hu
      exact ⟨i,hi,rfl,h0⟩
    · rintro ⟨i,hi,rfl,h0⟩
      exact ⟨_,rfl,(hr.unacked_iff _).mpr ⟨i,hi,rfl,h0⟩⟩

/-- In every state that A can reach the window is in order, and a packet handed to layer 3
next is the one that was handed over first under its number, and waits. -/
theorem selectiveRepeat_window (h : Solo.Reach (students W junk) s) :
    Windowed W s ∧ ∀ t, Solo.Step (students W junk) s t →
      ∀ out, t.handed = s.handed ++ out → ∀ p ∈ out,
        t.first p.seqnum = some p ∧ ∃ i < t.vars.a.pktnum,
          p.seqnum = (t.vars.a.base + i : Nat) ∧ (t.vars.a.windowSlot W i).acknum = 0 := by
  have hs := reach_sending h
  refine ⟨hs.windowed,fun t hst out ho p hp => ?_⟩
  obtain ⟨ht,hout⟩ := hs.step hst
  obtain ⟨k,hu,rfl⟩ := hout out ho p hp
  obtain ⟨i,hi,rfl,h0⟩ := (ht.sender.ring.unacked_iff k).mp hu
  exact ⟨ht.first hu.2.1,i,hi,rfl,h0⟩

/-- Two packets fill a window of two, and the acknowledgement of the second one comes. -/
def sampleSolo : Solo Vars :=
  let send (m : Msg) (s : Solo Vars) : Solo Vars := { s with given := s.given ++ [m] }.after
    (⟨(sendPacket 2 m s.vars.a).1,s.vars.b⟩,(sendPacket 2 m s.vars.a).2)
  let s := send ⟨Vector.replicate 20 98⟩ (send ⟨Vector.replicate 20 97⟩
    (Solo.start (students 2 default)))
  { s with received := [(s.vars,ackPkt 1)] }.after ((students 2 default).aInput (ackPkt 1) s.vars)

theorem sampleSolo_reach : Solo.Reach (students 2 default) sampleSolo :=
  ((Relation.ReflTransGen.single (.aOutput ⟨Vector.replicate 20 97⟩ _ rfl)).tail
    (.aOutput ⟨Vector.replicate 20 98⟩ _ rfl)).tail (.aInput (ackPkt 1))

theorem sampleSolo_waits : sampleSolo.timers = [0] ∧ sampleSolo.vars.a.pktnum = 2 ∧
    outOf .A ((students 2 default).aPacketTimeRinterrupt 0 sampleSolo.vars).2 =
      [dataPkt 0 (Vector.replicate 20 97)] := by
  decide +kernel

/-- Packet 0 was lost: its timeout sends it again as it was. -/
theorem selectiveRepeat_window_sampleSolo : ∃ t : Solo Vars,
    Solo.Step (students 2 default) sampleSolo t ∧ Windowed 2 sampleSolo ∧ Windowed 2 t ∧
    t.handed = sampleSolo.handed ++ [dataPkt 0 (Vector.replicate 20 97)] ∧
    t.first 0 = some (dataPkt 0 (Vector.replicate 20 97)) := by
  obtain ⟨htimers,-,hout⟩ := sampleSolo_waits
  have hst : Solo.Step (students 2 default) sampleSolo _ :=
    .interrupt 0 (show sampleSolo.timers = [] ++ 0 :: [] from htimers)
  have hhanded := congrArg (sampleSolo.handed ++ ·) hout
  obtain ⟨hw,hsends⟩ := selectiveRepeat_window sampleSolo_reach
  exact ⟨_,hst,hw,(selectiveRepeat_window (sampleSolo_reach.tail hst)).1,hhanded,
    (hsends _ hst _ hhanded _ List.mem_cons_self).1⟩

end Windowed

end NetworkLab.Sr
