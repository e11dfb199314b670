import NetworkLab.Gbn.Protocol
import NetworkLab.Lib.Slots
set_option autoImplicit false

/-! The sender's window: what the circular `winbuf` holds, also when `winfront` is
out of step with `base`. -/

namespace NetworkLab.Gbn
open Rdt Slots

/-- `out` is what A has handed to layer 3 so far. Slot `k % W` holds packet `k` for
the last `W` packets. `winfront` stands at an `F` that may run ahead of `base`, which
happens only when the window has been full. -/
structure Window (W : Nat) (v : Vars) (out : List Pkt) : Prop where
  base_le : v.base ≤ v.nextseqnum
  next_le : v.nextseqnum ≤ v.base + W
  rear : v.winrear = v.nextseqnum % W
  front : ∃ F, v.winfront = F % W ∧ v.base ≤ F ∧ F ≤ v.nextseqnum ∧
    (F = v.base ∨ W ≤ v.nextseqnum ∧ 0 < v.base)
  slot : ∀ k < v.nextseqnum, v.nextseqnum ≤ k + W →
    v.winbuf (k % W) ∈ out ∧ (v.winbuf (k % W)).seqnum = k
  sent : ∀ k < v.nextseqnum, ∃ p ∈ out, p.seqnum = k
  made : ∀ p ∈ out, ∃ k < v.nextseqnum, p = dataPkt k p.payload
  once : ∀ p ∈ out, ∀ q ∈ out, p.seqnum = q.seqnum → p = q

theorem window_aInit (W : Nat) (junk : Nat → Pkt) : Window W (aInit junk) [] := by
  constructor <;> simp [aInit]

/-- The window does not look at the message buffer, at B, or at `pktnum`. -/
theorem Window.frame {W : Nat} {v v' : Vars} {out : List Pkt} (h : Window W v out)
    (hb : v'.base = v.base) (hn : v'.nextseqnum = v.nextseqnum) (hw : v'.winbuf = v.winbuf)
    (hf : v'.winfront = v.winfront) (hr : v'.winrear = v.winrear) : Window W v' out := by
  constructor
  · rw [hb,hn]; exact h.base_le
  · rw [hb,hn]; exact h.next_le
  · rw [hr,hn]; exact h.rear
  · rw [hf,hb,hn]; exact h.front
  · rw [hn,hw]; exact h.slot
  · rw [hn]; exact h.sent
  · rw [hn]; exact h.made
  · exact h.once

theorem Window.resent {W : Nat} {v : Vars} {out ps : List Pkt} (h : Window W v out)
    (hps : ∀ p ∈ ps, p ∈ out) : Window W v (out ++ ps) := by
  have hmem : ∀ p, p ∈ out ++ ps → p ∈ out := by
    intro p hp
    rcases List.mem_append.mp hp with hp | hp
    · exact hp
    · exact hps p hp
  constructor
  · exact h.base_le
  · exact h.next_le
  · exact h.rear
  · exact h.front
  · intro k hk hkW
    exact ⟨List.mem_append_left _ (h.slot k hk hkW).1,(h.slot k hk hkW).2⟩
  · intro k hk
    obtain ⟨p,hp,he⟩ := h.sent k hk
    exact ⟨p,List.mem_append_left _ hp,he⟩
  · exact fun p hp => h.made p (hmem p hp)
  · exact fun p hp q hq => h.once p (hmem p hp) q (hmem q hq)

/-! `A_output` in an open window, and in a full one. -/

theorem aOutput_of_lt {W : Nat} {m : Msg} {v : Vars} (h : v.nextseqnum < v.base + W) :
    aOutput W m v =
      ({ v with winbuf := Function.update v.winbuf v.winrear (dataPkt v.nextseqnum m.data)
                winrear := (v.winrear + 1) % W
                pktnum := v.pktnum + 1
                nextseqnum := v.nextseqnum + 1 },
        .tolayer3 .A (dataPkt v.nextseqnum m.data) ::
          if (v.base : Int) = v.nextseqnum - 1 then [.starttimeR v.base] else []) := by
  simp [aOutput,h]

theorem aOutput_of_ge {W : Nat} {m : Msg} {v : Vars} (h : v.base + W ≤ v.nextseqnum) :
    aOutput W m v =
      ({ v with buffer := Function.update v.buffer v.bufrear m
                bufrear := (v.bufrear + 1) % maxbufsize
                msgNum := v.msgNum + 1 }, []) := by
  simp [aOutput,Nat.not_lt.mpr h]

theorem outOf_aOutput_of_lt {W : Nat} {m : Msg} {v : Vars}
    (h : v.nextseqnum < v.base + W) :
    outOf .A (aOutput W m v).2 = [dataPkt v.nextseqnum m.data] := by
  simp [aOutput_of_lt h]

theorem Window.aOutput {W : Nat} {m : Msg} {v : Vars} {out : List Pkt}
    (h : Window W v out) :
    Window W (aOutput W m v).1 (out ++ outOf .A (aOutput W m v).2) := by
  rcases Nat.lt_or_ge v.nextseqnum (v.base + W) with hlt | hge
  · rw [outOf_aOutput_of_lt hlt,aOutput_of_lt hlt]
    have hnew : ∀ p ∈ out, p.seqnum ≠ (v.nextseqnum : Int) := by
      intro p hp he
      obtain ⟨k,hk,hpk⟩ := h.made p hp
      rw [hpk,dataPkt_seqnum] at he
      omega
    constructor
    · have := h.base_le
      simp only
      omega
    · simp only
      omega
    · simp only [h.rear]
      exact slot_succ _ _
    · obtain ⟨F,hF,hb,hn,hor⟩ := h.front
      exact ⟨F,hF,hb,Nat.le_succ_of_le hn,hor.imp_right fun ho => ⟨Nat.le_succ_of_le ho.1,ho.2⟩⟩
    · intro k hk hkW
      simp only [h.rear]
      rcases Nat.lt_or_eq_of_le (Nat.le_of_lt_succ hk) with hk | rfl
      · have hne : k % W ≠ v.nextseqnum % W := slot_ne hk (by simp only at hkW; omega)
        obtain ⟨hs,hq⟩ := h.slot k hk (by simp only at hkW; omega)
        rw [Function.update_of_ne hne]
        exact ⟨List.mem_append_left _ hs,hq⟩
      · simp
    · intro k hk
      rcases Nat.lt_or_eq_of_le (Nat.le_of_lt_succ hk) with hk | rfl
      · obtain ⟨p,hp,he⟩ := h.sent k hk
        exact ⟨p,List.mem_append_left _ hp,he⟩
      · exact ⟨_,List.mem_append_right _ (List.mem_singleton_self _),rfl⟩
    · intro p hp
      rcases List.mem_append.mp hp with hp | hp
      · obtain ⟨k,hk,hpk⟩ := h.made p hp
        exact ⟨k,Nat.lt_succ_of_lt hk,hpk⟩
      · rw [List.mem_singleton.mp hp]
        exact ⟨v.nextseqnum,Nat.lt_succ_self _,rfl⟩
    · intro p hp q hq he
      rcases List.mem_append.mp hp with hp | hp <;> rcases List.mem_append.mp hq with hq | hq
      · exact h.once p hp q hq he
      · rw [List.mem_singleton.mp hq] at he
        exact absurd he (hnew p hp)
      · rw [List.mem_singleton.mp hp] at he
        exact absurd he.symm (hnew q hq)
      · rw [List.mem_singleton.mp hp,List.mem_singleton.mp hq]
  · rw [aOutput_of_ge hge]
    simp only [outOf_nil,List.append_nil]
    exact h.frame rfl rfl rfl rfl rfl

/-! The pop loop of `A_input`. -/

/-- With `winfront` on `winrear` the loop does nothing, be the window empty or full. -/
theorem popAcked_of_eq {W fuel : Nat} {v : Vars} (h : v.winfront = v.winrear) :
    popAcked W fuel v = v := by
  cases fuel <;> simp [popAcked,h]

theorem popAcked_of_lt {W F : Nat} (fuel : Nat) {v : Vars} (hf : v.winfront = F % W)
    (hr : v.winrear = v.nextseqnum % W) (hFn : F ≤ v.nextseqnum) (hnF : v.nextseqnum < F + W)
    (hb : v.base ≤ v.nextseqnum) (hfuel : v.base - F ≤ fuel)
    (hslot : ∀ k, F ≤ k → k < v.nextseqnum → (v.winbuf (k % W)).seqnum = k) :
    popAcked W fuel v =
      { v with winfront := max F v.base % W
               pktnum := v.pktnum - (max F v.base - F : Nat) } := by
  induction fuel generalizing F v with
  | zero =>
    have hm : max F v.base = F := by omega
    simp [popAcked,hm,← hf]
  | succ fuel ih =>
    by_cases hgo : F < v.base
    · have hF : F < v.nextseqnum := by omega
      have hne : v.winfront ≠ v.winrear := by
        rw [hf,hr]
        exact slot_ne hF hnF
      have hs : (v.winbuf v.winfront).seqnum < v.base := by
        rw [hf,hslot F (Nat.le_refl _) hF]
        omega
      rw [popAcked,if_pos ⟨hne,hs⟩,ih (F := F+1)]
      · have hm : max (F+1) v.base = max F v.base := by omega
        have hp : v.pktnum - 1 - (max F v.base - (F+1) : Nat) =
            v.pktnum - (max F v.base - F : Nat) := by omega
        simp only [hm,hp]
      · simp only [hf]
        exact slot_succ _ _
      · exact hr
      · exact hF
      · simp only
        omega
      · exact hb
      · simp only
        omega
      · exact fun k hk hkn => hslot k (by omega) hkn
    · have hm : max F v.base = F := by omega
      have hstop : ¬(v.winfront ≠ v.winrear ∧ (v.winbuf v.winfront).seqnum < v.base) := by
        rintro ⟨hne,hs⟩
        have hF : F < v.nextseqnum := by
          rcases Nat.lt_or_eq_of_le hFn with hlt | heq
          · exact hlt
          · rw [hf,hr,heq] at hne
            exact absurd rfl hne
        rw [hf,hslot F (Nat.le_refl _) hF] at hs
        omega
      rw [popAcked,if_neg hstop]
      simp [hm,← hf]

/-- Sliding `base` keeps the window: a full one leaves `winfront` where `nextseqnum`
will be written, any other takes `winfront` along. -/
theorem Window.slide {W b : Nat} {v : Vars} {out : List Pkt} (h : Window W v out)
    (hlo : v.base < b) (hhi : b ≤ v.nextseqnum) :
    Window W (popAcked W W { v with base := b }) out ∧
    (popAcked W W { v with base := b }).base = b ∧
    (popAcked W W { v with base := b }).nextseqnum = v.nextseqnum := by
  obtain ⟨F,hf,hbF,hFn,hor⟩ := h.front
  have hnb := h.next_le
  rcases Nat.lt_or_ge v.nextseqnum (F + W) with hlt | hge
  · have hpop := popAcked_of_lt (W := W) (F := F) W (v := { v with base := b })
      hf h.rear hFn hlt hhi (by simp only; omega)
      (fun k hk hkn => (h.slot k hkn (by simp only at hkn; omega)).2)
    rw [hpop]
    refine ⟨?_,rfl,rfl⟩
    constructor
    · exact hhi
    · simp only
      omega
    · exact h.rear
    · refine ⟨max F b,rfl,Nat.le_max_right _ _,by simp only; omega,?_⟩
      rcases Nat.le_total F b with hle | hle
      · exact Or.inl (Nat.max_eq_right hle)
      · rcases hor with rfl | ho
        · omega
        · exact Or.inr ⟨ho.1,by simp only; omega⟩
    · exact h.slot
    · exact h.sent
    · exact h.made
    · exact h.once
  · have hn : v.nextseqnum = F + W := by omega
    have heq : v.winfront = v.winrear := by rw [hf,h.rear,hn,Nat.add_mod_right]
    rw [popAcked_of_eq (v := { v with base := b }) heq]
    refine ⟨?_,rfl,rfl⟩
    constructor
    · exact hhi
    · simp only
      omega
    · exact h.rear
    · exact ⟨v.nextseqnum,heq.trans h.rear,hhi,Nat.le_refl _,
        Or.inr ⟨by simp only; omega,by simp only; omega⟩⟩
    · exact h.slot
    · exact h.sent
    · exact h.made
    · exact h.once

/-! The drain loop, and `A_input` as a whole. -/

@[simp] theorem aOutput_base (W : Nat) (m : Msg) (v : Vars) :
    (aOutput W m v).1.base = v.base := by
  simp only [aOutput]
  split <;> rfl

@[simp] theorem aOutput_expectedSeqnum (W : Nat) (m : Msg) (v : Vars) :
    (aOutput W m v).1.expectedSeqnum = v.expectedSeqnum := by
  simp only [aOutput]
  split <;> rfl

@[simp] theorem outOf_B_aOutput (W : Nat) (m : Msg) (v : Vars) :
    outOf .B (aOutput W m v).2 = [] := by
  unfold aOutput
  split <;> simp

@[simp] theorem takenOf_aOutput (W : Nat) (m : Msg) (v : Vars) :
    takenOf (aOutput W m v).2 = [] := by
  unfold aOutput
  split <;> simp

theorem sendBuffered_of_not {W fuel : Nat} {v : Vars}
    (h : ¬(0 < v.msgNum ∧ v.nextseqnum < v.base + W)) : sendBuffered W fuel v = (v,[]) := by
  cases fuel <;> simp [sendBuffered,h]

/-- The drain loop ends with an empty buffer or a full window. -/
theorem sendBuffered_full (W : Nat) {fuel : Nat} {v : Vars} (hfuel : v.msgNum ≤ fuel) :
    0 < (sendBuffered W fuel v).1.msgNum →
      (sendBuffered W fuel v).1.base + W ≤ (sendBuffered W fuel v).1.nextseqnum := by
  induction fuel generalizing v with
  | zero =>
    simp only [sendBuffered]
    omega
  | succ fuel ih =>
    by_cases hgo : 0 < v.msgNum ∧ v.nextseqnum < v.base + W
    · simp only [sendBuffered,if_pos hgo]
      refine ih ?_
      rw [aOutput_of_lt (v := dropBuffered v) hgo.2]
      simp only [dropBuffered]
      omega
    · rw [sendBuffered_of_not hgo]
      simp only
      omega

/-- What every round of the drain loop keeps, the whole loop keeps. -/
theorem sendBuffered_induct {W : Nat} {P : Vars → List Call → Prop}
    (hround : ∀ v cs, 0 < v.msgNum → v.nextseqnum < v.base + W → P v cs →
      P (aOutput W (v.buffer v.buffront) (dropBuffered v)).1
        (cs ++ (aOutput W (v.buffer v.buffront) (dropBuffered v)).2))
    (fuel : Nat) (v : Vars) (cs : List Call) (h : P v cs) :
    P (sendBuffered W fuel v).1 (cs ++ (sendBuffered W fuel v).2) := by
  induction fuel generalizing v cs with
  | zero => simpa [sendBuffered] using h
  | succ fuel ih =>
    by_cases hgo : 0 < v.msgNum ∧ v.nextseqnum < v.base + W
    · have hnext := ih _ _ (hround v cs hgo.1 hgo.2 h)
      simp only [sendBuffered,if_pos hgo]
      rwa [← List.append_assoc]
    · rw [sendBuffered_of_not hgo]
      simpa using h

theorem Window.sendBuffered {W : Nat} (fuel : Nat) {v : Vars} {out : List Pkt}
    (h : Window W v out) :
    Window W (sendBuffered W fuel v).1 (out ++ outOf .A (sendBuffered W fuel v).2) := by
  have := sendBuffered_induct (W := W) (P := fun v cs => Window W v (out ++ outOf .A cs))
    (fun v cs _ _ hw => by
      rw [outOf_append,← List.append_assoc]
      exact Window.aOutput (hw.frame rfl rfl rfl rfl rfl))
    fuel v [] (by simpa using h)
  simpa using this

@[simp] theorem dropBuffered_frame (v : Vars) :
    (dropBuffered v).base = v.base ∧ (dropBuffered v).nextseqnum = v.nextseqnum ∧
    (dropBuffered v).expectedSeqnum = v.expectedSeqnum ∧
    (dropBuffered v).msgNum = v.msgNum - 1 := ⟨rfl,rfl,rfl,rfl⟩

theorem aOutput_next_le (W : Nat) (m : Msg) (v : Vars) :
    v.nextseqnum ≤ (aOutput W m v).1.nextseqnum := by
  unfold aOutput
  split <;> simp

/-- The drain loop only sends: `base` and B stay, nothing goes to layer 5. -/
theorem sendBuffered_frame (W fuel : Nat) (v : Vars) :
    (sendBuffered W fuel v).1.base = v.base ∧
    (sendBuffered W fuel v).1.expectedSeqnum = v.expectedSeqnum ∧
    v.nextseqnum ≤ (sendBuffered W fuel v).1.nextseqnum ∧
    outOf .B (sendBuffered W fuel v).2 = [] ∧ takenOf (sendBuffered W fuel v).2 = [] := by
  have := sendBuffered_induct (W := W)
    (P := fun v' cs => v'.base = v.base ∧ v'.expectedSeqnum = v.expectedSeqnum ∧
      v.nextseqnum ≤ v'.nextseqnum ∧ outOf .B cs = [] ∧ takenOf cs = [])
    (fun v' cs _ _ hp => by
      obtain ⟨h₁,h₂,h₃,h₄,h₅⟩ := hp
      have hle := aOutput_next_le W (v'.buffer v'.buffront) (dropBuffered v')
      simp only [dropBuffered_frame] at hle
      simp [h₁,h₂,h₄,h₅,h₃.trans hle])
    fuel v [] ⟨rfl,rfl,Nat.le_refl _,rfl,rfl⟩
  simpa using this

/-- `A_input` ignores its packet, or it is an acknowledgement inside the window. -/
theorem aInput_cases (W : Nat) (p : Pkt) (v : Vars) :
    aInput W p v = (v,[]) ∨
    ∃ a : Nat, checkCorrupted p = false ∧ p.acknum = a ∧ a ≠ 0 ∧ v.base ≤ a ∧
      a < v.nextseqnum ∧ aInput W p v = acceptAck W a v := by
  unfold aInput
  by_cases hc : checkCorrupted p = true
  · simp [hc]
  · by_cases h0 : p.acknum = notused
    · simp [hc,h0]
    · by_cases hr : (v.base : Int) ≤ p.acknum ∧ p.acknum < v.nextseqnum
      · refine Or.inr ⟨p.acknum.toNat,by simpa using hc,by omega,?_,by omega,by omega,?_⟩
        · unfold notused at h0
          omega
        · have ha : ((p.acknum.toNat : Nat) : Int) = p.acknum := by omega
          simp only [hc,h0,if_pos hr,ha]
          simp
      · simp [hc,h0,hr]

/-- The acceptance test of `A_input`: 0 is not an acknowledgement. -/
theorem aInput_of_ack {W a : Nat} {p : Pkt} {v : Vars} (hc : checkCorrupted p = false)
    (hpa : p.acknum = a) (h0 : a ≠ 0) (hlo : v.base ≤ a) (hhi : a < v.nextseqnum) :
    aInput W p v = acceptAck W a v := by
  have h0' : p.acknum ≠ notused := by
    unfold notused
    omega
  have hr : (v.base : Int) ≤ p.acknum ∧ p.acknum < v.nextseqnum := by omega
  rw [aInput,if_neg (by simp [hc]),if_neg h0',if_pos hr,hpa]

/-- The state of A_input between its two loops. -/
def slid (W a : Nat) (v : Vars) : Vars := popAcked W W { v with base := a + 1 }

theorem acceptAck_eq (W a : Nat) (v : Vars) :
    acceptAck W a v =
      ((sendBuffered W (slid W a v).msgNum (slid W a v)).1,
        .stoptimeR v.base ::
          (if (slid W a v).base < (slid W a v).nextseqnum
            then [Call.starttimeR (slid W a v).base] else []) ++
          (sendBuffered W (slid W a v).msgNum (slid W a v)).2) := by
  have ha : ((a : Int) + 1).toNat = a + 1 := by omega
  simp only [acceptAck,ha]
  rfl

theorem popAcked_frame (W fuel : Nat) (v : Vars) :
    (popAcked W fuel v).expectedSeqnum = v.expectedSeqnum ∧
    (popAcked W fuel v).base = v.base ∧ (popAcked W fuel v).nextseqnum = v.nextseqnum ∧
    (popAcked W fuel v).msgNum = v.msgNum ∧ (popAcked W fuel v).buffer = v.buffer ∧
    (popAcked W fuel v).buffront = v.buffront ∧ (popAcked W fuel v).bufrear = v.bufrear := by
  induction fuel generalizing v with
  | zero => simp [popAcked]
  | succ fuel ih =>
    simp only [popAcked]
    split
    · simpa using ih _
    · simp

/-- `popAcked` leaves the messages alone. -/
theorem slid_frame (W a : Nat) (v : Vars) :
    (slid W a v).base = a + 1 ∧ (slid W a v).nextseqnum = v.nextseqnum ∧
    (slid W a v).msgNum = v.msgNum ∧ (slid W a v).buffer = v.buffer ∧
    (slid W a v).buffront = v.buffront ∧ (slid W a v).bufrear = v.bufrear :=
  (popAcked_frame W W { v with base := a + 1 }).2

theorem Window.acceptAck {W a : Nat} {v : Vars} {out : List Pkt} (h : Window W v out)
    (hlo : v.base ≤ a) (hhi : a < v.nextseqnum) :
    Window W (acceptAck W a v).1 (out ++ outOf .A (acceptAck W a v).2) := by
  have hs : Window W (slid W a v) out := (h.slide (b := a + 1) (by omega) (by omega)).1
  have hd := hs.sendBuffered (slid W a v).msgNum
  rw [acceptAck_eq]
  simpa using hd

/-! The timeout. -/

@[simp] theorem outOf_resendWindow (W : Nat) (v : Vars) :
    outOf .A (resendWindow W v) =
      (List.range (v.nextseqnum - v.base)).map
        fun i => v.winbuf ((v.winfront + i) % W) := by
  simp [outOf,resendWindow,List.filterMap_map]

theorem timersAfter_resendWindow (W : Nat) (v : Vars) (ts : List Int) :
    timersAfter ts (resendWindow W v) = ts := by
  unfold resendWindow
  induction List.range (v.nextseqnum - v.base) with
  | nil => rfl
  | cons i is ih => exact ih

/-- Every slot that a timeout reads holds a packet sent before, in the right place or
one round too old. -/
theorem Window.mem_resend {W : Nat} {v : Vars} {out : List Pkt} (h : Window W v out) :
    ∀ p ∈ outOf .A (resendWindow W v), p ∈ out := by
  intro p hp
  rw [outOf_resendWindow] at hp
  obtain ⟨i,hi,rfl⟩ := List.mem_map.mp hp
  rw [List.mem_range] at hi
  obtain ⟨F,hf,hbF,hFn,hor⟩ := h.front
  have hnb := h.next_le
  rw [hf,slot_add]
  rcases Nat.lt_or_ge (F + i) v.nextseqnum with hlt | hge
  · exact (h.slot (F + i) hlt (by omega)).1
  · have hW : W ≤ F + i := by omega
    rw [← slot_back hW]
    exact (h.slot (F + i - W) (by omega) (by omega)).1

end NetworkLab.Gbn
