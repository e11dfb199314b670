import NetworkLab.Gbn.Solo
set_option autoImplicit false

/-! What an acknowledgement does: how far `A_input` slides, and which messages it takes out
of the buffer. -/

namespace NetworkLab.Gbn
open Rdt

/-- `n` messages of the circular buffer from `front` on, read as the drain loop reads. -/
def readBuffer (buffer : Nat → Msg) : Nat → Nat → List Msg
  | _, 0 => []
  | front, n+1 => buffer front :: readBuffer buffer ((front + 1) % maxbufsize) n

/-- The messages that wait, the oldest first. -/
def queued (v : Vars) : List Msg := readBuffer v.buffer v.buffront v.msgNum

/-- The calls with which messages go out as the packets from `n` on. -/
def sendCalls (base : Nat) : Nat → List Msg → List Call
  | _, [] => []
  | n, m :: ms =>
    (.tolayer3 .A (dataPkt n m.data) ::
      if (base : Int) = n - 1 then [.starttimeR base] else []) ++ sendCalls base (n + 1) ms

/-- How many messages the drain loop sends. -/
def drains (W : Nat) (v : Vars) : Nat := min v.msgNum (v.base + W - v.nextseqnum)

section Drain
variable {W : Nat} {v : Vars}

theorem queued_cons (h : 0 < v.msgNum) :
    queued v = v.buffer v.buffront :: queued (dropBuffered v) := by
  obtain ⟨n,hn⟩ := Nat.exists_eq_add_of_lt h
  have hn' : v.msgNum = n + 1 := by omega
  rw [queued,hn',readBuffer,queued]
  simp [dropBuffered,hn']

@[simp] theorem length_queued (v : Vars) : (queued v).length = v.msgNum := by
  unfold queued
  generalize v.buffront = front
  induction v.msgNum generalizing front with
  | zero => rfl
  | succ n ih => exact congrArg (· + 1) (ih _)

@[simp] theorem outOf_sendCalls (base n : Nat) (ms : List Msg) :
    outOf .A (sendCalls base n ms) = ms.mapIdx fun i m => dataPkt (n + i : Nat) m.data := by
  induction ms generalizing n with
  | nil => rfl
  | cons m ms ih =>
    rw [sendCalls,outOf_append,outOf_tolayer3,if_pos rfl,outOf_ite_timer,ih,List.mapIdx_cons]
    simp [Nat.add_assoc,Nat.add_comm 1]

/-- Of the packets that go out only packet `base + 1` starts a timer. -/
theorem timersAfter_sendCalls (ts : List Int) (base n : Nat) (ms : List Msg) :
    timersAfter ts (sendCalls base n ms) =
      ts ++ if n ≤ base + 1 ∧ base + 1 < n + ms.length then [(base : Int)] else [] := by
  induction ms generalizing n ts with
  | nil =>
    rw [if_neg (by simp only [List.length_nil]; omega)]
    exact (List.append_nil ts).symm
  | cons m ms ih =>
    rw [sendCalls,timersAfter_append,ih]
    by_cases hn : n = base + 1
    · subst hn
      simp [timersAfter]
    · have h₁ : ¬(base : Int) = n - 1 := by omega
      have h₂ : (n + 1 ≤ base + 1 ∧ base + 1 < n + 1 + ms.length) ↔
          (n ≤ base + 1 ∧ base + 1 < n + (m :: ms).length) := by
        rw [List.length_cons]
        omega
      rw [if_neg h₁,if_congr h₂ rfl rfl]
      rfl

/-- The drain loop sends the oldest messages, as many as the window has room for. -/
theorem sendBuffered_eq {fuel : Nat} (hfuel : v.msgNum ≤ fuel) :
    (sendBuffered W fuel v).1.nextseqnum = v.nextseqnum + drains W v ∧
    queued (sendBuffered W fuel v).1 = (queued v).drop (drains W v) ∧
    (sendBuffered W fuel v).2 =
      sendCalls v.base v.nextseqnum ((queued v).take (drains W v)) := by
  induction fuel generalizing v with
  | zero =>
    have h0 : drains W v = 0 := by
      unfold drains
      omega
    rw [h0]
    exact ⟨rfl,rfl,rfl⟩
  | succ fuel ih =>
    by_cases hgo : 0 < v.msgNum ∧ v.nextseqnum < v.base + W
    · have hone := aOutput_of_lt (v := dropBuffered v) (m := v.buffer v.buffront) hgo.2
      have hd : drains W v = drains W (aOutput W (v.buffer v.buffront) (dropBuffered v)).1 + 1 := by
        rw [hone]
        simp only [drains,dropBuffered]
        omega
      have hq : queued (aOutput W (v.buffer v.buffront) (dropBuffered v)).1 =
          queued (dropBuffered v) := by
        rw [hone]
        rfl
      have hn : (aOutput W (v.buffer v.buffront) (dropBuffered v)).1.nextseqnum =
          v.nextseqnum + 1 := by
        rw [hone]
        rfl
      obtain ⟨hnext,hdrop,hcalls⟩ := ih (v := (aOutput W (v.buffer v.buffront) (dropBuffered v)).1)
        (by rw [hone]; simp only [dropBuffered]; omega)
      rw [aOutput_base] at hcalls
      simp only [sendBuffered,if_pos hgo]
      rw [hnext,hdrop,hcalls,hq,hn,hd,queued_cons hgo.1]
      refine ⟨by omega,rfl,?_⟩
      rw [List.take_succ_cons,sendCalls,hone]
      rfl
    · have h0 : drains W v = 0 := by
        unfold drains
        omega
      rw [sendBuffered_of_not hgo,h0]
      exact ⟨rfl,rfl,rfl⟩

/-- `A_input` behind the acceptance test, as one step. -/
theorem acceptAck_spec (W a : Nat) (v : Vars) {k : Nat}
    (hk : k = min v.msgNum (a + 1 + W - v.nextseqnum)) :
    (acceptAck W a v).1.base = a + 1 ∧
    (acceptAck W a v).1.nextseqnum = v.nextseqnum + k ∧
    queued (acceptAck W a v).1 = (queued v).drop k ∧
    (acceptAck W a v).2 =
      .stoptimeR v.base :: (if a + 1 < v.nextseqnum then [.starttimeR (a + 1 : Nat)] else []) ++
        sendCalls (a + 1) v.nextseqnum ((queued v).take k) := by
  obtain ⟨hb,hn,hm,hbuf,hfront,-⟩ := slid_frame W a v
  have hq : queued (slid W a v) = queued v := by simp only [queued,hm,hbuf,hfront]
  have hd : drains W (slid W a v) = k := by rw [drains,hb,hn,hm,hk]
  obtain ⟨hnext,hdrop,hcalls⟩ := sendBuffered_eq (W := W) (v := slid W a v) (Nat.le_refl _)
  rw [hd] at hnext hdrop hcalls
  rw [acceptAck_eq]
  refine ⟨(sendBuffered_frame _ _ _).1.trans hb,hnext.trans (by rw [hn]),hdrop.trans (by rw [hq]),?_⟩
  rw [hcalls,hb,hn,hq]

end Drain

/-- An acknowledgement inside the window slides `base` behind it and takes the oldest
messages out of the buffer, as many as there is room for, which become the next packets. Any
other one does nothing. -/
structure Cumulative (W : Nat) (p : Pkt) (v : Vars) : Prop where
  inside : v.base ≤ p.acknum → p.acknum < v.nextseqnum →
    ((aInput W p v).1.base : Int) = p.acknum + 1 ∧
    ∃ k : Nat, (k : Int) = min (v.msgNum : Int) (p.acknum + 1 + W - v.nextseqnum) ∧
      (aInput W p v).1.nextseqnum = v.nextseqnum + k ∧
      queued (aInput W p v).1 = (queued v).drop k ∧
      outOf .A (aInput W p v).2 =
        ((queued v).take k).mapIdx fun i m => dataPkt (v.nextseqnum + i : Nat) m.data
  outside : ¬(v.base ≤ p.acknum ∧ p.acknum < v.nextseqnum) → aInput W p v = (v,[])

section Acks
variable {W : Nat} {junk : Nat → Pkt} {s : Solo Vars} {p : Pkt}

theorem window_of_reach (h : Solo.Reach (students W junk) s) : Window W s.vars s.handed :=
  Machine.star_invariant (I := fun s : Solo Vars => Window W s.vars s.handed)
    (fun _ _ hst hw => Window.step hw hst) h (window_aInit W junk)

theorem Window.cumulative (h : Window W s.vars s.handed) (hc : checkCorrupted p = false)
    (h0 : p.acknum ≠ notused) : Cumulative W p s.vars := by
  refine ⟨fun hlo hhi => ?_,fun hout => ?_⟩
  · obtain ⟨a,ha⟩ : ∃ a : Nat, p.acknum = a := ⟨p.acknum.toNat,by omega⟩
    have hne : a ≠ 0 := by
      rintro rfl
      exact h0 ha
    have hnext := h.next_le
    obtain ⟨hbase,hn,hq,hcalls⟩ := acceptAck_spec W a s.vars rfl
    rw [aInput_of_ack hc ha hne (by omega) (by omega)]
    refine ⟨by omega,_,?_,hn,hq,?_⟩
    · omega
    · rw [hcalls]
      simp
  · rw [aInput,if_neg (by simp [hc]),if_neg h0,if_neg hout]

/-- An acknowledgement works as described unless it is for packet 0 and A waits for it: its
number is the one that says that there is none. -/
theorem cumulative_iff (h : Solo.Reach (students W junk) s) (hc : checkCorrupted p = false) :
    Cumulative W p s.vars ↔ ¬(p.acknum = 0 ∧ s.vars.base = 0 ∧ 0 < s.vars.nextseqnum) := by
  by_cases h0 : p.acknum = notused
  · have hignored : aInput W p s.vars = (s.vars,[]) := by
      rw [aInput,if_neg (by simp [hc]),if_pos h0]
    constructor
    · rintro hcum ⟨hp,hb,hn⟩
      have hslid := (hcum.inside (by omega) (by omega)).1
      rw [hignored] at hslid
      simp only at hslid
      omega
    · intro hno
      unfold notused at h0
      exact ⟨fun hlo hhi => absurd ⟨h0,by omega,by omega⟩ hno,fun _ => hignored⟩
  · exact iff_of_true ((window_of_reach h).cumulative hc h0) fun hz => h0 hz.1

/-- Three messages for a window of two, and both packets are acknowledged. -/
theorem cumulative_iff_full :
    ∃ s : Solo Vars, s.vars.nextseqnum = 2 ∧ s.vars.msgNum = 1 ∧ Cumulative 2 (ackPkt 1) s.vars := by
  have h₁ : Solo.Reach (students 2 fun _ => default) _ :=
    Relation.ReflTransGen.single (.aOutput default _ rfl)
  have h₂ := h₁.tail (.aOutput default _ rfl)
  have h₃ := h₂.tail (.aOutput default _ rfl)
  exact ⟨_,rfl,rfl,(cumulative_iff h₃ (checkCorrupted_ackPkt 1)).mpr (by decide)⟩

/-- A single packet is out, and its acknowledgement changes nothing. -/
theorem not_cumulative_always :
    ¬∀ (W : Nat) (junk : Nat → Pkt) (s : Solo Vars) (p : Pkt), 0 < W →
      Solo.Reach (students W junk) s → checkCorrupted p = false → Cumulative W p s.vars := by
  intro hall
  have h₁ : Solo.Reach (students 1 fun _ => default) _ :=
    Relation.ReflTransGen.single (.aOutput default _ rfl)
  have hcum := hall 1 _ _ (ackPkt 0) (by decide) h₁ (checkCorrupted_ackPkt 0)
  have hslid := (hcum.inside (by decide) (by decide)).1
  exact absurd hslid (by decide +kernel)

end Acks

end NetworkLab.Gbn
