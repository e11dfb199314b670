import NetworkLab.Rdt.Solo
import NetworkLab.Gbn.Window
set_option autoImplicit false

/-! The sender alone: what a timeout of packet `base` resends, and which acknowledgements
bring `winfront` out of step with `base`. -/

namespace NetworkLab.Gbn
open Rdt Slots

/-- If the timer of packet `base` fires, the packets from `base` to `nextseqnum - 1` are
handed to layer 3 in order, each as it was the first time. -/
def ResendsWindow (W : Nat) (s : Solo Vars) : Prop :=
  ∀ before after, s.timers = before ++ (s.vars.base : Int) :: after →
    (outOf .A (aPacketTimeRinterrupt W s.vars.base s.vars).2).map some =
      (List.range (s.vars.nextseqnum - s.vars.base)).map fun i =>
        s.first (s.vars.base + i : Nat)

/-- `A_input` accepts an acknowledgement while `W` packets are outstanding, and it leaves
some of them outstanding. -/
def Overruns (W : Nat) (s t : Solo Vars) : Prop :=
  ∃ p, t.received = s.received ++ [(s.vars,p)] ∧ checkCorrupted p = false ∧
    p.acknum ≠ notused ∧ s.vars.nextseqnum = s.vars.base + W ∧
    s.vars.base ≤ p.acknum ∧ p.acknum + 1 < s.vars.nextseqnum

/-- A run in which no acknowledgement overruns a full window. -/
def CarefulReach (W : Nat) (junk : Nat → Pkt) : Solo Vars → Prop :=
  Relation.ReflTransGen (fun s t => Solo.Step (students W junk) s t ∧ ¬Overruns W s t)
    (Solo.start (students W junk))

section Timeout
variable {W : Nat} {junk : Nat → Pkt} {v : Vars} {out : List Pkt} {s t : Solo Vars}

theorem Window.first (h : Window W s.vars s.handed) {k : Nat} (hk : k < s.vars.nextseqnum)
    (hkW : s.vars.nextseqnum ≤ k + W) : s.first k = some (s.vars.winbuf (k % W)) := by
  obtain ⟨hmem,hseq⟩ := h.slot k hk hkW
  exact Solo.first_of_mem hmem hseq fun q hq hqk => h.once q hq _ hmem (hqk.trans hseq.symm)

/-- Out of step, the slot at `winfront` holds another packet than `base`. -/
theorem Window.seqnum_front (h : Window W v out) (hlt : v.base < v.nextseqnum)
    (hf : v.winfront ≠ v.base % W) : (v.winbuf v.winfront).seqnum ≠ v.base := by
  obtain ⟨F,hF,hbF,hFn,hor⟩ := h.front
  have hnext := h.next_le
  have hne : F ≠ v.base := by
    rintro rfl
    exact hf hF
  have hW : W ≤ v.nextseqnum := by omega
  rw [hF]
  rcases Nat.lt_or_eq_of_le hFn with hFlt | rfl
  · rw [(h.slot F hFlt (by omega)).2]
    omega
  · rw [← slot_back hW] at hF ⊢
    rw [(h.slot (v.nextseqnum - W) (by omega) (by omega)).2]
    intro he
    have : v.nextseqnum - W = v.base := by omega
    rw [this] at hF
    exact hf hF

/-- The timeout resends the right packets as long as `winfront` is in step. -/
theorem Window.resendsWindow (h : Window W s.vars s.handed)
    (hf : s.vars.winfront = s.vars.base % W) : ResendsWindow W s := by
  intro before after _
  have hnext := h.next_le
  simp only [aPacketTimeRinterrupt,ne_eq,not_true_eq_false,if_false,outOf_append,
    outOf_resendWindow,outOf_starttimeR,outOf_nil,List.append_nil,List.map_map]
  refine List.map_congr_left fun i hi => ?_
  rw [List.mem_range] at hi
  rw [h.first (k := s.vars.base + i) (by omega) (by omega),hf,← slot_add s.vars.base i W]
  rfl

theorem Window.not_resendsWindow (h : Window W s.vars s.handed)
    (hlt : s.vars.base < s.vars.nextseqnum) (hf : s.vars.winfront ≠ s.vars.base % W)
    (hmem : (s.vars.base : Int) ∈ s.timers) : ¬ResendsWindow W s := by
  intro hr
  obtain ⟨before,after,hq⟩ := List.append_of_mem hmem
  have he := hr before after hq
  have hnext := h.next_le
  obtain ⟨n,hn⟩ := Nat.exists_eq_add_of_lt hlt
  have hn' : s.vars.nextseqnum - s.vars.base = n + 1 := by omega
  simp only [aPacketTimeRinterrupt,ne_eq,not_true_eq_false,if_false,outOf_append,
    outOf_resendWindow,outOf_starttimeR,outOf_nil,List.append_nil,List.map_map,hn',
    List.range_succ_eq_map,List.map_cons,Nat.add_zero,List.cons.injEq] at he
  obtain ⟨F,hF,-⟩ := h.front
  have hmod : s.vars.winfront % W = s.vars.winfront := by rw [hF,Nat.mod_mod]
  rw [h.first hlt (by omega),hmod,Option.some.injEq] at he
  have hseq := (h.slot s.vars.base hlt (by omega)).2
  rw [← he.1] at hseq
  exact h.seqnum_front hlt hf hseq

/-! Where the pop loop leaves `winfront`. -/

/-- In a full window the loop of `A_input` does nothing, in any other it takes `winfront`
along. -/
theorem Window.slid_winfront (h : Window W v out) (hf : v.winfront = v.base % W) {a : Nat}
    (hlo : v.base ≤ a) (hhi : a < v.nextseqnum) :
    (slid W a v).winfront =
      if v.nextseqnum = v.base + W then v.nextseqnum % W else (a + 1) % W := by
  have hnext := h.next_le
  by_cases hfull : v.nextseqnum = v.base + W
  · have heq : v.winfront = v.winrear := by rw [hf,h.rear,hfull,Nat.add_mod_right]
    rw [if_pos hfull,slid,popAcked_of_eq (v := { v with base := a + 1 }) heq]
    exact heq.trans h.rear
  · have hpop := popAcked_of_lt (F := v.base) W (v := { v with base := a + 1 }) hf h.rear
      h.base_le (by simp only; omega) (by simp only; omega) (by simp only; omega)
      (fun k hk hkn => (h.slot k hkn (by simp only at hkn; omega)).2)
    have hmax : max v.base (a + 1) = a + 1 := by omega
    rw [if_neg hfull,slid,hpop]
    simp only [hmax]

theorem sendBuffered_winfront (W fuel : Nat) (v : Vars) :
    (sendBuffered W fuel v).1.winfront = v.winfront := by
  have := sendBuffered_induct (W := W) (P := fun v' _ => v'.winfront = v.winfront)
    (fun v' _ _ hlt he => by
      rw [aOutput_of_lt (v := dropBuffered v') hlt]
      exact he)
    fuel v [] rfl
  simpa using this

theorem acceptAck_winfront (W a : Nat) (v : Vars) :
    (acceptAck W a v).1.winfront = (slid W a v).winfront ∧
    (acceptAck W a v).1.base = a + 1 := by
  rw [acceptAck_eq,sendBuffered_winfront,(sendBuffered_frame _ _ _).1,(slid_frame W a v).1]
  exact ⟨rfl,rfl⟩

theorem Window.acceptAck_aligned (h : Window W v out) (hf : v.winfront = v.base % W) {a : Nat}
    (hlo : v.base ≤ a) (hhi : a < v.nextseqnum) :
    (Gbn.acceptAck W a v).1.winfront = (Gbn.acceptAck W a v).1.base % W ↔
      ¬(v.nextseqnum = v.base + W ∧ a + 1 < v.nextseqnum) := by
  obtain ⟨hw,hb⟩ := acceptAck_winfront W a v
  rw [hw,hb,h.slid_winfront hf hlo hhi]
  by_cases hfull : v.nextseqnum = v.base + W
  · rw [if_pos hfull]
    constructor
    · rintro he ⟨-,hlt⟩
      exact slot_ne hlt (by omega) he.symm
    · intro hno
      have : a + 1 = v.nextseqnum := by omega
      rw [this]
  · simp [hfull]

/-- The timer that `A_input` starts is not stopped by the packets it sends then. -/
theorem mem_timersAfter_sendBuffered (W fuel : Nat) (v : Vars) {ts : List Int} {q : Int}
    (hq : q ∈ ts) : q ∈ timersAfter ts (sendBuffered W fuel v).2 := by
  have := sendBuffered_induct (W := W) (P := fun _ cs => q ∈ timersAfter ts cs)
    (fun v' cs _ hlt hmem => by
      rw [timersAfter_append,aOutput_of_lt (v := dropBuffered v') hlt]
      by_cases hb : (v'.base : Int) = v'.nextseqnum - 1
      · simp [dropBuffered,hb,timersAfter] at hmem ⊢
        exact Or.inl hmem
      · simpa [dropBuffered,hb,timersAfter] using hmem)
    fuel v [] hq
  simpa using this

theorem mem_timersAfter_acceptAck {a : Nat} {ts : List Int} (hlt : a + 1 < v.nextseqnum) :
    ((acceptAck W a v).1.base : Int) ∈ timersAfter ts (acceptAck W a v).2 := by
  rw [(acceptAck_winfront W a v).2,acceptAck_eq]
  obtain ⟨hb,hn,-⟩ := slid_frame W a v
  rw [timersAfter_append]
  refine mem_timersAfter_sendBuffered W _ _ ?_
  simp [timersAfter,hb,hn,hlt]

/-! The runs. -/

theorem Window.step (h : Window W s.vars s.handed) (hst : Solo.Step (students W junk) s t) :
    Window W t.vars t.handed := by
  cases hst with
  | aOutput m r hr =>
    obtain rfl := Option.some.inj hr
    exact h.aOutput
  | aInput p =>
    rcases aInput_cases W p s.vars with hr | ⟨a,-,-,-,hlo,hhi,hr⟩
    · simp only [Solo.after,students,hr,outOf_nil,List.append_nil]
      exact h
    · simp only [Solo.after,students,hr]
      exact h.acceptAck hlo hhi
  | interrupt q hq =>
    simp only [Solo.after,students,aPacketTimeRinterrupt]
    split
    · simpa using h
    · simp only [outOf_append,outOf_starttimeR,outOf_nil,List.append_nil]
      exact h.resent h.mem_resend

/-- In step, a step either keeps `winfront` in step or overruns the window. -/
theorem Window.step_aligned (h : Window W s.vars s.handed)
    (hf : s.vars.winfront = s.vars.base % W) (hst : Solo.Step (students W junk) s t) :
    ¬Overruns W s t ∧ t.vars.winfront = t.vars.base % W ∨
    Overruns W s t ∧ t.vars.winfront ≠ t.vars.base % W ∧ t.vars.base < t.vars.nextseqnum ∧
      (t.vars.base : Int) ∈ t.timers := by
  have hquiet : t.received = s.received → ¬Overruns W s t := by
    rintro he ⟨p,hp,-⟩
    have := congrArg List.length (he.symm.trans hp)
    simp at this
  cases hst with
  | aOutput m r hr =>
    obtain rfl := Option.some.inj hr
    refine Or.inl ⟨hquiet rfl,?_⟩
    simp only [Solo.after,aOutput_base]
    rcases Nat.lt_or_ge s.vars.nextseqnum (s.vars.base + W) with hlt | hge
    · rw [aOutput_of_lt hlt]
      exact hf
    · rw [aOutput_of_ge hge]
      exact hf
  | aInput p =>
    have hp : ∀ q, s.received ++ [(s.vars,p)] = s.received ++ [(s.vars,q)] → p = q := by
      intro q hq
      simpa using List.append_cancel_left hq
    rcases aInput_cases W p s.vars with hr | ⟨a,hc,hpa,h0,hlo,hhi,hr⟩
    · refine Or.inl ⟨?_,?_⟩
      · rintro ⟨q,hq,hc,h0,-,hlo,hhi⟩
        obtain rfl := hp q hq
        have hpa : p.acknum = (p.acknum.toNat : Nat) := by omega
        have hne : p.acknum ≠ 0 := h0
        have hacc := aInput_of_ack (W := W) (v := s.vars) hc hpa (by omega) (by omega) (by omega)
        have hb := congrArg (fun r => r.1.base) (hr.symm.trans hacc)
        simp only [(acceptAck_winfront W _ _).2] at hb
        omega
      · simp only [Solo.after,students,hr]
        exact hf
    · have hal := h.acceptAck_aligned hf hlo hhi
      have hov : Overruns W s ({ s with received := s.received ++ [(s.vars,p)] }.after
          ((students W junk).aInput p s.vars)) ↔
          s.vars.nextseqnum = s.vars.base + W ∧ a + 1 < s.vars.nextseqnum := by
        constructor
        · rintro ⟨q,hq,-,-,hfull,-,hlt⟩
          obtain rfl := hp q hq
          exact ⟨hfull,by omega⟩
        · rintro ⟨hfull,hlt⟩
          exact ⟨p,rfl,hc,by unfold notused; omega,hfull,by omega,by omega⟩
      rw [hov]
      simp only [Solo.after,students,hr]
      by_cases ho : s.vars.nextseqnum = s.vars.base + W ∧ a + 1 < s.vars.nextseqnum
      · have hle := (sendBuffered_frame W (slid W a s.vars).msgNum (slid W a s.vars)).2.2.1
        have hn := (slid_frame W a s.vars).2.1
        refine Or.inr ⟨ho,fun he => hal.mp he ho,?_,mem_timersAfter_acceptAck ho.2⟩
        rw [(acceptAck_winfront W a s.vars).2,acceptAck_eq]
        exact Nat.lt_of_lt_of_le ho.2 (hn ▸ hle)
      · exact Or.inl ⟨ho,hal.mpr ho⟩
  | interrupt q hq =>
    refine Or.inl ⟨hquiet rfl,?_⟩
    simp only [Solo.after,students,aPacketTimeRinterrupt]
    split <;> exact hf

theorem CarefulReach.aligned (h : CarefulReach W junk s) :
    Window W s.vars s.handed ∧ s.vars.winfront = s.vars.base % W := by
  refine Machine.star_invariant (I := fun s : Solo Vars => Window W s.vars s.handed ∧
    s.vars.winfront = s.vars.base % W) ?_ h ⟨window_aInit W junk,(Nat.zero_mod W).symm⟩
  rintro s t ⟨hst,hno⟩ ⟨hw,hf⟩
  refine ⟨hw.step hst,?_⟩
  rcases hw.step_aligned hf hst with ⟨-,hf⟩ | ⟨ho,-⟩
  · exact hf
  · exact absurd ho hno

/-- As long as no acknowledgement overruns a full window, a timeout resends exactly the
outstanding packets; the first one that does makes the next timeout resend others. -/
theorem goBackN_timeout (h : CarefulReach W junk s) :
    ResendsWindow W s ∧
      ∀ t, Solo.Step (students W junk) s t → (ResendsWindow W t ↔ ¬Overruns W s t) := by
  obtain ⟨hw,hf⟩ := h.aligned
  refine ⟨hw.resendsWindow hf,fun t hst => ?_⟩
  have ht := hw.step hst
  rcases hw.step_aligned hf hst with ⟨hno,hft⟩ | ⟨ho,hft,hlt,hmem⟩
  · exact iff_of_true (ht.resendsWindow hft) hno
  · exact iff_of_false (ht.not_resendsWindow hlt hft hmem) (not_not.mpr ho)

/-- Two packets of a window of three are out. -/
theorem goBackN_timeout_sampleRun :
    ∃ s : Solo Vars, s.timers = [0] ∧ s.vars.nextseqnum = 2 ∧ ResendsWindow 3 s := by
  have hquiet : ∀ {s t : Solo Vars}, t.received = s.received → ¬Overruns 3 s t := by
    rintro s t he ⟨p,hp,-⟩
    have := congrArg List.length (he.symm.trans hp)
    simp at this
  have h₁ : CarefulReach 3 (fun _ => default) _ :=
    Relation.ReflTransGen.single ⟨.aOutput default _ rfl,hquiet rfl⟩
  have h₂ : CarefulReach 3 (fun _ => default) _ := h₁.tail ⟨.aOutput default _ rfl,hquiet rfl⟩
  exact ⟨_,rfl,rfl,(goBackN_timeout h₂).1⟩

/-- Three packets fill a window of three; the acknowledgement of the second one leaves
`winfront` behind, and the timeout of packet 2 resends packet 0. -/
theorem not_goBackN_timeout_always :
    ¬∀ (W : Nat) (junk : Nat → Pkt) (s : Solo Vars), 0 < W →
      Solo.Reach (students W junk) s → ResendsWindow W s := by
  intro hall
  have h₁ : Solo.Reach (students 3 fun _ => default) _ :=
    Relation.ReflTransGen.single (.aOutput default _ rfl)
  have h₂ := h₁.tail (.aOutput default _ rfl)
  have h₃ := h₂.tail (.aOutput default _ rfl)
  have h₄ := h₃.tail (.aInput (ackPkt 1))
  have hr := hall 3 _ _ (by decide) h₄ [] [] (by decide +kernel)
  exact absurd (congrArg (List.map (Option.map Pkt.seqnum)) hr) (by decide +kernel)

end Timeout

end NetworkLab.Gbn
