import NetworkLab.Gbn.Cumulative
set_option autoImplicit false

/-! The single timer of Go-Back-N: A starts it when it sends the second packet of a window,
so it is missing behind the first one, and doubled when it runs already. -/

namespace NetworkLab.Gbn
open Rdt Relation

/-- One timer, that of `base`, runs while packets are outstanding, and none otherwise. -/
def SingleTimer (s : Solo Vars) : Prop :=
  (s.vars.base < s.vars.nextseqnum → s.timers = [(s.vars.base : Int)]) ∧
    (s.vars.base = s.vars.nextseqnum → s.timers = [])

/-- With so many packets outstanding, and a timer for them if there are any, sending this
many more leaves a wrong number of timers. -/
def Misfires (outstanding sent : Nat) : Prop :=
  outstanding = 0 ∧ sent = 1 ∨ outstanding = 1 ∧ 0 < sent

/-- A message goes out as the first or the second packet of the window, or `A_input` slides
and then sends out of the buffer so many that the timers come out wrong. -/
def Slips (W : Nat) (s t : Solo Vars) : Prop :=
  (∃ m, t.given = s.given ++ [m] ∧ s.vars.nextseqnum < s.vars.base + W ∧
    Misfires (s.vars.nextseqnum - s.vars.base) 1) ∨
  ∃ p, ∃ a : Nat, t.received = s.received ++ [(s.vars,p)] ∧ checkCorrupted p = false ∧
    p.acknum = a ∧ a ≠ 0 ∧ s.vars.base ≤ a ∧ a < s.vars.nextseqnum ∧
    Misfires (s.vars.nextseqnum - (a + 1))
      (min s.vars.msgNum (a + 1 + W - s.vars.nextseqnum))

section Timer
variable {W : Nat} {junk : Nat → Pkt} {s t : Solo Vars}

theorem timersAfter_aOutput (ts : List Int) (m : Msg) (v : Vars) :
    timersAfter ts (aOutput W m v).2 =
      ts ++ if v.nextseqnum < v.base + W ∧ v.nextseqnum = v.base + 1 then [(v.base : Int)]
        else [] := by
  rcases Nat.lt_or_ge v.nextseqnum (v.base + W) with hlt | hge
  · rw [aOutput_of_lt hlt]
    by_cases hone : v.nextseqnum = v.base + 1
    · have hb : (v.base : Int) = v.nextseqnum - 1 := by omega
      rw [if_pos hb,if_pos ⟨hlt,hone⟩]
      rfl
    · have hb : ¬(v.base : Int) = v.nextseqnum - 1 := by omega
      rw [if_neg hb,if_neg fun h => hone h.2]
      exact (List.append_nil ts).symm
  · rw [aOutput_of_ge hge,if_neg (by omega)]
    exact (List.append_nil ts).symm

theorem SingleTimer.aOutput (h : SingleTimer s) (hle : s.vars.base ≤ s.vars.nextseqnum)
    (m : Msg) (given : List Msg) :
    SingleTimer ({ s with given := given }.after (Gbn.aOutput W m s.vars)) ↔
      ¬(s.vars.nextseqnum < s.vars.base + W ∧
        Misfires (s.vars.nextseqnum - s.vars.base) 1) := by
  unfold SingleTimer Misfires
  simp only [Solo.after,timersAfter_aOutput,aOutput_base]
  rcases Nat.lt_or_ge s.vars.nextseqnum (s.vars.base + W) with hlt | hge
  · rw [aOutput_of_lt hlt]
    simp only
    rcases Nat.lt_or_eq_of_le hle with hout | hnone
    · rw [h.1 hout]
      by_cases hone : s.vars.nextseqnum = s.vars.base + 1
      · rw [if_pos ⟨hlt,hone⟩]
        simp
        omega
      · rw [if_neg fun h => hone h.2]
        simp
        omega
    · rw [h.2 hnone,if_neg (by omega)]
      simp
      omega
  · rw [aOutput_of_ge hge,if_neg (by omega),List.append_nil]
    exact iff_of_true h (by omega)

theorem SingleTimer.acceptAck (h : SingleTimer s) {a : Nat} (hlo : s.vars.base ≤ a)
    (hhi : a < s.vars.nextseqnum) (received : List (Vars × Pkt)) :
    SingleTimer ({ s with received := received }.after (Gbn.acceptAck W a s.vars)) ↔
      ¬Misfires (s.vars.nextseqnum - (a + 1))
        (min s.vars.msgNum (a + 1 + W - s.vars.nextseqnum)) := by
  generalize hk : min s.vars.msgNum (a + 1 + W - s.vars.nextseqnum) = k
  obtain ⟨hbase,hnext,-,hcalls⟩ := acceptAck_spec W a s.vars hk.symm
  have hlen : ((queued s.vars).take k).length = k := by
    rw [List.length_take,length_queued]
    omega
  have htimers : timersAfter s.timers (Gbn.acceptAck W a s.vars).2 =
      (if a + 1 < s.vars.nextseqnum then [((a + 1 : Nat) : Int)] else []) ++
        if s.vars.nextseqnum ≤ a + 1 + 1 ∧ a + 1 + 1 < s.vars.nextseqnum + k
          then [((a + 1 : Nat) : Int)] else [] := by
    have hstop : timersAfter s.timers [Call.stoptimeR s.vars.base] = [] := by
      rw [h.1 (Nat.lt_of_le_of_lt hlo hhi)]
      simp [timersAfter]
    rw [hcalls,timersAfter_append,timersAfter_sendCalls,hlen,← List.singleton_append,
      timersAfter_append,hstop]
    split <;> rfl
  unfold SingleTimer Misfires
  simp only [Solo.after,htimers,hbase,hnext]
  by_cases hout : a + 1 < s.vars.nextseqnum
  · rw [if_pos hout]
    by_cases hstart : s.vars.nextseqnum ≤ a + 1 + 1 ∧ a + 1 + 1 < s.vars.nextseqnum + k
    · rw [if_pos hstart]
      simp
      omega
    · rw [if_neg hstart]
      simp
      omega
  · rw [if_neg hout,List.nil_append]
    by_cases hstart : s.vars.nextseqnum ≤ a + 1 + 1 ∧ a + 1 + 1 < s.vars.nextseqnum + k
    · rw [if_pos hstart]
      simp
      omega
    · rw [if_neg hstart]
      simp
      omega

/-- A timer that fires is started again. -/
theorem SingleTimer.interrupt (h : SingleTimer s) (hle : s.vars.base ≤ s.vars.nextseqnum) {q : Int}
    {before after : List Int} (hq : s.timers = before ++ q :: after) :
    SingleTimer ({ s with timers := before ++ after }.after
      (aPacketTimeRinterrupt W q s.vars)) := by
  rcases Nat.lt_or_eq_of_le hle with hout | hnone
  · have hone := h.1 hout
    rw [hq] at hone
    obtain ⟨rfl,hrest⟩ := List.append_eq_singleton_iff.mp hone |>.resolve_right (by simp)
    obtain ⟨rfl,rfl⟩ := List.cons.inj hrest
    have hfire : aPacketTimeRinterrupt W s.vars.base s.vars =
        (s.vars,resendWindow W s.vars ++ [.starttimeR s.vars.base]) := if_neg (by simp)
    rw [hfire]
    refine ⟨fun _ => ?_,fun he => absurd he (Nat.ne_of_lt hout)⟩
    simp only [Solo.after,timersAfter_append,timersAfter_resendWindow]
    rfl
  · have hnil := h.2 hnone
    rw [hq] at hnil
    simp at hnil

/-- One step from a state in order: the next one is in order unless the step slips. -/
theorem SingleTimer.step (h : SingleTimer s) (hw : Window W s.vars s.handed)
    (hst : Solo.Step (students W junk) s t) : SingleTimer t ↔ ¬Slips W s t := by
  have hsame : ∀ {α : Type} {l : List α} {x : α}, l ≠ l ++ [x] := by
    intro α l x he
    have := congrArg List.length he
    simp at this
  cases hst with
  | aOutput m r hr =>
    obtain rfl := Option.some.inj hr
    rw [h.aOutput hw.base_le m]
    refine not_congr ⟨fun hslip => Or.inl ⟨m,rfl,hslip⟩,?_⟩
    rintro (⟨-,-,hslip⟩ | ⟨p,a,hp,-⟩)
    · exact hslip
    · exact absurd hp hsame
  | aInput p =>
    rcases aInput_cases W p s.vars with hr | ⟨a,hc,hpa,h0,hlo,hhi,hr⟩
    · simp only [students,hr]
      refine iff_of_true h ?_
      rintro (⟨m,he,-⟩ | ⟨q,a,hq,hc,hqa,h0,hlo,hhi,-⟩)
      · exact hsame he
      · obtain rfl : p = q := by simpa [Solo.after] using hq
        have hb := congrArg (fun r => r.1.base) (hr.symm.trans (aInput_of_ack hc hqa h0 hlo hhi))
        simp only [(acceptAck_winfront W _ _).2] at hb
        omega
    · simp only [students,hr]
      rw [h.acceptAck hlo hhi]
      refine not_congr ⟨fun hslip => Or.inr ⟨p,a,rfl,hc,hpa,h0,hlo,hhi,hslip⟩,?_⟩
      rintro (⟨m,he,-⟩ | ⟨q,a',hq,-,hqa,-,-,-,hslip⟩)
      · exact absurd he hsame
      · obtain rfl : p = q := by simpa [Solo.after] using hq
        obtain rfl : a = a' := by omega
        exact hslip
  | interrupt q hq =>
    refine iff_of_true (h.interrupt hw.base_le hq) ?_
    rintro (⟨m,he,-⟩ | ⟨p,a,hp,-⟩)
    · exact hsame he
    · exact hsame hp

/-- Once a single timer runs for the outstanding packets it stays so, in every run from
there, up to the first step that slips. -/
theorem goBackN_singleTimer (h : Solo.Reach (students W junk) s) (hs : SingleTimer s)
    (hrun : ReflTransGen (fun s t => Solo.Step (students W junk) s t ∧ ¬Slips W s t) s t) :
    SingleTimer t ∧ ∀ u, Solo.Step (students W junk) t u → (SingleTimer u ↔ ¬Slips W t u) := by
  have hinv : SingleTimer t ∧ Window W t.vars t.handed := by
    refine Machine.star_invariant (I := fun s : Solo Vars => SingleTimer s ∧
      Window W s.vars s.handed) ?_ hrun ⟨hs,window_of_reach h⟩
    rintro s t ⟨hst,hno⟩ ⟨hs,hw⟩
    exact ⟨(hs.step hw hst).mpr hno,hw.step hst⟩
  exact ⟨hinv.1,fun u hst => hinv.1.step hinv.2 hst⟩

/-- Two packets start the timer, the third keeps it. -/
theorem goBackN_singleTimer_three :
    ∃ s : Solo Vars, s.timers = [0] ∧ s.vars.nextseqnum = 3 ∧ SingleTimer s := by
  have h₁ : Solo.Reach (students 3 fun _ => default) _ :=
    ReflTransGen.single (.aOutput default _ rfl)
  have h₂ := h₁.tail (.aOutput default _ rfl)
  refine ⟨_,rfl,rfl,(goBackN_singleTimer h₂ ⟨fun _ => rfl,fun he => nomatch he⟩
    (ReflTransGen.single ⟨.aOutput default _ rfl,?_⟩)).1⟩
  rintro (⟨m,-,-,hmis⟩ | ⟨p,a,hp,-⟩)
  · rcases hmis with ⟨hnone,-⟩ | ⟨hone,-⟩
    · cases hnone
    · cases hone
  · cases hp

/-- A single packet is out, and no timer runs. -/
theorem not_goBackN_singleTimer_always :
    ¬∀ (W : Nat) (junk : Nat → Pkt) (s : Solo Vars), 0 < W →
      Solo.Reach (students W junk) s → SingleTimer s := by
  intro hall
  have h₁ : Solo.Reach (students 1 fun _ => default) _ :=
    ReflTransGen.single (.aOutput default _ rfl)
  have htimers := (hall 1 _ _ (by decide) h₁).1 (by decide)
  cases htimers

end Timer

end NetworkLab.Gbn
