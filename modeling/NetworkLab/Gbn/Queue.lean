import NetworkLab.Gbn.Cumulative
import NetworkLab.Gbn.Timer
set_option autoImplicit false

/-! The messages between layer 5 and the packets: the buffer keeps their order and their
number, and what they carry until one is overwritten. -/

namespace NetworkLab.Gbn
open Rdt Slots Relation

/-- Every message that was submitted is a packet or waits in the buffer, in its place. -/
structure LosesNothing (W : Nat) (s : Solo Vars) : Prop where
  count : s.vars.nextseqnum + s.vars.msgNum = s.given.length
  packets : ∀ k < s.vars.nextseqnum,
    (s.first k).map Pkt.payload = s.given[k]?.map Msg.data
  waiting : queued s.vars = s.given.drop s.vars.nextseqnum
  full : 0 < s.vars.msgNum → s.vars.nextseqnum = s.vars.base + W

/-- Layer 5 submits a message when the window is full, the buffer is as well, and what
stands where the message goes is something else. -/
def Overflows (W : Nat) (s t : Solo Vars) : Prop :=
  ∃ m, t.given = s.given ++ [m] ∧ Overwrites W m s.vars

/-- What every reachable state has: the order and the number, also behind an overflow. -/
structure Feeding (W : Nat) (s : Solo Vars) : Prop where
  window : Window W s.vars s.handed
  fed : Fed s.vars s.given
  full : 0 < s.vars.msgNum → s.vars.base + W ≤ s.vars.nextseqnum

section Queue
variable {W : Nat} {junk : Nat → Pkt} {s t : Solo Vars}

theorem readBuffer_eq_iff {buffer : Nat → Msg} {front : Nat} (hfront : front < maxbufsize)
    (l : List Msg) :
    readBuffer buffer front l.length = l ↔ Faithful Msg.data buffer maxbufsize front l := by
  induction l generalizing front with
  | nil => exact iff_of_true rfl faithful_nil
  | cons m l ih =>
    have hdata : buffer front = m ↔ (buffer front).data = m.data :=
      ⟨congrArg Msg.data,fun h => by
        cases hb : buffer front
        rw [hb] at h
        exact congrArg Msg.mk h⟩
    rw [faithful_pop hfront,← ih (Nat.mod_lt _ (by decide)),← hdata]
    exact List.cons_eq_cons

theorem Feeding.losesNothing_iff (h : Feeding W s) :
    LosesNothing W s ↔ Kept s.vars s.given s.handed := by
  have hcount := h.fed.count
  have hlen := h.fed.drop_length
  have hwait : queued s.vars = s.given.drop s.vars.nextseqnum ↔
      Faithful Msg.data s.vars.buffer maxbufsize s.vars.buffront
        (s.given.drop s.vars.nextseqnum) := by
    rw [← readBuffer_eq_iff h.fed.written.front_lt,hlen]
    rfl
  have hfirst : ∀ k < s.vars.nextseqnum, ∀ p ∈ s.handed, p.seqnum = k → s.first k = some p :=
    fun k _ p hp hk => Solo.first_of_mem hp hk fun q hq hqk =>
      h.window.once q hq p hp (hqk.trans hk.symm)
  constructor
  · intro hl
    refine ⟨fun p hp => ?_,hwait.mp hl.waiting⟩
    obtain ⟨k,hk,he⟩ := h.window.made p hp
    have hpk : p.seqnum = k := by rw [he,dataPkt_seqnum]
    have hpay := hl.packets k hk
    rw [hfirst k hk p hp hpk,List.getElem?_eq_getElem (by omega)] at hpay
    have hk' : p.seqnum.toNat = k := by omega
    rw [hk',List.getD_eq_getElem _ _ (by omega)]
    exact Option.some.inj hpay
  · intro hk
    refine ⟨hcount,fun k hlt => ?_,hwait.mpr hk.waiting,fun hmsg => ?_⟩
    · obtain ⟨p,hp,hpk⟩ := h.window.sent k hlt
      have hpay := hk.packets p hp
      have hk' : p.seqnum.toNat = k := by omega
      rw [hk',List.getD_eq_getElem _ _ (by omega)] at hpay
      rw [hfirst k hlt p hp hpk,List.getElem?_eq_getElem (by omega)]
      exact congrArg some hpay
    · exact Nat.le_antisymm h.window.next_le (h.full hmsg)

theorem feeding_start (W : Nat) (junk : Nat → Pkt) :
    Feeding W (Solo.start (students W junk)) :=
  ⟨window_aInit W junk,⟨rfl,written_nil (Nat.zero_lt_succ _)⟩,fun h => nomatch h⟩

/-- The step lemma of this module. -/
theorem Feeding.step (h : Feeding W s) (hst : Solo.Step (students W junk) s t) :
    Feeding W t ∧ (Kept t.vars t.given t.handed ↔
      Kept s.vars s.given s.handed ∧ ¬Overflows W s t) := by
  have hw := h.window.step hst
  have hsame : ∀ {u : Solo Vars}, u.given = s.given →
      (Kept u.vars u.given u.handed ↔ Kept s.vars s.given s.handed) →
      (Kept u.vars u.given u.handed ↔ Kept s.vars s.given s.handed ∧ ¬Overflows W s u) := by
    refine fun he hk => hk.trans (and_iff_left ?_).symm
    rintro ⟨m,hm,-⟩
    have := congrArg List.length (he.symm.trans hm)
    simp at this
  cases hst with
  | aOutput m r hr =>
    obtain rfl := Option.some.inj hr
    have hover : Overflows W s ({ s with given := s.given ++ [m] }.after (aOutput W m s.vars)) ↔
        Overwrites W m s.vars := by
      constructor
      · rintro ⟨m',hm,ho⟩
        obtain rfl : m = m' := by simpa [Solo.after] using hm
        exact ho
      · exact fun ho => ⟨m,rfl,ho⟩
    refine ⟨⟨hw,h.fed.submit h.full m,full_aOutput h.full⟩,?_⟩
    rw [hover]
    exact h.fed.kept_submit h.full h.window m
  | aInput p =>
    rcases aInput_cases W p s.vars with hr | ⟨a,-,-,-,-,-,hr⟩
    · simp only [students,hr] at hw ⊢
      exact ⟨⟨hw,h.fed,h.full⟩,hsame rfl (by simp [Solo.after])⟩
    · simp only [students,hr] at hw ⊢
      obtain ⟨hf,hk⟩ := h.fed.acceptAck W s.handed a
      refine ⟨⟨hw,hf,?_⟩,hsame rfl hk⟩
      simp only [Solo.after,acceptAck_eq]
      exact sendBuffered_full W (Nat.le_refl _)
  | interrupt q hq =>
    refine ⟨⟨hw,?_,?_⟩,hsame rfl ?_⟩
    all_goals simp only [Solo.after,students,aPacketTimeRinterrupt]; split
    · exact h.fed
    · exact h.fed
    · exact h.full
    · exact h.full
    · simp
    · have hmem : ∀ p ∈ outOf .A (resendWindow W s.vars ++ [.starttimeR s.vars.base]),
          p ∈ s.handed := fun p hp => h.window.mem_resend p (by simpa using hp)
      constructor
      · exact fun hk => ⟨fun p hp => hk.packets p (List.mem_append_left _ hp),hk.waiting⟩
      · refine fun hk => ⟨fun p hp => hk.packets p ?_,hk.waiting⟩
        exact (List.mem_append.mp hp).elim id (hmem p)

theorem feeding_of_reach (h : Solo.Reach (students W junk) s) : Feeding W s :=
  Machine.star_invariant (I := Feeding W) (fun _ _ hst hf => (hf.step hst).1) h
    (feeding_start W junk)

/-- From the start nothing is lost until a submission overflows the buffer. Whatever the run
before it, a step keeps all messages if none was lost and it does not overflow. -/
theorem goBackN_losesNothing (W : Nat) (junk : Nat → Pkt) :
    (∀ s, ReflTransGen (fun s t => Solo.Step (students W junk) s t ∧ ¬Overflows W s t)
      (Solo.start (students W junk)) s → LosesNothing W s) ∧
    ∀ s t, Solo.Reach (students W junk) s → Solo.Step (students W junk) s t →
      (LosesNothing W t ↔ LosesNothing W s ∧ ¬Overflows W s t) := by
  have hstep : ∀ s t, Feeding W s → Solo.Step (students W junk) s t →
      Feeding W t ∧ (LosesNothing W t ↔ LosesNothing W s ∧ ¬Overflows W s t) := by
    intro s t hf hst
    obtain ⟨ht,hk⟩ := hf.step hst
    exact ⟨ht,by rw [ht.losesNothing_iff,hf.losesNothing_iff,hk]⟩
  refine ⟨fun s hrun => ?_,fun s t h hst => (hstep s t (feeding_of_reach h) hst).2⟩
  have hinv : Feeding W s ∧ LosesNothing W s := by
    refine Machine.star_invariant (I := fun s => Feeding W s ∧ LosesNothing W s) ?_ hrun ?_
    · rintro s t ⟨hst,hno⟩ ⟨hf,hl⟩
      obtain ⟨ht,hiff⟩ := hstep s t hf hst
      exact ⟨ht,hiff.mpr ⟨hl,hno⟩⟩
    · have hf := feeding_start W junk
      exact ⟨hf,hf.losesNothing_iff.mpr ⟨fun _ h => (nomatch h),faithful_nil⟩⟩
  exact hinv.2

/-- The first message is a packet, the second waits. -/
theorem goBackN_losesNothing_two :
    ∃ s : Solo Vars, s.vars.nextseqnum = 1 ∧ s.vars.msgNum = 1 ∧ LosesNothing 1 s := by
  have hno : ∀ {s : Solo Vars} {m : Msg} {r : Vars × List Call}, s.vars.msgNum < maxbufsize →
      ¬Overflows 1 s ({ s with given := s.given ++ [m] }.after r) := by
    rintro s m r hlt ⟨m',-,-,hge,-⟩
    omega
  have h₁ : ReflTransGen (fun s t => Solo.Step (students 1 fun _ => default) s t ∧
      ¬Overflows 1 s t) (Solo.start (students 1 fun _ => default)) _ :=
    ReflTransGen.single ⟨.aOutput default _ rfl,hno (by decide)⟩
  have h₂ := h₁.tail ⟨.aOutput default _ rfl,hno (by decide)⟩
  exact ⟨_,rfl,rfl,(goBackN_losesNothing 1 fun _ => default).1 _ h₂⟩

/-- So many equal messages without an acknowledgement. -/
theorem flood_reach (W : Nat) (junk : Nat → Pkt) (m : Msg) (n : Nat) :
    ∃ s : Solo Vars, Solo.Reach (students W junk) s ∧ s.given = List.replicate n m ∧
      s.vars.base = 0 := by
  induction n with
  | zero => exact ⟨_,ReflTransGen.refl,rfl,rfl⟩
  | succ n ih =>
    obtain ⟨s,h,hg,hb⟩ := ih
    refine ⟨_,h.tail (.aOutput m _ rfl),?_,?_⟩
    · rw [List.replicate_succ',← hg]
      rfl
    · exact (aOutput_base W m s.vars).trans hb

/-- One packet of a full window and a full buffer of `a`s, and then a message of `b`s. -/
theorem not_goBackN_losesNothing_always :
    ¬∀ (W : Nat) (junk : Nat → Pkt) (s : Solo Vars), 0 < W →
      Solo.Reach (students W junk) s → LosesNothing W s := by
  intro hall
  obtain ⟨s,h,hg,hb⟩ := flood_reach 1 (fun _ => default) ⟨Vector.replicate 20 97⟩ 5001
  have hf := feeding_of_reach h
  have hlen : s.given.length = 5001 := by rw [hg,List.length_replicate]
  have hcount := hf.fed.count
  have hnext := hf.window.next_le
  have hfull := hf.full (by omega)
  have hn : s.vars.nextseqnum = 1 := by omega
  have hwritten := hf.fed.written
  have hdrop : (s.given.drop s.vars.nextseqnum).length = 5000 := by
    rw [List.length_drop,hlen,hn]
  have hrear := hwritten.rear_back (by rw [hdrop]; decide)
  have hslot := hwritten.holds 0 (by omega) (by rw [hdrop]; decide)
  rw [hdrop] at hrear
  have hdata : s.vars.buffer s.vars.bufrear = ⟨Vector.replicate 20 97⟩ := by
    rw [hrear]
    refine hslot.trans (List.eq_of_mem_replicate (n := 5001) ?_)
    rw [← hg]
    exact List.mem_of_mem_drop (List.getElem_mem _)
  have hst : Solo.Step (students 1 fun _ => default) s _ :=
    .aOutput ⟨Vector.replicate 20 98⟩ _ rfl
  obtain ⟨ht,hkept⟩ := hf.step hst
  have hkeeps := ht.losesNothing_iff.mp (hall 1 _ _ (by decide) (h.tail hst))
  refine (hkept.mp hkeeps).2 ⟨_,rfl,?_,?_,?_⟩
  · omega
  · have : maxbufsize = 5000 := rfl
    omega
  · rw [hdata]
    decide

end Queue

end NetworkLab.Gbn
