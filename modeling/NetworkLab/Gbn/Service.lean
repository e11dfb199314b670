import NetworkLab.Rdt.Service
import NetworkLab.Gbn.Timer
set_option autoImplicit false

/-! Go-Back-N over any channel is a pipe, as long as no message that waits is overwritten. -/

namespace NetworkLab.Gbn
open Rdt Relation

/-- A step of the two ends and any channel in which no message that waits is overwritten. -/
def Keeps (W : Nat) (junk : Nat → Pkt) (s t : Soup Vars) : Prop :=
  Soup.Step (fun _ => True) (students W junk) s t ∧
  (s.given.length < t.given.length →
    ¬Overwrites W (t.given.getD s.given.length default) s.vars)

section Service
variable {W : Nat} {junk : Nat → Pkt} {s t : Soup Vars}

/-- What B has passed up are the messages that the packets were made of. -/
theorem Safe.inOrder (h : Safe W s) (hk : AllKept s) : Pipe.InOrder s.service := by
  have hlen := h.next_le_given
  have hle := h.expected_le
  have htaken : s.taken = (s.given.take s.vars.expectedSeqnum).map Msg.data := by
    refine List.ext_getElem? fun k => ?_
    rcases Nat.lt_or_ge k s.vars.expectedSeqnum with hlt | hge
    · obtain ⟨p,hp,hpk,ht⟩ := h.order k hlt
      have hpay := hk.packets p hp
      have hk' : p.seqnum.toNat = k := by omega
      have hg : k < s.given.length := by omega
      rw [ht,hpay,hk',List.getElem?_map,List.getElem?_take_of_lt hlt,
        List.getElem?_eq_getElem hg,List.getD_eq_getElem _ _ hg]
      rfl
    · rw [List.getElem?_eq_none (by rw [h.taken]; exact hge),List.getElem?_eq_none]
      rw [List.length_map,List.length_take]
      omega
  rw [Pipe.InOrder,Soup.service,htaken,List.map_take]
  exact List.take_prefix _ _

/-- Every state of such a run keeps all messages. -/
theorem keeps_run (h : ReflTransGen (Keeps W junk) s t) (hN : t.given.length < 999999)
    (hs : Safe W s ∧ Sending W s ∧ AllKept s) :
    (Safe W t ∧ Sending W t ∧ AllKept t) ∧ ReflTransGen Pipe.Step s.service t.service := by
  induction h with
  | refl => exact ⟨hs,ReflTransGen.refl⟩
  | tail _ hst ih =>
    have hN' := Nat.lt_of_le_of_lt (Soup.Step.given_le hst.1) hN
    obtain ⟨⟨hsafe,hsend,hkept⟩,hrun⟩ := ih hN'
    have hsafe' := hsafe.step hst.1 (Or.inr hN')
    obtain ⟨hsend',hiff⟩ := hsend.step hsafe hst.1
    have hkept' := hiff.mpr ⟨hkept,hst.2⟩
    exact ⟨⟨hsafe',hsend',hkept'⟩,hrun.trans (hst.1.service_run (hsafe'.inOrder hkept'))⟩

/-- Over a channel that loses, corrupts, repeats and reorders, every run that overwrites no
message is a run of the pipe. A run of at most a window and a buffer of messages is one. -/
theorem goBackN_pipe (W : Nat) (junk : Nat → Pkt) (s t : Soup Vars)
    (h : ReflTransGen (Keeps W junk) (Soup.init (students W junk)) s)
    (hst : ReflTransGen (Keeps W junk) s t) (hN : t.given.length < 999999) :
    (ReflTransGen Pipe.Step s.service t.service ∧ Pipe.InOrder t.service) ∧
    ∀ u, Soup.Step (fun _ => True) (students W junk) t u → u.given.length ≤ W + maxbufsize →
      Keeps W junk t u := by
  have hmono : s.given.length ≤ t.given.length := by
    clear hN
    induction hst with
    | refl => exact Nat.le_refl _
    | tail _ hr ih => exact ih.trans (Soup.Step.given_le hr.1)
  have hinit : Safe W (Soup.init (students W junk)) ∧ Sending W (Soup.init (students W junk)) ∧
      AllKept (Soup.init (students W junk)) :=
    ⟨safe_init W junk,sending_init W junk,fun _ hp => (nomatch hp),Slots.faithful_nil⟩
  obtain ⟨hs,hstart⟩ := keeps_run h (Nat.lt_of_le_of_lt hmono hN) hinit
  obtain ⟨ht,hrun⟩ := keeps_run hst hN hs
  refine ⟨⟨hrun,Pipe.inOrder_of_run (hstart.trans hrun)⟩,fun u hu hlen => ⟨hu,fun hlt ho => ?_⟩⟩
  have hcount := ht.1.count
  have hfull := ho.1
  have hbuf := ho.2.1
  omega

/-- Two messages, and the first packet received twice. -/
theorem sampleRun_keeps (m : Msg) (junk : Nat → Pkt) :
    ReflTransGen (Keeps 2 junk) (Soup.init (students 2 junk)) (sampleRun m junk) := by
  have hempty : ¬maxbufsize ≤ 0 := by decide
  have hsame : ∀ (s : Soup Vars) (r : Vars × List Call) (P : Prop),
      s.given.length < (s.perform r).given.length → P := by
    intro s r P hlt
    rw [(Soup.perform_eq s r).2.1] at hlt
    exact absurd hlt (Nat.lt_irrefl _)
  have h₁ : ReflTransGen (Keeps 2 junk) (Soup.init (students 2 junk)) _ :=
    ReflTransGen.single ⟨Soup.Step.submit m rfl,fun _ ho => hempty ho.2.1⟩
  have h₂ := h₁.tail ⟨Soup.Step.submit m rfl,fun _ ho => hempty (by
    have hfull := ho.2.1
    rw [(Soup.perform_eq _ _).1] at hfull
    exact hfull)⟩
  have h₃ := h₂.tail ⟨Soup.Step.recvB (dataPkt 0 m.data) ⟨_,List.Mem.head _,Or.inl rfl⟩,
    hsame _ _ _⟩
  refine h₃.tail ⟨Soup.Step.recvB (dataPkt 0 m.data)
    (Soup.arrives_iff.mpr ⟨dataPkt 0 m.data,?_,Or.inl rfl⟩),hsame _ _ _⟩
  rw [(Soup.perform_eq _ _).2.2.2.2]
  exact List.mem_append_left _ (Soup.mem_out.mpr (List.Mem.head _))

theorem goBackN_pipe_sampleRun :
    ReflTransGen Pipe.Step (Soup.init (students 2 default)).service
      (sampleRun default default).service ∧ Pipe.InOrder (sampleRun default default).service :=
  (goBackN_pipe 2 default _ (sampleRun default default) ReflTransGen.refl
    (sampleRun_keeps default default) (by
      have hg : (sampleRun default default).given = [default,default] := by
        unfold sampleRun
        rw [(Soup.perform_eq _ _).2.1,(Soup.perform_eq _ _).2.1,(Soup.perform_eq _ _).2.1]
      rw [hg]
      decide)).1

end Service

end NetworkLab.Gbn
