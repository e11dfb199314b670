import NetworkLab.Rdt.Handed
set_option autoImplicit false

/-! The statistics of Section I, beside the network. Nothing but `print_info` reads them. -/

namespace NetworkLab.Rdt
open Relation

structure Stats where
  ackAdvNum : Nat
  packetLost : Nat
  packetCorrupt : Nat
  packetSent : Nat
  packetCorrect : Int
  packetResent : Nat
  packetTimeOut : Nat
  packetReceieve : Nat
  deriving DecidableEq, Repr

def Stats.zero : Stats :=
  { ackAdvNum := 0, packetLost := 0, packetCorrupt := 0, packetSent := 0, packetCorrect := 0,
    packetResent := 0, packetTimeOut := 0, packetReceieve := 0 }

/-- What each function of a file adds to the statistics. -/
structure Counting (σ : Type) where
  aOutput : σ → Stats → Stats
  aInput : Pkt → σ → Stats → Stats
  aPacketTimeRinterrupt : Int → σ → Stats → Stats
  bInput : Pkt → σ → Stats → Stats
  tolayer3 : Fate → Stats → Stats

/-- `packet_correct = packet_receieve;` The five numbers are printed behind it. -/
def printInfo (k : Stats) : Stats := { k with packetCorrect := k.packetReceieve }

section Counts
variable {σ : Type} (pattern : Nat → Fate) (students : Students σ) (counting : Counting σ)

/-- What a list of calls of `tolayer3` adds. -/
def Counting.tolayer3s (hs : List (Entity × Pkt × Fate)) (k : Stats) : Stats :=
  hs.foldl (fun k h => counting.tolayer3 h.2.2 k) k

/-- One event of the network with its statistics. -/
inductive Counts : Net σ × Stats → Net σ × Stats → Prop where
  | submit {s : Net σ} {k : Stats} {r : σ × List Call} (m : Msg) :
      students.aOutput m s.vars = some r →
      Counts (s,k) (Net.perform pattern { s with given := s.given ++ [m] } r,
        counting.tolayer3s (fated pattern s.cp r.2) (counting.aOutput s.vars k))
  | recvA {s : Net σ} {k : Stats} (p : Pkt) (rest : List Pkt) : s.toA = p :: rest →
      Counts (s,k) (Net.perform pattern { s with toA := rest } (students.aInput p s.vars),
        counting.tolayer3s (fated pattern s.cp (students.aInput p s.vars).2)
          (counting.aInput p s.vars k))
  | recvB {s : Net σ} {k : Stats} (p : Pkt) (rest : List Pkt) : s.toB = p :: rest →
      Counts (s,k) (Net.perform pattern { s with toB := rest } (students.bInput p s.vars),
        counting.tolayer3s (fated pattern s.cp (students.bInput p s.vars).2)
          (counting.bInput p s.vars k))
  | fire {s : Net σ} {k : Stats} (q : Int) (before after : List Int) :
      s.timers = before ++ q :: after →
      Counts (s,k) (Net.perform pattern { s with timers := before ++ after }
          (students.aPacketTimeRinterrupt q s.vars),
        counting.tolayer3s (fated pattern s.cp (students.aPacketTimeRinterrupt q s.vars).2)
          (counting.aPacketTimeRinterrupt q s.vars k))

variable {pattern} {students} {counting} {s t : Net σ} {k k' : Stats}

theorem Counts.step (h : Counts pattern students counting (s,k) (t,k')) :
    Net.Step pattern students s t := by
  cases h with
  | submit m hm => exact .submit m hm
  | recvA p rest hp => exact .recvA p rest hp
  | recvB p rest hp => exact .recvB p rest hp
  | fire q before after hq => exact .fire q before after hq

/-- Every event is counted. -/
theorem exists_counts (h : Net.Step pattern students s t) (k : Stats) :
    ∃ k', Counts pattern students counting (s,k) (t,k') := by
  cases h with
  | submit m hm => exact ⟨_,.submit m hm⟩
  | recvA p rest hp => exact ⟨_,.recvA p rest hp⟩
  | recvB p rest hp => exact ⟨_,.recvB p rest hp⟩
  | fire q before after hq => exact ⟨_,.fire q before after hq⟩

variable (counting) in
/-- So every run has its statistics. -/
theorem counted_of_reachable (h : Net.Reachable pattern students s) :
    ∃ k, ReflTransGen (Counts pattern students counting) (Net.init students,Stats.zero) (s,k) := by
  induction h with
  | refl => exact ⟨Stats.zero,ReflTransGen.refl⟩
  | tail _ hst ih =>
    obtain ⟨k,hk⟩ := ih
    obtain ⟨k',hk'⟩ := exists_counts hst k
    exact ⟨k',hk.tail hk'⟩

/-- A counted run is a run, and keeps what every counted event keeps. -/
theorem counts_run {P : Net σ → Stats → Prop} (h0 : P (Net.init students) Stats.zero)
    (hstep : ∀ s k t k', P s k → Counts pattern students counting (s,k) (t,k') → P t k')
    (h : ReflTransGen (Counts pattern students counting) (Net.init students,Stats.zero) (s,k)) :
    Net.Reachable pattern students s ∧ P s k := by
  suffices hrun : ∀ x, ReflTransGen (Counts pattern students counting)
      (Net.init students,Stats.zero) x → Net.Reachable pattern students x.1 ∧ P x.1 x.2 from
    hrun (s,k) h
  intro x hx
  induction hx with
  | refl => exact ⟨ReflTransGen.refl,h0⟩
  | tail _ hst ih => exact ⟨ih.1.tail hst.step,hstep _ _ _ _ ih.2 hst⟩

end Counts

/-! What became of the packets that were handed over. -/

def fatesBy (fate : Fate) (e : Entity) (hs : List (Entity × Pkt × Fate)) : Nat :=
  hs.countP fun h => decide (h.1 = e) && decide (h.2.2 = fate)

section Fates
variable {e : Entity} {fate : Fate} {hs hs' : List (Entity × Pkt × Fate)}

@[simp] theorem fatesBy_nil : fatesBy fate e [] = 0 := rfl

@[simp] theorem fatesBy_append :
    fatesBy fate e (hs ++ hs') = fatesBy fate e hs + fatesBy fate e hs' := List.countP_append

/-- What is not lost comes out of the channel. -/
theorem length_arriving (e : Entity) (hs : List (Entity × Pkt × Fate)) :
    (sentBy e hs).length = fatesBy .lost e hs + (arriving e hs).length := by
  induction hs with
  | nil => rfl
  | cons h hs ih =>
    obtain ⟨e',p,f⟩ := h
    by_cases he : e' = e
    · cases f <;> simp [sentBy,fatesBy,arriving,Fate.apply,he] at ih ⊢ <;> omega
    · simpa [sentBy,fatesBy,arriving,he] using ih

/-- Each packet is lost, corrupted or delivered. -/
theorem length_fates (e : Entity) (hs : List (Entity × Pkt × Fate)) :
    (sentBy e hs).length = fatesBy .lost e hs + fatesBy .corrupt e hs + fatesBy .ok e hs := by
  induction hs with
  | nil => rfl
  | cons h hs ih =>
    obtain ⟨e',p,f⟩ := h
    by_cases he : e' = e
    · cases f <;> simp [sentBy,fatesBy,he] at ih ⊢ <;> omega
    · simpa [sentBy,fatesBy,he] using ih

end Fates

end NetworkLab.Rdt
