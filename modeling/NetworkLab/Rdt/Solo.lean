import NetworkLab.Lib.Machine
import NetworkLab.Rdt.Channel
set_option autoImplicit false

/-! A alone. Its three functions are called in any order, `A_input` with any packet, and
any pending timer may be the next that the emulator takes from the event list. -/

namespace NetworkLab.Rdt
open Relation

/-- `received` records each packet given to `A_input` and the variables it found,
`handed` what A handed to layer 3. -/
structure Solo (σ : Type) where
  vars : σ
  timers : List Int
  given : List Msg
  received : List (σ × Pkt)
  handed : List Pkt

namespace Solo
variable {σ : Type}

def start (students : Students σ) : Solo σ := ⟨students.aInit,[],[],[],[]⟩

/-- A function of A has returned its variables and its calls. -/
def after (s : Solo σ) (r : σ × List Call) : Solo σ :=
  { s with vars := r.1, timers := timersAfter s.timers r.2, handed := s.handed ++ outOf .A r.2 }

/-- The packet with number `k` that was handed to layer 3 first. -/
def first (s : Solo σ) (k : Int) : Option Pkt := s.handed.find? fun p => p.seqnum = k

inductive Step (students : Students σ) (s : Solo σ) : Solo σ → Prop where
  | aOutput (m : Msg) (r : σ × List Call) : students.aOutput m s.vars = some r →
      Step students s ({ s with given := s.given ++ [m] }.after r)
  | aInput (p : Pkt) :
      Step students s
        ({ s with received := s.received ++ [(s.vars,p)] }.after (students.aInput p s.vars))
  | interrupt {before after : List Int} (q : Int) : s.timers = before ++ q :: after →
      Step students s
        ({ s with timers := before ++ after }.after (students.aPacketTimeRinterrupt q s.vars))

def Reach (students : Students σ) : Solo σ → Prop :=
  ReflTransGen (Step students) (start students)

@[simp] theorem after_handed (s : Solo σ) (r : σ × List Call) :
    (s.after r).handed = s.handed ++ outOf .A r.2 := rfl

/-- When all packets of one number are the same, any of them is the first. -/
theorem first_of_mem {s : Solo σ} {k : Int} {p : Pkt} (hp : p ∈ s.handed) (hk : p.seqnum = k)
    (hsame : ∀ q ∈ s.handed, q.seqnum = k → q = p) : s.first k = some p := by
  have hsome : (s.first k).isSome := List.find?_isSome.mpr ⟨p,hp,by simpa using hk⟩
  obtain ⟨q,hq⟩ := Option.isSome_iff_exists.mp hsome
  rw [hq,hsame q (List.mem_of_find?_eq_some hq) (by simpa using List.find?_some hq)]

/-- What every step keeps holds in every reachable state. -/
theorem Reach.invariant {students : Students σ} {I : Solo σ → Prop} (h0 : I (start students))
    (hs : ∀ s t, Step students s t → I s → I t) {s : Solo σ} (h : Reach students s) : I s :=
  Machine.star_invariant hs h h0

end Solo

end NetworkLab.Rdt
