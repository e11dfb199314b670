import NetworkLab.Lib.Pipe
import NetworkLab.Rdt.Channel
set_option autoImplicit false

/-! What layer 5 sees of the two ends: a pipe. -/

namespace NetworkLab.Rdt

/-- What layer 5 sees. -/
def Soup.service {σ : Type} (s : Soup σ) : Pipe.State Payload := ⟨s.given.map Msg.data,s.taken⟩

/-- A step only adds to both ends. -/
theorem Soup.Step.service_grows {σ : Type} {noise : Pkt → Prop} {students : Students σ}
    {s t : Soup σ} (h : Soup.Step noise students s t) :
    (∃ xs, t.service.accepted = s.service.accepted ++ xs) ∧
    ∃ ys, t.service.delivered = s.service.delivered ++ ys := by
  cases h with
  | @submit r m hm =>
    obtain ⟨-,hg,ht,-⟩ := Soup.perform_eq { s with given := s.given ++ [m] } r
    exact ⟨⟨[m.data],by simp [Soup.service,hg]⟩,⟨_,ht⟩⟩
  | recvA p hp =>
    obtain ⟨-,hg,ht,-⟩ := Soup.perform_eq s (students.aInput p s.vars)
    exact ⟨⟨[],by simp [Soup.service,hg]⟩,⟨_,ht⟩⟩
  | recvB p hp =>
    obtain ⟨-,hg,ht,-⟩ := Soup.perform_eq s (students.bInput p s.vars)
    exact ⟨⟨[],by simp [Soup.service,hg]⟩,⟨_,ht⟩⟩
  | fire q before after hq =>
    obtain ⟨-,hg,ht,-⟩ := Soup.perform_eq { s with timers := before ++ after }
      (students.aPacketTimeRinterrupt q s.vars)
    exact ⟨⟨[],by simp [Soup.service,hg]⟩,⟨_,ht⟩⟩

/-- Behind a step that ends in order the pipe has run. -/
theorem Soup.Step.service_run {σ : Type} {noise : Pkt → Prop} {students : Students σ}
    {s t : Soup σ} (h : Soup.Step noise students s t) (ht : Pipe.InOrder t.service) :
    Relation.ReflTransGen Pipe.Step s.service t.service := by
  obtain ⟨⟨xs,hx⟩,⟨ys,hy⟩⟩ := h.service_grows
  exact Pipe.run_of_grows hx hy ht

end NetworkLab.Rdt
