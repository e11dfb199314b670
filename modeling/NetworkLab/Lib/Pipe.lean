import NetworkLab.Lib.Machine
import Mathlib.Data.List.Basic
set_option autoImplicit false

/-! What a reliable transfer is for: a pipe that accepts values at one end and delivers
them, in order and each once, at the other. -/

namespace NetworkLab.Pipe
open Relation

structure State (α : Type*) where
  accepted : List α
  delivered : List α

variable {α : Type*} {s t : State α}

def start : State α := ⟨[],[]⟩

inductive Step (s : State α) : State α → Prop where
  | accept (x : α) : Step s { s with accepted := s.accepted ++ [x] }
  | deliver (x : α) (rest : List α) : s.accepted = s.delivered ++ x :: rest →
      Step s { s with delivered := s.delivered ++ [x] }

/-- What was delivered is a first part of what was accepted. -/
def InOrder (s : State α) : Prop := s.delivered <+: s.accepted

theorem Step.inOrder (h : Step s t) (hs : InOrder s) : InOrder t := by
  cases h with
  | accept x => exact hs.trans (List.prefix_append _ _)
  | deliver x rest he => exact ⟨rest,by rw [he]; simp⟩

theorem inOrder_of_run (h : ReflTransGen Step start s) : InOrder s :=
  Machine.star_invariant (fun _ _ hst hs => hst.inOrder hs) h (List.prefix_refl [])

theorem run_accept (s : State α) (xs : List α) :
    ReflTransGen Step s { s with accepted := s.accepted ++ xs } := by
  induction xs generalizing s with
  | nil => simpa using ReflTransGen.refl
  | cons x xs ih =>
    have hrest := ih { s with accepted := s.accepted ++ [x] }
    simp only [List.append_assoc,List.singleton_append] at hrest
    exact (ReflTransGen.single (Step.accept x)).trans hrest

theorem run_deliver (s : State α) {xs : List α} (h : s.delivered ++ xs <+: s.accepted) :
    ReflTransGen Step s { s with delivered := s.delivered ++ xs } := by
  induction xs generalizing s with
  | nil => simpa using ReflTransGen.refl
  | cons x xs ih =>
    obtain ⟨rest,he⟩ := h
    have hrest := ih { s with delivered := s.delivered ++ [x] } ⟨rest,by rw [← he]; simp⟩
    simp only [List.append_assoc,List.singleton_append] at hrest
    exact (ReflTransGen.single (Step.deliver x (xs ++ rest) (by rw [← he]; simp))).trans hrest

/-- Whatever only adds at both ends and stays in order is a run of the pipe. -/
theorem run_of_grows {xs ys : List α} (ha : t.accepted = s.accepted ++ xs)
    (hd : t.delivered = s.delivered ++ ys) (ht : InOrder t) : ReflTransGen Step s t := by
  obtain ⟨a,d⟩ := t
  simp only [InOrder] at ha hd ht
  subst ha hd
  exact (run_accept s xs).trans (run_deliver { s with accepted := s.accepted ++ xs } ht)

end NetworkLab.Pipe
