import Mathlib.Data.List.Basic
set_option autoImplicit false

/-! Paths as text: the components between separators, and the normal form. The alphabet, the
separators and the names of a directory itself and of its parent are parameters. -/

namespace NetworkLab.LexicalPath

/-- A list of names, from the root or from the current directory. -/
structure Place (α : Type) where
  rooted : Bool
  names : List (List α)
  deriving DecidableEq

def Place.child {α : Type} (place : Place α) (name : List α) : Place α :=
  { place with names := place.names ++ [name] }

theorem Place.child_ne {α : Type} (place : Place α) (name : List α) : place.child name ≠ place := by
  intro h
  have hlen := congrArg (fun p : Place α => p.names.length) h
  simp [Place.child] at hlen

section Components
variable {α : Type} (sep : α → Bool)

/-- What stands between the separators; adjacent ones count as one. -/
def components (path : List α) : List (List α) := (path.splitOnP sep).filter (· ≠ [])

def rooted (path : List α) : Bool := path.head?.any sep

/-- The components from the root; `cwd` are those of the current directory. -/
def located (cwd : List (List α)) (path : List α) : List (List α) :=
  if rooted sep path then components sep path else cwd ++ components sep path

variable {sep}
variable {a b name : List α} {s : α}

@[simp] theorem components_nil : components sep [] = [] := rfl

theorem components_append (a b : List α) (hs : sep s = true) :
    components sep (a ++ s :: b) = components sep a ++ components sep b := by
  rw [components,List.splitOnP_append_cons a b hs,List.filter_append]
  rfl

theorem components_of_name (hne : name ≠ []) (hno : ∀ c ∈ name, sep c = false) :
    components sep name = [name] := by
  rw [components,List.splitOnP_eq_singleton hno]
  simp [hne]

theorem exists_last_separator (h : ¬∀ c ∈ a, sep c = false) :
    ∃ front s last, a = front ++ s :: last ∧ sep s = true ∧ ∀ c ∈ last, sep c = false := by
  induction a with
  | nil => simp at h
  | cons c a ih =>
    by_cases ha : ∀ c ∈ a, sep c = false
    · refine ⟨[],c,a,rfl,?_,ha⟩
      by_contra hc
      exact h (List.forall_mem_cons.mpr ⟨by simpa using hc,ha⟩)
    · obtain ⟨front,s,last,rfl,hs,hlast⟩ := ih ha
      exact ⟨c :: front,s,last,rfl,hs,hlast⟩

theorem components_child (a : List α) (hs : sep s = true) (hne : name ≠ [])
    (hno : ∀ c ∈ name, sep c = false) :
    components sep (a ++ s :: name) = components sep a ++ [name] := by
  rw [components_append a name hs,components_of_name hne hno]

/-- What is put behind a path without a separator goes on with its last component. -/
theorem components_extend (a : List α) : ∃ front last, ∀ b, b ≠ [] → (∀ c ∈ b, sep c = false) →
    components sep (a ++ b) = front ++ [last ++ b] := by
  by_cases hno : ∀ c ∈ a, sep c = false
  · refine ⟨[],a,fun b hne hb => ?_⟩
    exact components_of_name (by simp [hne]) (List.forall_mem_append.mpr ⟨hno,hb⟩)
  · obtain ⟨front,s,last,rfl,hs,hlast⟩ := exists_last_separator hno
    refine ⟨components sep front,last,fun b hne hb => ?_⟩
    rw [List.append_assoc,List.cons_append]
    exact components_child front hs (by simp [hne]) (List.forall_mem_append.mpr ⟨hlast,hb⟩)

theorem rooted_append (b : List α) (hne : a ≠ []) : rooted sep (a ++ b) = rooted sep a := by
  rw [rooted,List.head?_append_of_ne_nil a hne]
  rfl

theorem rooted_join (a : List α) (s : α) (name : List α) :
    rooted sep (a ++ s :: name) = rooted sep (a ++ [s]) := by
  rw [← List.singleton_append,← List.append_assoc,rooted_append name (by simp)]

theorem rooted_of_name (hno : ∀ c ∈ name, sep c = false) : rooted sep name = false := by
  cases name with
  | nil => rfl
  | cons c name => simpa [rooted] using hno c List.mem_cons_self

end Components

section Normal
variable {α : Type} [DecidableEq α] (sep : α → Bool) (here parent : List α)

/-- One component further: the directory itself is dropped, and its parent takes the last
name away, where there is one. -/
def enter (root : Bool) (names : List (List α)) (c : List α) : List (List α) :=
  if c = here then names
  else if c = parent then
    if names = [] then (if root then [] else [parent])
    else if names.getLast? = some parent then names ++ [parent]
    else names.dropLast
  else names ++ [c]

def normalise (path : List α) : Place α :=
  { rooted := rooted sep path
    names := (components sep path).foldl (enter here parent (rooted sep path)) [] }

variable {sep here parent} {a name : List α} {s : α}

/-- A trailing separator changes nothing. -/
theorem normalise_trailing (hs : sep s = true) (hne : a ≠ []) :
    normalise sep here parent (a ++ [s]) = normalise sep here parent a := by
  rw [normalise,components_append a [] hs,components_nil,List.append_nil,rooted_append [s] hne]
  rfl

/-- A name behind a separator is entered last. -/
theorem normalise_join (a : List α) (hs : sep s = true) (hne : name ≠ [])
    (hno : ∀ c ∈ name, sep c = false) :
    normalise sep here parent (a ++ s :: name) =
      { normalise sep here parent (a ++ [s]) with
        names := enter here parent (rooted sep (a ++ [s]))
          (normalise sep here parent (a ++ [s])).names name } := by
  simp only [normalise,rooted_join a s name,components_child a hs hne hno,
    components_append a [] hs,components_nil,List.append_nil,List.foldl_append,List.foldl_cons,
    List.foldl_nil]

theorem normalise_child (a : List α) (hs : sep s = true) (hne : name ≠ [])
    (hno : ∀ c ∈ name, sep c = false) (hhere : name ≠ here) (hparent : name ≠ parent) :
    normalise sep here parent (a ++ s :: name) =
      (normalise sep here parent (a ++ [s])).child name := by
  rw [normalise_join a hs hne hno,enter,if_neg hhere,if_neg hparent]
  rfl

theorem normalise_here (a : List α) (hs : sep s = true) (hne : here ≠ [])
    (hno : ∀ c ∈ here, sep c = false) :
    normalise sep here parent (a ++ s :: here) = normalise sep here parent (a ++ [s]) := by
  rw [normalise_join a hs hne hno,enter,if_pos rfl]

end Normal

end NetworkLab.LexicalPath
