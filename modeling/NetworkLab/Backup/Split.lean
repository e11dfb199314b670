import NetworkLab.Backup.Utils
import Mathlib.Data.List.TakeWhile
set_option autoImplicit false

/-! `split` of `utils.cpp`, and the stream that it reads the tokens from. -/

namespace NetworkLab.Backup

/-- `std::stringstream`: what has not been read, and two of its flags. -/
structure StringStream where
  rest : Bytes
  eofbit : Bool
  failbit : Bool
  deriving DecidableEq, Repr

namespace StringStream

def new (str : Bytes) : StringStream := { rest := str, eofbit := false, failbit := false }

/-- `std::getline`: takes the delimiter off the stream, and fails when it takes nothing. -/
def getline (ss : StringStream) (delimiter : UInt8) : Bytes × StringStream :=
  if ss.eofbit ∨ ss.failbit then ([],{ ss with failbit := true })
  else
    match ss.rest.dropWhile (· ≠ delimiter) with
    | [] => (ss.rest,{ rest := [], eofbit := true, failbit := ss.rest = [] })
    | _ :: rest => (ss.rest.takeWhile (· ≠ delimiter),{ ss with rest })

/-- Reading after the end fails. -/
def size (ss : StringStream) : Nat := if ss.eofbit then 0 else ss.rest.length + 1

theorem size_getline {ss : StringStream} {delimiter : UInt8}
    (h : (ss.getline delimiter).2.failbit = false) : (ss.getline delimiter).2.size < ss.size := by
  unfold getline at h ⊢
  split at h
  · cases h
  · rename_i hgood
    rw [if_neg hgood]
    have heof : ss.eofbit = false := by simpa using fun he => hgood (Or.inl he)
    split
    · simp [size,heof]
    · rename_i rest hdrop
      have hlength := List.length_dropWhile_le (fun c => decide (c ≠ delimiter)) ss.rest
      rw [hdrop,List.length_cons] at hlength
      simp [size,heof]
      omega

/-- `while (std::getline(ss, token, delimiter)) tokens.push_back(token);` -/
def tokens (ss : StringStream) (delimiter : UInt8) : List Bytes :=
  if (ss.getline delimiter).2.failbit then []
  else (ss.getline delimiter).1 :: (ss.getline delimiter).2.tokens delimiter
termination_by ss.size
decreasing_by exact size_getline (Bool.eq_false_iff.mpr ‹_›)

end StringStream

def split (str : Bytes) (delimiter : UInt8) : List Bytes :=
  if str = [] then [[]] else (StringStream.new str).tokens delimiter

section Split
variable {α : Type*} [DecidableEq α]

theorem not_mem_splitOn {a : α} {xs token : List α} (h : token ∈ xs.splitOn a) : a ∉ token := by
  induction xs generalizing token with
  | nil =>
    rw [List.splitOn_nil,List.mem_singleton] at h
    simp [h]
  | cons x xs ih =>
    rw [List.splitOn_cons_eq_if_modifyHead] at h
    split at h
    · rcases List.mem_cons.mp h with rfl | h
      · exact List.not_mem_nil
      · exact ih h
    · rename_i hx
      cases hs : xs.splitOn a with
      | nil => exact absurd hs (List.splitOn_ne_nil a xs)
      | cons first tokens =>
        rw [hs] at h ih
        rcases List.mem_cons.mp h with rfl | h
        · have hfirst := ih List.mem_cons_self
          simp only [List.mem_cons,not_or]
          exact ⟨fun he => hx (beq_iff_eq.mpr he.symm),hfirst⟩
        · exact ih (List.mem_cons_of_mem _ h)

theorem length_splitOn (a : α) (xs : List α) : (xs.splitOn a).length = xs.count a + 1 := by
  induction xs with
  | nil => rfl
  | cons x xs ih =>
    rw [List.splitOn_cons_eq_if_modifyHead,List.count_cons]
    split
    · rw [List.length_cons,ih]
    · rw [List.length_modifyHead,ih,Nat.add_zero]

end Split

section Tokens
variable {token rest : Bytes} {delimiter : UInt8}

theorem getline_token (hno : delimiter ∉ token) :
    (StringStream.new (token ++ delimiter :: rest)).getline delimiter = (token,.new rest) := by
  have hpos : ∀ c ∈ token, decide (c ≠ delimiter) = true := fun c hc =>
    decide_eq_true fun he => hno (he ▸ hc)
  have hdrop : (token ++ delimiter :: rest).dropWhile (· ≠ delimiter) = delimiter :: rest := by
    rw [List.dropWhile_append_of_pos hpos]
    simp
  have htake : (token ++ delimiter :: rest).takeWhile (· ≠ delimiter) = token := by
    rw [List.takeWhile_append_of_pos hpos]
    simp
  simp only [StringStream.getline,StringStream.new,hdrop,htake]
  rfl

theorem getline_last (hno : delimiter ∉ token) :
    (StringStream.new token).getline delimiter = (token,⟨[],true,token = []⟩) := by
  have hdrop : token.dropWhile (· ≠ delimiter) = [] :=
    List.dropWhile_eq_nil_iff.mpr fun c hc => decide_eq_true fun he => hno (he ▸ hc)
  simp only [StringStream.getline,StringStream.new,hdrop]
  rfl

theorem tokens_token (hno : delimiter ∉ token) :
    (StringStream.new (token ++ delimiter :: rest)).tokens delimiter =
      token :: (StringStream.new rest).tokens delimiter := by
  rw [StringStream.tokens,getline_token hno]
  rfl

theorem tokens_last (hno : delimiter ∉ token) :
    (StringStream.new token).tokens delimiter = if token = [] then [] else [token] := by
  have hend : (StringStream.mk [] true false).tokens delimiter = [] := by
    rw [StringStream.tokens]
    rfl
  rw [StringStream.tokens,getline_last hno]
  by_cases hne : token = [] <;> simp [hne,hend]

/-- The token behind the last delimiter is missing when it is empty. -/
theorem tokens_new (str : Bytes) (delimiter : UInt8) (hne : str ≠ []) :
    (StringStream.new str).tokens delimiter =
      if str.getLast? = some delimiter then (str.splitOn delimiter).dropLast
      else str.splitOn delimiter := by
  induction hn : str.length using Nat.strongRecOn generalizing str with
  | ind n ih =>
    by_cases hmem : delimiter ∈ str
    · obtain ⟨token,rest,rfl,hno⟩ := List.eq_append_cons_of_mem hmem
      rw [tokens_token hno,List.splitOn_append_cons_self_of_not_mem hno]
      by_cases hrest : rest = []
      · subst hrest
        simp [tokens_last]
      · have hlast : (token ++ delimiter :: rest).getLast? = rest.getLast? := by
          rw [List.getLast?_append_of_ne_nil _ (List.cons_ne_nil _ _),
            List.getLast?_cons_of_ne_nil hrest]
        have ih := ih rest.length (by simp at hn; omega) rest hrest rfl
        rw [hlast,ih,List.dropLast_cons_of_ne_nil (List.splitOn_ne_nil _ _)]
        split <;> rfl
    · have hlast : str.getLast? ≠ some delimiter := fun h => hmem (List.mem_of_getLast? h)
      rw [tokens_last hmem,if_neg hne,if_neg hlast,List.splitOn_eq_singleton hmem]

theorem split_eq (str : Bytes) (delimiter : UInt8) : split str delimiter =
    if str.getLast? = some delimiter then (str.splitOn delimiter).dropLast
    else str.splitOn delimiter := by
  unfold split
  split
  · rename_i hnil
    subst hnil
    rfl
  · rename_i hne
    exact tokens_new str delimiter hne

/-- A delimiter at the end is lost. -/
theorem intercalate_split (str : Bytes) (delimiter : UInt8) :
    [delimiter].intercalate (split str delimiter) =
      if str.getLast? = some delimiter then str.dropLast else str := by
  rw [split_eq]
  split
  · rename_i hlast
    obtain ⟨s,rfl⟩ := List.getLast?_eq_some_iff.mp hlast
    rw [List.splitOn_append_cons_self]
    simp
  · exact List.intercalate_splitOn delimiter

/-- The tokens are those between the delimiters, and join to the string, unless a delimiter ends
it. -/
theorem split_joins_iff (str : Bytes) (delimiter : UInt8) :
    ((∀ token ∈ split str delimiter, delimiter ∉ token) ∧
        (split str delimiter).length = str.count delimiter + 1 ∧
        [delimiter].intercalate (split str delimiter) = str) ↔
      str.getLast? ≠ some delimiter := by
  constructor
  · rintro ⟨-,-,hjoin⟩ hlast
    rw [intercalate_split,if_pos hlast] at hjoin
    have hlength := congrArg List.length hjoin
    obtain ⟨s,rfl⟩ := List.getLast?_eq_some_iff.mp hlast
    simp at hlength
  · intro hlast
    have hjoin := (intercalate_split str delimiter).trans (if_neg hlast)
    have hsplit := (split_eq str delimiter).trans (if_neg hlast)
    rw [hsplit] at hjoin ⊢
    exact ⟨fun token => not_mem_splitOn,length_splitOn delimiter str,hjoin⟩

/-- `a,` -/
theorem not_split_joins_always : ¬∀ (str : Bytes) (delimiter : UInt8),
    (∀ token ∈ split str delimiter, delimiter ∉ token) ∧
      (split str delimiter).length = str.count delimiter + 1 ∧
      [delimiter].intercalate (split str delimiter) = str := by
  intro hall
  have hlength := (hall [97,44] 44).2.1
  rw [split_eq] at hlength
  exact absurd hlength (by decide)

end Tokens

end NetworkLab.Backup
