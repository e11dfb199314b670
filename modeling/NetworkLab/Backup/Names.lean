import NetworkLab.Backup.Message
import Mathlib.Data.List.TakeWhile
set_option autoImplicit false

/-! What is left of a name on its way through a message, and that it stays valid. -/

namespace NetworkLab.Backup

theorem cString_append_zero (memory rest : Bytes) :
    cString (memory ++ 0 :: rest) = cString memory := by
  induction memory with
  | nil => rfl
  | cons b memory ih =>
    unfold cString at ih ⊢
    by_cases hb : b = 0
    · rw [hb]
      rfl
    · rw [List.cons_append,List.takeWhile_cons_of_pos (by simpa using hb),
        List.takeWhile_cons_of_pos (by simpa using hb),ih]

theorem cString_eq_self {name : Bytes} (h : 0 ∉ name) : cString name = name := by
  rw [cString,List.takeWhile_eq_self_iff]
  intro c hc
  exact decide_eq_true fun (he : c = 0) => h (he ▸ hc)

theorem cString_of_not_mem {name rest : Bytes} (h : 0 ∉ name) :
    cString (name ++ 0 :: rest) = name := by
  rw [cString_append_zero,cString_eq_self h]

theorem valid_iff {n : Bytes} : isValidFilename n = true ↔
    n ≠ [] ∧ n.length ≤ 255 ∧ ¬[46,46] <:+: n ∧
      ¬(n.head? = some slash ∨ n.head? = some backslash) ∧ n[1]? ≠ some 58 ∧
      ¬(slash ∈ n ∨ backslash ∈ n) ∧ 0 ∉ n ∧ (∀ c ∈ n, c ∉ invalidChars ∧ ¬c < 32) ∧
      reservedPart n ∉ reserved := by
  unfold isValidFilename getFilenameValidationError
  by_cases h₁ : n = []
  · simp [h₁]
  by_cases h₂ : 255 < n.length
  · simp [h₁,h₂]
  by_cases h₃ : [46,46] <:+: n
  · simp [h₁,h₂,h₃]
  by_cases h₄ : n.head? = some slash ∨ n.head? = some backslash
  · rw [if_neg h₁,if_neg h₂,if_neg h₃,if_pos h₄]
    simp [h₄]
  by_cases h₅ : n[1]? = some 58
  · rw [if_neg h₁,if_neg h₂,if_neg h₃,if_neg h₄,if_pos h₅]
    simp [h₅]
  by_cases h₆ : slash ∈ n ∨ backslash ∈ n
  · rw [if_neg h₁,if_neg h₂,if_neg h₃,if_neg h₄,if_neg h₅,if_pos h₆]
    simp [h₆]
  by_cases h₇ : 0 ∈ n
  · rw [if_neg h₁,if_neg h₂,if_neg h₃,if_neg h₄,if_neg h₅,if_neg h₆,if_pos h₇]
    simp [h₇]
  rw [if_neg h₁,if_neg h₂,if_neg h₃,if_neg h₄,if_neg h₅,if_neg h₆,if_neg h₇]
  have hchars : (n.findSome? fun c => if c ∈ invalidChars then
      some (FilenameError.invalidCharacter c) else if c < 32 then some .control else none) = none ↔
      ∀ c ∈ n, c ∉ invalidChars ∧ ¬c < 32 := by
    rw [List.findSome?_eq_none_iff]
    refine forall_congr' fun c => imp_congr_right fun _ => ?_
    split
    · rename_i hc
      simp [hc]
    · rename_i hc
      split <;> rename_i hlt <;> simp [hc,hlt]
  split
  · rename_i e he
    have hnot : ¬∀ c ∈ n, c ∉ invalidChars ∧ ¬c < 32 := fun h => by
      rw [hchars.mpr h] at he
      cases he
    exact iff_of_false (by simp) fun h => hnot h.2.2.2.2.2.2.2.1
  · rename_i he
    have hall := hchars.mp he
    split
    · rename_i hr
      exact iff_of_false (by simp) fun h => h.2.2.2.2.2.2.2.2 hr
    · rename_i hr
      exact iff_of_true rfl ⟨h₁,Nat.not_lt.mp h₂,h₃,h₄,h₅,h₆,h₇,hall,hr⟩

theorem reserved_length : ∀ r ∈ reserved, r.length ≤ 4 := by decide

/-- What is left of a valid name in a message is valid. -/
theorem valid_take {n : Bytes} (h : isValidFilename n = true) :
    isValidFilename (n.take 127) = true := by
  obtain ⟨h₁,h₂,h₃,h₄,h₅,h₆,h₇,h₈,h₉⟩ := valid_iff.mp h
  have hmem : ∀ c ∈ n.take 127, c ∈ n := fun c hc => List.mem_of_mem_take hc
  refine valid_iff.mpr ⟨?_,?_,?_,?_,?_,?_,fun hc => h₇ (hmem _ hc),fun c hc => h₈ c (hmem c hc),?_⟩
  · simpa using h₁
  · rw [List.length_take]
    omega
  · exact fun hi => h₃ (hi.trans (List.take_prefix _ _).isInfix)
  · rwa [List.head?_take,if_neg (by decide)]
  · rwa [List.getElem?_take_of_lt (by decide)]
  · rintro (hc | hc)
    · exact h₆ (Or.inl (hmem _ hc))
    · exact h₆ (Or.inr (hmem _ hc))
  · by_cases hlen : n.length ≤ 127
    · rwa [List.take_of_length_le hlen]
    · intro hr
      refine h₉ ?_
      have hle := reserved_length _ hr
      have hlow : toLower (n.take 127) = (toLower n).take 127 := by simp [toLower]
      unfold reservedPart at hr hle ⊢
      rw [hlow] at hr hle
      have hsplit : (toLower n).takeWhile (· ≠ 46) =
          ((toLower n).take 127).takeWhile (· ≠ 46) := by
        conv => lhs; rw [← List.take_append_drop 127 (toLower n)]
        rw [List.takeWhile_append,if_neg]
        intro hall
        have hfull : ((toLower n).take 127).length = 127 := by
          rw [List.length_take]
          simp only [toLower,List.length_map]
          omega
        omega
      rwa [hsplit]

theorem toList_ofFn_getD {size : Nat} {l : Bytes} (h : l.length < size) :
    ∃ zeros, (Vector.ofFn fun i : Fin size => l.getD i 0).toList = l ++ 0 :: zeros := by
  refine ⟨List.replicate (size - l.length - 1) 0,List.ext_getElem ?_ ?_⟩
  · simp
    omega
  · intro i h₁ h₂
    by_cases hi : i < l.length
    · simp [hi,List.getElem_append_left]
    · have htail : (0 :: List.replicate (size - l.length - 1) (0 : UInt8)) =
          List.replicate (size - l.length) 0 := by
        rw [← List.replicate_succ]
        congr 1
        omega
      simp [hi,htail,List.getElem_append_right (Nat.not_lt.mp hi)]

/-- What the server reads of the name in a command. -/
def wireName (name : Bytes) : Bytes := (cString name).take 127

theorem cString_tail {name : Bytes} {msg : CmdMsg} (beyond : Bytes)
    (h : msg.filename = (CmdMsg.setFilename name .new).filename) :
    cString (msg.tail ++ beyond) = wireName name := by
  have hlen : ((cString name).take 127).length < 128 := by
    rw [List.length_take]
    omega
  obtain ⟨zeros,hz⟩ := toList_ofFn_getD hlen
  have hfile : msg.filename.toList = (cString name).take 127 ++ 0 :: zeros := by
    rw [h]
    exact hz
  have hno : 0 ∉ (cString name).take 127 := by
    intro hc
    have := List.mem_takeWhile_imp (List.mem_of_mem_take hc)
    simp at this
  rw [CmdMsg.tail,hfile]
  simp only [List.append_assoc,List.cons_append]
  rw [cString_append_zero,cString_eq_self hno]
  rfl

/-- What the server reads of a new name. -/
def wireNewName (name : Bytes) : Bytes := cString (name.take 2999)

theorem cString_setData (name beyond : Bytes) :
    cString ((DataMsg.setData name).toList ++ beyond) = wireNewName name := by
  have hcopy : name.take (if name.length < dataBufLen then name.length else dataBufLen - 1) =
      name.take 2999 := by
    unfold dataBufLen
    split
    · rename_i hlt
      rw [List.take_length,List.take_of_length_le (by omega)]
    · rfl
  have hlen : (name.take 2999).length < 3000 := by
    rw [List.length_take]
    omega
  obtain ⟨zeros,hz⟩ := toList_ofFn_getD hlen
  have hdata : (DataMsg.setData name).toList = name.take 2999 ++ 0 :: zeros := by
    rw [← hz]
    simp only [DataMsg.setData,hcopy]
  rw [hdata]
  simp only [List.append_assoc,List.cons_append]
  rw [cString_append_zero]
  rfl

end NetworkLab.Backup
