import NetworkLab.Backup.Validator
import Mathlib.Data.List.DropRight
set_option autoImplicit false

/-! `sanitizeFilename` of `utils.cpp`, against the validator. -/

namespace NetworkLab.Backup

/-- A space or a dot. -/
def onFringe (c : UInt8) : Bool := c = 32 ∨ c = 46

/-- The two loops that erase at the front and at the back. -/
def stripFringe (s : Bytes) : Bytes := (s.dropWhile onFringe).rdropWhile onFringe

def sanitizeFilename (filename : Bytes) : Bytes :=
  let result := stripFringe <| filename.filterMap fun c =>
    if c ∈ invalidChars ++ [backslash,slash] then some 95
    else if c < 32 then none
    else some c
  if result = [] then ascii "unnamed".toList else result

/-- The characters of a name that the sanitizer keeps or replaces. -/
def keptPart (s : Bytes) : Bytes := stripFringe (s.filter fun c => ¬c < 32)

/-- What the sanitizer does nothing about. -/
structure Tame (s : Bytes) : Prop where
  short : (keptPart s).length ≤ 255
  noParent : ¬[46,46] <:+: keptPart s
  notReserved : toLower (stem (keptPart s)) ∉ reserved

/-- The underscore for an invalid character. -/
def substitute (c : UInt8) : UInt8 := if c ∈ invalidChars ++ [backslash,slash] then 95 else c

theorem invalid_printable : ∀ c ∈ invalidChars ++ [backslash,slash], ¬c < 32 ∧ ¬onFringe c := by
  decide +kernel

theorem substitute_not_mem (c : UInt8) : substitute c ∉ invalidChars ++ [backslash,slash] := by
  unfold substitute
  split
  · decide
  · assumption

theorem substitute_printable {c : UInt8} (h : ¬c < 32) : ¬substitute c < 32 := by
  unfold substitute
  split
  · decide
  · exact h

theorem onFringe_substitute (c : UInt8) : onFringe (substitute c) = onFringe c := by
  unfold substitute
  split
  · rename_i h
    exact (Bool.eq_false_iff.mpr (invalid_printable c h).2).symm
  · rfl

theorem substitute_eq_dot (c : UInt8) : substitute c = 46 ↔ c = 46 := by
  unfold substitute
  split
  · rename_i h
    constructor
    · intro he
      cases he
    · rintro rfl
      exact absurd h (by decide)
  · exact Iff.rfl

theorem stripFringe_map (s : Bytes) :
    stripFringe (s.map substitute) = (stripFringe s).map substitute := by
  have hfringe : onFringe ∘ substitute = onFringe := funext onFringe_substitute
  rw [stripFringe,stripFringe,List.rdropWhile,List.rdropWhile,List.dropWhile_map,← List.map_reverse,
    List.dropWhile_map,← List.map_reverse,hfringe]

/-- The order of the three passes does not matter. -/
theorem sanitizeFilename_eq (s : Bytes) : sanitizeFilename s =
    if keptPart s = [] then ascii "unnamed".toList else (keptPart s).map substitute := by
  have hpass : (s.filterMap fun c => if c ∈ invalidChars ++ [backslash,slash] then some 95
      else if c < 32 then none else some c) = (s.filter fun c => ¬c < 32).map substitute := by
    rw [← List.filterMap_eq_map,List.filterMap_filter]
    refine List.filterMap_congr fun c _ => ?_
    by_cases hc : c ∈ invalidChars ++ [backslash,slash]
    · have hprint := (invalid_printable c hc).1
      simp [substitute,hc,hprint]
    · by_cases hlow : c < 32 <;> simp [substitute,hc,hlow]
  rw [sanitizeFilename,hpass,stripFringe_map]
  simp only [List.map_eq_nil_iff]
  rfl

theorem dots_substitute (s : Bytes) : [46,46] <:+: s.map substitute ↔ [46,46] <:+: s := by
  rw [List.infix_map_iff]
  constructor
  · rintro ⟨l,hl,hdots⟩
    obtain ⟨a,l',rfl,ha,hl'⟩ := List.map_eq_cons_iff.mp hdots.symm
    obtain ⟨b,l'',rfl,hb,hl''⟩ := List.map_eq_cons_iff.mp hl'
    obtain rfl := List.map_eq_nil_iff.mp hl''
    rwa [(substitute_eq_dot a).mp ha,(substitute_eq_dot b).mp hb] at hl
  · intro h
    exact ⟨_,h,rfl⟩

/-- The reserved names have letters and digits only. -/
theorem reserved_plain : ∀ r ∈ reserved, ∀ d ∈ r,
    d ≠ 95 ∧ d ∉ invalidChars ++ [backslash,slash] := by
  decide +kernel

theorem toLower_invalid : ∀ c ∈ invalidChars ++ [backslash,slash], toLower [c] = [c] := by
  decide +kernel

theorem toLower_substitute {r : Bytes}
    (hr : ∀ d ∈ r, d ≠ 95 ∧ d ∉ invalidChars ++ [backslash,slash]) (s : Bytes) :
    toLower (s.map substitute) = r ↔ toLower s = r := by
  induction s generalizing r with
  | nil => rfl
  | cons c s ih =>
    cases r with
    | nil => simp [toLower]
    | cons d r =>
      obtain ⟨⟨hd,hd'⟩,hr⟩ := List.forall_mem_cons.mp hr
      have ih := ih hr
      have hc : toLower [substitute c] = [d] ↔ toLower [c] = [d] := by
        unfold substitute
        split
        · rename_i h
          rw [toLower_invalid c h]
          constructor
          · intro he
            exact absurd (List.singleton_inj.mp he).symm hd
          · intro he
            obtain rfl := List.singleton_inj.mp he
            exact absurd h hd'
        · exact Iff.rfl
      simp only [toLower,List.map_cons,List.map_nil,List.cons.injEq,and_true] at ih hc ⊢
      rw [ih,hc]

theorem reserved_substitute (s : Bytes) :
    toLower (s.map substitute) ∈ reserved ↔ toLower s ∈ reserved := by
  constructor
  · intro h
    have he := (toLower_substitute (reserved_plain _ h) s).mp rfl
    rwa [he]
  · intro h
    have he := (toLower_substitute (reserved_plain _ h) s).mpr rfl
    rwa [he]

theorem keptPart_printable {s : Bytes} {c : UInt8} (hc : c ∈ keptPart s) : ¬c < 32 := by
  have hsub : (keptPart s).Sublist (s.filter fun c => ¬c < 32) :=
    (List.rdropWhile_prefix _ _).sublist.trans (List.dropWhile_sublist _)
  simpa using (List.mem_filter.mp (hsub.subset hc)).2

theorem permitted_substitute {s : Bytes} (hne : keptPart s ≠ []) :
    Permitted ((keptPart s).map substitute) ↔ Tame s := by
  have hreserved : (∀ r ∈ reserved, toLower (stem ((keptPart s).map substitute)) ≠ toLower r) ↔
      toLower (stem (keptPart s)) ∉ reserved := by
    rw [← notReserved_iff,reservedPart_eq,stem_map substitute_eq_dot,reserved_substitute]
  have hinvalid : ∀ c ∈ (keptPart s).map substitute, c ∉ invalidChars ++ [backslash,slash] := by
    intro c hc
    obtain ⟨d,-,rfl⟩ := List.mem_map.mp hc
    exact substitute_not_mem d
  constructor
  · intro h
    exact ⟨by simpa using h.short,fun hdots => h.noParent ((dots_substitute _).mpr hdots),
      hreserved.mp h.notReserved⟩
  · intro h
    refine ⟨by simpa using hne,by simpa using h.short,?_,?_,
      fun hdots => h.noParent ((dots_substitute _).mp hdots),?_,?_,hreserved.mpr h.notReserved⟩
    · exact fun hc => hinvalid _ hc (by decide)
    · exact fun hc => hinvalid _ hc (by decide)
    · exact fun c hc hmem => hinvalid c hc (List.mem_append_left _ hmem)
    · intro c hc
      obtain ⟨d,hd,rfl⟩ := List.mem_map.mp hc
      exact substitute_printable (keptPart_printable hd)

/-- A name is valid when it is sanitized, unless the part that is kept is too long, has two dots
in a row, or is reserved. -/
theorem sanitized_valid_iff (s : Bytes) : isValidFilename (sanitizeFilename s) = true ↔ Tame s := by
  rw [valid_iff_permitted,sanitizeFilename_eq]
  split
  · rename_i hnil
    have hunnamed : isValidFilename (ascii "unnamed".toList) = true := by decide
    have htame : Tame s := by
      refine ⟨?_,?_,?_⟩ <;> rw [hnil] <;> decide
    exact ⟨fun _ => htame,fun _ => (valid_iff_permitted _).mp hunnamed⟩
  · rename_i hne
    exact permitted_substitute hne

theorem head_stripFringe {s : Bytes} {c : UInt8} (h : (stripFringe s).head? = some c) :
    onFringe c = false := by
  obtain ⟨rest,hrest⟩ := List.rdropWhile_prefix onFringe (s.dropWhile onFringe)
  have hhead := List.head?_dropWhile_not onFringe s
  rw [← hrest,List.head?_append_of_ne_nil _ (fun hnil => by simp [stripFringe,hnil] at h)] at hhead
  rw [stripFringe] at h
  rw [h] at hhead
  simpa using hhead

theorem getLast_stripFringe {s : Bytes} {c : UInt8} (h : (stripFringe s).getLast? = some c) :
    onFringe c = false := by
  have hne : stripFringe s ≠ [] := by
    rintro hnil
    simp [hnil] at h
  have hlast := List.rdropWhile_last_not onFringe (s.dropWhile onFringe) hne
  rw [List.getLast?_eq_some_getLast hne] at h
  obtain rfl := Option.some.inj h
  simpa [stripFringe] using hlast

/-- The sanitizer leaves no space and no dot at the ends. -/
theorem sanitized_not_fringed (s : Bytes) : ¬Fringed (sanitizeFilename s) := by
  rw [sanitizeFilename_eq]
  split
  · decide
  · have hplain : ∀ c, (keptPart s).head? = some c ∨ (keptPart s).getLast? = some c →
        substitute c ≠ 32 ∧ substitute c ≠ 46 := by
      intro c hc
      have hfringe : onFringe (substitute c) = false :=
        (onFringe_substitute c).trans (hc.elim head_stripFringe getLast_stripFringe)
      simpa [onFringe] using hfringe
    unfold Fringed
    simp only [List.head?_map,List.getLast?_map,Option.map_eq_some_iff]
    rintro ((⟨c,hc,he⟩ | ⟨c,hc,he⟩) | (⟨c,hc,he⟩ | ⟨c,hc,he⟩))
    · exact (hplain c (Or.inl hc)).1 he
    · exact (hplain c (Or.inl hc)).2 he
    · exact (hplain c (Or.inr hc)).1 he
    · exact (hplain c (Or.inr hc)).2 he

/-- `a..b` -/
theorem not_sanitized_valid_always : ¬∀ s : Bytes, isValidFilename (sanitizeFilename s) = true := by
  intro hall
  have hdots := ((valid_iff_permitted _).mp (hall [97,46,46,98])).noParent
  exact hdots (by decide)

end NetworkLab.Backup
