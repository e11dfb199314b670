import NetworkLab.Backup.Names
set_option autoImplicit false

/-! What the validator lets pass, against the list in `RELIABILITY.md`. -/

namespace NetworkLab.Backup

/-- The part of a name before its first dot. -/
def stem (s : Bytes) : Bytes := s.takeWhile (· ≠ 46)

/-- All that the list asks for, but for the first and the last character. -/
structure Permitted (s : Bytes) : Prop where
  nonempty : s ≠ []
  short : s.length ≤ 255
  noSlash : slash ∉ s
  noBackslash : backslash ∉ s
  noParent : ¬[46,46] <:+: s
  noInvalid : ∀ c ∈ s, c ∉ invalidChars
  noControl : ∀ c ∈ s, ¬c < 32
  notReserved : ∀ r ∈ reserved, toLower (stem s) ≠ toLower r

/-- The name starts or ends with a space or a dot. -/
def Fringed (s : Bytes) : Prop :=
  (s.head? = some 32 ∨ s.head? = some 46) ∨ (s.getLast? = some 32 ∨ s.getLast? = some 46)

instance (s : Bytes) : Decidable (Fringed s) := inferInstanceAs (Decidable ((_ ∨ _) ∨ _ ∨ _))

/-- The names of the list. -/
def Documented (s : Bytes) : Prop := Permitted s ∧ ¬Fringed s

theorem lower_eq_dot (c : UInt8) : (if 65 ≤ c ∧ c ≤ 90 then c + 32 else c) = 46 ↔ c = 46 := by
  split
  · rename_i h
    obtain ⟨hlow,hhigh⟩ := h
    rw [UInt8.le_iff_toNat_le] at hlow hhigh
    rw [← UInt8.toNat_inj,← UInt8.toNat_inj,UInt8.toNat_add]
    simp at hlow hhigh ⊢
    omega
  · exact Iff.rfl

/-- The dot that ends the stem stays where it is. -/
theorem stem_map {f : UInt8 → UInt8} (hdot : ∀ c, f c = 46 ↔ c = 46) (s : Bytes) :
    stem (s.map f) = (stem s).map f := by
  have hcomp : (fun c : UInt8 => decide (c ≠ 46)) ∘ f = fun c => decide (c ≠ 46) := by
    funext c
    simp [hdot]
  rw [stem,stem,List.takeWhile_map,hcomp]

theorem reservedPart_eq (s : Bytes) : reservedPart s = toLower (stem s) := stem_map lower_eq_dot s

theorem toLower_reserved : ∀ r ∈ reserved, toLower r = r := by decide

theorem notReserved_iff (s : Bytes) :
    reservedPart s ∉ reserved ↔ ∀ r ∈ reserved, toLower (stem s) ≠ toLower r := by
  rw [reservedPart_eq]
  constructor
  · intro h r hr he
    rw [toLower_reserved r hr] at he
    exact h (he ▸ hr)
  · intro h hmem
    exact h _ hmem (toLower_reserved _ hmem).symm

/-- The checks for absolute paths and for null bytes are covered by the others. -/
theorem valid_iff_permitted (s : Bytes) : isValidFilename s = true ↔ Permitted s := by
  rw [valid_iff]
  constructor
  · rintro ⟨hne,hlen,hdots,-,-,hsep,-,hchars,hres⟩
    exact ⟨hne,hlen,fun h => hsep (Or.inl h),fun h => hsep (Or.inr h),hdots,
      fun c hc => (hchars c hc).1,fun c hc => (hchars c hc).2,(notReserved_iff s).mp hres⟩
  · intro h
    refine ⟨h.nonempty,h.short,h.noParent,?_,?_,?_,?_,fun c hc => ⟨h.noInvalid c hc,h.noControl c hc⟩,
      (notReserved_iff s).mpr h.notReserved⟩
    · rintro (hc | hc)
      · exact h.noSlash (List.mem_of_head? hc)
      · exact h.noBackslash (List.mem_of_head? hc)
    · intro hc
      exact h.noInvalid 58 (List.mem_of_getElem? hc) (by decide)
    · rintro (hc | hc)
      · exact h.noSlash hc
      · exact h.noBackslash hc
    · intro hc
      exact h.noControl 0 hc (by decide)

/-- The validator and the list agree on a name exactly when no other rule lets pass a name that
starts or ends with a space or a dot. -/
theorem validator_documented (s : Bytes) :
    (isValidFilename s = true ↔ Documented s) ↔ ¬(Permitted s ∧ Fringed s) := by
  rw [valid_iff_permitted,Documented]
  constructor
  · rintro h ⟨hp,hf⟩
    exact (h.mp hp).2 hf
  · intro h
    exact ⟨fun hp => ⟨hp,fun hf => h ⟨hp,hf⟩⟩,fun hd => hd.1⟩

/-- `.a` -/
theorem not_validator_documented_always :
    ¬∀ s : Bytes, isValidFilename s = true ↔ Documented s := by
  intro hall
  have hd := (hall [46,97]).mp (by decide)
  exact hd.2 (by decide)

end NetworkLab.Backup
