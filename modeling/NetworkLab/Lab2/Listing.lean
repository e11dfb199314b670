import NetworkLab.Lab2.Client
set_option autoImplicit false

/-! The answer to `ls`: names packed into one buffer, and read out of it. -/

namespace NetworkLab.Lab2

/-- The names for which there is room behind `offset`. -/
def packed (dataBufLen : Nat) : List Name → Nat → List Name
  | [], _ => []
  | file :: files, offset =>
    if offset + file.length + 1 < dataBufLen then
      file :: packed dataBufLen files (offset + file.length + 1)
    else packed dataBufLen files offset

/-- Each name with its zero byte. -/
def entries (files : List Name) : Bytes := files.flatMap (· ++ [0])

section Listing
variable {N : Nat} {files : List Name} {offset : Nat}

@[simp] theorem entries_nil : entries [] = [] := rfl

@[simp] theorem entries_cons (file : Name) (files : List Name) :
    entries (file :: files) = file ++ 0 :: entries files := by
  simp [entries]

theorem strcpy_zeros (pre : Bytes) (file : Name) :
    strcpy (pre ++ List.replicate (N - pre.length) 0) pre.length file =
      (pre ++ (file ++ [0])) ++ List.replicate (N - (pre ++ (file ++ [0])).length) 0 := by
  unfold strcpy
  have hdrop : (pre ++ List.replicate (N - pre.length) (0 : UInt8)).drop
      (pre.length + file.length + 1) =
      List.replicate (N - (pre ++ (file ++ [0])).length) 0 := by
    rw [Nat.add_assoc,← List.drop_drop,List.drop_left,List.drop_replicate]
    simp only [List.length_append,List.length_singleton]
    congr 1
    omega
  rw [hdrop,List.take_left]
  simp

theorem pack_eq (files : List Name) (pre : Bytes) (hoffset : pre.length < N) :
    pack N files pre.length (pre ++ List.replicate (N - pre.length) 0) =
      (pre ++ entries (packed N files pre.length)) ++
        List.replicate (N - (pre ++ entries (packed N files pre.length)).length) 0 ∧
    (pre ++ entries (packed N files pre.length)).length < N := by
  induction files generalizing pre with
  | nil => simpa [pack,packed] using hoffset
  | cons file files ih =>
    by_cases hfit : pre.length + file.length + 1 < N
    · have hlen : (pre ++ (file ++ [0])).length = pre.length + file.length + 1 := by
        simp [Nat.add_assoc]
      obtain ⟨hpack,hlt⟩ := ih (pre ++ (file ++ [0])) (by omega)
      rw [← strcpy_zeros pre file,hlen] at hpack
      rw [hlen] at hlt
      simp only [pack,packed,if_pos hfit,entries_cons]
      rw [hpack]
      simpa [List.append_assoc] using hlt
    · simp only [pack,packed,if_neg hfit]
      exact ih pre hoffset

/-- A name is read up to its zero byte. -/
theorem walk_name (file rest : Name) (data : Bytes) (h : 0 ∉ rest) (hne : file ++ rest ≠ []) :
    walk file (rest ++ 0 :: data) = (walk [] data).map ((file ++ rest) :: ·) := by
  induction rest generalizing file with
  | nil =>
    simp only [List.append_nil] at hne ⊢
    simp [walk,hne]
  | cons b rest ih =>
    have hb : b ≠ 0 := fun hb => h (by simp [hb])
    rw [List.cons_append,walk,if_neg hb,ih (file ++ [b]) (fun h0 => h (by simp [h0])) (by simp)]
    simp

theorem walk_entries (h : ∀ file ∈ files, file ≠ [] ∧ 0 ∉ file) (data : Bytes) :
    walk [] (entries files ++ 0 :: data) = some files := by
  induction files with
  | nil => simp [walk]
  | cons file files ih =>
    obtain ⟨hne,h0⟩ := h file (by simp)
    rw [entries_cons,List.append_assoc,List.cons_append,walk_name [] file _ h0 (by simpa using hne),
      ih fun f hf => h f (by simp [hf])]
    rfl

theorem packed_sublist : (packed N files offset).Sublist files := by
  induction files generalizing offset with
  | nil => exact List.Sublist.refl _
  | cons file files ih =>
    unfold packed
    split
    · exact ih.cons_cons file
    · exact ih.cons file

/-- What is left out has no room behind the names that are in the buffer. -/
theorem packed_full {file : Name} (hf : file ∈ files) (hout : file ∉ packed N files offset) :
    N ≤ offset + (entries (packed N files offset)).length + file.length + 1 := by
  induction files generalizing offset with
  | nil => cases hf
  | cons f files ih =>
    by_cases hfit : offset + f.length + 1 < N
    · simp only [packed,if_pos hfit,List.mem_cons,not_or,entries_cons,List.length_append,
        List.length_cons] at hf hout ⊢
      have := ih (hf.resolve_left hout.1) hout.2
      omega
    · simp only [packed,if_neg hfit] at hout ⊢
      rcases List.mem_cons.mp hf with rfl | hf
      · omega
      · exact ih hf hout

theorem packed_all (h : offset + (entries files).length < N) : packed N files offset = files := by
  induction files generalizing offset with
  | nil => rfl
  | cons file files ih =>
    simp only [entries_cons,List.length_append,List.length_cons] at h
    rw [packed,if_pos (by omega),ih (by omega)]

/-- The client prints, in order and within the buffer, the names that the server has packed:
all of them if they are short enough, and none left out that had room behind the others. -/
theorem ls_listing (N : Nat) (files : List Name) (hN : 0 < N)
    (h : ∀ file ∈ files, file ≠ [] ∧ 0 ∉ file) :
    (listing N files).length = N ∧
    ∃ names, walk [] (listing N files) = some names ∧ names.Sublist files ∧
      (names = files ↔ (entries files).length < N) ∧
      ∀ file ∈ files, file ∉ names → N ≤ (entries names).length + file.length + 1 := by
  obtain ⟨hpack,hlt⟩ := pack_eq files [] hN
  simp only [List.length_nil,List.nil_append,Nat.sub_zero] at hpack hlt
  have hlist : listing N files = entries (packed N files 0) ++
      List.replicate (N - (entries (packed N files 0)).length) 0 := hpack
  obtain ⟨k,hk⟩ := Nat.exists_eq_add_of_lt hlt
  have hzeros : List.replicate (N - (entries (packed N files 0)).length) (0 : UInt8) =
      0 :: List.replicate k 0 := by
    rw [← List.replicate_succ]
    congr 1
    omega
  refine ⟨?_,packed N files 0,?_,packed_sublist,⟨fun he => ?_,fun hfit => ?_⟩,
    fun file hf hout => ?_⟩
  · rw [hlist,List.length_append,List.length_replicate]
    omega
  · rw [hlist,hzeros]
    exact walk_entries (fun file hf => h file (packed_sublist.subset hf)) _
  · rw [he] at hlt
    exact hlt
  · exact packed_all (by simpa using hfit)
  · simpa using packed_full hf hout

theorem ls_listing_two :
    ∃ names, walk [] (listing 4 [[97],[98,99],[100]]) = some names ∧
      names.Sublist [[97],[98,99],[100]] :=
  (ls_listing 4 [[97],[98,99],[100]] (by decide) (by decide)).2.imp fun _ h => ⟨h.1,h.2.1⟩

end Listing

end NetworkLab.Lab2
