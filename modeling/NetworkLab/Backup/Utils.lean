import Mathlib.Data.List.Infix
set_option autoImplicit false

/-! Names and paths: `utils.cpp`, `file_utils.cpp`. A `std::string` is its bytes. -/

namespace NetworkLab.Backup

abbrev Bytes := List UInt8

def ascii (cs : List Char) : Bytes := cs.map fun c => UInt8.ofNat c.toNat

def slash : UInt8 := 47
def backslash : UInt8 := 92

/-- What the constructor from a `char*` reads: all bytes before the first zero. -/
def cString (memory : Bytes) : Bytes := memory.takeWhile (· ≠ 0)

/-- The reasons that `getFilenameValidationError` can give. -/
inductive FilenameError where
  | empty
  | tooLong
  | traversal
  | absolute
  | windowsAbsolute
  | separators
  | nullBytes
  | invalidCharacter (c : UInt8)
  | control
  | reserved (filename : Bytes)
  deriving DecidableEq, Repr

/-- The text that is returned for the reason. -/
def FilenameError.text : FilenameError → Bytes
  | .empty => ascii "Filename cannot be empty".toList
  | .tooLong => ascii "Filename too long (max 255 characters)".toList
  | .traversal => ascii "Path traversal attempt detected (..)".toList
  | .absolute => ascii "Absolute paths are not allowed".toList
  | .windowsAbsolute => ascii "Windows absolute paths are not allowed".toList
  | .separators => ascii "Path separators are not allowed in filename".toList
  | .nullBytes => ascii "Null bytes are not allowed".toList
  | .invalidCharacter c => ascii "Invalid character in filename: ".toList ++ [c]
  | .control => ascii "Control characters are not allowed".toList
  | .reserved filename => ascii "Reserved filename: ".toList ++ filename

/-- `<>:"|?*` -/
def invalidChars : Bytes := [60,62,58,34,124,63,42]

def toLower (str : Bytes) : Bytes :=
  str.map fun c => if 65 ≤ c ∧ c ≤ 90 then c + 32 else c

def reserved : List Bytes :=
  [ascii ['c','o','n'],ascii ['p','r','n'],ascii ['a','u','x'],ascii ['n','u','l']] ++
    ['1','2','3','4','5','6','7','8','9'].map (fun d => ascii ['c','o','m',d]) ++
    ['1','2','3','4','5','6','7','8','9'].map (fun d => ascii ['l','p','t',d])

/-- `lowerName` up to its first dot. -/
def reservedPart (filename : Bytes) : Bytes := (toLower filename).takeWhile (· ≠ 46)

def getFilenameValidationError (filename : Bytes) : Option FilenameError :=
  if filename = [] then some .empty
  else if 255 < filename.length then some .tooLong
  else if [46,46] <:+: filename then some .traversal
  else if filename.head? = some slash ∨ filename.head? = some backslash then some .absolute
  else if filename[1]? = some 58 then some .windowsAbsolute
  else if slash ∈ filename ∨ backslash ∈ filename then some .separators
  else if 0 ∈ filename then some .nullBytes
  else
    match filename.findSome? fun c =>
      if c ∈ invalidChars then some (FilenameError.invalidCharacter c)
      else if c < 32 then some .control else none with
    | some e => some e
    | none => if reservedPart filename ∈ reserved then some (.reserved filename) else none

def isValidFilename (filename : Bytes) : Bool := (getFilenameValidationError filename).isNone

theorem text_ne_nil (e : FilenameError) : e.text ≠ [] := by
  cases e <;> simp [FilenameError.text,ascii]

/-- The source tells success from an error by its text, which is empty for a valid name only. -/
theorem isValidFilename_iff_text (filename : Bytes) : isValidFilename filename = true ↔
    (getFilenameValidationError filename).elim [] FilenameError.text = [] := by
  unfold isValidFilename
  cases getFilenameValidationError filename with
  | none => simp
  | some e => simp [text_ne_nil]

/-- The branch for other systems than Windows. -/
def joinPath (base child : Bytes) : Bytes :=
  if base = [] then child
  else if child = [] then base
  else
    let hasTrailingSep := base.getLast? = some slash ∨ base.getLast? = some backslash
    let hasLeadingSep := child.head? = some slash ∨ child.head? = some backslash
    if hasTrailingSep ∧ hasLeadingSep then base ++ child.drop 1
    else if ¬hasTrailingSep ∧ ¬hasLeadingSep then base ++ [slash] ++ child
    else base ++ child

/-- `path` behind its last separator. -/
def getFilename (path : Bytes) : Bytes :=
  (path.reverse.takeWhile fun c => c ≠ slash ∧ c ≠ backslash).reverse

theorem valid_ne_nil {n : Bytes} (h : isValidFilename n = true) : n ≠ [] := by
  rintro rfl
  simp [isValidFilename,getFilenameValidationError] at h

theorem valid_no_separator {n : Bytes} (h : isValidFilename n = true) :
    slash ∉ n ∧ backslash ∉ n := by
  unfold isValidFilename getFilenameValidationError at h
  split at h
  · simp at h
  · split at h
    · simp at h
    · split at h
      · simp at h
      · split at h
        · simp at h
        · split at h
          · simp at h
          · split at h
            · simp at h
            · rename_i hs
              exact not_or.mp hs

end NetworkLab.Backup
