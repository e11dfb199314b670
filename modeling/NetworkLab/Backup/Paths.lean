import NetworkLab.Backup.Http
import NetworkLab.Backup.Traces
import NetworkLab.Backup.Validator
import NetworkLab.Lib.LexicalPath
set_option autoImplicit false

/-! Where the path of a name leads: to a child of the directory, and to the same file over
HTTP and over UDP. -/

namespace NetworkLab.Backup
open LexicalPath

/-- `path` before its last separator; nothing if there is none. -/
def getDirectory (path : Bytes) : Bytes :=
  ((path.reverse.dropWhile fun c => c ≠ slash ∧ c ≠ backslash).drop 1).reverse

/-- What the path functions take for a separator. -/
def isSeparator (c : UInt8) : Bool := decide (c = slash ∨ c = backslash)

/-- What the file system takes for a separator. -/
def isSlash (c : UInt8) : Bool := decide (c = slash)

/-- Without one trailing separator. -/
def trimmed (b : Bytes) : Bytes := if b.getLast?.any isSeparator then b.dropLast else b

section Join
variable {b n : Bytes}

theorem valid_not_separator (h : isValidFilename n = true) : ∀ c ∈ n, isSeparator c = false := by
  intro c hc
  obtain ⟨hslash,hback⟩ := valid_no_separator h
  refine decide_eq_false ?_
  rintro (rfl | rfl)
  · exact hslash hc
  · exact hback hc

theorem valid_ne_parent (h : isValidFilename n = true) : n ≠ [46,46] := by
  rintro rfl
  exact ((valid_iff_permitted _).mp h).noParent List.infix_rfl

/-- A name is put behind the separator that is there, or behind a new one. -/
theorem joinPath_valid (hb : b ≠ []) (hn : isValidFilename n = true) :
    ∃ a s, isSeparator s = true ∧ joinPath b n = a ++ s :: n ∧ trimmed b = a ∧
      (b = a ++ [s] ∨ a = b ∧ s = slash ∧ b.getLast?.any isSeparator = false) := by
  have hlead : ¬(n.head? = some slash ∨ n.head? = some backslash) := by
    obtain ⟨hslash,hback⟩ := valid_no_separator hn
    rintro (h | h)
    · exact hslash (List.mem_of_head? h)
    · exact hback (List.mem_of_head? h)
  rw [joinPath,if_neg hb,if_neg (valid_ne_nil hn)]
  obtain ⟨a,s,rfl⟩ : ∃ a s, b = a ++ [s] :=
    ⟨b.dropLast,b.getLast hb,(List.dropLast_append_getLast hb).symm⟩
  by_cases hs : isSeparator s = true
  · refine ⟨a,s,hs,?_,by simp [trimmed,hs],Or.inl rfl⟩
    have htrail : s = slash ∨ s = backslash := of_decide_eq_true hs
    simp [hlead,htrail]
  · refine ⟨a ++ [s],slash,by decide,?_,by simp [trimmed,hs],
      Or.inr ⟨rfl,rfl,by simpa using hs⟩⟩
    have htrail : ¬(s = slash ∨ s = backslash) := fun h => hs (decide_eq_true h)
    simp [hlead,htrail]

theorem reverse_join (a : Bytes) (s : UInt8) (n : Bytes) :
    (a ++ s :: n).reverse = n.reverse ++ s :: a.reverse := by simp

theorem not_isSeparator (c : UInt8) : decide (c ≠ slash ∧ c ≠ backslash) = !isSeparator c := by
  rw [isSeparator,← decide_not,decide_eq_decide,not_or]

theorem getFilename_join {s : UInt8} (a : Bytes) (hs : isSeparator s = true)
    (hn : ∀ c ∈ n, isSeparator c = false) : getFilename (a ++ s :: n) = n := by
  have hall : ∀ c ∈ n.reverse, (!isSeparator c) = true := by
    intro c hc
    rw [hn c (List.mem_reverse.mp hc),Bool.not_false]
  simp only [getFilename,not_isSeparator]
  rw [reverse_join,List.takeWhile_append_of_pos hall,List.takeWhile_cons_of_neg (by simp [hs]),
    List.append_nil,List.reverse_reverse]

theorem getDirectory_join {s : UInt8} (a : Bytes) (hs : isSeparator s = true)
    (hn : ∀ c ∈ n, isSeparator c = false) : getDirectory (a ++ s :: n) = a := by
  have hall : ∀ c ∈ n.reverse, (!isSeparator c) = true := by
    intro c hc
    rw [hn c (List.mem_reverse.mp hc),Bool.not_false]
  simp only [getDirectory,not_isSeparator]
  rw [reverse_join,List.dropWhile_append_of_pos hall,List.dropWhile_cons_of_neg (by simp [hs]),
    List.drop_one,List.tail_cons,List.reverse_reverse]

end Join

/-- `.` and empty components are dropped, `..` is resolved. -/
def lexicallyNormal (path : Bytes) : Place UInt8 := normalise isSeparator [46] [46,46] path

/-- The path of a name is that of a direct child of the directory. -/
structure DirectChild (b n : Bytes) : Prop where
  filename : getFilename (joinPath b n) = n
  directory : getDirectory (joinPath b n) = trimmed b
  entry : lexicallyNormal (joinPath b n) = (lexicallyNormal b).child n

/-- The one valid name that is no child is that of the directory itself. -/
theorem valid_direct_child {b n : Bytes} (hb : b ≠ []) (hn : isValidFilename n = true) :
    DirectChild b n ↔ n ≠ [46] := by
  have hno := valid_not_separator hn
  obtain ⟨a,s,hs,hjoin,htrim,hcase⟩ := joinPath_valid hb hn
  have hbase : lexicallyNormal (a ++ [s]) = lexicallyNormal b := by
    rcases hcase with rfl | ⟨rfl,rfl,-⟩
    · rfl
    · exact normalise_trailing hs hb
  constructor
  · rintro h rfl
    have hhere : lexicallyNormal (a ++ s :: [46]) = lexicallyNormal (a ++ [s]) :=
      normalise_here a hs (by decide) hno
    have hentry := h.entry
    rw [hjoin,hhere,hbase] at hentry
    exact Place.child_ne _ _ hentry.symm
  · intro hdot
    refine ⟨?_,?_,?_⟩
    · rw [hjoin,getFilename_join a hs hno]
    · rw [hjoin,getDirectory_join a hs hno,htrim]
    · rw [hjoin,← hbase]
      exact normalise_child a hs (valid_ne_nil hn) hno hdot (valid_ne_parent hn)

theorem valid_direct_child_short : DirectChild [98] [97] ↔ [97] ≠ ([46] : Bytes) :=
  valid_direct_child (by decide) (by decide)

/-- The validator lets `.` pass. -/
theorem not_valid_direct_child_always :
    ¬∀ b n : Bytes, b ≠ [] → isValidFilename n = true → DirectChild b n := by
  intro hall
  have hchild := hall [98] [46] (by decide) (by decide)
  exact absurd hchild.entry (by decide)

section SameFile
variable {config : Server.ServerConfig} {dumpError : Bytes → Option String} {n : Bytes}

/-- The path of the HTTP handlers and the path of the callbacks and of the UDP handlers lead to
one file, from every current directory. -/
def SameFile (config : Server.ServerConfig) (dumpError : Bytes → Option String) (cwd : List Bytes)
    (n : Bytes) : Prop :=
  located isSlash cwd ((Server.httpServer config dumpError).path n) =
    located isSlash cwd (joinPath config.backupDir n)

instance (cwd : List Bytes) : Decidable (SameFile config dumpError cwd n) :=
  inferInstanceAs (Decidable (_ = _))

theorem path_eq (config : Server.ServerConfig) (dumpError : Bytes → Option String) (n : Bytes) :
    (Server.httpServer config dumpError).path n = config.backupDir ++ slash :: n := by
  simp [Http.HttpServer.path,Server.httpServer]

theorem valid_not_slash (h : isValidFilename n = true) : ∀ c ∈ n, isSlash c = false :=
  fun _ hc => decide_eq_false fun he => (valid_no_separator h).1 (he ▸ hc)

theorem last_name {front front' : List Bytes} {x y : Bytes} (h : front ++ [x] = front' ++ [y]) :
    x = y := (List.append_inj_right' h rfl |> List.singleton_inj.mp)

/-- Behind a backslash `joinPath` adds no slash, and the name becomes the end of a longer one. -/
theorem not_same_file_backslash (cwd : List Bytes) (a : Bytes) (hn : isValidFilename n = true) :
    located isSlash cwd (a ++ [backslash] ++ slash :: n) ≠
      located isSlash cwd (a ++ backslash :: n) := by
  intro he
  have hno := valid_not_slash hn
  have hrooted : rooted isSlash (a ++ [backslash] ++ slash :: n) =
      rooted isSlash (a ++ backslash :: n) := by
    rw [rooted_append _ (by simp),rooted_join a backslash n]
  obtain ⟨front,last,hext⟩ := @components_extend _ isSlash a
  have hlong := hext (backslash :: n) (by simp)
    (List.forall_mem_cons.mpr ⟨by decide,hno⟩)
  have hshort := components_child (a ++ [backslash]) (show isSlash slash = true by decide)
    (valid_ne_nil hn) hno
  rw [located,located,hrooted,hlong,hshort] at he
  have hname : n = last ++ backslash :: n := by
    split at he
    · exact last_name he
    · rw [← List.append_assoc,← List.append_assoc] at he
      exact last_name he
  have hlen := congrArg List.length hname
  simp only [List.length_append,List.length_cons] at hlen
  omega

/-- The two paths lead to one file unless the directory ends with a backslash, or is empty while
the current directory is not the root. -/
theorem same_file_iff (cwd : List Bytes) (hn : isValidFilename n = true) :
    SameFile config dumpError cwd n ↔
      config.backupDir.getLast? ≠ some backslash ∧ (config.backupDir = [] → cwd = []) := by
  have hne := valid_ne_nil hn
  have hno := valid_not_slash hn
  rw [SameFile,path_eq]
  generalize config.backupDir = d
  by_cases hd : d = []
  · subst hd
    have hcomp : components isSlash (slash :: n) = [n] :=
      components_child [] (s := slash) (by decide) hne hno
    have hroot : rooted isSlash (slash :: n) = true := rfl
    rw [List.nil_append,joinPath,if_pos rfl,located,located,hroot,rooted_of_name hno,hcomp,
      components_of_name hne hno]
    simp
  · obtain ⟨a,s,hs,hjoin,-,rfl | ⟨rfl,rfl,htrail⟩⟩ := joinPath_valid hd hn
    · rw [hjoin]
      rcases of_decide_eq_true hs with rfl | rfl
      · have hcomp : components isSlash (a ++ [slash] ++ slash :: n) =
            components isSlash (a ++ slash :: n) := by
          rw [components_child _ (by decide) hne hno,components_child _ (by decide) hne hno,
            components_append a [] (by decide),components_nil,List.append_nil]
        have hrooted : rooted isSlash (a ++ [slash] ++ slash :: n) =
            rooted isSlash (a ++ slash :: n) := by
          rw [rooted_append _ (by simp),rooted_join a slash n]
        rw [located,located,hcomp,hrooted]
        simp [slash,backslash]
      · exact iff_of_false (not_same_file_backslash cwd a hn) fun h => h.1 (by simp)
    · rw [hjoin]
      refine iff_of_true rfl ⟨fun hlast => ?_,fun hnil => absurd hnil hd⟩
      rw [hlast] at htrail
      exact absurd htrail (by decide)

theorem same_file_iff_default : SameFile Server.sampleConfig (fun _ => none) [[114]] [97] ↔
    Server.sampleConfig.backupDir.getLast? ≠ some backslash ∧
      (Server.sampleConfig.backupDir = [] → [[114]] = ([] : List Bytes)) :=
  same_file_iff [[114]] (by decide)

/-- The directory `b\`: over HTTP its child `a`, over UDP the file `b\a` beside it. -/
theorem not_same_file_always :
    ¬∀ (config : Server.ServerConfig) (dumpError : Bytes → Option String) (cwd : List Bytes)
      (n : Bytes), isValidFilename n = true → SameFile config dumpError cwd n := by
  intro hall
  have hsame := hall { Server.sampleConfig with backupDir := [98,92] } (fun _ => none) [] [97]
    (by decide)
  exact absurd hsame (by decide)

end SameFile

end NetworkLab.Backup
