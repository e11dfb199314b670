import NetworkLab.Backup.Linearizable
set_option autoImplicit false

/-! The status of a deletion or a rename over HTTP, and the directory that it leaves. -/

namespace NetworkLab.Backup
open Interaction

namespace Http

/-- The entry of the directory that a path names. -/
def entry (backupDir path : Bytes) : Bytes := path.drop (backupDir.length + 1)

theorem entry_child (backupDir name : Bytes) :
    entry backupDir (backupDir ++ [slash] ++ name) = name := by
  have hlen : (backupDir ++ [slash]).length = backupDir.length + 1 := by simp
  rw [entry,← hlen,List.drop_left]

/-- Between the directory and a name there is a slash. -/
def Slashed (backupDir : Bytes) : Prop := ∀ name, isValidFilename name = true →
  joinPath backupDir name = backupDir ++ [slash] ++ name

/-- A string that was parsed can be printed. -/
def Printable (parse : Bytes → Option Json) (dumpError : Bytes → Option String) : Prop :=
  ∀ body b key s, parse body = some b → b.get? key = some (.string s) → dumpError s = none

/-- The call that is to change the directory has this answer. -/
def Outcome (ok : Bool) : Event Res → Prop
  | ⟨.deleteFile _,done⟩ => done = ok
  | ⟨.renameFile _ _,done⟩ => done = ok
  | _ => True

/-- A file is to be deleted, and the call that does it succeeds. -/
abbrev Deletes (files : Files Bytes) (ok : Bool) (filename : Bytes) : Prop :=
  isValidFilename filename = true ∧ (files filename).isSome ∧ ok = true

abbrev Moves (files : Files Bytes) (ok : Bool) (oldName newName : Bytes) : Prop :=
  (isValidFilename oldName = true ∧ isValidFilename newName = true) ∧
    ((files oldName).isSome ∧ files newName = none) ∧ ok = true

/-- The directory after a deletion, if there is one. -/
def afterDelete (files : Files Bytes) (ok : Bool) (filename : Bytes) : Option (Files Bytes) :=
  if Deletes files ok filename then some (files.delete filename) else none

/-- The directory after a rename, if there is one. -/
def afterRename (files : Files Bytes) (ok : Bool) : Option (Bytes × Bytes) → Option (Files Bytes)
  | some (oldName,newName) =>
    if Moves files ok oldName newName then some (files.move oldName newName) else none
  | none => none

/-- Success is told exactly when the directory has become the one that was wanted. -/
structure Fulfils (wanted : Option (Files Bytes)) (files files' : Files Bytes) (resp : Response) :
    Prop where
  status : resp.status = 200 ↔ wanted.isSome
  performed : resp.status = 200 → wanted = some files'
  unchanged : resp.status ≠ 200 → files' = files

section Contract
variable {config : Server.ServerConfig} {dumpError : Bytes → Option String}
variable {files : Files Bytes} {wanted : Option (Files Bytes)} {files' : Files Bytes}
variable {resp : Response} {ok : Bool} {tr : Trace} {filename oldName newName : Bytes}

theorem fulfils_success (hs : resp.status = 200) (h : wanted = some files') :
    Fulfils wanted files files' resp :=
  ⟨by simp [hs,h],fun _ => h,fun hno => absurd hs hno⟩

theorem fulfils_failure (hs : resp.status ≠ 200) (h : wanted = none) (hf : files' = files) :
    Fulfils wanted files files' resp :=
  ⟨by simp [hs,h],fun hyes => absurd hyes hs,fun _ => hf⟩

theorem entry_path : entry config.backupDir ((Server.httpServer config dumpError).path filename) =
    filename := entry_child _ _

theorem entry_joinPath (hd : Slashed config.backupDir) (hv : isValidFilename filename = true) :
    entry config.backupDir (joinPath config.backupDir filename) = filename := by
  rw [hd filename hv,entry_child]

theorem fileExists_agrees {there : Bool} (h : Agrees (entry config.backupDir) files
    ⟨.fileExists ((Server.httpServer config dumpError).path filename),there⟩) :
    there = (files filename).isSome := by
  change there = (files (entry config.backupDir _)).isSome at h
  rwa [entry_path] at h

theorem fulfils_not_deleted {code : Nat} {error : String} (hcode : code ≠ 200)
    (hno : ¬Deletes files ok filename) (hf : files' = files) :
    Fulfils (afterDelete files ok filename) files files' (failure code error) ↔
      ¬(Deletes files ok filename ∧ dumpError filename ≠ none) :=
  iff_of_true (fulfils_failure hcode (if_neg hno) hf) fun hc => hno hc.1

theorem fulfils_not_moved {code : Nat} {error : String} (hcode : code ≠ 200)
    (hno : ¬Moves files ok oldName newName) (hf : files' = files) :
    Fulfils (afterRename files ok (some (oldName,newName))) files files' (failure code error) :=
  fulfils_failure hcode (if_neg hno) hf

/-- A file that is deleted, but whose name cannot be printed, is not told to be deleted. -/
theorem Delete.fulfils_iff (hd : Slashed config.backupDir)
    (h : Delete config dumpError filename tr resp)
    (hc : Consistent (entry config.backupDir) files tr) (ho : ∀ ev ∈ tr, Outcome ok ev) :
    Fulfils (afterDelete files ok filename) files
        (filesAfter (entry config.backupDir) files tr) resp ↔
      ¬(Deletes files ok filename ∧ dumpError filename ≠ none) := by
  cases h with
  | invalid hv =>
    exact fulfils_not_deleted (by decide) (fun hdel => Bool.false_ne_true (hv.symm.trans hdel.1)) rfl
  | notFound hv =>
    have hthere : false = (files filename).isSome := fileExists_agrees hc.2.2.1
    exact fulfils_not_deleted (by decide)
      (fun hdel => Bool.false_ne_true (hthere.trans hdel.2.1)) rfl
  | failed hv =>
    have hok : false = ok := ho ⟨.deleteFile (joinPath config.backupDir filename),false⟩ (by simp)
    exact fulfils_not_deleted (by decide)
      (fun hdel => Bool.false_ne_true (hok.trans hdel.2.2)) rfl
  | deleted hv hdump =>
    have hthere : true = (files filename).isSome := fileExists_agrees hc.2.2.1
    have hok : true = ok := ho ⟨.deleteFile (joinPath config.backupDir filename),true⟩ (by simp)
    refine iff_of_true (fulfils_success rfl ?_) fun hc => hc.2 hdump
    rw [afterDelete,if_pos ⟨hv,hthere.symm,hok.symm⟩]
    change _ = some (files.delete (entry config.backupDir (joinPath config.backupDir filename)))
    rw [entry_joinPath hd hv]
  | notDumped hv hdump =>
    have hthere : true = (files filename).isSome := fileExists_agrees hc.2.2.1
    have hok : true = ok := ho ⟨.deleteFile (joinPath config.backupDir filename),true⟩ (by simp)
    have hdel : Deletes files ok filename := ⟨hv,hthere.symm,hok.symm⟩
    refine iff_of_false (fun hf => ?_) fun hno => hno ⟨hdel,by simp [hdump]⟩
    have hstatus := hf.status.mpr (by rw [afterDelete,if_pos hdel]; rfl)
    cases hstatus

theorem RenameNames.fulfils (hd : Slashed config.backupDir)
    (hold : dumpError oldName = none) (hnew : dumpError newName = none)
    (h : RenameNames config dumpError oldName newName tr resp)
    (hc : Consistent (entry config.backupDir) files tr) (ho : ∀ ev ∈ tr, Outcome ok ev) :
    Fulfils (afterRename files ok (some (oldName,newName))) files
      (filesAfter (entry config.backupDir) files tr) resp := by
  cases h with
  | invalidOld hv =>
    exact fulfils_not_moved (by decide)
      (fun hmove => Bool.false_ne_true (hv.symm.trans hmove.1.1)) rfl
  | invalidNew _ hv =>
    exact fulfils_not_moved (by decide)
      (fun hmove => Bool.false_ne_true (hv.symm.trans hmove.1.2)) rfl
  | notFound hvo hvn =>
    have hthere : false = (files oldName).isSome := fileExists_agrees hc.2.2.1
    exact fulfils_not_moved (by decide)
      (fun hmove => Bool.false_ne_true (hthere.trans hmove.2.1.1)) rfl
  | conflict hvo hvn =>
    have htaken : true = (files newName).isSome := fileExists_agrees hc.2.2.2.1
    refine fulfils_not_moved (by decide) (fun hmove => ?_) rfl
    rw [hmove.2.1.2] at htaken
    cases htaken
  | failed hvo hvn =>
    have hok : false = ok := ho ⟨.renameFile (joinPath config.backupDir oldName)
      (joinPath config.backupDir newName),false⟩ (by simp)
    exact fulfils_not_moved (by decide)
      (fun hmove => Bool.false_ne_true (hok.trans hmove.2.2)) rfl
  | renamed hvo hvn hresp =>
    have hthere : true = (files oldName).isSome := fileExists_agrees hc.2.2.1
    have hfree : false = (files newName).isSome := fileExists_agrees hc.2.2.2.1
    have hok : true = ok := ho ⟨.renameFile (joinPath config.backupDir oldName)
      (joinPath config.backupDir newName),true⟩ (by simp)
    have hmove : Moves files ok oldName newName :=
      ⟨⟨hvo,hvn⟩,⟨hthere.symm,by simpa using hfree.symm⟩,hok.symm⟩
    refine fulfils_success (by rw [hresp,hnew,hold]; rfl) ?_
    rw [afterRename,if_pos hmove]
    change _ = some (files.move (entry config.backupDir (joinPath config.backupDir oldName))
      (entry config.backupDir (joinPath config.backupDir newName)))
    rw [entry_joinPath hd hvo,entry_joinPath hd hvn]

theorem names_of_strings {b : Json} (hold : b.get? "oldName" = some (.string oldName))
    (hnew : b.get? "newName" = some (.string newName)) :
    names (some b) = some (oldName,newName) := by
  rw [names,hold,hnew]

theorem strings_of_names {b : Json} (h : names (some b) = some (oldName,newName)) :
    b.get? "oldName" = some (.string oldName) ∧ b.get? "newName" = some (.string newName) := by
  simp only [names] at h
  split at h
  · rename_i ho hn
    obtain ⟨rfl,rfl⟩ := Prod.mk.inj (Option.some.inj h)
    exact ⟨ho,hn⟩
  · cases h

theorem Rename.fulfils {parse : Bytes → Option Json} {body : Bytes} (hd : Slashed config.backupDir)
    (hp : Printable parse dumpError) (h : Rename config dumpError (parse body) tr resp)
    (hc : Consistent (entry config.backupDir) files tr) (ho : ∀ ev ∈ tr, Outcome ok ev) :
    Fulfils (afterRename files ok (Http.names (parse body))) files
      (filesAfter (entry config.backupDir) files tr) resp := by
  generalize hb : parse body = b at h
  cases h with
  | malformed hno =>
    have hnone : Http.names b = none := by
      refine Option.eq_none_iff_forall_ne_some.mpr fun ⟨oldName,newName⟩ hnames => ?_
      cases b with
      | none => cases hnames
      | some b =>
        obtain ⟨hold,hnew⟩ := strings_of_names hnames
        exact hno b _ _ rfl hold hnew
    rw [hnone]
    exact fulfils_failure (by decide) rfl rfl
  | @missing b hno =>
    have hnone : Http.names (some b) = none := by
      refine Option.eq_none_iff_forall_ne_some.mpr fun ⟨oldName,newName⟩ hnames => ?_
      obtain ⟨hold,hnew⟩ := strings_of_names hnames
      rcases hno with hc | hc
      · rw [hc] at hold
        cases hold
      · rw [hc] at hnew
        cases hnew
    rw [hnone]
    exact fulfils_failure (by decide) rfl rfl
  | @names b oldName newName tr resp hold hnew hr =>
    rw [names_of_strings hold hnew]
    have hrest : Consistent (entry config.backupDir) files tr := hc.2
    have hdone := hr.fulfils hd (hp body _ _ _ hb hold) (hp body _ _ _ hb hnew) hrest
      fun ev hev => ho ev (List.mem_cons_of_mem _ hev)
    exact hdone

end Contract

/-- A deletion fulfils the contract unless the name of the deleted file cannot be printed; a rename
always does. -/
theorem delete_rename_contract {config : Server.ServerConfig} {parse : Bytes → Option Json}
    {dumpError : Bytes → Option String} (hd : Slashed config.backupDir)
    (hp : Printable parse dumpError) :
    (∀ files ok filename tr resp,
      Runs (delete (Server.httpServer config dumpError) filename) () tr resp () →
        Consistent (entry config.backupDir) files tr → (∀ ev ∈ tr, Outcome ok ev) →
          (Fulfils (afterDelete files ok filename) files
              (filesAfter (entry config.backupDir) files tr) resp ↔
            ¬(Deletes files ok filename ∧ dumpError filename ≠ none))) ∧
    ∀ files ok body tr resp,
      Runs (rename (Server.httpServer config dumpError) (parse body)) () tr resp () →
        Consistent (entry config.backupDir) files tr → (∀ ev ∈ tr, Outcome ok ev) →
          Fulfils (afterRename files ok (names (parse body))) files
            (filesAfter (entry config.backupDir) files tr) resp :=
  ⟨fun _ _ _ _ _ hr hc ho => (runs_delete hr).fulfils_iff hd hc ho,
    fun _ _ _ _ _ hr hc ho => (runs_rename hr).fulfils hd hp hc ho⟩

section Samples

theorem slashed_sample : Slashed Server.sampleConfig.backupDir :=
  fun _ hv => (path_eq_joinPath hv).symm

/-- The byte 255 is in no UTF-8 text. -/
def dumpError255 (s : Bytes) : Option String :=
  if 255 ∈ s then some "invalid UTF-8 byte" else none

/-- One empty file. -/
def oneFile (name : Bytes) : Files Bytes := Function.update (fun _ => none) name (some [])

/-- The calls of a deletion that is performed, up to the response. -/
def deleting (name : Bytes) : Trace :=
  [requested "/api/files" "DELETE",⟨.accepted name,()⟩,
    ⟨.fileExists ((Server.httpServer Server.sampleConfig dumpError255).path name),true⟩,
    ⟨.deleteFile (joinPath Server.sampleConfig.backupDir name),true⟩,counted "http_delete"]

theorem outcome_deleting (name : Bytes) : ∀ ev ∈ deleting name, Outcome true ev := by
  simp [deleting,requested,counted,Outcome]

theorem consistent_deleting {name : Bytes} (hv : isValidFilename name = true) :
    Consistent (entry Server.sampleConfig.backupDir) (oneFile name) (deleting name) := by
  have hthere : true = (oneFile name (entry Server.sampleConfig.backupDir
      ((Server.httpServer Server.sampleConfig dumpError255).path name))).isSome := by
    rw [entry_path,oneFile,Function.update_self]
    rfl
  have hgone : (oneFile name (entry Server.sampleConfig.backupDir
      (joinPath Server.sampleConfig.backupDir name))).isSome := by
    rw [entry_joinPath slashed_sample hv,oneFile,Function.update_self]
    rfl
  exact ⟨trivial,trivial,hthere,hgone,trivial,trivial⟩

/-- `a` is to become `b`: the body of the request, and what is in it. -/
def renameBody : Bytes :=
  ascii ("\x7b\"oldName\":\"a\",\"newName\":\"b\"\x7d").toList

def renameJson : Json :=
  .object [("oldName",.string (ascii ['a'])),("newName",.string (ascii ['b']))]

def parseRename (body : Bytes) : Option Json := if body = renameBody then some renameJson else none

theorem printable_parseRename : Printable parseRename dumpError255 := by
  intro body b key s hb hs
  unfold parseRename at hb
  split at hb
  · cases hb
    simp only [Json.get?,renameJson,List.lookup_cons] at hs
    split at hs
    · cases hs
      decide
    · split at hs
      · cases hs
        decide
      · cases hs
  · cases hb

/-- The file `a` is deleted, or becomes `b`. -/
theorem delete_rename_contract_plain :
    Fulfils (afterDelete (oneFile [97]) true [97]) (oneFile [97])
        (filesAfter (entry Server.sampleConfig.backupDir) (oneFile [97]) (deleting [97]))
        (success [("filename",.name [97])]) ∧
      Fulfils (afterRename (oneFile [97]) true (some ([97],[98]))) (oneFile [97])
        (filesAfter (entry Server.sampleConfig.backupDir) (oneFile [97])
          (lookTrace 'a' ++ moveTrace 'a')) (renamedTo 'a') := by
  constructor
  · refine ((delete_rename_contract slashed_sample printable_parseRename).1 (oneFile [97]) true [97]
      (deleting [97]) _ ?_ (consistent_deleting (by decide)) (outcome_deleting [97])).mpr
        fun hc => hc.2 (by decide)
    exact runs_ask_bind.mpr ⟨(),_,rfl,runs_validate_bind.mpr (Or.inr ⟨by decide,_,rfl,
      runs_ask_bind.mpr ⟨true,_,rfl,runs_ask_bind.mpr ⟨true,_,rfl,runs_ask_bind.mpr ⟨(),_,rfl,
        runs_pure.mpr ⟨rfl,rfl,rfl⟩⟩⟩⟩⟩)⟩
  · have hparse : parseRename renameBody = some renameJson := if_pos rfl
    have hnames : Http.names (parseRename renameBody) = some ([97],[98]) := by
      rw [hparse]
      rfl
    have hf := (delete_rename_contract slashed_sample printable_parseRename).2 (oneFile [97]) true
      renameBody (lookTrace 'a' ++ moveTrace 'a') (renamedTo 'a') ?_ ?_ ?_
    · rwa [hnames] at hf
    · rw [hparse]
      exact exec_of_replay (by decide +kernel)
    · exact ⟨trivial,trivial,trivial,rfl,rfl,rfl,trivial,trivial⟩
    · simp [lookTrace,moveTrace,requested,counted,Outcome]

/-- The file with the name 255 is deleted, and the response has status 500. -/
theorem not_delete_contract_always :
    ¬∀ (config : Server.ServerConfig) (dumpError : Bytes → Option String) (files : Files Bytes)
      (ok : Bool) (filename : Bytes) (tr : Trace) (resp : Response), Slashed config.backupDir →
        Runs (delete (Server.httpServer config dumpError) filename) () tr resp () →
          Consistent (entry config.backupDir) files tr → (∀ ev ∈ tr, Outcome ok ev) →
            Fulfils (afterDelete files ok filename) files
              (filesAfter (entry config.backupDir) files tr) resp := by
  intro hall
  have hf := hall Server.sampleConfig dumpError255 (oneFile [255]) true [255]
    (deleting [255] ++ [errorMark "http_delete" "exception"]) (failure 500 "invalid UTF-8 byte")
    slashed_sample ?_ ?_ ?_
  · have hthere : Deletes (oneFile [255]) true [255] := ⟨by decide,by simp [oneFile],rfl⟩
    have hstatus := hf.status.mpr (by rw [afterDelete,if_pos hthere]; rfl)
    cases hstatus
  · exact runs_ask_bind.mpr ⟨(),_,rfl,runs_validate_bind.mpr (Or.inr ⟨by decide,_,rfl,
      runs_ask_bind.mpr ⟨true,_,rfl,runs_ask_bind.mpr ⟨true,_,rfl,runs_ask_bind.mpr ⟨(),_,rfl,
        runs_recordError_pure.mpr ⟨rfl,rfl⟩⟩⟩⟩⟩)⟩
  · exact (consistent_append _ _).mpr ⟨consistent_deleting (by decide),trivial,trivial⟩
  · exact List.forall_mem_append.mpr ⟨outcome_deleting [255],by simp [errorMark,Outcome]⟩

end Samples

end Http

end NetworkLab.Backup
