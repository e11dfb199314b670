import NetworkLab.Backup.Concurrent
set_option autoImplicit false

/-! Two file requests at the same time against the same two one after the other. -/

namespace NetworkLab.Backup
open Interaction

namespace Http

inductive Request where
  | upload (file : Option MultipartFormData)
  | delete (filename : Bytes)
  | rename (body : Option Json)

def Request.run (server : HttpServer) : Request → Handler Response
  | .upload file => Http.upload server file
  | .delete filename => Http.delete server filename
  | .rename body => Http.rename server body

/-- The two names of a rename, if both are strings. -/
def names : Option Json → Option (Bytes × Bytes)
  | none => none
  | some b =>
    match b.get? "oldName",b.get? "newName" with
    | some (.string oldName),some (.string newName) => some (oldName,newName)
    | _,_ => none

section Commands
variable {F : Type} [DecidableEq F] (config : Server.ServerConfig)
variable (dumpError : Bytes → Option String) (resolve : Bytes → F)

/-- A request that touches no file. -/
def rejected : Guarded (Files F) := { tests := [fun _ => false], act := fun _ => none }

def uploadCommand (file : MultipartFormData) : Guarded (Files F) :=
  if isValidFilename file.filename = true ∧ file.content.length ≤ config.maxFileSize then
    { tests := []
      act := fun files => some (Function.update files
        (resolve ((Server.httpServer config dumpError).path file.filename))
        (some file.content)) }
  else rejected

def deleteCommand (filename : Bytes) : Guarded (Files F) :=
  if isValidFilename filename = true then
    { tests := [present resolve ((Server.httpServer config dumpError).path filename) true]
      act := fun files =>
        if (files (resolve (joinPath config.backupDir filename))).isSome then
          some (files.delete (resolve (joinPath config.backupDir filename)))
        else none }
  else rejected

def renameCommand (oldName newName : Bytes) : Guarded (Files F) :=
  if isValidFilename oldName = true ∧ isValidFilename newName = true then
    { tests := [present resolve ((Server.httpServer config dumpError).path oldName) true,
        present resolve ((Server.httpServer config dumpError).path newName) false]
      act := fun files =>
        if (files (resolve (joinPath config.backupDir oldName))).isSome then
          some (files.move (resolve (joinPath config.backupDir oldName))
            (resolve (joinPath config.backupDir newName)))
        else none }
  else rejected

/-- What a request does to the files. -/
def Request.command : Request → Guarded (Files F)
  | .upload none => rejected
  | .upload (some file) => uploadCommand config dumpError resolve file
  | .delete filename => deleteCommand config dumpError resolve filename
  | .rename body =>
    match names body with
    | some (oldName,newName) => renameCommand config dumpError resolve oldName newName
    | none => rejected

/-- The names in the response can be printed. -/
def Request.printable : Request → Bool
  | .upload none => false
  | .upload (some file) => (dumpError file.filename).isNone
  | .delete filename => (dumpError filename).isNone
  | .rename body =>
    match names body with
    | some (oldName,newName) => (dumpError newName).isNone && (dumpError oldName).isNone
    | none => false

end Commands

section Plays
variable {F : Type} [DecidableEq F] {config : Server.ServerConfig}
variable {dumpError : Bytes → Option String} {resolve : Bytes → F} {tr : Trace} {resp : Response}

/-- The handler takes the steps of its command, and answers 200 when the command succeeds
and the names can be printed. -/
def Follows (resolve : Bytes → F) (c : Guarded (Files F)) (printable : Bool) (tr : Trace)
    (resp : Response) : Prop :=
  ∃ ok, Plays resolve c c.start (atomicSteps tr) ok ∧
    (resp.status = 200 ↔ ok = true ∧ printable = true)

theorem not_answered {files : Files F} {ev : Event Res} {rest : Trace}
    (h : ¬Answers resolve files ev) : ¬Answered resolve files (ev :: rest) := fun ha => h ha.1

theorem filesAfter_put {files : Files F} {path data : Bytes} {stored : Fin (data.length + 1)}
    (h : Answered resolve files [⟨.ofstream path,true⟩,⟨.write path data,stored⟩]) :
    filesAfter resolve files [⟨.ofstream path,true⟩,⟨.write path data,stored⟩] =
      Function.update files (resolve path) (some data) := by
  have hstored : stored.val = data.length := h.2.1
  change Store.append (Function.update files (resolve path) (some [])) (resolve path)
    (data.take stored.val) = _
  rw [hstored,List.take_length,Store.append_update,List.nil_append]

/-- The step of an upload that stores the file. -/
theorem upload_plays {file : MultipartFormData} {stored : Fin (file.content.length + 1)}
    {made : Bool} {steps : List Trace} (hv : isValidFilename file.filename = true)
    (hsmall : file.content.length ≤ config.maxFileSize)
    (hrest : Plays resolve (Request.command config dumpError resolve (.upload (some file)))
      (.done true) steps true) :
    Plays resolve (Request.command config dumpError resolve (.upload (some file)))
      (Guarded.start (Request.command config dumpError resolve (.upload (some file))))
      ([requested "/api/upload" "POST"] :: [⟨.accepted file.filename,()⟩] ::
        [⟨.createDirectory config.backupDir,made⟩] ::
        [⟨.ofstream ((Server.httpServer config dumpError).path file.filename),true⟩,
          ⟨.write ((Server.httpServer config dumpError).path file.filename) file.content,
            stored⟩] :: steps) true := by
  have hc : uploadCommand config dumpError resolve file = _ := if_pos ⟨hv,hsmall⟩
  rw [Request.command,hc] at hrest ⊢
  refine .idle rfl (.idle rfl (.idle rfl (.act rfl (by simp [acted]) (fun files ha => ?_) hrest)))
  rw [filesAfter_put ha]

theorem upload_follows {file : Option MultipartFormData}
    (h : Upload (Server.httpServer config dumpError) file tr resp) :
    Follows resolve (Request.command config dumpError resolve (.upload file))
      (Request.printable dumpError (.upload file)) tr resp := by
  cases h with
  | noFile =>
    exact ⟨false,.refused rfl (.ended _),by simp [failure]⟩
  | @invalid file hv =>
    have hc : Request.command config dumpError resolve (.upload (some file)) = rejected :=
      if_neg (by simp [hv])
    rw [hc]
    exact ⟨false,.refused rfl (.idle rfl (.ended _)),by simp [failure]⟩
  | @tooLarge file hv hlarge =>
    have hc : Request.command config dumpError resolve (.upload (some file)) = rejected :=
      if_neg fun hand => absurd hlarge (Nat.not_lt.mpr hand.2)
    rw [hc]
    exact ⟨false,.refused rfl (.idle rfl (.idle rfl (.ended _))),by simp [failure]⟩
  | @notOpened file made hv hsmall =>
    refine ⟨false,.idle rfl (.idle rfl (.idle rfl (.impossible fun files => not_answered ?_))),
      by simp [failure]⟩
    exact fun h => by cases h
  | @stored file made stored hv hsmall hdump =>
    have hdump : dumpError file.filename = none := hdump
    refine ⟨true,upload_plays hv hsmall (.idle rfl (.idle rfl (.idle rfl (.ended _)))),?_⟩
    simp [success,Request.printable,hdump]
  | @notDumped file what made stored hv hsmall hdump =>
    have hdump : dumpError file.filename = some what := hdump
    refine ⟨true,upload_plays hv hsmall (.idle rfl (.idle rfl (.idle rfl (.idle rfl (.idle rfl
      (.ended _)))))),?_⟩
    simp [failure,Request.printable,hdump]

theorem delete_follows {filename : Bytes} (h : Delete config dumpError filename tr resp) :
    Follows resolve (Request.command config dumpError resolve (.delete filename))
      (Request.printable dumpError (.delete filename)) tr resp := by
  by_cases hv : isValidFilename filename = true
  · have hc : deleteCommand config dumpError resolve filename = _ := if_pos hv
    rw [Request.command,hc]
    have hact : ∀ files, Answered resolve files
        [⟨.deleteFile (joinPath config.backupDir filename),true⟩] →
        (if (files (resolve (joinPath config.backupDir filename))).isSome then
          some (files.delete (resolve (joinPath config.backupDir filename))) else none) =
        some (filesAfter resolve files
          [⟨.deleteFile (joinPath config.backupDir filename),true⟩]) :=
      fun files ha => if_pos ha.1.symm
    cases h with
    | invalid hno => cases hno.symm.trans hv
    | notFound => exact ⟨false,.idle rfl (.idle rfl (.look _ (.idle rfl (.ended _)))),
        by simp [failure]⟩
    | failed =>
      refine ⟨false,.idle rfl (.idle rfl (.look _ (.miss rfl (fun files ha => ⟨if_neg ?_,rfl⟩)
        (.idle rfl (.ended _))))),by simp [failure]⟩
      exact fun hsome => Bool.false_ne_true ((show false = _ from ha).trans hsome)
    | deleted _ hdump =>
      refine ⟨true,.idle rfl (.idle rfl (.look _ (.act rfl (by simp) hact
        (.idle rfl (.ended _))))),?_⟩
      simp [success,Request.printable,hdump]
    | notDumped _ hdump =>
      refine ⟨true,.idle rfl (.idle rfl (.look _ (.act rfl (by simp) hact
        (.idle rfl (.idle rfl (.ended _)))))),?_⟩
      simp [failure,Request.printable,hdump]
  · have hc : deleteCommand config dumpError resolve filename = rejected := if_neg hv
    rw [Request.command,hc]
    cases h with
    | invalid => exact ⟨false,.refused rfl (.idle rfl (.ended _)),by simp [failure]⟩
    | notFound hyes => exact absurd hyes hv
    | failed hyes => exact absurd hyes hv
    | deleted hyes => exact absurd hyes hv
    | notDumped hyes => exact absurd hyes hv

theorem renameNames_plays {oldName newName : Bytes}
    (h : RenameNames config dumpError oldName newName tr resp) :
    ∃ ok, Plays resolve (renameCommand config dumpError resolve oldName newName)
        (renameCommand config dumpError resolve oldName newName).start
        ([requested "/api/rename" "POST"] :: atomicSteps tr) ok ∧
      (resp.status = 200 ↔ ok = true ∧
        ((dumpError newName).isNone && (dumpError oldName).isNone) = true) := by
  by_cases hv : isValidFilename oldName = true ∧ isValidFilename newName = true
  · have hc : renameCommand config dumpError resolve oldName newName = _ := if_pos hv
    rw [hc]
    cases h with
    | invalidOld hno => cases hno.symm.trans hv.1
    | invalidNew _ hno => cases hno.symm.trans hv.2
    | notFound => exact ⟨false,.idle rfl (.idle rfl (.idle rfl (.look _ (.idle rfl (.ended _))))),
        by simp [failure]⟩
    | conflict => exact ⟨false,.idle rfl (.idle rfl (.idle rfl (.look _ (.look _
        (.idle rfl (.ended _)))))),by simp [failure]⟩
    | failed =>
      refine ⟨false,.idle rfl (.idle rfl (.idle rfl (.look _ (.look _ (.miss rfl
        (fun files ha => ⟨if_neg ?_,rfl⟩) (.idle rfl (.ended _))))))),by simp [failure]⟩
      exact fun hsome => Bool.false_ne_true ((show false = _ from ha).trans hsome)
    | renamed _ _ hresp =>
      refine ⟨true,.idle rfl (.idle rfl (.idle rfl (.look _ (.look _ (.act rfl (by simp)
        (fun files ha => if_pos ha.1.symm) (.idle rfl (.ended _))))))),?_⟩
      rw [hresp]
      cases hn : dumpError newName <;> cases ho : dumpError oldName <;> simp [success,failure]
  · have hc : renameCommand config dumpError resolve oldName newName = rejected := if_neg hv
    rw [hc]
    cases h with
    | invalidOld => exact ⟨false,.refused rfl (.idle rfl (.ended _)),by simp [failure]⟩
    | invalidNew => exact ⟨false,.refused rfl (.idle rfl (.idle rfl (.ended _))),
        by simp [failure]⟩
    | notFound ho hn => exact absurd ⟨ho,hn⟩ hv
    | conflict ho hn => exact absurd ⟨ho,hn⟩ hv
    | failed ho hn => exact absurd ⟨ho,hn⟩ hv
    | renamed ho hn => exact absurd ⟨ho,hn⟩ hv

theorem rename_follows {body : Option Json} (h : Rename config dumpError body tr resp) :
    Follows resolve (Request.command config dumpError resolve (.rename body))
      (Request.printable dumpError (.rename body)) tr resp := by
  have hnone : names body = none → tr = [requested "/api/rename" "POST"] →
      resp.status ≠ 200 → Follows resolve (Request.command config dumpError resolve (.rename body))
        (Request.printable dumpError (.rename body)) tr resp := by
    rintro hn rfl hresp
    simp only [Request.command,Request.printable,hn]
    exact ⟨false,.refused rfl (.ended _),by simp [hresp]⟩
  cases h with
  | malformed hno =>
    refine hnone ?_ rfl (by simp [failure])
    cases body with
    | none => rfl
    | some b =>
      unfold names
      simp only
      split
      · rename_i ho hn
        exact absurd hn (hno b _ _ rfl ho)
      · rfl
  | missing hno =>
    refine hnone ?_ rfl (by simp [failure])
    unfold names
    simp only
    split
    · rename_i ho hn
      rcases hno with h | h
      · cases h.symm.trans ho
      · cases h.symm.trans hn
    · rfl
  | @names b oldName newName tr resp ho hn h =>
    have hnames : names (some b) = some (oldName,newName) := by simp only [names,ho,hn]
    simp only [Request.command,Request.printable,hnames]
    exact renameNames_plays h

/-- Every request takes the steps of its command. -/
theorem Request.follows {r : Request}
    (h : Runs (r.run (Server.httpServer config dumpError)) () tr resp ()) :
    Follows resolve (r.command config dumpError resolve) (r.printable dumpError) tr resp := by
  cases r with
  | upload file => exact upload_follows (runs_upload h)
  | delete filename => exact delete_follows (runs_delete h)
  | rename body => exact rename_follows (runs_rename h)

end Plays

section Requests
variable {F : Type} [DecidableEq F] (config : Server.ServerConfig)
variable (dumpError : Bytes → Option String) (resolve : Bytes → F)

/-- A request runs alone: whether it is answered 200, and the files that it leaves. -/
def Alone (r : Request) (files : Files F) (answered : Prop) (files' : Files F) : Prop :=
  ∃ tr resp, Runs (r.run (Server.httpServer config dumpError)) () tr resp () ∧
    Answered resolve files tr ∧ (answered ↔ resp.status = 200) ∧
    files' = filesAfter resolve files tr

/-- Two requests run, and their steps alternate. -/
inductive Concurrent (r : Bool → Request) (files : Files F) (tr : Trace)
    (resp : Bool → Response) : Prop where
  | run {trs : Bool → Trace} {out : List (Bool × Trace)} :
      (∀ i, Runs ((r i).run (Server.httpServer config dumpError)) () (trs i) (resp i) ()) →
      Shuffle (fun i => atomicSteps (trs i)) out → tr = out.flatMap Prod.snd →
      Answered resolve files tr → Concurrent r files tr resp

/-- The answers and the files are those of one of the two orders. -/
def Linearizable (r : Bool → Request) (files : Files F) (tr : Trace) (resp : Bool → Response) :
    Prop :=
  ∃ i mid, Alone config dumpError resolve (r i) files ((resp i).status = 200) mid ∧
    Alone config dumpError resolve (r !i) mid ((resp !i).status = 200)
      (filesAfter resolve files tr)

/-- A renaming replaces a file that is there, and not by what an upload has just put
there. -/
def Overwrites (r : Bool → Request) (files : Files F) (tr : Trace) : Prop :=
  ∃ oldPath newPath before, (⟨.renameFile oldPath newPath,true⟩,before) ∈ history resolve files tr ∧
    (before (resolve newPath)).isSome ∧
    ∀ i file, r i = .upload (some file) → before (resolve oldPath) ≠ some file.content

end Requests

section Requests
variable {F : Type} [DecidableEq F] {config : Server.ServerConfig}
variable {dumpError : Bytes → Option String} {resolve : Bytes → F}

theorem alone_of_runs {r : Request} {files : Files F} {tr : Trace} {resp : Response}
    (h : Runs (r.run (Server.httpServer config dumpError)) () tr resp ())
    (ha : Answered resolve files tr) :
    ∃ ok, (r.command config dumpError resolve).alone files = (ok,filesAfter resolve files tr) ∧
      (resp.status = 200 ↔ ok = true ∧ r.printable dumpError = true) := by
  have hfollows : Follows resolve (r.command config dumpError resolve) (r.printable dumpError)
    tr resp := Request.follows h
  obtain ⟨ok,hplays,hresp⟩ := hfollows
  have hflat : ((atomicSteps tr).map fun x => ((),x)).flatMap Prod.snd = tr := by
    rw [List.flatMap_map]
    exact List.flatMap_id.trans (flatten_atomicSteps tr)
  have hsteps : ∀ i : Unit, Plays resolve ((fun _ => r.command config dumpError resolve) i)
      ((fun _ => (r.command config dumpError resolve).start) i) ((fun _ => atomicSteps tr) i)
      ((fun _ => ok) i) := fun _ => hplays
  obtain ⟨acts,ht,-⟩ := together_of_shuffle (Shuffle.single (atomicSteps tr)) hsteps
    (hflat.symm ▸ ha)
  rw [hflat] at ht
  exact ⟨ok,ht.alone,hresp⟩

/-- A request that runs alone does what its command does. -/
theorem alone_iff {r : Request} {files files' : Files F} {answered : Prop} :
    Alone config dumpError resolve r files answered files' ↔
      ∃ ok, (r.command config dumpError resolve).alone files = (ok,files') ∧
        (answered ↔ ok = true ∧ r.printable dumpError = true) := by
  constructor
  · rintro ⟨tr,resp,hrun,ha,hiff,rfl⟩
    obtain ⟨ok,halone,hresp⟩ := alone_of_runs hrun ha
    exact ⟨ok,halone,hiff.trans hresp⟩
  · rintro ⟨ok,halone,hiff⟩
    obtain ⟨tr,⟨resp,u⟩,hrun,ha⟩ := exists_answered resolve files
      (r.run (Server.httpServer config dumpError) ())
    obtain ⟨ok',halone',hresp⟩ := alone_of_runs hrun ha
    obtain ⟨rfl,rfl⟩ := Prod.mk.inj (halone.symm.trans halone')
    exact ⟨tr,resp,hrun,ha,hiff.trans hresp.symm,rfl⟩

/-- Only a rename renames, and it does nothing else to the files. -/
theorem acted_of_runs {r : Request} {tr : Trace} {resp : Response} {ev : Event Res}
    (h : Runs (r.run (Server.httpServer config dumpError)) () tr resp ()) (hev : ev ∈ tr)
    (ha : acted ev = true) :
    (∀ body, r ≠ .rename body) ∧ (∀ oldPath newPath, ev ≠ ⟨.renameFile oldPath newPath,true⟩) ∨
      ∃ body oldName newName, r = .rename body ∧ names body = some (oldName,newName) ∧
        isValidFilename oldName = true ∧ isValidFilename newName = true ∧
        ev = ⟨.renameFile (joinPath config.backupDir oldName)
          (joinPath config.backupDir newName),true⟩ := by
  have hacted : ev ∈ tr.filter acted := List.mem_filter.mpr ⟨hev,ha⟩
  cases r with
  | upload file =>
    refine Or.inl ⟨by simp,?_⟩
    rintro oldPath newPath rfl
    cases runs_upload h <;>
      simp [requested,errorMark,uploadFailed,uploadCounted] at hev
  | delete filename =>
    refine Or.inl ⟨by simp,?_⟩
    rintro oldPath newPath rfl
    cases runs_delete h <;> simp [requested,errorMark,counted] at hev
  | rename body =>
    refine Or.inr ?_
    cases runs_rename h with
    | malformed => simp [requested,acted] at hacted
    | missing => simp [requested,acted] at hacted
    | @names b oldName newName tr resp ho hn hnames =>
      have hsome : names (some b) = some (oldName,newName) := by simp only [names,ho,hn]
      cases hnames with
      | renamed hvo hvn _ =>
        refine ⟨_,_,_,rfl,hsome,hvo,hvn,?_⟩
        simp only [List.mem_cons,List.not_mem_nil,or_false] at hev
        rcases hev with rfl | rfl | rfl | rfl | rfl | rfl | rfl
        case inr.inr.inr.inr.inr.inl => rfl
        all_goals cases ha
      | _ => simp [requested,errorMark,acted] at hacted

/-- The file that a name stands for. -/
def fileOf (config : Server.ServerConfig) (resolve : Bytes → F) (name : Bytes) : F :=
  resolve (joinPath config.backupDir name)

section Paths
variable (hpath : ∀ name, isValidFilename name = true →
  resolve ((Server.httpServer config dumpError).path name) = resolve (joinPath config.backupDir name))
variable {oldName newName : Bytes} {files files' : Files F}
include hpath

/-- The tests of a rename. -/
theorem rename_tests_iff (ho : isValidFilename oldName = true)
    (hn : isValidFilename newName = true) :
    (∀ t ∈ (renameCommand config dumpError resolve oldName newName).tests, t files = true) ↔
      (files (fileOf config resolve oldName)).isSome ∧
        files (fileOf config resolve newName) = none := by
  rw [renameCommand,if_pos ⟨ho,hn⟩]
  simp [present,hpath oldName ho,hpath newName hn,fileOf]

omit hpath in
/-- What a request does when its action succeeds. -/
theorem command_act {r : Request} (h : (r.command config dumpError resolve).act files = some files') :
    (∃ file, r = .upload (some file) ∧ (r.command config dumpError resolve).tests = [] ∧
      ∀ s, (r.command config dumpError resolve).act s = some (Function.update s
        (resolve ((Server.httpServer config dumpError).path file.filename)) (some file.content))) ∨
    (∃ filename, r = .delete filename ∧ isValidFilename filename = true ∧
      (r.command config dumpError resolve).tests =
        [present resolve ((Server.httpServer config dumpError).path filename) true] ∧
      (files (fileOf config resolve filename)).isSome ∧
      files' = files.delete (fileOf config resolve filename)) ∨
    ∃ body oldName newName, r = .rename body ∧ names body = some (oldName,newName) ∧
      isValidFilename oldName = true ∧ isValidFilename newName = true ∧
      r.command config dumpError resolve = renameCommand config dumpError resolve oldName newName ∧
      (files (fileOf config resolve oldName)).isSome ∧
      files' = files.move (fileOf config resolve oldName) (fileOf config resolve newName) := by
  cases r with
  | upload file =>
    cases file with
    | none => cases h
    | some file =>
      rw [Request.command,uploadCommand] at h ⊢
      split at h
      · rename_i hv
        rw [if_pos hv]
        exact Or.inl ⟨file,rfl,rfl,fun _ => rfl⟩
      · cases h
  | delete filename =>
    rw [Request.command,deleteCommand] at h ⊢
    split at h
    · rename_i hv
      rw [if_pos hv]
      simp only at h
      split at h
      · rename_i hsome
        exact Or.inr (Or.inl ⟨filename,rfl,hv,rfl,hsome,(Option.some.inj h).symm⟩)
      · cases h
    · cases h
  | rename body =>
    refine Or.inr (Or.inr ?_)
    cases hb : names body with
    | none => simp [Request.command,hb,rejected] at h
    | some p =>
      obtain ⟨oldName,newName⟩ := p
      simp only [Request.command,hb] at h ⊢
      rw [renameCommand] at h
      split at h
      · rename_i hv
        simp only at h
        split at h
        · rename_i hsome
          exact ⟨body,oldName,newName,rfl,hb,hv.1,hv.2,rfl,hsome,(Option.some.inj h).symm⟩
        · cases h
      · cases h

/-- Who acts in a state that it has not tested is a rename, and its new name is taken. -/
theorem stale_cases {r : Bool → Request} {k : Bool} {s₁ s' : Files F}
    {acts : List (Bool × Files F)} {ok : Bool → Bool}
    (h : Guarded.Stale (fun i => (r i).command config dumpError resolve) k files s₁ acts ok s') :
    ∃ body oldName newName, r (!k) = .rename body ∧ names body = some (oldName,newName) ∧
      isValidFilename oldName = true ∧ isValidFilename newName = true ∧
      (files (fileOf config resolve oldName)).isSome ∧
      files (fileOf config resolve newName) = none ∧
      (s₁ (fileOf config resolve oldName)).isSome ∧
      (s₁ (fileOf config resolve newName)).isSome ∧
      s' = s₁.move (fileOf config resolve oldName) (fileOf config resolve newName) := by
  obtain ⟨t,ht,hfail⟩ := h.failed
  obtain ⟨before,after,htests,hbefore,hafter⟩ := h.tests
  rcases command_act h.second with ⟨file,-,hnil,-⟩ | ⟨filename,-,hv,hone,hsome,-⟩ |
    ⟨body,oldName,newName,hr,hnames,ho,hn,hc,hsome,rfl⟩
  · rw [hnil] at ht
    cases ht
  · rw [hone,List.mem_singleton] at ht
    have hhere : present resolve ((Server.httpServer config dumpError).path filename) true s₁ =
        true := by
      rw [present,hpath filename hv]
      exact beq_iff_eq.mpr hsome
    rw [ht,hhere] at hfail
    cases hfail
  · have hold : present resolve ((Server.httpServer config dumpError).path oldName) true s₁ =
        true := by
      rw [present,hpath oldName ho]
      exact beq_iff_eq.mpr hsome
    have htests' : (renameCommand config dumpError resolve oldName newName).tests =
        [present resolve ((Server.httpServer config dumpError).path oldName) true,
          present resolve ((Server.httpServer config dumpError).path newName) false] := by
      rw [renameCommand,if_pos ⟨ho,hn⟩]
    have hnew : present resolve ((Server.httpServer config dumpError).path newName) false s₁ =
        false := by
      rw [hc,htests'] at ht
      rcases List.mem_cons.mp ht with rfl | ht
      · exact absurd hold (by rw [hfail]; simp)
      · rwa [List.mem_singleton.mp ht] at hfail
    have hall : ∀ t ∈ (renameCommand config dumpError resolve oldName newName).tests,
        t files = true := by
      have hafter' : after = [] := by
        rw [hc,htests'] at htests
        have hno := fun hmem => hnew.symm.trans (hafter _ hmem)
        rcases before with _ | ⟨a,_ | ⟨b,before⟩⟩
        · obtain rfl : after = _ := htests.symm
          exact absurd (hno (by simp)) (by simp)
        · obtain ⟨-,rfl⟩ := List.cons.inj htests
          exact absurd (hno (by simp)) (by simp)
        · simp at htests
          exact htests.2.2.2
      rw [hc,hafter',List.append_nil] at htests
      rw [htests]
      exact hbefore
    obtain ⟨hthere,hfree⟩ := (rename_tests_iff hpath ho hn).mp hall
    refine ⟨body,oldName,newName,hr,hnames,ho,hn,hthere,hfree,hsome,?_,rfl⟩
    rw [present,hpath newName hn] at hnew
    simpa [fileOf] using hnew

/-- A rename moves the file when its new name is free. -/
theorem rename_alone_of_free (ho : isValidFilename oldName = true)
    (hn : isValidFilename newName = true) (hold : (files (fileOf config resolve oldName)).isSome)
    (hfree : files (fileOf config resolve newName) = none) :
    (renameCommand config dumpError resolve oldName newName).alone files =
      (true,files.move (fileOf config resolve oldName) (fileOf config resolve newName)) := by
  refine Guarded.alone_of_act ((rename_tests_iff hpath ho hn).mpr ⟨hold,hfree⟩) ?_
  rw [renameCommand,if_pos ⟨ho,hn⟩]
  exact if_pos hold

/-- A rename does nothing when its new name is taken. -/
theorem rename_alone_of_taken (ho : isValidFilename oldName = true)
    (hn : isValidFilename newName = true)
    (htaken : (files (fileOf config resolve newName)).isSome) :
    (renameCommand config dumpError resolve oldName newName).alone files = (false,files) := by
  refine Guarded.alone_of_not_tests fun hall => ?_
  rw [((rename_tests_iff hpath ho hn).mp hall).2] at htaken
  cases htaken

omit hpath in
/-- Who puts a file under a name that was free is an upload or a rename to it. -/
theorem puts_cases {r : Request} {s₁ : Files F} {f : F}
    (h : (r.command config dumpError resolve).alone files = (true,s₁)) (hfree : files f = none)
    (hput : (s₁ f).isSome) :
    (∃ file, r = .upload (some file) ∧
      (r.command config dumpError resolve).tests = [] ∧
      (∀ s, (r.command config dumpError resolve).act s =
        some (Function.update s f (some file.content)))) ∨
      ∃ body oldName newName, r = .rename body ∧ names body = some (oldName,newName) ∧
        isValidFilename oldName = true ∧ isValidFilename newName = true ∧
        fileOf config resolve newName = f ∧ (files (fileOf config resolve oldName)).isSome ∧
        s₁ = files.move (fileOf config resolve oldName) f := by
  obtain ⟨htests,hact⟩ := Guarded.alone_true h
  have hother : ∀ {g : F}, s₁ f = files f → f = g := by
    intro g he
    rw [he,hfree] at hput
    cases hput
  rcases command_act hact with ⟨file,hr,hnil,hall⟩ | ⟨filename,-,-,-,-,rfl⟩ |
    ⟨body,oldName,newName,hr,hnames,ho,hn,hc,hsome,rfl⟩
  · refine Or.inl ⟨file,hr,hnil,fun s => ?_⟩
    have hs := Option.some.inj ((hall files).symm.trans hact)
    rw [hall s]
    by_cases hf : f = resolve ((Server.httpServer config dumpError).path file.filename)
    · rw [hf]
    · exact absurd (hother (by rw [← hs,Function.update_of_ne hf])) hf
  · by_cases hf : f = fileOf config resolve filename
    · rw [hf,Store.delete_self] at hput
      cases hput
    · exact absurd (hother (Store.delete_of_ne _ hf)) hf
  · refine Or.inr ⟨body,oldName,newName,hr,hnames,ho,hn,?_⟩
    by_cases hf : f = fileOf config resolve newName
    · rw [← hf]
      exact ⟨rfl,hsome,rfl⟩
    · by_cases hf' : f = fileOf config resolve oldName
      · rw [hf',Store.move_source _ (hf' ▸ hf)] at hput
        cases hput
      · exact absurd (hother (Store.move_of_ne _ hf' hf)) hf

end Paths

/-- The steps of two requests, with what each answers and with the calls that change files. -/
theorem Concurrent.together {r : Bool → Request} {files : Files F} {tr : Trace}
    {resp : Bool → Response} (h : Concurrent config dumpError resolve r files tr resp) :
    ∃ acts ok,
      Guarded.Together (fun i => (r i).command config dumpError resolve)
        (fun i => ((r i).command config dumpError resolve).start) files acts ok
        (filesAfter resolve files tr) ∧
      (∀ i, (resp i).status = 200 ↔ ok i = true ∧ (r i).printable dumpError = true) ∧
      (∀ i x body, (i,x) ∈ acts → r i = .rename body → ∃ oldName newName,
        names body = some (oldName,newName) ∧
        (⟨.renameFile (joinPath config.backupDir oldName) (joinPath config.backupDir newName),
          true⟩,x) ∈ history resolve files tr) ∧
      ∀ oldPath newPath x, (⟨.renameFile oldPath newPath,true⟩,x) ∈ history resolve files tr →
        ∃ i body oldName newName, (i,x) ∈ acts ∧ r i = .rename body ∧
          names body = some (oldName,newName) ∧ isValidFilename oldName = true ∧
          isValidFilename newName = true ∧ oldPath = joinPath config.backupDir oldName ∧
          newPath = joinPath config.backupDir newName := by
  obtain ⟨hruns,hshuffle,rfl,ha⟩ := h
  have hfollows : ∀ i, Follows resolve _ _ _ _ := fun i => Request.follows (hruns i)
  choose ok hplays hresp using hfollows
  obtain ⟨acts,ht,hacts,hcalls⟩ := together_of_shuffle hshuffle hplays ha
  refine ⟨acts,ok,ht,hresp,fun i x body hmem hr => ?_,fun oldPath newPath x hmem => ?_⟩
  · obtain ⟨ev,hacted,hev,hcall⟩ := hacts i x hmem
    rw [flatten_atomicSteps] at hev
    rcases acted_of_runs (hruns i) hev hacted with ⟨hno,-⟩ | ⟨body',o,n,hr',hnames,-,-,rfl⟩
    · exact absurd hr (hno body)
    · obtain rfl : body' = body := Request.rename.inj (hr'.symm.trans hr)
      exact ⟨o,n,hnames,hcall⟩
  · obtain ⟨i,hact,hev⟩ := hcalls _ x hmem rfl
    rw [flatten_atomicSteps] at hev
    rcases acted_of_runs (hruns i) hev rfl with ⟨-,hno⟩ | ⟨body,o,n,hr,hnames,ho,hn,he⟩
    · exact absurd rfl (hno oldPath newPath)
    · obtain ⟨rfl,rfl⟩ : oldPath = _ ∧ newPath = _ := by simpa using he
      exact ⟨i,body,o,n,hact,hr,hnames,ho,hn,rfl,rfl⟩

theorem linearizable_of_serial {r : Bool → Request} {files : Files F} {tr : Trace}
    {resp : Bool → Response} {ok : Bool → Bool} {i : Bool}
    (hresp : ∀ i, (resp i).status = 200 ↔ ok i = true ∧ (r i).printable dumpError = true)
    (h : Guarded.Serial (fun i => (r i).command config dumpError resolve) i files ok
      (filesAfter resolve files tr)) : Linearizable config dumpError resolve r files tr resp := by
  obtain ⟨mid,hfirst,hsecond⟩ := h
  exact ⟨i,mid,alone_iff.mpr ⟨_,hfirst,hresp i⟩,alone_iff.mpr ⟨_,hsecond,hresp _⟩⟩

section Linearizable
variable (hpath : ∀ name, isValidFilename name = true →
  resolve ((Server.httpServer config dumpError).path name) = resolve (joinPath config.backupDir name))
variable {r : Bool → Request} {files s₁ : Files F} {tr : Trace} {resp : Bool → Response}
variable {ok : Bool → Bool} {acts : List (Bool × Files F)} {k : Bool}
include hpath

/-- A rename to a name that has been taken in the meantime is like one that came first only
if an upload puts the same content there. -/
theorem stale_iff
    (hs : Guarded.Stale (fun i => (r i).command config dumpError resolve) k files s₁ acts ok
      (filesAfter resolve files tr))
    (hresp : ∀ i, (resp i).status = 200 ↔ ok i = true ∧ (r i).printable dumpError = true)
    {body : Option Json} {oldName newName : Bytes} (hr : r (!k) = .rename body)
    (hnames : names body = some (oldName,newName)) :
    Linearizable config dumpError resolve r files tr resp ↔
      ∃ file, r k = .upload (some file) ∧
        files (fileOf config resolve oldName) = some file.content := by
  obtain ⟨body',o,n,hr',hnames',ho,hn,hold,hfree,hold₁,hnew₁,hfinal⟩ := stale_cases hpath hs
  obtain rfl : body' = body := Request.rename.inj (hr'.symm.trans hr)
  obtain ⟨rfl,rfl⟩ : o = oldName ∧ n = newName := by
    simpa using hnames'.symm.trans hnames
  have hne : fileOf config resolve o ≠ fileOf config resolve n :=
    Store.ne_of_taken_of_free hold hfree
  have hc : (r (!k)).command config dumpError resolve =
      renameCommand config dumpError resolve o n := by
    simp only [hr,Request.command,hnames]
  have hsecond := rename_alone_of_taken hpath ho hn hnew₁
  have hfirst := rename_alone_of_free hpath ho hn hold hfree
  constructor
  · rintro ⟨i,mid,h₁,h₂⟩
    obtain ⟨ok₁,ha₁,-⟩ := alone_iff.mp h₁
    obtain ⟨ok₂,ha₂,-⟩ := alone_iff.mp h₂
    by_cases hi : i = k
    · subst hi
      obtain ⟨-,rfl⟩ := Prod.mk.inj (hs.first.symm.trans ha₁)
      rw [hc,hsecond] at ha₂
      have hlost := (Prod.mk.inj ha₂).2
      rw [hlost,hfinal,Store.move_source _ hne] at hold₁
      cases hold₁
    · obtain rfl : i = !k := Bool.eq_not.mpr hi
      rw [hc,hfirst] at ha₁
      obtain ⟨-,rfl⟩ := Prod.mk.inj ha₁
      rw [Bool.not_not] at ha₂
      rcases puts_cases hs.first hfree hnew₁ with ⟨file,hrk,hnil,hact⟩ |
        ⟨body',o',n',hrk,hnames',ho',hn',hf',hold',rfl⟩
      · refine ⟨file,hrk,?_⟩
        rw [Guarded.alone_of_act (by simp [hnil]) (hact _)] at ha₂
        have hs₁ := Option.some.inj ((hact files).symm.trans (Guarded.alone_true hs.first).2)
        have hnew := congrFun ((Prod.mk.inj ha₂).2.trans hfinal) (fileOf config resolve n)
        rwa [Function.update_self,Store.move_target,← hs₁,Function.update_of_ne hne,
          eq_comm] at hnew
      · have hne' : fileOf config resolve o' ≠ fileOf config resolve n :=
          Store.ne_of_taken_of_free hold' hfree
        have hold_ne : fileOf config resolve o' ≠ fileOf config resolve o :=
          (Store.ne_of_taken_of_free hold₁ (Store.move_source _ hne')).symm
        have hck : (r k).command config dumpError resolve =
            renameCommand config dumpError resolve o' n' := by
          simp only [hrk,Request.command,hnames']
        have htaken : (files.move (fileOf config resolve o) (fileOf config resolve n)
            (fileOf config resolve n')).isSome := by
          rw [hf',Store.move_target]
          exact hold
        rw [hck,rename_alone_of_taken hpath ho' hn' htaken] at ha₂
        -- the file that this rename moves away is still there
        have hlost := congrFun ((Prod.mk.inj ha₂).2.trans hfinal) (fileOf config resolve o')
        rw [Store.move_of_ne _ hold_ne hne',Store.move_of_ne _ hold_ne hne',
          Store.move_source _ hne'] at hlost
        rw [hlost] at hold'
        cases hold'
  · rintro ⟨file,hrk,hcontent⟩
    refine linearizable_of_serial (i := !k) hresp ⟨files.move (fileOf config resolve o)
      (fileOf config resolve n),?_,?_⟩
    · dsimp only
      rw [hc,hfirst,hs.ok_eq]
    · rcases puts_cases hs.first hfree hnew₁ with ⟨file',hrk',hnil,hact⟩ |
        ⟨body',o',n',hrk',-⟩
      · obtain rfl : file = file' := by simpa using hrk.symm.trans hrk'
        have hs₁ := Option.some.inj ((hact files).symm.trans (Guarded.alone_true hs.first).2)
        dsimp only
        rw [Bool.not_not,Guarded.alone_of_act (by simp [hnil]) (hact _),hs.ok_eq,hfinal,← hs₁,
          Store.move_update_target hne,← hcontent]
        have hsame := Store.move_target files (f := fileOf config resolve o)
          (g := fileOf config resolve n)
        rw [← hsame,Function.update_eq_self]
      · cases hrk.symm.trans hrk'

/-- Two requests at the same time do what they do one after the other, exactly when no
rename replaces a file. -/
theorem http_linearizable (h : Concurrent config dumpError resolve r files tr resp) :
    Linearizable config dumpError resolve r files tr resp ↔ ¬Overwrites resolve r files tr := by
  obtain ⟨acts,ok,ht,hresp,hacts,hcalls⟩ := h.together
  rcases ht.serial_or_stale fun i => Guarded.waiting_start _ with ⟨hfresh,i,hserial⟩ | ⟨k,s₁,hs⟩
  · refine iff_of_true (linearizable_of_serial hresp hserial) ?_
    rintro ⟨oldPath,newPath,x,hmem,htaken,-⟩
    obtain ⟨j,body,o,n,hact,hr,hnames,ho,hn,rfl,rfl⟩ := hcalls _ _ x hmem
    have htests := hfresh _ hact
    simp only [hr,Request.command,hnames] at htests
    have hfree := ((rename_tests_iff hpath ho hn).mp htests).2
    rw [show x (resolve (joinPath config.backupDir n)) = none from hfree] at htaken
    cases htaken
  · obtain ⟨body,o,n,hr,hnames,ho,hn,hold,hfree,hold₁,hnew₁,hfinal⟩ := stale_cases hpath hs
    rw [stale_iff hpath hs hresp hr hnames]
    -- an upload leaves the file that is renamed as it is
    have hkept : ∀ file, r k = .upload (some file) →
        s₁ (fileOf config resolve o) = files (fileOf config resolve o) := by
      intro file hrk
      rcases puts_cases hs.first hfree hnew₁ with ⟨file',-,-,hact⟩ | ⟨body',o',n',hrk',-⟩
      · have hs₁ := Option.some.inj ((hact files).symm.trans (Guarded.alone_true hs.first).2)
        rw [← hs₁]
        exact Function.update_of_ne (Store.ne_of_taken_of_free hold hfree) _ _
      · cases hrk.symm.trans hrk'
    constructor
    · rintro ⟨file,hrk,hcontent⟩ ⟨oldPath,newPath,x,hmem,htaken,hno⟩
      obtain ⟨j,body',o',n',hact,hrj,hnames',-,-,rfl,rfl⟩ := hcalls _ _ x hmem
      rw [hs.acts_eq] at hact
      rcases List.mem_cons.mp hact with he | hact
      · obtain ⟨rfl,-⟩ := Prod.mk.inj he
        cases hrk.symm.trans hrj
      · obtain ⟨rfl,rfl⟩ := Prod.mk.inj (List.mem_singleton.mp hact)
        obtain rfl : body' = body := Request.rename.inj (hrj.symm.trans hr)
        obtain ⟨rfl,rfl⟩ : o' = o ∧ n' = n := by simpa using hnames'.symm.trans hnames
        exact hno k file hrk ((hkept file hrk).trans hcontent)
    · intro hno
      by_contra hnone
      obtain ⟨o',n',hnames',hmem⟩ := hacts (!k) s₁ body (by simp [hs.acts_eq]) hr
      obtain ⟨rfl,rfl⟩ : o' = o ∧ n' = n := by simpa using hnames'.symm.trans hnames
      refine hno ⟨_,_,s₁,hmem,hnew₁,fun i file hri he => hnone ⟨file,?_⟩⟩
      by_cases hi : i = k
      · subst hi
        exact ⟨hri,(hkept file hri).symm.trans he⟩
      · obtain rfl : i = !k := Bool.eq_not.mpr hi
        cases hri.symm.trans hr

end Linearizable

end Requests

/-! Two renames to one name: both find it free before one of them takes it. -/

def renameTo (old : Char) : Request :=
  .rename (some (.object [("oldName",.string (ascii [old])),("newName",.string (ascii ['b']))]))

/-- The files `a` and `c`, with one byte each. -/
def twoFiles : Files Bytes :=
  Function.update (Function.update (fun _ => none) (ascii ['b','/','a']) (some [1]))
    (ascii ['b','/','c']) (some [2])

/-- Up to the tests. -/
def lookTrace (old : Char) : Trace :=
  [requested "/api/rename" "POST",⟨.accepted (ascii [old]),()⟩,⟨.accepted (ascii ['b']),()⟩,
    ⟨.fileExists (ascii ['b','/',old]),true⟩,⟨.fileExists (ascii ['b','/','b']),false⟩]

def moveTrace (old : Char) : Trace :=
  [⟨.renameFile (ascii ['b','/',old]) (ascii ['b','/','b']),true⟩,counted "http_rename"]

def renamedTo (old : Char) : Response :=
  success [("oldName",.name (ascii [old])),("newName",.name (ascii ['b']))]

def oldName (i : Bool) : Char := if i then 'a' else 'c'

def raceTrace : Trace := lookTrace 'a' ++ lookTrace 'c' ++ moveTrace 'a' ++ moveTrace 'c'

/-- Both look, then both move. -/
theorem race_shuffle :
    Shuffle (fun i => atomicSteps (lookTrace (oldName i) ++ moveTrace (oldName i)))
      (((lookTrace 'a').map fun ev => [ev]).map (fun x => (true,x)) ++
        (((lookTrace 'c').map fun ev => [ev]).map (fun x => (false,x)) ++
          (((moveTrace 'a').map fun ev => [ev]).map (fun x => (true,x)) ++
            (((moveTrace 'c').map fun ev => [ev]).map (fun x => (false,x)) ++ [])))) := by
  have hsteps : ∀ old, atomicSteps (lookTrace old ++ moveTrace old) =
      (lookTrace old).map (fun ev => [ev]) ++ (moveTrace old).map fun ev => [ev] := fun _ => rfl
  have hfalse : ∀ (f : Bool → List Trace) (x : List Trace),
      Function.update f true x false = f false := fun f x => Function.update_of_ne (by simp) _ _
  have htrue : ∀ (f : Bool → List Trace) (x : List Trace),
      Function.update f false x true = f true := fun f x => Function.update_of_ne (by simp) _ _
  refine .block _ (hsteps 'a') (.block ((moveTrace 'c').map fun ev => [ev]) ?_ (.block [] ?_
    (.block [] ?_ (.nil ?_))))
  · rw [hfalse]
    exact hsteps 'c'
  · rw [htrue,Function.update_self]
    exact (List.append_nil _).symm
  · rw [hfalse,Function.update_self]
    exact (List.append_nil _).symm
  · intro i
    cases i
    · rw [Function.update_self]
    · rw [htrue,Function.update_self]

theorem race_concurrent : Concurrent Server.sampleConfig (fun _ => none) id
    (fun i => renameTo (oldName i)) twoFiles raceTrace (fun i => renamedTo (oldName i)) := by
  have hruns : ∀ i, Runs ((renameTo (oldName i)).run
      (Server.httpServer Server.sampleConfig fun _ => none)) ()
      (lookTrace (oldName i) ++ moveTrace (oldName i)) (renamedTo (oldName i)) () := by
    intro i
    refine exec_of_replay ?_
    cases i <;> decide +kernel
  refine .run hruns race_shuffle rfl ?_
  exact ⟨trivial,trivial,trivial,rfl,rfl,trivial,trivial,trivial,rfl,rfl,rfl,trivial,rfl,trivial,
    trivial⟩

theorem path_eq_joinPath {name : Bytes} (hv : isValidFilename name = true) :
    (Server.httpServer Server.sampleConfig fun _ => none).path name =
      joinPath Server.sampleConfig.backupDir name := by
  obtain ⟨hslash,hback⟩ := valid_no_separator hv
  have hlead : ¬(name.head? = some slash ∨ name.head? = some backslash) := by
    rintro (h | h)
    · exact hslash (List.mem_of_head? h)
    · exact hback (List.mem_of_head? h)
  have htrail : ¬(Server.sampleConfig.backupDir.getLast? = some slash ∨
      Server.sampleConfig.backupDir.getLast? = some backslash) := by decide
  rw [joinPath,if_neg (by decide),if_neg (valid_ne_nil hv),if_neg fun h => htrail h.1,
    if_pos ⟨htrail,hlead⟩]
  rfl

theorem not_http_linearizable_always :
    ¬∀ (config : Server.ServerConfig) (dumpError : Bytes → Option String) (r : Bool → Request)
      (files : Files Bytes) (tr : Trace) (resp : Bool → Response),
      (∀ name, isValidFilename name = true →
        (Server.httpServer config dumpError).path name = joinPath config.backupDir name) →
      Concurrent config dumpError id r files tr resp →
        Linearizable config dumpError id r files tr resp := by
  intro hall
  obtain ⟨i,mid,h₁,h₂⟩ := hall _ _ _ _ _ _ (fun _ => path_eq_joinPath) race_concurrent
  obtain ⟨ok₁,ha₁,-⟩ := alone_iff.mp h₁
  obtain ⟨ok₂,ha₂,-⟩ := alone_iff.mp h₂
  obtain rfl : mid = _ := (congrArg Prod.snd ha₁).symm
  cases i with
  | false =>
    have hlost := congrFun (congrArg Prod.snd ha₂) (ascii ['b','/','a'])
    dsimp only at hlost
    revert hlost
    decide +kernel
  | true =>
    have hlost := congrFun (congrArg Prod.snd ha₂) (ascii ['b','/','c'])
    dsimp only at hlost
    revert hlost
    decide +kernel

/-- The second rename replaces the file that the first has just put there. -/
theorem http_linearizable_raceTrace :
    Linearizable Server.sampleConfig (fun _ => none) id (fun i => renameTo (oldName i)) twoFiles
      raceTrace (fun i => renamedTo (oldName i)) ↔
    ¬Overwrites id (fun i => renameTo (oldName i)) twoFiles raceTrace :=
  http_linearizable (fun _ => path_eq_joinPath) race_concurrent

end Http

end NetworkLab.Backup
