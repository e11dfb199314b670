import NetworkLab.Backup.SizeLimit
import NetworkLab.Backup.SuccessRate
import NetworkLab.Lib.Journal
import NetworkLab.Lib.Threads
set_option autoImplicit false

/-! What both servers do, one command or request behind the other, as a journal of changes to
the store. -/

namespace NetworkLab.Backup
open Interaction Store

namespace Server

variable {F : Type} [DecidableEq F] {resolve : Bytes → F} {files : Files F}
variable {config : ServerConfig} {cmd : CmdMsg} {m m' : Members} {tr : Trace} {e : ErrorCode}

/-- What a call does to the store. A SEND replaces one file by what came in this call; the
answer of a REMOVE or RENAME tells whether it was done. -/
inductive Makes (resolve : Bytes → F) (config : ServerConfig) (command : Option Command)
    (tr : Trace) : List (Change F UInt8) → Prop where
  | nothing : opened tr = [] →
      (command = some .REMOVE ∨ command = some .RENAME → ¬EndsWithAck tr) →
      Makes resolve config command tr []
  | put {path : Bytes} : command = some .SEND → opened tr = [path] →
      storedBytes tr <+: content tr ++ List.replicate dataBufLen 0 →
      Makes resolve config command tr [.put (resolve path) (storedBytes tr)]
  | delete {name : Bytes} : command = some .REMOVE → opened tr = [] → accepted tr = [name] →
      EndsWithAck tr →
      Makes resolve config command tr [.delete (resolve (joinPath config.backupDir name))]
  | rename {old new : Bytes} (deletion : Option Bool) (done : Bool) : command = some .RENAME →
      opened tr = [] → accepted tr = [old,new] → (EndsWithAck tr ↔ done = true) →
      Makes resolve config command tr
        ((if deletion = some true then [.delete (resolve (joinPath config.backupDir new))]
          else []) ++
          if done then [.move (resolve (joinPath config.backupDir old))
            (resolve (joinPath config.backupDir new))]
          else [])

/-- The files that a call opens or has names for. -/
def touched (resolve : Bytes → F) (config : ServerConfig) (tr : Trace) : List F :=
  (opened tr).map resolve ++
    (accepted tr).map fun name => resolve (joinPath config.backupDir name)

omit [DecidableEq F] in
theorem Makes.mem_touched {command : Option Command} {changes : List (Change F UInt8)}
    (h : Makes resolve config command tr changes) :
    ∀ change ∈ changes, ∀ f ∈ change.files, f ∈ touched resolve config tr := by
  cases h with
  | nothing _ _ => simp
  | put _ hopened _ => simp [touched,hopened,Change.files]
  | delete _ _ hacc _ => simp [touched,hacc,Change.files]
  | rename deletion done _ _ hacc _ =>
    intro change hc f hf
    have hnames : touched resolve config tr = (opened tr).map resolve ++
        [resolve (joinPath config.backupDir _),resolve (joinPath config.backupDir _)] :=
      congrArg (_ ++ List.map _ ·) hacc
    rw [hnames]
    rcases List.mem_append.mp hc with hc | hc
    · split at hc <;> simp_all [Change.files]
    · split at hc <;> simp_all [Change.files]

section Commands

theorem endsWithAck_logged {field : Nat} {memory name : Bytes} {trn : Trace}
    (hread : Reads field memory trn name) : EndsWithAck (tr ++ trn) ↔ EndsWithAck tr := by
  cases hread
  rw [EndsWithAck,lastReply_append]
  rfl

theorem accepted_logged {field : Nat} {memory name : Bytes} {trn : Trace}
    (hread : Reads field memory trn name) : accepted (tr ++ trn) = accepted tr := by
  cases hread
  rw [accepted_append]
  exact List.append_nil _

omit [DecidableEq F] in
theorem Reached.opened {old new : Bytes} {deletion : Option Bool} {done ok : Bool}
    (h : Reached config tr old new deletion done ok) : opened tr = [] := by
  obtain ⟨pre,m,hq,-,-,rfl⟩ := h.ends
  rw [opened_append,opened_append,hq.opened]
  cases deletion <;> rfl

theorem Reached.replay {old new : Bytes} {deletion : Option Bool} {done ok : Bool}
    (h : Reached config tr old new deletion done ok) (hfiles : Consistent resolve files tr) :
    files.replay
        ((if deletion = some true then [.delete (resolve (joinPath config.backupDir new))]
          else []) ++
          if done then [.move (resolve (joinPath config.backupDir old))
            (resolve (joinPath config.backupDir new))]
          else []) = some (filesAfter resolve files tr) := by
  have hclear : files.replay
      (if deletion = some true then [.delete (resolve (joinPath config.backupDir new))]
        else []) =
      some (cleared files (resolve (joinPath config.backupDir new)) deletion) := by
    unfold cleared
    split
    · rename_i hdel
      exact replay_delete (h.deleted_some hfiles hdel)
    · rfl
  rw [h.after,replay_append,hclear,Option.bind_some]
  cases done with
  | false => rfl
  | true => exact replay_move (h.moved_some hfiles rfl)

/-- What a call makes, and that it leaves the files so. -/
def Journaled (resolve : Bytes → F) (config : ServerConfig) (files : Files F)
    (command : Option Command) (tr : Trace) (changes : List (Change F UInt8)) : Prop :=
  Makes resolve config command tr changes ∧
    files.replay changes = some (filesAfter resolve files tr)

theorem journaled_quiet {command : Option Command} (hq : Quiet tr)
    (hack : command = some .REMOVE ∨ command = some .RENAME → NoAck tr) :
    Journaled resolve config files command tr [] :=
  ⟨.nothing hq.opened fun hc => (hack hc).not_endsWithAck,by rw [hq.filesAfter]; rfl⟩

theorem Send.journaled (h : Send config cmd m tr e m') {field : Nat} {memory name : Bytes}
    {trn : Trace} (hread : Reads field memory trn name) :
    ∃ changes, Journaled resolve config files (some .SEND) (tr ++ trn) changes := by
  have htransfer := h.transfer.logged hread
  rcases htransfer.outcome with hq | ⟨path,hfills⟩
  · exact ⟨_,journaled_quiet hq (by simp)⟩
  · refine ⟨_,.put rfl hfills.opened htransfer.stored_prefix,?_⟩
    rw [hfills.filesAfter]
    rfl

theorem Remove.journaled (h : Remove config cmd m tr e m') (hfiles : Consistent resolve files tr)
    {field : Nat} {memory name : Bytes} {trn : Trace} (hread : Reads field memory trn name) :
    ∃ changes, Journaled resolve config files (some .REMOVE) (tr ++ trn) changes := by
  cases hread
  cases h with
  | invalid hname hv =>
    cases hname
    exact ⟨_,journaled_quiet (by simp [sent,alters])
      fun _ => by simp [sent,acks,ErrorCode.value]⟩
  | missing hname hv =>
    cases hname
    exact ⟨_,journaled_quiet (by simp [sent,alters]) fun _ => by simp [sent,acks]⟩
  | @deleted _ _ done ok hname hv =>
    obtain ⟨beyond⟩ := hname
    cases done with
    | false =>
      exact ⟨[],.nothing rfl fun _ => NoAck.not_endsWithAck (by simp [sent,acks]),rfl⟩
    | true =>
      have hthere : (files (resolve (joinPath config.backupDir
          (cString (cmd.tail ++ beyond))))).isSome := hfiles.2.2.2.1
      exact ⟨_,.delete rfl rfl rfl ⟨_,rfl,by simp⟩,replay_delete hthere⟩

theorem Rename.journaled (h : Rename config cmd m tr e m') (hfiles : Consistent resolve files tr)
    {field : Nat} {memory name : Bytes} {trn : Trace} (hread : Reads field memory trn name) :
    ∃ changes, Journaled resolve config files (some .RENAME) (tr ++ trn) changes := by
  have hlog : ∀ {t : Files F}, filesAfter resolve t trn = t := hread.quiet.filesAfter
  rcases h.cases_reached with hgiven | ⟨old,new,deletion,done,ok,hr⟩
  · refine ⟨[],.nothing (quiet_append.mpr ⟨hgiven.quiet,hread.quiet⟩).opened fun _ hack => ?_,?_⟩
    · exact hgiven.noAck.not_endsWithAck ((endsWithAck_logged hread).mp hack)
    · rw [filesAfter_append,hlog,hgiven.quiet.filesAfter]
      rfl
  · refine ⟨_,.rename deletion done rfl (by rw [opened_append,hr.opened,hread.quiet.opened]; rfl)
      ((accepted_logged hread).trans hr.accepted) ?_,?_⟩
    · rw [endsWithAck_logged hread,EndsWithAck,hr.lastReply]
      cases done <;> simp
    · rw [filesAfter_append,hlog]
      exact hr.replay hfiles

theorem Processed.journaled (h : Processed config cmd m tr e m')
    (hfiles : Consistent resolve files tr) :
    ∃ changes, Journaled resolve config files cmd.getCommand tr changes := by
  obtain ⟨h,hread⟩ := h
  obtain ⟨hfiles,-⟩ := (consistent_append _ _).mp hfiles
  cases h with
  | send hc h =>
    rw [hc]
    exact h.journaled hread
  | remove hc h =>
    rw [hc]
    exact h.journaled hfiles hread
  | rename hc h =>
    rw [hc]
    exact h.journaled hfiles hread
  | ls names data ok hc =>
    exact ⟨_,journaled_quiet (by simp [sent,alters,hread.quiet]) (by simp [hc])⟩
  | shutdown ok hc =>
    exact ⟨_,journaled_quiet (by simp [sent,alters,hread.quiet]) (by simp [hc])⟩
  | overwrite hc => exact ⟨_,journaled_quiet (by simp [hread.quiet]) (by simp [hc])⟩
  | unknown hc =>
    refine ⟨_,journaled_quiet (by simp [hread.quiet]) fun he => absurd ?_ hc⟩
    rcases he with he | he <;> simp [he]

/-- Nothing but counting. -/
def Counters (tr : Trace) : Prop := ∀ ev ∈ tr, ∃ x, ev = ⟨.metric x,()⟩

theorem Counters.quiet (h : Counters tr) : Quiet tr := by
  intro ev hev
  obtain ⟨x,rfl⟩ := h ev hev
  rfl

theorem Counters.content (h : Counters tr) : content tr = [] := by
  refine List.flatMap_eq_nil_iff.mpr fun ev hev => ?_
  obtain ⟨x,rfl⟩ := h ev hev
  rfl

theorem Counters.accepted (h : Counters tr) : accepted tr = [] := by
  refine List.filterMap_eq_nil_iff.mpr fun ev hev => ?_
  obtain ⟨x,rfl⟩ := h ev hev
  rfl

theorem Counters.replyBy (h : Counters tr) (last : Option Bytes) :
    tr.foldl replyBy last = last := by
  induction tr with
  | nil => rfl
  | cons ev tr ih =>
    obtain ⟨⟨x,rfl⟩,htr⟩ := List.forall_mem_cons.mp h
    exact ih htr

/-- The counters around a command change nothing of that. -/
theorem Journaled.counted {before after : Trace} {command : Option Command}
    {changes : List (Change F UInt8)} (hb : Counters before) (ha : Counters after)
    (h : Journaled resolve config files command tr changes) :
    Journaled resolve config files command (before ++ tr ++ after) changes := by
  obtain ⟨hmakes,hreplay⟩ := h
  have hopened : opened (before ++ tr ++ after) = opened tr := by
    simp [hb.quiet.opened,ha.quiet.opened]
  have hstored : storedBytes (before ++ tr ++ after) = storedBytes tr := by
    simp [hb.quiet.storedBytes,ha.quiet.storedBytes]
  have hcontent : Backup.content (before ++ tr ++ after) = Backup.content tr := by
    simp [hb.content,ha.content]
  have haccepted : Server.accepted (before ++ tr ++ after) = Server.accepted tr := by
    simp [hb.accepted,ha.accepted]
  have hack : EndsWithAck (before ++ tr ++ after) ↔ EndsWithAck tr := by
    have hlast : lastReply (before ++ tr ++ after) = lastReply tr := by
      rw [lastReply_append,ha.replyBy,lastReply_append,lastReply,hb.replyBy]
      rfl
    rw [EndsWithAck,hlast]
    rfl
  refine ⟨?_,?_⟩
  · cases hmakes with
    | nothing hno hnoack => exact .nothing (hopened.trans hno) fun hc => hack.not.mpr (hnoack hc)
    | put hcmd hone hbegins =>
      rw [← hstored]
      exact .put hcmd (hopened.trans hone) (by rw [hstored,hcontent]; exact hbegins)
    | delete hcmd hno hname hyes =>
      exact .delete hcmd (hopened.trans hno) (haccepted.trans hname) (hack.mpr hyes)
    | rename deletion done hcmd hno hnames hiff =>
      exact .rename deletion done hcmd (hopened.trans hno) (haccepted.trans hnames)
        (hack.trans hiff)
  · rw [hreplay,filesAfter_append,filesAfter_append,hb.quiet.filesAfter,ha.quiet.filesAfter]

theorem journaled_dispatch {datagram : Bytes} {more : Bool}
    (h : Runs (dispatch config datagram) m tr more m') (hfiles : Consistent resolve files tr) :
    ∃ changes, Journaled resolve config files (CmdMsg.received datagram).getCommand tr
      changes := by
  obtain ⟨trc,e,m₁,hp,rfl,-⟩ := runs_dispatch h
  have hb : Counters (requested (CmdMsg.received datagram)) := by
    simp [Counters,requested]
  have ha : Counters (failed (CmdMsg.received datagram) e) := by
    unfold failed Counters
    split <;> simp
  simp only [consistent_append,hb.quiet.filesAfter] at hfiles
  obtain ⟨changes,hc⟩ := (runs_processCommand hp).journaled hfiles.1.2
  exact ⟨changes,hc.counted hb ha⟩

end Commands

end Server

namespace Http

variable {F : Type} [DecidableEq F] {resolve : Bytes → F} {files : Files F}
variable {config : Server.ServerConfig} {dumpError : Bytes → Option String} {tr : Trace}
variable {resp : Response}

/-- The answer to a request that has been carried out. It is an error only if it holds a name
that `dump` cannot print. -/
def Answers (dumpError : Bytes → Option String) (names : List Bytes) (resp : Response) : Prop :=
  resp.status = 200 ↔ ∀ name ∈ names, dumpError name = none

/-- What a request does to the store, and how it is answered then. -/
inductive Makes (resolve : Bytes → F) (config : Server.ServerConfig)
    (dumpError : Bytes → Option String) (tr : Trace) (resp : Response) :
    Request → List (Change F UInt8) → Prop where
  | nothing {r : Request} : opened tr = [] → resp.status ≠ 200 →
      Makes resolve config dumpError tr resp r []
  | put {file : MultipartFormData} {path : Bytes} : opened tr = [path] →
      storedBytes tr <+: file.content → Answers dumpError [file.filename] resp →
      Makes resolve config dumpError tr resp (.upload (some file))
        [.put (resolve path) (storedBytes tr)]
  | delete {filename : Bytes} : opened tr = [] → Server.accepted tr = [filename] →
      Answers dumpError [filename] resp →
      Makes resolve config dumpError tr resp (.delete filename)
        [.delete (resolve (joinPath config.backupDir filename))]
  | rename {body : Option Json} {old new : Bytes} : opened tr = [] →
      Server.accepted tr = [old,new] → Answers dumpError [old,new] resp →
      Makes resolve config dumpError tr resp (.rename body)
        [.move (resolve (joinPath config.backupDir old)) (resolve (joinPath config.backupDir new))]

def Journaled (resolve : Bytes → F) (config : Server.ServerConfig)
    (dumpError : Bytes → Option String) (files : Files F) (r : Request) (tr : Trace)
    (resp : Response) (changes : List (Change F UInt8)) : Prop :=
  Makes resolve config dumpError tr resp r changes ∧
    files.replay changes = some (filesAfter resolve files tr)

theorem answers_success {names : List Bytes} {fields : List (String × Field)}
    (h : ∀ name ∈ names, dumpError name = none) : Answers dumpError names (success fields) :=
  ⟨fun _ => h,fun _ => rfl⟩

theorem answers_failure {names : List Bytes} {status : Nat} {error : String} {name : Bytes}
    (hstatus : status ≠ 200) (hname : name ∈ names) (h : dumpError name ≠ none) :
    Answers dumpError names (failure status error) :=
  ⟨fun he => absurd he hstatus,fun hall => absurd (hall name hname) h⟩

/-- An upload that opens no file is refused, and the others are answered as said. -/
theorem Upload.answered {file : MultipartFormData}
    (h : Upload (Server.httpServer config dumpError) (some file) tr resp) :
    opened tr = [] ∧ resp.status ≠ 200 ∨ opened tr ≠ [] ∧ Answers dumpError [file.filename] resp := by
  cases h with
  | invalid hv => exact Or.inl ⟨rfl,by simp [failure]⟩
  | tooLarge hv hbig => exact Or.inl ⟨rfl,by simp [failure]⟩
  | notOpened made hv hsize => exact Or.inl ⟨rfl,by simp [failure]⟩
  | stored made stored hv hsize hdump =>
    exact Or.inr ⟨List.cons_ne_nil _ _,answers_success fun name hname => by
      rw [List.mem_singleton.mp hname]
      exact hdump⟩
  | notDumped made stored hv hsize hdump =>
    refine Or.inr ⟨List.cons_ne_nil _ _,answers_failure (by decide) List.mem_cons_self ?_⟩
    change dumpError file.filename = some _ at hdump
    simp [hdump]

theorem Upload.journaled {file : Option MultipartFormData}
    (h : Upload (Server.httpServer config dumpError) file tr resp) :
    ∃ changes, Journaled resolve config dumpError files (.upload file) tr resp changes := by
  cases file with
  | none =>
    cases h with
    | noFile => exact ⟨[],.nothing rfl (by simp [failure]),rfl⟩
  | some file =>
    rcases h.answered with ⟨hnone,hrefused⟩ | ⟨hsome,hanswers⟩
    · rcases h.outcome with hq | ⟨path,hfills⟩
      · exact ⟨[],.nothing hq.opened hrefused,by rw [hq.filesAfter]; rfl⟩
      · rw [hfills.opened] at hnone
        cases hnone
    · rcases h.outcome with hq | ⟨path,hfills⟩
      · exact absurd hq.opened hsome
      · refine ⟨_,.put hfills.opened h.stored_prefix hanswers,?_⟩
        rw [hfills.filesAfter]
        rfl

theorem Delete.journaled {filename : Bytes} (h : Delete config dumpError filename tr resp)
    (hfiles : Consistent resolve files tr) :
    ∃ changes, Journaled resolve config dumpError files (.delete filename) tr resp changes := by
  cases h with
  | invalid hv => exact ⟨[],.nothing rfl (by simp [failure]),rfl⟩
  | notFound hv => exact ⟨[],.nothing rfl (by simp [failure]),rfl⟩
  | failed hv => exact ⟨[],.nothing rfl (by simp [failure]),rfl⟩
  | deleted hv hdump =>
    have hthere : (files (resolve (joinPath config.backupDir filename))).isSome :=
      hfiles.2.2.2.1
    exact ⟨_,.delete rfl rfl (answers_success (by simpa using hdump)),replay_delete hthere⟩
  | notDumped hv hdump =>
    have hthere : (files (resolve (joinPath config.backupDir filename))).isSome :=
      hfiles.2.2.2.1
    exact ⟨_,.delete rfl rfl (answers_failure (by decide) List.mem_cons_self (by simp [hdump])),
      replay_delete hthere⟩

theorem answers_renamed {old new : Bytes} {fields : List (String × Field)}
    (hresp : resp = (match (dumpError new).orElse fun _ => dumpError old with
      | none => success fields
      | some _ => failure 400 "Invalid JSON")) : Answers dumpError [old,new] resp := by
  cases hnew : dumpError new with
  | some what =>
    rw [hnew] at hresp
    rw [hresp]
    have hfails : dumpError new ≠ none := by simp [hnew]
    exact answers_failure (by decide) (by simp) hfails
  | none =>
    cases hold : dumpError old with
    | some what =>
      rw [hnew,hold] at hresp
      rw [hresp]
      have hfails : dumpError old ≠ none := by simp [hold]
      exact answers_failure (by decide) (by simp) hfails
    | none =>
      rw [hnew,hold] at hresp
      rw [hresp]
      exact answers_success (by simp [hold,hnew])

theorem Rename.journaled {body : Option Json} (h : Rename config dumpError body tr resp)
    (hfiles : Consistent resolve files tr) :
    ∃ changes, Journaled resolve config dumpError files (.rename body) tr resp changes := by
  cases h with
  | malformed hb => exact ⟨[],.nothing rfl (by simp [failure]),rfl⟩
  | missing hb => exact ⟨[],.nothing rfl (by simp [failure]),rfl⟩
  | @names b old new tr resp ho hn h =>
    cases h with
    | invalidOld hv => exact ⟨[],.nothing rfl (by simp [failure]),rfl⟩
    | invalidNew hv hv' => exact ⟨[],.nothing rfl (by simp [failure]),rfl⟩
    | notFound hv hv' => exact ⟨[],.nothing rfl (by simp [failure]),rfl⟩
    | conflict hv hv' => exact ⟨[],.nothing rfl (by simp [failure]),rfl⟩
    | failed hv hv' => exact ⟨[],.nothing rfl (by simp [failure]),rfl⟩
    | renamed hv hv' hresp =>
      have hthere : (files (resolve (joinPath config.backupDir old))).isSome :=
        hfiles.2.2.2.2.2.1
      exact ⟨_,.rename rfl rfl (answers_renamed hresp),replay_move hthere⟩

end Http

section History
variable {F : Type} {resolve : Bytes → F} {files : Files F}
variable {config : Server.ServerConfig} {dumpError : Bytes → Option String} {tr : Trace}
variable {history : List (Job × Trace)}

/-- What a handler does to the store. -/
def Job.Makes (resolve : Bytes → F) (config : Server.ServerConfig)
    (dumpError : Bytes → Option String) : Job → Trace → List (Change F UInt8) → Prop
  | .command datagram, tr, changes =>
      Server.Makes resolve config (CmdMsg.received datagram).getCommand tr changes
  | .request r, tr, changes =>
      ∃ resp, Runs (r.run (Server.httpServer config dumpError)) () tr resp () ∧
        Http.Makes resolve config dumpError tr resp r changes

/-- The bytes that came with a job to be stored. -/
def Job.Brings (bytes : Bytes) : Job → Trace → Prop
  | .command datagram, tr => (CmdMsg.received datagram).getCommand = some .SEND ∧
      bytes <+: content tr ++ List.replicate dataBufLen 0
  | .request r, _ => ∃ file, r = .upload (some file) ∧ bytes <+: file.content

theorem Job.Makes.mem_touched {job : Job} {changes : List (Change F UInt8)}
    (h : job.Makes resolve config dumpError tr changes) :
    ∀ change ∈ changes, ∀ f ∈ change.files, f ∈ Server.touched resolve config tr := by
  cases job with
  | command datagram => exact Server.Makes.mem_touched h
  | request r =>
    obtain ⟨resp,-,h⟩ := h
    cases h with
    | nothing _ _ => simp
    | put hopened _ _ => simp [Server.touched,hopened,Change.files]
    | delete _ hacc _ => simp [Server.touched,hacc,Change.files]
    | rename _ hacc _ => simp [Server.touched,hacc,Change.files]

/-- A job that opens a file makes one change. -/
theorem Job.Makes.eq_put {job : Job} {changes : List (Change F UInt8)} {path : Bytes}
    (h : job.Makes resolve config dumpError tr changes) (hopened : opened tr = [path]) :
    changes = [.put (resolve path) (storedBytes tr)] := by
  have hno : opened tr ≠ [] := by simp [hopened]
  have hput : ∀ {p}, opened tr = [p] →
      [Change.put (resolve p) (storedBytes tr)] = [.put (resolve path) (storedBytes tr)] := by
    intro p hp
    rw [(List.cons.inj (hp.symm.trans hopened)).1]
  cases job with
  | command datagram =>
    cases h with
    | nothing hnone _ => exact absurd hnone hno
    | put _ hone _ => exact hput hone
    | delete _ hnone _ _ => exact absurd hnone hno
    | rename _ _ _ hnone _ _ => exact absurd hnone hno
  | request r =>
    obtain ⟨resp,-,h⟩ := h
    cases h with
    | nothing hnone _ => exact absurd hnone hno
    | put hone _ _ => exact hput hone
    | delete hnone _ _ => exact absurd hnone hno
    | rename hnone _ _ => exact absurd hnone hno

theorem Job.Makes.brings {job : Job} {changes : List (Change F UInt8)} {f : F} {bytes : Bytes}
    (h : job.Makes resolve config dumpError tr changes) (hput : .put f bytes ∈ changes) :
    bytes = storedBytes tr ∧ job.Brings bytes tr := by
  cases job with
  | command datagram =>
    cases h with
    | nothing => cases hput
    | put hcmd _ hbegins =>
      obtain ⟨-,rfl⟩ := Change.put.inj (List.mem_singleton.mp hput)
      exact ⟨rfl,hcmd,hbegins⟩
    | delete => cases List.mem_singleton.mp hput
    | rename deletion done =>
      rcases List.mem_append.mp hput with hput | hput
      · split at hput <;> simp at hput
      · split at hput <;> simp at hput
  | request r =>
    obtain ⟨resp,-,h⟩ := h
    cases h with
    | nothing => cases hput
    | put _ hbegins _ =>
      obtain ⟨-,rfl⟩ := Change.put.inj (List.mem_singleton.mp hput)
      exact ⟨rfl,_,rfl,hbegins⟩
    | delete => cases List.mem_singleton.mp hput
    | rename => cases List.mem_singleton.mp hput

variable [DecidableEq F]

theorem Handles.makes {job : Job} (h : Handles config dumpError job tr)
    (hfiles : Consistent resolve files tr) :
    ∃ changes, job.Makes resolve config dumpError tr changes ∧
      files.replay changes = some (filesAfter resolve files tr) := by
  cases h with
  | command hr => exact Server.journaled_dispatch hr hfiles
  | @request r _ resp hr =>
    have hjournaled : ∃ changes, Http.Journaled resolve config dumpError files r tr resp changes := by
      cases r with
      | upload file => exact (Http.runs_upload hr).journaled
      | delete filename => exact (Http.runs_delete hr).journaled hfiles
      | rename body => exact (Http.runs_rename hr).journaled hfiles
    obtain ⟨changes,hmakes,hreplay⟩ := hjournaled
    exact ⟨changes,⟨resp,hr,hmakes⟩,hreplay⟩

/-- One list of changes for each job. -/
theorem exists_journal (h : ∀ j ∈ history, Handles config dumpError j.1 j.2)
    (hfiles : Consistent resolve files (history.flatMap Prod.snd)) :
    ∃ journal : List (List (Change F UInt8)),
      List.Forall₂ (fun j => j.1.Makes resolve config dumpError j.2) history journal ∧
      files.replay journal.flatten =
        some (filesAfter resolve files (history.flatMap Prod.snd)) := by
  induction history generalizing files with
  | nil => exact ⟨[],.nil,rfl⟩
  | cons j history ih =>
    obtain ⟨hj,hrest⟩ := List.forall_mem_cons.mp h
    rw [List.flatMap_cons,consistent_append] at hfiles
    obtain ⟨changes,hmakes,hreplay⟩ := hj.makes hfiles.1
    obtain ⟨journal,hall,hjournal⟩ := ih hrest hfiles.2
    refine ⟨changes :: journal,.cons hmakes hall,?_⟩
    rw [List.flatten_cons,replay_append,hreplay,List.flatMap_cons,filesAfter_append]
    exact hjournal

omit [DecidableEq F] in
theorem exists_of_mem_journal {journal : List (List (Change F UInt8))}
    {changes : List (Change F UInt8)}
    (h : List.Forall₂ (fun j : Job × Trace => j.1.Makes resolve config dumpError j.2) history journal)
    (hmem : changes ∈ journal) : ∃ j ∈ history, j.1.Makes resolve config dumpError j.2 changes := by
  induction h with
  | nil => cases hmem
  | cons hj _ ih =>
    rcases List.mem_cons.mp hmem with rfl | hmem
    · exact ⟨_,List.mem_cons_self,hj⟩
    · obtain ⟨j',hj',hmakes⟩ := ih hmem
      exact ⟨j',List.mem_cons_of_mem _ hj',hmakes⟩

end History

section Samples

/-- An upload that stores everything. -/
def uploadTrace (file : Http.MultipartFormData) : Trace :=
  let path := (Server.httpServer Server.sampleConfig fun _ => none).path file.filename
  [Http.requested "/api/upload" "POST",⟨.accepted file.filename,()⟩,
    ⟨.createDirectory Server.sampleConfig.backupDir,true⟩,⟨.ofstream path,true⟩,
    ⟨.write path file.content,Fin.last _⟩] ++ Http.uploadCounted file.content.length

theorem upload_handles {file : Http.MultipartFormData} (hv : isValidFilename file.filename = true)
    (hsmall : file.content.length ≤
      (Server.httpServer Server.sampleConfig fun _ => none).config.maxUploadSize) :
    Handles Server.sampleConfig (fun _ => none) (.request (.upload (some file)))
      (uploadTrace file) := by
  have hrun : Runs (Http.upload (Server.httpServer Server.sampleConfig fun _ => none)
      (some file)) () (uploadTrace file) (Http.success [("filename",.name file.filename),
        ("size",.number file.content.length)]) () := by
    refine runs_ask_bind.mpr ⟨(),_,rfl,runs_validate_bind.mpr (Or.inr ⟨hv,_,rfl,?_⟩)⟩
    rw [if_pos rfl,if_neg (Nat.not_lt.mpr hsmall)]
    exact runs_ask_bind.mpr ⟨true,_,rfl,runs_ask_bind.mpr ⟨true,_,rfl,runs_ask_bind.mpr ⟨_,_,rfl,
      runs_ask_bind.mpr ⟨(),_,rfl,runs_ask_bind.mpr ⟨(),_,rfl,runs_ask_bind.mpr ⟨(),_,rfl,
        runs_pure.mpr ⟨rfl,rfl,rfl⟩⟩⟩⟩⟩⟩⟩
  exact .request hrun

def uploaded (file : Http.MultipartFormData) : Job × Trace :=
  (.request (.upload (some file)),uploadTrace file)

/-- Two files are uploaded. -/
def twoUploads : List (Job × Trace) := [uploaded ⟨[97],[1,2]⟩,uploaded ⟨[98],[3]⟩]

theorem twoUploads_handles : ∀ j ∈ twoUploads,
    Handles Server.sampleConfig (fun _ => none) j.1 j.2 := by
  simp only [twoUploads,List.forall_mem_cons,List.not_mem_nil,false_imp_iff,implies_true,
    and_true]
  exact ⟨upload_handles (by decide) (by decide),upload_handles (by decide) (by decide)⟩

theorem twoUploads_consistent :
    Consistent id (fun _ => none : Files Bytes) (twoUploads.flatMap Prod.snd) := by
  simp [twoUploads,uploaded,uploadTrace,Http.uploadCounted,Http.requested,Agrees]

end Samples

section History
variable {F : Type} [DecidableEq F] {resolve : Bytes → F} {files : Files F}
variable {config : Server.ServerConfig} {dumpError : Bytes → Option String}
variable {history : List (Job × Trace)}

/-- What both servers do, one job behind the other, the store does with the changes that the
jobs ask for. No file ever holds a mixture of what came with two jobs. -/
theorem servers_store (h : ∀ j ∈ history, Handles config dumpError j.1 j.2)
    (hfiles : Consistent resolve files (history.flatMap Prod.snd)) :
    (∃ journal : List (List (Change F UInt8)),
      List.Forall₂ (fun j => j.1.Makes resolve config dumpError j.2) history journal ∧
      files.replay journal.flatten =
        some (filesAfter resolve files (history.flatMap Prod.snd))) ∧
    ∀ f bytes, filesAfter resolve files (history.flatMap Prod.snd) f = some bytes →
      (∃ g, files g = some bytes) ∨
        ∃ j ∈ history, bytes = storedBytes j.2 ∧ j.1.Brings bytes j.2 := by
  obtain ⟨journal,hall,hreplay⟩ := exists_journal h hfiles
  refine ⟨⟨journal,hall,hreplay⟩,fun f bytes hf => ?_⟩
  refine (replay_origin hreplay hf).imp_right fun ⟨g,hg⟩ => ?_
  obtain ⟨changes,hchanges,hput⟩ := List.mem_flatten.mp hg
  obtain ⟨j,hj,hmakes⟩ := exists_of_mem_journal hall hchanges
  exact ⟨j,hj,hmakes.brings hput⟩

theorem servers_store_twoUploads :
    (∃ journal : List (List (Change Bytes UInt8)),
      List.Forall₂ (fun j => j.1.Makes id Server.sampleConfig (fun _ => none) j.2) twoUploads journal ∧
      Store.replay (fun _ => none) journal.flatten =
        some (filesAfter id (fun _ => none) (twoUploads.flatMap Prod.snd))) ∧
    ∀ f bytes, filesAfter id (fun _ => none : Files Bytes) (twoUploads.flatMap Prod.snd) f =
        some bytes →
      (∃ g, (fun _ => none : Files Bytes) g = some bytes) ∨
        ∃ j ∈ twoUploads, bytes = storedBytes j.2 ∧ j.1.Brings bytes j.2 :=
  servers_store twoUploads_handles twoUploads_consistent

/-- What a job has put into a file stays there until a later job opens that file or has a name
for it. -/
theorem stored_file_kept {before after : List (Job × Trace)} {j : Job × Trace} {path : Bytes}
    (h : ∀ j' ∈ before ++ j :: after, Handles config dumpError j'.1 j'.2)
    (hfiles : Consistent resolve files ((before ++ j :: after).flatMap Prod.snd))
    (hopened : opened j.2 = [path])
    (hlater : ∀ j' ∈ after, resolve path ∉ Server.touched resolve config j'.2) :
    filesAfter resolve files ((before ++ j :: after).flatMap Prod.snd) (resolve path) =
      some (storedBytes j.2) := by
  obtain ⟨journal,hall,hreplay⟩ := exists_journal h hfiles
  obtain ⟨journal₁,changes,journal₂,rfl,-,hj,hafter⟩ := Threads.forall₂_append_cons hall
  rw [List.flatten_append,List.flatten_cons,hj.eq_put hopened,List.singleton_append] at hreplay
  refine replay_put hreplay fun change hchange hf => ?_
  obtain ⟨changes',hchanges',hmem⟩ := List.mem_flatten.mp hchange
  obtain ⟨j',hj',hmakes⟩ := exists_of_mem_journal hafter hchanges'
  exact hlater j' hj' (hmakes.mem_touched change hmem _ hf)

theorem stored_file_kept_twoUploads :
    filesAfter id (fun _ => none : Files Bytes) (twoUploads.flatMap Prod.snd)
      (ascii ['b','/','a']) = some [1,2] := by
  have h : ∀ j ∈ [] ++ uploaded ⟨[97],[1,2]⟩ :: [uploaded ⟨[98],[3]⟩],
      Handles Server.sampleConfig (fun _ => none) j.1 j.2 := twoUploads_handles
  have hopened : opened (uploaded ⟨[97],[1,2]⟩).2 = [ascii ['b','/','a']] := rfl
  exact stored_file_kept h twoUploads_consistent hopened (by decide)

end History

end NetworkLab.Backup
