import NetworkLab.Backup.Atomic
set_option autoImplicit false

/-! The size of the stored files over whole runs of both servers. -/

namespace NetworkLab.Backup
open Interaction

/-- Commands and HTTP requests, one after the other, with the calls of `processCommand`. -/
inductive Service (config : Server.ServerConfig) (dumpError : Bytes → Option String) :
    Trace → List Server.ServerCall → Server.Members → Prop where
  | start : Service config dumpError [] [] (Server.init config)
  | command {tr trc : Trace} {calls : List Server.ServerCall} {m m' : Server.Members}
      {cmd : CmdMsg} {e : ErrorCode} (sender : Addr) : Service config dumpError tr calls m →
      m.shutdownRequested = false →
      Runs (Server.processCommand config cmd) (m.serving sender) trc e m' →
      Service config dumpError (tr ++ trc) (calls ++ [⟨cmd,m.serving sender,trc,e,m'⟩])
        (Server.afterCall m')
  | upload {tr trh : Trace} {calls : List Server.ServerCall} {m : Server.Members}
      {file : Option Http.MultipartFormData} {resp : Http.Response} :
      Service config dumpError tr calls m →
      Runs (Http.upload (Server.httpServer config dumpError) file) () trh resp () →
      Service config dumpError (tr ++ trh) calls m
  | delete {tr trh : Trace} {calls : List Server.ServerCall} {m : Server.Members}
      {filename : Bytes} {resp : Http.Response} : Service config dumpError tr calls m →
      Runs (Http.delete (Server.httpServer config dumpError) filename) () trh resp () →
      Service config dumpError (tr ++ trh) calls m
  | rename {tr trh : Trace} {calls : List Server.ServerCall} {m : Server.Members}
      {body : Option Http.Json} {resp : Http.Response} : Service config dumpError tr calls m →
      Runs (Http.rename (Server.httpServer config dumpError) body) () trh resp () →
      Service config dumpError (tr ++ trh) calls m

def writes : Event Res → Bool
  | ⟨.write _ _,_⟩ => true
  | _ => false

/-- Nothing is written. -/
def NoWrite (tr : Trace) : Prop := ∀ ev ∈ tr, writes ev = false

section Bounds
variable {F : Type} [DecidableEq F] {resolve : Bytes → F} {files : Files F}
variable {tr tr' : Trace} {n : Nat}

@[simp] theorem noWrite_nil : NoWrite [] := fun _ h => by cases h

@[simp] theorem noWrite_cons {ev : Event Res} :
    NoWrite (ev :: tr) ↔ writes ev = false ∧ NoWrite tr := List.forall_mem_cons

@[simp] theorem noWrite_append : NoWrite (tr ++ tr') ↔ NoWrite tr ∧ NoWrite tr' :=
  List.forall_mem_append

theorem Quiet.noWrite (h : Quiet tr) : NoWrite tr := by
  intro ev hev
  have hq := h ev hev
  unfold writes
  split
  · cases hq
  · rfl

/-- No file outgrows the bound on the way through the calls. -/
def Keeps (resolve : Bytes → F) (n : Nat) (tr : Trace) : Prop :=
  ∀ files : Files F, files.Bounded n → ∀ pre, pre <+: tr →
    (filesAfter resolve files pre).Bounded n

theorem effect_bounded {ev : Event Res} (hev : writes ev = false) (h : files.Bounded n) :
    (effect resolve files ev).Bounded n := by
  unfold effect
  split
  · exact h.update fun content hc => by
      rw [← Option.some.inj hc]
      exact Nat.zero_le n
  · cases hev
  · exact h.delete
  · exact h.move
  · exact h

theorem NoWrite.keeps (h : NoWrite tr) : Keeps resolve n tr := by
  induction tr with
  | nil =>
    intro files hf pre hpre
    rw [List.prefix_nil.mp hpre]
    exact hf
  | cons ev tr ih =>
    intro files hf pre hpre
    obtain ⟨hev,htr⟩ := noWrite_cons.mp h
    rcases List.prefix_cons_iff.mp hpre with rfl | ⟨pre',rfl,hpre'⟩
    · exact hf
    · exact ih htr _ (effect_bounded hev hf) pre' hpre'

/-- A file that is filled never has more than what gets into it in the end. -/
theorem keeps_of_fills (hout : Quiet tr ∨ ∃ path, Fills path tr)
    (hstored : (storedBytes tr).length ≤ n) : Keeps resolve n tr := by
  rcases hout with hq | ⟨path,hfills⟩
  · exact hq.noWrite.keeps
  · intro files hf pre hpre
    rcases hfills.prefix hpre with hq | hpart
    · rw [hq.filesAfter]
      exact hf
    · rw [hpart.filesAfter]
      refine hf.update fun content hc => ?_
      obtain ⟨rest,rfl⟩ := hpre
      rw [← Option.some.inj hc]
      rw [storedBytes_append,List.length_append] at hstored
      omega

theorem Keeps.append {pre : Trace}
    (h : ∀ p, p <+: tr → (filesAfter resolve files p).Bounded n) (h' : Keeps resolve n tr')
    (hpre : pre <+: tr ++ tr') : (filesAfter resolve files pre).Bounded n := by
  obtain ⟨rest,hrest⟩ := hpre
  rcases List.append_eq_append_iff.mp hrest with ⟨more,rfl,-⟩ | ⟨more,rfl,hmore⟩
  · exact h pre (List.prefix_append _ _)
  · rw [filesAfter_append]
    exact h' _ (h tr List.prefix_rfl) more ⟨rest,hmore.symm⟩

end Bounds

section Commands
variable {config : Server.ServerConfig} {cmd : CmdMsg} {m m' : Server.Members} {tr : Trace}
variable {e : ErrorCode}

theorem Server.CommandEvents.noWrite (h : Server.CommandEvents tr) : NoWrite tr :=
  fun ev hev => by cases h ev hev <;> rfl

theorem Server.Processed.outcome (h : Server.Processed config cmd m tr e m') :
    (cmd.getCommand = some .SEND ∧ (Quiet tr ∨ ∃ path, Fills path tr)) ∨
      cmd.getCommand ≠ some .SEND ∧ NoWrite tr := by
  cases h with
  | @logged tr trn name e m' hh hname =>
    rcases hh.cases_send with ⟨hc,hsend⟩ | ⟨hc,hcalls,-⟩
    · exact Or.inl ⟨hc,(hsend.transfer.logged hname).outcome⟩
    · exact Or.inr ⟨hc,noWrite_append.mpr ⟨hcalls.noWrite,hname.commandEvents.noWrite⟩⟩

end Commands

section Requests
variable {config : Server.ServerConfig} {dumpError : Bytes → Option String} {tr : Trace}
variable {resp : Http.Response}

theorem Http.Delete.noWrite {filename : Bytes} (h : Http.Delete config dumpError filename tr resp) :
    NoWrite tr := by
  cases h <;> simp [requested,errorMark,Http.counted,writes]

theorem Http.Rename.noWrite {body : Option Http.Json}
    (h : Http.Rename config dumpError body tr resp) : NoWrite tr := by
  cases h with
  | malformed => simp [requested,writes]
  | missing => simp [requested,writes]
  | names _ _ hnames => cases hnames <;> simp [requested,errorMark,Http.counted,writes]

/-- An upload stores no more than the limit. -/
theorem Http.Upload.keeps {F : Type} [DecidableEq F] {resolve : Bytes → F}
    {file : Option Http.MultipartFormData}
    (h : Http.Upload (Server.httpServer config dumpError) file tr resp) :
    Keeps resolve config.maxFileSize tr := by
  cases file with
  | none =>
    cases h with
    | noFile => exact NoWrite.keeps (by simp [requested,writes])
  | some file =>
    refine keeps_of_fills h.outcome ?_
    have hle := h.stored_prefix.length_le
    cases h with
    | stored _ _ _ hsmall => exact hle.trans hsmall
    | notDumped _ _ _ hsmall => exact hle.trans hsmall
    | invalid => simp [storedBytes,storedBy,requested,errorMark]
    | tooLarge => simp [storedBytes,storedBy,requested,errorMark]
    | notOpened => simp [storedBytes,storedBy,requested,uploadFailed,errorMark]

end Requests

section Run
variable {F : Type} [DecidableEq F] {resolve : Bytes → F} {config : Server.ServerConfig}
variable {dumpError : Bytes → Option String} {tr : Trace} {calls : List Server.ServerCall}
variable {m : Server.Members}

/-- From an empty directory on no file ever outgrows the limit, exactly when no SEND
writes more than the limit. -/
theorem size_limit (h : Service config dumpError tr calls m) :
    (∀ pre, pre <+: tr →
      Store.Bounded (filesAfter resolve (fun _ => none) pre) config.maxFileSize) ↔
    ∀ c ∈ calls, c.cmd.getCommand = some .SEND →
      (storedBytes c.trace).length ≤ config.maxFileSize := by
  have hother : ∀ {tr trh : Trace} {calls : List Server.ServerCall},
      Keeps resolve config.maxFileSize trh →
      ((∀ pre, pre <+: tr →
        Store.Bounded (filesAfter resolve (fun _ => none) pre) config.maxFileSize) ↔
        ∀ c ∈ calls, c.cmd.getCommand = some .SEND →
          (storedBytes c.trace).length ≤ config.maxFileSize) →
      ((∀ pre, pre <+: tr ++ trh →
        Store.Bounded (filesAfter resolve (fun _ => none) pre) config.maxFileSize) ↔
        ∀ c ∈ calls, c.cmd.getCommand = some .SEND →
          (storedBytes c.trace).length ≤ config.maxFileSize) := by
    intro tr trh calls hkeeps ih
    rw [← ih]
    constructor
    · exact fun hall pre hpre => hall pre (hpre.trans (List.prefix_append _ _))
    · exact fun hall pre hpre => Keeps.append hall hkeeps hpre
  induction h with
  | start =>
    simp only [List.prefix_nil,forall_eq,List.not_mem_nil,false_imp_iff,implies_true,iff_true]
    exact fun _ _ hc => by cases hc
  | @command tr trc calls m m' cmd e sender _ _ hrun ih =>
    have hout := (Server.runs_processCommand hrun).outcome
    simp only [List.forall_mem_append,List.forall_mem_singleton,← ih]
    constructor
    · intro hall
      refine ⟨fun pre hpre => hall pre (hpre.trans (List.prefix_append _ _)),fun hc => ?_⟩
      rcases hout with ⟨-,hq | ⟨path,hfills⟩⟩ | ⟨hno,-⟩
      · rw [hq.storedBytes]
        exact Nat.zero_le _
      · refine hall _ List.prefix_rfl (resolve path) (storedBytes trc) ?_
        rw [filesAfter_append,hfills.filesAfter,Function.update_self]
      · exact absurd hc hno
    · rintro ⟨hall,hsend⟩ pre hpre
      refine Keeps.append hall ?_ hpre
      rcases hout with ⟨hc,hfills⟩ | ⟨-,hno⟩
      · exact keeps_of_fills hfills (hsend hc)
      · exact hno.keeps
  | upload _ hrun ih => exact hother (Http.runs_upload hrun).keeps ih
  | delete _ hrun ih => exact hother (Http.runs_delete hrun).noWrite.keeps ih
  | rename _ hrun ih => exact hother (Http.runs_rename hrun).noWrite.keeps ih

end Run

/-- Eleven bytes for a large file, where ten are the limit. -/
def overTrace : Trace :=
  let m := { (Server.init Server.sampleConfig).serving Server.sampleAddr with
    state := Server.ServerState.PROCESS_SEND }
  let cmd := Server.sampleCmd .SEND ['a'] 3001
  let path := ascii ['b','/','a']
  [⟨.cstring 128 cmd.tail,[]⟩,⟨.accepted (ascii ['a']),()⟩,⟨.fileExists path,false⟩] ++
    Server.listening m ++ [Server.sent m (Server.portAck m).encode true,⟨.accept,true⟩,
      ⟨.ofstream path,true⟩,⟨.recv 3000,some ⟨List.replicate 11 7,by decide⟩⟩,
      ⟨.write path (List.replicate 11 7),Fin.last 11⟩,⟨.recv 3000,none⟩] ++
      Server.counted 11 ++ [Server.sent m (Server.portAck m).encode true,
      ⟨.cstring 128 cmd.tail,[]⟩]

theorem over_run : ∃ e m, replay (Server.processCommand Server.sampleConfig
    (Server.sampleCmd .SEND ['a'] 3001)
    ((Server.init Server.sampleConfig).serving Server.sampleAddr)) overTrace = some (e,m) :=
  replay_of_isSome (by decide +kernel)

theorem over_service : ∃ c m, c.trace = overTrace ∧
    Service Server.sampleConfig (fun _ => none) overTrace [c] m := by
  obtain ⟨e,m,h⟩ := over_run
  exact ⟨_,_,rfl,.command Server.sampleAddr .start rfl (exec_of_replay h)⟩

/-- The UDP server does not look at the limit. -/
theorem not_size_limit_always :
    ¬∀ (config : Server.ServerConfig) (dumpError : Bytes → Option String) (tr : Trace)
      (calls : List Server.ServerCall) (m : Server.Members),
      Service config dumpError tr calls m → ∀ pre, pre <+: tr →
        Store.Bounded (filesAfter id (fun _ => none) pre : Files Bytes) config.maxFileSize := by
  intro hall
  obtain ⟨c,m,-,h⟩ := over_service
  have hle := hall _ _ _ _ _ h _ List.prefix_rfl (ascii ['b','/','a']) (List.replicate 11 7)
    (by decide +kernel)
  revert hle
  decide

theorem size_limit_overTrace : ∃ c : Server.ServerCall, c.trace = overTrace ∧
    ((∀ pre, pre <+: overTrace →
      Store.Bounded (filesAfter id (fun _ => none) pre : Files Bytes)
        Server.sampleConfig.maxFileSize) ↔
    ∀ c' ∈ [c], c'.cmd.getCommand = some .SEND →
      (storedBytes c'.trace).length ≤ Server.sampleConfig.maxFileSize) := by
  obtain ⟨c,m,hc,h⟩ := over_service
  exact ⟨c,hc,size_limit h⟩

end NetworkLab.Backup
