import NetworkLab.Backup.Http
set_option autoImplicit false

/-! What the file requests can do, one relation for each: the calls and the response. -/

namespace NetworkLab.Backup
open Interaction

namespace Http

def requested (endpoint method : String) : Event Res :=
  ⟨.metric (.recordHttpRequest endpoint method),()⟩

def errorMark (command error : String) : Event Res := ⟨.metric (.recordError command error),()⟩

/-- The counting in the `catch` of the upload. -/
def uploadFailed : Trace := [⟨.metric .recordSendFailure,()⟩,errorMark "http_upload" "write_error"]

def uploadCounted (bytes : Nat) : Trace :=
  [⟨.metric (.recordBytesReceived bytes),()⟩,⟨.metric .recordSendSession,()⟩,
    ⟨.metric (.recordRequest "http_upload"),()⟩]

/-- What an upload can do. -/
inductive Upload (server : HttpServer) : Option MultipartFormData → Trace → Response → Prop where
  | noFile : Upload server none [requested "/api/upload" "POST"] (failure 400 "No file provided")
  | invalid {file : MultipartFormData} : isValidFilename file.filename = false →
      Upload server (some file)
        [requested "/api/upload" "POST",errorMark "http_upload" "invalid_filename"]
        (failure 400 "Invalid filename")
  | tooLarge {file : MultipartFormData} : isValidFilename file.filename = true →
      server.config.maxUploadSize < file.content.length →
      Upload server (some file)
        [requested "/api/upload" "POST",⟨.accepted file.filename,()⟩,
          errorMark "http_upload" "file_too_large"] (failure 413 "File too large")
  | notOpened {file : MultipartFormData} (made : Bool) : isValidFilename file.filename = true →
      file.content.length ≤ server.config.maxUploadSize →
      Upload server (some file)
        ([requested "/api/upload" "POST",⟨.accepted file.filename,()⟩,
          ⟨.createDirectory server.config.backupDir,made⟩,
          ⟨.ofstream (server.path file.filename),false⟩] ++ uploadFailed)
        (failure 500 "Failed to create file")
  | stored {file : MultipartFormData} (made : Bool) (stored : Fin (file.content.length + 1)) :
      isValidFilename file.filename = true →
      file.content.length ≤ server.config.maxUploadSize → server.dumpError file.filename = none →
      Upload server (some file)
        ([requested "/api/upload" "POST",⟨.accepted file.filename,()⟩,
          ⟨.createDirectory server.config.backupDir,made⟩,
          ⟨.ofstream (server.path file.filename),true⟩,
          ⟨.write (server.path file.filename) file.content,stored⟩] ++
          uploadCounted file.content.length)
        (success [("filename",.name file.filename),("size",.number file.content.length)])
  | notDumped {file : MultipartFormData} {what : String} (made : Bool)
      (stored : Fin (file.content.length + 1)) : isValidFilename file.filename = true →
      file.content.length ≤ server.config.maxUploadSize →
      server.dumpError file.filename = some what →
      Upload server (some file)
        ([requested "/api/upload" "POST",⟨.accepted file.filename,()⟩,
          ⟨.createDirectory server.config.backupDir,made⟩,
          ⟨.ofstream (server.path file.filename),true⟩,
          ⟨.write (server.path file.filename) file.content,stored⟩] ++
          uploadCounted file.content.length ++ uploadFailed) (failure 500 what)

section Upload
variable {server : HttpServer} {file : Option MultipartFormData} {tr : Trace} {resp : Response}

theorem runs_recordError_bind {α : Type} {command error : String} {f : Unit → Handler α} {b : α} :
    Runs (recordError command error >>= f) () tr b () ↔
      ∃ tr', tr = errorMark command error :: tr' ∧ Runs (f ()) () tr' b () := by
  unfold recordError
  rw [runs_ask_bind]
  constructor
  · rintro ⟨⟨⟩,tr',rfl,h⟩
    exact ⟨tr',rfl,h⟩
  · rintro ⟨tr',rfl,h⟩
    exact ⟨(),tr',rfl,h⟩

/-- The end of a handler that has failed. -/
theorem runs_recordError_pure {command error : String} {answer : Response} :
    Runs (recordError command error >>= fun _ => pure answer) () tr resp () ↔
      tr = [errorMark command error] ∧ resp = answer := by
  rw [runs_recordError_bind]
  constructor
  · rintro ⟨tr',rfl,h⟩
    obtain ⟨rfl,rfl,-⟩ := runs_pure.mp h
    exact ⟨rfl,rfl⟩
  · rintro ⟨rfl,rfl⟩
    exact ⟨[],rfl,runs_pure.mpr ⟨rfl,rfl,rfl⟩⟩

theorem runs_uploadError {what : String} (h : Runs (uploadError what) () tr resp ()) :
    tr = uploadFailed ∧ resp = failure 500 what := by
  unfold uploadError at h
  obtain ⟨⟨⟩,tr₁,rfl,h₁⟩ := runs_ask_bind.mp h
  obtain ⟨rfl,rfl⟩ := runs_recordError_pure.mp h₁
  exact ⟨rfl,rfl⟩

theorem runs_upload (h : Runs (upload server file) () tr resp ()) :
    Upload server file tr resp := by
  unfold upload at h
  obtain ⟨⟨⟩,tr₁,rfl,h₁⟩ := runs_ask_bind.mp h
  cases file with
  | none =>
    obtain ⟨rfl,rfl,-⟩ := runs_pure.mp h₁
    exact .noFile
  | some file =>
  rcases runs_validate_bind.mp h₁ with ⟨hv,h₂⟩ | ⟨hv,tr₂,rfl,h₂⟩
  · obtain ⟨rfl,rfl⟩ := runs_recordError_pure.mp h₂
    exact .invalid hv
  simp only [if_true] at h₂
  split at h₂
  · rename_i hlarge
    obtain ⟨rfl,rfl⟩ := runs_recordError_pure.mp h₂
    exact .tooLarge hv hlarge
  · rename_i hsmall
    have hsmall := Nat.le_of_not_lt hsmall
    unfold storeUpload at h₂
    obtain ⟨made,tr₃,rfl,h₃⟩ := runs_ask_bind.mp h₂
    obtain ⟨opened,tr₄,rfl,h₄⟩ := runs_ask_bind.mp h₃
    cases opened with
    | false =>
      obtain ⟨rfl,rfl⟩ := runs_uploadError h₄
      exact .notOpened made hv hsmall
    | true =>
    obtain ⟨stored,tr₅,rfl,h₅⟩ := runs_ask_bind.mp h₄
    obtain ⟨⟨⟩,tr₆,rfl,h₆⟩ := runs_ask_bind.mp h₅
    obtain ⟨⟨⟩,tr₇,rfl,h₇⟩ := runs_ask_bind.mp h₆
    obtain ⟨⟨⟩,tr₈,rfl,h₈⟩ := runs_ask_bind.mp h₇
    split at h₈
    · rename_i hdump
      obtain ⟨rfl,rfl,-⟩ := runs_pure.mp h₈
      exact .stored made stored hv hsmall hdump
    · rename_i what hdump
      obtain ⟨rfl,rfl⟩ := runs_uploadError h₈
      exact .notDumped made stored hv hsmall hdump

end Upload

def counted (command : String) : Event Res := ⟨.metric (.recordRequest command),()⟩

/-- What a deletion can do, with the callback that the server sets. -/
inductive Delete (config : Server.ServerConfig) (dumpError : Bytes → Option String)
    (filename : Bytes) : Trace → Response → Prop where
  | invalid : isValidFilename filename = false →
      Delete config dumpError filename
        [requested "/api/files" "DELETE",errorMark "http_delete" "invalid_filename"]
        (failure 400 "Invalid filename")
  | notFound : isValidFilename filename = true →
      Delete config dumpError filename
        [requested "/api/files" "DELETE",⟨.accepted filename,()⟩,
          ⟨.fileExists ((Server.httpServer config dumpError).path filename),false⟩,
          errorMark "http_delete" "not_found"] (failure 404 "File not found")
  | failed : isValidFilename filename = true →
      Delete config dumpError filename
        [requested "/api/files" "DELETE",⟨.accepted filename,()⟩,
          ⟨.fileExists ((Server.httpServer config dumpError).path filename),true⟩,
          ⟨.deleteFile (joinPath config.backupDir filename),false⟩,
          errorMark "http_delete" "delete_failed"] (failure 500 "Failed to delete file")
  | deleted : isValidFilename filename = true → dumpError filename = none →
      Delete config dumpError filename
        [requested "/api/files" "DELETE",⟨.accepted filename,()⟩,
          ⟨.fileExists ((Server.httpServer config dumpError).path filename),true⟩,
          ⟨.deleteFile (joinPath config.backupDir filename),true⟩,counted "http_delete"]
        (success [("filename",.name filename)])
  | notDumped {what : String} : isValidFilename filename = true → dumpError filename = some what →
      Delete config dumpError filename
        [requested "/api/files" "DELETE",⟨.accepted filename,()⟩,
          ⟨.fileExists ((Server.httpServer config dumpError).path filename),true⟩,
          ⟨.deleteFile (joinPath config.backupDir filename),true⟩,counted "http_delete",
          errorMark "http_delete" "exception"] (failure 500 what)

/-- What a rename can do once the names are parsed, with the callback that the server sets. -/
inductive RenameNames (config : Server.ServerConfig) (dumpError : Bytes → Option String)
    (oldName newName : Bytes) : Trace → Response → Prop where
  | invalidOld : isValidFilename oldName = false →
      RenameNames config dumpError oldName newName [errorMark "http_rename" "invalid_filename"]
        (failure 400 "Invalid filename")
  | invalidNew : isValidFilename oldName = true → isValidFilename newName = false →
      RenameNames config dumpError oldName newName
        [⟨.accepted oldName,()⟩,errorMark "http_rename" "invalid_filename"]
        (failure 400 "Invalid filename")
  | notFound : isValidFilename oldName = true → isValidFilename newName = true →
      RenameNames config dumpError oldName newName
        [⟨.accepted oldName,()⟩,⟨.accepted newName,()⟩,
          ⟨.fileExists ((Server.httpServer config dumpError).path oldName),false⟩,
          errorMark "http_rename" "not_found"] (failure 404 "Source file not found")
  | conflict : isValidFilename oldName = true → isValidFilename newName = true →
      RenameNames config dumpError oldName newName
        [⟨.accepted oldName,()⟩,⟨.accepted newName,()⟩,
          ⟨.fileExists ((Server.httpServer config dumpError).path oldName),true⟩,
          ⟨.fileExists ((Server.httpServer config dumpError).path newName),true⟩,
          errorMark "http_rename" "exists"] (failure 409 "Target file already exists")
  | failed : isValidFilename oldName = true → isValidFilename newName = true →
      RenameNames config dumpError oldName newName
        [⟨.accepted oldName,()⟩,⟨.accepted newName,()⟩,
          ⟨.fileExists ((Server.httpServer config dumpError).path oldName),true⟩,
          ⟨.fileExists ((Server.httpServer config dumpError).path newName),false⟩,
          ⟨.renameFile (joinPath config.backupDir oldName) (joinPath config.backupDir newName),
            false⟩,
          errorMark "http_rename" "rename_failed"] (failure 500 "Failed to rename file")
  | renamed {resp : Response} : isValidFilename oldName = true → isValidFilename newName = true →
      resp = (match (dumpError newName).orElse fun _ => dumpError oldName with
        | none => success [("oldName",.name oldName),("newName",.name newName)]
        | some _ => failure 400 "Invalid JSON") →
      RenameNames config dumpError oldName newName
        [⟨.accepted oldName,()⟩,⟨.accepted newName,()⟩,
          ⟨.fileExists ((Server.httpServer config dumpError).path oldName),true⟩,
          ⟨.fileExists ((Server.httpServer config dumpError).path newName),false⟩,
          ⟨.renameFile (joinPath config.backupDir oldName) (joinPath config.backupDir newName),
            true⟩,
          counted "http_rename"] resp

/-- What a rename can do. -/
inductive Rename (config : Server.ServerConfig) (dumpError : Bytes → Option String) :
    Option Json → Trace → Response → Prop where
  | malformed {body : Option Json} : (∀ b oldName newName, body = some b →
        b.get? "oldName" = some (.string oldName) → b.get? "newName" ≠ some (.string newName)) →
      Rename config dumpError body [requested "/api/rename" "POST"] (failure 400 "Invalid JSON")
  | missing {b : Json} : b.get? "oldName" = none ∨ b.get? "newName" = none →
      Rename config dumpError (some b) [requested "/api/rename" "POST"]
        (failure 400 "Missing oldName or newName")
  | names {b : Json} {oldName newName : Bytes} {tr : Trace} {resp : Response} :
      b.get? "oldName" = some (.string oldName) → b.get? "newName" = some (.string newName) →
      RenameNames config dumpError oldName newName tr resp →
      Rename config dumpError (some b) (requested "/api/rename" "POST" :: tr) resp

section Names
variable {config : Server.ServerConfig} {dumpError : Bytes → Option String} {tr : Trace}
variable {resp : Response} {filename oldName newName : Bytes}

theorem runs_delete (h : Runs (delete (Server.httpServer config dumpError) filename) () tr resp ()) :
    Delete config dumpError filename tr resp := by
  unfold delete at h
  obtain ⟨⟨⟩,tr₁,rfl,h₁⟩ := runs_ask_bind.mp h
  rcases runs_validate_bind.mp h₁ with ⟨hv,h₂⟩ | ⟨hv,tr₂,rfl,h₂⟩
  · obtain ⟨rfl,rfl⟩ := runs_recordError_pure.mp h₂
    exact .invalid hv
  obtain ⟨there,tr₃,rfl,h₃⟩ := runs_ask_bind.mp h₂
  cases there with
  | false =>
    obtain ⟨rfl,rfl⟩ := runs_recordError_pure.mp h₃
    exact .notFound hv
  | true =>
  obtain ⟨done,tr₄,rfl,h₄⟩ := runs_ask_bind.mp h₃
  cases done with
  | false =>
    obtain ⟨rfl,rfl⟩ := runs_recordError_pure.mp h₄
    exact .failed hv
  | true =>
  obtain ⟨⟨⟩,tr₅,rfl,h₅⟩ := runs_ask_bind.mp h₄
  split at h₅
  · rename_i hdump
    obtain ⟨rfl,rfl,-⟩ := runs_pure.mp h₅
    exact .deleted hv hdump
  · rename_i what hdump
    obtain ⟨rfl,rfl⟩ := runs_recordError_pure.mp h₅
    exact .notDumped hv hdump

theorem runs_renameNames
    (h : Runs (renameNames (Server.httpServer config dumpError) oldName newName) () tr resp ()) :
    RenameNames config dumpError oldName newName tr resp := by
  unfold renameNames validateBoth at h
  rw [runs_bind_assoc] at h
  rcases runs_validate_bind.mp h with ⟨ho,h₁⟩ | ⟨ho,tr₁,rfl,h₁⟩
  · obtain ⟨rfl,rfl⟩ := runs_recordError_pure.mp (runs_pure_bind.mp h₁)
    exact .invalidOld ho
  rcases runs_validate_bind.mp h₁ with ⟨hn,h₂⟩ | ⟨hn,tr₂,rfl,h₂⟩
  · obtain ⟨rfl,rfl⟩ := runs_recordError_pure.mp h₂
    exact .invalidNew ho hn
  obtain ⟨there,tr₃,rfl,h₃⟩ := runs_ask_bind.mp h₂
  cases there with
  | false =>
    obtain ⟨rfl,rfl⟩ := runs_recordError_pure.mp h₃
    exact .notFound ho hn
  | true =>
  obtain ⟨taken,tr₄,rfl,h₄⟩ := runs_ask_bind.mp h₃
  cases taken with
  | true =>
    obtain ⟨rfl,rfl⟩ := runs_recordError_pure.mp h₄
    exact .conflict ho hn
  | false =>
  obtain ⟨done,tr₅,rfl,h₅⟩ := runs_ask_bind.mp h₄
  cases done with
  | false =>
    obtain ⟨rfl,rfl⟩ := runs_recordError_pure.mp h₅
    exact .failed ho hn
  | true =>
  obtain ⟨⟨⟩,tr₆,rfl,h₆⟩ := runs_ask_bind.mp h₅
  have hdump : dumpError = (Server.httpServer config dumpError).dumpError := rfl
  split at h₆
  · rename_i hd
    obtain ⟨rfl,rfl,-⟩ := runs_pure.mp h₆
    exact .renamed ho hn (by rw [hdump,hd])
  · rename_i what hd
    obtain ⟨rfl,rfl,-⟩ := runs_pure.mp h₆
    exact .renamed ho hn (by rw [hdump,hd])

theorem runs_rename {body : Option Json}
    (h : Runs (rename (Server.httpServer config dumpError) body) () tr resp ()) :
    Rename config dumpError body tr resp := by
  unfold rename at h
  obtain ⟨⟨⟩,tr₁,rfl,h₁⟩ := runs_ask_bind.mp h
  cases body with
  | none =>
    obtain ⟨rfl,rfl,-⟩ := runs_pure.mp h₁
    exact .malformed (by simp)
  | some b =>
    simp only at h₁
    split at h₁
    · rename_i ho hn
      exact .names ho hn (runs_renameNames h₁)
    · rename_i hstrings ho' hn'
      obtain ⟨rfl,rfl,-⟩ := runs_pure.mp h₁
      refine .malformed fun b' oldName newName hb ho hn => ?_
      obtain rfl := Option.some.inj hb
      rw [ho'] at ho
      rw [hn'] at hn
      exact hstrings _ _ (Option.some.inj ho) (Option.some.inj hn)
    · rename_i hsome
      obtain ⟨rfl,rfl,-⟩ := runs_pure.mp h₁
      refine .missing ?_
      cases ho : b.get? "oldName" with
      | none => exact Or.inl rfl
      | some o =>
        cases hn : b.get? "newName" with
        | none => exact Or.inr rfl
        | some n => exact absurd hn (hsome _ _ ho)

end Names

end Http

end NetworkLab.Backup
