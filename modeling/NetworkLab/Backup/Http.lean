import NetworkLab.Backup.Server
set_option autoImplicit false

/-! The file requests of the HTTP server, `http_server.cpp`. Parsing and printing of JSON
are the library's; a response without `request_id`. -/

namespace NetworkLab.Backup
open Interaction

namespace Http

structure HttpServerConfig where
  backupDir : Bytes
  maxUploadSize : Nat

/-- The handlers keep no variables between their calls. -/
abbrev Handler := Stateful Unit Res

/-- `dumpError` is the exception that printing a string throws, if it is no UTF-8. -/
structure HttpServer where
  config : HttpServerConfig
  fileDeleteCallback : Option (Bytes → Handler Bool)
  fileRenameCallback : Option (Bytes → Bytes → Handler Bool)
  dumpError : Bytes → Option String

structure MultipartFormData where
  filename : Bytes
  content : Bytes

/-- A parsed value; an object has one entry for each key. -/
inductive Json where
  | string (s : Bytes)
  | object (fields : List (String × Json))
  | other

def Json.get? (key : String) : Json → Option Json
  | .object fields => fields.lookup key
  | _ => none

inductive Field where
  | bool (b : Bool)
  | number (n : Nat)
  | name (s : Bytes)
  | text (s : String)
  deriving DecidableEq

structure Response where
  status : Nat
  body : List (String × Field)
  deriving DecidableEq

def failure (status : Nat) (error : String) : Response :=
  { status := status, body := [("success",.bool false),("error",.text error)] }

def success (fields : List (String × Field)) : Response :=
  { status := 200, body := ("success",.bool true) :: fields }

def recordError (command error : String) : Handler Unit :=
  ask (.metric (.recordError command error))

/-- `config_.backupDir + "/" + name` -/
def HttpServer.path (server : HttpServer) (name : Bytes) : Bytes :=
  server.config.backupDir ++ [slash] ++ name

/-- The `catch` of the upload. -/
def uploadError (what : String) : Handler Response := do
  ask (.metric .recordSendFailure)
  recordError "http_upload" "write_error"
  pure (failure 500 what)

/-- The `try` of the upload. -/
def storeUpload (server : HttpServer) (file : MultipartFormData) : Handler Response := do
  let _ ← ask (.createDirectory server.config.backupDir)
  if ← ask (.ofstream (server.path file.filename)) then do
    let _ ← ask (.write (server.path file.filename) file.content)
    ask (.metric (.recordBytesReceived file.content.length))
    ask (.metric .recordSendSession)
    ask (.metric (.recordRequest "http_upload"))
    match server.dumpError file.filename with
    | none => pure (success [("filename",.name file.filename),("size",.number file.content.length)])
    | some what => uploadError what
  else uploadError "Failed to create file"

/-- `POST /api/upload`. -/
def upload (server : HttpServer) (file : Option MultipartFormData) : Handler Response := do
  ask (.metric (.recordHttpRequest "/api/upload" "POST"))
  match file with
  | none => pure (failure 400 "No file provided")
  | some file =>
    if ← validate file.filename then
      if server.config.maxUploadSize < file.content.length then do
        recordError "http_upload" "file_too_large"
        pure (failure 413 "File too large")
      else storeUpload server file
    else do
      recordError "http_upload" "invalid_filename"
      pure (failure 400 "Invalid filename")

def HttpServer.deleteFile (server : HttpServer) (filename : Bytes) : Handler Bool :=
  match server.fileDeleteCallback with
  | some callback => callback filename
  | none => ask (.deleteFile (server.path filename))

/-- `DELETE /api/files/(.+)`. -/
def delete (server : HttpServer) (filename : Bytes) : Handler Response := do
  ask (.metric (.recordHttpRequest "/api/files" "DELETE"))
  if ← validate filename then
    if ← ask (.fileExists (server.path filename)) then
      if ← server.deleteFile filename then do
        ask (.metric (.recordRequest "http_delete"))
        match server.dumpError filename with
        | none => pure (success [("filename",.name filename)])
        | some what => do
          recordError "http_delete" "exception"
          pure (failure 500 what)
      else do
        recordError "http_delete" "delete_failed"
        pure (failure 500 "Failed to delete file")
    else do
      recordError "http_delete" "not_found"
      pure (failure 404 "File not found")
  else do
    recordError "http_delete" "invalid_filename"
    pure (failure 400 "Invalid filename")

def HttpServer.renameFile (server : HttpServer) (oldName newName : Bytes) : Handler Bool :=
  match server.fileRenameCallback with
  | some callback => callback oldName newName
  | none => ask (.renameFile (server.path oldName) (server.path newName))

/-- Both names are valid; the second is only looked at when the first is. -/
def validateBoth (oldName newName : Bytes) : Handler Bool := do
  if ← validate oldName then validate newName else pure false

/-- The part of the rename behind the parsing. -/
def renameNames (server : HttpServer) (oldName newName : Bytes) : Handler Response := do
  if ← validateBoth oldName newName then
    if ← ask (.fileExists (server.path oldName)) then
      if ← ask (.fileExists (server.path newName)) then do
        recordError "http_rename" "exists"
        pure (failure 409 "Target file already exists")
      else if ← server.renameFile oldName newName then do
        ask (.metric (.recordRequest "http_rename"))
        match (server.dumpError newName).orElse fun _ => server.dumpError oldName with
        | none => pure (success [("oldName",.name oldName),("newName",.name newName)])
        | some _ => pure (failure 400 "Invalid JSON")
      else do
        recordError "http_rename" "rename_failed"
        pure (failure 500 "Failed to rename file")
    else do
      recordError "http_rename" "not_found"
      pure (failure 404 "Source file not found")
  else do
    recordError "http_rename" "invalid_filename"
    pure (failure 400 "Invalid filename")

/-- `POST /api/rename`; `none` is a body that is no JSON. -/
def rename (server : HttpServer) (body : Option Json) : Handler Response := do
  ask (.metric (.recordHttpRequest "/api/rename" "POST"))
  match body with
  | none => pure (failure 400 "Invalid JSON")
  | some body =>
    match body.get? "oldName",body.get? "newName" with
    | some (.string oldName),some (.string newName) => renameNames server oldName newName
    | some _,some _ => pure (failure 400 "Invalid JSON")
    | _,_ => pure (failure 400 "Missing oldName or newName")

end Http

/-- The HTTP server that `Server::initialize` sets up, with its callbacks. -/
def Server.httpServer (config : ServerConfig) (dumpError : Bytes → Option String) :
    Http.HttpServer :=
  { config := { backupDir := config.backupDir, maxUploadSize := config.maxFileSize }
    fileDeleteCallback := some fun filename =>
      ask (.deleteFile (joinPath config.backupDir filename))
    fileRenameCallback := some fun oldName newName =>
      ask (.renameFile (joinPath config.backupDir oldName) (joinPath config.backupDir newName))
    dumpError := dumpError }

end NetworkLab.Backup
