import NetworkLab.Backup.System
set_option autoImplicit false

/-! The UDP server, `server.cpp`. Its UDP socket has `O_NONBLOCK` set, so the
`SO_RCVTIMEO` that the handlers set has no effect and is left out. -/

namespace NetworkLab.Backup
open Interaction

namespace Server

inductive ServerState where
  | WAITING | PROCESS_LS | PROCESS_SEND | PROCESS_GET | PROCESS_REMOVE | PROCESS_RENAME
  | SHUTDOWN
  deriving DecidableEq, Repr

structure ServerConfig where
  tcpPort : UInt16
  backupDir : Bytes
  maxFileSize : Nat
  enableHandshake : Bool

/-- The members that change. -/
structure Members where
  currentClientAddr : Addr
  currentTcpPort : UInt16
  shutdownRequested : Bool
  state : ServerState
  deriving DecidableEq, Repr

abbrev Handler := Stateful Members Res

def init (config : ServerConfig) : Members :=
  { currentClientAddr := ⟨0,0⟩, currentTcpPort := config.tcpPort, shutdownRequested := false,
    state := .WAITING }

/-- Every `recvfrom` of the server writes the sender into `currentClientAddr_`. `none`
is the return value -1; a datagram may be empty. -/
def recvfrom (size : Nat) : Handler (Option Bytes) := do
  match ← ask (.recvfrom size) with
  | none => pure none
  | some (sender,datagram) => do
    modify fun m => { m with currentClientAddr := sender }
    pure (some datagram)

/-- `clientAddr` is in every call a reference to `currentClientAddr_`. -/
def sendto (datagram : Bytes) : Handler ErrorCode := do
  let m ← get
  if ← ask (.sendto m.currentClientAddr datagram) then pure .SUCCESS
  else pure .SOCKET_SEND_ERROR

def sendResponse (response : CmdMsg) : Handler ErrorCode := sendto response.encode

def sendDataResponse (data : DataMsg) : Handler ErrorCode := sendto data.toList

/-- A response with nothing but a command and an error. -/
def reply (command : Command) (error : UInt16) : CmdMsg :=
  { CmdMsg.new with cmd := command.code, error := error }

@[simp] theorem getCommand_reply {command : Command} {error : UInt16} :
    (reply command error).getCommand = some command := Command.ofCode_code command

@[simp] theorem error_reply {command : Command} {error : UInt16} :
    (reply command error).error = error := rfl

/-- The names one after the other, each with its zero, as long as they fit. -/
def packNames : List Bytes → Nat → Bytes → Bytes
  | [], _, data => data
  | filename :: files, offset, data =>
    if offset + filename.length + 1 < dataBufLen then
      packNames files (offset + filename.length + 1)
        (data.take offset ++ filename ++ [0] ++ data.drop (offset + filename.length + 1))
    else packNames files offset data

def handleLs (config : ServerConfig) : Handler ErrorCode := do
  let files ← listDirectory config.backupDir
  let data := packNames files 0 DataMsg.new.toList
  sendDataResponse (Vector.ofFn fun i => data.getD i 0)

/-- A short write sets the stream's bad bit, and later writes do nothing. -/
def writeStream (good : Bool) (path data : Bytes) : Handler Bool :=
  if good then do
    let stored ← ask (.write path data)
    pure (decide (stored.val = data.length))
  else pure false

def receiveSmallFile (filepath : Bytes) (filesize : Nat) : Handler ErrorCode := do
  let _ ← sendResponse (reply .ACK 0)
  match ← recvfrom 3000 with
  | none => do
    let _ ← sendResponse (reply .ACK 1)
    pure .SOCKET_RECV_ERROR
  | some datagram =>
    if datagram = [] then do
      let _ ← sendResponse (reply .ACK 1)
      pure .SOCKET_RECV_ERROR
    else if ← ask (.ofstream filepath) then do
      let dataMsg := DataMsg.received datagram
      let _ ← writeStream true filepath (dataMsg.toList.take filesize)
      ask (.metric (.recordBytesReceived filesize))
      ask (.metric .recordSendSession)
      sendResponse (reply .ACK 0)
    else do
      let _ ← sendResponse (reply .ACK 1)
      pure .FILE_OPEN_ERROR

/-- `while (totalBytes < filesize)`, from `totalBytes` on. Every round brings a byte at
least, so `filesize` rounds are enough. -/
def receiveChunks (filepath : Bytes) (filesize : Nat) : Nat → Bool → Nat → Handler Nat
  | 0, _, totalBytes => pure totalBytes
  | fuel+1, good, totalBytes =>
    if totalBytes < filesize then do
      match ← ask (.recv 3000) with
      | none => pure totalBytes
      | some chunk => do
        let good' ← writeStream good filepath chunk.val
        receiveChunks filepath filesize fuel good' (totalBytes + chunk.val.length)
    else pure totalBytes

/-- `ackMsg` still has the port in `size` when it is sent for the second time. -/
def receiveLargeFile (filepath : Bytes) (filesize : Nat) : Handler ErrorCode := do
  if ← ask .socket then
    let m ← get
    if ← ask (.bind m.currentTcpPort) then
      if ← ask .listen then
        let ackMsg := { reply .ACK 0 with size := m.currentTcpPort.toUInt32 }
        let sendResult ← sendResponse ackMsg
        if sendResult ≠ .SUCCESS then pure sendResult
        else if ← ask .accept then
          if ← ask (.ofstream filepath) then do
            let totalBytes ← receiveChunks filepath filesize filesize true 0
            ask (.metric (.recordBytesReceived totalBytes))
            ask (.metric .recordSendSession)
            modify fun m => { m with currentTcpPort := m.currentTcpPort + 1 }
            sendResponse ackMsg
          else pure .FILE_OPEN_ERROR
        else pure .SOCKET_ACCEPT_ERROR
      else pure .SOCKET_LISTEN_ERROR
    else pure .SOCKET_BIND_ERROR
  else pure .SOCKET_CREATE_ERROR

def receiveFile (filepath : Bytes) (filesize : Nat) : Handler ErrorCode :=
  if filesize ≤ dataBufLen then receiveSmallFile filepath filesize
  else receiveLargeFile filepath filesize

/-- The file exists: ask for a confirmation. The name and the size are taken from it. -/
def confirmSend (config : ServerConfig) (cmd : CmdMsg) : Handler ErrorCode := do
  let sendResult ← sendResponse { reply .FILE_EXISTS 0 with size := cmd.size }
  if sendResult ≠ .SUCCESS then pure sendResult
  else
    match ← recvfrom 137 with
    | none => pure .TIMEOUT
    | some datagram =>
      if datagram = [] then pure .TIMEOUT
      else
        let confirmMsg := CmdMsg.received datagram
        if confirmMsg.getCommand ≠ some .OVERWRITE ∨ confirmMsg.error ≠ 0 then
          sendResponse (reply .ACK 2)
        else do
          let filename ← readString 128 confirmMsg.tail
          receiveFile (joinPath config.backupDir filename) confirmMsg.size.toNat

def handleSend (config : ServerConfig) (cmd : CmdMsg) : Handler ErrorCode := do
  let filename ← readString 128 cmd.tail
  if ← validate filename then do
    let filepath := joinPath config.backupDir filename
    if ← ask (.fileExists filepath) then confirmSend config cmd
    else receiveFile filepath cmd.size.toNat
  else sendResponse (reply .ACK ErrorCode.INVALID_FILENAME.value)

def handleRemove (config : ServerConfig) (cmd : CmdMsg) : Handler ErrorCode := do
  let filename ← readString 128 cmd.tail
  if ← validate filename then do
    let filepath := joinPath config.backupDir filename
    if ← ask (.fileExists filepath) then
      if ← ask (.deleteFile filepath) then sendResponse (reply .ACK 0)
      else sendResponse (reply .ACK 1)
    else sendResponse (reply .ACK 1)
  else sendResponse (reply .ACK ErrorCode.INVALID_FILENAME.value)

def performRename (oldFilepath newFilepath : Bytes) : Handler ErrorCode := do
  if ← ask (.renameFile oldFilepath newFilepath) then sendResponse (reply .ACK 0)
  else sendResponse (reply .ACK 1)

/-- The new name exists: ask for a confirmation, then delete the file first. Neither
the sending nor the deletion is checked. -/
def confirmRename (oldFilepath newFilepath : Bytes) : Handler ErrorCode := do
  let _ ← sendResponse (reply .FILE_EXISTS 0)
  match ← recvfrom 137 with
  | none => pure .TIMEOUT
  | some datagram =>
    if datagram = [] then pure .TIMEOUT
    else
      let confirmMsg := CmdMsg.received datagram
      if confirmMsg.getCommand ≠ some .OVERWRITE ∨ confirmMsg.error ≠ 0 then
        sendResponse (reply .ACK 2)
      else do
        let _ ← ask (.deleteFile newFilepath)
        performRename oldFilepath newFilepath

def receiveNewName (config : ServerConfig) (oldFilepath : Bytes) : Handler ErrorCode := do
  match ← recvfrom 3000 with
  | none => pure .TIMEOUT
  | some datagram =>
    if datagram = [] then pure .TIMEOUT
    else do
      let newFilename ← readString 3000 (DataMsg.received datagram).toList
      if ← validate newFilename then do
        let newFilepath := joinPath config.backupDir newFilename
        if ← ask (.fileExists newFilepath) then confirmRename oldFilepath newFilepath
        else performRename oldFilepath newFilepath
      else sendResponse (reply .ACK ErrorCode.INVALID_FILENAME.value)

def handleRename (config : ServerConfig) (cmd : CmdMsg) : Handler ErrorCode := do
  let oldFilename ← readString 128 cmd.tail
  if ← validate oldFilename then do
    let oldFilepath := joinPath config.backupDir oldFilename
    if ← ask (.fileExists oldFilepath) then
      if config.enableHandshake then do
        let _ ← sendResponse (reply .READY_FOR_NEW_NAME 0)
        receiveNewName config oldFilepath
      else receiveNewName config oldFilepath
    else sendResponse (reply .ACK 1)
  else sendResponse (reply .ACK ErrorCode.INVALID_FILENAME.value)

def handleShutdown : Handler ErrorCode := do
  let _ ← sendResponse (reply .ACK 0)
  modify fun m => { m with shutdownRequested := true }
  pure .SUCCESS

def setState (state : ServerState) : Handler Unit := modify fun m => { m with state := state }

/-- The `switch` of `processCommand`. -/
def handleCommand (config : ServerConfig) (cmd : CmdMsg) : Handler ErrorCode :=
  match cmd.getCommand with
  | some .LS => do
    setState .PROCESS_LS
    handleLs config
  | some .SEND => do
    setState .PROCESS_SEND
    handleSend config cmd
  | some .REMOVE => do
    setState .PROCESS_REMOVE
    handleRemove config cmd
  | some .RENAME => do
    setState .PROCESS_RENAME
    handleRename config cmd
  | some .SHUTDOWN => do
    setState .SHUTDOWN
    handleShutdown
  | some .OVERWRITE => pure .SUCCESS
  | _ => pure .INVALID_COMMAND

/-- `LOG_CMD` prints the name of every command. -/
def processCommand (config : ServerConfig) (cmd : CmdMsg) : Handler ErrorCode := do
  let result ← handleCommand config cmd
  let _ ← readString 128 cmd.tail
  pure result

/-- `select` and `recvfrom` of the main loop: the next command, if one has come. -/
def nextCommand : Handler (Option Bytes) := do
  match ← ask .select with
  | .failed => pure none
  | .timeout => pure none
  | .readable =>
    match ← recvfrom 137 with
    | none => pure none
    | some datagram => pure (if datagram = [] then none else some datagram)

/-- The rest of a round of the main loop; `false` is the `break`. -/
def dispatch (config : ServerConfig) (datagram : Bytes) : Handler Bool := do
  let cmdMsg := CmdMsg.received datagram
  ask (.metric (.recordRequest (commandToString cmdMsg.getCommand)))
  let result ← processCommand config cmdMsg
  if result ≠ .SUCCESS ∧ cmdMsg.getCommand ≠ some .SHUTDOWN then
    ask (.metric (.recordError (commandToString cmdMsg.getCommand)
      (errorCodeToString result)))
  let m ← get
  if m.state = .SHUTDOWN then pure false
  else do
    setState .WAITING
    pure true

/-- The main loop for at most `n` rounds. -/
def run (config : ServerConfig) : Nat → Handler Unit
  | 0 => pure ()
  | n+1 => do
    let m ← get
    if m.shutdownRequested then pure ()
    else
      match ← nextCommand with
      | none => run config n
      | some datagram => do
        if ← dispatch config datagram then run config n else pure ()

end Server

end NetworkLab.Backup
