import NetworkLab.Backup.System
set_option autoImplicit false

/-! The client, `client.cpp`. -/

namespace NetworkLab.Backup
open Interaction

namespace Client

structure ClientConfig where
  enableHandshake : Bool

/-- The member that changes, and the names that were printed. -/
structure Members where
  serverAddr : Addr
  listed : List Bytes
  deriving DecidableEq, Repr

abbrev Handler := Stateful Members Res

def sendto (datagram : Bytes) : Handler ErrorCode := do
  let m ← get
  if ← ask (.sendto m.serverAddr datagram) then pure .SUCCESS
  else pure .SOCKET_SEND_ERROR

def sendCommand (cmd : CmdMsg) : Handler ErrorCode := sendto cmd.encode

def sendData (data : DataMsg) : Handler ErrorCode := sendto data.toList

/-- Every `recvfrom` of the client writes the sender into `serverAddr_`. An empty datagram
counts as nothing. -/
def recvfrom (size : Nat) : Handler (Option Bytes) := do
  match ← ask (.recvfrom size) with
  | none => pure none
  | some (sender,datagram) => do
    modify fun m => { m with serverAddr := sender }
    pure (if datagram = [] then none else some datagram)

/-- The response that is there is overwritten; a short datagram leaves its end. -/
def receiveResponse (response : CmdMsg) : Handler (ErrorCode × CmdMsg) := do
  match ← recvfrom 137 with
  | none => pure (.TIMEOUT,response)
  | some datagram => pure (.SUCCESS,.decode (overlay response.encode datagram))

def receiveData : Handler (ErrorCode × DataMsg) := do
  match ← recvfrom 3000 with
  | none => pure (.TIMEOUT,.new)
  | some datagram => pure (.SUCCESS,.received datagram)

/-- A command with nothing but a name. -/
def command (command : Command) (name : Bytes) : CmdMsg :=
  { CmdMsg.new.setFilename name with cmd := command.code }

/-- `while (*file)`, from `offset` on. A walk that leaves the message has no defined end;
one that does not is over after half as many names as there are bytes. -/
def printNames (data : DataMsg) : Nat → Nat → Handler Unit
  | 0, _ => pure ()
  | fuel+1, offset => do
    let file ← readString (3000 - offset) (data.toList.drop offset)
    if file = [] then pure ()
    else do
      modify fun m => { m with listed := m.listed ++ [file] }
      printNames data fuel (offset + file.length + 1)

def handleLs : Handler ErrorCode := do
  let result ← sendCommand (command .LS [])
  if result ≠ .SUCCESS then pure result
  else
    let (result,dataMsg) ← receiveData
    if result ≠ .SUCCESS then pure result
    else if dataMsg.toList.head? = some 0 then pure .SUCCESS
    else do
      printNames dataMsg 3000 0
      pure .SUCCESS

/-- `std::tolower(answer[0]) == 'y'`; an empty answer has a zero there. -/
def saysYes (answer : Bytes) : Bool := decide (toLower (answer.take 1) = [121])

/-- The acknowledgement at the end of a transfer. -/
def receiveAck : Handler ErrorCode := do
  let (result,ackMsg) ← receiveResponse .new
  if result ≠ .SUCCESS then pure result
  else if ackMsg.getCommand = some .ACK ∧ ackMsg.error = 0 then pure .SUCCESS
  else pure .FILE_WRITE_ERROR

/-- The file is read into a cleared message. -/
def sendSmallFile (filepath : Bytes) (filesize : Nat) : Handler ErrorCode := do
  if ← ask (.ifstream filepath) then do
    let data ← ask (.read filesize)
    let result ← sendData (.received data.val)
    if result ≠ .SUCCESS then pure result else receiveAck
  else pure .FILE_OPEN_ERROR

/-- `while (bytesSent < filesize)`, from `bytesSent` on; `false` when `send` fails. A
short read leaves the end of the buffer. -/
def sendChunks (filesize : Nat) : Nat → Bytes → Nat → Handler Bool
  | 0, _, _ => pure true
  | fuel+1, buffer, bytesSent =>
    if bytesSent < filesize then do
      let bufferSize := min 3000 (filesize - bytesSent)
      let data ← ask (.read bufferSize)
      let buffer' := overlay buffer data.val
      match ← ask (.send (buffer'.take bufferSize)) with
      | none => pure false
      | some sent => sendChunks filesize fuel buffer' (bytesSent + sent.val)
    else pure true

def sendLargeFile (filepath : Bytes) (filesize : Nat) (tcpPort : UInt16) : Handler ErrorCode := do
  if ← ask .socket then
    if ← ask (.connect tcpPort) then
      if ← ask (.ifstream filepath) then do
        let buffer ← ask (.uninitialized 3000)
        if ← sendChunks filesize filesize buffer.val 0 then receiveAck
        else pure .SOCKET_SEND_ERROR
      else pure .FILE_OPEN_ERROR
    else pure .SOCKET_CONNECT_ERROR
  else pure .SOCKET_CREATE_ERROR

/-- The end of `handleSend`: the port comes from the response. -/
def sendFile (filename : Bytes) (filesize : Nat) (response : CmdMsg) : Handler ErrorCode :=
  if dataBufLen < filesize then sendLargeFile filename filesize response.size.toUInt16
  else sendSmallFile filename filesize

/-- The file exists on the server: the user is asked. -/
def confirmSend (filename baseName : Bytes) (filesize : Nat) (response : CmdMsg) :
    Handler ErrorCode := do
  let answer ← ask .answer
  let confirmMsg := { command .OVERWRITE baseName with
    size := UInt32.ofNat filesize, error := if saysYes answer then 0 else 1 }
  let result ← sendCommand confirmMsg
  if result ≠ .SUCCESS then pure result
  else if saysYes answer then
    let (result,response) ← receiveResponse response
    if result ≠ .SUCCESS then pure result
    else if response.getCommand ≠ some .ACK then pure .UNEXPECTED_RESPONSE
    else sendFile filename filesize response
  else do
    let _ ← receiveResponse response
    pure .CANCELLED

/-- A response that is neither FILE_EXISTS nor ACK leads to `sendSmallFile`, whatever the
size. -/
def handleSend (filename : Bytes) : Handler ErrorCode := do
  if ← ask (.fileExists filename) then
    let filesize ← ask (.getFileSize filename)
    let baseName := getFilename filename
    if isValidFilename baseName then
      let result ← sendCommand { command .SEND baseName with size := UInt32.ofNat filesize }
      if result ≠ .SUCCESS then pure result
      else
        let (result,response) ← receiveResponse .new
        if result ≠ .SUCCESS then pure result
        else if response.getCommand = some .FILE_EXISTS then
          confirmSend filename baseName filesize response
        else if response.getCommand = some .ACK then sendFile filename filesize response
        else sendSmallFile filename filesize
    else pure .INVALID_FILENAME
  else pure .FILE_NOT_FOUND

def handleRemove (filename : Bytes) : Handler ErrorCode := do
  let result ← sendCommand (command .REMOVE filename)
  if result ≠ .SUCCESS then pure result
  else
    let (result,ackMsg) ← receiveResponse .new
    if result ≠ .SUCCESS then pure result
    else if ackMsg.getCommand = some .ACK ∧ ackMsg.error = 0 then pure .SUCCESS
    else if ackMsg.getCommand = some .ACK ∧ ackMsg.error = 1 then pure .FILE_NOT_FOUND
    else pure .FILE_DELETE_ERROR

/-- The code for the last response to a rename. -/
def renameResult (ackMsg : CmdMsg) : ErrorCode :=
  if ackMsg.getCommand = some .ACK ∧ ackMsg.error = 0 then .SUCCESS else .FILE_RENAME_ERROR

/-- The new name exists on the server: the user is asked. -/
def confirmRename (ackMsg : CmdMsg) : Handler ErrorCode := do
  let answer ← ask .answer
  let confirmMsg := { command .OVERWRITE [] with error := if saysYes answer then 0 else 1 }
  let result ← sendCommand confirmMsg
  if result ≠ .SUCCESS then pure result
  else
    let (result,ackMsg) ← receiveResponse ackMsg
    if result ≠ .SUCCESS then pure result
    else if ackMsg.error = 2 then pure .CANCELLED
    else pure (renameResult ackMsg)

def sendNewName (newName : Bytes) : Handler ErrorCode := do
  let result ← sendData (.setData newName)
  if result ≠ .SUCCESS then pure result
  else
    let (result,ackMsg) ← receiveResponse .new
    if result ≠ .SUCCESS then pure result
    else if ackMsg.getCommand = some .ACK ∧ ackMsg.error = 1 then pure .FILE_NOT_FOUND
    else if ackMsg.getCommand = some .FILE_EXISTS then confirmRename ackMsg
    else pure (renameResult ackMsg)

/-- Any other response than an acknowledgement is taken for READY_FOR_NEW_NAME. -/
def handleRename (config : ClientConfig) (oldName newName : Bytes) : Handler ErrorCode := do
  let result ← sendCommand (command .RENAME oldName)
  if result ≠ .SUCCESS then pure result
  else if config.enableHandshake then
    let (result,readyMsg) ← receiveResponse .new
    if result ≠ .SUCCESS then pure result
    else if readyMsg.getCommand = some .ACK then
      pure (if readyMsg.error = 0 then .SUCCESS else .FILE_NOT_FOUND)
    else sendNewName newName
  else sendNewName newName

/-- The server's acknowledgement is not waited for. -/
def handleShutdown : Handler ErrorCode := sendCommand (command .SHUTDOWN [])

section Runs
variable {α : Type} {m m' : Members} {tr : Trace} {b : α}

theorem runs_sendto_bind {d : Bytes} {f : ErrorCode → Handler α} :
    Runs (sendto d >>= f) m tr b m' ↔ ∃ ok tr', tr = ⟨.sendto m.serverAddr d,ok⟩ :: tr' ∧
      Runs (f (if ok then .SUCCESS else .SOCKET_SEND_ERROR)) m tr' b m' := by
  constructor
  · intro h
    obtain ⟨ok,tr',rfl,h'⟩ := exec_call.mp h
    refine ⟨ok,tr',rfl,?_⟩
    cases ok <;> exact h'
  · rintro ⟨ok,tr',rfl,h'⟩
    refine exec_call.mpr ⟨ok,tr',rfl,?_⟩
    cases ok <;> exact h'

/-- Nothing has come, or an empty datagram. -/
theorem runs_recvfrom_bind {size : Nat} {f : Option Bytes → Handler α} :
    Runs (recvfrom size >>= f) m tr b m' ↔
      (∃ tr', tr = ⟨.recvfrom size,none⟩ :: tr' ∧ Runs (f none) m tr' b m') ∨
      ∃ sender d tr', tr = ⟨.recvfrom size,some (sender,d)⟩ :: tr' ∧
        Runs (f (if d = [] then none else some d)) { m with serverAddr := sender } tr' b m' := by
  constructor
  · intro h
    obtain ⟨r,tr',rfl,h'⟩ := exec_call.mp h
    rcases r with _ | ⟨sender,d⟩
    · exact Or.inl ⟨tr',rfl,h'⟩
    · exact Or.inr ⟨sender,d,tr',rfl,h'⟩
  · rintro (⟨tr',rfl,h'⟩ | ⟨sender,d,tr',rfl,h'⟩)
    · exact exec_call.mpr ⟨none,tr',rfl,h'⟩
    · exact exec_call.mpr ⟨some (sender,d),tr',rfl,h'⟩

theorem runs_receiveResponse_bind {response : CmdMsg} {f : ErrorCode × CmdMsg → Handler α} :
    Runs (receiveResponse response >>= f) m tr b m' ↔
      (∃ tr', tr = ⟨.recvfrom 137,none⟩ :: tr' ∧ Runs (f (.TIMEOUT,response)) m tr' b m') ∨
      ∃ sender d tr', tr = ⟨.recvfrom 137,some (sender,d)⟩ :: tr' ∧
        Runs (f (if d = [] then (.TIMEOUT,response)
          else (.SUCCESS,.decode (overlay response.encode d))))
          { m with serverAddr := sender } tr' b m' := by
  rw [receiveResponse,runs_bind_assoc,runs_recvfrom_bind]
  refine or_congr Iff.rfl (exists_congr fun sender => exists_congr fun d => exists_congr fun tr' =>
    and_congr Iff.rfl ?_)
  by_cases hd : d = []
  · rw [if_pos hd,if_pos hd]
    exact Iff.rfl
  · rw [if_neg hd,if_neg hd]
    exact Iff.rfl

end Runs

end Client

end NetworkLab.Backup
