import NetworkLab.Lab2.Server
set_option autoImplicit false

/-! The client of `client.cc`, and the two programs with the datagrams between them. -/

namespace NetworkLab.Lab2

/-- A line that is typed at the prompt. -/
inductive Typed where
  | ls
  | send (filename : Name)
  | remove (filename : Name)
  | rename (filename newFilename : Name)
  | shutdown
  | quit
  | wrong
  deriving DecidableEq, Repr

/-- What the client prints about a command. -/
inductive Line where
  | wrongCommand | fileNotFound | files (names : Option (List Name))
  | unexpectedResponse | cancelled | completed | notCompleted | fileSent | notSent
  | removed | doesNotExist | notRemoved | sourceDoesNotExist | renameCancelled | renamed
  | serverIsShutdown
  deriving DecidableEq, Repr

/-- Where the client stands: at the prompt, or at one of its calls of `recvfrom`, at `connect`,
or between the two datagrams of a renaming. -/
inductive Client where
  | prompt
  | lsReply
  | sendReply (filename : Name) (file : Bytes)
  | overwriteReply (filename : Name) (file : Bytes)
  | cancelReply
  | portReply (filename : Name) (file : Bytes)
  | connecting (filename : Name) (file : Bytes) (tcpPort : Nat)
  | doneReply
  | dataReply
  | removeReply
  | renameSecond (newFilename : Name)
  | renameReply (newFilename : Name)
  | renameConfirmReply
  | renameLastReply (ackMsg : CmdMsg)
  | quit
  deriving DecidableEq, Repr

/-- `while(*file)` over the received buffer; `none` when it runs off its end. -/
def walk : Name → Bytes → Option (List Name)
  | _, [] => none
  | file, b :: data =>
    if b = 0 then
      if file = [] then some [] else (walk [] data).map (file :: ·)
    else walk (file ++ [b]) data

section Client
variable (P : Platform)

/-- `strncpy` into `filename`. -/
def sentName (filename : Name) : Name := filename.take (P.fileNameLen - 1)

/-- The buffer behind `memset` and the copy of these bytes. -/
def buffer (bytes : Bytes) : Bytes := bytes ++ List.replicate (P.dataBufLen - bytes.length) 0

/-- The buffer with the new name of a file. -/
def nameBuffer (newFilename : Name) : Bytes := buffer P (newFilename.take (P.dataBufLen - 1))

/-- A command is typed. `files` are the client's own, `old` is `cmd_msg` so far. -/
def Typed.start (files : Name → Option Bytes) (old : CmdMsg) :
    Typed → Client × List Datagram × List Line
  | .ls => (.lsReply,[.cmd { cmd := .ls, filename := [], size := 0, error := 0 }],[])
  | .send filename =>
    match files filename with
    | none => (.prompt,[],[.fileNotFound])
    | some file => (.sendReply filename file,
        [.cmd { cmd := .send, filename := sentName P filename, size := file.length, error := 0 }],
        [])
  | .remove filename => (.removeReply,
      [.cmd { cmd := .remove, filename := sentName P filename, size := 0, error := 0 }],[])
  | .rename filename newFilename => (.renameSecond newFilename,
      [.cmd { cmd := .rename, filename := sentName P filename, size := 0, error := 0 }],[])
  | .shutdown => (.prompt,[.cmd { old with cmd := .shutdown, size := 0, error := 0 }],
      [.serverIsShutdown])
  | .quit => (.quit,[],[])
  | .wrong => (.prompt,[],[.wrongCommand])

/-- `BUFFER_SIZE` -/
def bufferSize : Nat := 3000

/-- `while (bytes_sent < filesize)`: the bytes that go out. `file` is what is still to be read,
`buffer` what is in it from before, and `sends` are the results of `send` up to the one that
fails. Behind a short `send` the next round goes on reading in the file, not in the buffer;
behind the end of the file nothing is read, and the buffer goes out as it is. -/
def sendLoop (filesize : Nat) : List Nat → Bytes → Bytes → Nat → Bytes
  | [], _, _, _ => []
  | sent :: sends, file, buffer, bytesSent =>
    if bytesSent < filesize then
      let size := min bufferSize (filesize - bytesSent)
      let read := file.take size
      let buffer := read ++ buffer.drop read.length
      let sent := min sent size
      buffer.take sent ++ sendLoop filesize sends (file.drop size) buffer (bytesSent + sent)
    else []

/-- `tolower(answer) == 'y'` -/
def agrees (answer : Char) : Bool := answer = 'y' ∨ answer = 'Y'

/-- A `recvfrom` of the client has returned with a datagram, or timed out. `answer` is what the
user types if asked, `stack` what is in a message that was not set. -/
def Client.reply (answer : Char) (stack : CmdMsg) (old : Bytes) (c : Client)
    (x : Option Datagram) : Client × List Datagram × List Line :=
  match c, x with
  | .lsReply, none => (.prompt,[],[])
  | .lsReply, some x => (.prompt,[],[.files (walk [] (P.dataOf old x))])
  | .sendReply _ _, none => (.prompt,[],[])
  | .sendReply filename file, some x =>
    let resp := P.cmdOf stack x
    if resp.cmd = .fileExists then
      if agrees answer then
        (.overwriteReply filename file,
          [.cmd { cmd := .overwrite, filename := sentName P filename, size := file.length,
                  error := 0 }],[])
      else (.cancelReply,[.cmd { stack with cmd := .overwrite, error := 1 }],[])
    else if resp.cmd = .ack then
      if P.dataBufLen < file.length then (.connecting filename file resp.size,[],[])
      else (.dataReply,[.data (buffer P file)],[])
    else (.prompt,[],[])
  | .overwriteReply _ _, none => (.prompt,[],[])
  | .overwriteReply filename file, some x =>
    let resp := P.cmdOf stack x
    if resp.cmd ≠ .ack ∧ resp.cmd ≠ .other 17 then (.prompt,[],[.unexpectedResponse])
    else if P.dataBufLen < file.length then
      if resp.cmd = .ack ∧ 0 < resp.size then (.connecting filename file resp.size,[],[])
      else (.portReply filename file,[],[])
    else (.prompt,[],[])
  | .cancelReply, _ => (.prompt,[],[.cancelled])
  | .portReply _ _, none => (.prompt,[],[])
  | .portReply filename file, some x => (.connecting filename file (P.cmdOf stack x).size,[],[])
  | .doneReply, none => (.prompt,[],[])
  | .doneReply, some x =>
    let portMsg := P.cmdOf stack x
    (.prompt,[],[if portMsg.cmd = .ack ∧ portMsg.error = 0 then .completed else .notCompleted])
  | .dataReply, none => (.prompt,[],[])
  | .dataReply, some x =>
    let ackMsg := P.cmdOf stack x
    (.prompt,[],[if ackMsg.cmd = .ack ∧ ackMsg.error = 0 then .fileSent else .notSent])
  | .removeReply, none => (.prompt,[],[])
  | .removeReply, some x =>
    let ackMsg := P.cmdOf stack x
    if ackMsg.cmd = .ack then
      (.prompt,[],[if ackMsg.error = 0 then .removed
        else if ackMsg.error = 1 then .doesNotExist else .notRemoved])
    else (.prompt,[],[])
  | .renameReply _, none => (.prompt,[],if stack.cmd = .ack then [.renamed] else [])
  | .renameReply _, some x =>
    let ackMsg := P.cmdOf stack x
    if ackMsg.cmd = .ack ∧ ackMsg.error = 1 then (.prompt,[],[.sourceDoesNotExist])
    else if ackMsg.cmd = .fileExists then
      (.renameConfirmReply,
        [.cmd { stack with cmd := .overwrite, error := if agrees answer then 0 else 1 }],[])
    else if ackMsg.cmd = .ack then (.prompt,[],[.renamed])
    else (.renameLastReply ackMsg,[],[])
  | .renameConfirmReply, none => (.prompt,[],[])
  | .renameConfirmReply, some x =>
    let ackMsg := P.cmdOf stack x
    if ackMsg.error = 2 then (.prompt,[],[.renameCancelled])
    else if ackMsg.cmd = .ack then (.prompt,[],[.renamed])
    else (.renameLastReply ackMsg,[],[])
  | .renameLastReply _, none => (.prompt,[],[])
  | .renameLastReply ackMsg, some x =>
    (.prompt,[],if (P.cmdOf ackMsg x).cmd = .ack then [.renamed] else [])
  | c, _ => (c,[],[])

end Client

end NetworkLab.Lab2
