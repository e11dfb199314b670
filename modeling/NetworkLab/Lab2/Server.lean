import Mathlib.Logic.Function.Basic
set_option autoImplicit false

/-! The server of `server.cc`. Its socket does not block, so each `recvfrom` of its loop is a
place at which a datagram is there or not; `accept` blocks. `message.h` is not in the
repository: `Platform` holds the layout of its two messages and what the file system allows. -/

namespace NetworkLab.Lab2

abbrev Bytes := List UInt8

/-- A C string without its zero byte. -/
abbrev Name := List UInt8

/-- The commands, by their places in `cmd_string`; `other` is 0, whose name is a blank, or a
value behind the end of that array. -/
inductive Cmd where
  | ls | send | get | remove | rename | shutdown | ack | ackPort | fileExists | overwrite
  | other (value : Nat)
  deriving DecidableEq, Repr

/-- `Cmd_Msg_T` -/
structure CmdMsg where
  cmd : Cmd
  filename : Name
  size : Nat
  error : Nat
  deriving DecidableEq, Repr

/-- What travels over UDP: a `Cmd_Msg_T`, or the buffer of a `Data_Msg_T`. -/
inductive Datagram where
  | cmd (m : CmdMsg)
  | data (d : Bytes)
  deriving DecidableEq, Repr

/-- The files in `backup/`. -/
abbrev Disk := Name → Option Bytes

/-- `asCmd m d` is `m` after the datagram `d` was received into it, `asData` the other way
round. -/
structure Platform where
  fileNameLen : Nat
  dataBufLen : Nat
  asCmd : CmdMsg → Bytes → CmdMsg
  asData : Bytes → CmdMsg → Bytes
  readdir : Disk → List Name
  creates : Name → Bool
  removes : Name → Bool
  renames : Name → Name → Bool

namespace Platform
variable (P : Platform)

/-- `recvfrom` into a `Cmd_Msg_T`. -/
def cmdOf (m : CmdMsg) : Datagram → CmdMsg
  | .cmd m' => m'
  | .data d => P.asCmd m d

/-- `recvfrom` into a `Data_Msg_T`. -/
def dataOf (d : Bytes) : Datagram → Bytes
  | .cmd m => P.asData d m
  | .data d' => d'

end Platform

/-- `Server_State_T` -/
inductive ServerState where
  | waiting | processLs | processSend | processGet | processRemove | processRename | shutdown
  deriving DecidableEq, Repr

/-- Where the server stands: at the `recvfrom` of the loop, at one of the three inside, in
`accept` for an overwriting or a new file, behind the loop, or where its behaviour is no
longer defined. -/
inductive Place where
  | loop
  | fileData
  | newName
  | confirm (newFilename : Name)
  | accepting (overwriting : Bool)
  | exited
  | undefined
  deriving DecidableEq, Repr

structure Server where
  serverState : ServerState
  cmdMsg : CmdMsg
  ackMsg : CmdMsg
  dataMsg : Bytes
  currentTcpPort : Nat
  disk : Disk
  place : Place

/-- `strcpy(data_msg.data + offset, files[i].c_str())`, with the zero byte. -/
def strcpy (data : Bytes) (offset : Nat) (name : Name) : Bytes :=
  data.take offset ++ (name ++ 0 :: data.drop (offset + name.length + 1))

/-- The loop of PROCESS_LS: a name that does not fit is left out. -/
def pack (dataBufLen : Nat) : List Name → Nat → Bytes → Bytes
  | [], _, data => data
  | file :: files, offset, data =>
    if offset + file.length + 1 < dataBufLen then
      pack dataBufLen files (offset + file.length + 1) (strcpy data offset file)
    else pack dataBufLen files offset data

/-- The buffer behind `memset` and that loop. -/
def listing (dataBufLen : Nat) (files : List Name) : Bytes :=
  pack dataBufLen files 0 (List.replicate dataBufLen 0)

/-- `string(data)`: up to the zero byte. -/
def cString (data : Bytes) : Name := data.takeWhile (· ≠ 0)

/-- `while (total_bytes < filesize)`: what the calls of `recv` return, until the connection
is closed. -/
def receive (filesize : Nat) : List Bytes → Bytes → Bytes
  | [], total => total
  | chunk :: chunks, total =>
    if total.length < filesize then receive filesize chunks (total ++ chunk) else total

section Server
variable (P : Platform)

def Server.answer (s : Server) (cmd : Cmd) (error : Nat) : Server :=
  { s with ackMsg := { s.ackMsg with cmd := cmd, error := error } }

/-- `sendto` of `ack_msg`, and back to the loop. -/
def Server.finish (s : Server) : Server × List Datagram :=
  ({ s with serverState := .waiting, place := .loop },[.cmd s.ackMsg])

/-- Back to the loop without an answer. -/
def Server.drop (s : Server) : Server × List Datagram :=
  ({ s with serverState := .waiting, place := .loop },[])

/-- The TCP socket listens, and the client is told its port. -/
def Server.listen (s : Server) (overwriting : Bool) : Server × List Datagram :=
  let s := s.answer .ack 0
  let s := { s with ackMsg := { s.ackMsg with size := s.currentTcpPort }
                    place := .accepting overwriting }
  (s,[.cmd s.ackMsg])

def processLs (s : Server) : Server × List Datagram :=
  let dataMsg := listing P.dataBufLen (P.readdir s.disk)
  ({ s with dataMsg := dataMsg, serverState := .waiting, place := .loop },[.data dataMsg])

/-- `listens` says whether the TCP socket could be made. -/
def processSend (listens : Bool) (s : Server) : Server × List Datagram :=
  match s.disk s.cmdMsg.filename with
  | some _ =>
    let s := s.answer .fileExists 0
    { s with ackMsg := { s.ackMsg with size := s.cmdMsg.size } }.finish
  | none =>
    if s.cmdMsg.size ≤ P.dataBufLen then ({ s with place := .fileData },[])
    else if listens then s.listen false
    else s.drop

def processRemove (s : Server) : Server × List Datagram :=
  match s.disk s.cmdMsg.filename with
  | none => (s.answer .ack 1).finish
  | some _ =>
    if P.removes s.cmdMsg.filename then
      ({ s with disk := Function.update s.disk s.cmdMsg.filename none }.answer .ack 0).finish
    else (s.answer .ack 1).finish

def processRename (s : Server) : Server × List Datagram :=
  match s.disk s.cmdMsg.filename with
  | none => (s.answer .ack 1).finish
  | some _ => ({ s with place := .newName },[])

/-- The second `switch` of the loop. No command sets PROCESS_GET. -/
def process (listens : Bool) (s : Server) : Server × List Datagram :=
  match s.serverState with
  | .waiting => ({ s with place := .loop },[])
  | .processLs => processLs P s
  | .processSend => processSend P listens s
  | .processGet => s.drop
  | .processRemove => processRemove P s
  | .processRename => processRename s
  | .shutdown => ({ s with place := .exited },[])

/-- `sendto` of `ack_msg` in the first `switch`, and on to the second one. -/
def answerAndProcess (listens : Bool) (s : Server) : Server × List Datagram :=
  let r := process P listens s
  (r.1,.cmd s.ackMsg :: r.2)

/-- CMD_OVERWRITE. A small file is answered, and nothing is received. -/
def overwrite (listens : Bool) (s : Server) : Server × List Datagram :=
  if s.cmdMsg.error = 0 then
    if s.cmdMsg.filename = [] then process P listens { s with serverState := .waiting }
    else if P.dataBufLen < s.cmdMsg.size then
      if listens then s.listen true else process P listens s
    else answerAndProcess P listens (s.answer .ack 0)
  else answerAndProcess P listens (s.answer .ack 2)

/-- The first `switch`, and the second one behind it. Before that `cmd_string[cmd_msg.cmd]` is
printed, which is outside the array for a value that has no name. -/
def dispatch (listens : Bool) (s : Server) : Server × List Datagram :=
  match s.cmdMsg.cmd with
  | .ls => process P listens { s with serverState := .processLs }
  | .send => process P listens { s with serverState := .processSend }
  | .remove => process P listens { s with serverState := .processRemove }
  | .rename => process P listens { s with serverState := .processRename }
  | .shutdown => process P listens { s with serverState := .shutdown }
  | .overwrite => overwrite P listens s
  | .other (_ + 1) => ({ s with place := .undefined },[])
  | _ => process P listens { s with serverState := .waiting }

/-- The data of a small file, if it is there already. -/
def saveData (s : Server) (x : Option Datagram) : Server × List Datagram :=
  match x with
  | none => (s.answer .ack 1).finish
  | some x =>
    let s := { s with dataMsg := P.dataOf s.dataMsg x }
    if P.creates s.cmdMsg.filename then
      let file := s.dataMsg.take s.cmdMsg.size
      ({ s with disk := Function.update s.disk s.cmdMsg.filename (some file) }.answer .ack 0).finish
    else (s.answer .ack 1).finish

/-- `rename(old_filepath, new_filepath)` and the answer. -/
def renameFile (s : Server) (newFilename : Name) : Server × List Datagram :=
  match s.disk s.cmdMsg.filename with
  | some file =>
    if P.renames s.cmdMsg.filename newFilename then
      ({ s with disk := Function.update (Function.update s.disk s.cmdMsg.filename none)
                  newFilename (some file) }.answer .ack 0).finish
    else (s.answer .ack 1).finish
  | none => (s.answer .ack 1).finish

/-- The new name, if it is there already. -/
def readNewName (s : Server) (x : Option Datagram) : Server × List Datagram :=
  match x with
  | none => s.drop
  | some x =>
    let s := { s with dataMsg := P.dataOf s.dataMsg x }
    let newFilename := cString s.dataMsg
    match s.disk newFilename with
    | some _ =>
      let s := s.answer .fileExists 0
      ({ s with place := .confirm newFilename },[.cmd s.ackMsg])
    | none => renameFile P s newFilename

/-- The confirmation, if it is there already; `confirmMsg` is what is on the stack. -/
def readConfirmation (s : Server) (newFilename : Name) (confirmMsg : CmdMsg)
    (x : Option Datagram) : Server × List Datagram :=
  match x with
  | none => s.drop
  | some x =>
    let m := P.cmdOf confirmMsg x
    if m.cmd ≠ .overwrite ∨ m.error ≠ 0 then (s.answer .ack 2).finish
    else
      let removed :=
        if P.removes newFilename then Function.update s.disk newFilename none else s.disk
      renameFile P { s with disk := removed } newFilename

/-- From one `recvfrom` to the next. -/
def Server.recv (listens : Bool) (stack : CmdMsg) (s : Server) (x : Option Datagram) :
    Server × List Datagram :=
  match s.place with
  | .loop =>
    match x with
    | none => process P listens s
    | some x => dispatch P listens { s with cmdMsg := P.cmdOf s.cmdMsg x }
  | .fileData => saveData P s x
  | .newName => readNewName P s x
  | .confirm newFilename => readConfirmation P s newFilename stack x
  | .accepting _ => (s,[])
  | .exited => (s,[])
  | .undefined => (s,[])

/-- From `accept` to the next `recvfrom`, over a connection on which `chunks` arrive. -/
def Server.transfer (listens overwriting : Bool) (s : Server) (chunks : List Bytes) :
    Server × List Datagram :=
  let saved := P.creates s.cmdMsg.filename
  let file := receive s.cmdMsg.size chunks []
  let s := if saved then
      { s with disk := Function.update s.disk s.cmdMsg.filename (some file)
               currentTcpPort := s.currentTcpPort + 1 }.answer .ack 0
    else s
  let sent := if saved then [Datagram.cmd s.ackMsg] else []
  let r := if overwriting then process P listens s else s.drop
  (r.1,sent ++ r.2)

end Server

end NetworkLab.Lab2
