import NetworkLab.Lab2.Client
import Mathlib.Logic.Relation
set_option autoImplicit false

/-! One client and the server, with the datagrams between them. UDP keeps what is sent and its
order here; the client's five seconds are longer than the server ever takes to answer. -/

namespace NetworkLab.Lab2
open Relation

/-- `lines` is what the client has printed, `agreed` are the names of files on the server that
the user has agreed to replace. -/
structure Sys where
  server : Server
  client : Client
  cmdMsg : CmdMsg
  toServer : List Datagram
  toClient : List Datagram
  lines : List Line
  agreed : List Name

section System
variable (P : Platform) (files : Name → Option Bytes)

/-- The server would not take it for a command, whatever else it then does. -/
def Ignored : Cmd → Prop
  | .ls | .send | .remove | .rename | .shutdown | .overwrite => False
  | _ => True

/-- A new name that does not read like a command. -/
def Typed.Plain : Typed → Prop
  | .rename _ newFilename => ∀ m, Ignored (P.asCmd m (nameBuffer P newFilename)).cmd
  | _ => True

/-- The file on the server of which the client has asked the user whether to replace it. -/
def Client.asked (c : Client) (answer : Char) (stack : CmdMsg) (x : Datagram) : List Name :=
  match c with
  | .sendReply filename _ =>
    if (P.cmdOf stack x).cmd = .fileExists ∧ agrees answer then [sentName P filename] else []
  | .renameReply newFilename =>
    if (P.cmdOf stack x).cmd = .fileExists ∧ agrees answer then
      [cString (nameBuffer P newFilename)] else []
  | _ => []

/-- The client waits in `recvfrom`. -/
def Client.Waits : Client → Prop
  | .prompt | .connecting _ _ _ | .renameSecond _ | .quit => False
  | _ => True

/-- The server takes no further datagram: it has left its loop, or nothing can be said of it
any more. -/
def Server.Over (s : Server) : Prop := s.place = .exited ∨ s.place = .undefined

/-- No answer is under way, and none will come. -/
def Sys.Silent (s : Sys) : Prop :=
  s.toClient = [] ∧ ((∃ overwriting, s.server.place = .accepting overwriting) ∨
    s.server.Over ∨ s.server.place = .loop ∧ s.toServer = [])

def htons (port : Nat) : Nat := port % 65536

/-- `cmd_msg` after a command was sent. -/
def sentCmd (old : CmdMsg) : List Datagram → CmdMsg
  | [.cmd m] => m
  | _ => old

inductive Move : Sys → Sys → Prop where
  | typed {s : Sys} (t : Typed) : s.client = .prompt → t.Plain P →
      Move s { s with client := (t.start P files s.cmdMsg).1
                      cmdMsg := sentCmd s.cmdMsg (t.start P files s.cmdMsg).2.1
                      toServer := s.toServer ++ (t.start P files s.cmdMsg).2.1
                      lines := s.lines ++ (t.start P files s.cmdMsg).2.2 }
  | second {s : Sys} (newFilename : Name) : s.client = .renameSecond newFilename →
      Move s { s with client := .renameReply newFilename
                      toServer := s.toServer ++ [.data (nameBuffer P newFilename)] }
  | reply {s : Sys} (answer : Char) (stack : CmdMsg) (old : Bytes) (x : Datagram)
      (rest : List Datagram) : s.client.Waits → s.toClient = x :: rest →
      Move s { s with client := (s.client.reply P answer stack old (some x)).1
                      toServer := s.toServer ++ (s.client.reply P answer stack old (some x)).2.1
                      toClient := rest
                      lines := s.lines ++ (s.client.reply P answer stack old (some x)).2.2
                      agreed := s.agreed ++ s.client.asked P answer stack x }
  | timeout {s : Sys} (answer : Char) (stack : CmdMsg) (old : Bytes) : s.client.Waits → s.Silent →
      Move s { s with client := (s.client.reply P answer stack old none).1
                      toServer := s.toServer ++ (s.client.reply P answer stack old none).2.1
                      lines := s.lines ++ (s.client.reply P answer stack old none).2.2 }
  | serve {s : Sys} (listens : Bool) (stack : CmdMsg) (x : Datagram) (rest : List Datagram) :
      (∀ overwriting, s.server.place ≠ .accepting overwriting) → ¬s.server.Over →
      s.toServer = x :: rest →
      Move s { s with server := (s.server.recv P listens stack (some x)).1
                      toServer := rest
                      toClient := s.toClient ++ (s.server.recv P listens stack (some x)).2 }
  /-- The next datagram, if any, is still under way. -/
  | starve {s : Sys} (listens : Bool) (stack : CmdMsg) :
      (∀ overwriting, s.server.place ≠ .accepting overwriting) → ¬s.server.Over →
      Move s { s with server := (s.server.recv P listens stack none).1
                      toClient := s.toClient ++ (s.server.recv P listens stack none).2 }
  /-- The server gets what the client sends, up to where the connection breaks, in pieces. -/
  | transfer {s : Sys} (listens overwriting : Bool) (filename : Name) (file : Bytes)
      (tcpPort : Nat) (sends : List Nat) (buffer : Bytes) (chunks : List Bytes) :
      s.client = .connecting filename file tcpPort →
      s.server.place = .accepting overwriting → htons tcpPort = htons s.server.currentTcpPort →
      htons tcpPort ≠ 0 → buffer.length = bufferSize →
      chunks.flatten <+: sendLoop file.length sends file buffer 0 →
      Move s { s with server := (s.server.transfer P listens overwriting chunks).1
                      client := .doneReply
                      toClient := s.toClient ++ (s.server.transfer P listens overwriting chunks).2 }
  | refused {s : Sys} (filename : Name) (file : Bytes) (tcpPort : Nat) :
      s.client = .connecting filename file tcpPort →
      Move s { s with client := .prompt }

/-- There is a next step only as long as the behaviour of the server is defined. -/
def Step (s t : Sys) : Prop := s.server.place ≠ .undefined ∧ Move P files s t

end System

end NetworkLab.Lab2
