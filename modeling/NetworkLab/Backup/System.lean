import NetworkLab.Backup.Message
import NetworkLab.Lib.Interaction
set_option autoImplicit false

/-! What server and client call: sockets, files, metrics. The answers are left open, so
that a run stands for every behaviour of the network and of the file system. -/

namespace NetworkLab.Backup
open Interaction

/-- `sockaddr_in`. -/
structure Addr where
  ip : UInt32
  port : UInt16
  deriving DecidableEq, Repr

inductive Metric where
  | recordRequest (command : String)
  | recordError (command error : String)
  | recordBytesReceived (bytes : Nat)
  | recordSendSession
  | recordSendFailure
  | recordHttpRequest (endpoint method : String)
  deriving DecidableEq, Repr

/-- `accepted` only leaves a mark that `isValidFilename` has let a name pass. `cstring`
marks that a C string is read from a field of so many bytes; `memory` are the bytes of
the message from that field on, and the answer is what lies behind the message. -/
inductive Sys where
  | select
  | recvfrom (size : Nat)
  | sendto (dest : Addr) (datagram : Bytes)
  | cstring (field : Nat) (memory : Bytes)
  | accepted (name : Bytes)
  | metric (m : Metric)
  | fileExists (path : Bytes)
  | getFileSize (path : Bytes)
  | listDirectory (path : Bytes)
  | createDirectory (path : Bytes)
  | deleteFile (path : Bytes)
  | renameFile (oldPath newPath : Bytes)
  | ofstream (path : Bytes)
  | write (path data : Bytes)
  | ifstream (path : Bytes)
  | read (size : Nat)
  | uninitialized (size : Nat)
  | socket
  | bind (port : UInt16)
  | listen
  | accept
  | connect (port : UInt16)
  | recv (size : Nat)
  | send (data : Bytes)
  | answer
  deriving DecidableEq

inductive Ready where
  | failed
  | timeout
  | readable
  deriving DecidableEq, Repr

/-- A successful `recv` or `read`: never more than what was asked for. -/
abbrev Upto (size : Nat) := { data : Bytes // data.length ≤ size }

/-- A `recv` that brought something. -/
abbrev Chunk (size : Nat) := { data : Bytes // 0 < data.length ∧ data.length ≤ size }

/-- A `send` that took some of `size` bytes. -/
abbrev Taken (size : Nat) := { sent : Nat // 0 < sent ∧ sent ≤ size }

/-- What the calls can return. `recvfrom` gives a whole datagram, which may be empty;
`write` tells how many bytes really got into the file, and `listDirectory` whether the
directory can be opened. -/
abbrev Res : Sys → Type
  | .select => Ready
  | .recvfrom _ => Option (Addr × Bytes)
  | .sendto _ _ => Bool
  | .cstring _ _ => Bytes
  | .accepted _ => Unit
  | .metric _ => Unit
  | .fileExists _ => Bool
  | .getFileSize _ => Nat
  | .listDirectory _ => Option (List Bytes)
  | .createDirectory _ => Bool
  | .deleteFile _ => Bool
  | .renameFile _ _ => Bool
  | .ofstream _ => Bool
  | .write _ data => Fin (data.length + 1)
  | .ifstream _ => Bool
  | .read size => Upto size
  | .uninitialized size => { buffer : Bytes // buffer.length = size }
  | .socket => Bool
  | .bind _ => Bool
  | .listen => Bool
  | .accept => Bool
  | .connect _ => Bool
  | .recv size => Option (Chunk size)
  | .send data => Option (Taken data.length)
  | .answer => Bytes

abbrev Trace := List (Event Res)

section Calls
variable {σ : Type}

abbrev ask (o : Sys) : Stateful σ Res (Res o) := sys o

/-- A C string that begins at the start of `memory`. -/
def readString (field : Nat) (memory : Bytes) : Stateful σ Res Bytes := do
  let beyond ← ask (.cstring field memory)
  pure (cString (memory ++ beyond))

/-- `isValidFilename`, with the mark. -/
def validate (name : Bytes) : Stateful σ Res Bool :=
  if isValidFilename name then do
    ask (.accepted name)
    pure true
  else pure false

/-- No names when the directory cannot be opened. -/
def listDirectory (path : Bytes) : Stateful σ Res (List Bytes) := do
  let names ← ask (.listDirectory path)
  pure (names.getD [])

theorem runs_validate_bind {α : Type} {s s' : σ} {tr : Trace} {name : Bytes}
    {f : Bool → Stateful σ Res α} {b : α} :
    Runs (validate name >>= f) s tr b s' ↔
      isValidFilename name = false ∧ Runs (f false) s tr b s' ∨
      isValidFilename name = true ∧ ∃ tr', tr = ⟨.accepted name,()⟩ :: tr' ∧
        Runs (f true) s tr' b s' := by
  unfold validate
  cases hv : isValidFilename name with
  | false =>
    rw [if_neg (by simp),runs_pure_bind]
    simp
  | true =>
    rw [if_pos rfl,runs_bind_assoc,runs_sys_bind]
    simp only [runs_pure_bind]
    constructor
    · rintro ⟨⟨⟩,tr',rfl,h⟩
      exact Or.inr ⟨trivial,tr',rfl,h⟩
    · rintro (⟨hc,-⟩ | ⟨-,tr',rfl,h⟩)
      · cases hc
      · exact ⟨(),tr',rfl,h⟩

theorem runs_ask_bind {α : Type} {s s' : σ} {tr : Trace} {o : Sys}
    {f : Res o → Stateful σ Res α} {b : α} :
    Runs (ask o >>= f) s tr b s' ↔ ∃ r tr', tr = ⟨o,r⟩ :: tr' ∧ Runs (f r) s tr' b s' :=
  exec_call

theorem runs_listDirectory_bind {α : Type} {s s' : σ} {tr : Trace} {path : Bytes}
    {f : List Bytes → Stateful σ Res α} {b : α} :
    Runs (listDirectory path >>= f) s tr b s' ↔ ∃ names tr',
      tr = ⟨.listDirectory path,names⟩ :: tr' ∧ Runs (f (names.getD [])) s tr' b s' := by
  unfold listDirectory
  rw [runs_bind_assoc]
  exact runs_ask_bind

end Calls

end NetworkLab.Backup
