import NetworkLab.Backup.Traces
set_option autoImplicit false

/-! Which calls a handler makes at all, whatever their order. -/

namespace NetworkLab.Backup.Server
open Interaction

/-- The calls of `receiveSmallFile` and `receiveLargeFile`. -/
inductive FileEvent (filepath : Bytes) : Event Res → Prop where
  | sendto (dest : Addr) (datagram : Bytes) (ok : Bool) :
      FileEvent filepath ⟨.sendto dest datagram,ok⟩
  | recvfrom (r : Option (Addr × Bytes)) : FileEvent filepath ⟨.recvfrom 3000,r⟩
  | ofstream (opened : Bool) : FileEvent filepath ⟨.ofstream filepath,opened⟩
  | write (data : Bytes) (stored : Fin (data.length + 1)) :
      FileEvent filepath ⟨.write filepath data,stored⟩
  | received (bytes : Nat) : FileEvent filepath ⟨.metric (.recordBytesReceived bytes),()⟩
  | session : FileEvent filepath ⟨.metric .recordSendSession,()⟩
  | socket (ok : Bool) : FileEvent filepath ⟨.socket,ok⟩
  | bind (port : UInt16) (ok : Bool) : FileEvent filepath ⟨.bind port,ok⟩
  | listen (ok : Bool) : FileEvent filepath ⟨.listen,ok⟩
  | accept (ok : Bool) : FileEvent filepath ⟨.accept,ok⟩
  | recv (r : Option (Chunk 3000)) : FileEvent filepath ⟨.recv 3000,r⟩

section FileEvent
variable {filepath : Bytes} {filesize : Nat} {m m' : Members} {tr : Trace} {e : ErrorCode}

theorem Nothing.fileEvent {r : Event Res} (h : Nothing 3000 m r m') : FileEvent filepath r := by
  cases h with
  | again => exact .recvfrom none
  | empty sender => exact .recvfrom _

theorem Chunks.fileEvent {good : Bool} {total n : Nat}
    (h : Chunks filepath filesize good total tr n) : ∀ ev ∈ tr, FileEvent filepath ev := by
  induction h with
  | full _ => simp
  | closed _ => simpa using FileEvent.recv none
  | stored chunk stored _ _ ih =>
    simp only [List.forall_mem_cons]
    exact ⟨.recv _,.write _ _,ih⟩
  | dropped chunk _ _ ih =>
    simp only [List.forall_mem_cons]
    exact ⟨.recv _,ih⟩

theorem SmallFile.fileEvent (h : SmallFile filepath filesize m tr e m') :
    ∀ ev ∈ tr, FileEvent filepath ev := by
  cases h with
  | noData hr =>
    simp only [List.forall_mem_cons,List.not_mem_nil,false_imp_iff,implies_true,and_true]
    exact ⟨.sendto _ _ _,hr.fileEvent,.sendto _ _ _⟩
  | noFile hd =>
    simp only [List.forall_mem_cons,List.not_mem_nil,false_imp_iff,implies_true,and_true]
    exact ⟨.sendto _ _ _,.recvfrom _,.ofstream _,.sendto _ _ _⟩
  | stored stored hd =>
    simp only [counted,List.cons_append,List.nil_append,List.forall_mem_cons,List.not_mem_nil,
      false_imp_iff,implies_true,and_true]
    exact ⟨.sendto _ _ _,.recvfrom _,.ofstream _,.write _ _,.received _,.session,.sendto _ _ _⟩

theorem LargeFile.fileEvent (h : LargeFile filepath filesize m tr e m') :
    ∀ ev ∈ tr, FileEvent filepath ev := by
  have hsock : FileEvent filepath ⟨.socket,true⟩ := .socket true
  have hbind : FileEvent filepath ⟨.bind m.currentTcpPort,true⟩ := .bind _ true
  have hlisten : FileEvent filepath ⟨.listen,true⟩ := .listen true
  have hsent : ∀ ok, FileEvent filepath (sent m (portAck m).encode ok) := fun ok => .sendto _ _ ok
  cases h with
  | noSocket => simpa using FileEvent.socket false
  | noBind => simpa using ⟨hsock,FileEvent.bind _ false⟩
  | noListen => simpa using ⟨hsock,hbind,FileEvent.listen false⟩
  | notSent => simpa [listening] using ⟨hsock,hbind,hlisten,hsent false⟩
  | noAccept => simpa [listening] using ⟨hsock,hbind,hlisten,hsent true,FileEvent.accept false⟩
  | noFile =>
    simpa [listening] using
      ⟨hsock,hbind,hlisten,hsent true,FileEvent.accept true,FileEvent.ofstream false⟩
  | finished ok hc =>
    have hchunks := hc.fileEvent
    simp only [listening,counted,List.cons_append,List.nil_append,List.append_assoc,
      List.forall_mem_cons,List.forall_mem_append,List.not_mem_nil,false_imp_iff,implies_true,
      and_true]
    exact ⟨hsock,hbind,hlisten,hsent true,.accept true,.ofstream true,hchunks,.received _,
      .session,hsent ok⟩

theorem AnyFile.fileEvent (h : AnyFile filepath filesize m tr e m') :
    ∀ ev ∈ tr, FileEvent filepath ev := by
  rcases h with ⟨-,h⟩ | ⟨-,h⟩
  · exact h.fileEvent
  · exact h.fileEvent

end FileEvent

/-- The calls of the handlers apart from those of a transfer. -/
inductive CommandEvent : Event Res → Prop where
  | sendto (dest : Addr) (datagram : Bytes) (ok : Bool) : CommandEvent ⟨.sendto dest datagram,ok⟩
  | recvfrom (size : Nat) (r : Option (Addr × Bytes)) : CommandEvent ⟨.recvfrom size,r⟩
  | cstring (field : Nat) (memory beyond : Bytes) : CommandEvent ⟨.cstring field memory,beyond⟩
  | accepted (name : Bytes) : CommandEvent ⟨.accepted name,()⟩
  | fileExists (path : Bytes) (there : Bool) : CommandEvent ⟨.fileExists path,there⟩
  | deleteFile (path : Bytes) (done : Bool) : CommandEvent ⟨.deleteFile path,done⟩
  | renameFile (oldPath newPath : Bytes) (done : Bool) :
      CommandEvent ⟨.renameFile oldPath newPath,done⟩
  | listDirectory (path : Bytes) (files : Option (List Bytes)) :
      CommandEvent ⟨.listDirectory path,files⟩

def CommandEvents (tr : Trace) : Prop := ∀ ev ∈ tr, CommandEvent ev

attribute [simp] CommandEvent.cstring CommandEvent.accepted CommandEvent.fileExists
  CommandEvent.deleteFile CommandEvent.renameFile CommandEvent.listDirectory

section CommandEvent
variable {config : ServerConfig} {cmd : CmdMsg} {m m' : Members} {tr tr' : Trace} {e : ErrorCode}
variable {ev : Event Res}

@[simp] theorem commandEvent_sent (d : Bytes) (ok : Bool) : CommandEvent (sent m d ok) :=
  .sendto _ d ok

@[simp] theorem commandEvent_got (size : Nat) (sender : Addr) (d : Bytes) :
    CommandEvent (got size sender d) := .recvfrom size _

@[simp] theorem commandEvents_nil : CommandEvents [] := fun _ h => absurd h List.not_mem_nil

@[simp] theorem commandEvents_cons :
    CommandEvents (ev :: tr) ↔ CommandEvent ev ∧ CommandEvents tr := List.forall_mem_cons

@[simp] theorem commandEvents_append :
    CommandEvents (tr ++ tr') ↔ CommandEvents tr ∧ CommandEvents tr' := List.forall_mem_append

theorem Nothing.commandEvent {size : Nat} (h : Nothing size m ev m') : CommandEvent ev := by
  cases h with
  | again => exact .recvfrom size none
  | empty sender => exact .recvfrom size _

theorem Reads.commandEvents {field : Nat} {memory name : Bytes}
    (h : Reads field memory tr name) : CommandEvents tr := by
  cases h with
  | read beyond => simp

theorem Remove.commandEvents (h : Remove config cmd m tr e m') : CommandEvents tr := by
  cases h with
  | invalid hr _ => simp [hr.commandEvents]
  | missing hr _ => simp [hr.commandEvents]
  | deleted hr _ => simp [hr.commandEvents]

theorem NewName.commandEvents {oldFilepath : Bytes} (h : NewName config oldFilepath m tr e m') :
    CommandEvents tr := by
  cases h with
  | noName hn => simp [hn.commandEvent]
  | invalid _ hr _ => simp [hr.commandEvents]
  | fresh _ _ _ _ hr _ => simp [hr.commandEvents,renamed]
  | noConfirm _ _ _ hr _ hn => simp [hr.commandEvents,hn.commandEvent]
  | declined _ _ _ _ _ hr _ _ _ => simp [hr.commandEvents]
  | confirmed _ _ _ _ _ _ _ hr _ _ _ => simp [hr.commandEvents,renamed]

theorem Rename.commandEvents (h : Rename config cmd m tr e m') : CommandEvents tr := by
  cases h with
  | invalid hr _ => simp [hr.commandEvents]
  | missing hr _ => simp [hr.commandEvents]
  | handshake _ hr _ _ hn => simp [hr.commandEvents,hn.commandEvents]
  | direct hr _ _ hn => simp [hr.commandEvents,hn.commandEvents]

/-! These calls leave the port of the next transfer as it is. -/

theorem Nothing.currentTcpPort {size : Nat} (h : Nothing size m ev m') :
    m'.currentTcpPort = m.currentTcpPort := by
  cases h <;> rfl

theorem NewName.currentTcpPort {oldFilepath : Bytes} (h : NewName config oldFilepath m tr e m') :
    m'.currentTcpPort = m.currentTcpPort := by
  cases h with
  | noName hn => exact hn.currentTcpPort
  | noConfirm _ _ _ _ _ hn => exact hn.currentTcpPort
  | _ => rfl

theorem Rename.currentTcpPort (h : Rename config cmd m tr e m') :
    m'.currentTcpPort = m.currentTcpPort := by
  cases h with
  | handshake _ _ _ _ hn => exact hn.currentTcpPort
  | direct _ _ _ hn => exact hn.currentTcpPort
  | _ => rfl

theorem Remove.currentTcpPort (h : Remove config cmd m tr e m') :
    m'.currentTcpPort = m.currentTcpPort := by
  cases h <;> rfl

/-- A SEND makes such calls, and then possibly those of one transfer. -/
theorem Send.commandEvents (h : Send config cmd m tr e m') :
    CommandEvents tr ∧ m'.currentTcpPort = m.currentTcpPort ∨
    ∃ tr₁ tr₂ m₁ filepath filesize, tr = tr₁ ++ tr₂ ∧ CommandEvents tr₁ ∧
      m₁.currentTcpPort = m.currentTcpPort ∧ AnyFile filepath filesize m₁ tr₂ e m' := by
  cases h with
  | invalid hr _ => exact Or.inl ⟨by simp [hr.commandEvents],rfl⟩
  | new hr _ hf => exact Or.inr ⟨_,_,_,_,_,rfl,by simp [hr.commandEvents],rfl,hf⟩
  | existing hr _ hs =>
    cases hs with
    | notSent => exact Or.inl ⟨by simp [hr.commandEvents],rfl⟩
    | noConfirm hn =>
      exact Or.inl ⟨by simp [hr.commandEvents,hn.commandEvent],hn.currentTcpPort⟩
    | declined _ _ => exact Or.inl ⟨by simp [hr.commandEvents],rfl⟩
    | @confirmed sender _ _ _ _ _ _ _ _ hr' hf =>
      refine Or.inr ⟨_,_,m.serving sender,_,_,(List.append_assoc _ _ _).symm,?_,rfl,hf⟩
      simp [hr.commandEvents,hr'.commandEvents]

/-- Only a SEND can make other calls. -/
theorem Handled.cases_send (h : Handled config cmd m tr e m') :
    cmd.getCommand = some .SEND ∧ Send config cmd { m with state := .PROCESS_SEND } tr e m' ∨
    cmd.getCommand ≠ some .SEND ∧ CommandEvents tr ∧ m'.currentTcpPort = m.currentTcpPort := by
  cases h with
  | ls files data ok hc => exact Or.inr ⟨by simp [hc],by simp,rfl⟩
  | send hc h => exact Or.inl ⟨hc,h⟩
  | remove hc h => exact Or.inr ⟨by simp [hc],h.commandEvents,h.currentTcpPort⟩
  | rename hc h => exact Or.inr ⟨by simp [hc],h.commandEvents,h.currentTcpPort⟩
  | shutdown ok hc => exact Or.inr ⟨by simp [hc],by simp,rfl⟩
  | overwrite hc => exact Or.inr ⟨by simp [hc],commandEvents_nil,rfl⟩
  | unknown hc => exact Or.inr ⟨fun he => hc (by simp [he]),commandEvents_nil,rfl⟩

end CommandEvent

end NetworkLab.Backup.Server
