import NetworkLab.Backup.Server
set_option autoImplicit false

/-! What the handlers of the server can do, one relation for each: the calls it makes,
what it returns, and the members it leaves. -/

namespace NetworkLab.Backup.Server
open Interaction

def sendCode (ok : Bool) : ErrorCode := if ok then .SUCCESS else .SOCKET_SEND_ERROR

/-- The members after a datagram from `sender`. -/
def Members.serving (m : Members) (sender : Addr) : Members :=
  { m with currentClientAddr := sender }

def sent (m : Members) (datagram : Bytes) (ok : Bool) : Event Res :=
  ⟨.sendto m.currentClientAddr datagram,ok⟩

def got (size : Nat) (sender : Addr) (datagram : Bytes) : Event Res :=
  ⟨.recvfrom size,some (sender,datagram)⟩

/-- A receive that brought nothing, or an empty datagram. -/
inductive Nothing (size : Nat) (m : Members) : Event Res → Members → Prop where
  | again : Nothing size m ⟨.recvfrom size,none⟩ m
  | empty (sender : Addr) : Nothing size m (got size sender []) (m.serving sender)

inductive Reads (field : Nat) (memory : Bytes) : Trace → Bytes → Prop where
  | read (beyond : Bytes) :
      Reads field memory [⟨.cstring field memory,beyond⟩] (cString (memory ++ beyond))

/-- The rounds of the loop that receives a large file. -/
inductive Chunks (filepath : Bytes) (filesize : Nat) : Bool → Nat → Trace → Nat → Prop where
  | full {good : Bool} {total : Nat} : filesize ≤ total → Chunks filepath filesize good total [] total
  | closed {good : Bool} {total : Nat} : total < filesize →
      Chunks filepath filesize good total [⟨.recv 3000,none⟩] total
  | stored {total n : Nat} {tr : Trace} (chunk : Chunk 3000)
      (stored : Fin (chunk.val.length + 1)) : total < filesize →
      Chunks filepath filesize (decide (stored.val = chunk.val.length))
        (total + chunk.val.length) tr n →
      Chunks filepath filesize true total
        (⟨.recv 3000,some chunk⟩ :: ⟨.write filepath chunk.val,stored⟩ :: tr) n
  | dropped {total n : Nat} {tr : Trace} (chunk : Chunk 3000) : total < filesize →
      Chunks filepath filesize false (total + chunk.val.length) tr n →
      Chunks filepath filesize false total (⟨.recv 3000,some chunk⟩ :: tr) n

/-- What is counted when a file has been received. -/
def counted (bytes : Nat) : Trace :=
  [⟨.metric (.recordBytesReceived bytes),()⟩,⟨.metric .recordSendSession,()⟩]

inductive SmallFile (filepath : Bytes) (filesize : Nat) (m : Members) :
    Trace → ErrorCode → Members → Prop where
  | noData {ok ok' : Bool} {r : Event Res} {m' : Members} : Nothing 3000 m r m' →
      SmallFile filepath filesize m
        [sent m (reply .ACK 0).encode ok,r,sent m' (reply .ACK 1).encode ok']
        .SOCKET_RECV_ERROR m'
  | noFile {ok ok' : Bool} {sender : Addr} {datagram : Bytes} : datagram ≠ [] →
      SmallFile filepath filesize m
        [sent m (reply .ACK 0).encode ok,got 3000 sender datagram,⟨.ofstream filepath,false⟩,
          sent (m.serving sender) (reply .ACK 1).encode ok']
        .FILE_OPEN_ERROR (m.serving sender)
  | stored {ok ok' : Bool} {sender : Addr} {datagram : Bytes}
      (stored : Fin (((DataMsg.received datagram).toList.take filesize).length + 1)) :
      datagram ≠ [] →
      SmallFile filepath filesize m
        ([sent m (reply .ACK 0).encode ok,got 3000 sender datagram,⟨.ofstream filepath,true⟩,
            ⟨.write filepath ((DataMsg.received datagram).toList.take filesize),stored⟩] ++
          counted filesize ++ [sent (m.serving sender) (reply .ACK 0).encode ok'])
        (sendCode ok') (m.serving sender)

/-- The acknowledgement that announces the port. -/
def portAck (m : Members) : CmdMsg :=
  { reply .ACK 0 with size := m.currentTcpPort.toUInt32 }

/-- The socket of the transfer listens. -/
def listening (m : Members) : Trace :=
  [⟨.socket,true⟩,⟨.bind m.currentTcpPort,true⟩,⟨.listen,true⟩]

inductive LargeFile (filepath : Bytes) (filesize : Nat) (m : Members) :
    Trace → ErrorCode → Members → Prop where
  | noSocket : LargeFile filepath filesize m [⟨.socket,false⟩] .SOCKET_CREATE_ERROR m
  | noBind : LargeFile filepath filesize m
      [⟨.socket,true⟩,⟨.bind m.currentTcpPort,false⟩] .SOCKET_BIND_ERROR m
  | noListen : LargeFile filepath filesize m
      [⟨.socket,true⟩,⟨.bind m.currentTcpPort,true⟩,⟨.listen,false⟩] .SOCKET_LISTEN_ERROR m
  | notSent : LargeFile filepath filesize m
      (listening m ++ [sent m (portAck m).encode false]) .SOCKET_SEND_ERROR m
  | noAccept : LargeFile filepath filesize m
      (listening m ++ [sent m (portAck m).encode true,⟨.accept,false⟩])
      .SOCKET_ACCEPT_ERROR m
  | noFile : LargeFile filepath filesize m
      (listening m ++ [sent m (portAck m).encode true,⟨.accept,true⟩,
        ⟨.ofstream filepath,false⟩]) .FILE_OPEN_ERROR m
  | finished {tr : Trace} {total : Nat} (ok : Bool) :
      Chunks filepath filesize true 0 tr total →
      LargeFile filepath filesize m
        (listening m ++ [sent m (portAck m).encode true,⟨.accept,true⟩,
          ⟨.ofstream filepath,true⟩] ++ tr ++ counted total ++ [sent m (portAck m).encode ok])
        (sendCode ok) { m with currentTcpPort := m.currentTcpPort + 1 }

def AnyFile (filepath : Bytes) (filesize : Nat) (m : Members) (tr : Trace) (e : ErrorCode)
    (m' : Members) : Prop :=
  filesize ≤ dataBufLen ∧ SmallFile filepath filesize m tr e m' ∨
  dataBufLen < filesize ∧ LargeFile filepath filesize m tr e m'

def Confirms (msg : CmdMsg) : Prop := msg.getCommand = some .OVERWRITE ∧ msg.error = 0

instance (msg : CmdMsg) : Decidable (Confirms msg) := inferInstanceAs (Decidable (_ ∧ _))

inductive SendConfirm (config : ServerConfig) (cmd : CmdMsg) (m : Members) :
    Trace → ErrorCode → Members → Prop where
  | notSent : SendConfirm config cmd m
      [sent m { reply .FILE_EXISTS 0 with size := cmd.size }.encode false]
      .SOCKET_SEND_ERROR m
  | noConfirm {r : Event Res} {m' : Members} : Nothing 137 m r m' →
      SendConfirm config cmd m
        [sent m { reply .FILE_EXISTS 0 with size := cmd.size }.encode true,r] .TIMEOUT m'
  | declined {sender : Addr} {datagram : Bytes} {ok : Bool} : datagram ≠ [] →
      ¬Confirms (CmdMsg.received datagram) →
      SendConfirm config cmd m
        [sent m { reply .FILE_EXISTS 0 with size := cmd.size }.encode true,
          got 137 sender datagram,sent (m.serving sender) (reply .ACK 2).encode ok]
        (sendCode ok) (m.serving sender)
  | confirmed {sender : Addr} {datagram name : Bytes} {trn tr : Trace} {e : ErrorCode}
      {m' : Members} : datagram ≠ [] → Confirms (CmdMsg.received datagram) →
      Reads 128 (CmdMsg.received datagram).tail trn name →
      AnyFile (joinPath config.backupDir name) (CmdMsg.received datagram).size.toNat
        (m.serving sender) tr e m' →
      SendConfirm config cmd m
        ([sent m { reply .FILE_EXISTS 0 with size := cmd.size }.encode true,
          got 137 sender datagram] ++ trn ++ tr) e m'

inductive Send (config : ServerConfig) (cmd : CmdMsg) (m : Members) :
    Trace → ErrorCode → Members → Prop where
  | invalid {trn : Trace} {name : Bytes} {ok : Bool} : Reads 128 cmd.tail trn name →
      isValidFilename name = false →
      Send config cmd m
        (trn ++ [sent m (reply .ACK ErrorCode.INVALID_FILENAME.value).encode ok]) (sendCode ok) m
  | new {trn tr : Trace} {name : Bytes} {e : ErrorCode} {m' : Members} :
      Reads 128 cmd.tail trn name → isValidFilename name = true →
      AnyFile (joinPath config.backupDir name) cmd.size.toNat m tr e m' →
      Send config cmd m
        (trn ++ [⟨.accepted name,()⟩,⟨.fileExists (joinPath config.backupDir name),false⟩] ++ tr)
        e m'
  | existing {trn tr : Trace} {name : Bytes} {e : ErrorCode} {m' : Members} :
      Reads 128 cmd.tail trn name → isValidFilename name = true →
      SendConfirm config cmd m tr e m' →
      Send config cmd m
        (trn ++ [⟨.accepted name,()⟩,⟨.fileExists (joinPath config.backupDir name),true⟩] ++ tr)
        e m'

inductive Remove (config : ServerConfig) (cmd : CmdMsg) (m : Members) :
    Trace → ErrorCode → Members → Prop where
  | invalid {trn : Trace} {name : Bytes} {ok : Bool} : Reads 128 cmd.tail trn name →
      isValidFilename name = false →
      Remove config cmd m
        (trn ++ [sent m (reply .ACK ErrorCode.INVALID_FILENAME.value).encode ok]) (sendCode ok) m
  | missing {trn : Trace} {name : Bytes} {ok : Bool} : Reads 128 cmd.tail trn name →
      isValidFilename name = true →
      Remove config cmd m
        (trn ++ [⟨.accepted name,()⟩,⟨.fileExists (joinPath config.backupDir name),false⟩,
          sent m (reply .ACK 1).encode ok]) (sendCode ok) m
  | deleted {trn : Trace} {name : Bytes} {done ok : Bool} : Reads 128 cmd.tail trn name →
      isValidFilename name = true →
      Remove config cmd m
        (trn ++ [⟨.accepted name,()⟩,⟨.fileExists (joinPath config.backupDir name),true⟩,
          ⟨.deleteFile (joinPath config.backupDir name),done⟩,
          sent m (reply .ACK (if done then 0 else 1)).encode ok]) (sendCode ok) m

/-- The end of a rename. -/
def renamed (oldFilepath newFilepath : Bytes) (m : Members) (done ok : Bool) : Trace :=
  [⟨.renameFile oldFilepath newFilepath,done⟩,
    sent m (reply .ACK (if done then 0 else 1)).encode ok]

inductive NewName (config : ServerConfig) (oldFilepath : Bytes) (m : Members) :
    Trace → ErrorCode → Members → Prop where
  | noName {r : Event Res} {m' : Members} : Nothing 3000 m r m' →
      NewName config oldFilepath m [r] .TIMEOUT m'
  | invalid {sender : Addr} {datagram name : Bytes} {trn : Trace} {ok : Bool} :
      datagram ≠ [] → Reads 3000 (DataMsg.received datagram).toList trn name →
      isValidFilename name = false →
      NewName config oldFilepath m
        ([got 3000 sender datagram] ++ trn ++
          [sent (m.serving sender) (reply .ACK ErrorCode.INVALID_FILENAME.value).encode ok])
        (sendCode ok) (m.serving sender)
  | fresh {datagram name : Bytes} {trn : Trace} (sender : Addr) (done ok : Bool) :
      datagram ≠ [] → Reads 3000 (DataMsg.received datagram).toList trn name →
      isValidFilename name = true →
      NewName config oldFilepath m
        ([got 3000 sender datagram] ++ trn ++
          [⟨.accepted name,()⟩,⟨.fileExists (joinPath config.backupDir name),false⟩] ++
          renamed oldFilepath (joinPath config.backupDir name) (m.serving sender) done ok)
        (sendCode ok) (m.serving sender)
  | noConfirm {datagram name : Bytes} {trn : Trace} {r : Event Res} {m' : Members}
      (sender : Addr) (asked : Bool) :
      datagram ≠ [] → Reads 3000 (DataMsg.received datagram).toList trn name →
      isValidFilename name = true → Nothing 137 (m.serving sender) r m' →
      NewName config oldFilepath m
        ([got 3000 sender datagram] ++ trn ++
          [⟨.accepted name,()⟩,⟨.fileExists (joinPath config.backupDir name),true⟩,
            sent (m.serving sender) (reply .FILE_EXISTS 0).encode asked,r]) .TIMEOUT m'
  | declined {datagram name confirm : Bytes} {trn : Trace} (sender sender' : Addr)
      (asked ok : Bool) :
      datagram ≠ [] → Reads 3000 (DataMsg.received datagram).toList trn name →
      isValidFilename name = true → confirm ≠ [] → ¬Confirms (CmdMsg.received confirm) →
      NewName config oldFilepath m
        ([got 3000 sender datagram] ++ trn ++
          [⟨.accepted name,()⟩,⟨.fileExists (joinPath config.backupDir name),true⟩,
            sent (m.serving sender) (reply .FILE_EXISTS 0).encode asked,
            got 137 sender' confirm,sent (m.serving sender') (reply .ACK 2).encode ok])
        (sendCode ok) (m.serving sender')
  | confirmed {datagram name confirm : Bytes} {trn : Trace} (sender sender' : Addr)
      (asked deleted done ok : Bool) :
      datagram ≠ [] → Reads 3000 (DataMsg.received datagram).toList trn name →
      isValidFilename name = true → confirm ≠ [] → Confirms (CmdMsg.received confirm) →
      NewName config oldFilepath m
        ([got 3000 sender datagram] ++ trn ++
          [⟨.accepted name,()⟩,⟨.fileExists (joinPath config.backupDir name),true⟩,
            sent (m.serving sender) (reply .FILE_EXISTS 0).encode asked,
            got 137 sender' confirm,⟨.deleteFile (joinPath config.backupDir name),deleted⟩] ++
          renamed oldFilepath (joinPath config.backupDir name) (m.serving sender') done ok)
        (sendCode ok) (m.serving sender')

inductive Rename (config : ServerConfig) (cmd : CmdMsg) (m : Members) :
    Trace → ErrorCode → Members → Prop where
  | invalid {trn : Trace} {name : Bytes} {ok : Bool} : Reads 128 cmd.tail trn name →
      isValidFilename name = false →
      Rename config cmd m
        (trn ++ [sent m (reply .ACK ErrorCode.INVALID_FILENAME.value).encode ok]) (sendCode ok) m
  | missing {trn : Trace} {name : Bytes} {ok : Bool} : Reads 128 cmd.tail trn name →
      isValidFilename name = true →
      Rename config cmd m
        (trn ++ [⟨.accepted name,()⟩,⟨.fileExists (joinPath config.backupDir name),false⟩,
          sent m (reply .ACK 1).encode ok]) (sendCode ok) m
  | handshake {trn tr : Trace} {name : Bytes} {e : ErrorCode} {m' : Members} (ok : Bool) :
      Reads 128 cmd.tail trn name → isValidFilename name = true → config.enableHandshake = true →
      NewName config (joinPath config.backupDir name) m tr e m' →
      Rename config cmd m
        (trn ++ [⟨.accepted name,()⟩,⟨.fileExists (joinPath config.backupDir name),true⟩,
          sent m (reply .READY_FOR_NEW_NAME 0).encode ok] ++ tr) e m'
  | direct {trn tr : Trace} {name : Bytes} {e : ErrorCode} {m' : Members} :
      Reads 128 cmd.tail trn name → isValidFilename name = true → config.enableHandshake = false →
      NewName config (joinPath config.backupDir name) m tr e m' →
      Rename config cmd m
        (trn ++ [⟨.accepted name,()⟩,⟨.fileExists (joinPath config.backupDir name),true⟩] ++ tr)
        e m'

inductive Handled (config : ServerConfig) (cmd : CmdMsg) (m : Members) :
    Trace → ErrorCode → Members → Prop where
  | ls (files : Option (List Bytes)) (data : DataMsg) (ok : Bool) : cmd.getCommand = some .LS →
      Handled config cmd m [⟨.listDirectory config.backupDir,files⟩,sent m data.toList ok]
        (sendCode ok) { m with state := .PROCESS_LS }
  | send {tr : Trace} {e : ErrorCode} {m' : Members} : cmd.getCommand = some .SEND →
      Send config cmd { m with state := .PROCESS_SEND } tr e m' → Handled config cmd m tr e m'
  | remove {tr : Trace} {e : ErrorCode} {m' : Members} : cmd.getCommand = some .REMOVE →
      Remove config cmd { m with state := .PROCESS_REMOVE } tr e m' →
      Handled config cmd m tr e m'
  | rename {tr : Trace} {e : ErrorCode} {m' : Members} : cmd.getCommand = some .RENAME →
      Rename config cmd { m with state := .PROCESS_RENAME } tr e m' →
      Handled config cmd m tr e m'
  | shutdown (ok : Bool) : cmd.getCommand = some .SHUTDOWN →
      Handled config cmd m [sent m (reply .ACK 0).encode ok] .SUCCESS
        { m with state := .SHUTDOWN, shutdownRequested := true }
  | overwrite : cmd.getCommand = some .OVERWRITE → Handled config cmd m [] .SUCCESS m
  | unknown : cmd.getCommand ∉ ([some .LS,some .SEND,some .REMOVE,some .RENAME,some .SHUTDOWN,
        some .OVERWRITE] : List (Option Command)) →
      Handled config cmd m [] .INVALID_COMMAND m

/-- The handler of the command runs, then its name is printed. -/
inductive Processed (config : ServerConfig) (cmd : CmdMsg) (m : Members) :
    Trace → ErrorCode → Members → Prop where
  | logged {tr trn : Trace} {name : Bytes} {e : ErrorCode} {m' : Members} :
      Handled config cmd m tr e m' → Reads 128 cmd.tail trn name →
      Processed config cmd m (tr ++ trn) e m'

section Runs
variable {α : Type} {m m' : Members} {tr : Trace} {e : ErrorCode} {b : α}

theorem runs_sendto_bind {d : Bytes} {f : ErrorCode → Handler α} :
    Runs (sendto d >>= f) m tr b m' ↔
      ∃ ok tr', tr = sent m d ok :: tr' ∧ Runs (f (sendCode ok)) m tr' b m' := by
  constructor
  · intro h
    obtain ⟨ok,tr',rfl,h'⟩ := exec_call.mp h
    refine ⟨ok,tr',rfl,?_⟩
    cases ok <;> exact h'
  · rintro ⟨ok,tr',rfl,h'⟩
    refine exec_call.mpr ⟨ok,tr',rfl,?_⟩
    cases ok <;> exact h'

theorem runs_sendto {d : Bytes} :
    Runs (sendto d) m tr e m' ↔ ∃ ok, tr = [sent m d ok] ∧ e = sendCode ok ∧ m' = m := by
  constructor
  · intro h
    obtain ⟨ok,tr',rfl,h'⟩ := exec_call.mp h
    refine ⟨ok,?_⟩
    cases ok <;>
    · obtain ⟨rfl,he⟩ := exec_ret.mp h'
      obtain ⟨rfl,rfl⟩ := Prod.mk.inj he
      exact ⟨rfl,rfl,rfl⟩
  · rintro ⟨ok,rfl,rfl,rfl⟩
    refine exec_call.mpr ⟨ok,[],rfl,?_⟩
    cases ok <;> exact exec_ret.mpr ⟨rfl,rfl⟩

theorem runs_recvfrom_bind {size : Nat} {f : Option Bytes → Handler α} :
    Runs (recvfrom size >>= f) m tr b m' ↔
      (∃ tr', tr = ⟨.recvfrom size,none⟩ :: tr' ∧ Runs (f none) m tr' b m') ∨
      ∃ sender d tr', tr = got size sender d :: tr' ∧
        Runs (f (some d)) (m.serving sender) tr' b m' := by
  constructor
  · intro h
    obtain ⟨r,tr',rfl,h'⟩ := exec_call.mp h
    rcases r with _ | ⟨sender,d⟩
    · exact Or.inl ⟨tr',rfl,h'⟩
    · exact Or.inr ⟨sender,d,tr',rfl,h'⟩
  · rintro (⟨tr',rfl,h'⟩ | ⟨sender,d,tr',rfl,h'⟩)
    · exact exec_call.mpr ⟨none,tr',rfl,h'⟩
    · exact exec_call.mpr ⟨some (sender,d),tr',rfl,h'⟩

/-- A nested receive: nothing, or a datagram that is not empty. -/
theorem runs_recvfrom_cases {size : Nat} {f : Option Bytes → Handler α} {g : Handler α}
    (hnone : f none = g) (hnil : f (some []) = g)
    (h : Runs (recvfrom size >>= f) m tr b m') :
    (∃ r m₁ tr', Nothing size m r m₁ ∧ tr = r :: tr' ∧ Runs g m₁ tr' b m') ∨
    ∃ sender d tr', d ≠ [] ∧ tr = got size sender d :: tr' ∧
      Runs (f (some d)) (m.serving sender) tr' b m' := by
  rcases runs_recvfrom_bind.mp h with ⟨tr',rfl,h'⟩ | ⟨sender,d,tr',rfl,h'⟩
  · exact Or.inl ⟨_,m,tr',.again,rfl,hnone ▸ h'⟩
  · by_cases hd : d = []
    · subst hd
      exact Or.inl ⟨_,_,tr',.empty sender,rfl,hnil ▸ h'⟩
    · exact Or.inr ⟨sender,d,tr',hd,rfl,h'⟩

theorem runs_readString_bind {field : Nat} {memory : Bytes} {f : Bytes → Handler α} :
    Runs (readString field memory >>= f) m tr b m' ↔
      ∃ trn name tr', Reads field memory trn name ∧ tr = trn ++ tr' ∧
        Runs (f name) m tr' b m' := by
  unfold readString
  rw [runs_bind_assoc,runs_sys_bind]
  constructor
  · rintro ⟨beyond,tr',rfl,h⟩
    exact ⟨_,_,tr',.read beyond,rfl,h⟩
  · rintro ⟨trn,name,tr',⟨beyond⟩,rfl,h⟩
    exact ⟨beyond,tr',rfl,h⟩

theorem runs_modify_bind {g : Members → Members} {f : Unit → Handler α} :
    Runs ((modify g : Handler Unit) >>= f) m tr b m' ↔ Runs (f ()) (g m) tr b m' := Iff.rfl

theorem runs_writeStream_bind {good : Bool} {path data : Bytes} {f : Bool → Handler α} :
    Runs (writeStream good path data >>= f) m tr b m' ↔
      good = true ∧ (∃ (stored : Fin (data.length + 1)) (tr' : Trace),
        tr = ⟨.write path data,stored⟩ :: tr' ∧
          Runs (f (decide (stored.val = data.length))) m tr' b m') ∨
      good = false ∧ Runs (f false) m tr b m' := by
  unfold writeStream
  cases good with
  | false =>
    rw [if_neg (by simp),runs_pure_bind]
    simp
  | true =>
    rw [if_pos rfl,runs_bind_assoc,runs_ask_bind]
    simp only [runs_pure_bind]
    simp

end Runs

section Handlers
variable {m m' : Members} {tr : Trace} {e : ErrorCode} {filepath : Bytes} {filesize : Nat}

theorem runs_receiveSmallFile (h : Runs (receiveSmallFile filepath filesize) m tr e m') :
    SmallFile filepath filesize m tr e m' := by
  unfold receiveSmallFile sendResponse at h
  obtain ⟨ok,tr₁,rfl,h₁⟩ := runs_sendto_bind.mp h
  rcases runs_recvfrom_cases rfl rfl h₁ with ⟨r,m₁,tr₂,hr,rfl,h₂⟩ | ⟨sender,d,tr₂,hd,rfl,h₂⟩
  · obtain ⟨ok',tr₃,rfl,h₃⟩ := runs_sendto_bind.mp h₂
    obtain ⟨rfl,rfl,rfl⟩ := runs_pure.mp h₃
    exact .noData hr
  · simp only [if_neg hd] at h₂
    obtain ⟨opened,tr₃,rfl,h₃⟩ := runs_ask_bind.mp h₂
    cases opened with
    | false =>
      obtain ⟨ok',tr₄,rfl,h₄⟩ := runs_sendto_bind.mp h₃
      obtain ⟨rfl,rfl,rfl⟩ := runs_pure.mp h₄
      exact .noFile hd
    | true =>
      obtain ⟨-,stored,tr₄,rfl,h₄⟩ | ⟨hc,-⟩ := runs_writeStream_bind.mp h₃
      · obtain ⟨⟨⟩,tr₅,rfl,h₅⟩ := runs_ask_bind.mp h₄
        obtain ⟨⟨⟩,tr₆,rfl,h₆⟩ := runs_ask_bind.mp h₅
        obtain ⟨ok',rfl,rfl,rfl⟩ := runs_sendto.mp h₆
        exact .stored stored hd
      · cases hc

theorem runs_receiveChunks {fuel : Nat} {good : Bool} {total n : Nat}
    (hfuel : filesize ≤ total + fuel)
    (h : Runs (receiveChunks filepath filesize fuel good total) m tr n m') :
    Chunks filepath filesize good total tr n ∧ m' = m := by
  induction fuel generalizing good total tr with
  | zero =>
    obtain ⟨rfl,rfl,rfl⟩ := runs_pure.mp h
    exact ⟨.full hfuel,rfl⟩
  | succ fuel ih =>
    rw [receiveChunks] at h
    split at h
    · rename_i hlt
      obtain ⟨r,tr₁,rfl,h₁⟩ := runs_ask_bind.mp h
      cases r with
      | none =>
        obtain ⟨rfl,rfl,rfl⟩ := runs_pure.mp h₁
        exact ⟨.closed hlt,rfl⟩
      | some chunk =>
        have hpos := chunk.property.1
        rcases runs_writeStream_bind.mp h₁ with ⟨rfl,stored,tr₂,rfl,h₂⟩ | ⟨rfl,h₂⟩
        · obtain ⟨hc,hm⟩ := ih (by omega) h₂
          exact ⟨.stored chunk stored hlt hc,hm⟩
        · obtain ⟨hc,hm⟩ := ih (by omega) h₂
          exact ⟨.dropped chunk hlt hc,hm⟩
    · rename_i hge
      obtain ⟨rfl,rfl,rfl⟩ := runs_pure.mp h
      exact ⟨.full (Nat.le_of_not_lt hge),rfl⟩

theorem runs_receiveLargeFile (h : Runs (receiveLargeFile filepath filesize) m tr e m') :
    LargeFile filepath filesize m tr e m' := by
  unfold receiveLargeFile sendResponse at h
  obtain ⟨made,tr₁,rfl,h₁⟩ := runs_ask_bind.mp h
  cases made with
  | false =>
    obtain ⟨rfl,rfl,rfl⟩ := runs_pure.mp h₁
    exact .noSocket
  | true =>
  obtain ⟨bound,tr₂,rfl,h₂⟩ := runs_ask_bind.mp (runs_get_bind.mp h₁)
  cases bound with
  | false =>
    obtain ⟨rfl,rfl,rfl⟩ := runs_pure.mp h₂
    exact .noBind
  | true =>
  obtain ⟨listens,tr₃,rfl,h₃⟩ := runs_ask_bind.mp h₂
  cases listens with
  | false =>
    obtain ⟨rfl,rfl,rfl⟩ := runs_pure.mp h₃
    exact .noListen
  | true =>
  obtain ⟨ok,tr₄,rfl,h₄⟩ := runs_sendto_bind.mp h₃
  cases ok with
  | false =>
    obtain ⟨rfl,rfl,rfl⟩ := runs_pure.mp h₄
    exact .notSent
  | true =>
  obtain ⟨accepted,tr₅,rfl,h₅⟩ := runs_ask_bind.mp h₄
  cases accepted with
  | false =>
    obtain ⟨rfl,rfl,rfl⟩ := runs_pure.mp h₅
    exact .noAccept
  | true =>
  obtain ⟨opened,tr₆,rfl,h₆⟩ := runs_ask_bind.mp h₅
  cases opened with
  | false =>
    obtain ⟨rfl,rfl,rfl⟩ := runs_pure.mp h₆
    exact .noFile
  | true =>
    obtain ⟨total,m₁,trc,tr₇,hc,h₇,rfl⟩ := runs_bind.mp h₆
    obtain ⟨hchunks,rfl⟩ := runs_receiveChunks (Nat.le_of_eq (Nat.zero_add _).symm) hc
    obtain ⟨⟨⟩,tr₈,rfl,h₈⟩ := runs_ask_bind.mp h₇
    obtain ⟨⟨⟩,tr₉,rfl,h₉⟩ := runs_ask_bind.mp h₈
    obtain ⟨ok,rfl,rfl,rfl⟩ := runs_sendto.mp (runs_modify_bind.mp h₉)
    have hfin : LargeFile filepath filesize m₁ _ _ _ := .finished ok hchunks
    simp only [listening,counted,List.append_assoc,List.cons_append,List.nil_append] at hfin
    exact hfin

theorem runs_receiveFile (h : Runs (receiveFile filepath filesize) m tr e m') :
    AnyFile filepath filesize m tr e m' := by
  unfold receiveFile at h
  split at h
  · rename_i hle
    exact Or.inl ⟨hle,runs_receiveSmallFile h⟩
  · rename_i hlt
    exact Or.inr ⟨Nat.lt_of_not_le hlt,runs_receiveLargeFile h⟩

variable {config : ServerConfig} {cmd : CmdMsg}

theorem not_confirms {msg : CmdMsg}
    (h : msg.getCommand ≠ some .OVERWRITE ∨ msg.error ≠ 0) : ¬Confirms msg :=
  fun hc => h.elim (fun h₁ => h₁ hc.1) fun h₂ => h₂ hc.2

theorem confirms {msg : CmdMsg}
    (h : ¬(msg.getCommand ≠ some .OVERWRITE ∨ msg.error ≠ 0)) : Confirms msg := by
  rw [not_or,not_not,not_not] at h
  exact h

theorem runs_confirmSend (h : Runs (confirmSend config cmd) m tr e m') :
    SendConfirm config cmd m tr e m' := by
  unfold confirmSend sendResponse at h
  obtain ⟨ok,tr₁,rfl,h₁⟩ := runs_sendto_bind.mp h
  cases ok with
  | false =>
    obtain ⟨rfl,rfl,rfl⟩ := runs_pure.mp h₁
    exact .notSent
  | true =>
  rcases runs_recvfrom_cases rfl rfl h₁ with ⟨r,m₁,tr₂,hr,rfl,h₂⟩ | ⟨sender,d,tr₂,hd,rfl,h₂⟩
  · obtain ⟨rfl,rfl,rfl⟩ := runs_pure.mp h₂
    exact .noConfirm hr
  · simp only [if_neg hd] at h₂
    split at h₂
    · rename_i hno
      obtain ⟨ok',rfl,rfl,rfl⟩ := runs_sendto.mp h₂
      exact .declined hd (not_confirms hno)
    · rename_i hyes
      obtain ⟨trn,name,tr₃,hname,rfl,h₃⟩ := runs_readString_bind.mp h₂
      exact .confirmed hd (confirms hyes) hname (runs_receiveFile h₃)

/-- A command with a name begins with its checks. -/
theorem runs_named {f : Bytes → Bool → Handler ErrorCode}
    (h : Runs (readString 128 cmd.tail >>= fun name => validate name >>= fun valid =>
      if valid then ask (.fileExists (joinPath config.backupDir name)) >>= f name
      else sendResponse (reply .ACK ErrorCode.INVALID_FILENAME.value)) m tr e m') :
    ∃ trn name, Reads 128 cmd.tail trn name ∧
      ((isValidFilename name = false ∧ ∃ ok,
          tr = trn ++ [sent m (reply .ACK ErrorCode.INVALID_FILENAME.value).encode ok] ∧
          e = sendCode ok ∧ m' = m) ∨
        isValidFilename name = true ∧ ∃ there tr',
          tr = trn ++ (⟨.accepted name,()⟩ ::
            ⟨.fileExists (joinPath config.backupDir name),there⟩ :: tr') ∧
          Runs (f name there) m tr' e m') := by
  unfold sendResponse at h
  obtain ⟨trn,name,tr₁,hname,rfl,h₁⟩ := runs_readString_bind.mp h
  refine ⟨trn,name,hname,?_⟩
  rcases runs_validate_bind.mp h₁ with ⟨hv,h₂⟩ | ⟨hv,tr₂,rfl,h₂⟩
  · obtain ⟨ok,rfl,rfl,rfl⟩ := runs_sendto.mp h₂
    exact Or.inl ⟨hv,ok,rfl,rfl,rfl⟩
  · obtain ⟨there,tr₃,rfl,h₃⟩ := runs_ask_bind.mp h₂
    exact Or.inr ⟨hv,there,tr₃,rfl,h₃⟩

theorem runs_handleSend (h : Runs (handleSend config cmd) m tr e m') :
    Send config cmd m tr e m' := by
  obtain ⟨trn,name,hname,⟨hv,ok,rfl,rfl,rfl⟩ | ⟨hv,there,tr',rfl,h'⟩⟩ := runs_named h
  · exact .invalid hname hv
  · cases there with
    | false =>
      have hrun := Send.new hname hv (runs_receiveFile h')
      rwa [List.append_assoc] at hrun
    | true =>
      have hrun := Send.existing hname hv (runs_confirmSend h')
      rwa [List.append_assoc] at hrun

theorem runs_handleRemove (h : Runs (handleRemove config cmd) m tr e m') :
    Remove config cmd m tr e m' := by
  unfold handleRemove sendResponse at h
  obtain ⟨trn,name,hname,⟨hv,ok,rfl,rfl,rfl⟩ | ⟨hv,there,tr',rfl,h'⟩⟩ := runs_named h
  · exact .invalid hname hv
  · cases there with
    | false =>
      obtain ⟨ok,rfl,rfl,rfl⟩ := runs_sendto.mp h'
      exact .missing hname hv
    | true =>
      obtain ⟨done,tr'',rfl,h''⟩ := runs_ask_bind.mp h'
      cases done <;>
      · obtain ⟨ok,rfl,rfl,rfl⟩ := runs_sendto.mp h''
        exact .deleted hname hv

theorem runs_performRename {oldFilepath newFilepath : Bytes}
    (h : Runs (performRename oldFilepath newFilepath) m tr e m') :
    ∃ done ok, tr = renamed oldFilepath newFilepath m done ok ∧ e = sendCode ok ∧ m' = m := by
  unfold performRename sendResponse at h
  obtain ⟨done,tr₁,rfl,h₁⟩ := runs_ask_bind.mp h
  cases done <;>
  · obtain ⟨ok,rfl,rfl,rfl⟩ := runs_sendto.mp h₁
    exact ⟨_,ok,rfl,rfl,rfl⟩

theorem runs_receiveNewName {oldFilepath : Bytes}
    (h : Runs (receiveNewName config oldFilepath) m tr e m') :
    NewName config oldFilepath m tr e m' := by
  unfold receiveNewName sendResponse at h
  rcases runs_recvfrom_cases rfl rfl h with ⟨r,m₁,tr₁,hr,rfl,h₁⟩ | ⟨sender,d,tr₁,hd,rfl,h₁⟩
  · obtain ⟨rfl,rfl,rfl⟩ := runs_pure.mp h₁
    exact .noName hr
  simp only [if_neg hd] at h₁
  obtain ⟨trn,name,tr₂,hname,rfl,h₂⟩ := runs_readString_bind.mp h₁
  rcases runs_validate_bind.mp h₂ with ⟨hv,h₃⟩ | ⟨hv,tr₃,rfl,h₃⟩
  · obtain ⟨ok,rfl,rfl,rfl⟩ := runs_sendto.mp h₃
    exact .invalid hd hname hv
  obtain ⟨there,tr₄,rfl,h₄⟩ := runs_ask_bind.mp h₃
  cases there with
  | false =>
    obtain ⟨done,ok,rfl,rfl,rfl⟩ := runs_performRename h₄
    have hrun : NewName config oldFilepath m _ _ _ := .fresh sender done ok hd hname hv
    simp only [List.append_assoc,List.cons_append,List.nil_append] at hrun
    exact hrun
  | true =>
  simp only [if_true] at h₄
  unfold confirmRename sendResponse at h₄
  obtain ⟨asked,tr₅,rfl,h₅⟩ := runs_sendto_bind.mp h₄
  rcases runs_recvfrom_cases rfl rfl h₅ with ⟨r,m₁,tr₆,hr,rfl,h₆⟩ | ⟨sender',c,tr₆,hc,rfl,h₆⟩
  · obtain ⟨rfl,rfl,rfl⟩ := runs_pure.mp h₆
    have hrun : NewName config oldFilepath m _ _ _ := .noConfirm sender asked hd hname hv hr
    simp only [List.cons_append,List.nil_append] at hrun
    exact hrun
  simp only [if_neg hc] at h₆
  split at h₆
  · rename_i hno
    obtain ⟨ok,rfl,rfl,rfl⟩ := runs_sendto.mp h₆
    have hrun : NewName config oldFilepath m _ _ _ :=
      .declined sender sender' asked ok hd hname hv hc (not_confirms hno)
    simp only [List.cons_append,List.nil_append] at hrun
    exact hrun
  · rename_i hyes
    obtain ⟨deleted,tr₇,rfl,h₇⟩ := runs_ask_bind.mp h₆
    obtain ⟨done,ok,rfl,rfl,rfl⟩ := runs_performRename h₇
    have hrun : NewName config oldFilepath m _ _ _ :=
      .confirmed sender sender' asked deleted done ok hd hname hv hc (confirms hyes)
    simp only [List.append_assoc,List.cons_append,List.nil_append] at hrun
    exact hrun

theorem runs_handleRename (h : Runs (handleRename config cmd) m tr e m') :
    Rename config cmd m tr e m' := by
  unfold handleRename sendResponse at h
  obtain ⟨trn,name,hname,⟨hv,ok,rfl,rfl,rfl⟩ | ⟨hv,there,tr',rfl,h'⟩⟩ := runs_named h
  · exact .invalid hname hv
  cases there with
  | false =>
    obtain ⟨ok,rfl,rfl,rfl⟩ := runs_sendto.mp h'
    exact .missing hname hv
  | true =>
  simp only [if_true] at h'
  split at h'
  · rename_i hs
    obtain ⟨ok,tr'',rfl,h''⟩ := runs_sendto_bind.mp h'
    have hrun := Rename.handshake ok hname hv hs (runs_receiveNewName h'')
    simp only [List.append_assoc,List.cons_append,List.nil_append] at hrun
    exact hrun
  · rename_i hs
    have hrun := Rename.direct hname hv (by simpa using hs) (runs_receiveNewName h')
    simp only [List.append_assoc,List.cons_append,List.nil_append] at hrun
    exact hrun

theorem runs_handleCommand (h : Runs (handleCommand config cmd) m tr e m') :
    Handled config cmd m tr e m' := by
  unfold handleCommand setState at h
  split at h
  · rename_i hc
    have h₁ := runs_modify_bind.mp h
    unfold handleLs sendDataResponse at h₁
    obtain ⟨files,tr₁,rfl,h₂⟩ := runs_listDirectory_bind.mp h₁
    obtain ⟨ok,rfl,rfl,rfl⟩ := runs_sendto.mp h₂
    exact .ls files _ ok hc
  · rename_i hc
    exact .send hc (runs_handleSend (runs_modify_bind.mp h))
  · rename_i hc
    exact .remove hc (runs_handleRemove (runs_modify_bind.mp h))
  · rename_i hc
    exact .rename hc (runs_handleRename (runs_modify_bind.mp h))
  · rename_i hc
    have h₁ := runs_modify_bind.mp h
    unfold handleShutdown sendResponse at h₁
    obtain ⟨ok,tr₁,rfl,h₂⟩ := runs_sendto_bind.mp h₁
    have h₃ : Runs (pure .SUCCESS : Handler ErrorCode) _ tr₁ e m' := h₂
    obtain ⟨rfl,rfl,rfl⟩ := runs_pure.mp h₃
    exact .shutdown ok hc
  · rename_i hc
    obtain ⟨rfl,rfl,rfl⟩ := runs_pure.mp h
    exact .overwrite hc
  · rename_i h₁ h₂ h₃ h₄ h₅ h₆
    obtain ⟨rfl,rfl,rfl⟩ := runs_pure.mp h
    refine .unknown ?_
    simp only [List.mem_cons,List.not_mem_nil,or_false,not_or]
    exact ⟨h₁,h₂,h₃,h₄,h₅,h₆⟩

theorem runs_processCommand (h : Runs (processCommand config cmd) m tr e m') :
    Processed config cmd m tr e m' := by
  unfold processCommand at h
  obtain ⟨e₁,m₁,tr₁,tr₂,h₁,h₂,rfl⟩ := runs_bind.mp h
  obtain ⟨trn,name,tr₃,hname,rfl,h₃⟩ := runs_readString_bind.mp h₂
  obtain ⟨rfl,rfl,rfl⟩ := runs_pure.mp h₃
  rw [List.append_nil]
  exact .logged (runs_handleCommand h₁) hname

end Handlers

/-! Runs of the main loop. -/

/-- One call of `processCommand`. -/
structure ServerCall where
  cmd : CmdMsg
  before : Members
  trace : Trace
  code : ErrorCode
  after : Members

/-- The members when the main loop goes on after a call. -/
def afterCall (m : Members) : Members :=
  if m.state = .SHUTDOWN then m else { m with state := .WAITING }

/-- What the main loop counts before a call of `processCommand`, and after it. -/
def requested (cmd : CmdMsg) : Trace :=
  [⟨.metric (.recordRequest (commandToString cmd.getCommand)),()⟩]

def failed (cmd : CmdMsg) (e : ErrorCode) : Trace :=
  if e ≠ .SUCCESS ∧ cmd.getCommand ≠ some .SHUTDOWN then
    [⟨.metric (.recordError (commandToString cmd.getCommand) (errorCodeToString e)),()⟩]
  else []

/-- A run of the main loop with the calls of `processCommand` that it makes. -/
inductive ServerRun (config : ServerConfig) :
    Members → Trace → List ServerCall → Members → Prop where
  | stop (m : Members) : ServerRun config m [] [] m
  | idle {m m₁ m' : Members} {trn tr : Trace} {calls : List ServerCall} :
      m.shutdownRequested = false → Runs nextCommand m trn none m₁ →
      ServerRun config m₁ tr calls m' → ServerRun config m (trn ++ tr) calls m'
  | call {m m₁ m₂ m' : Members} {trn trc tr : Trace} {datagram : Bytes} {e : ErrorCode}
      {calls : List ServerCall} : m.shutdownRequested = false →
      Runs nextCommand m trn (some datagram) m₁ →
      Runs (processCommand config (CmdMsg.received datagram)) m₁ trc e m₂ →
      ServerRun config (afterCall m₂) tr calls m' →
      ServerRun config m
        (trn ++ (requested (CmdMsg.received datagram) ++ trc ++
          failed (CmdMsg.received datagram) e) ++ tr)
        (⟨CmdMsg.received datagram,m₁,trc,e,m₂⟩ :: calls) m'

/-- The main loop takes one datagram from the socket. -/
theorem runs_nextCommand_some {m m' : Members} {tr : Trace} {datagram : Bytes}
    (h : Runs nextCommand m tr (some datagram) m') :
    ∃ sender, datagram ≠ [] ∧ tr = [⟨.select,.readable⟩,got 137 sender datagram] ∧
      m' = m.serving sender := by
  unfold nextCommand at h
  obtain ⟨ready,tr₁,rfl,h₁⟩ := runs_ask_bind.mp h
  cases ready with
  | failed => cases (runs_pure.mp h₁).2.1
  | timeout => cases (runs_pure.mp h₁).2.1
  | readable =>
    rcases runs_recvfrom_bind.mp h₁ with ⟨tr₂,rfl,h₂⟩ | ⟨sender,d,tr₂,rfl,h₂⟩
    · cases (runs_pure.mp h₂).2.1
    · obtain ⟨rfl,hd,rfl⟩ := runs_pure.mp h₂
      split at hd
      · cases hd
      · rename_i hne
        obtain rfl := Option.some.inj hd
        exact ⟨sender,hne,rfl,rfl⟩

/-- An idle round of the main loop only waits. -/
theorem runs_nextCommand_none {m m' : Members} {tr : Trace} (h : Runs nextCommand m tr none m') :
    tr = [⟨.select,.failed⟩] ∧ m' = m ∨ tr = [⟨.select,.timeout⟩] ∧ m' = m ∨
      ∃ r, tr = [⟨.select,.readable⟩,r] ∧ Nothing 137 m r m' := by
  unfold nextCommand at h
  obtain ⟨ready,tr₁,rfl,h₁⟩ := runs_ask_bind.mp h
  cases ready with
  | failed =>
    obtain ⟨rfl,-,rfl⟩ := runs_pure.mp h₁
    exact Or.inl ⟨rfl,rfl⟩
  | timeout =>
    obtain ⟨rfl,-,rfl⟩ := runs_pure.mp h₁
    exact Or.inr (Or.inl ⟨rfl,rfl⟩)
  | readable =>
    rcases runs_recvfrom_bind.mp h₁ with ⟨tr₂,rfl,h₂⟩ | ⟨sender,d,tr₂,rfl,h₂⟩
    · obtain ⟨rfl,-,rfl⟩ := runs_pure.mp h₂
      exact Or.inr (Or.inr ⟨_,rfl,.again⟩)
    · obtain ⟨rfl,hd,rfl⟩ := runs_pure.mp h₂
      split at hd
      · rename_i he
        subst he
        exact Or.inr (Or.inr ⟨_,rfl,.empty sender⟩)
      · cases hd

theorem runs_dispatch {config : ServerConfig} {datagram : Bytes} {m m' : Members} {tr : Trace}
    {more : Bool} (h : Runs (dispatch config datagram) m tr more m') :
    ∃ trc e m₁, Runs (processCommand config (CmdMsg.received datagram)) m trc e m₁ ∧
      tr = requested (CmdMsg.received datagram) ++ trc ++ failed (CmdMsg.received datagram) e ∧
      m' = afterCall m₁ := by
  have hrest : ∀ {m tr}, Runs (get >>= fun m : Members =>
      if m.state = .SHUTDOWN then (pure false : Handler Bool)
      else do
        setState .WAITING
        pure true) m tr more m' → tr = [] ∧ m' = afterCall m := by
    intro m tr hr
    rw [runs_get_bind] at hr
    unfold afterCall
    split at hr
    · rename_i hshut
      obtain ⟨rfl,-,rfl⟩ := runs_pure.mp hr
      exact ⟨rfl,(if_pos hshut).symm⟩
    · rename_i hshut
      have hr' : Runs (pure true : Handler Bool) _ tr more m' := hr
      obtain ⟨rfl,-,rfl⟩ := runs_pure.mp hr'
      exact ⟨rfl,(if_neg hshut).symm⟩
  unfold dispatch at h
  obtain ⟨⟨⟩,tr₁,rfl,h₁⟩ := runs_ask_bind.mp h
  obtain ⟨e,m₁,trc,tr₂,hp,h₂,rfl⟩ := runs_bind.mp h₁
  refine ⟨trc,e,m₁,hp,?_⟩
  unfold requested failed
  split at h₂
  · rename_i hfail
    obtain ⟨⟨⟩,tr₃,rfl,h₃⟩ := runs_ask_bind.mp h₂
    obtain ⟨rfl,rfl⟩ := hrest h₃
    simp [if_pos hfail]
  · rename_i hok
    obtain ⟨rfl,rfl⟩ := hrest h₂
    simp [if_neg hok]

/-- `run` makes no other calls than these. -/
theorem serverRun_of_run {config : ServerConfig} {n : Nat} {m m' : Members} {tr : Trace}
    (h : Runs (run config n) m tr () m') : ∃ calls, ServerRun config m tr calls m' := by
  induction n generalizing m tr with
  | zero =>
    obtain ⟨rfl,-,rfl⟩ := runs_pure.mp h
    exact ⟨[],.stop _⟩
  | succ n ih =>
    rw [run,runs_get_bind] at h
    split at h
    · obtain ⟨rfl,-,rfl⟩ := runs_pure.mp h
      exact ⟨[],.stop _⟩
    · rename_i hs
      have hs : m.shutdownRequested = false := by simpa using hs
      obtain ⟨next,m₁,tr₁,tr₂,hnext,h₁,rfl⟩ := runs_bind.mp h
      cases next with
      | none =>
        obtain ⟨calls,hcalls⟩ := ih h₁
        exact ⟨calls,.idle hs hnext hcalls⟩
      | some d =>
        obtain ⟨more,m₂,tr₃,tr₄,hd,h₂,rfl⟩ := runs_bind.mp h₁
        obtain ⟨trc,e,m₃,hp,rfl,rfl⟩ := runs_dispatch hd
        cases more with
        | true =>
          obtain ⟨calls,hcalls⟩ := ih h₂
          rw [← List.append_assoc]
          exact ⟨_,.call hs hnext hp hcalls⟩
        | false =>
          obtain ⟨rfl,-,rfl⟩ := runs_pure.mp h₂
          rw [← List.append_assoc]
          exact ⟨_,.call hs hnext hp (.stop _)⟩

/-- What holds of every call of `processCommand` holds throughout a run. -/
theorem ServerRun.forall_calls {config : ServerConfig} {P : ServerCall → Prop}
    (hP : ∀ c : ServerCall, Processed config c.cmd c.before c.trace c.code c.after → P c)
    {m m' : Members} {tr : Trace} {calls : List ServerCall}
    (h : ServerRun config m tr calls m') : ∀ c ∈ calls, P c := by
  induction h with
  | stop m => simp
  | idle _ _ _ ih => exact ih
  | call _ _ hp _ ih => exact List.forall_mem_cons.mpr ⟨hP _ (runs_processCommand hp),ih⟩

/-! Runs on fixed inputs, for examples. -/

def sampleConfig : ServerConfig :=
  { tcpPort := 40000, backupDir := ascii ['b'], maxFileSize := 10, enableHandshake := true }

def sampleAddr : Addr := ⟨1,1⟩

def sampleCmd (command : Command) (name : List Char) (size : UInt32) : CmdMsg :=
  { (reply command 0).setFilename (ascii name) with size := size }

/-- The server receives one command, processes it, and no other comes. -/
theorem serverRun_single {config : ServerConfig} {cmd : CmdMsg} {sender : Addr} {tr : Trace}
    {e : ErrorCode} {m : Members}
    (h : replay (processCommand config cmd ((init config).serving sender)) tr = some (e,m)) :
    ServerRun config (init config)
      ([⟨.select,.readable⟩,got 137 sender cmd.encode] ++
        (requested cmd ++ tr ++ failed cmd e) ++ [])
      [⟨cmd,(init config).serving sender,tr,e,m⟩] (afterCall m) := by
  have hnext : Runs nextCommand (init config) [⟨.select,.readable⟩,got 137 sender cmd.encode]
      (some cmd.encode) ((init config).serving sender) := by
    refine runs_ask_bind.mpr ⟨.readable,_,rfl,?_⟩
    refine runs_recvfrom_bind.mpr (Or.inr ⟨sender,cmd.encode,[],rfl,?_⟩)
    exact runs_pure.mpr ⟨rfl,rfl,rfl⟩
  have hcmd := CmdMsg.received_encode cmd
  have hproc : Runs (processCommand config cmd) _ tr e m := exec_of_replay h
  have hrun := ServerRun.call rfl hnext (hcmd.symm ▸ hproc) (.stop (afterCall m))
  rwa [hcmd] at hrun

/-- REMOVE of a file that is not there. -/
def missingTrace : Trace :=
  let cmd := sampleCmd .REMOVE ['a'] 0
  [⟨.cstring 128 cmd.tail,[]⟩,⟨.accepted (ascii ['a']),()⟩,
    ⟨.fileExists (ascii ['b','/','a']),false⟩,
    sent ((init sampleConfig).serving sampleAddr) (reply .ACK 1).encode true,
    ⟨.cstring 128 cmd.tail,[]⟩]

theorem missing_run : ∃ m, replay (processCommand sampleConfig (sampleCmd .REMOVE ['a'] 0)
    ((init sampleConfig).serving sampleAddr)) missingTrace = some (.SUCCESS,m) := by
  have hsome : (replay (processCommand sampleConfig (sampleCmd .REMOVE ['a'] 0)
    ((init sampleConfig).serving sampleAddr)) missingTrace).map Prod.fst = some .SUCCESS := by
    decide +kernel
  obtain ⟨⟨e,m⟩,h,rfl⟩ := Option.map_eq_some_iff.mp hsome
  exact ⟨m,h⟩

end NetworkLab.Backup.Server
