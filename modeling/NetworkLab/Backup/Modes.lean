import NetworkLab.Backup.Client
import NetworkLab.Backup.Datagrams
import NetworkLab.Backup.Names
import NetworkLab.Backup.Traces
set_option autoImplicit false

/-! How client and server decide between the two ways to transfer a file: their handlers up
to the transfer. -/

namespace NetworkLab.Backup
open Interaction

def sizedBy : Event Res → Option Nat
  | ⟨.getFileSize _,filesize⟩ => some filesize
  | _ => none

/-- The sizes that the file system gave. -/
def sizes (tr : Trace) : List Nat := tr.filterMap sizedBy

theorem ite_bind {σ α β : Type} {c : Prop} [Decidable c] (p q : Stateful σ Res α)
    (f : α → Stateful σ Res β) : (if c then p else q) >>= f = if c then p >>= f else q >>= f := by
  split <;> rfl

namespace Client

/-- Where `handleSend` has come to: it is over, or it calls one of the two functions. -/
inductive Decision where
  | ended (result : ErrorCode)
  | small (filepath : Bytes) (filesize : Nat)
  | large (filepath : Bytes) (filesize : Nat) (tcpPort : UInt16)

def Decision.perform : Decision → Handler ErrorCode
  | .ended result => pure result
  | .small filepath filesize => sendSmallFile filepath filesize
  | .large filepath filesize tcpPort => sendLargeFile filepath filesize tcpPort

/-- Whether the file goes over TCP, and its size. -/
def Decision.transfer : Decision → Option (Bool × Nat)
  | .ended _ => none
  | .small _ filesize => some (false,filesize)
  | .large _ filesize _ => some (true,filesize)

def decideFile (filename : Bytes) (filesize : Nat) (response : CmdMsg) : Decision :=
  if dataBufLen < filesize then .large filename filesize response.size.toUInt16
  else .small filename filesize

def decideConfirmed (filename baseName : Bytes) (filesize : Nat) (response : CmdMsg) :
    Handler Decision := do
  let answer ← ask .answer
  let confirmMsg := { command .OVERWRITE baseName with
    size := UInt32.ofNat filesize, error := if saysYes answer then 0 else 1 }
  let result ← sendCommand confirmMsg
  if result ≠ .SUCCESS then pure (.ended result)
  else if saysYes answer then
    let (result,response) ← receiveResponse response
    if result ≠ .SUCCESS then pure (.ended result)
    else if response.getCommand ≠ some .ACK then pure (.ended .UNEXPECTED_RESPONSE)
    else pure (decideFile filename filesize response)
  else do
    let _ ← receiveResponse response
    pure (.ended .CANCELLED)

/-- `handleSend` up to the transfer. -/
def decideSend (filename : Bytes) : Handler Decision := do
  if ← ask (.fileExists filename) then
    let filesize ← ask (.getFileSize filename)
    let baseName := getFilename filename
    if isValidFilename baseName then
      let result ← sendCommand { command .SEND baseName with size := UInt32.ofNat filesize }
      if result ≠ .SUCCESS then pure (.ended result)
      else
        let (result,response) ← receiveResponse .new
        if result ≠ .SUCCESS then pure (.ended result)
        else if response.getCommand = some .FILE_EXISTS then
          decideConfirmed filename baseName filesize response
        else if response.getCommand = some .ACK then
          pure (decideFile filename filesize response)
        else pure (.small filename filesize)
    else pure (.ended .INVALID_FILENAME)
  else pure (.ended .FILE_NOT_FOUND)

theorem perform_decideFile (filename : Bytes) (filesize : Nat) (response : CmdMsg) :
    (decideFile filename filesize response).perform = sendFile filename filesize response := by
  unfold decideFile sendFile
  split <;> rfl

theorem confirmSend_eq (filename baseName : Bytes) (filesize : Nat) (response : CmdMsg) :
    confirmSend filename baseName filesize response =
      decideConfirmed filename baseName filesize response >>= Decision.perform := by
  simp only [confirmSend,decideConfirmed,bind_assoc,ite_bind,pure_bind,perform_decideFile]
  rfl

theorem handleSend_eq (filename : Bytes) :
    handleSend filename = decideSend filename >>= Decision.perform := by
  simp only [handleSend,decideSend,bind_assoc,ite_bind,pure_bind,perform_decideFile,confirmSend_eq]
  rfl

/-- Either no reply has come, or the server has asked whether to overwrite. -/
def Asked (tr : Trace) : Prop := ∀ d, (gets tr).head? = some d → d ≠ [] →
  (CmdMsg.received d).getCommand = some .FILE_EXISTS

/-- What the replies lead to. -/
inductive Decides (filename : Bytes) : Trace → Decision → Prop where
  | ended {tr : Trace} (result : ErrorCode) : Asked tr → Decides filename tr (.ended result)
  | odd {tr : Trace} {filesize : Nat} {d : Bytes} : sizes tr = [filesize] → gets tr = [d] →
      d ≠ [] → (CmdMsg.received d).getCommand ≠ some .FILE_EXISTS →
      (CmdMsg.received d).getCommand ≠ some .ACK → Decides filename tr (.small filename filesize)
  | new {tr : Trace} {filesize : Nat} {d : Bytes} (cmd : CmdMsg) : sizes tr = [filesize] →
      sends tr = [cmd.encode] → cmd.size = UInt32.ofNat filesize → gets tr = [d] →
      (CmdMsg.received d).getCommand = some .ACK →
      Decides filename tr (decideFile filename filesize (CmdMsg.received d))
  | confirmed {tr : Trace} {filesize : Nat} {d d' : Bytes} (cmd confirm response : CmdMsg) :
      sizes tr = [filesize] → sends tr = [cmd.encode,confirm.encode] →
      confirm.size = UInt32.ofNat filesize → gets tr = [d,d'] →
      (CmdMsg.received d).getCommand = some .FILE_EXISTS →
      Decides filename tr (decideFile filename filesize response)

section Decides
variable {filename baseName : Bytes} {filesize : Nat} {m m' : Members} {tr : Trace}
variable {dec : Decision} {d : Bytes}

/-- The calls before the first reply. -/
def asking (filename : Bytes) (filesize : Nat) (dest : Addr) (cmd : CmdMsg) : Trace :=
  [⟨.fileExists filename,true⟩,⟨.getFileSize filename,filesize⟩,⟨.sendto dest cmd.encode,true⟩]

theorem asked_of_file_exists (h : (CmdMsg.received d).getCommand = some .FILE_EXISTS)
    (hget : (gets tr).head? = some d) : Asked tr := by
  intro d' hd' _
  rw [hget] at hd'
  exact Option.some.inj hd' ▸ h

theorem runs_decideConfirmed {response cmd : CmdMsg} {dest sender : Addr}
    (hd : (CmdMsg.received d).getCommand = some .FILE_EXISTS)
    (h : Runs (decideConfirmed filename baseName filesize response) m tr dec m') :
    Decides filename (asking filename filesize dest cmd ++ ⟨.recvfrom 137,some (sender,d)⟩ :: tr)
      dec := by
  have hasked : ∀ tr, Asked (asking filename filesize dest cmd ++
      ⟨.recvfrom 137,some (sender,d)⟩ :: tr) := fun tr => asked_of_file_exists hd rfl
  obtain ⟨answer,tr₁,rfl,h₁⟩ := runs_ask_bind.mp h
  obtain ⟨ok,tr₂,rfl,h₂⟩ := runs_sendto_bind.mp h₁
  cases ok with
  | false =>
    obtain ⟨-,rfl,-⟩ := runs_pure.mp h₂
    exact .ended _ (hasked _)
  | true =>
    cases hyes : saysYes answer with
    | false =>
      simp only [hyes] at h₂
      rcases runs_receiveResponse_bind.mp h₂ with ⟨tr₃,rfl,h₃⟩ | ⟨sender',d',tr₃,rfl,h₃⟩
      · obtain ⟨-,rfl,-⟩ := runs_pure.mp h₃
        exact .ended _ (hasked _)
      · obtain ⟨-,rfl,-⟩ := runs_pure.mp h₃
        exact .ended _ (hasked _)
    | true =>
      simp only [hyes] at h₂
      rcases runs_receiveResponse_bind.mp h₂ with ⟨tr₃,rfl,h₃⟩ | ⟨sender',d',tr₃,rfl,h₃⟩
      · obtain ⟨-,rfl,-⟩ := runs_pure.mp h₃
        exact .ended _ (hasked _)
      · by_cases hnil : d' = []
        · rw [if_pos hnil] at h₃
          obtain ⟨-,rfl,-⟩ := runs_pure.mp h₃
          exact .ended _ (hasked _)
        · rw [if_neg hnil] at h₃
          by_cases hack : (CmdMsg.decode (overlay response.encode d')).getCommand = some .ACK
          · simp only [ne_eq,not_true_eq_false,if_false,hack] at h₃
            obtain ⟨rfl,rfl,-⟩ := runs_pure.mp h₃
            exact .confirmed _ _ _ rfl rfl rfl rfl hd
          · simp only [ne_eq,not_true_eq_false,if_false,hack,not_false_eq_true,if_true] at h₃
            obtain ⟨-,rfl,-⟩ := runs_pure.mp h₃
            exact .ended _ (hasked _)

/-- The first reply is `d`; it takes the place of a message that was just constructed. -/
theorem runs_decideSend (h : Runs (decideSend filename) m tr dec m') : Decides filename tr dec := by
  have hquiet : ∀ {tr}, gets tr = [] → Asked tr := by
    intro tr hnil d hd
    rw [hnil] at hd
    cases hd
  obtain ⟨there,tr₁,rfl,h₁⟩ := runs_ask_bind.mp h
  cases there with
  | false =>
    obtain ⟨rfl,rfl,-⟩ := runs_pure.mp h₁
    exact .ended _ (hquiet rfl)
  | true =>
    obtain ⟨filesize,tr₂,rfl,h₂⟩ := runs_ask_bind.mp h₁
    by_cases hvalid : isValidFilename (getFilename filename) = true
    · simp only [hvalid,if_true] at h₂
      obtain ⟨ok,tr₃,rfl,h₃⟩ := runs_sendto_bind.mp h₂
      cases ok with
      | false =>
        obtain ⟨rfl,rfl,-⟩ := runs_pure.mp h₃
        exact .ended _ (hquiet rfl)
      | true =>
        rcases runs_receiveResponse_bind.mp h₃ with ⟨tr₄,rfl,h₄⟩ | ⟨sender,d,tr₄,rfl,h₄⟩
        · obtain ⟨rfl,rfl,-⟩ := runs_pure.mp h₄
          exact .ended _ (hquiet rfl)
        · by_cases hnil : d = []
          · rw [if_pos hnil] at h₄
            obtain ⟨rfl,rfl,-⟩ := runs_pure.mp h₄
            refine .ended _ fun d' hd' hne => absurd ?_ hne
            exact (Option.some.inj hd').symm.trans hnil
          · rw [if_neg hnil] at h₄
            simp only [ne_eq,not_true_eq_false,if_false] at h₄
            rw [← CmdMsg.received] at h₄
            split at h₄
            · rename_i hexists
              exact runs_decideConfirmed hexists h₄
            · rename_i hexists
              split at h₄
              · rename_i hack
                obtain ⟨rfl,rfl,-⟩ := runs_pure.mp h₄
                exact .new _ rfl rfl rfl rfl hack
              · rename_i hack
                obtain ⟨rfl,rfl,-⟩ := runs_pure.mp h₄
                exact .odd rfl rfl hnil hexists hack
    · simp only [hvalid] at h₂
      obtain ⟨rfl,rfl,-⟩ := runs_pure.mp h₂
      exact .ended _ (hquiet rfl)

end Decides

end Client

namespace Server

inductive Decision where
  | ended (result : ErrorCode)
  | small (filepath : Bytes) (filesize : Nat)
  | large (filepath : Bytes) (filesize : Nat)

def Decision.perform : Decision → Handler ErrorCode
  | .ended result => pure result
  | .small filepath filesize => receiveSmallFile filepath filesize
  | .large filepath filesize => receiveLargeFile filepath filesize

/-- Whether the file is taken over TCP, and how many bytes are waited for. -/
def Decision.transfer : Decision → Option (Bool × Nat)
  | .ended _ => none
  | .small _ filesize => some (false,filesize)
  | .large _ filesize => some (true,filesize)

def decideFile (filepath : Bytes) (filesize : Nat) : Decision :=
  if filesize ≤ dataBufLen then .small filepath filesize else .large filepath filesize

/-- A response after which the handler is over. -/
def endWith (response : CmdMsg) : Handler Decision := do
  let result ← sendResponse response
  pure (.ended result)

def decideConfirmed (config : ServerConfig) (cmd : CmdMsg) : Handler Decision := do
  let sendResult ← sendResponse { reply .FILE_EXISTS 0 with size := cmd.size }
  if sendResult ≠ .SUCCESS then pure (.ended sendResult)
  else
    match ← recvfrom 137 with
    | none => pure (.ended .TIMEOUT)
    | some datagram =>
      if datagram = [] then pure (.ended .TIMEOUT)
      else
        let confirmMsg := CmdMsg.received datagram
        if confirmMsg.getCommand ≠ some .OVERWRITE ∨ confirmMsg.error ≠ 0 then
          endWith (reply .ACK 2)
        else do
          let filename ← readString 128 confirmMsg.tail
          pure (decideFile (joinPath config.backupDir filename) confirmMsg.size.toNat)

/-- `handleSend` up to the transfer. -/
def decideSend (config : ServerConfig) (cmd : CmdMsg) : Handler Decision := do
  let filename ← readString 128 cmd.tail
  if ← validate filename then do
    let filepath := joinPath config.backupDir filename
    if ← ask (.fileExists filepath) then decideConfirmed config cmd
    else pure (decideFile filepath cmd.size.toNat)
  else endWith (reply .ACK ErrorCode.INVALID_FILENAME.value)

theorem perform_decideFile (filepath : Bytes) (filesize : Nat) :
    (decideFile filepath filesize).perform = receiveFile filepath filesize := by
  unfold decideFile receiveFile
  split <;> rfl

theorem endWith_bind (response : CmdMsg) :
    endWith response >>= Decision.perform = sendResponse response := by
  simp only [endWith,bind_assoc,pure_bind,Decision.perform,bind_pure]

theorem confirmSend_eq (config : ServerConfig) (cmd : CmdMsg) :
    confirmSend config cmd = decideConfirmed config cmd >>= Decision.perform := by
  simp only [confirmSend,decideConfirmed,bind_assoc,ite_bind,pure_bind]
  refine bind_congr fun sendResult => ?_
  refine if_congr Iff.rfl rfl (bind_congr fun r => ?_)
  cases r with
  | none => rfl
  | some datagram =>
    simp only [ite_bind,bind_assoc,pure_bind,endWith_bind,perform_decideFile]
    rfl

theorem handleSend_eq (config : ServerConfig) (cmd : CmdMsg) :
    handleSend config cmd = decideSend config cmd >>= Decision.perform := by
  simp only [handleSend,decideSend,bind_assoc,ite_bind,pure_bind,endWith_bind,perform_decideFile,
    confirmSend_eq]

/-- The size is that of the command, or that of the confirmation. -/
inductive Decides (cmd : CmdMsg) : Trace → Decision → Prop where
  | ended {tr : Trace} (result : ErrorCode) : Decides cmd tr (.ended result)
  | new {tr : Trace} (filepath : Bytes) : gets tr = [] → sends tr = [] →
      Decides cmd tr (decideFile filepath cmd.size.toNat)
  | confirmed {tr : Trace} {d : Bytes} (filepath : Bytes) (question : CmdMsg) :
      gets tr = [d] → sends tr = [question.encode] → question.getCommand = some .FILE_EXISTS →
      Decides cmd tr (decideFile filepath (CmdMsg.received d).size.toNat)

section Decides
variable {config : ServerConfig} {cmd : CmdMsg} {m m' : Members} {tr trn : Trace} {dec : Decision}

theorem Reads.gets_append {field : Nat} {memory name : Bytes} (h : Reads field memory trn name)
    (tr : Trace) : gets (trn ++ tr) = gets tr := by
  cases h
  rfl

theorem Reads.sends_append {field : Nat} {memory name : Bytes} (h : Reads field memory trn name)
    (tr : Trace) : sends (trn ++ tr) = sends tr := by
  cases h
  rfl

theorem runs_endWith {response : CmdMsg} (h : Runs (endWith response) m tr dec m') :
    ∃ result, dec = .ended result := by
  obtain ⟨result,m₁,tr₁,tr₂,-,h₂,-⟩ := runs_bind.mp h
  exact ⟨result,(runs_pure.mp h₂).2.1⟩

theorem runs_decideConfirmed (h : Runs (decideConfirmed config cmd) m tr dec m') :
    (∃ result, dec = .ended result) ∨ ∃ filepath d, dec =
      decideFile filepath (CmdMsg.received d).size.toNat ∧ gets tr = [d] ∧
        sends tr = [{ reply .FILE_EXISTS 0 with size := cmd.size }.encode] := by
  unfold decideConfirmed sendResponse at h
  obtain ⟨ok,tr₁,rfl,h₁⟩ := runs_sendto_bind.mp h
  cases ok with
  | false => exact Or.inl ⟨_,(runs_pure.mp h₁).2.1⟩
  | true =>
    rcases runs_recvfrom_cases rfl rfl h₁ with ⟨r,m₁,tr₂,-,rfl,h₂⟩ | ⟨sender,d,tr₂,hd,rfl,h₂⟩
    · exact Or.inl ⟨_,(runs_pure.mp h₂).2.1⟩
    · simp only [if_neg hd] at h₂
      split at h₂
      · exact Or.inl (runs_endWith h₂)
      · obtain ⟨trn,name,tr₃,hname,rfl,h₃⟩ := runs_readString_bind.mp h₂
        obtain ⟨rfl,hdec,-⟩ := runs_pure.mp h₃
        refine Or.inr ⟨_,d,hdec,?_,?_⟩
        · rw [sent,gets_sendto,got,gets_some,hname.gets_append,gets_nil]
        · rw [sent,sends_sendto,got,sends_recvfrom,hname.sends_append,sends_nil]

theorem runs_decideSend (h : Runs (decideSend config cmd) m tr dec m') : Decides cmd tr dec := by
  unfold decideSend at h
  obtain ⟨trn,name,tr₁,hname,rfl,h₁⟩ := runs_readString_bind.mp h
  rcases runs_validate_bind.mp h₁ with ⟨-,h₂⟩ | ⟨-,tr₂,rfl,h₂⟩
  · obtain ⟨result,rfl⟩ := runs_endWith h₂
    exact .ended result
  · obtain ⟨there,tr₃,rfl,h₃⟩ := runs_ask_bind.mp h₂
    cases there with
    | false =>
      obtain ⟨rfl,rfl,-⟩ := runs_pure.mp h₃
      exact .new _ (hname.gets_append _) (hname.sends_append _)
    | true =>
      rcases runs_decideConfirmed h₃ with ⟨result,rfl⟩ | ⟨filepath,d,hdec,hgets,hsends⟩
      · exact .ended result
      · rw [hdec]
        refine .confirmed filepath { reply .FILE_EXISTS 0 with size := cmd.size } ?_ ?_
            (Command.ofCode_code .FILE_EXISTS)
        · rw [hname.gets_append,← hgets]
          rfl
        · rw [hname.sends_append,← hsends]
          rfl

@[simp] theorem transfer_decideFile (filepath : Bytes) (filesize : Nat) :
    (decideFile filepath filesize).transfer = some (decide (dataBufLen < filesize),filesize) := by
  unfold decideFile
  split
  · rename_i h
    rw [decide_eq_false (Nat.not_lt.mpr h)]
    rfl
  · rename_i h
    rw [decide_eq_true (Nat.not_le.mp h)]
    rfl

/-- A transfer begins with an acknowledgement. -/
theorem Decision.first_ack {e : ErrorCode} {d : Bytes} (h : Runs dec.perform m tr e m')
    (hd : (sends tr).head? = some d) :
    (CmdMsg.received d).getCommand = some .ACK ∧ dec.transfer.isSome := by
  have hack : ∀ {msg : CmdMsg}, msg.getCommand = some .ACK → some msg.encode = some d →
      (CmdMsg.received d).getCommand = some .ACK := by
    intro msg hmsg he
    rw [← Option.some.inj he,CmdMsg.received_encode,hmsg]
  cases dec with
  | ended result =>
    obtain ⟨rfl,-⟩ := runs_pure.mp h
    cases hd
  | small filepath filesize =>
    refine ⟨?_,rfl⟩
    cases runs_receiveSmallFile h with
    | noData | noFile | stored => exact hack getCommand_reply hd
  | large filepath filesize =>
    refine ⟨?_,rfl⟩
    cases runs_receiveLargeFile h with
    | noSocket | noBind | noListen => cases hd
    | notSent | noAccept | noFile | finished => exact @hack (portAck m) (Command.ofCode_code .ACK) hd

end Decides

end Server

/-- Both handlers up to the transfer, and what the server does then: the first message of the
client is the server's command, the others are what it gets; the client gets the messages of the
server, the last one from the beginning of the transfer. -/
inductive Exchange (filename : Bytes) : Trace → Client.Decision → Server.Decision → Prop where
  | exchanged {config : Server.ServerConfig} {mc mc' : Client.Members}
      {ms ms' ms'' : Server.Members} {trc trs trt : Trace} {dc : Client.Decision}
      {ds : Server.Decision} {e : ErrorCode} {d ack : Bytes} :
      Runs (Client.decideSend filename) mc trc dc mc' →
      Runs (Server.decideSend config (CmdMsg.received d)) ms trs ds ms' →
      Runs ds.perform ms' trt e ms'' → sends trc = d :: gets trs →
      (sends trt).head? = some ack → gets trc = sends trs ++ [ack] → Exchange filename trc dc ds

namespace Client

@[simp] theorem transfer_decideFile (filename : Bytes) (filesize : Nat) (response : CmdMsg) :
    (decideFile filename filesize response).transfer =
      some (decide (dataBufLen < filesize),filesize) := by
  unfold decideFile
  split
  · rename_i h
    rw [decide_eq_true h]
    rfl
  · rename_i h
    rw [decide_eq_false h]
    rfl

end Client

theorem announced_iff (n : Nat) : (UInt32.ofNat n).toNat = n ↔ n < 2 ^ 32 := by
  rw [UInt32.toNat_ofNat']
  exact Nat.mod_eq_iff_lt (by decide)

theorem encode_of_sends {d : Bytes} {rest : List Bytes} {cmd : CmdMsg}
    (h : d :: rest = cmd.encode :: rest) : CmdMsg.received d = cmd := by
  rw [(List.cons.inj h).1,CmdMsg.received_encode]

section Exchange
variable {filename : Bytes} {trc : Trace} {dc : Client.Decision} {ds : Server.Decision}

/-- The size that the server goes by is the one that the client has announced. -/
theorem Exchange.sizes (h : Exchange filename trc dc ds) (hc : dc.transfer ≠ none) :
    ∃ n, sizes trc = [n] ∧ dc.transfer = some (decide (dataBufLen < n),n) ∧
      ds.transfer = some (decide (dataBufLen < (UInt32.ofNat n).toNat),(UInt32.ofNat n).toNat) := by
  cases h with
  | @exchanged config _ _ _ _ _ _ trs _ _ _ _ d ack hclient hserver hperform hsends hack hgets =>
    obtain ⟨hackCmd,hsome⟩ := Server.Decision.first_ack hperform hack
    cases Server.runs_decideSend hserver with
    | ended result => cases hsome
    | new filepath hgots hsent =>
      rw [hgots] at hsends
      rw [hsent,List.nil_append] at hgets
      cases Client.runs_decideSend hclient with
      | ended result => exact absurd rfl hc
      | odd hsize hget hne hexists hno =>
        obtain rfl := List.singleton_inj.mp (hget.symm.trans hgets)
        exact absurd hackCmd hno
      | new cmd hsize hsent' hcmd hget =>
        rw [hsends] at hsent'
        refine ⟨_,hsize,Client.transfer_decideFile _ _ _,?_⟩
        rw [Server.transfer_decideFile,encode_of_sends hsent',hcmd]
      | confirmed cmd confirm response hsize hsent' hcmd hget =>
        cases hget.symm.trans hgets
    | confirmed filepath question hgots hsent hquestion =>
      rw [hgots] at hsends
      rw [hsent] at hgets
      cases Client.runs_decideSend hclient with
      | ended result => exact absurd rfl hc
      | odd hsize hget => cases hget.symm.trans hgets
      | new cmd hsize hsent' hcmd hget => cases hget.symm.trans hgets
      | confirmed cmd confirm response hsize hsent' hcmd hget =>
        rw [hsends] at hsent'
        refine ⟨_,hsize,Client.transfer_decideFile _ _ _,?_⟩
        obtain ⟨-,hconfirm⟩ := List.cons.inj hsent'
        rw [Server.transfer_decideFile,encode_of_sends hconfirm,hcmd]

/-- The server takes the same way for the same number of bytes exactly when the size of the file
fits into the message. -/
theorem transfer_modes_agree {large : Bool} {n : Nat} (h : Exchange filename trc dc ds)
    (hc : dc.transfer = some (large,n)) :
    sizes trc = [n] ∧ (ds.transfer = some (large,n) ↔ n < 2 ^ 32) := by
  obtain ⟨n',hsize,hclient,hserver⟩ := h.sizes (by simp [hc])
  rw [hc] at hclient
  obtain ⟨rfl,rfl⟩ := Prod.mk.inj (Option.some.inj hclient)
  refine ⟨hsize,?_⟩
  rw [hserver,← announced_iff,Option.some.injEq,Prod.mk.injEq]
  constructor
  · exact fun he => he.2
  · intro he
    rw [he]
    exact ⟨rfl,rfl⟩

end Exchange

section Samples
variable {n : Nat}

/-- The command that announces a file `a` of `n` bytes. -/
def announce (n : Nat) : CmdMsg := { Client.command .SEND [97] with size := UInt32.ofNat n }

def freshClient : Client.Members := ⟨⟨0,0⟩,[]⟩

/-- The client's calls for the file `a` until the first reply. -/
def answered (n : Nat) (response : CmdMsg) : Trace :=
  Client.asking [97] n ⟨0,0⟩ (announce n) ++ [⟨.recvfrom 137,some (⟨0,0⟩,response.encode)⟩]

theorem answered_runs (n : Nat) {response : CmdMsg} (hno : response.getCommand ≠ some .FILE_EXISTS) :
    Runs (Client.decideSend [97]) freshClient (answered n response)
      (if response.getCommand = some .ACK then Client.decideFile [97] n response
        else .small [97] n) freshClient := by
  have hname : getFilename [97] = [97] := by decide
  have hsome : response.encode ≠ [] := List.cons_ne_nil _ _
  refine runs_ask_bind.mpr ⟨true,_,rfl,runs_ask_bind.mpr ⟨n,_,rfl,?_⟩⟩
  simp only [hname]
  refine Client.runs_sendto_bind.mpr ⟨true,_,rfl,Client.runs_receiveResponse_bind.mpr
    (Or.inr ⟨_,_,_,rfl,?_⟩)⟩
  rw [if_neg hsome]
  simp only [ne_eq,not_true_eq_false,if_false]
  rw [← CmdMsg.received,CmdMsg.received_encode,if_neg hno]
  split
  · exact runs_pure.mpr ⟨rfl,rfl,rfl⟩
  · exact runs_pure.mpr ⟨rfl,rfl,rfl⟩

/-- A new file whose announced size is small. -/
theorem exists_exchange (h : (announce n).size.toNat ≤ dataBufLen) :
    ∃ trc dc ds, Exchange [97] trc dc ds ∧ dc.transfer = some (decide (dataBufLen < n),n) := by
  let config := Server.sampleConfig
  let ms := Server.init config
  have hack : (Server.reply .ACK 0).getCommand = some .ACK := Server.getCommand_reply
  have hclient := answered_runs n (show (Server.reply .ACK 0).getCommand ≠ some .FILE_EXISTS by
    rw [hack]; decide)
  rw [if_pos hack] at hclient
  have hname : cString ((announce n).tail ++ []) = wireName [97] := cString_tail [] rfl
  have hserver : Runs (Server.decideSend config (CmdMsg.received (announce n).encode)) ms
      [⟨.cstring 128 (announce n).tail,[]⟩,⟨.accepted [97],()⟩,
        ⟨.fileExists (joinPath config.backupDir [97]),false⟩]
      (Server.decideFile (joinPath config.backupDir [97]) (announce n).size.toNat) ms := by
    rw [CmdMsg.received_encode]
    refine Server.runs_readString_bind.mpr ⟨_,_,_,.read [],rfl,?_⟩
    rw [hname,show wireName [97] = [97] by decide]
    exact runs_validate_bind.mpr (Or.inr ⟨by decide,_,rfl,runs_ask_bind.mpr ⟨false,_,rfl,
      runs_pure.mpr ⟨rfl,rfl,rfl⟩⟩⟩)
  have hperform : Runs (Server.decideFile (joinPath config.backupDir [97])
      (announce n).size.toNat).perform ms
      [Server.sent ms (Server.reply .ACK 0).encode true,⟨.recvfrom 3000,none⟩,
        Server.sent ms (Server.reply .ACK 1).encode true] .SOCKET_RECV_ERROR ms := by
    rw [Server.perform_decideFile,Server.receiveFile,if_pos h]
    exact Server.runs_sendto_bind.mpr ⟨true,_,rfl,Server.runs_recvfrom_bind.mpr (Or.inl ⟨_,rfl,
      Server.runs_sendto_bind.mpr ⟨true,_,rfl,runs_pure.mpr ⟨rfl,rfl,rfl⟩⟩⟩)⟩
  exact ⟨_,_,_,.exchanged hclient hserver hperform rfl rfl rfl,Client.transfer_decideFile _ _ _⟩

/-- A file of five bytes goes as it is announced. -/
theorem transfer_modes_agree_small : ∃ trc dc ds, Exchange [97] trc dc ds ∧
    dc.transfer = some (false,5) ∧ ds.transfer = some (false,5) := by
  obtain ⟨trc,dc,ds,h,hc⟩ := exists_exchange (show (announce 5).size.toNat ≤ dataBufLen by decide)
  exact ⟨trc,dc,ds,h,hc,(transfer_modes_agree h hc).2.mpr (by decide)⟩

/-- A file of 2^32 + 1 bytes is announced as one of a single byte. -/
theorem not_transfer_modes_agree_always :
    ¬∀ (filename : Bytes) (trc : Trace) (dc : Client.Decision) (ds : Server.Decision)
      (large : Bool) (n : Nat), n < 2 ^ 64 → Exchange filename trc dc ds →
        dc.transfer = some (large,n) → ds.transfer = some (large,n) := by
  intro hall
  obtain ⟨trc,dc,ds,h,hc⟩ :=
    exists_exchange (show (announce 4294967297).size.toNat ≤ dataBufLen by decide)
  have hs := hall _ _ _ _ _ _ (by decide) h hc
  obtain ⟨n,-,hc',hs'⟩ := h.sizes (by simp [hc])
  rw [hc] at hc'
  obtain ⟨-,rfl⟩ := Prod.mk.inj (Option.some.inj hc')
  rw [hs'] at hs
  exact absurd (congrArg (Option.map Prod.snd) hs) (by decide)

end Samples

/-! The buffers of the small files. -/

/-- A file that is too large for a `DataMsg` meets no other first reply than the two that
`handleSend` asks about. -/
def Foreseen (tr : Trace) : Prop := ∀ n ∈ sizes tr, dataBufLen < n →
  ∀ d, (gets tr).head? = some d → d ≠ [] →
    (CmdMsg.received d).getCommand = some .FILE_EXISTS ∨ (CmdMsg.received d).getCommand = some .ACK

theorem Client.decideFile_small {filename filepath : Bytes} {filesize n : Nat} {response : CmdMsg}
    (h : Client.decideFile filename filesize response = .small filepath n) : n ≤ dataBufLen := by
  unfold Client.decideFile at h
  split at h
  · cases h
  · rename_i hsmall
    cases h
    exact Nat.not_lt.mp hsmall

theorem Client.small_iff_foreseen {filename : Bytes} {m m' : Client.Members} {tr : Trace}
    {dec : Client.Decision} (h : Runs (Client.decideSend filename) m tr dec m') :
    (∀ filepath n, dec = .small filepath n → n ≤ dataBufLen) ↔ Foreseen tr := by
  cases Client.runs_decideSend h with
  | ended result hasked =>
    refine iff_of_true (fun _ _ he => by cases he) fun _ _ _ d hd hne => ?_
    exact Or.inl (hasked d hd hne)
  | @odd filesize d hsize hget hne hexists hack =>
    constructor
    · intro hall n hn hlarge
      rw [hsize,List.mem_singleton] at hn
      exact absurd (hall _ _ rfl) (Nat.not_le.mpr (hn ▸ hlarge))
    · intro hf filepath n he
      cases he
      by_contra hlarge
      have hmem : filesize ∈ sizes tr := by
        rw [hsize]
        exact List.mem_singleton_self _
      rcases hf filesize hmem (Nat.not_le.mp hlarge) d (by rw [hget]; rfl) hne with hc | hc
      · exact hexists hc
      · exact hack hc
  | new cmd hsize hsent hcmd hget hack =>
    refine iff_of_true (fun _ _ => Client.decideFile_small) fun _ _ _ d hd _ => ?_
    rw [hget] at hd
    exact Or.inr (Option.some.inj hd ▸ hack)
  | confirmed cmd confirm response hsize hsent hcmd hget hexists =>
    refine iff_of_true (fun _ _ => Client.decideFile_small) fun _ _ _ d hd _ => ?_
    rw [hget] at hd
    exact Or.inl (Option.some.inj hd ▸ hexists)

theorem Server.decideFile_small {path filepath : Bytes} {filesize n : Nat}
    (h : Server.decideFile path filesize = .small filepath n) : n ≤ dataBufLen := by
  unfold Server.decideFile at h
  split at h
  · rename_i hsmall
    cases h
    exact hsmall
  · cases h

theorem Server.small_le {config : Server.ServerConfig} {cmd : CmdMsg} {m m' : Server.Members}
    {tr : Trace} {dec : Server.Decision} (h : Runs (Server.decideSend config cmd) m tr dec m') :
    ∀ filepath n, dec = .small filepath n → n ≤ dataBufLen := by
  cases Server.runs_decideSend h with
  | ended result => exact fun _ _ he => by cases he
  | new filepath => exact fun _ _ => Server.decideFile_small
  | confirmed filepath question => exact fun _ _ => Server.decideFile_small

/-- Both handlers decide first and then call one of the two functions. The server calls
`receiveSmallFile` only for as many bytes as fit into the message, the client `sendSmallFile`
unless a large file meets an unforeseen reply. -/
theorem small_files_fit {filename : Bytes} {m m' : Client.Members} {tr : Trace}
    {dec : Client.Decision} (h : Runs (Client.decideSend filename) m tr dec m') :
    (Client.handleSend filename = Client.decideSend filename >>= Client.Decision.perform ∧
      ((∀ filepath n, dec = .small filepath n → n ≤ dataBufLen) ↔ Foreseen tr)) ∧
    ∀ config cmd,
      Server.handleSend config cmd = Server.decideSend config cmd >>= Server.Decision.perform ∧
      ∀ m tr dec m', Runs (Server.decideSend config cmd) m tr dec m' →
        ∀ filepath n, dec = .small filepath n → n ≤ dataBufLen :=
  ⟨⟨Client.handleSend_eq filename,Client.small_iff_foreseen h⟩,
    fun config cmd => ⟨Server.handleSend_eq config cmd,fun _ _ _ _ h => Server.small_le h⟩⟩

theorem small_files_fit_ready :
    (∀ filepath n, Client.Decision.small [97] 5 = .small filepath n → n ≤ dataBufLen) ↔
      Foreseen (answered 5 (Server.reply .READY_FOR_NEW_NAME 0)) :=
  (@small_files_fit [97] freshClient freshClient _ _
    (answered_runs 5 (show (Server.reply .READY_FOR_NEW_NAME 0).getCommand ≠ some .FILE_EXISTS by
      decide))).1.2

/-- The reply READY_FOR_NEW_NAME to a file of 3001 bytes. -/
theorem not_small_files_fit_always :
    ¬∀ (filename : Bytes) (m m' : Client.Members) (tr : Trace) (dec : Client.Decision),
      Runs (Client.decideSend filename) m tr dec m' →
        ∀ filepath n, dec = .small filepath n → n ≤ dataBufLen := by
  intro hall
  have hrun := answered_runs 3001 (show (Server.reply .READY_FOR_NEW_NAME 0).getCommand ≠
    some .FILE_EXISTS by decide)
  have hle := hall _ _ _ _ _ hrun [97] 3001 (by rw [if_neg (by decide)])
  exact absurd hle (by decide)

end NetworkLab.Backup
