import NetworkLab.Backup.Integrity
import NetworkLab.Backup.Modes
import NetworkLab.Backup.Replies
import NetworkLab.Backup.Strings
import NetworkLab.Backup.Wiring
set_option autoImplicit false

/-! What a client has sent and heard when it reports a success. -/

namespace NetworkLab.Backup
open Interaction

def deliveredBy : Event Res → Option Bytes
  | ⟨.sendto _ datagram,true⟩ => some datagram
  | _ => none

/-- The datagrams that the socket took. -/
def delivered (tr : Trace) : List Bytes := tr.filterMap deliveredBy

section Datagrams
variable {tr tr' : Trace} {dest : Addr} {d : Bytes} {ds : List Bytes}

@[simp] theorem gets_append : gets (tr ++ tr') = gets tr ++ gets tr' := List.filterMap_append

@[simp] theorem sends_append : sends (tr ++ tr') = sends tr ++ sends tr' :=
  List.filterMap_append

@[simp] theorem delivered_append : delivered (tr ++ tr') = delivered tr ++ delivered tr' :=
  List.filterMap_append

@[simp] theorem delivered_sendto {ok : Bool} :
    delivered (⟨.sendto dest d,ok⟩ :: tr) = if ok then d :: delivered tr else delivered tr := by
  cases ok <;> rfl

@[simp] theorem delivered_recvfrom {size : Nat} {r : Option (Addr × Bytes)} :
    delivered (⟨.recvfrom size,r⟩ :: tr) = delivered tr := rfl

@[simp] theorem delivered_answer {answer : Bytes} :
    delivered (⟨.answer,answer⟩ :: tr) = delivered tr := rfl

@[simp] theorem delivered_fileExists {path : Bytes} {there : Bool} :
    delivered (⟨.fileExists path,there⟩ :: tr) = delivered tr := rfl

@[simp] theorem delivered_getFileSize {path : Bytes} {filesize : Nat} :
    delivered (⟨.getFileSize path,filesize⟩ :: tr) = delivered tr := rfl

@[simp] theorem gets_fileExists {path : Bytes} {there : Bool} :
    gets (⟨.fileExists path,there⟩ :: tr) = gets tr := rfl

@[simp] theorem gets_getFileSize {path : Bytes} {filesize : Nat} :
    gets (⟨.getFileSize path,filesize⟩ :: tr) = gets tr := rfl

theorem delivered_sublist : (delivered tr).Sublist (sends tr) := by
  induction tr with
  | nil => exact .slnil
  | cons ev tr ih =>
    obtain ⟨o,r⟩ := ev
    cases o with
    | sendto dest d =>
      cases r with
      | false => exact ih.cons _
      | true => exact ih.cons_cons _
    | _ => exact ih

/-- When as many came as were sent, all did. -/
theorem eq_sends (h : ds <+: delivered tr) (hlen : (sends tr).length ≤ ds.length) :
    ds = sends tr :=
  (h.sublist.trans delivered_sublist).eq_of_length_le hlen

theorem length_le_sends (h : ds <+: delivered tr) : ds.length ≤ (sends tr).length :=
  (h.sublist.trans delivered_sublist).length_le

/-- All datagrams that are sent are whole commands. -/
def Whole (tr : Trace) : Prop := ∀ d ∈ sends tr, d.length = 137

@[simp] theorem whole_nil : Whole [] := fun _ h => by cases h

@[simp] theorem whole_append : Whole (tr ++ tr') ↔ Whole tr ∧ Whole tr' := by
  unfold Whole
  rw [sends_append,List.forall_mem_append]

@[simp] theorem whole_cons {ev : Event Res} :
    Whole (ev :: tr) ↔ (∀ d, sentBy ev = some d → d.length = 137) ∧ Whole tr := by
  unfold Whole sends
  cases he : sentBy ev with
  | none => simp [he]
  | some d => simp [he]

end Datagrams

namespace Client

variable {m m' : Members} {tr : Trace} {filename file d : Bytes} {n : Nat} {r : CmdMsg}

/-- A send that fails is no success. -/
theorem runs_sendto_success {F : ErrorCode → Handler ErrorCode}
    (h : Runs (sendto d >>= F) m tr .SUCCESS m')
    (hF : F .SOCKET_SEND_ERROR = pure .SOCKET_SEND_ERROR) :
    ∃ tr', tr = ⟨.sendto m.serverAddr d,true⟩ :: tr' ∧ Runs (F .SUCCESS) m tr' .SUCCESS m' := by
  obtain ⟨ok,tr',rfl,h'⟩ := runs_sendto_bind.mp h
  cases ok with
  | false =>
    rw [if_neg (by simp),hF] at h'
    cases (runs_pure.mp h').2.1
  | true => exact ⟨tr',rfl,h'⟩

/-- Nor is a reply that does not come. -/
theorem runs_receiveResponse_success {F : ErrorCode × CmdMsg → Handler ErrorCode}
    (h : Runs (receiveResponse r >>= F) m tr .SUCCESS m')
    (hF : F (.TIMEOUT,r) = pure .TIMEOUT) :
    ∃ sender d tr', tr = ⟨.recvfrom 137,some (sender,d)⟩ :: tr' ∧
      Runs (F (.SUCCESS,.decode (overlay r.encode d))) { m with serverAddr := sender } tr' .SUCCESS
        m' := by
  have hno : ∀ {m : Members} {tr : Trace}, ¬Runs (F (.TIMEOUT,r)) m tr .SUCCESS m' := by
    intro m tr h'
    rw [hF] at h'
    cases (runs_pure.mp h').2.1
  rcases runs_receiveResponse_bind.mp h with ⟨tr',-,h'⟩ | ⟨sender,d,tr',rfl,h'⟩
  · exact absurd h' hno
  · by_cases hd : d = []
    · rw [if_pos hd] at h'
      exact absurd h' hno
    · rw [if_neg hd] at h'
      exact ⟨sender,d,tr',rfl,h'⟩

theorem runs_receiveAck_success (h : Runs receiveAck m tr .SUCCESS m') :
    ∃ sender a, tr = [⟨.recvfrom 137,some (sender,a)⟩] ∧ Server.AckOf 0 a := by
  obtain ⟨sender,a,tr',rfl,h'⟩ := runs_receiveResponse_success h rfl
  dsimp only at h'
  rw [ite_success] at h'
  split at h'
  · rename_i hack
    obtain ⟨rfl,-,-⟩ := runs_pure.mp h'
    exact ⟨sender,a,rfl,hack⟩
  · cases (runs_pure.mp h').2.1

theorem runs_sendSmallFile_success (h : Runs (sendSmallFile filename n) m tr .SUCCESS m') :
    ∃ (data : Upto n) (sender : Addr) (a : Bytes), tr = [⟨.ifstream filename,true⟩,⟨.read n,data⟩,
      ⟨.sendto m.serverAddr (DataMsg.received data.val).toList,true⟩,
      ⟨.recvfrom 137,some (sender,a)⟩] ∧ Server.AckOf 0 a := by
  unfold sendSmallFile sendData at h
  obtain ⟨opened,tr₁,rfl,h₁⟩ := runs_ask_bind.mp h
  cases opened with
  | false => cases (runs_pure.mp h₁).2.1
  | true =>
    obtain ⟨data,tr₂,rfl,h₂⟩ := runs_ask_bind.mp h₁
    obtain ⟨tr₃,rfl,h₃⟩ := runs_sendto_success h₂ rfl
    rw [ite_success] at h₃
    obtain ⟨sender,a,rfl,hack⟩ := runs_receiveAck_success h₃
    exact ⟨data,sender,a,rfl,hack⟩

/-- The command that asks for the transfer, and the confirmation that the file shall be
replaced. -/
def sendMsg (filename : Bytes) (filesize : Nat) : CmdMsg :=
  { command .SEND (getFilename filename) with size := UInt32.ofNat filesize }

def confirmMsg (filename : Bytes) (filesize : Nat) : CmdMsg :=
  { command .OVERWRITE (getFilename filename) with size := UInt32.ofNat filesize, error := 0 }

/-- What is sent behind the command when a small file gets through, and what is heard. -/
inductive SmallSent (filename file : Bytes) : List Bytes → List Bytes → Prop where
  | new {r a : Bytes} : (CmdMsg.received r).getCommand ≠ some .FILE_EXISTS → Server.AckOf 0 a →
      SmallSent filename file [(DataMsg.received file).toList] [r,a]
  | confirmed {r q a : Bytes} : (CmdMsg.received r).getCommand = some .FILE_EXISTS →
      Server.AckOf 0 a → SmallSent filename file
        [(confirmMsg filename file.length).encode,(DataMsg.received file).toList] [r,q,a]

theorem SmallSent.ne_nil {rest heard : List Bytes} (h : SmallSent filename file rest heard) :
    [] ∉ rest := by
  have hconfirm := List.ne_nil_of_length_eq_add_one (confirmMsg filename file.length).encode_length
  cases h with
  | new => simp
  | confirmed => simpa using hconfirm.symm

theorem sendSmallFile_sent (h : Runs (sendSmallFile filename file.length) m tr .SUCCESS m')
    (hread : ReadsFrom file tr) :
    ∃ a, delivered tr = [(DataMsg.received file).toList] ∧ gets tr = [a] ∧ Server.AckOf 0 a := by
  obtain ⟨data,sender,a,rfl,hack⟩ := runs_sendSmallFile_success h
  have hdata : data.val = file.take file.length := hread.1
  rw [List.take_length] at hdata
  rw [hdata]
  exact ⟨a,rfl,rfl,hack⟩

theorem handleSend_sent (h : Runs (handleSend filename) m tr .SUCCESS m')
    (hsizes : ∀ n ∈ sizes tr, n = file.length) (hread : ReadsFrom file tr)
    (hsmall : file.length ≤ dataBufLen) :
    isValidFilename (getFilename filename) = true ∧
      ∃ rest, delivered tr = (sendMsg filename file.length).encode :: rest ∧
        SmallSent filename file rest (gets tr) := by
  have hsendFile : ∀ response, sendFile filename file.length response =
      sendSmallFile filename file.length := fun response => if_neg (Nat.not_lt.mpr hsmall)
  unfold handleSend sendCommand at h
  obtain ⟨there,tr₁,rfl,h₁⟩ := runs_ask_bind.mp h
  cases there with
  | false => cases (runs_pure.mp h₁).2.1
  | true =>
  obtain ⟨n,tr₂,rfl,h₂⟩ := runs_ask_bind.mp h₁
  obtain rfl : n = file.length := hsizes n (by simp [sizes,sizedBy])
  dsimp only at h₂
  split at h₂
  · rename_i hvalid
    refine ⟨hvalid,?_⟩
    obtain ⟨tr₃,rfl,h₃⟩ := runs_sendto_success h₂ rfl
    rw [ite_success] at h₃
    obtain ⟨sender,r,tr₄,rfl,h₄⟩ := runs_receiveResponse_success h₃ rfl
    dsimp only at h₄
    rw [ite_success,hsendFile,ite_self] at h₄
    split at h₄
    · rename_i hexists
      unfold confirmSend sendCommand at h₄
      obtain ⟨answer,tr₅,rfl,h₅⟩ := runs_ask_bind.mp h₄
      dsimp only at h₅
      obtain ⟨tr₆,rfl,h₆⟩ := runs_sendto_success h₅ rfl
      rw [ite_success] at h₆
      cases hyes : saysYes answer with
      | false =>
        rw [hyes,if_neg (by simp)] at h₆
        rcases runs_receiveResponse_bind.mp h₆ with ⟨tr₇,rfl,h₇⟩ | ⟨sender',q,tr₇,rfl,h₇⟩
        · cases (runs_pure.mp h₇).2.1
        · cases (runs_pure.mp h₇).2.1
      | true =>
        rw [hyes,if_pos rfl] at h₆
        obtain ⟨sender',q,tr₇,rfl,h₇⟩ := runs_receiveResponse_success h₆ rfl
        dsimp only at h₇
        rw [ite_success,hsendFile] at h₇
        split at h₇
        · cases (runs_pure.mp h₇).2.1
        · obtain ⟨a,hd,hg,hack⟩ := sendSmallFile_sent h₇ hread
          have hsent : SmallSent filename file [(confirmMsg filename file.length).encode,
              (DataMsg.received file).toList] [r,q,a] := .confirmed hexists hack
          refine ⟨[(confirmMsg filename file.length).encode,(DataMsg.received file).toList],?_,?_⟩
          · simp [hd,sendMsg,confirmMsg]
          · simpa [hg] using hsent
    · rename_i hno
      obtain ⟨a,hd,hg,hack⟩ := sendSmallFile_sent h₄ hread
      have hsent : SmallSent filename file [(DataMsg.received file).toList] [r,a] :=
        .new hno hack
      refine ⟨[(DataMsg.received file).toList],?_,?_⟩
      · simp [hd,sendMsg]
      · simpa [hg] using hsent
  · cases (runs_pure.mp h₂).2.1

/-- In place of an older message a whole one is there. -/
theorem decode_whole (hlen : d.length = 137) :
    CmdMsg.decode (overlay r.encode d) = CmdMsg.received d := by
  rw [CmdMsg.received,overlay_full (by simpa using hlen),overlay_full (by simpa using hlen)]

theorem runs_renameResult (h : Runs (pure (renameResult r) : Handler ErrorCode) m tr .SUCCESS m') :
    r.getCommand = some .ACK ∧ r.error = 0 := by
  obtain ⟨-,he,-⟩ := runs_pure.mp h
  unfold renameResult at he
  split at he
  · assumption
  · cases he

theorem handleRemove_heard (h : Runs (handleRemove filename) m tr .SUCCESS m') :
    ∃ a, delivered tr = [(command .REMOVE filename).encode] ∧ gets tr = [a] ∧
      Server.AckOf 0 a := by
  unfold handleRemove sendCommand at h
  obtain ⟨tr₁,rfl,h₁⟩ := runs_sendto_success h rfl
  rw [ite_success] at h₁
  obtain ⟨sender,a,tr₂,rfl,h₂⟩ := runs_receiveResponse_success h₁ rfl
  dsimp only at h₂
  rw [ite_success] at h₂
  split at h₂
  · rename_i hack
    obtain ⟨rfl,-,-⟩ := runs_pure.mp h₂
    exact ⟨a,rfl,rfl,hack⟩
  · split at h₂
    · cases (runs_pure.mp h₂).2.1
    · cases (runs_pure.mp h₂).2.1

theorem printNames_sends_nothing {data : DataMsg} {fuel offset : Nat}
    (h : Runs (printNames data fuel offset) m tr () m') : delivered tr = [] := by
  induction fuel generalizing offset m tr with
  | zero =>
    obtain ⟨rfl,-,-⟩ := runs_pure.mp h
    rfl
  | succ fuel ih =>
    rw [printNames,readString,runs_bind_assoc] at h
    obtain ⟨beyond,tr₁,rfl,h₁⟩ := runs_ask_bind.mp h
    rw [runs_pure_bind] at h₁
    split at h₁
    · obtain ⟨rfl,-,-⟩ := runs_pure.mp h₁
      rfl
    · change delivered tr₁ = []
      exact ih h₁

theorem handleLs_sent (h : Runs handleLs m tr .SUCCESS m') :
    delivered tr = [(command .LS []).encode] := by
  unfold handleLs sendCommand at h
  obtain ⟨tr₁,rfl,h₁⟩ := runs_sendto_success h rfl
  rw [ite_success] at h₁
  obtain ⟨r,tr₂,m₁,rfl,-,hr⟩ := runs_receiveData_bind h₁
  have hprinted : delivered tr₂ = [] := by
    rcases hr with ⟨-,h₂⟩ | ⟨sender,d,-,h₂⟩
    · cases (runs_pure.mp h₂).2.1
    · dsimp only at h₂
      rw [ite_success] at h₂
      split at h₂
      · obtain ⟨rfl,-,-⟩ := runs_pure.mp h₂
        rfl
      · obtain ⟨⟨⟩,m₂,tr₃,tr₄,hwalk,hend,rfl⟩ := runs_bind.mp h₂
        obtain ⟨rfl,-,-⟩ := runs_pure.mp hend
        rw [List.append_nil]
        exact printNames_sends_nothing hwalk
  simp [hprinted]

theorem handleShutdown_sent (h : Runs handleShutdown m tr .SUCCESS m') :
    delivered tr = [(command .SHUTDOWN []).encode] := by
  unfold handleShutdown sendCommand sendto at h
  obtain ⟨ok,tr₁,rfl,h₁⟩ := runs_ask_bind.mp (runs_get_bind.mp h)
  cases ok with
  | false => cases (runs_pure.mp h₁).2.1
  | true =>
    obtain ⟨rfl,-,-⟩ := runs_pure.mp h₁
    rfl

/-- A reply that came whole is a good one. -/
def GoodAck (a : Bytes) : Prop := a.length = 137 → Server.AckOf 0 a

/-- What is sent behind the command of a rename that succeeds, and what is heard. A first reply
that is no acknowledgement may come before the new name is sent. -/
inductive RenameSent (newName : Bytes) : List Bytes → List Bytes → Prop where
  | old {a : Bytes} : GoodAck a → RenameSent newName [] [a]
  | answered {ready : Option Bytes} {a : Bytes} :
      (∀ r ∈ ready, (CmdMsg.received r).getCommand ≠ some .ACK) → GoodAck a →
      RenameSent newName [(DataMsg.setData newName).toList] (ready.toList ++ [a])
  | confirmed {ready : Option Bytes} {confirm q a : Bytes} :
      (∀ r ∈ ready, (CmdMsg.received r).getCommand ≠ some .ACK) → confirm ≠ [] →
      (CmdMsg.received q).getCommand = some .FILE_EXISTS → GoodAck a →
      RenameSent newName [(DataMsg.setData newName).toList,confirm] (ready.toList ++ [q,a])

theorem confirmRename_sent (h : Runs (confirmRename r) m tr .SUCCESS m') :
    ∃ confirm a, delivered tr = [confirm] ∧ confirm ≠ [] ∧ gets tr = [a] ∧ GoodAck a := by
  unfold confirmRename sendCommand at h
  obtain ⟨answer,tr₁,rfl,h₁⟩ := runs_ask_bind.mp h
  dsimp only at h₁
  obtain ⟨tr₂,rfl,h₂⟩ := runs_sendto_success h₁ rfl
  rw [ite_success] at h₂
  obtain ⟨sender,a,tr₃,rfl,h₃⟩ := runs_receiveResponse_success h₂ rfl
  dsimp only at h₃
  rw [ite_success] at h₃
  split at h₃
  · cases (runs_pure.mp h₃).2.1
  · obtain ⟨rfl,-,-⟩ := runs_pure.mp h₃
    refine ⟨_,a,rfl,List.ne_nil_of_length_eq_add_one (CmdMsg.encode_length _),rfl,fun hlen => ?_⟩
    rw [decode_whole hlen] at h₃
    exact runs_renameResult h₃

/-- `ready` has come before. -/
theorem sendNewName_sent {newName : Bytes} {ready : Option Bytes}
    (hready : ∀ r ∈ ready, (CmdMsg.received r).getCommand ≠ some .ACK)
    (h : Runs (sendNewName newName) m tr .SUCCESS m') :
    RenameSent newName (delivered tr) (ready.toList ++ gets tr) := by
  unfold sendNewName sendData at h
  obtain ⟨tr₁,rfl,h₁⟩ := runs_sendto_success h rfl
  rw [ite_success] at h₁
  obtain ⟨sender,q,tr₂,rfl,h₂⟩ := runs_receiveResponse_success h₁ rfl
  dsimp only at h₂
  rw [ite_success] at h₂
  split at h₂
  · cases (runs_pure.mp h₂).2.1
  · split at h₂
    · rename_i hexists
      obtain ⟨confirm,a,hd,hne,hg,hack⟩ := confirmRename_sent h₂
      have hsent : RenameSent newName [(DataMsg.setData newName).toList,confirm]
          (ready.toList ++ [q,a]) := .confirmed hready hne hexists hack
      simpa [hd,hg] using hsent
    · obtain ⟨rfl,-,-⟩ := runs_pure.mp h₂
      exact .answered hready fun _ => runs_renameResult h₂

theorem handleRename_sent {config : ClientConfig} {newName : Bytes}
    (h : Runs (handleRename config filename newName) m tr .SUCCESS m') :
    ∃ rest, delivered tr = (command .RENAME filename).encode :: rest ∧
      RenameSent newName rest (gets tr) := by
  unfold handleRename sendCommand at h
  obtain ⟨tr₁,rfl,h₁⟩ := runs_sendto_success h rfl
  rw [ite_success] at h₁
  split at h₁
  · obtain ⟨sender,r,tr₂,rfl,h₂⟩ := runs_receiveResponse_success h₁ rfl
    dsimp only at h₂
    rw [ite_success] at h₂
    split at h₂
    · rename_i hcmd
      obtain ⟨rfl,he,-⟩ := runs_pure.mp h₂
      split at he
      · rename_i herror
        exact ⟨[],rfl,.old fun _ => ⟨hcmd,herror⟩⟩
      · cases he
    · rename_i hcmd
      have hready : ∀ d ∈ some r, (CmdMsg.received d).getCommand ≠ some .ACK := by
        rintro d ⟨⟩
        exact hcmd
      exact ⟨_,rfl,sendNewName_sent hready h₂⟩
  · have hready : ∀ d ∈ (none : Option Bytes),
        (CmdMsg.received d).getCommand ≠ some .ACK := fun d hd => (by cases hd)
    exact ⟨_,rfl,sendNewName_sent hready h₁⟩

section RenameSent
variable {newName : Bytes} {rest heard : List Bytes}

/-- The new name is sent first. -/
theorem RenameSent.head (h : RenameSent newName rest heard) :
    ∀ d, rest.head? = some d → d = (DataMsg.setData newName).toList := by
  intro d hd
  cases h with
  | old => cases hd
  | answered => exact (Option.some.inj hd).symm
  | confirmed => exact (Option.some.inj hd).symm

theorem RenameSent.good (h : RenameSent newName rest heard) : ∃ a ∈ heard, GoodAck a := by
  cases h with
  | old hack => exact ⟨_,List.mem_cons_self,hack⟩
  | answered _ hack => exact ⟨_,List.mem_append_right _ (List.mem_singleton_self _),hack⟩
  | confirmed _ _ _ hack => exact ⟨_,List.mem_append_right _ (by simp),hack⟩

theorem RenameSent.length_le (h : RenameSent newName rest heard) : rest.length ≤ 2 := by
  cases h <;> simp

theorem RenameSent.ne_nil (h : RenameSent newName rest heard) : [] ∉ rest := by
  cases h with
  | old => exact List.not_mem_nil
  | answered => simp
  | confirmed _ hne => simpa using hne

end RenameSent

end Client

end NetworkLab.Backup
