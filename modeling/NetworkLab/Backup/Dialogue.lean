import NetworkLab.Backup.Wiring
set_option autoImplicit false

/-! For every command, the handler of the client and that of the server fit together: each
reply is read, and each datagram that follows the command is asked for. -/

namespace NetworkLab.Backup
open Interaction

section Dialogue
variable {setup : Setup} {turn : Nat} {g : Bool} {calls : List (Event Res)}
variable {m : Server.Members} {cm : Client.Members} {K : ErrorCode → Server.Handler Bool}
variable (hK : ∀ g e m, Quiet (wiring setup turn) g (K e m))
include hK

theorem fits_remove {filename : Bytes} (hm : m.currentClientAddr = setup.clientAddr)
    {F : ErrorCode × CmdMsg → Client.Handler ErrorCode} {e : UInt16 → ErrorCode}
    (hF : ∀ error, F (.SUCCESS,Server.reply .ACK error) = pure (e error))
    (he : ∀ error, e error = .SUCCESS → error = 0) :
    Fits setup turn (.remove filename) ((Client.receiveResponse .new >>= F) cm) g []
      ((Server.handleRemove setup.server (Client.command .REMOVE filename) >>= K) m) calls [] := by
  have hlast : ∀ {calls} (error : UInt16),
      (error = 0 → ⟨.deleteFile (joinPath setup.server.backupDir (wireName filename)),true⟩ ∈ calls) →
      Fits setup turn (.remove filename) ((Client.receiveResponse .new >>= F) cm) g []
        ((Server.sendResponse (Server.reply .ACK error) >>= K) m) calls [] :=
    fun error hdone => Fits.last hK hm (hF error) fun hok =>
      List.mem_append_left _ (hdone (he error hok))
  simp only [Server.handleRemove,bind_assoc]
  refine Fits.serverReads waiting_receiveResponse (fun beyond => cString_tail beyond rfl)
    fun beyond => Fits.serverValidates waiting_receiveResponse (fun _ calls => ?_) fun _ => ?_
  · simp only [↓reduceIte,bind_assoc]
    refine Fits.serverAsks waiting_receiveResponse rfl fun found _ => ?_
    cases found with
    | false => exact hlast 1 fun h => absurd h (by decide)
    | true =>
      simp only [↓reduceIte,bind_assoc]
      refine Fits.serverAsks waiting_receiveResponse rfl fun deleted _ => ?_
      cases deleted with
      | false => exact hlast 1 fun h => absurd h (by decide)
      | true => exact hlast 0 fun _ => List.mem_append_right _ (List.mem_singleton_self _)
  · exact hlast ErrorCode.INVALID_FILENAME.value fun h => absurd h (by decide)

omit hK in
theorem renameResult_success {error : UInt16}
    (h : Client.renameResult (Server.reply .ACK error) = .SUCCESS) : error = 0 := by
  unfold Client.renameResult at h
  split at h
  · rename_i hack
    exact hack.2
  · cases h

section Rename
variable {oldName newName : Bytes} {F : ErrorCode × CmdMsg → Client.Handler ErrorCode}
variable {e : UInt16 → ErrorCode} {r : CmdMsg}

theorem fits_renameReply {error : UInt16} (hm : m.currentClientAddr = setup.clientAddr)
    (hF : F (.SUCCESS,Server.reply .ACK error) = pure (e error))
    (he : e error = .SUCCESS → error = 0)
    (hdone : error = 0 → ⟨.renameFile (joinPath setup.server.backupDir (wireName oldName))
      (joinPath setup.server.backupDir (wireNewName newName)),true⟩ ∈ calls) :
    Fits setup turn (.rename oldName newName) ((Client.receiveResponse r >>= F) cm) g []
      ((Server.sendResponse (Server.reply .ACK error) >>= K) m) calls [] :=
  Fits.last hK hm hF fun hok => List.mem_append_left _ (hdone (he hok))

theorem fits_performRename (hm : m.currentClientAddr = setup.clientAddr)
    (hF : ∀ error, F (.SUCCESS,Server.reply .ACK error) = pure (e error))
    (he : ∀ error, e error = .SUCCESS → error = 0) :
    Fits setup turn (.rename oldName newName) ((Client.receiveResponse r >>= F) cm) g []
      ((Server.performRename (joinPath setup.server.backupDir (wireName oldName))
        (joinPath setup.server.backupDir (wireNewName newName)) >>= K) m) calls [] := by
  simp only [Server.performRename,bind_assoc]
  refine Fits.serverAsks waiting_receiveResponse rfl fun renamed _ => ?_
  cases renamed with
  | false => exact fits_renameReply hK hm (hF 1) (he 1) fun h => absurd h (by decide)
  | true =>
    exact fits_renameReply hK hm (hF 0) (he 0) fun _ =>
      List.mem_append_right _ (List.mem_singleton_self _)

/-- The new name is taken: the user is asked. -/
theorem fits_confirmRename (hm : m.currentClientAddr = setup.clientAddr)
    (hF : F (.SUCCESS,Server.reply .FILE_EXISTS 0) =
      Client.confirmRename (Server.reply .FILE_EXISTS 0)) :
    Fits setup turn (.rename oldName newName) ((Client.receiveResponse r >>= F) cm) g []
      ((Server.confirmRename (joinPath setup.server.backupDir (wireName oldName))
        (joinPath setup.server.backupDir (wireNewName newName)) >>= K) m) calls [] := by
  simp only [Server.confirmRename,bind_assoc]
  refine Fits.serverSends waiting_receiveResponse hm (Fits.reply ?_)
  rw [hF]
  refine .inner rfl fun answer _ => Fits.clientSends rfl ?_
  refine Fits.serverTakes ⟨_,_,_,rfl,rfl⟩ (.confirm rfl) (CmdMsg.encode_length _) ?_
  dsimp only
  rw [ite_confirmation rfl]
  cases hyes : Client.saysYes answer with
  | false =>
    refine Fits.last hK rfl (e := .CANCELLED) rfl fun hok => ?_
    cases hok
  | true =>
    simp only [↓reduceIte,bind_assoc]
    refine Fits.serverAsks ⟨_,_,_,rfl,rfl⟩ rfl fun deleted _ => ?_
    refine fits_performRename hK rfl (e := fun error =>
      if error = 2 then .CANCELLED else Client.renameResult (Server.reply .ACK error))
      (fun error => ?_) fun error he => ?_
    · change (if error = 2 then pure .CANCELLED else pure _ : Client.Handler ErrorCode) = _
      split <;> rfl
    · by_cases h2 : error = 2
      · rw [if_pos h2] at he
        cases he
      · rw [if_neg h2] at he
        exact renameResult_success he

/-- The server has the new name. -/
theorem fits_newName
    (hF : ∀ error, F (.SUCCESS,Server.reply .ACK error) = pure (e error))
    (he : ∀ error, e error = .SUCCESS → error = 0)
    (hF' : F (.SUCCESS,Server.reply .FILE_EXISTS 0) =
      Client.confirmRename (Server.reply .FILE_EXISTS 0)) :
    Fits setup turn (.rename oldName newName) ((Client.receiveResponse r >>= F) cm) g
      [(turn,(DataMsg.setData newName).toList)]
      ((Server.receiveNewName setup.server (joinPath setup.server.backupDir (wireName oldName)) >>=
        K) m) calls [] := by
  simp only [Server.receiveNewName,bind_assoc]
  refine Fits.serverTakes waiting_receiveResponse (.data _) (by simp) ?_
  have hne : (DataMsg.setData newName).toList ≠ [] := by simp
  dsimp only
  rw [if_neg hne,DataMsg.received_toList]
  simp only [bind_assoc]
  refine Fits.serverReads waiting_receiveResponse (fun beyond => cString_setData newName beyond)
    fun beyond => Fits.serverValidates waiting_receiveResponse (fun _ calls => ?_) fun _ => ?_
  · simp only [↓reduceIte,bind_assoc]
    refine Fits.serverAsks waiting_receiveResponse rfl fun found _ => ?_
    cases found with
    | false => exact fits_performRename hK rfl hF he
    | true => exact fits_confirmRename hK rfl hF'
  · exact fits_renameReply hK rfl (hF _) (he _) fun h => absurd h (by decide)

/-- With the handshake on the client's side, whatever the server's. -/
theorem fits_rename (hm : m.currentClientAddr = setup.clientAddr)
    (hF : ∀ error, F (.SUCCESS,Server.reply .ACK error) = pure (e error))
    (he : ∀ error, e error = .SUCCESS → error = 0)
    (hF' : F (.SUCCESS,Server.reply .READY_FOR_NEW_NAME 0) = Client.sendNewName newName) :
    Fits setup turn (.rename oldName newName) ((Client.receiveResponse r >>= F) cm) g []
      ((Server.handleRename setup.server (Client.command .RENAME oldName) >>= K) m) calls [] := by
  simp only [Server.handleRename,bind_assoc]
  refine Fits.serverReads waiting_receiveResponse (fun beyond => cString_tail beyond rfl)
    fun beyond => Fits.serverValidates waiting_receiveResponse (fun _ calls => ?_) fun _ => ?_
  · simp only [↓reduceIte,bind_assoc]
    refine Fits.serverAsks waiting_receiveResponse rfl fun found _ => ?_
    cases found with
    | false => exact fits_renameReply hK hm (hF _) (he _) fun h => absurd h (by decide)
    | true =>
      simp only [↓reduceIte]
      cases hs : setup.server.enableHandshake with
      | false =>
        -- both wait for each other
        simp only [Bool.false_eq_true,↓reduceIte]
        exact .deadlock waiting_receiveResponse ⟨_,_,_,rfl,rfl⟩
      | true =>
        simp only [↓reduceIte,bind_assoc]
        refine Fits.serverSends waiting_receiveResponse hm (Fits.reply ?_)
        rw [hF']
        refine Fits.clientSends rfl ?_
        refine fits_newName hK (e := fun error => if error = 1 then .FILE_NOT_FOUND
          else Client.renameResult (Server.reply .ACK error)) (fun error => ?_)
          (fun error he => ?_) rfl
        · by_cases h1 : error = 1
          · subst h1
            simp
          · simp [h1]
        · by_cases h1 : error = 1
          · rw [if_pos h1] at he
            cases he
          · rw [if_neg h1] at he
            exact renameResult_success he
  · exact fits_renameReply hK hm (hF _) (he _) fun h => absurd h (by decide)

end Rename

omit hK in
/-- The client prints the names and asks nobody. -/
theorem fits_printNames {q : Prog Res (Bool × Server.Members)} (hq : Quiet (wiring setup turn) g q)
    {data : DataMsg} {fuel offset : Nat} (hcm : cm.serverAddr = setup.serverAddr) :
    Fits setup turn .ls ((Client.printNames data fuel offset >>= fun _ => pure .SUCCESS) cm) g []
      q calls [] := by
  induction fuel generalizing offset cm with
  | zero => exact .ret ⟨hcm,trivial⟩ hq
  | succ fuel ih =>
    simp only [Client.printNames,bind_assoc]
    refine .inner rfl fun beyond _ => ?_
    change Fits setup turn .ls (((if cString (data.toList.drop offset ++ beyond) = [] then pure ()
      else _ : Client.Handler Unit) >>= fun _ => pure .SUCCESS) cm) g [] q calls []
    split
    · exact .ret ⟨hcm,trivial⟩ hq
    · exact ih hcm

theorem fits_ls (hm : m.currentClientAddr = setup.clientAddr)
    {F : ErrorCode × DataMsg → Client.Handler ErrorCode}
    (hF : ∀ data, F (.SUCCESS,data) = if data.toList.head? = some 0 then pure .SUCCESS
      else Client.printNames data 3000 0 >>= fun _ => pure .SUCCESS) :
    Fits setup turn .ls ((Client.receiveData >>= F) cm) g []
      ((Server.handleLs setup.server >>= K) m) calls [] := by
  have hp : ∀ {cm : Client.Members}, Waiting (udp setup.serverAddr turn)
      ((Client.receiveData >>= F) cm) := ⟨_,_,_,rfl,rfl⟩
  simp only [Server.handleLs,Server.sendDataResponse,listDirectory,bind_assoc,pure_bind]
  refine Fits.serverAsks hp rfl fun names _ => Fits.serverSends hp hm (Fits.replyData ?_)
  rw [hF]
  split
  · exact .ret ⟨rfl,trivial⟩ (hK _ _ _)
  · exact fits_printNames (hK _ _ _) rfl

section Send
variable {filename filepath : Bytes} {filesize n : Nat} {r : CmdMsg}
variable {F : ErrorCode × CmdMsg → Client.Handler ErrorCode}

omit hK in
/-- The last acknowledgement of a transfer. -/
theorem fits_receiveAck {msg : CmdMsg} (hK : ∀ g e m, Quiet (wiring setup turn) g (K e m))
    (hm : m.currentClientAddr = setup.clientAddr) :
    Fits setup turn (.send filename) (Client.receiveAck cm) g []
      ((Server.sendResponse msg >>= K) m) calls [] :=
  Fits.last (F := fun response => if response.1 ≠ .SUCCESS then pure response.1
      else if response.2.getCommand = some .ACK ∧ response.2.error = 0 then pure .SUCCESS
        else pure .FILE_WRITE_ERROR)
    (e := if msg.getCommand = some .ACK ∧ msg.error = 0 then .SUCCESS else .FILE_WRITE_ERROR)
    hK hm (by dsimp only; rw [if_neg (by simp)]; split <;> rfl) trivial

theorem fits_smallFile (hsmall : filesize ≤ dataBufLen)
    (hm : m.currentClientAddr = setup.clientAddr)
    (hF : ∀ msg : CmdMsg, msg.getCommand = some .ACK →
      F (.SUCCESS,msg) = Client.sendFile filename filesize msg) :
    Fits setup turn (.send filename) ((Client.receiveResponse r >>= F) cm) g []
      ((Server.receiveSmallFile filepath n >>= K) m) calls [] := by
  simp only [Server.receiveSmallFile,bind_assoc]
  refine Fits.serverSends waiting_receiveResponse hm (Fits.reply ?_)
  rw [hF _ rfl,Client.sendFile,if_neg (by omega)]
  refine .inner rfl fun opened hopened => ?_
  obtain rfl : opened = true := hopened
  refine .inner rfl fun data _ => Fits.clientSends rfl ?_
  have hp : ∀ {cm : Client.Members}, Waiting (udp setup.serverAddr turn)
      (Client.receiveAck cm) := ⟨_,_,_,rfl,rfl⟩
  refine Fits.serverTakes hp (.data _) (by simp) ?_
  have hne : (DataMsg.received data.val).toList ≠ [] := by simp
  dsimp only
  rw [if_neg hne]
  simp only [bind_assoc]
  refine Fits.serverAsks hp rfl fun opened _ => ?_
  cases opened with
  | false =>
    simp only [Bool.false_eq_true,↓reduceIte,bind_assoc,pure_bind]
    exact fits_receiveAck (fun g _ m => hK g _ m) rfl
  | true =>
    simp only [Server.writeStream,↓reduceIte,bind_assoc,pure_bind]
    refine Fits.serverAsks hp rfl fun stored _ => Fits.serverAsks hp rfl fun _ _ =>
      Fits.serverAsks hp rfl fun _ _ => ?_
    exact fits_receiveAck hK rfl

omit hK in
/-- The client has connected and sends the rest of the file. -/
theorem fits_sendChunks {fuel bytesSent : Nat} {buffer : Bytes}
    {q : Prog Res (Bool × Server.Members)}
    (h : ∀ {cm : Client.Members}, cm.serverAddr = setup.serverAddr →
      Fits setup turn (.send filename) (Client.receiveAck cm) g [] q calls [])
    (hcm : cm.serverAddr = setup.serverAddr) (hbuffer : buffer.length = 3000) :
    Fits setup turn (.send filename) ((Client.sendChunks filesize fuel buffer bytesSent >>= fun ok =>
      if ok then Client.receiveAck else pure .SOCKET_SEND_ERROR) cm) g [] q calls [] := by
  induction fuel generalizing buffer bytesSent with
  | zero => exact h hcm
  | succ fuel ih =>
    unfold Client.sendChunks
    by_cases hmore : bytesSent < filesize
    · rw [if_pos hmore]
      simp only [bind_assoc]
      refine .inner rfl fun data _ => .inner rfl fun sent hsent => ?_
      have hlen : (overlay buffer data.val).length = 3000 := by rw [overlay_length,hbuffer]
      have hne : (overlay buffer data.val).take (min 3000 (filesize - bytesSent)) ≠ [] := by
        rw [← List.length_pos_iff,List.length_take,hlen]
        omega
      cases sent with
      | none => cases hsent hne
      | some sent => exact ih hlen
    · rw [if_neg hmore]
      exact h hcm

omit hK in
/-- The server receives the file, which the client has sent. -/
theorem fits_receiveChunks {p : Prog Res (ErrorCode × Client.Members)} {fuel total : Nat}
    {good : Bool} {J : Nat → Server.Handler Bool} {c : ClientCommand}
    (hp : Waiting (udp setup.serverAddr turn) p)
    (h : ∀ total calls, Fits setup turn c p g [] (J total m) calls []) :
    Fits setup turn c p g []
      ((Server.receiveChunks filepath n fuel good total >>= J) m) calls [] := by
  induction fuel generalizing good total calls with
  | zero => exact h _ _
  | succ fuel ih =>
    unfold Server.receiveChunks
    by_cases hmore : total < n
    · rw [if_pos hmore]
      simp only [bind_assoc]
      refine Fits.serverAsks hp rfl fun received _ => ?_
      cases received with
      | none => exact h _ _
      | some chunk =>
        simp only [bind_assoc]
        cases good with
        | false =>
          simp only [Server.writeStream,Bool.false_eq_true,↓reduceIte,pure_bind]
          exact ih
        | true =>
          simp only [Server.writeStream,↓reduceIte,bind_assoc,pure_bind]
          exact Fits.serverAsks hp rfl fun stored _ => ih
    · rw [if_neg hmore]
      exact h _ _

/-- The server waits for the connection. -/
def acceptFile (filepath : Bytes) (n : Nat) (ackMsg : CmdMsg) : Server.Handler ErrorCode := do
  if ← ask .accept then
    if ← ask (.ofstream filepath) then do
      let totalBytes ← Server.receiveChunks filepath n n true 0
      ask (.metric (.recordBytesReceived totalBytes))
      ask (.metric .recordSendSession)
      modify fun m => { m with currentTcpPort := m.currentTcpPort + 1 }
      Server.sendResponse ackMsg
    else pure .FILE_OPEN_ERROR
  else pure .SOCKET_ACCEPT_ERROR

/-- Without a connection it waits in vain. -/
theorem quiet_acceptFile (filepath : Bytes) (n : Nat) (ackMsg : CmdMsg) (m : Server.Members) :
    Quiet (wiring setup turn) false ((acceptFile filepath n ackMsg >>= K) m) := by
  refine .inner rfl fun accepted haccepted => ?_
  cases accepted with
  | false => exact hK _ _ _
  | true => cases haccepted rfl

theorem fits_acceptFile {ackMsg : CmdMsg} (hm : m.currentClientAddr = setup.clientAddr) :
    Fits setup turn (.send filename) (Client.receiveAck cm) g []
      ((acceptFile filepath n ackMsg >>= K) m) calls [] := by
  have hp : ∀ {cm : Client.Members}, Waiting (udp setup.serverAddr turn)
      (Client.receiveAck cm) := ⟨_,_,_,rfl,rfl⟩
  simp only [acceptFile,bind_assoc]
  refine Fits.serverAsks hp rfl fun accepted _ => ?_
  cases accepted with
  | false => exact Fits.quiet hp (hK _ _ _)
  | true =>
    simp only [↓reduceIte,bind_assoc]
    refine Fits.serverAsks hp rfl fun opened _ => ?_
    cases opened with
    | false => exact Fits.quiet hp (hK _ _ _)
    | true =>
      simp only [↓reduceIte,bind_assoc]
      refine fits_receiveChunks hp fun total calls => ?_
      refine Fits.serverAsks hp rfl fun _ _ => Fits.serverAsks hp rfl fun _ _ => ?_
      exact fits_receiveAck hK (m := { m with currentTcpPort := m.currentTcpPort + 1 }) hm

theorem fits_largeFile (hlarge : dataBufLen < filesize)
    (hm : m.currentClientAddr = setup.clientAddr)
    (hF : ∀ msg : CmdMsg, msg.getCommand = some .ACK →
      F (.SUCCESS,msg) = Client.sendFile filename filesize msg) :
    Fits setup turn (.send filename) ((Client.receiveResponse r >>= F) cm) false []
      ((Server.receiveLargeFile filepath n >>= K) m) calls [] := by
  have hp : ∀ {cm : Client.Members}, Waiting (udp setup.serverAddr turn)
      ((Client.receiveResponse r >>= F) cm) := ⟨_,_,_,rfl,rfl⟩
  simp only [Server.receiveLargeFile,bind_assoc]
  refine Fits.serverAsks hp rfl fun made _ => ?_
  cases made with
  | false => exact Fits.quiet hp (hK _ _ _)
  | true =>
    simp only [↓reduceIte,bind_assoc]
    refine Fits.serverAsks hp rfl fun bound _ => ?_
    cases bound with
    | false => exact Fits.quiet hp (hK _ _ _)
    | true =>
      simp only [↓reduceIte,bind_assoc]
      refine Fits.serverAsks hp rfl fun listens _ => ?_
      cases listens with
      | false => exact Fits.quiet hp (hK _ _ _)
      | true =>
        simp only [↓reduceIte,bind_assoc]
        refine Fits.serverSends hp hm (Fits.reply ?_)
        rw [hF _ rfl,Client.sendFile,if_pos hlarge]
        have hquiet := quiet_acceptFile hK filepath n
          { Server.reply .ACK 0 with size := m.currentTcpPort.toUInt32 } m
        simp only [Client.sendLargeFile]
        refine .inner rfl fun made _ => ?_
        cases made with
        | false => exact .ret ⟨rfl,trivial⟩ hquiet
        | true =>
          refine .inner rfl fun connected _ => ?_
          cases connected with
          | false => exact .ret ⟨rfl,trivial⟩ hquiet
          | true =>
            refine .inner rfl fun opened hopened => ?_
            obtain rfl : opened = true := hopened
            refine .inner rfl fun buffer _ => ?_
            exact fits_sendChunks (fun hcm => fits_acceptFile hK hm) rfl buffer.2

theorem fits_receiveFile (hsize : n ≤ dataBufLen ↔ filesize ≤ dataBufLen)
    (hm : m.currentClientAddr = setup.clientAddr)
    (hF : ∀ msg : CmdMsg, msg.getCommand = some .ACK →
      F (.SUCCESS,msg) = Client.sendFile filename filesize msg) :
    Fits setup turn (.send filename) ((Client.receiveResponse r >>= F) cm) false []
      ((Server.receiveFile filepath n >>= K) m) calls [] := by
  unfold Server.receiveFile
  split
  · rename_i hsmall
    exact fits_smallFile hK (hsize.mp hsmall) hm hF
  · rename_i hlarge
    exact fits_largeFile hK (Nat.not_le.mp fun hsmall => hlarge (hsize.mpr hsmall)) hm hF

/-- The file exists: the user is asked. -/
theorem fits_confirmSend {cmd : CmdMsg}
    (hsize : (UInt32.ofNat filesize).toNat ≤ dataBufLen ↔ filesize ≤ dataBufLen)
    (hm : m.currentClientAddr = setup.clientAddr)
    (hF : F (.SUCCESS,{ Server.reply .FILE_EXISTS 0 with size := cmd.size }) =
      Client.confirmSend filename (getFilename filename) filesize
        { Server.reply .FILE_EXISTS 0 with size := cmd.size }) :
    Fits setup turn (.send filename) ((Client.receiveResponse r >>= F) cm) false []
      ((Server.confirmSend setup.server cmd >>= K) m) calls [] := by
  simp only [Server.confirmSend,bind_assoc]
  refine Fits.serverSends waiting_receiveResponse hm (Fits.reply ?_)
  rw [hF,ite_success,bind_assoc]
  refine .inner rfl fun answer _ => Fits.clientSends rfl ?_
  cases hyes : Client.saysYes answer with
  | false =>
    refine Fits.serverTakes ⟨_,_,_,rfl,rfl⟩ (.confirm rfl) (CmdMsg.encode_length _) ?_
    dsimp only
    rw [ite_confirmation rfl]
    exact Fits.last hK rfl (e := .CANCELLED) rfl trivial
  | true =>
    refine Fits.serverTakes ⟨_,_,_,rfl,rfl⟩ (.confirm rfl) (CmdMsg.encode_length _) ?_
    dsimp only
    rw [ite_confirmation rfl]
    rw [CmdMsg.received_encode]
    simp only [↓reduceIte,bind_assoc]
    refine Fits.serverReads ⟨_,_,_,rfl,rfl⟩ (fun beyond => cString_tail beyond rfl) fun _ => ?_
    refine fits_receiveFile hK hsize rfl fun msg hack => ?_
    exact (ite_success _ _).trans (if_neg (not_not.mpr hack))

theorem fits_send (hvalid : isValidFilename (getFilename filename) = true)
    (hsize : (UInt32.ofNat filesize).toNat ≤ dataBufLen ↔ filesize ≤ dataBufLen)
    (hm : m.currentClientAddr = setup.clientAddr)
    (hF : ∀ msg : CmdMsg, msg.getCommand = some .ACK →
      F (.SUCCESS,msg) = Client.sendFile filename filesize msg)
    (hF' : ∀ msg : CmdMsg, msg.getCommand = some .FILE_EXISTS →
      F (.SUCCESS,msg) = Client.confirmSend filename (getFilename filename) filesize msg) :
    Fits setup turn (.send filename) ((Client.receiveResponse r >>= F) cm) false []
      ((Server.handleSend setup.server { Client.command .SEND (getFilename filename) with
        size := UInt32.ofNat filesize } >>= K) m) calls [] := by
  have hwire : isValidFilename (wireName (getFilename filename)) = true := by
    rw [wireName,cString_eq_self (valid_iff.mp hvalid).2.2.2.2.2.2.1]
    exact valid_take hvalid
  simp only [Server.handleSend,bind_assoc]
  refine Fits.serverReads waiting_receiveResponse (fun beyond => cString_tail beyond rfl)
    fun beyond => Fits.serverValidates waiting_receiveResponse (fun _ calls => ?_) fun hno => ?_
  · simp only [↓reduceIte,bind_assoc]
    refine Fits.serverAsks waiting_receiveResponse rfl fun found _ => ?_
    cases found with
    | false => exact fits_receiveFile hK hsize hm hF
    | true => exact fits_confirmSend hK hsize hm (hF' _ rfl)
  · cases hno.symm.trans hwire

end Send

end Dialogue

section Handlers
variable {setup : Setup} {turn : Nat} {cm : Client.Members}

/-- The command is no follow-up, and the server's handler for it fits to the client that
waits. -/
structure Served (setup : Setup) (turn : Nat) (c : ClientCommand) (d : Tagged)
    (p : Prog Res (ErrorCode × Client.Members)) (g : Bool) : Prop where
  turn_eq : d.1 = turn
  ne_nil : d.2 ≠ []
  command : ¬FollowUp d.2
  fits : ∀ m : Server.Members, m.currentClientAddr = setup.clientAddr →
    Fits setup turn c p g [] (Server.dispatch setup.server d.2 m) [] []

/-- The client sends its command and waits for a response. -/
theorem opens_command {c : ClientCommand} {cmd : CmdMsg} {k : Command}
    (state : Server.ServerState) {g : Bool} {G : ErrorCode × CmdMsg → Client.Handler ErrorCode}
    {f : Server.Handler ErrorCode}
    (hcm : cm.serverAddr = setup.serverAddr) (hcmd : cmd.getCommand = some k)
    (hk : k ≠ .OVERWRITE)
    (hf : Server.handleCommand setup.server cmd = Server.setState state >>= fun _ => f)
    (h : ∀ (m : Server.Members) (calls : List (Event Res)),
      m.currentClientAddr = setup.clientAddr →
      Fits setup turn c ((Client.receiveResponse .new >>= G) cm) g []
        ((f >>= afterCommand cmd) m) calls []) :
    Opens (wiring setup turn) (fun a => Ends setup c a []) (Served setup turn c)
      ((Client.sendCommand cmd >>= fun result => if result ≠ .SUCCESS then pure result
        else Client.receiveResponse .new >>= G) cm) g := by
  have hnot : ¬FollowUp cmd.encode := by
    refine not_followUp ?_
    rw [hcmd]
    exact fun h => hk (Option.some.inj h)
  refine .out (if_pos hcm) ⟨_,_,_,rfl,rfl⟩ ⟨rfl,List.cons_ne_nil _ _,hnot,fun m hm => ?_⟩
  change Fits setup turn c ((Client.receiveResponse .new >>= G) cm) g []
    (Server.dispatch setup.server cmd.encode m) [] []
  rw [dispatch_encode,hf]
  exact Fits.serverAsks waiting_receiveResponse rfl fun _ _ => h { m with state := state } _ hm

/-- Every command but shutdown, with the handshake for a rename. -/
theorem opens_handler {c : ClientCommand} (hcm : cm.serverAddr = setup.serverAddr)
    (hc : c ≠ .shutdown)
    (hrename : ∀ oldName newName, c = .rename oldName newName →
      setup.client.enableHandshake = true) :
    Opens (wiring setup turn) (fun a => Ends setup c a []) (Served setup turn c)
      (c.handler setup.client cm) false := by
  cases c with
  | ls =>
    refine .out (if_pos hcm) ⟨_,_,_,rfl,rfl⟩ 
      ⟨rfl,List.cons_ne_nil _ _,not_followUp (by decide),fun m hm => ?_⟩
    rw [dispatch_encode]
    refine Fits.serverAsks ⟨_,_,_,rfl,rfl⟩ rfl fun _ _ => ?_
    exact fits_ls quiet_afterCommand (m := { m with state := .PROCESS_LS }) hm fun data => rfl
  | send filename =>
    refine .inner rfl fun found _ => ?_
    cases found with
    | false => exact .ret ⟨hcm,trivial⟩
    | true =>
      refine .inner rfl fun filesize hfilesize => ?_
      have hsize : (UInt32.ofNat filesize).toNat ≤ dataBufLen ↔ filesize ≤ dataBufLen := by
        refine ⟨hfilesize,fun hle => ?_⟩
        rw [UInt32.toNat_ofNat']
        exact (Nat.mod_le _ _).trans hle
      change Opens _ _ _ ((if isValidFilename (getFilename filename) = true then _ else _ :
        Client.Handler ErrorCode) cm) _
      by_cases hvalid : isValidFilename (getFilename filename) = true
      · rw [if_pos hvalid]
        refine opens_command (k := .SEND) .PROCESS_SEND hcm rfl (by decide) rfl
          fun m calls hm => ?_
        refine fits_send quiet_afterCommand hvalid hsize hm (fun msg hmsg => ?_) fun msg hmsg => ?_
        · refine (ite_success _ _).trans ((if_neg ?_).trans (if_pos hmsg))
          rw [hmsg]
          decide
        · exact (ite_success _ _).trans (if_pos hmsg)
      · rw [if_neg hvalid]
        exact .ret ⟨hcm,trivial⟩
  | remove filename =>
    refine opens_command (k := .REMOVE) .PROCESS_REMOVE hcm rfl (by decide) rfl
      fun m calls hm => ?_
    refine fits_remove quiet_afterCommand hm (e := fun error =>
      if error = 0 then .SUCCESS else if error = 1 then .FILE_NOT_FOUND
        else .FILE_DELETE_ERROR) (fun error => ?_) fun error he => ?_
    · by_cases h0 : error = 0
      · subst h0
        rfl
      · by_cases h1 : error = 1
        · subst h1
          rfl
        · simp [h0,h1]
    · by_contra h0
      rw [if_neg h0] at he
      split at he <;> cases he
  | rename oldName newName =>
    change Opens (wiring setup turn) _ _ ((Client.handleRename setup.client oldName newName) cm) _
    simp only [Client.handleRename,hrename oldName newName rfl,↓reduceIte]
    refine opens_command (k := .RENAME) .PROCESS_RENAME hcm rfl (by decide) rfl
      fun m calls hm => ?_
    refine fits_rename quiet_afterCommand hm (e := fun error =>
      if error = 0 then .SUCCESS else .FILE_NOT_FOUND) (fun error => rfl) (fun error he => ?_) rfl
    by_contra h0
    rw [if_neg h0] at he
    cases he
  | shutdown => exact absurd rfl hc

end Handlers

end NetworkLab.Backup
