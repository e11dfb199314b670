import NetworkLab.Backup.Names
import NetworkLab.Backup.Session
import NetworkLab.Backup.Traces
set_option autoImplicit false

/-! The two sockets of one turn, what is assumed of the client's own calls, and how a pair
of handlers is taken forward step by step. -/

namespace NetworkLab.Backup
open Interaction

/-- A datagram that a handler of the server asks for: a `DataMsg`, or the answer to the
question whether a file shall be overwritten. -/
inductive FollowUp : Bytes → Prop where
  | data (msg : DataMsg) : FollowUp msg.toList
  | confirm {msg : CmdMsg} : msg.getCommand = some .OVERWRITE → FollowUp msg.encode

theorem not_followUp {msg : CmdMsg} (h : msg.getCommand ≠ some .OVERWRITE) :
    ¬FollowUp msg.encode := by
  intro hf
  generalize hd : msg.encode = d at hf
  cases hf with
  | data data =>
    have hlen := congrArg List.length hd
    simp at hlen
  | @confirm msg' hc =>
    have he := congrArg CmdMsg.decode hd
    rw [CmdMsg.decode_encode,CmdMsg.decode_encode] at he
    exact h (he ▸ hc)

/-- What follows a successful send. -/
theorem ite_success {α : Type} (a b : α) :
    (if ErrorCode.SUCCESS ≠ .SUCCESS then a else b) = b :=
  if_neg fun h => h rfl

/-- How the server branches on a confirmation. -/
theorem ite_confirmation {α : Type} {msg : CmdMsg} (h : msg.getCommand = some .OVERWRITE)
    (a b c : α) :
    (if msg.encode = [] then a
      else if (CmdMsg.received msg.encode).getCommand ≠ some .OVERWRITE ∨
          (CmdMsg.received msg.encode).error ≠ 0 then b
        else c) = if msg.error = 0 then c else b := by
  have hne : msg.encode ≠ [] := List.cons_ne_nil _ _
  rw [if_neg hne,CmdMsg.received_encode]
  by_cases he : msg.error = 0
  · rw [if_neg (by simp [h,he]),if_pos he]
  · rw [if_pos (Or.inr he),if_neg he]

/-- The client can open its file, its TCP socket takes what it sends, and the size that it
announces is small only if the file is. -/
def ClientCan : Event Res → Prop
  | ⟨.ifstream _,opened⟩ => opened = true
  | ⟨.send data,taken⟩ => data ≠ [] → taken.isSome
  | ⟨.getFileSize _,filesize⟩ => (UInt32.ofNat filesize).toNat ≤ dataBufLen → filesize ≤ dataBufLen
  | _ => True

theorem exists_clientCan (o : Sys) : ∃ r : Res o, ClientCan ⟨o,r⟩ := by
  cases o with
  | select => exact ⟨.timeout,trivial⟩
  | recvfrom size => exact ⟨none,trivial⟩
  | sendto dest datagram => exact ⟨true,trivial⟩
  | cstring field memory => exact ⟨[],trivial⟩
  | accepted name => exact ⟨(),trivial⟩
  | metric m => exact ⟨(),trivial⟩
  | fileExists path => exact ⟨true,trivial⟩
  | getFileSize path => exact ⟨0,fun _ => Nat.zero_le _⟩
  | listDirectory path => exact ⟨none,trivial⟩
  | createDirectory path => exact ⟨true,trivial⟩
  | deleteFile path => exact ⟨true,trivial⟩
  | renameFile oldPath newPath => exact ⟨true,trivial⟩
  | ofstream path => exact ⟨true,trivial⟩
  | write path data => exact ⟨0,trivial⟩
  | ifstream path => exact ⟨true,rfl⟩
  | read size => exact ⟨⟨[],by simp⟩,trivial⟩
  | uninitialized size => exact ⟨⟨List.replicate size 0,by simp⟩,trivial⟩
  | socket => exact ⟨true,trivial⟩
  | bind port => exact ⟨true,trivial⟩
  | listen => exact ⟨true,trivial⟩
  | accept => exact ⟨true,trivial⟩
  | connect port => exact ⟨true,trivial⟩
  | recv size => exact ⟨none,trivial⟩
  | send data =>
    by_cases hd : data = []
    · exact ⟨none,fun hne => absurd hd hne⟩
    · exact ⟨some ⟨1,by simp,List.length_pos_iff.mpr hd⟩,fun _ => rfl⟩
  | answer => exact ⟨[],trivial⟩

/-- The two sockets in one turn; the note is whether the client has connected. -/
def wiring (setup : Setup) (turn : Nat) : Wiring Res Tagged Bool where
  client := udp setup.serverAddr turn
  server := udp setup.clientAddr turn
  clientCan := ClientCan
  serverCan connected ev := accepts ev = true → connected = true
  note connected ev := connects ev || connected
  fits o m := o = .recvfrom m.2.length ∧ FollowUp m.2
  answers o _ := exists_clientCan o
  grows g ev ev' h ha := by rw [h ha,Bool.or_true]

/-- What the server must have done when the client reports success. -/
def Performed (backupDir : Bytes) (c : ClientCommand) (e : ErrorCode)
    (calls : List (Event Res)) : Prop :=
  match c with
  | .remove filename => e = .SUCCESS →
    ⟨.deleteFile (joinPath backupDir (wireName filename)),true⟩ ∈ calls
  | .rename oldName newName => e = .SUCCESS →
    ⟨.renameFile (joinPath backupDir (wireName oldName))
      (joinPath backupDir (wireNewName newName)),true⟩ ∈ calls
  | _ => True

theorem Performed.mono {backupDir : Bytes} {c : ClientCommand} {e : ErrorCode}
    {calls calls' : List (Event Res)} (h : Performed backupDir c e calls)
    (hsub : ∀ ev ∈ calls, ev ∈ calls') : Performed backupDir c e calls' := by
  cases c with
  | remove filename => exact fun he => hsub _ (h he)
  | rename oldName newName => exact fun he => hsub _ (h he)
  | ls => trivial
  | send filename => trivial
  | shutdown => trivial

/-- How a handler ends: the client still knows the server's address. -/
def Ends (setup : Setup) (c : ClientCommand) (a : ErrorCode × Client.Members)
    (calls : List (Event Res)) : Prop :=
  a.2.serverAddr = setup.serverAddr ∧ Performed setup.server.backupDir c a.1 calls

abbrev Fits (setup : Setup) (turn : Nat) (c : ClientCommand) :=
  Dual (β := Bool × Server.Members) (wiring setup turn) (Ends setup c)

section Moves
variable {setup : Setup} {turn : Nat} {c : ClientCommand} {g : Bool}
variable {requests replies : List Tagged} {calls : List (Event Res)}
variable {p : Prog Res (ErrorCode × Client.Members)} {q : Prog Res (Bool × Server.Members)}
variable {m : Server.Members} {cm : Client.Members} {α : Type}

theorem waiting_receiveResponse {r : CmdMsg}
    {F : ErrorCode × CmdMsg → Client.Handler ErrorCode} :
    Waiting (udp setup.serverAddr turn) ((Client.receiveResponse r >>= F) cm) :=
  ⟨_,_,_,rfl,rfl⟩

/-- The client reads a response. -/
theorem Fits.reply {r msg : CmdMsg} {F : ErrorCode × CmdMsg → Client.Handler ErrorCode} {t : Nat}
    (h : Fits setup turn c (F (.SUCCESS,msg) { cm with serverAddr := setup.serverAddr }) g requests
      q calls replies) :
    Fits setup turn c ((Client.receiveResponse r >>= F) cm) g requests q calls
      ((t,msg.encode) :: replies) := by
  have hmsg : CmdMsg.decode (overlay r.encode msg.encode) = msg := by
    rw [overlay_full (by simp),CmdMsg.decode_encode]
  rw [← hmsg] at h
  exact .inn rfl h

theorem Fits.clientSends {d : Bytes} {F : ErrorCode → Client.Handler ErrorCode}
    (hcm : cm.serverAddr = setup.serverAddr)
    (h : Fits setup turn c (F .SUCCESS cm) g (requests ++ [(turn,d)]) q calls replies) :
    Fits setup turn c ((Client.sendto d >>= F) cm) g requests q calls replies :=
  .out (if_pos hcm) h

theorem Fits.serverSends {d : Bytes} {f : ErrorCode → Server.Handler Bool}
    (hp : Waiting (udp setup.serverAddr turn) p) (hm : m.currentClientAddr = setup.clientAddr)
    (h : Fits setup turn c p g requests (f .SUCCESS m) (calls ++ [Server.sent m d true])
      [(turn,d)]) :
    Fits setup turn c p g requests ((Server.sendto d >>= f) m) calls [] :=
  .serverOut hp (if_pos hm) h

theorem Fits.serverTakes {size : Nat} {d : Bytes} {f : Option Bytes → Server.Handler Bool}
    (hp : Waiting (udp setup.serverAddr turn) p) (hd : FollowUp d) (hlen : d.length = size)
    (h : Fits setup turn c p g requests (f (some d) (m.serving setup.clientAddr))
      (calls ++ [Server.got size setup.clientAddr d]) []) :
    Fits setup turn c p g ((turn,d) :: requests) ((Server.recvfrom size >>= f) m) calls [] := by
  subst hlen
  exact .serverInn hp rfl ⟨rfl,hd⟩ h

theorem Fits.serverAsks {o : Sys} {f : Res o → Server.Handler Bool}
    (hp : Waiting (udp setup.serverAddr turn) p) (ho : udp setup.clientAddr turn o = .inner)
    (h : ∀ r, (accepts ⟨o,r⟩ = true → g = true) →
      Fits setup turn c p g requests (f r m) (calls ++ [⟨o,r⟩]) []) :
    Fits setup turn c p g requests ((ask o >>= f) m) calls [] :=
  .serverInner hp ho h

theorem Fits.serverReads {field : Nat} {memory name : Bytes} {f : Bytes → Server.Handler Bool}
    (hp : Waiting (udp setup.serverAddr turn) p)
    (hname : ∀ beyond, cString (memory ++ beyond) = name)
    (h : ∀ beyond, Fits setup turn c p g requests (f name m)
      (calls ++ [⟨.cstring field memory,beyond⟩]) []) :
    Fits setup turn c p g requests ((readString field memory >>= f) m) calls [] := by
  refine .serverInner hp rfl fun beyond _ => ?_
  rw [← hname beyond] at h
  exact h beyond

theorem Fits.serverValidates {name : Bytes} {f : Bool → Server.Handler Bool}
    (hp : Waiting (udp setup.serverAddr turn) p)
    (hyes : isValidFilename name = true → ∀ calls,
      Fits setup turn c p g requests (f true m) calls [])
    (hno : isValidFilename name = false →
      Fits setup turn c p g requests (f false m) calls []) :
    Fits setup turn c p g requests ((validate name >>= f) m) calls [] := by
  cases hv : isValidFilename name with
  | true =>
    have he : validate (σ := Server.Members) name = ask (.accepted name) >>= fun _ => pure true :=
      if_pos hv
    rw [he]
    exact .serverInner hp rfl fun _ _ => hyes hv _
  | false =>
    have he : validate (σ := Server.Members) name = pure false := if_neg (by simp [hv])
    rw [he]
    exact hno hv

theorem Fits.quiet (hp : Waiting (udp setup.serverAddr turn) p)
    (hq : Quiet (wiring setup turn) g q) : Fits setup turn c p g [] q calls [] := by
  induction hq generalizing calls with
  | ret b => exact .gone hp
  | inner ho _ ih => exact .serverInner hp ho fun r hr => ih r hr

/-- The client reads a listing. -/
theorem Fits.replyData {data : DataMsg} {F : ErrorCode × DataMsg → Client.Handler ErrorCode}
    {t : Nat} (h : Fits setup turn c (F (.SUCCESS,data) { cm with serverAddr := setup.serverAddr })
      g requests q calls replies) :
    Fits setup turn c ((Client.receiveData >>= F) cm) g requests q calls
      ((t,data.toList) :: replies) := by
  obtain ⟨b,rest,hb⟩ : ∃ b rest, data.toList = b :: rest :=
    List.exists_cons_of_ne_nil (by simp)
  have hdata : DataMsg.received (b :: rest) = data := by rw [← hb,DataMsg.received_toList]
  rw [hb]
  rw [← hdata] at h
  exact .inn rfl h

end Moves

section Ends
variable {setup : Setup} {turn : Nat} {c : ClientCommand} {g : Bool}
variable {calls : List (Event Res)} {m : Server.Members} {cm : Client.Members}
variable {K : ErrorCode → Server.Handler Bool}

/-- The server sends its last reply, and the client ends. -/
theorem Fits.last {r msg : CmdMsg} {F : ErrorCode × CmdMsg → Client.Handler ErrorCode}
    {e : ErrorCode} (hK : ∀ g e m, Quiet (wiring setup turn) g (K e m))
    (hm : m.currentClientAddr = setup.clientAddr) (hF : F (.SUCCESS,msg) = pure e)
    (hdone : Performed setup.server.backupDir c e (calls ++ [Server.sent m msg.encode true])) :
    Fits setup turn c ((Client.receiveResponse r >>= F) cm) g []
      ((Server.sendResponse msg >>= K) m) calls [] := by
  refine Fits.serverSends waiting_receiveResponse hm (Fits.reply ?_)
  rw [hF]
  exact .ret ⟨rfl,hdone⟩ (hK _ _ _)

def afterCommand (cmd : CmdMsg) (result : ErrorCode) : Server.Handler Bool := do
  let _ ← readString 128 cmd.tail
  if result ≠ .SUCCESS ∧ cmd.getCommand ≠ some .SHUTDOWN then
    ask (.metric (.recordError (commandToString cmd.getCommand) (errorCodeToString result)))
  let m ← get
  if m.state = .SHUTDOWN then pure false
  else do
    Server.setState .WAITING
    pure true

theorem dispatch_encode (config : Server.ServerConfig) (cmd : CmdMsg) :
    Server.dispatch config cmd.encode = (do
      ask (.metric (.recordRequest (commandToString cmd.getCommand)))
      let result ← Server.handleCommand config cmd
      afterCommand cmd result) := by
  unfold Server.dispatch Server.processCommand
  rw [CmdMsg.received_encode]
  simp only [afterCommand,bind_assoc,pure_bind]

theorem quiet_afterCommand {cmd : CmdMsg} (g : Bool) (e : ErrorCode) (m : Server.Members) :
    Quiet (wiring setup turn) g (afterCommand cmd e m) := by
  have hstate : ∀ m : Server.Members, Quiet (wiring setup turn) g
      ((do
        let m ← get
        if m.state = .SHUTDOWN then pure false
        else do
          Server.setState .WAITING
          pure true : Server.Handler Bool) m) := by
    intro m
    change Quiet (wiring setup turn) g ((if m.state = .SHUTDOWN then _ else _ : Server.Handler Bool) m)
    by_cases hs : m.state = .SHUTDOWN
    · rw [if_pos hs]
      exact .ret _
    · rw [if_neg hs]
      exact .ret _
  refine .inner rfl fun beyond _ => ?_
  change Quiet (wiring setup turn) g ((if e ≠ .SUCCESS ∧ cmd.getCommand ≠ some .SHUTDOWN then _
    else _ : Server.Handler Bool) m)
  by_cases he : e ≠ .SUCCESS ∧ cmd.getCommand ≠ some .SHUTDOWN
  · rw [if_pos he]
    exact .inner rfl fun _ _ => hstate m
  · rw [if_neg he]
    exact hstate m

end Ends
end NetworkLab.Backup
