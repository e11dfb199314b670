import NetworkLab.Backup.Client
import NetworkLab.Backup.Server
import NetworkLab.Lib.Session
set_option autoImplicit false

/-! One client and the server, with a UDP channel that delays datagrams but keeps them all
and their order. A datagram carries a turn: that of the command whose handler sent it, or,
from the server, of the command that is being processed. -/

namespace NetworkLab.Backup
open Interaction

/-- The commands of `executeCommand` that send something. -/
inductive ClientCommand where
  | ls
  | send (filename : Bytes)
  | remove (filename : Bytes)
  | rename (oldName newName : Bytes)
  | shutdown
  deriving DecidableEq

def ClientCommand.handler (config : Client.ClientConfig) :
    ClientCommand → Client.Handler ErrorCode
  | .ls => Client.handleLs
  | .send filename => Client.handleSend filename
  | .remove filename => Client.handleRemove filename
  | .rename oldName newName => Client.handleRename config oldName newName
  | .shutdown => Client.handleShutdown

/-- Both programs and their sockets. -/
structure Setup where
  client : Client.ClientConfig
  server : Server.ServerConfig
  clientAddr : Addr
  serverAddr : Addr

abbrev Tagged := Nat × Bytes

/-- A UDP socket: what it sends to `peer` carries `turn`, and all it receives is from
there. -/
def udp (peer : Addr) (turn : Nat) : (o : Sys) → Port Tagged (Res o)
  | .sendto dest datagram => if dest = peer then .out (turn,datagram) true else .inner
  | .recvfrom _ => .inn fun m => some (peer,m.2)
  | _ => .inner

inductive ClientStatus where
  | idle (m : Client.Members)
  | running (c : ClientCommand) (p : Prog Res (ErrorCode × Client.Members))

inductive ServerStatus where
  | idle (m : Server.Members)
  | serving (turn : Nat) (p : Prog Res (Bool × Server.Members))
  | stopped

/-- The turns in which the client has made its TCP connection are in `connected`. -/
structure World where
  todo : List ClientCommand
  turn : Nat
  client : ClientStatus
  server : ServerStatus
  toServer : Channel Tagged
  toClient : Channel Tagged
  connected : List Nat

def connects : Event Res → Bool
  | ⟨.connect _,ok⟩ => ok
  | _ => false

def accepts : Event Res → Bool
  | ⟨.accept,ok⟩ => ok
  | _ => false

inductive Act where
  | begin (c : ClientCommand)
  | client (turn : Nat) (ev : Event Res) (io : Io Tagged)
  | returned (turn : Nat) (c : ClientCommand) (e : ErrorCode)
  | arrive
  | fetch (turn : Nat) (datagram : Bytes)
  | server (turn : Nat) (ev : Event Res) (io : Io Tagged)
  | finish

/-- A call of the client, of the main loop or of a handler. A receive that finds nothing
returns -1: the client's after its timeout, the server's at once. `accept` needs a
connection of the client. -/
inductive Step (setup : Setup) : World → Act → World → Prop where
  | begin {w : World} {c : ClientCommand} {rest : List ClientCommand} {m : Client.Members} :
      w.todo = c :: rest → w.client = .idle m →
      Step setup w (.begin c)
        { w with
          todo := rest
          turn := w.turn + 1
          client := .running c (c.handler setup.client m) }
  | client {w : World} {c : ClientCommand} {p p' : Prog Res (ErrorCode × Client.Members)}
      {ev : Event Res} {io : Io Tagged} {toClient' : Channel Tagged} :
      w.client = .running c p → Advance (udp setup.serverAddr w.turn) p ev io p' →
      Channel.Pull io w.toClient toClient' →
      Step setup w (.client w.turn ev io)
        { w with
          client := .running c p'
          toServer := w.toServer.push io
          toClient := toClient'
          connected := if connects ev then w.turn :: w.connected else w.connected }
  | timeout {w : World} {c : ClientCommand} {size : Nat}
      {k : Option (Addr × Bytes) → Prog Res (ErrorCode × Client.Members)} :
      w.client = .running c (.call (.recvfrom size) k) → w.toClient.queued = [] →
      Step setup w (.client w.turn ⟨.recvfrom size,none⟩ .quiet)
        { w with client := .running c (k none) }
  | returned {w : World} {c : ClientCommand} {e : ErrorCode} {m : Client.Members} :
      w.client = .running c (.ret (e,m)) →
      Step setup w (.returned w.turn c e) { w with client := .idle m }
  | arriveServer {w : World} {m : Tagged} {rest : List Tagged} : w.toServer.flying = m :: rest →
      Step setup w .arrive { w with toServer := ⟨w.toServer.queued ++ [m],rest⟩ }
  | arriveClient {w : World} {m : Tagged} {rest : List Tagged} : w.toClient.flying = m :: rest →
      Step setup w .arrive { w with toClient := ⟨w.toClient.queued ++ [m],rest⟩ }
  | fetch {w : World} {m m' : Server.Members} {turn : Nat} {d : Bytes} {rest : List Tagged}
      {r : Option Bytes} : w.server = .idle m → m.shutdownRequested = false →
      w.toServer.queued = (turn,d) :: rest →
      Runs Server.nextCommand m
        [⟨.select,.readable⟩,⟨.recvfrom 137,some (setup.clientAddr,d)⟩] r m' →
      Step setup w (.fetch turn d)
        { w with
          toServer := ⟨rest,w.toServer.flying⟩
          server := r.elim (.idle m') fun d => .serving turn (Server.dispatch setup.server d m') }
  | server {w : World} {turn : Nat} {q q' : Prog Res (Bool × Server.Members)} {ev : Event Res}
      {io : Io Tagged} {toServer' : Channel Tagged} :
      w.server = .serving turn q → Advance (udp setup.clientAddr turn) q ev io q' →
      Channel.Pull io w.toServer toServer' → (accepts ev → turn ∈ w.connected) →
      Step setup w (.server turn ev io)
        { w with
          server := .serving turn q'
          toClient := w.toClient.push io
          toServer := toServer' }
  | again {w : World} {turn size : Nat}
      {k : Option (Addr × Bytes) → Prog Res (Bool × Server.Members)} :
      w.server = .serving turn (.call (.recvfrom size) k) → w.toServer.queued = [] →
      Step setup w (.server turn ⟨.recvfrom size,none⟩ .quiet)
        { w with server := .serving turn (k none) }
  | finish {w : World} {turn : Nat} {goesOn : Bool} {m : Server.Members} :
      w.server = .serving turn (.ret (goesOn,m)) →
      Step setup w .finish { w with server := if goesOn then .idle m else .stopped }

/-- Both have started and know each other's address. -/
def World.init (setup : Setup) (commands : List ClientCommand) : World :=
  { todo := commands, turn := 0, client := .idle ⟨setup.serverAddr,[]⟩,
    server := .idle (Server.init setup.server), toServer := .empty, toClient := .empty,
    connected := [] }

/-- What a run has done, and where it is. -/
inductive Run (setup : Setup) (w₀ : World) : List Act → World → Prop where
  | start : Run setup w₀ [] w₀
  | step {acts : List Act} {w w' : World} {a : Act} : Run setup w₀ acts w → Step setup w a w' →
      Run setup w₀ (acts ++ [a]) w'

/-! Runs along a known run of one of the two programs. -/

section Runs
variable {setup : Setup} {w₀ w : World} {acts : List Act} {turn : Nat} {tr : Trace}

theorem Run.serverInner {q : Prog Res (Bool × Server.Members)} {x : Bool × Server.Members}
    (evs : Trace) (h : Run setup w₀ acts w) (hw : w.server = .serving turn q)
    (he : Exec q (evs ++ tr) x)
    (hevs : ∀ ev ∈ evs, udp setup.clientAddr turn ev.1 = .inner ∧ accepts ev = false) :
    ∃ q', Exec q' tr x ∧ Run setup w₀ (acts ++ evs.map fun ev => .server turn ev .quiet)
      { w with server := .serving turn q' } := by
  induction evs generalizing acts w q with
  | nil =>
    refine ⟨q,he,?_⟩
    rw [← hw]
    simpa using h
  | cons ev evs ih =>
    obtain ⟨⟨hinner,hacc⟩,hevs⟩ := List.forall_mem_cons.mp hevs
    obtain ⟨q₁,ha,he₁⟩ := Advance.of_exec he fun k => .inner (k := k) ev.2 hinner
    have hstep := h.step (.server hw ha ⟨rfl,rfl⟩ fun hc => absurd hc (by simp [hacc]))
    obtain ⟨q',he',hrun⟩ := ih hstep rfl he₁ hevs
    rw [List.append_assoc] at hrun
    exact ⟨q',he',hrun⟩

theorem Run.serverSends {q : Prog Res (Bool × Server.Members)} {x : Bool × Server.Members}
    {d : Bytes} (h : Run setup w₀ acts w) (hw : w.server = .serving turn q)
    (he : Exec q (⟨.sendto setup.clientAddr d,true⟩ :: tr) x) :
    ∃ q', Exec q' tr x ∧
      Run setup w₀ (acts ++ [.server turn ⟨.sendto setup.clientAddr d,true⟩ (.sent (turn,d))])
        { w with server := .serving turn q', toClient := w.toClient.push (.sent (turn,d)) } := by
  have hout : udp setup.clientAddr turn (.sendto setup.clientAddr d) = .out (turn,d) true :=
    if_pos rfl
  obtain ⟨q',ha,he'⟩ := Advance.of_exec he fun k => .out (k := k) hout
  exact ⟨q',he',h.step (.server hw ha ⟨rfl,rfl⟩ fun hc => nomatch hc)⟩

theorem Run.serverTakes {q : Prog Res (Bool × Server.Members)} {x : Bool × Server.Members}
    {d : Tagged} {rest : List Tagged} {size : Nat} (h : Run setup w₀ acts w)
    (hw : w.server = .serving turn q) (hqueued : w.toServer.queued = d :: rest)
    (he : Exec q (⟨.recvfrom size,some (setup.clientAddr,d.2)⟩ :: tr) x) :
    ∃ q', Exec q' tr x ∧ Run setup w₀
      (acts ++ [.server turn ⟨.recvfrom size,some (setup.clientAddr,d.2)⟩ (.took d)])
      { w with server := .serving turn q', toServer := ⟨rest,w.toServer.flying⟩ } := by
  have hinn : udp setup.clientAddr turn (.recvfrom size) =
    .inn fun m => some (setup.clientAddr,m.2) := rfl
  obtain ⟨q',ha,he'⟩ := Advance.of_exec he fun k => .inn (k := k) d hinn
  have hpull : Channel.Pull (.took d) w.toServer ⟨rest,w.toServer.flying⟩ := ⟨hqueued,rfl⟩
  exact ⟨q',he',h.step (.server hw ha hpull fun hc => nomatch hc)⟩

theorem Run.serverAgain {q : Prog Res (Bool × Server.Members)} {x : Bool × Server.Members}
    {size : Nat} (h : Run setup w₀ acts w) (hw : w.server = .serving turn q)
    (hqueued : w.toServer.queued = []) (he : Exec q (⟨.recvfrom size,none⟩ :: tr) x) :
    ∃ q', Exec q' tr x ∧ Run setup w₀ (acts ++ [.server turn ⟨.recvfrom size,none⟩ .quiet])
      { w with server := .serving turn q' } := by
  obtain ⟨k,rfl,he'⟩ := exec_cons he
  exact ⟨_,he',h.step (.again hw hqueued)⟩

variable {c : ClientCommand} {p : Prog Res (ErrorCode × Client.Members)}
variable {y : ErrorCode × Client.Members}

theorem Run.clientInner (evs : Trace) (h : Run setup w₀ acts w) (hw : w.client = .running c p)
    (he : Exec p (evs ++ tr) y)
    (hevs : ∀ ev ∈ evs, udp setup.serverAddr w.turn ev.1 = .inner ∧ connects ev = false) :
    ∃ p', Exec p' tr y ∧ Run setup w₀ (acts ++ evs.map fun ev => .client w.turn ev .quiet)
      { w with client := .running c p' } := by
  induction evs generalizing acts w p with
  | nil =>
    refine ⟨p,he,?_⟩
    rw [← hw]
    simpa using h
  | cons ev evs ih =>
    obtain ⟨⟨hinner,hconn⟩,hevs⟩ := List.forall_mem_cons.mp hevs
    obtain ⟨p₁,ha,he₁⟩ := Advance.of_exec he fun k => .inner (k := k) ev.2 hinner
    have hstep := h.step (.client hw ha ⟨rfl,rfl⟩)
    rw [hconn,if_neg (by simp)] at hstep
    obtain ⟨p',he',hrun⟩ := ih hstep rfl he₁ hevs
    rw [List.append_assoc] at hrun
    exact ⟨p',he',hrun⟩

theorem Run.clientSends {d : Bytes} (h : Run setup w₀ acts w) (hw : w.client = .running c p)
    (he : Exec p (⟨.sendto setup.serverAddr d,true⟩ :: tr) y) :
    ∃ p', Exec p' tr y ∧ Run setup w₀
      (acts ++ [.client w.turn ⟨.sendto setup.serverAddr d,true⟩ (.sent (w.turn,d))])
      { w with client := .running c p', toServer := w.toServer.push (.sent (w.turn,d)) } := by
  have hout : udp setup.serverAddr w.turn (.sendto setup.serverAddr d) = .out (w.turn,d) true :=
    if_pos rfl
  obtain ⟨p',ha,he'⟩ := Advance.of_exec he fun k => .out (k := k) hout
  exact ⟨p',he',h.step (.client hw ha ⟨rfl,rfl⟩)⟩

theorem Run.clientTakes {d : Tagged} {rest : List Tagged} {size : Nat}
    (h : Run setup w₀ acts w) (hw : w.client = .running c p)
    (hqueued : w.toClient.queued = d :: rest)
    (he : Exec p (⟨.recvfrom size,some (setup.serverAddr,d.2)⟩ :: tr) y) :
    ∃ p', Exec p' tr y ∧ Run setup w₀
      (acts ++ [.client w.turn ⟨.recvfrom size,some (setup.serverAddr,d.2)⟩ (.took d)])
      { w with client := .running c p', toClient := ⟨rest,w.toClient.flying⟩ } := by
  have hinn : udp setup.serverAddr w.turn (.recvfrom size) =
    .inn fun m => some (setup.serverAddr,m.2) := rfl
  obtain ⟨p',ha,he'⟩ := Advance.of_exec he fun k => .inn (k := k) d hinn
  have hpull : Channel.Pull (.took d) w.toClient ⟨rest,w.toClient.flying⟩ := ⟨hqueued,rfl⟩
  exact ⟨p',he',h.step (.client hw ha hpull)⟩

/-- The main loop gets a command. -/
theorem Run.fetches {m : Server.Members} {d : Bytes} {rest : List Tagged}
    (h : Run setup w₀ acts w) (hw : w.server = .idle m) (hm : m.shutdownRequested = false)
    (hqueued : w.toServer.queued = (turn,d) :: rest) (hd : d ≠ []) :
    Run setup w₀ (acts ++ [.fetch turn d])
      { w with
        toServer := ⟨rest,w.toServer.flying⟩
        server := .serving turn (Server.dispatch setup.server d
          { m with currentClientAddr := setup.clientAddr }) } := by
  refine h.step (.fetch (r := some d) hw hm hqueued ?_)
  refine runs_ask_bind.mpr ⟨.readable,_,rfl,exec_call.mpr ⟨some (setup.clientAddr,d),[],rfl,?_⟩⟩
  change Runs (pure (if d = [] then none else some d))
    { m with currentClientAddr := setup.clientAddr } [] (some d)
    { m with currentClientAddr := setup.clientAddr }
  rw [if_neg hd]
  exact runs_pure.mpr ⟨rfl,rfl,rfl⟩

end Runs

end NetworkLab.Backup
