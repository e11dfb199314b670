import NetworkLab.Backup.Matching
set_option autoImplicit false

/-! Whole runs of client and server: which handler receives what follows a command. -/

namespace NetworkLab.Backup
open Interaction

/-- The main loop receives commands only, a handler receives what its own command is
followed by, in a buffer of the right size, and as long as something of this kind is on
its way, the handler that asked for it runs. -/
structure FollowUpsConsumed (setup : Setup) (acts : List Act) (w : World) : Prop where
  main : ∀ turn d, Act.fetch turn d ∈ acts → ¬FollowUp d
  nested : ∀ turn ev d, Act.server turn ev (.took d) ∈ acts →
    d.1 = turn ∧ FollowUp d.2 ∧ ev.1 = .recvfrom d.2.length
  pending : ∀ d ∈ w.toServer.content, FollowUp d.2 → ∃ q, w.server = .serving d.1 q

/-- The server will receive nothing but a command. -/
def Drained (setup : Setup) (connected : List Nat) (content : List Tagged)
    (server : ServerStatus) : Prop :=
  content = [] ∨ ∃ d turn, content = [d] ∧ ¬FollowUp d.2 ∧ Behind setup connected turn server

/-- The last command is a shutdown, about to be sent or sent. -/
inductive Closing (setup : Setup) (w : World) : Prop where
  | leaving {m : Client.Members} : w.todo = [] →
      w.client = .running .shutdown (Client.handleShutdown m) → m.serverAddr = setup.serverAddr →
      Behind setup w.connected w.turn w.server → w.toServer.content = [] → Closing setup w
  | left : w.todo = [] → (∀ c p, w.client = .running c p → c = .shutdown ∧ ∃ a, p = .ret a) →
      Drained setup w.connected w.toServer.content w.server → Closing setup w

section FollowUps
variable {setup : Setup} {acts : List Act} {w w' : World} {commands : List ClientCommand} {a : Act}

theorem Phase.pending (h : Phase setup acts w) :
    ∀ d ∈ w.toServer.content, FollowUp d.2 → ∃ q, w.server = .serving d.1 q := by
  intro d hd hfollow
  cases h with
  | between hidle haddr hb hs hr =>
    rw [hs] at hd
    cases hd
  | opening hrun hg ho hb hs hr =>
    rw [hs] at hd
    cases hd
  | asked hrun hg hw hserved hb hs hr =>
    rw [hs] at hd
    obtain rfl := List.mem_singleton.mp hd
    exact absurd hfollow hserved.command
  | @served c p g q calls hrun hg hat hcalls hf hs hr =>
    rw [hs d hd]
    generalize hserver : w.server = s at hat
    cases hat with
    | serving => exact ⟨q,rfl⟩
    | idle =>
      rw [hf.no_request] at hd
      cases hd
    | stopped =>
      rw [hf.no_request] at hd
      cases hd

theorem Closing.pending (h : Closing setup w) :
    ∀ d ∈ w.toServer.content, FollowUp d.2 → ∃ q, w.server = .serving d.1 q := by
  intro d hd hfollow
  cases h with
  | leaving htodo hrun hm hb hs =>
    rw [hs] at hd
    cases hd
  | left htodo hret hs =>
    rcases hs with hs | ⟨d',turn,hs,hcommand,-⟩
    · rw [hs] at hd
      cases hd
    · rw [hs] at hd
      obtain rfl := List.mem_singleton.mp hd
      exact absurd hfollow hcommand

theorem advance_handleShutdown {turn : Nat} {m : Client.Members} {ev : Event Res}
    {io : Io Tagged} {p' : Prog Res (ErrorCode × Client.Members)}
    (hm : m.serverAddr = setup.serverAddr)
    (ha : Advance (udp setup.serverAddr turn) (Client.handleShutdown m) ev io p') :
    io = .sent (turn,(Client.command .SHUTDOWN []).encode) ∧ connects ev = false ∧
      ∃ a, p' = .ret a := by
  have hudp : udp setup.serverAddr turn (.sendto m.serverAddr
      (Client.command .SHUTDOWN []).encode) =
      .out (turn,(Client.command .SHUTDOWN []).encode) true := if_pos hm
  generalize hp : Client.handleShutdown m = p at ha
  change Prog.call (.sendto m.serverAddr (Client.command .SHUTDOWN []).encode) _ = p at hp
  subst hp
  cases ha with
  | inner r hi => cases hudp.symm.trans hi
  | out ho =>
    cases hudp.symm.trans ho
    exact ⟨rfl,rfl,_,rfl⟩
  | inn d hf => cases hudp.symm.trans hf

theorem Drained.fetch {content rest : List Tagged} {d : Tagged} {connected : List Nat}
    {s : ServerStatus} (h : Drained setup connected content s) (hc : content = d :: rest) :
    rest = [] ∧ ¬FollowUp d.2 := by
  rcases h with h | ⟨d',turn,h,hcommand,-⟩
  · cases h.symm.trans hc
  · obtain ⟨rfl,rfl⟩ := List.cons.inj (hc.symm.trans h)
    exact ⟨rfl,hcommand⟩

theorem Drained.server {content content' : List Tagged} {connected : List Nat} {t : Nat}
    {q q' : Prog Res (Bool × Server.Members)} {ev : Event Res} {io : Io Tagged}
    (h : Drained setup connected content (.serving t q))
    (ha : Advance (udp setup.clientAddr t) q ev io q') (hin : io.Pull content content')
    (hacc : accepts ev → t ∈ connected) :
    Drained setup connected content' (.serving t q') ∧ ∀ d, io ≠ .took d := by
  rcases h with rfl | ⟨d,turn,rfl,hcommand,hb⟩
  · cases io with
    | took d => cases hin
    | quiet => exact ⟨Or.inl hin,fun d he => nomatch he⟩
    | sent d => exact ⟨Or.inl hin,fun d he => nomatch he⟩
  · obtain ⟨rfl,hb'⟩ := hb.server ha hacc
    exact ⟨Or.inr ⟨d,turn,hin,hcommand,hb'⟩,fun d he => nomatch he⟩

/-- What can happen once the last command is a shutdown. -/
theorem Closing.step (h : Closing setup w) (hs : Step setup w a w') (hwaits : a.Waits) :
    Closing setup w' ∧ a.Ok setup acts := by
  cases hs with
  | begin htodo =>
    cases h with
    | leaving hnil => cases hnil.symm.trans htodo
    | left hnil => cases hnil.symm.trans htodo
  | @client c p p' ev io toClient' hp ha hin =>
    cases h with
    | leaving htodo hrun hm hb hs =>
      obtain ⟨rfl,rfl⟩ := ClientStatus.running.inj (hrun.symm.trans hp)
      obtain ⟨rfl,hev,hret⟩ := advance_handleShutdown hm ha
      have hnot : ¬FollowUp (Client.command .SHUTDOWN []).encode := not_followUp (by decide)
      refine ⟨.left htodo (fun c p he => ?_)
        (Or.inr ⟨(w.turn,(Client.command .SHUTDOWN []).encode),w.turn,?_,hnot,?_⟩),trivial⟩
      · obtain ⟨rfl,rfl⟩ := ClientStatus.running.inj he
        exact ⟨rfl,hret⟩
      · rw [Channel.content_push,hs]
        rfl
      · rw [hev,if_neg (by simp)]
        exact hb
    | left htodo hret hs =>
      obtain ⟨-,a,rfl⟩ := hret _ _ hp
      cases ha
  | timeout => exact absurd rfl (hwaits _)
  | @returned c e m hp =>
    cases h with
    | leaving htodo hrun => cases hrun.symm.trans hp
    | left htodo hret hs =>
      obtain ⟨rfl,-⟩ := hret _ _ hp
      exact ⟨.left htodo (fun c p he => nomatch he) hs,[],trivial,fun ev hev => nomatch hev⟩
  | arriveServer hm =>
    refine ⟨?_,trivial⟩
    cases h with
    | leaving htodo hrun hm' hb hs =>
      exact .leaving htodo hrun hm' hb ((content_arrive hm).trans hs)
    | left htodo hret hs => exact .left htodo hret (content_arrive hm ▸ hs)
  | arriveClient hm =>
    refine ⟨?_,trivial⟩
    cases h with
    | leaving htodo hrun hm' hb hs => exact .leaving htodo hrun hm' hb hs
    | left htodo hret hs => exact .left htodo hret hs
  | @fetch m m' t d rest r hm hshutdown hqueued hnext =>
    have hcontent : w.toServer.content = (t,d) :: (rest ++ w.toServer.flying) := by
      rw [Channel.content,hqueued]
      rfl
    cases h with
    | leaving htodo hrun hm' hb hs => cases hs.symm.trans hcontent
    | left htodo hret hs =>
      obtain ⟨hrest,hcommand⟩ := hs.fetch hcontent
      exact ⟨.left htodo hret (Or.inl hrest),hcommand⟩
  | @server t q q' ev io toServer' hq ha hin hacc =>
    cases h with
    | leaving htodo hrun hm hb hs =>
      rw [hq] at hb
      obtain ⟨rfl,hb'⟩ := hb.server ha hacc
      exact ⟨.leaving htodo hrun hm hb' (hin.content.trans hs),trivial⟩
    | left htodo hret hs =>
      rw [hq] at hs
      obtain ⟨hs',htook⟩ := hs.server ha hin.content hacc
      refine ⟨.left htodo hret hs',?_⟩
      cases io with
      | took d => exact absurd rfl (htook d)
      | quiet => trivial
      | sent d => trivial
  | again => exact absurd rfl (hwaits _)
  | finish hq =>
    refine ⟨?_,trivial⟩
    cases h with
    | leaving htodo hrun hm hb hs => exact .leaving htodo hrun hm Behind.finish hs
    | left htodo hret hs =>
      refine .left htodo hret ?_
      rcases hs with hs | ⟨d,turn,hs,hcommand,-⟩
      · exact Or.inl hs
      · exact Or.inr ⟨d,0,hs,hcommand,Behind.finish⟩

theorem Phase.leave {m : Client.Members} (h : Phase setup acts w) (hm : w.client = .idle m) :
    Closing setup
      { w with
        todo := []
        turn := w.turn + 1
        client := .running .shutdown (Client.handleShutdown m) } := by
  cases h with
  | between hidle haddr hb hs hr =>
    obtain rfl := ClientStatus.idle.inj (hidle.symm.trans hm)
    exact .leaving rfl rfl haddr hb hs
  | opening hrun => cases hrun.symm.trans hm
  | asked hrun => cases hrun.symm.trans hm
  | served hrun => cases hrun.symm.trans hm

/-- The same with a shutdown as the last command. -/
theorem Run.closing (h : Run setup (World.init setup commands) acts w)
    (hcommands : .shutdown ∉ commands.dropLast) (hwaits : ∀ a ∈ acts, a.Waits)
    (hfine : ∀ a ∈ acts, a.Fine setup) :
    (Phase setup acts w ∨ Closing setup w) ∧ (∀ a ∈ acts, a.Ok setup acts) ∧
      (∀ t ∈ w.connected, t ≤ w.turn) ∧ .shutdown ∉ w.todo.dropLast := by
  induction h with
  | start =>
    exact ⟨Or.inl phase_init,fun a ha => (nomatch ha),fun t ht => (nomatch ht),hcommands⟩
  | @step acts w w' a hrun hs ih =>
    obtain ⟨hwaits,hwait⟩ := List.forall_mem_append.mp hwaits
    obtain ⟨hfine,hfine'⟩ := List.forall_mem_append.mp hfine
    have hwait := List.forall_mem_singleton.mp hwait
    have hfine' := List.forall_mem_singleton.mp hfine'
    obtain ⟨hphase,hok,hconn,htodo⟩ := ih hwaits hfine
    have htodo' : .shutdown ∉ w'.todo.dropLast := by
      rcases hs.todo with ⟨c,-,he⟩ | ⟨-,he⟩
      · intro hmem
        rw [he] at htodo
        refine htodo ?_
        rw [List.dropLast_cons_of_ne_nil (List.ne_nil_of_mem (List.mem_of_mem_dropLast hmem))]
        exact List.mem_cons_of_mem _ hmem
      · exact he ▸ htodo
    have hnext : (Phase setup (acts ++ [a]) w' ∨ Closing setup w') ∧ a.Ok setup acts := by
      rcases hphase with hphase | hclosing
      · by_cases hshut : a = .begin .shutdown
        · subst hshut
          cases hs with
          | @begin c rest m he hm =>
            have hrest : rest = [] := by
              by_contra hne
              rw [he,List.dropLast_cons_of_ne_nil hne] at htodo
              exact htodo List.mem_cons_self
            subst hrest
            exact ⟨Or.inr (hphase.leave hm),trivial⟩
        · obtain ⟨hphase',hok'⟩ := hphase.step hconn hs hwait hfine' hshut
          exact ⟨Or.inl hphase',hok'⟩
      · obtain ⟨hclosing',hok'⟩ := hclosing.step hs hwait
        exact ⟨Or.inr hclosing',hok'⟩
    refine ⟨hnext.1,List.forall_mem_append.mpr ⟨fun b hb => (hok b hb).later a,?_⟩,
      hs.connected_le hconn,htodo'⟩
    exact List.forall_mem_singleton.mpr (hnext.2.later a)

/-- File data is never taken for a command, in every run whose receives find their datagrams
and where nothing comes after a shutdown. -/
theorem followUps_consumed (hcommands : .shutdown ∉ commands.dropLast)
    (h : Run setup (World.init setup commands) acts w) (hwaits : ∀ a ∈ acts, a.Waits)
    (hfine : ∀ a ∈ acts, a.Fine setup) : FollowUpsConsumed setup acts w := by
  obtain ⟨hphase,hok,-,-⟩ := h.closing hcommands hwaits hfine
  refine ⟨fun turn d hmem => hok _ hmem,fun turn ev d hmem => hok _ hmem,?_⟩
  rcases hphase with hphase | hclosing
  · exact hphase.pending
  · exact hclosing.pending

end FollowUps

def sendMsg : CmdMsg := { Client.command .SEND (ascii ['a']) with size := 1 }

def existsMsg : CmdMsg := { Server.reply .FILE_EXISTS 0 with size := 1 }

def declineMsg : CmdMsg := { Client.command .OVERWRITE (ascii ['a']) with size := 1, error := 1 }

/-- A send whose file exists, and that is not confirmed, up to the confirmation. -/
theorem decline_run : ∃ acts w,
    Run sampleSetup (World.init sampleSetup [.send (ascii ['a'])]) acts w ∧
      (∀ a ∈ acts, a.Waits) ∧ (∀ a ∈ acts, a.Fine sampleSetup) ∧
      Act.server 1 ⟨.recvfrom 137,some (sampleSetup.clientAddr,declineMsg.encode)⟩
        (.took (1,declineMsg.encode)) ∈ acts := by
  have hclient : Exec (Client.handleSend (ascii ['a']) ⟨sampleSetup.serverAddr,[]⟩)
      [⟨.fileExists (ascii ['a']),true⟩,⟨.getFileSize (ascii ['a']),1⟩,
        ⟨.sendto sampleSetup.serverAddr sendMsg.encode,true⟩,
        ⟨.recvfrom 137,some (sampleSetup.serverAddr,existsMsg.encode)⟩,⟨.answer,ascii ['n']⟩,
        ⟨.sendto sampleSetup.serverAddr declineMsg.encode,true⟩,
        ⟨.recvfrom 137,some (sampleSetup.serverAddr,(Server.reply .ACK 2).encode)⟩]
      (.CANCELLED,⟨sampleSetup.serverAddr,[]⟩) := exec_of_replay (by decide +kernel)
  obtain ⟨x,hserver⟩ : ∃ x, Exec (Server.dispatch sampleSetup.server sendMsg.encode servingMembers)
      [⟨.metric (.recordRequest "CMD_SEND"),()⟩,⟨.cstring 128 sendMsg.tail,[]⟩,
        ⟨.accepted (ascii ['a']),()⟩,⟨.fileExists (ascii ['b','/','a']),true⟩,
        ⟨.sendto sampleSetup.clientAddr existsMsg.encode,true⟩,
        ⟨.recvfrom 137,some (sampleSetup.clientAddr,declineMsg.encode)⟩,
        ⟨.sendto sampleSetup.clientAddr (Server.reply .ACK 2).encode,true⟩,
        ⟨.cstring 128 sendMsg.tail,[]⟩] x := exec_of_isSome (by decide +kernel)
  have h₀ : Run sampleSetup (World.init sampleSetup [.send (ascii ['a'])]) [] _ := .start
  have h₁ := h₀.step (.begin rfl rfl)
  obtain ⟨p₂,he₂,h₂⟩ := h₁.clientInner [_,_] rfl hclient (by simp [udp,connects])
  obtain ⟨p₃,he₃,h₃⟩ := h₂.clientSends rfl he₂
  have h₄ := h₃.step (.arriveServer rfl)
  have h₅ := h₄.fetches rfl rfl rfl (List.cons_ne_nil _ _)
  obtain ⟨q₆,he₆,h₆⟩ := h₅.serverInner [_,_,_,_] rfl hserver (by simp [udp,accepts])
  obtain ⟨q₇,he₇,h₇⟩ := h₆.serverSends rfl he₆
  have h₈ := h₇.step (.arriveClient rfl)
  obtain ⟨p₉,he₉,h₉⟩ := h₈.clientTakes (d := (1,existsMsg.encode)) rfl rfl he₃
  obtain ⟨p₁₀,he₁₀,h₁₀⟩ := h₉.clientInner [_] rfl he₉ (by simp [udp,connects])
  obtain ⟨p₁₁,he₁₁,h₁₁⟩ := h₁₀.clientSends rfl he₁₀
  have h₁₂ := h₁₁.step (.arriveServer rfl)
  obtain ⟨q₁₃,he₁₃,h₁₃⟩ := h₁₂.serverTakes (d := (1,declineMsg.encode)) rfl rfl he₇
  refine ⟨_,_,h₁₃,?_,?_,List.mem_append_right _ (List.mem_singleton_self _)⟩
  · simp only [List.map_cons,List.map_nil,List.forall_mem_append,List.forall_mem_cons]
    and_intros
    all_goals first | (intro _ h; cases h) | trivial
  · simp only [List.map_cons,List.map_nil,List.forall_mem_append,List.forall_mem_cons]
    and_intros
    all_goals first | (intro _ h; cases h) | exact fun _ => by decide | trivial

theorem followUps_consumed_decline : ∃ acts w,
    Act.server 1 ⟨.recvfrom 137,some (sampleSetup.clientAddr,declineMsg.encode)⟩
      (.took (1,declineMsg.encode)) ∈ acts ∧ FollowUpsConsumed sampleSetup acts w := by
  obtain ⟨acts,w,hrun,hwaits,hfine,hmem⟩ := decline_run
  exact ⟨acts,w,hmem,followUps_consumed (by decide) hrun hwaits hfine⟩

/-- A file that consists of the code of SHUTDOWN. -/
def sixMsg : DataMsg := .received [6]

theorem six_small (m : Client.Members) : Exec (Client.sendSmallFile (ascii ['a']) 1 m)
    [⟨.ifstream (ascii ['a']),true⟩,⟨.read 1,⟨[6],by decide⟩⟩,
      ⟨.sendto m.serverAddr sixMsg.toList,true⟩,⟨.recvfrom 137,none⟩] (.TIMEOUT,m) := by
  refine exec_call.mpr ⟨true,_,rfl,exec_call.mpr ⟨⟨[6],by decide⟩,_,rfl,?_⟩⟩
  refine exec_call.mpr ⟨true,_,rfl,exec_call.mpr ⟨none,_,rfl,?_⟩⟩
  exact .ret _

theorem six_send : Exec (Client.handleSend (ascii ['a']) ⟨sampleSetup.serverAddr,[]⟩)
      [⟨.fileExists (ascii ['a']),true⟩,⟨.getFileSize (ascii ['a']),1⟩,
        ⟨.sendto sampleSetup.serverAddr sendMsg.encode,true⟩,
        ⟨.recvfrom 137,some (sampleSetup.serverAddr,ack.encode)⟩,⟨.ifstream (ascii ['a']),true⟩,
        ⟨.read 1,⟨[6],by decide⟩⟩,⟨.sendto sampleSetup.serverAddr sixMsg.toList,true⟩,
        ⟨.recvfrom 137,none⟩]
      (.TIMEOUT,⟨sampleSetup.serverAddr,[]⟩) := by
  have hvalid : isValidFilename (getFilename (ascii ['a'])) = true := by decide +kernel
  simp only [Client.handleSend,hvalid,↓reduceIte]
  refine exec_call.mpr ⟨true,_,rfl,exec_call.mpr ⟨1,_,rfl,?_⟩⟩
  refine exec_call.mpr ⟨true,_,rfl,?_⟩
  have hack : CmdMsg.decode (overlay CmdMsg.new.encode ack.encode) = ack := by
    rw [overlay_full (by simp),CmdMsg.decode_encode]
  refine Client.runs_receiveResponse_bind.mpr (Or.inr ⟨_,_,_,rfl,?_⟩)
  have hne : ack.encode ≠ [] := List.cons_ne_nil _ _
  rw [if_neg hne,hack]
  dsimp only
  rw [ite_success,if_neg (by decide),if_pos (by decide),Client.sendFile,if_neg (by decide)]
  exact six_small ⟨sampleSetup.serverAddr,[]⟩

/-- The server acknowledges the send, and does not wait for the data. -/
theorem eager_serve : ∃ m : Server.Members, m.shutdownRequested = false ∧
    Exec (Server.dispatch sampleSetup.server sendMsg.encode servingMembers)
      [⟨.metric (.recordRequest "CMD_SEND"),()⟩,⟨.cstring 128 sendMsg.tail,[]⟩,
        ⟨.accepted (ascii ['a']),()⟩,⟨.fileExists (ascii ['b','/','a']),false⟩,
        ⟨.sendto sampleSetup.clientAddr ack.encode,true⟩,⟨.recvfrom 3000,none⟩,
        ⟨.sendto sampleSetup.clientAddr (Server.reply .ACK 1).encode,true⟩,
        ⟨.cstring 128 sendMsg.tail,[]⟩,⟨.metric (.recordError "CMD_SEND" "SOCKET_RECV_ERROR"),()⟩]
      (true,m) := by
  have h : (replay (Server.dispatch sampleSetup.server sendMsg.encode servingMembers)
      [⟨.metric (.recordRequest "CMD_SEND"),()⟩,⟨.cstring 128 sendMsg.tail,[]⟩,
        ⟨.accepted (ascii ['a']),()⟩,⟨.fileExists (ascii ['b','/','a']),false⟩,
        ⟨.sendto sampleSetup.clientAddr ack.encode,true⟩,⟨.recvfrom 3000,none⟩,
        ⟨.sendto sampleSetup.clientAddr (Server.reply .ACK 1).encode,true⟩,
        ⟨.cstring 128 sendMsg.tail,[]⟩,
        ⟨.metric (.recordError "CMD_SEND" "SOCKET_RECV_ERROR"),()⟩]).map
      (fun x => (x.1,x.2.shutdownRequested)) = some (true,false) := by decide +kernel
  obtain ⟨⟨goesOn,m⟩,hx,he⟩ := Option.map_eq_some_iff.mp h
  obtain ⟨rfl,hm⟩ := Prod.mk.inj he
  exact ⟨m,hm,exec_of_replay hx⟩

/-- The main loop receives the data of a file: the client sends it when the server, that
found nothing in its queue, has left the handler. -/
theorem eager_run : ∃ acts w,
    Run sampleSetup (World.init sampleSetup [.send (ascii ['a'])]) acts w ∧
      Act.fetch 1 sixMsg.toList ∈ acts := by
  obtain ⟨m,hm,hserver⟩ := eager_serve
  have h₀ : Run sampleSetup (World.init sampleSetup [.send (ascii ['a'])]) [] _ := .start
  have h₁ := h₀.step (.begin rfl rfl)
  have hlook : ∀ ev ∈ ([⟨.fileExists (ascii ['a']),true⟩,⟨.getFileSize (ascii ['a']),1⟩] : Trace),
      udp sampleSetup.serverAddr 1 ev.1 = .inner ∧ connects ev = false := by
    simp [udp,connects]
  obtain ⟨p₂,he₂,h₂⟩ := h₁.clientInner [_,_] rfl six_send hlook
  obtain ⟨p₃,he₃,h₃⟩ := h₂.clientSends rfl he₂
  have h₄ := h₃.step (.arriveServer rfl)
  have h₅ := h₄.fetches rfl rfl rfl (List.cons_ne_nil _ _)
  obtain ⟨q₆,he₆,h₆⟩ := h₅.serverInner [_,_,_,_] rfl hserver (by simp [udp,accepts])
  obtain ⟨q₇,he₇,h₇⟩ := h₆.serverSends rfl he₆
  have h₈ := h₇.step (.arriveClient rfl)
  -- its receive returns at once
  obtain ⟨q₉,he₉,h₉⟩ := h₈.serverAgain rfl rfl he₇
  obtain ⟨q₁₀,he₁₀,h₁₀⟩ := h₉.serverSends rfl he₉
  obtain ⟨q₁₁,he₁₁,h₁₁⟩ := h₁₀.serverInner [_,_] rfl he₁₀ (by simp [udp,accepts])
  obtain rfl := exec_nil he₁₁
  have h₁₂ := h₁₁.step (.finish rfl)
  obtain ⟨p₁₃,he₁₃,h₁₃⟩ := h₁₂.clientTakes (d := (1,ack.encode)) rfl rfl he₃
  obtain ⟨p₁₄,he₁₄,h₁₄⟩ := h₁₃.clientInner [_,_] rfl he₁₃ (by simp [udp,connects])
  obtain ⟨p₁₅,he₁₅,h₁₅⟩ := h₁₄.clientSends rfl he₁₄
  have h₁₆ := h₁₅.step (.arriveServer rfl)
  have hne : sixMsg.toList ≠ [] := List.ne_nil_of_length_pos (by simp)
  have h₁₇ := h₁₆.fetches rfl hm rfl hne
  exact ⟨_,_,h₁₇,List.mem_append_right _ (List.mem_singleton_self _)⟩

theorem not_followUps_consumed_always :
    ¬∀ (setup : Setup) (commands : List ClientCommand) (acts : List Act) (w : World),
      Run setup (World.init setup commands) acts w → FollowUpsConsumed setup acts w := by
  intro hall
  obtain ⟨acts,w,hrun,hmem⟩ := eager_run
  exact (hall _ _ acts w hrun).main 1 _ hmem (.data sixMsg)

end NetworkLab.Backup
