import NetworkLab.Backup.Dialogue
set_option autoImplicit false

/-! Whole runs of client and server: which reply belongs to which command. -/

namespace NetworkLab.Backup
open Interaction

/-- A receive waits until its datagram is there. -/
def Act.Waits : Act → Prop
  | .client _ ev _ => ∀ size, ev ≠ ⟨.recvfrom size,none⟩
  | .server _ ev _ => ∀ size, ev ≠ ⟨.recvfrom size,none⟩
  | _ => True

/-- The client gets its file through, and renames with the handshake. -/
def Act.Fine (setup : Setup) : Act → Prop
  | .begin (.rename _ _) => setup.client.enableHandshake = true
  | .client _ ev _ => ClientCan ev
  | _ => True

section Phases
variable (setup : Setup)

/-- The server has nothing to send or to receive for the turns before `turn`, and has not
seen this one. -/
def Behind (connected : List Nat) (turn : Nat) : ServerStatus → Prop
  | .serving t q => t < turn ∧ ∃ g, (t ∈ connected → g = true) ∧ Quiet (wiring setup t) g q
  | _ => True

/-- The server is in its handler for this turn, or has left it. -/
inductive At (turn : Nat) : Prog Res (Bool × Server.Members) → ServerStatus → Prop where
  | serving (q : Prog Res (Bool × Server.Members)) : At turn q (.serving turn q)
  | idle (goesOn : Bool) (m : Server.Members) : At turn (.ret (goesOn,m)) (.idle m)
  | stopped (goesOn : Bool) (m : Server.Members) : At turn (.ret (goesOn,m)) .stopped

/-- Client and server together: between two commands, before a command is sent, on its way,
and while the server processes it. -/
inductive Phase (acts : List Act) (w : World) : Prop where
  | between {m : Client.Members} : w.client = .idle m → m.serverAddr = setup.serverAddr →
      Behind setup w.connected (w.turn + 1) w.server → w.toServer.content = [] →
      w.toClient.content = [] → Phase acts w
  | opening {c : ClientCommand} {p : Prog Res (ErrorCode × Client.Members)} {g : Bool} :
      w.client = .running c p → (w.turn ∈ w.connected → g = true) →
      Opens (wiring setup w.turn) (fun a => Ends setup c a []) (Served setup w.turn c) p g →
      Behind setup w.connected w.turn w.server → w.toServer.content = [] →
      w.toClient.content = [] → Phase acts w
  | asked {c : ClientCommand} {p : Prog Res (ErrorCode × Client.Members)} {g : Bool}
      {d : Tagged} : w.client = .running c p → (w.turn ∈ w.connected → g = true) →
      Waiting (udp setup.serverAddr w.turn) p → Served setup w.turn c d p g →
      Behind setup w.connected w.turn w.server → w.toServer.content = [d] →
      w.toClient.content = [] → Phase acts w
  | served {c : ClientCommand} {p : Prog Res (ErrorCode × Client.Members)} {g : Bool}
      {q : Prog Res (Bool × Server.Members)} {calls : List (Event Res)} :
      w.client = .running c p → (w.turn ∈ w.connected → g = true) → At w.turn q w.server →
      (∀ ev ∈ calls, ∃ io, Act.server w.turn ev io ∈ acts) →
      Fits setup w.turn c p g w.toServer.content q calls w.toClient.content →
      (∀ d ∈ w.toServer.content, d.1 = w.turn) → (∀ d ∈ w.toClient.content, d.1 = w.turn) →
      Phase acts w

end Phases

/-- What one action shows of the matching. -/
def Act.Ok (setup : Setup) (acts : List Act) : Act → Prop
  | .client turn _ (.took d) => d.1 = turn
  | .returned turn c e => ∃ calls, Performed setup.server.backupDir c e calls ∧
      ∀ ev ∈ calls, ∃ io, Act.server turn ev io ∈ acts
  | .fetch _ datagram => ¬FollowUp datagram
  | .server turn ev (.took d) => d.1 = turn ∧ FollowUp d.2 ∧ ev.1 = .recvfrom d.2.length
  | _ => True

theorem Act.Ok.later {setup : Setup} {acts : List Act} {a : Act} (h : a.Ok setup acts) (b : Act) :
    a.Ok setup (acts ++ [b]) := by
  unfold Act.Ok at h ⊢
  split
  · exact h
  · obtain ⟨calls,hdone,hcalls⟩ := h
    refine ⟨calls,hdone,fun ev hev => ?_⟩
    obtain ⟨io,hio⟩ := hcalls ev hev
    exact ⟨io,List.mem_append_left _ hio⟩
  · exact h
  · exact h
  · trivial

section Steps
variable {setup : Setup} {acts : List Act} {w : World} {turn : Nat} {connected : List Nat}

theorem sent_turn {α : Type} {peer : Addr} {p p' : Prog Res α} {ev : Event Res} {d : Tagged}
    (h : Advance (udp peer turn) p ev (.sent d) p') : d.1 = turn := by
  cases h with
  | @out o k m a ho =>
    unfold udp at ho
    split at ho
    · split at ho
      · cases ho
        rfl
      · cases ho
    · cases ho
    · cases ho

theorem Behind.next {s : ServerStatus} (h : Behind setup connected turn s) :
    Behind setup connected (turn + 1) s := by
  cases s with
  | idle => trivial
  | stopped => trivial
  | serving t q => exact ⟨Nat.lt_succ_of_lt h.1,h.2⟩

/-- The client connects in the present turn. -/
theorem Behind.connect {s : ServerStatus} {connected' : List Nat}
    (hc : ∀ t ∈ connected', t < turn → t ∈ connected) (h : Behind setup connected turn s) :
    Behind setup connected' turn s := by
  cases s with
  | idle => trivial
  | stopped => trivial
  | serving t q =>
    obtain ⟨hlt,g,hg,hq⟩ := h
    exact ⟨hlt,g,fun ht => hg (hc t ht hlt),hq⟩

theorem Behind.server {t : Nat} {q q' : Prog Res (Bool × Server.Members)} {ev : Event Res}
    {io : Io Tagged} (h : Behind setup connected turn (.serving t q))
    (ha : Advance (udp setup.clientAddr t) q ev io q') (hacc : accepts ev → t ∈ connected) :
    io = .quiet ∧ Behind setup connected turn (.serving t q') := by
  obtain ⟨hlt,g,hg,hq⟩ := h
  obtain ⟨hio,hq'⟩ := hq.step ha fun _ he => hg (hacc he)
  exact ⟨hio,hlt,g,hg,hq'⟩

theorem Behind.finish {t : Nat} {goesOn : Bool} {m : Server.Members} :
    Behind setup connected t (if goesOn then .idle m else .stopped) := by
  cases goesOn <;> trivial

theorem At.finish {goesOn : Bool} {m : Server.Members} :
    At turn (.ret (goesOn,m)) (if goesOn then .idle m else .stopped) := by
  cases goesOn with
  | true => exact .idle true m
  | false => exact .stopped false m

theorem At.behind {q : Prog Res (Bool × Server.Members)} {s : ServerStatus} {g : Bool}
    (h : At turn q s) (hg : turn ∈ connected → g = true) (hq : Quiet (wiring setup turn) g q) :
    Behind setup connected (turn + 1) s := by
  cases h with
  | serving => exact ⟨Nat.lt_succ_self _,g,hg,hq⟩
  | idle => trivial
  | stopped => trivial

/-- More actions do no harm. -/
theorem Phase.later {a : Act} (h : Phase setup acts w) : Phase setup (acts ++ [a]) w := by
  cases h with
  | between hc hm hb hs hr => exact .between hc hm hb hs hr
  | opening hc hg ho hb hs hr => exact .opening hc hg ho hb hs hr
  | asked hc hg hw hv hb hs hr => exact .asked hc hg hw hv hb hs hr
  | served hc hg ha hcalls hf hs hr =>
    refine .served hc hg ha (fun ev hev => ?_) hf hs hr
    obtain ⟨io,hio⟩ := hcalls ev hev
    exact ⟨io,List.mem_append_left _ hio⟩

/-! One action of each kind. -/

theorem Phase.begin {c : ClientCommand} {rest : List ClientCommand} {m : Client.Members}
    (h : Phase setup acts w) (hconn : ∀ t ∈ w.connected, t ≤ w.turn) (hm : w.client = .idle m)
    (hc : c ≠ .shutdown)
    (hrename : ∀ oldName newName, c = .rename oldName newName →
      setup.client.enableHandshake = true) :
    Phase setup acts
      { w with
        todo := rest
        turn := w.turn + 1
        client := .running c (c.handler setup.client m) } := by
  cases h with
  | between hidle haddr hb hs hr =>
    obtain rfl := ClientStatus.idle.inj (hidle.symm.trans hm)
    refine .opening rfl (fun hmem => ?_) (opens_handler haddr hc hrename) hb hs hr
    exact absurd (hconn _ hmem) (by simp)
  | opening hrun => cases hrun.symm.trans hm
  | asked hrun => cases hrun.symm.trans hm
  | served hrun => cases hrun.symm.trans hm

theorem Phase.client {c : ClientCommand} {p p' : Prog Res (ErrorCode × Client.Members)}
    {ev : Event Res} {io : Io Tagged} {toClient' : Channel Tagged} (h : Phase setup acts w)
    (hp : w.client = .running c p) (ha : Advance (udp setup.serverAddr w.turn) p ev io p')
    (hin : Channel.Pull io w.toClient toClient') (hcan : ClientCan ev) :
    Phase setup acts
        { w with
          client := .running c p'
          toServer := w.toServer.push io
          toClient := toClient'
          connected := if connects ev then w.turn :: w.connected else w.connected } ∧
      ∀ d, io = .took d → d.1 = w.turn := by
  have hpull := hin.content
  have hpush : (w.toServer.push io).content = io.push w.toServer.content :=
    w.toServer.content_push io
  have hg' : ∀ g, (w.turn ∈ w.connected → g = true) →
      w.turn ∈ (if connects ev then w.turn :: w.connected else w.connected) →
      (wiring setup w.turn).note g ev = true := by
    intro g hg hmem
    cases hc : connects ev with
    | true => exact Bool.or_eq_true_iff.mpr (Or.inl hc)
    | false =>
      rw [hc,if_neg (by simp)] at hmem
      exact Bool.or_eq_true_iff.mpr (Or.inr (hg hmem))
  have hbehind : ∀ {s}, Behind setup w.connected w.turn s →
      Behind setup (if connects ev then w.turn :: w.connected else w.connected) w.turn s := by
    refine fun hb => hb.connect fun t ht hlt => ?_
    split at ht
    · exact (List.mem_cons.mp ht).resolve_left (Nat.ne_of_lt hlt)
    · exact ht
  cases h with
  | between hidle => cases hidle.symm.trans hp
  | opening hrun hg ho hb hs hr =>
    obtain ⟨rfl,rfl⟩ := ClientStatus.running.inj (hrun.symm.trans hp)
    rcases ho.step ha fun _ => hcan with ⟨rfl,ho'⟩ | ⟨d,rfl,hw,hserved⟩
    · exact ⟨.opening rfl (hg' _ hg) ho' (hbehind hb) hs (hpull.trans hr),fun d he => nomatch he⟩
    · refine ⟨.asked rfl (hg' _ hg) hw hserved (hbehind hb) ?_ (hpull.trans hr),
        fun d he => nomatch he⟩
      rw [hpush,hs]
      rfl
  | asked hrun hg hw hserved hb hs hr =>
    obtain ⟨rfl,rfl⟩ := ClientStatus.running.inj (hrun.symm.trans hp)
    obtain ⟨d,rfl⟩ := hw.took ha
    cases hr.symm.trans hpull
  | served hrun hg hat hcalls hf hs hr =>
    obtain ⟨rfl,rfl⟩ := ClientStatus.running.inj (hrun.symm.trans hp)
    obtain ⟨htook,hr'⟩ := hpull.forall hr
    refine ⟨.served rfl (hg' _ hg) hat hcalls (hpush ▸ hf.clientStep ha hpull fun _ => hcan)
      ?_ hr',htook⟩
    rw [hpush]
    exact Io.forall_push hs fun d hd => sent_turn (hd ▸ ha)

theorem Phase.returned {c : ClientCommand} {e : ErrorCode} {m : Client.Members}
    (h : Phase setup acts w) (hp : w.client = .running c (.ret (e,m))) :
    Phase setup acts { w with client := .idle m } ∧
      ∃ calls, Performed setup.server.backupDir c e calls ∧
        ∀ ev ∈ calls, ∃ io, Act.server w.turn ev io ∈ acts := by
  cases h with
  | between hidle => cases hidle.symm.trans hp
  | opening hrun hg ho hb hs hr =>
    obtain ⟨rfl,rfl⟩ := ClientStatus.running.inj (hrun.symm.trans hp)
    cases ho with
    | ret hends =>
      exact ⟨.between rfl hends.1 hb.next hs hr,[],hends.2,fun ev hev => nomatch hev⟩
  | asked hrun hg hw =>
    obtain ⟨rfl,rfl⟩ := ClientStatus.running.inj (hrun.symm.trans hp)
    obtain ⟨o,k,f,he,-⟩ := hw
    cases he
  | served hrun hg hat hcalls hf hs hr =>
    obtain ⟨rfl,rfl⟩ := ClientStatus.running.inj (hrun.symm.trans hp)
    obtain ⟨hends,hrequests,hreplies,hq⟩ := hf.returned
    exact ⟨.between rfl hends.1 (hat.behind hg hq) hrequests hreplies,_,hends.2,hcalls⟩

/-- A datagram arrives: the contents of the channels stay. -/
theorem Phase.arrive {toServer' toClient' : Channel Tagged} (h : Phase setup acts w)
    (hs' : toServer'.content = w.toServer.content) (hr' : toClient'.content = w.toClient.content) :
    Phase setup acts { w with toServer := toServer', toClient := toClient' } := by
  cases h with
  | between hidle hm hb hs hr => exact .between hidle hm hb (hs'.trans hs) (hr'.trans hr)
  | opening hrun hg ho hb hs hr => exact .opening hrun hg ho hb (hs'.trans hs) (hr'.trans hr)
  | asked hrun hg hw hv hb hs hr => exact .asked hrun hg hw hv hb (hs'.trans hs) (hr'.trans hr)
  | served hrun hg hat hcalls hf hs hr =>
    exact .served hrun hg hat hcalls (by rw [hs',hr']; exact hf) (by rwa [hs']) (by rwa [hr'])

theorem runs_nextCommand_readable {m m' : Server.Members} {sender : Addr} {d : Bytes}
    {r : Option Bytes} (hd : d ≠ []) (h : Runs Server.nextCommand m
      [⟨.select,.readable⟩,⟨.recvfrom 137,some (sender,d)⟩] r m') :
    r = some d ∧ m' = m.serving sender := by
  obtain ⟨_,_,he,h⟩ := runs_sys_bind.mp h
  cases he
  obtain ⟨_,_,he,h⟩ := exec_call.mp h
  cases he
  change Runs (pure (if d = [] then none else some d)) (m.serving sender) [] r m' at h
  rw [if_neg hd] at h
  exact (runs_pure.mp h).2

theorem Phase.fetch {m m' : Server.Members} {t : Nat} {d : Bytes} {rest : List Tagged}
    {r : Option Bytes} (h : Phase setup acts w) (hm : w.server = .idle m)
    (hqueued : w.toServer.queued = (t,d) :: rest)
    (hnext : Runs Server.nextCommand m
      [⟨.select,.readable⟩,⟨.recvfrom 137,some (setup.clientAddr,d)⟩] r m') :
    Phase setup acts
        { w with
          toServer := ⟨rest,w.toServer.flying⟩
          server := r.elim (.idle m') fun d => .serving t (Server.dispatch setup.server d m') } ∧
      ¬FollowUp d := by
  have hcontent : w.toServer.content = (t,d) :: (rest ++ w.toServer.flying) := by
    rw [Channel.content,hqueued]
    rfl
  have hnone : w.toServer.content ≠ [] := by
    rw [hcontent]
    exact List.cons_ne_nil _ _
  cases h with
  | between hidle haddr hb hs => exact absurd hs hnone
  | opening hrun hg ho hb hs => exact absurd hs hnone
  | asked hrun hg hw hserved hb hs hr =>
    obtain ⟨rfl,hrest⟩ := List.cons.inj (hcontent.symm.trans hs)
    obtain rfl : t = w.turn := hserved.turn_eq
    obtain ⟨rfl,rfl⟩ := runs_nextCommand_readable hserved.ne_nil hnext
    have hempty : (⟨rest,w.toServer.flying⟩ : Channel Tagged).content = [] := hrest
    have hcalls : ∀ ev ∈ ([] : List (Event Res)), ∃ io, Act.server w.turn ev io ∈ acts :=
      fun ev hev => nomatch hev
    refine ⟨.served hrun hg (.serving _) hcalls ?_ ?_ ?_,hserved.command⟩
    · rw [hempty,hr]
      exact hserved.fits _ rfl
    · rw [hempty]
      exact fun d hd => nomatch hd
    · rw [hr]
      exact fun d hd => nomatch hd
  | served hrun hg hat hcalls hf =>
    rw [hm] at hat
    cases hat with
    | idle => exact absurd hf.no_request hnone

theorem Phase.server {t : Nat} {q q' : Prog Res (Bool × Server.Members)} {ev : Event Res}
    {io : Io Tagged} {toServer' : Channel Tagged} (h : Phase setup acts w)
    (hq : w.server = .serving t q) (ha : Advance (udp setup.clientAddr t) q ev io q')
    (hin : Channel.Pull io w.toServer toServer') (hacc : accepts ev → t ∈ w.connected) :
    Phase setup (acts ++ [.server t ev io])
        { w with
          server := .serving t q'
          toClient := w.toClient.push io
          toServer := toServer' } ∧
      ∀ d, io = .took d → d.1 = t ∧ FollowUp d.2 ∧ ev.1 = .recvfrom d.2.length := by
  have hpull := hin.content
  have hpush : (w.toClient.push io).content = io.push w.toClient.content :=
    w.toClient.content_push io
  -- a server that is behind stays so, and leaves the channels alone
  have hquiet : ∀ {turn}, Behind setup w.connected turn w.server →
      io = .quiet ∧ Behind setup w.connected turn (.serving t q') := by
    intro turn hb
    rw [hq] at hb
    exact hb.server ha hacc
  cases h with
  | between hidle haddr hb hs hr =>
    obtain ⟨rfl,hb'⟩ := hquiet hb
    exact ⟨.between hidle haddr hb' (hpull.trans hs) (hpush.trans hr),fun d he => nomatch he⟩
  | opening hrun hg ho hb hs hr =>
    obtain ⟨rfl,hb'⟩ := hquiet hb
    exact ⟨.opening hrun hg ho hb' (hpull.trans hs) (hpush.trans hr),fun d he => nomatch he⟩
  | asked hrun hg hw hserved hb hs hr =>
    obtain ⟨rfl,hb'⟩ := hquiet hb
    exact ⟨.asked hrun hg hw hserved hb' (hpull.trans hs) (hpush.trans hr),fun d he => nomatch he⟩
  | @served c p g q₀ calls hrun hg hat hcalls hf hs hr =>
    rw [hq] at hat
    cases hat
    obtain ⟨htook,hs'⟩ := hpull.forall hs
    have hpost : ∀ a calls ev, Ends setup c a calls → Ends setup c a (calls ++ [ev]) :=
      fun a calls ev he => ⟨he.1,he.2.mono fun _ => List.mem_append_left _⟩
    have hf' := hf.serverStep hpost ha hpull fun _ he => hg (hacc he)
    rw [← hpush] at hf'
    refine ⟨.served hrun hg (.serving q') (List.forall_mem_append.mpr ⟨fun ev' hev' => ?_,?_⟩) hf'
      hs' ?_,?_⟩
    · obtain ⟨io',hio⟩ := hcalls ev' hev'
      exact ⟨io',List.mem_append_left _ hio⟩
    · exact List.forall_mem_singleton.mpr
        ⟨io,List.mem_append_right _ (List.mem_singleton_self _)⟩
    · rw [hpush]
      exact Io.forall_push hr fun d hd => sent_turn (hd ▸ ha)
    · rintro d rfl
      obtain ⟨ho,hfollow⟩ := hf.fits_of_took ha (by rw [show _ = _ from hpull]; rfl)
      exact ⟨htook d rfl,hfollow,ho⟩

theorem Phase.finish {t : Nat} {goesOn : Bool} {m : Server.Members} (h : Phase setup acts w)
    (hq : w.server = .serving t (.ret (goesOn,m))) :
    Phase setup acts { w with server := if goesOn then .idle m else .stopped } := by
  cases h with
  | between hidle haddr hb hs hr => exact .between hidle haddr Behind.finish hs hr
  | opening hrun hg ho hb hs hr => exact .opening hrun hg ho Behind.finish hs hr
  | asked hrun hg hw hserved hb hs hr => exact .asked hrun hg hw hserved Behind.finish hs hr
  | served hrun hg hat hcalls hf hs hr =>
    rw [hq] at hat
    cases hat
    exact .served hrun hg At.finish hcalls hf hs hr

theorem content_arrive {ch : Channel Tagged} {m : Tagged} {rest : List Tagged}
    (h : ch.flying = m :: rest) : (⟨ch.queued ++ [m],rest⟩ : Channel Tagged).content = ch.content := by
  simp [Channel.content,h]

/-- What one action keeps, as long as no shutdown begins. -/
theorem Phase.step {w' : World} {a : Act} (h : Phase setup acts w)
    (hconn : ∀ t ∈ w.connected, t ≤ w.turn) (hs : Step setup w a w') (hwaits : a.Waits)
    (hfine : a.Fine setup) (hshut : a ≠ .begin .shutdown) :
    Phase setup (acts ++ [a]) w' ∧ a.Ok setup acts := by
  cases hs with
  | @begin c rest m htodo hm =>
    refine ⟨(h.begin hconn hm (fun hc => hshut (hc ▸ rfl)) fun o n hc => ?_).later,trivial⟩
    subst hc
    exact hfine
  | @client c p p' ev io toClient' hp ha hin =>
    obtain ⟨hphase,htook⟩ := h.client hp ha hin hfine
    refine ⟨hphase.later,?_⟩
    cases io with
    | took d => exact htook d rfl
    | quiet => trivial
    | sent d => trivial
  | timeout => exact absurd rfl (hwaits _)
  | returned hp =>
    obtain ⟨hphase,hdone⟩ := h.returned hp
    exact ⟨hphase.later,hdone⟩
  | arriveServer hm => exact ⟨(h.arrive (content_arrive hm) rfl).later,trivial⟩
  | arriveClient hm => exact ⟨(h.arrive rfl (content_arrive hm)).later,trivial⟩
  | fetch hm hshutdown hqueued hnext =>
    obtain ⟨hphase,hcommand⟩ := h.fetch hm hqueued hnext
    exact ⟨hphase.later,hcommand⟩
  | @server t q q' ev io toServer' hq ha hin hacc =>
    obtain ⟨hphase,htook⟩ := h.server hq ha hin hacc
    refine ⟨hphase,?_⟩
    cases io with
    | took d => exact htook d rfl
    | quiet => trivial
    | sent d => trivial
  | again => exact absurd rfl (hwaits _)
  | finish hq => exact ⟨(h.finish hq).later,trivial⟩

theorem Step.connected_le {w' : World} {a : Act} (hs : Step setup w a w')
    (h : ∀ t ∈ w.connected, t ≤ w.turn) : ∀ t ∈ w'.connected, t ≤ w'.turn := by
  cases hs with
  | begin => exact fun t ht => Nat.le_succ_of_le (h t ht)
  | client =>
    intro t ht
    dsimp only at ht
    split at ht
    · rcases List.mem_cons.mp ht with rfl | ht
      · exact Nat.le_refl _
      · exact h t ht
    · exact h t ht
  | timeout => exact h
  | returned => exact h
  | arriveServer => exact h
  | arriveClient => exact h
  | fetch => exact h
  | server => exact h
  | again => exact h
  | finish => exact h

/-- The commands that are left are those that have not begun. -/
theorem Step.todo {w' : World} {a : Act} (hs : Step setup w a w') :
    (∃ c, a = .begin c ∧ w.todo = c :: w'.todo) ∨ (∀ c, a ≠ .begin c) ∧ w'.todo = w.todo := by
  cases hs with
  | begin htodo => exact Or.inl ⟨_,rfl,htodo⟩
  | client => exact Or.inr ⟨fun c he => (nomatch he),rfl⟩
  | timeout => exact Or.inr ⟨fun c he => (nomatch he),rfl⟩
  | returned => exact Or.inr ⟨fun c he => (nomatch he),rfl⟩
  | arriveServer => exact Or.inr ⟨fun c he => (nomatch he),rfl⟩
  | arriveClient => exact Or.inr ⟨fun c he => (nomatch he),rfl⟩
  | fetch => exact Or.inr ⟨fun c he => (nomatch he),rfl⟩
  | server => exact Or.inr ⟨fun c he => (nomatch he),rfl⟩
  | again => exact Or.inr ⟨fun c he => (nomatch he),rfl⟩
  | finish => exact Or.inr ⟨fun c he => (nomatch he),rfl⟩

end Steps

/-! Replies. -/

/-- Each reply that a handler reads was sent for its command, a reply is on its way only
while the handler that waits for it runs, and success is reported only where the server
has done what it was asked for. -/
structure RepliesMatched (setup : Setup) (acts : List Act) (w : World) : Prop where
  own : ∀ turn ev d, Act.client turn ev (.took d) ∈ acts → d.1 = turn
  none_left : ∀ d ∈ w.toClient.content, d.1 = w.turn ∧ ∃ c p, w.client = .running c p
  removed : ∀ turn filename, Act.returned turn (.remove filename) .SUCCESS ∈ acts →
    ∃ io, Act.server turn
      ⟨.deleteFile (joinPath setup.server.backupDir (wireName filename)),true⟩ io ∈ acts
  renamed : ∀ turn oldName newName, Act.returned turn (.rename oldName newName) .SUCCESS ∈ acts →
    ∃ io, Act.server turn ⟨.renameFile (joinPath setup.server.backupDir (wireName oldName))
      (joinPath setup.server.backupDir (wireNewName newName)),true⟩ io ∈ acts

section Replies
variable {setup : Setup} {acts : List Act} {w : World} {commands : List ClientCommand}

theorem Phase.none_left (h : Phase setup acts w) :
    ∀ d ∈ w.toClient.content, d.1 = w.turn ∧ ∃ c p, w.client = .running c p := by
  intro d hd
  cases h with
  | between hidle haddr hb hs hr =>
    rw [hr] at hd
    cases hd
  | opening hrun hg ho hb hs hr =>
    rw [hr] at hd
    cases hd
  | asked hrun hg hw hserved hb hs hr =>
    rw [hr] at hd
    cases hd
  | served hrun hg hat hcalls hf hs hr => exact ⟨hr d hd,_,_,hrun⟩

theorem phase_init : Phase setup [] (World.init setup commands) :=
  .between rfl rfl trivial rfl rfl

/-- A run keeps its phase, and every action of it is in order. -/
theorem Run.phase (h : Run setup (World.init setup commands) acts w)
    (hcommands : .shutdown ∉ commands) (hwaits : ∀ a ∈ acts, a.Waits)
    (hfine : ∀ a ∈ acts, a.Fine setup) :
    Phase setup acts w ∧ (∀ a ∈ acts, a.Ok setup acts) ∧ (∀ t ∈ w.connected, t ≤ w.turn) ∧
      .shutdown ∉ w.todo := by
  induction h with
  | start => exact ⟨phase_init,fun a ha => (nomatch ha),fun t ht => (nomatch ht),hcommands⟩
  | @step acts w w' a hrun hs ih =>
    obtain ⟨hwaits,hwait⟩ := List.forall_mem_append.mp hwaits
    obtain ⟨hfine,hfine'⟩ := List.forall_mem_append.mp hfine
    obtain ⟨hphase,hok,hconn,htodo⟩ := ih hwaits hfine
    have htodo' : a ≠ .begin .shutdown ∧ .shutdown ∉ w'.todo := by
      rcases hs.todo with ⟨c,rfl,he⟩ | ⟨hno,he⟩
      · rw [he] at htodo
        refine ⟨fun hc => ?_,fun hmem => htodo (List.mem_cons_of_mem _ hmem)⟩
        cases hc
        exact htodo List.mem_cons_self
      · exact ⟨hno _,he ▸ htodo⟩
    obtain ⟨hphase',hok'⟩ := hphase.step hconn hs (List.forall_mem_singleton.mp hwait)
      (List.forall_mem_singleton.mp hfine') htodo'.1
    refine ⟨hphase',List.forall_mem_append.mpr ⟨fun b hb => (hok b hb).later a,?_⟩,
      hs.connected_le hconn,htodo'.2⟩
    exact List.forall_mem_singleton.mpr (hok'.later a)

/-- The replies match the commands in every run without a shutdown whose receives wait. -/
theorem replies_matched (hcommands : .shutdown ∉ commands)
    (h : Run setup (World.init setup commands) acts w) (hwaits : ∀ a ∈ acts, a.Waits)
    (hfine : ∀ a ∈ acts, a.Fine setup) : RepliesMatched setup acts w := by
  obtain ⟨hphase,hok,-,-⟩ := h.phase hcommands hwaits hfine
  refine ⟨fun turn ev d hmem => hok _ hmem,hphase.none_left,fun turn filename hmem => ?_,
    fun turn oldName newName hmem => ?_⟩
  · obtain ⟨calls,hdone,hcalls⟩ := hok _ hmem
    exact hcalls _ (hdone rfl)
  · obtain ⟨calls,hdone,hcalls⟩ := hok _ hmem
    exact hcalls _ (hdone rfl)

end Replies

def sampleSetup : Setup :=
  { client := ⟨true⟩, server := Server.sampleConfig, clientAddr := Server.sampleAddr,
    serverAddr := ⟨2,2⟩ }

/-- The server after a datagram of the client. -/
def servingMembers : Server.Members :=
  { Server.init sampleSetup.server with currentClientAddr := sampleSetup.clientAddr }

def shutdownMsg : CmdMsg := Client.command .SHUTDOWN []

def removeMsg : CmdMsg := Client.command .REMOVE (ascii ['a'])

def ack : CmdMsg := Server.reply .ACK 0

/-- The client's side of a remove that is acknowledged. -/
theorem exec_remove : Exec (Client.handleRemove (ascii ['a']) ⟨sampleSetup.serverAddr,[]⟩)
    [⟨.sendto sampleSetup.serverAddr removeMsg.encode,true⟩,
      ⟨.recvfrom 137,some (sampleSetup.serverAddr,ack.encode)⟩]
    (.SUCCESS,⟨sampleSetup.serverAddr,[]⟩) := exec_of_replay (by decide +kernel)

/-- A shutdown, whose acknowledgement nobody reads, and then a remove, which reads it. -/
theorem stale_run : ∃ acts w,
    Run sampleSetup (World.init sampleSetup [.shutdown,.remove (ascii ['a'])]) acts w ∧
      (∀ a ∈ acts, a.Waits) ∧
      Act.client 2 ⟨.recvfrom 137,some (sampleSetup.serverAddr,ack.encode)⟩
        (.took (1,ack.encode)) ∈ acts := by
  have hshutdown : Exec (Client.handleShutdown ⟨sampleSetup.serverAddr,[]⟩)
      [⟨.sendto sampleSetup.serverAddr shutdownMsg.encode,true⟩]
      (.SUCCESS,⟨sampleSetup.serverAddr,[]⟩) := exec_of_replay (by decide +kernel)
  obtain ⟨x,hserver⟩ : ∃ x, Exec (Server.dispatch sampleSetup.server shutdownMsg.encode
      servingMembers) [⟨.metric (.recordRequest "CMD_SHUTDOWN"),()⟩,
        ⟨.sendto sampleSetup.clientAddr ack.encode,true⟩,⟨.cstring 128 shutdownMsg.tail,[]⟩] x :=
    exec_of_isSome (by decide +kernel)
  have h₀ : Run sampleSetup (World.init sampleSetup [.shutdown,.remove (ascii ['a'])]) [] _ :=
    .start
  have h₁ := h₀.step (.begin rfl rfl)
  obtain ⟨p₂,he₂,h₂⟩ := h₁.clientSends rfl hshutdown
  obtain rfl := exec_nil he₂
  have h₃ := h₂.step (.returned rfl)
  have h₄ := h₃.step (.arriveServer rfl)
  have h₅ := h₄.fetches rfl rfl rfl (List.cons_ne_nil _ _)
  obtain ⟨q₆,he₆,h₆⟩ := h₅.serverInner [_] rfl hserver (by simp [udp,accepts])
  obtain ⟨q₇,he₇,h₇⟩ := h₆.serverSends rfl he₆
  have h₈ := h₇.step (.arriveClient rfl)
  have h₉ := h₈.step (.begin rfl rfl)
  obtain ⟨p₁₀,he₁₀,h₁₀⟩ := h₉.clientSends rfl exec_remove
  obtain ⟨p₁₁,he₁₁,h₁₁⟩ := h₁₀.clientTakes (d := (1,ack.encode)) rfl rfl he₁₀
  refine ⟨_,_,h₁₁,?_,List.mem_append_right _ (List.mem_singleton_self _)⟩
  simp only [List.map_cons,List.map_nil,List.forall_mem_append,List.forall_mem_cons]
  and_intros
  all_goals first | exact fun _ h => nomatch h | trivial

theorem not_replies_matched_always :
    ¬∀ (setup : Setup) (commands : List ClientCommand) (acts : List Act) (w : World),
      Run setup (World.init setup commands) acts w → (∀ a ∈ acts, a.Waits) →
        RepliesMatched setup acts w := by
  intro hall
  obtain ⟨acts,w,hrun,hwaits,hmem⟩ := stale_run
  have hown : 1 = 2 := (hall _ _ acts w hrun hwaits).own 2 _ _ hmem
  cases hown

/-- A remove that succeeds. -/
theorem remove_run : ∃ acts w,
    Run sampleSetup (World.init sampleSetup [.remove (ascii ['a'])]) acts w ∧
      (∀ a ∈ acts, a.Waits) ∧ (∀ a ∈ acts, a.Fine sampleSetup) ∧
      Act.returned 1 (.remove (ascii ['a'])) .SUCCESS ∈ acts := by
  obtain ⟨x,hserver⟩ : ∃ x, Exec (Server.dispatch sampleSetup.server removeMsg.encode
      servingMembers) [⟨.metric (.recordRequest "CMD_REMOVE"),()⟩,⟨.cstring 128 removeMsg.tail,[]⟩,
        ⟨.accepted (ascii ['a']),()⟩,⟨.fileExists (ascii ['b','/','a']),true⟩,
        ⟨.deleteFile (ascii ['b','/','a']),true⟩,⟨.sendto sampleSetup.clientAddr ack.encode,true⟩,
        ⟨.cstring 128 removeMsg.tail,[]⟩] x :=
    exec_of_isSome (by decide +kernel)
  have h₀ : Run sampleSetup (World.init sampleSetup [.remove (ascii ['a'])]) [] _ := .start
  have h₁ := h₀.step (.begin rfl rfl)
  obtain ⟨p₂,he₂,h₂⟩ := h₁.clientSends rfl exec_remove
  have h₃ := h₂.step (.arriveServer rfl)
  have h₄ := h₃.fetches rfl rfl rfl (List.cons_ne_nil _ _)
  obtain ⟨q₅,he₅,h₅⟩ := h₄.serverInner [_,_,_,_,_] rfl hserver (by simp [udp,accepts])
  obtain ⟨q₆,he₆,h₆⟩ := h₅.serverSends rfl he₅
  have h₇ := h₆.step (.arriveClient rfl)
  obtain ⟨p₈,he₈,h₈⟩ := h₇.clientTakes (d := (1,ack.encode)) rfl rfl he₂
  obtain rfl := exec_nil he₈
  have h₉ := h₈.step (.returned rfl)
  refine ⟨_,_,h₉,?_,?_,List.mem_append_right _ (List.mem_singleton_self _)⟩
  · simp only [List.map_cons,List.map_nil,List.forall_mem_append,List.forall_mem_cons]
    and_intros
    all_goals first | exact fun _ h => nomatch h | trivial
  · simp only [List.map_cons,List.map_nil,List.forall_mem_append,List.forall_mem_cons]
    and_intros
    all_goals first | exact fun _ h => nomatch h | trivial

theorem replies_matched_remove : ∃ acts w,
    Act.returned 1 (.remove (ascii ['a'])) .SUCCESS ∈ acts ∧ RepliesMatched sampleSetup acts w := by
  obtain ⟨acts,w,hrun,hwaits,hfine,hmem⟩ := remove_run
  exact ⟨acts,w,hmem,replies_matched (by decide) hrun hwaits hfine⟩

end NetworkLab.Backup
