import NetworkLab.Lab2.Dispatch
set_option autoImplicit false

/-! Where the client and the server can be at one time. -/

namespace NetworkLab.Lab2
open Relation

/-- New names of files that the server did not wait for, and will ignore. -/
def Leftover (P : Platform) (q : List Datagram) : Prop :=
  ∀ x ∈ q, ∃ d, x = .data d ∧ ∀ m, Ignored (P.asCmd m d).cmd

/-- The client goes back to its prompt, whatever it receives. -/
inductive Ends : Client → Prop where
  | lsReply : Ends .lsReply
  | cancelReply : Ends .cancelReply
  | doneReply : Ends .doneReply
  | dataReply : Ends .dataReply
  | removeReply : Ends .removeReply

def Client.Connects (c : Client) : Prop :=
  ∃ filename file tcpPort, c = .connecting filename file tcpPort

/-- The datagram that the client waits for an answer to, and what it has sent behind it. -/
inductive Asks (P : Platform) (agreed : List Name) : Client → Datagram → List Datagram → Prop where
  | ls (m : CmdMsg) : m.cmd = .ls → Asks P agreed .lsReply (.cmd m) []
  | send (filename : Name) (file : Bytes) (m : CmdMsg) : m.cmd = .send →
      m.filename = sentName P filename → m.size = file.length →
      Asks P agreed (.sendReply filename file) (.cmd m) []
  | overwrite (filename : Name) (file : Bytes) (m : CmdMsg) : m.cmd = .overwrite → m.error = 0 →
      m.filename = sentName P filename → m.size = file.length → m.filename ∈ agreed →
      Asks P agreed (.overwriteReply filename file) (.cmd m) []
  | cancel (m : CmdMsg) : m.cmd = .overwrite → Asks P agreed .cancelReply (.cmd m) []
  | data (x : Datagram) : Asks P agreed .dataReply x []
  | remove (m : CmdMsg) : m.cmd = .remove → Asks P agreed .removeReply (.cmd m) []
  | renameFirst (newFilename : Name) (m : CmdMsg) : m.cmd = .rename →
      Asks P agreed (.renameSecond newFilename) (.cmd m) []
  | rename (newFilename : Name) (m : CmdMsg) : m.cmd = .rename →
      Asks P agreed (.renameReply newFilename) (.cmd m) [.data (nameBuffer P newFilename)]
  | confirm (m : CmdMsg) : m.cmd = .overwrite → Asks P agreed .renameConfirmReply (.cmd m) []

/-- An answer on its way, with the server back in its loop. -/
inductive Gets (P : Platform) : Client → Datagram → Prop where
  | ends (c : Client) (x : Datagram) : Ends c → Gets P c x
  | existing (filename : Name) (file : Bytes) (m : CmdMsg) : m.cmd = .fileExists →
      Gets P (.sendReply filename file) (.cmd m)
  | small (filename : Name) (file : Bytes) (m : CmdMsg) : m.cmd = .ack →
      file.length ≤ P.dataBufLen → Gets P (.sendReply filename file) (.cmd m)
  | overwritten (filename : Name) (file : Bytes) (m : CmdMsg) : m.cmd = .ack →
      file.length ≤ P.dataBufLen → Gets P (.overwriteReply filename file) (.cmd m)
  | missing (newFilename : Name) (m : CmdMsg) : m.cmd = .ack →
      Gets P (.renameSecond newFilename) (.cmd m)
  | renamed (newFilename : Name) (m : CmdMsg) : m.cmd = .ack →
      Gets P (.renameReply newFilename) (.cmd m)
  | target (newFilename : Name) (m : CmdMsg) : m.cmd = .fileExists →
      Gets P (.renameReply newFilename) (.cmd m)
  | confirmed (m : CmdMsg) : m.cmd = .ack → Gets P .renameConfirmReply (.cmd m)

/-- The server in `accept`, with the port on its way to the client. -/
inductive Offers (P : Platform) (agreed : List Name) (s : Server) : Client → Prop where
  | new (filename : Name) (file : Bytes) : P.dataBufLen < file.length →
      s.cmdMsg.filename = sentName P filename → s.cmdMsg.size = file.length →
      s.disk s.cmdMsg.filename = none → Offers P agreed s (.sendReply filename file)
  | overwrite (filename : Name) (file : Bytes) : P.dataBufLen < file.length →
      s.cmdMsg.filename = sentName P filename → s.cmdMsg.size = file.length →
      s.cmdMsg.filename ∈ agreed → Offers P agreed s (.overwriteReply filename file)
  | ends (c : Client) : Ends c → Offers P agreed s c
  | confirm : Offers P agreed s .renameConfirmReply

/-- The server at the `recvfrom` for a new name. -/
inductive Names (P : Platform) : Client → List Datagram → Prop where
  | first (newFilename : Name) : Names P (.renameSecond newFilename) []
  | both (newFilename : Name) :
      Names P (.renameReply newFilename) [.data (nameBuffer P newFilename)]
  | data : Names P .dataReply []

/-- The server at the `recvfrom` for a confirmation. -/
inductive Confirms (P : Platform) (agreed : List Name) (new : Name) :
    Client → List Datagram → List Datagram → Prop where
  | asked (newFilename : Name) (m : CmdMsg) : new = cString (nameBuffer P newFilename) →
      m.cmd = .fileExists → Confirms P agreed new (.renameReply newFilename) [] [.cmd m]
  | told (m : CmdMsg) : m.cmd = .overwrite → (m.error = 0 → new ∈ agreed) →
      Confirms P agreed new .renameConfirmReply [.cmd m] []

inductive Phase (P : Platform) (s : Sys) : Prop where
  | ended : s.server.Over → Phase P s
  | stuck (overwriting : Bool) : s.server.place = .accepting overwriting → ¬s.client.Connects →
      s.toClient = [] → Phase P s
  | closing (before : List Datagram) (m : CmdMsg) (after : List Datagram) : s.server.AtLoop →
      Leftover P before → s.toServer = before ++ .cmd m :: after → m.cmd = .shutdown →
      ¬s.client.Connects → s.toClient = [] → Phase P s
  | quiet : s.server.AtLoop → Leftover P s.toServer → ¬s.client.Connects → s.toClient = [] →
      Phase P s
  | asked (before : List Datagram) (x : Datagram) (after : List Datagram) : s.server.AtLoop →
      Leftover P before → s.toServer = before ++ x :: after →
      Asks P s.agreed s.client x after → s.toClient = [] → Phase P s
  | reading : s.server.place = .fileData →
      ((∃ filename file, s.client = .sendReply filename file ∧ file.length ≤ P.dataBufLen) ∨
        s.client = .dataReply) → s.toServer = [] → s.toClient = [] → Phase P s
  | naming : s.server.place = .newName → Names P s.client s.toServer → s.toClient = [] → Phase P s
  | confirming (new : Name) : s.server.place = .confirm new →
      Confirms P s.agreed new s.client s.toServer s.toClient → Phase P s
  | replied (x : Datagram) : s.server.AtLoop → Leftover P s.toServer → s.toClient = [x] →
      Gets P s.client x → Phase P s
  | offered (overwriting : Bool) (m : CmdMsg) : s.server.place = .accepting overwriting →
      (overwriting = true → s.server.serverState = .waiting) → s.toServer = [] →
      s.toClient = [.cmd m] →
      m.cmd = .ack → Offers P s.agreed s.server s.client → Phase P s
  | connecting (overwriting : Bool) (filename : Name) (file : Bytes) (tcpPort : Nat) :
      s.server.place = .accepting overwriting →
      (overwriting = true → s.server.serverState = .waiting) → s.toServer = [] →
      s.toClient = [] → s.client = .connecting filename file tcpPort →
      s.server.cmdMsg.filename = sentName P filename → s.server.cmdMsg.size = file.length →
      (s.server.disk s.server.cmdMsg.filename = none ∨
        s.server.cmdMsg.filename ∈ s.agreed) → Phase P s

/-- The new name that the client is about to send, or has sent last. -/
def Client.newName : Client → Option Name
  | .renameSecond newFilename | .renameReply newFilename => some newFilename
  | _ => none

/-- That name is no command to the server. -/
def PlainName (P : Platform) (c : Client) : Prop :=
  ∀ new ∈ c.newName, ∀ m, Ignored (P.asCmd m (nameBuffer P new)).cmd

section Serve
variable {P : Platform} {s : Sys} {listens : Bool} {stack : CmdMsg} {x : Datagram}
variable {rest : List Datagram}

theorem leftover_nil : Leftover P [] := by
  intro x hx
  cases hx

theorem Leftover.head (h : Leftover P (x :: rest)) : Leftover P [x] :=
  fun y hy => h y (by simp [List.mem_singleton.mp hy])

theorem Leftover.tail (h : Leftover P (x :: rest)) : Leftover P rest :=
  fun y hy => h y (List.mem_cons_of_mem _ hy)

/-- A leftover is dropped without an answer, if the server survives it. -/
theorem recv_leftover (listens : Bool) (stack : CmdMsg) {t : Server} (h : t.AtLoop)
    (hx : Leftover P [x]) :
    ∃ u, t.recv P listens stack (some x) = (u,[]) ∧ (u.AtLoop ∨ u.Over) ∧ u.disk = t.disk := by
  obtain ⟨d,rfl,hd⟩ := hx x (by simp)
  have hrecv : t.recv P listens stack (some (.data d)) =
      dispatch P listens { t with cmdMsg := P.asCmd t.cmdMsg d } := by
    simp only [Server.recv,h.2,Platform.cmdOf]
  have hign : Ignored (Server.cmdMsg { t with cmdMsg := P.asCmd t.cmdMsg d }).cmd := hd t.cmdMsg
  rw [hrecv]
  rcases dispatch_ignored (P := P) hign with hdis | hdis
  · exact ⟨_,hdis,Or.inl ⟨rfl,rfl⟩,rfl⟩
  · exact ⟨_,hdis,Or.inr (Or.inr rfl),rfl⟩

theorem Ends.not_connects {c : Client} (h : Ends c) : ¬c.Connects := by
  rintro ⟨filename,file,p,rfl⟩
  cases h

theorem Asks.not_connects {agreed : List Name} {c : Client} (h : Asks P agreed c x rest) :
    ¬c.Connects := by
  rintro ⟨filename,file,p,rfl⟩
  cases h

/-! Who asked, by the command that the server sees. The client waiting for the answer to its data
may have asked for anything. -/

theorem Asks.leftover {agreed : List Name} {c : Client} (h : Asks P agreed c x rest)
    (hplain : PlainName P c) : Leftover P rest := by
  cases h with
  | rename new m _ =>
    intro y hy
    exact ⟨_,List.mem_singleton.mp hy,hplain new rfl⟩
  | _ => exact leftover_nil

theorem Asks.of_ls {agreed : List Name} {c : Client} (h : Asks P agreed c x rest)
    (hc : (P.cmdOf stack x).cmd = .ls) : rest = [] ∧ Ends c := by
  cases h <;> simp_all [Platform.cmdOf,Ends.lsReply,Ends.dataReply]

theorem Asks.of_remove {agreed : List Name} {c : Client} (h : Asks P agreed c x rest)
    (hc : (P.cmdOf stack x).cmd = .remove) : rest = [] ∧ Ends c := by
  cases h <;> simp_all [Platform.cmdOf,Ends.removeReply,Ends.dataReply]

theorem Asks.of_send {agreed : List Name} {c : Client} (h : Asks P agreed c x rest)
    (hc : (P.cmdOf stack x).cmd = .send) : rest = [] ∧
    ((∃ filename file, c = .sendReply filename file ∧
      (P.cmdOf stack x).filename = sentName P filename ∧ (P.cmdOf stack x).size = file.length) ∨
      c = .dataReply) := by
  cases h with
  | send filename file m hm hname hsize => exact ⟨rfl,Or.inl ⟨filename,file,rfl,hname,hsize⟩⟩
  | data x => exact ⟨rfl,Or.inr rfl⟩
  | _ => simp_all [Platform.cmdOf]

theorem Asks.of_rename {agreed : List Name} {c : Client} (h : Asks P agreed c x rest)
    (hc : (P.cmdOf stack x).cmd = .rename) : Names P c rest := by
  cases h <;> simp_all [Platform.cmdOf,Names.first,Names.both,Names.data]

theorem Asks.of_overwrite {agreed : List Name} {c : Client} (h : Asks P agreed c x rest)
    (hc : (P.cmdOf stack x).cmd = .overwrite) : rest = [] ∧
    ((∃ filename file, c = .overwriteReply filename file ∧ (P.cmdOf stack x).error = 0 ∧
      (P.cmdOf stack x).filename = sentName P filename ∧ (P.cmdOf stack x).size = file.length ∧
      (P.cmdOf stack x).filename ∈ agreed) ∨ Ends c ∨ c = .renameConfirmReply) := by
  cases h with
  | overwrite filename file m hm herr hname hsize hagreed =>
    exact ⟨rfl,Or.inl ⟨filename,file,rfl,herr,hname,hsize,hagreed⟩⟩
  | cancel m hm => exact ⟨rfl,Or.inr (Or.inl .cancelReply)⟩
  | data x => exact ⟨rfl,Or.inr (Or.inl .dataReply)⟩
  | confirm m hm => exact ⟨rfl,Or.inr (Or.inr rfl)⟩
  | _ => simp_all [Platform.cmdOf]

theorem Names.gets {c : Client} {q : List Datagram} (h : Names P c q) {m : CmdMsg}
    (hm : m.cmd = .ack) : Gets P c (.cmd m) := by
  cases h with
  | first new => exact .missing new m hm
  | both new => exact .renamed new m hm
  | data => exact .ends _ _ .dataReply

/-- What a command leads to depends on what the client waits for. -/
theorem Phase.of_dispatched (stack : CmdMsg) {t : Server} {agreed : List Name}
    (hx : t.cmdMsg = P.cmdOf stack x) {r : Server × List Datagram} (h : Dispatched P t r)
    (hasks : Asks P agreed s.client x rest) (hplain : PlainName P s.client)
    (hs : s.server = r.1) (hq : s.toServer = rest) (hr : s.toClient = r.2)
    (ha : s.agreed = agreed) : Phase P s := by
  have hleft := hasks.leftover hplain
  have hconn := hasks.not_connects
  rw [← hq] at hleft
  cases h with
  | silent u hu hd => exact .quiet (hs ▸ hu) hleft hconn hr
  | listed u d hc hu hd =>
    rw [hx] at hc
    exact .replied _ (hs ▸ hu) hleft hr (.ends _ _ (hasks.of_ls hc).2)
  | existing u m hc hm hu hd =>
    rw [hx] at hc
    refine .replied _ (hs ▸ hu) hleft hr ?_
    rcases (hasks.of_send hc).2 with ⟨filename,file,he,-,-⟩ | he
    · rw [he]
      exact .existing _ _ _ hm
    · rw [he]
      exact .ends _ _ .dataReply
  | fileData u hc hsize hu hd =>
    rw [hx] at hc hsize
    obtain ⟨hrest,hwho⟩ := hasks.of_send hc
    refine .reading (hs ▸ hu) ?_ (hq.trans hrest) hr
    rcases hwho with ⟨filename,file,he,-,hlen⟩ | he
    · exact Or.inl ⟨filename,file,he,hlen ▸ hsize⟩
    · exact Or.inr he
  | accepting u m ow hwhy hsize hm hu hmsg hd =>
    have hmsg' : s.server.cmdMsg = P.cmdOf stack x := by
      rw [hs,hmsg,hx]
    rw [hx] at hsize
    rcases hwhy with ⟨hc,rfl,hfree⟩ | ⟨hc,herr,rfl,hstate⟩
    · rw [hx] at hc
      obtain ⟨hrest,hwho⟩ := hasks.of_send hc
      refine .offered false m (hs ▸ hu) (fun he => by cases he) (hq.trans hrest) hr hm ?_
      rcases hwho with ⟨filename,file,he,hname,hlen⟩ | he
      · rw [he]
        refine .new _ _ (hlen ▸ hsize) (hmsg' ▸ hname) (hmsg' ▸ hlen) ?_
        rw [hs,hmsg,hd]
        exact hfree
      · rw [he]
        exact .ends _ .dataReply
    · rw [hx] at hc
      obtain ⟨hrest,hwho⟩ := hasks.of_overwrite hc
      refine .offered true m (hs ▸ hu) (fun _ => hs ▸ hstate) (hq.trans hrest) hr hm ?_
      rcases hwho with ⟨filename,file,he,-,hname,hlen,hagreed⟩ | he | he
      · rw [he,ha]
        exact .overwrite _ _ (hlen ▸ hsize) (hmsg' ▸ hname) (hmsg' ▸ hlen) (hmsg' ▸ hagreed)
      · exact .ends _ he
      · rw [he]
        exact .confirm
  | acked u m hwhy hm hu hd =>
    rw [hx] at hwhy
    refine .replied _ (hs ▸ hu) hleft hr ?_
    rcases hwhy with hc | hc | ⟨hc,hsize⟩
    · exact .ends _ _ (hasks.of_remove hc).2
    · exact (hasks.of_rename hc).gets hm
    · rcases (hasks.of_overwrite hc).2 with ⟨filename,file,he,herr,-,hlen,-⟩ | he | he
      · rw [he]
        exact .overwritten _ _ _ hm (hlen ▸ hsize.resolve_left fun hne => hne herr)
      · exact .ends _ _ he
      · rw [he]
        exact .confirmed _ hm
  | newName u hc hu hd =>
    rw [hx] at hc
    refine .naming (hs ▸ hu) ?_ hr
    rw [hq]
    exact hasks.of_rename hc
  | ended u hu hd => exact .ended (hs ▸ hu)

end Serve

end NetworkLab.Lab2
