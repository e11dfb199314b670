import NetworkLab.Lab2.Phases
set_option autoImplicit false

/-! Each step of the client or the server leads from one phase to another. -/

namespace NetworkLab.Lab2
section Server
variable {P : Platform} {s : Sys} {listens : Bool} {stack : CmdMsg} {x : Datagram}
variable {rest : List Datagram}

theorem Dispatched.moves {t : Server} {r : Server × List Datagram} (h : Dispatched P t r) :
    Moves [] t.disk r.1.disk := by
  cases h with
  | acked u m hwhy hm hu hd => exact hd
  | silent u hu hd => exact hd ▸ .refl
  | listed u d hc hu hd => exact hd ▸ .refl
  | existing u m hc hm hu hd => exact hd ▸ .refl
  | fileData u hc hsize hu hd => exact hd ▸ .refl
  | accepting u m ow hwhy hsize hm hu hmsg hd => exact hd ▸ .refl
  | newName u hc hu hd => exact hd ▸ .refl
  | ended u hu hd => exact hd ▸ .refl

theorem recv_none {t : Server} (h : t.AtLoop) : t.recv P listens stack none = (t,[]) := by
  obtain ⟨hstate,hplace⟩ := h
  simp only [Server.recv,hplace]
  rw [process_waiting hstate,← hplace]

/-- The server takes the next datagram. -/
theorem Phase.serve (listens : Bool) (stack : CmdMsg) (h : Phase P s)
    (hplain : PlainName P s.client)
    (hacc : ∀ overwriting, s.server.place ≠ .accepting overwriting)
    (hover : ¬s.server.Over) (hq : s.toServer = x :: rest) :
    Phase P { s with server := (s.server.recv P listens stack (some x)).1
                     toServer := rest
                     toClient := s.toClient ++ (s.server.recv P listens stack (some x)).2 } ∧
    Moves s.agreed s.server.disk (s.server.recv P listens stack (some x)).1.disk := by
  cases h with
  | ended hpl => exact absurd hpl hover
  | stuck ow hpl hc hr => exact absurd hpl (hacc ow)
  | offered ow m hpl => exact absurd hpl (hacc ow)
  | connecting ow filename file port hpl => exact absurd hpl (hacc ow)
  | closing before m after hat hleft hqs hm hc hr =>
    rw [hq] at hqs
    cases before with
    | nil =>
      obtain ⟨rfl,rfl⟩ := List.cons.inj hqs
      have hdis : s.server.recv P listens stack (some (.cmd m)) =
          ({ s.server with cmdMsg := m, serverState := .shutdown, place := .exited },[]) := by
        simp only [Server.recv,hat.2,dispatch,Platform.cmdOf,hm]
        rfl
      rw [hdis]
      exact ⟨.ended (Or.inl rfl),.refl⟩
    | cons y before =>
      obtain ⟨rfl,rfl⟩ := List.cons.inj hqs
      obtain ⟨u,hu,hat',hd⟩ := recv_leftover listens stack hat hleft.head
      rw [hu]
      refine ⟨?_,hd ▸ .refl⟩
      rcases hat' with hat' | hover'
      · exact .closing before m after hat' hleft.tail rfl hm hc (by simpa using hr)
      · exact .ended hover'
  | quiet hat hleft hc hr =>
    rw [hq] at hleft
    obtain ⟨u,hu,hat',hd⟩ := recv_leftover listens stack hat hleft.head
    rw [hu]
    refine ⟨?_,hd ▸ .refl⟩
    rcases hat' with hat' | hover'
    · exact .quiet hat' hleft.tail hc (by simpa using hr)
    · exact .ended hover'
  | replied y hat hleft hr hgets =>
    rw [hq] at hleft
    obtain ⟨u,hu,hat',hd⟩ := recv_leftover listens stack hat hleft.head
    rw [hu]
    refine ⟨?_,hd ▸ .refl⟩
    rcases hat' with hat' | hover'
    · exact .replied y hat' hleft.tail (by simpa using hr) hgets
    · exact .ended hover'
  | asked before y after hat hleft hqs hasks hr =>
    rw [hq] at hqs
    cases before with
    | nil =>
      obtain ⟨rfl,rfl⟩ := List.cons.inj hqs
      have hdis : Dispatched P { s.server with cmdMsg := P.cmdOf s.server.cmdMsg x }
          (s.server.recv P listens stack (some x)) := by
        simp only [Server.recv,hat.2]
        exact dispatch_dispatched ⟨hat.1,rfl⟩
      exact ⟨Phase.of_dispatched s.server.cmdMsg rfl hdis hasks hplain rfl rfl
        (by simp [hr]) rfl,hdis.moves.mono (List.nil_subset _)⟩
    | cons z before =>
      obtain ⟨rfl,rfl⟩ := List.cons.inj hqs
      obtain ⟨u,hu,hat',hd⟩ := recv_leftover listens stack hat hleft.head
      rw [hu]
      refine ⟨?_,hd ▸ .refl⟩
      rcases hat' with hat' | hover'
      · exact .asked before y after hat' hleft.tail rfl hasks (by simpa using hr)
      · exact .ended hover'
  | reading hpl hc hqs hr =>
    rw [hq] at hqs
    cases hqs
  | naming hpl hnames hr =>
    simp only [Server.recv,hpl]
    generalize hcl : s.client = c at hnames
    generalize hts : s.toServer = q at hnames
    rw [hts] at hq
    cases hnames with
    | first new => cases hq
    | data => cases hq
    | both new =>
      obtain ⟨rfl,rfl⟩ := List.cons.inj hq
      rcases readNewName_cases (P := P) (s := s.server) (nameBuffer P new) with
        ⟨t,m,hread,hat,hm,hmoves⟩ | ⟨t,m,hread,hm,hconf,hd⟩
      · rw [hread]
        exact ⟨.replied (.cmd m) hat leftover_nil (by simp [hr]) (.renamed _ _ hm),
          hmoves.mono (List.nil_subset _)⟩
      · rw [hread]
        refine ⟨.confirming _ hconf ?_,hd ▸ .refl⟩
        simp only [hr,List.nil_append]
        exact .asked new m rfl hm
  | confirming new hpl hconf =>
    simp only [Server.recv,hpl]
    generalize hcl : s.client = c at hconf
    generalize hts : s.toServer = q at hconf
    generalize htc : s.toClient = r at hconf
    rw [hts] at hq
    cases hconf with
    | asked new' m hname hm => cases hq
    | told m hm hagreed =>
      obtain ⟨rfl,rfl⟩ := List.cons.inj hq
      obtain ⟨t,a,hread,hat,ha,hmoves⟩ :=
        readConfirmation_moves (P := P) (s := s.server) stack hagreed
      rw [hread]
      exact ⟨.replied _ hat leftover_nil rfl (.confirmed _ ha),hmoves⟩

/-- Nothing is there yet. -/
theorem Phase.starve (listens : Bool) (stack : CmdMsg) (h : Phase P s)
    (hplain : PlainName P s.client)
    (hacc : ∀ overwriting, s.server.place ≠ .accepting overwriting)
    (hover : ¬s.server.Over) :
    Phase P { s with server := (s.server.recv P listens stack none).1
                     toClient := s.toClient ++ (s.server.recv P listens stack none).2 } ∧
    (s.server.recv P listens stack none).1.disk = s.server.disk := by
  have hloop : s.server.AtLoop → Phase P { s with
      server := (s.server.recv P listens stack none).1
      toClient := s.toClient ++ (s.server.recv P listens stack none).2 } ∧
      (s.server.recv P listens stack none).1.disk = s.server.disk := by
    intro hat
    rw [recv_none hat]
    simpa using h
  cases h with
  | ended hpl => exact absurd hpl hover
  | stuck ow hpl hc hr => exact absurd hpl (hacc ow)
  | offered ow m hpl => exact absurd hpl (hacc ow)
  | connecting ow filename file port hpl => exact absurd hpl (hacc ow)
  | closing before m after hat => exact hloop hat
  | quiet hat => exact hloop hat
  | replied y hat => exact hloop hat
  | asked before y after hat => exact hloop hat
  | reading hpl hc hqs hr =>
    have hsave : s.server.recv P listens stack none = (s.server.answer .ack 1).finish := by
      simp only [Server.recv,hpl,saveData]
    rw [hsave]
    refine ⟨.replied (.cmd (s.server.answer .ack 1).ackMsg) ⟨rfl,rfl⟩ ?_
      (by simp [hr,Server.finish])
      ?_,rfl⟩
    · rw [hqs]
      exact leftover_nil
    · rcases hc with ⟨filename,file,he,hsize⟩ | he
      · simp only [he]
        exact .small _ _ _ rfl hsize
      · simp only [he]
        exact .ends _ _ .dataReply
  | naming hpl hnames hr =>
    have hdrop : s.server.recv P listens stack none = s.server.drop := by
      simp only [Server.recv,hpl,readNewName]
    rw [hdrop]
    refine ⟨.quiet ⟨rfl,rfl⟩ ?_ ?_ (by simp [hr,Server.drop]),rfl⟩
    · generalize hcl : s.client = c at hnames hplain
      generalize hts : s.toServer = q at hnames
      cases hnames with
      | first new => exact leftover_nil
      | data => exact leftover_nil
      | both new =>
        intro y hy
        exact ⟨_,List.mem_singleton.mp hy,hplain new rfl⟩
    · rintro ⟨filename,file,port,he⟩
      simp only at he
      rw [he] at hnames
      cases hnames
  | confirming new hpl hconf =>
    have hdrop : s.server.recv P listens stack none = s.server.drop := by
      simp only [Server.recv,hpl,readConfirmation]
    rw [hdrop]
    refine ⟨?_,rfl⟩
    generalize hcl : s.client = c at hconf
    generalize hts : s.toServer = q at hconf
    generalize htc : s.toClient = r at hconf
    cases hconf with
    | asked new' m hname hm =>
      exact .replied (.cmd m) ⟨rfl,rfl⟩ leftover_nil rfl (.target _ _ hm)
    | told m hm hagreed =>
      exact .asked [] (.cmd m) [] ⟨rfl,rfl⟩ leftover_nil rfl (.confirm m hm) rfl

end Server

section Client
variable {P : Platform} {s : Sys} {x : Datagram} {rest : List Datagram}
variable {answer : Char} {stack : CmdMsg} {old : Bytes} {files : Name → Option Bytes}

theorem Ends.reply (P : Platform) (answer : Char) (stack : CmdMsg) (old : Bytes) {c : Client}
    (h : Ends c) (x : Option Datagram) :
    (c.reply P answer stack old x).1 = .prompt ∧ (c.reply P answer stack old x).2.1 = [] ∧
    ∀ y, c.asked P answer stack y = [] := by
  cases h <;> cases x <;> simp [Client.reply,Client.asked]
  split <;> simp

theorem Server.Over.not_at {t : Server} (h : t.Over) {place : Place} (hpl : t.place = place)
    (hne : place ≠ .exited ∧ place ≠ .undefined) : False := by
  subst hpl
  exact h.elim hne.1 hne.2

theorem not_connects_prompt : ¬Client.Connects .prompt := by
  rintro ⟨filename,file,port,h⟩
  cases h

/-- Only the server in `accept` has a client that connects. -/
theorem Phase.of_connects (h : Phase P s) {filename : Name} {file : Bytes} {port : Nat}
    (hcl : s.client = .connecting filename file port) :
    s.server.Over ∨ ∃ overwriting, s.server.place = .accepting overwriting ∧
      (overwriting = true → s.server.serverState = .waiting) ∧ s.toServer = [] ∧
      s.toClient = [] ∧ s.server.cmdMsg.filename = sentName P filename ∧
      s.server.cmdMsg.size = file.length ∧
      (s.server.disk s.server.cmdMsg.filename = none ∨ s.server.cmdMsg.filename ∈ s.agreed) := by
  have hc : s.client.Connects := ⟨filename,file,port,hcl⟩
  cases h with
  | ended hpl => exact Or.inl hpl
  | stuck ow hpl hn hr => exact absurd hc hn
  | closing before m after hat hleft hq hm hn => exact absurd hc hn
  | quiet hat hleft hn => exact absurd hc hn
  | asked before y after hat hleft hq hasks => exact absurd hc hasks.not_connects
  | reading hpl hwho =>
    rw [hcl] at hwho
    rcases hwho with ⟨filename,file',he,-⟩ | he <;> cases he
  | naming hpl hnames =>
    rw [hcl] at hnames
    cases hnames
  | confirming new hpl hconf =>
    rw [hcl] at hconf
    cases hconf
  | replied y hat hleft hr hgets =>
    rw [hcl] at hgets
    cases hgets with
    | ends c y he => cases he
  | offered ow m hpl hstate hq hr hm hoff =>
    rw [hcl] at hoff
    cases hoff with
    | ends c he => cases he
  | connecting ow filename' file' port' hpl hstate hq hr hcl' hname hsize hfree =>
    cases hcl.symm.trans hcl'
    exact Or.inr ⟨ow,hpl,hstate,hq,hr,hname,hsize,hfree⟩

/-- An answer reaches the client. -/
theorem Phase.reply (h : Phase P s) (hw : s.client.Waits) (hr : s.toClient = x :: rest) :
    Phase P { s with client := (s.client.reply P answer stack old (some x)).1
                     toServer := s.toServer ++ (s.client.reply P answer stack old (some x)).2.1
                     toClient := rest
                     lines := s.lines ++ (s.client.reply P answer stack old (some x)).2.2
                     agreed := s.agreed ++ s.client.asked P answer stack x } := by
  have hne : s.toClient ≠ [] := hr ▸ List.cons_ne_nil _ _
  cases h with
  | ended hpl => exact .ended hpl
  | stuck ow hpl hn hr' => exact absurd hr' hne
  | closing before m after hat hleft hq hm hn hr' => exact absurd hr' hne
  | quiet hat hleft hn hr' => exact absurd hr' hne
  | asked before y after hat hleft hq hasks hr' => exact absurd hr' hne
  | reading hpl hwho hq hr' => exact absurd hr' hne
  | naming hpl hnames hr' => exact absurd hr' hne
  | connecting ow filename file port hpl hstate hq hr' => exact absurd hr' hne
  | confirming new hpl hconf =>
    generalize hcl : s.client = c at hconf
    generalize hts : s.toServer = q at hconf
    generalize htc : s.toClient = r at hconf
    rw [htc] at hr
    cases hconf with
    | told m hm hagreed => cases hr
    | asked new' m hname hm =>
      obtain ⟨rfl,rfl⟩ := List.cons.inj hr
      refine .confirming new hpl ?_
      simp only [Client.reply,Client.asked,Platform.cmdOf,hm]
      refine .told _ rfl fun herr => ?_
      cases ha : agrees answer with
      | true => simp [hname]
      | false => simp [ha] at herr
  | replied y hat hleft hr' hgets =>
    obtain ⟨rfl,rfl⟩ := List.cons.inj (hr.symm.trans hr')
    generalize hcl : s.client = c at hgets hw
    cases hgets with
    | ends _ _ he =>
      obtain ⟨h₁,h₂,-⟩ := he.reply P answer stack old (some x)
      rw [h₁,h₂,List.append_nil]
      exact .quiet hat hleft not_connects_prompt rfl
    | existing filename file m hm =>
      cases ha : agrees answer with
      | true =>
        simp only [Client.reply,Client.asked,Platform.cmdOf,hm,ha]
        exact .asked s.toServer _ [] hat hleft rfl
          (.overwrite _ _ _ rfl rfl rfl rfl (by simp)) rfl
      | false =>
        simp only [Client.reply,Client.asked,Platform.cmdOf,hm,ha]
        exact .asked s.toServer _ [] hat hleft rfl (.cancel _ rfl) rfl
    | small filename file m hm hsize =>
      simp only [Client.reply,Client.asked,Platform.cmdOf,hm,if_neg (Nat.not_lt.mpr hsize)]
      exact .asked s.toServer _ [] hat hleft rfl (.data _) rfl
    | overwritten filename file m hm hsize =>
      simp only [Client.reply,Client.asked,Platform.cmdOf,hm,if_neg (Nat.not_lt.mpr hsize)]
      exact .quiet hat (by simpa using hleft) not_connects_prompt rfl
    | missing new m hm => exact absurd hw id
    | renamed new m hm =>
      by_cases herr : m.error = 1
      · simp only [Client.reply,Client.asked,Platform.cmdOf,hm,herr]
        exact .quiet hat (by simpa using hleft) not_connects_prompt rfl
      · simp only [Client.reply,Client.asked,Platform.cmdOf,hm,herr]
        exact .quiet hat (by simpa using hleft) not_connects_prompt rfl
    | target new m hm =>
      simp only [Client.reply,Platform.cmdOf,hm]
      exact .asked s.toServer _ [] hat hleft rfl (.confirm _ rfl) rfl
    | confirmed m hm =>
      by_cases herr : m.error = 2
      · simp only [Client.reply,Client.asked,Platform.cmdOf,hm,herr]
        exact .quiet hat (by simpa using hleft) not_connects_prompt rfl
      · simp only [Client.reply,Client.asked,Platform.cmdOf,hm,herr]
        exact .quiet hat (by simpa using hleft) not_connects_prompt rfl
  | offered ow m hpl hstate hq hr' hm hoff =>
    obtain ⟨rfl,rfl⟩ := List.cons.inj (hr.symm.trans hr')
    generalize hcl : s.client = c at hoff hw
    cases hoff with
    | new filename file hbig hname hsize hfree =>
      simp only [Client.reply,Client.asked,Platform.cmdOf,hm,if_pos hbig]
      exact .connecting ow _ _ _ hpl hstate (by simp [hq]) rfl rfl hname hsize (Or.inl hfree)
    | overwrite filename file hbig hname hsize hagreed =>
      by_cases hport : 0 < m.size
      · simp only [Client.reply,Client.asked,Platform.cmdOf,hm,if_pos hbig,hport]
        exact .connecting ow _ _ _ hpl hstate (by simp [hq]) rfl rfl hname hsize
          (Or.inr (by simpa using hagreed))
      · simp only [Client.reply,Client.asked,Platform.cmdOf,hm,if_pos hbig,hport]
        exact .stuck ow hpl (by rintro ⟨filename,file,port,h⟩; cases h) rfl
    | ends _ he =>
      obtain ⟨h₁,h₂,-⟩ := he.reply P answer stack old (some (.cmd m))
      rw [h₁,h₂,List.append_nil]
      exact .stuck ow hpl not_connects_prompt rfl
    | confirm =>
      by_cases herr : m.error = 2
      · simp only [Client.reply,Client.asked,Platform.cmdOf,hm,herr]
        exact .stuck ow hpl not_connects_prompt rfl
      · simp only [Client.reply,Client.asked,Platform.cmdOf,hm,herr]
        exact .stuck ow hpl not_connects_prompt rfl

/-- Whatever the client waited for, it goes back to its prompt. -/
theorem Client.reply_none (P : Platform) (answer : Char) (stack : CmdMsg) (old : Bytes) {c : Client}
    (hw : c.Waits) :
    (c.reply P answer stack old none).1 = .prompt ∧ (c.reply P answer stack old none).2.1 = [] := by
  cases c with
  | prompt => exact absurd hw id
  | connecting filename file port => exact absurd hw id
  | renameSecond new => exact absurd hw id
  | quit => exact absurd hw id
  | _ => exact ⟨rfl,rfl⟩

theorem Phase.atLoop (h : Phase P s) (hpl : s.server.place = .loop) : s.server.AtLoop := by
  cases h with
  | closing before m after hat => exact hat
  | quiet hat => exact hat
  | asked before y after hat => exact hat
  | replied y hat => exact hat
  | ended h => exact (h.not_at hpl (by simp)).elim
  | stuck ow h => exact nomatch hpl.symm.trans h
  | reading h => exact nomatch hpl.symm.trans h
  | naming h => exact nomatch hpl.symm.trans h
  | confirming new h => exact nomatch hpl.symm.trans h
  | offered ow m h => exact nomatch hpl.symm.trans h
  | connecting ow filename file port h => exact nomatch hpl.symm.trans h

theorem Phase.timeout (h : Phase P s) (hw : s.client.Waits) (hsilent : s.Silent) :
    Phase P { s with client := (s.client.reply P answer stack old none).1
                     toServer := s.toServer ++ (s.client.reply P answer stack old none).2.1
                     lines := s.lines ++ (s.client.reply P answer stack old none).2.2 } := by
  obtain ⟨h₁,h₂⟩ := Client.reply_none P answer stack old hw
  obtain ⟨hr,⟨ow,hpl⟩ | hpl | ⟨hpl,hq⟩⟩ := hsilent
  · rw [h₁]
    exact .stuck ow hpl not_connects_prompt hr
  · exact .ended hpl
  · rw [h₁,h₂,hq]
    exact .quiet (h.atLoop hpl) leftover_nil not_connects_prompt hr

theorem start_not_connects (P : Platform) (files : Name → Option Bytes) (t : Typed) (m : CmdMsg) :
    ¬(t.start P files m).1.Connects := by
  rintro ⟨filename,file,port,h⟩
  cases t with
  | send filename =>
    simp only [Typed.start] at h
    split at h <;> cases h
  | _ => cases h

/-- What the client sends first for a command, if it sends anything. -/
theorem start_asks (P : Platform) (files : Name → Option Bytes) (t : Typed) (old : CmdMsg)
    (agreed : List Name) :
    (t.start P files old).2.1 = [] ∨
    (∃ m, (t.start P files old).2.1 = [.cmd m] ∧ m.cmd = .shutdown) ∨
    ∃ m, (t.start P files old).2.1 = [.cmd m] ∧
      Asks P agreed (t.start P files old).1 (.cmd m) [] := by
  cases t with
  | ls => exact Or.inr (Or.inr ⟨_,rfl,.ls _ rfl⟩)
  | send filename =>
    simp only [Typed.start]
    cases files filename with
    | none => exact Or.inl rfl
    | some file => exact Or.inr (Or.inr ⟨_,rfl,.send _ _ _ rfl rfl rfl⟩)
  | remove filename => exact Or.inr (Or.inr ⟨_,rfl,.remove _ rfl⟩)
  | rename filename new => exact Or.inr (Or.inr ⟨_,rfl,.renameFirst _ _ rfl⟩)
  | shutdown => exact Or.inr (Or.inl ⟨_,rfl,rfl⟩)
  | quit => exact Or.inl rfl
  | wrong => exact Or.inl rfl

/-- At its prompt the client waits for nothing. -/
theorem Phase.of_prompt (h : Phase P s) (hcl : s.client = .prompt) :
    s.server.Over ∨
    (∃ overwriting, s.server.place = .accepting overwriting) ∧ s.toClient = [] ∨
    s.server.AtLoop ∧ s.toClient = [] ∧ (Leftover P s.toServer ∨ ∃ before m after,
      Leftover P before ∧ s.toServer = before ++ .cmd m :: after ∧ m.cmd = .shutdown) := by
  cases h with
  | ended hpl => exact Or.inl hpl
  | stuck ow hpl hn hr => exact Or.inr (Or.inl ⟨⟨ow,hpl⟩,hr⟩)
  | closing before m after hat hleft hq hm hn hr =>
    exact Or.inr (Or.inr ⟨hat,hr,Or.inr ⟨before,m,after,hleft,hq,hm⟩⟩)
  | quiet hat hleft hn hr => exact Or.inr (Or.inr ⟨hat,hr,Or.inl hleft⟩)
  | asked before y after hat hleft hq hasks =>
    rw [hcl] at hasks
    cases hasks
  | reading hpl hwho =>
    rw [hcl] at hwho
    rcases hwho with ⟨filename,file',he,-⟩ | he <;> cases he
  | naming hpl hnames =>
    rw [hcl] at hnames
    cases hnames
  | confirming new hpl hconf =>
    rw [hcl] at hconf
    cases hconf
  | replied y hat hleft hr hgets =>
    rw [hcl] at hgets
    cases hgets with
    | ends c y he => cases he
  | offered ow m hpl hstate hq hr hm hoff =>
    rw [hcl] at hoff
    cases hoff with
    | ends c he => cases he
  | connecting ow filename file port hpl hstate hq hr hc =>
    rw [hcl] at hc
    cases hc

theorem Phase.typed (h : Phase P s) (t : Typed) (hcl : s.client = .prompt) :
    Phase P { s with client := (t.start P files s.cmdMsg).1
                     cmdMsg := sentCmd s.cmdMsg (t.start P files s.cmdMsg).2.1
                     toServer := s.toServer ++ (t.start P files s.cmdMsg).2.1
                     lines := s.lines ++ (t.start P files s.cmdMsg).2.2 } := by
  have hn := start_not_connects P files t s.cmdMsg
  rcases h.of_prompt hcl with hpl | ⟨⟨ow,hpl⟩,hr⟩ | ⟨hat,hr,hleft | ⟨before,m,after,hleft,hq,hm⟩⟩
  · exact .ended hpl
  · exact .stuck ow hpl hn hr
  · rcases start_asks P files t s.cmdMsg s.agreed with
      hsent | ⟨m,hsent,hm⟩ | ⟨m,hsent,hasks⟩
    · exact .quiet hat (by simpa [hsent] using hleft) hn hr
    · exact .closing s.toServer m [] hat hleft (by rw [hsent]) hm hn hr
    · exact .asked s.toServer (.cmd m) [] hat hleft (by rw [hsent]) hasks hr
  · exact .closing before m (after ++ (t.start P files s.cmdMsg).2.1) hat hleft
      (by simp [hq]) hm hn hr

/-- The second datagram of a renaming. -/
theorem Phase.second (h : Phase P s) (hplain : PlainName P s.client) {new : Name}
    (hcl : s.client = .renameSecond new) :
    Phase P { s with client := .renameReply new
                     toServer := s.toServer ++ [.data (nameBuffer P new)] } := by
  have hname : Leftover P [.data (nameBuffer P new)] := by
    intro y hy
    exact ⟨_,List.mem_singleton.mp hy,hplain new (by rw [hcl]; rfl)⟩
  have hn : ¬Client.Connects (.renameReply new) := by
    rintro ⟨filename,file,port,h⟩
    cases h
  have happ : ∀ {q}, Leftover P q → Leftover P (q ++ [.data (nameBuffer P new)]) := by
    intro q hq y hy
    rcases List.mem_append.mp hy with hy | hy
    · exact hq y hy
    · exact hname y hy
  cases h with
  | ended hpl => exact .ended hpl
  | stuck ow hpl _ hr => exact .stuck ow hpl hn hr
  | closing before m after hat hleft hq hm _ hr =>
    exact .closing before m (after ++ [.data (nameBuffer P new)]) hat hleft (by simp [hq]) hm hn hr
  | quiet hat hleft _ hr => exact .quiet hat (happ hleft) hn hr
  | asked before y after hat hleft hq hasks hr =>
    rw [hcl] at hasks
    cases hasks with
    | renameFirst _ m hm =>
      exact .asked before (.cmd m) _ hat hleft (by simp [hq]) (.rename new m hm) hr
  | reading hpl hwho =>
    rw [hcl] at hwho
    rcases hwho with ⟨filename,file',he,-⟩ | he <;> cases he
  | naming hpl hnames hr =>
    generalize hts : s.toServer = q at hnames
    rw [hcl] at hnames
    cases hnames
    exact .naming hpl (.both new) hr
  | confirming new' hpl hconf =>
    rw [hcl] at hconf
    cases hconf
  | replied y hat hleft hr hgets =>
    rw [hcl] at hgets
    cases hgets with
    | ends c y he => cases he
    | missing _ m hm => exact .replied _ hat (happ hleft) hr (.renamed new m hm)
  | offered ow m hpl hstate hq hr hm hoff =>
    rw [hcl] at hoff
    cases hoff with
    | ends c he => cases he
  | connecting ow filename file port hpl hstate hq hr hc =>
    rw [hcl] at hc
    cases hc

theorem Phase.refused (h : Phase P s) (hc : s.client.Connects) :
    Phase P { s with client := .prompt } := by
  obtain ⟨filename,file,port,hcl⟩ := hc
  rcases h.of_connects hcl with hpl | ⟨ow,hpl,-,-,hr,-⟩
  · exact .ended hpl
  · exact .stuck ow hpl not_connects_prompt hr

end Client

end NetworkLab.Lab2
