import NetworkLab.Backup.Taken
set_option autoImplicit false

/-! What the client reports as a success, the server has done: a handler of the client and the
server's main loop, over a socket that keeps all datagrams and their order. -/

namespace NetworkLab.Backup
open Interaction

/-- A handler of the client, and some rounds of the server's main loop. Each gets what the other
has sent, in its order; what is still on its way is left out. -/
inductive Conversation (config : Server.ServerConfig) (handler : Client.Handler ErrorCode) :
    ErrorCode → Trace → Trace → Prop where
  | talked {mc mc' : Client.Members} {ms ms' : Server.Members} {e : ErrorCode} {rounds : Nat}
      {trc trs : Trace} : Runs handler mc trc e mc' →
      Runs (Server.run config rounds) ms trs () ms' → gets trs <+: delivered trc →
      gets trc <+: delivered trs → Conversation config handler e trc trs

theorem Quiet.writesAll {tr : Trace} (h : Quiet tr) : WritesAll tr := by
  intro ev hev
  have hq := h ev hev
  obtain ⟨o,r⟩ := ev
  cases o with
  | write path data => cases hq
  | _ => trivial

/-- The file at `path` is opened and holds the first bytes of `file`, all of them exactly when
no write is short. -/
structure StoredAs (path file : Bytes) (tr : Trace) : Prop where
  fills : Fills path tr
  begins : storedBytes tr <+: file
  whole : storedBytes tr = file ↔ WritesAll tr

section Aside
variable {pre tr post : Trace} {path file : Bytes}

theorem StoredAs.wrap (hpre : Quiet pre) (hpost : Quiet post) (h : StoredAs path file tr) :
    StoredAs path file (pre ++ tr ++ post) := by
  have hstored : storedBytes (pre ++ tr ++ post) = storedBytes tr := by
    simp [hpre.storedBytes,hpost.storedBytes]
  have hwrites : WritesAll (pre ++ tr ++ post) ↔ WritesAll tr := by
    unfold WritesAll
    rw [List.forall_mem_append,List.forall_mem_append]
    exact ⟨fun h => h.1.2,fun h => ⟨⟨hpre.writesAll,h⟩,hpost.writesAll⟩⟩
  exact ⟨h.fills.wrap hpre hpost,hstored ▸ h.begins,by rw [hstored,hwrites]; exact h.whole⟩

end Aside

theorem take_received {file : Bytes} (hsmall : file.length ≤ dataBufLen) :
    (DataMsg.received file).toList.take file.length = file := by
  rw [DataMsg.toList_received]
  exact Client.overlay_take_full _ rfl (by simpa [dataBufLen] using hsmall)

namespace Server

variable {config : ServerConfig} {cmd : CmdMsg} {m m' : Members} {tr : Trace} {e : ErrorCode}
variable {filepath filename file r q a : Bytes}

/-- A small file of which the client gets both replies, the second a good one. -/
theorem SmallFile.reported (h : SmallFile filepath file.length m tr e m')
    (hsmall : file.length ≤ dataBufLen) (hgets : gets tr <+: [(DataMsg.received file).toList])
    (hreplies : [q,a] <+: delivered tr) (ha : AckOf 0 a) : StoredAs filepath file tr := by
  have hno : a ≠ (reply .ACK 1).encode := by
    rintro rfl
    rw [AckOf,CmdMsg.received_encode] at ha
    exact absurd ha.2 (by decide)
  have houtcome := h.outcome
  cases h with
  | @noData ok ok' r _ hr =>
    have hsends : Backup.sends [sent m (reply .ACK 0).encode ok,r,
        sent m' (reply .ACK 1).encode ok'] = [(reply .ACK 0).encode,(reply .ACK 1).encode] := by
      cases hr <;> rfl
    have heq := (eq_sends hreplies (by rw [hsends]; rfl)).trans hsends
    exact absurd (List.cons.inj (List.cons.inj heq).2).1 hno
  | noFile hd =>
    have heq := eq_sends hreplies (Nat.le_refl 2)
    exact absurd (List.cons.inj (List.cons.inj heq).2).1 hno
  | @stored ok ok' sender d stored hd =>
    have hdata : d = (DataMsg.received file).toList := by
      obtain ⟨rest,hrest⟩ := hgets
      exact (List.cons.inj hrest).1
    have htake : (DataMsg.received d).toList.take file.length = file := by
      rw [hdata,DataMsg.received_toList,take_received hsmall]
    clear hgets hreplies
    revert stored
    rw [htake]
    intro stored houtcome
    have hfills := houtcome.resolve_left fun hq => by
      have hopen := hq ⟨.ofstream filepath,true⟩ (by simp)
      cases hopen
    have hcalls : ∀ tr : Trace, tr = [sent m (reply .ACK 0).encode ok,got 3000 sender d,
        ⟨.ofstream filepath,true⟩,⟨.write filepath file,stored⟩] ++ counted file.length ++
        [sent (m.serving sender) (reply .ACK 0).encode ok'] →
        storedBytes tr = file.take stored.val ∧ (WritesAll tr ↔ stored.val = file.length) := by
      rintro tr rfl
      exact ⟨by simp [storedBytes,storedBy,sent,got,counted],
        by simp [WritesAll,WholeWrite,sent,got,counted]⟩
    obtain ⟨hstored,hwrites⟩ := hcalls _ rfl
    have hle := Nat.le_of_lt_succ stored.isLt
    refine ⟨hfills,hstored ▸ List.take_prefix _ _,?_⟩
    rw [hstored,hwrites,List.take_eq_self_iff]
    omega

/-- The question whether the file shall be replaced comes first. -/
theorem SendConfirm.first_reply {ds : List Bytes} (h : SendConfirm config cmd m tr e m')
    (hreplies : r :: ds <+: delivered tr) :
    (CmdMsg.received r).getCommand = some .FILE_EXISTS := by
  have hr : ∀ {rest : List Bytes} {size : UInt32},
      r :: ds <+: { reply .FILE_EXISTS 0 with size := size }.encode :: rest →
      (CmdMsg.received r).getCommand = some .FILE_EXISTS := by
    rintro rest size ⟨more,hmore⟩
    rw [(List.cons.inj hmore).1,CmdMsg.received_encode]
    rfl
  cases h with
  | notSent =>
    obtain ⟨more,hmore⟩ := hreplies
    cases hmore
  | noConfirm hn =>
    cases hn <;> exact hr hreplies
  | declined => exact hr hreplies
  | confirmed hd hconf hname hfile =>
    simp only [delivered_append] at hreplies
    exact hr hreplies

theorem SmallFile.length_sends {filesize : Nat} (h : SmallFile filepath filesize m tr e m') :
    (Backup.sends tr).length = 2 := by
  cases h with
  | noData hr => cases hr <;> rfl
  | noFile hd => rfl
  | stored stored hd => rfl

section Reported
variable (h : Send config (Client.sendMsg filename file.length) m tr e m')
variable (hsmall : file.length ≤ dataBufLen)
include h hsmall

/-- The client has asked for nothing else, so the file was not there. -/
theorem Send.reported_new (hgets : gets tr <+: [(DataMsg.received file).toList])
    (hreplies : [r,a] <+: delivered tr) (hr : (CmdMsg.received r).getCommand ≠ some .FILE_EXISTS)
    (ha : AckOf 0 a) :
    StoredAs (joinPath config.backupDir (Backup.wireName (getFilename filename))) file tr := by
  cases h with
  | invalid hname hv =>
    rw [delivered_append,hname.aside.delivered,List.nil_append] at hreplies
    exact absurd (length_le_sends hreplies) (by simp [sent])
  | new hname hv hfile =>
    obtain rfl := hname.wireName rfl
    have hpre := hname.looked config.backupDir false
    rw [delivered_append,hpre.delivered,List.nil_append] at hreplies
    rw [gets_append,hpre.gets,List.nil_append] at hgets
    have hstored := (AnyFile.small hfile hsmall).reported hsmall hgets hreplies ha
    simpa only [List.append_nil] using hstored.wrap hpre.quiet quiet_nil
  | existing hname hv hc =>
    have hpre := hname.looked config.backupDir true
    rw [delivered_append,hpre.delivered,List.nil_append] at hreplies
    exact absurd (hc.first_reply hreplies) hr

/-- Three replies came, so the file was there. -/
theorem Send.reported_confirmed
    (hgets : gets tr <+: [(Client.confirmMsg filename file.length).encode,
      (DataMsg.received file).toList])
    (hreplies : [r,q,a] <+: delivered tr) (ha : AckOf 0 a) :
    StoredAs (joinPath config.backupDir (Backup.wireName (getFilename filename))) file tr := by
  cases h with
  | invalid hname hv =>
    rw [delivered_append,hname.aside.delivered,List.nil_append] at hreplies
    exact absurd (length_le_sends hreplies) (by simp [sent])
  | new hname hv hfile =>
    have hpre := hname.looked config.backupDir false
    rw [delivered_append,hpre.delivered,List.nil_append] at hreplies
    have hlen := length_le_sends hreplies
    rw [(AnyFile.small hfile hsmall).length_sends] at hlen
    exact absurd hlen (by simp)
  | existing hname hv hc =>
    have hpre := hname.looked config.backupDir true
    rw [delivered_append,hpre.delivered,List.nil_append] at hreplies
    rw [gets_append,hpre.gets,List.nil_append] at hgets
    cases hc with
    | notSent => exact absurd (length_le_sends hreplies) (by simp [sent])
    | noConfirm hn =>
      have hlen := length_le_sends hreplies
      cases hn <;> exact absurd hlen (by simp [sent,got])
    | declined => exact absurd (length_le_sends hreplies) (by simp [sent,got])
    | @confirmed sender d name trn tr _ _ hd hconf hname' hfile =>
      rw [delivered_append,delivered_append,hname'.aside.delivered,List.append_nil] at hreplies
      rw [gets_append,gets_append,hname'.aside.gets,List.append_nil] at hgets
      have hrest : [q,a] <+: delivered tr := (List.cons_prefix_cons.mp hreplies).2
      obtain ⟨rfl,hdata⟩ : d = (Client.confirmMsg filename file.length).encode ∧
        gets tr <+: [(DataMsg.received file).toList] := List.cons_prefix_cons.mp hgets
      rw [CmdMsg.received_encode] at hname' hfile
      obtain rfl := hname'.wireName rfl
      have hstored := (AnyFile.small hfile hsmall).reported hsmall hdata hrest ha
      have hasked : Quiet ([sent m { reply .FILE_EXISTS 0 with
          size := (Client.sendMsg filename file.length).size }.encode true,
          got 137 sender (Client.confirmMsg filename file.length).encode] ++ trn) :=
        quiet_append.mpr ⟨by simp [sent,got,alters],hname'.quiet⟩
      have hwhole := hstored.wrap (quiet_append.mpr ⟨hpre.quiet,hasked⟩) quiet_nil
      simpa only [List.append_nil,List.append_assoc] using hwhole

end Reported

theorem not_noAck (ha : a ∈ Backup.sends tr) (hack : AckOf 0 a) : ¬NoAck tr := by
  obtain ⟨ev,hev,he⟩ := List.mem_filterMap.mp ha
  refine fun hno => hno ev hev ?_
  obtain ⟨o,ok⟩ := ev
  cases o with
  | sendto dest d =>
    cases he
    exact hack
  | _ => cases he

/-- The new name comes in the datagram that is received first. -/
theorem NewName.name_of_accepted {oldFilepath new : Bytes}
    (h : NewName config oldFilepath m tr e m') (hacc : accepted tr = [new]) :
    ∃ (d : Bytes) (trn : Trace), (gets tr).head? = some d ∧
      Reads 3000 (DataMsg.received d).toList trn new := by
  have hno : accepted tr ≠ [] := by simp [hacc]
  have hread : ∀ {d name : Bytes} {trn : Trace},
      Reads 3000 (DataMsg.received d).toList trn name → accepted tr = [name] →
      ∃ trn, Reads 3000 (DataMsg.received d).toList trn new := by
    intro d name trn hname he
    obtain ⟨rfl,-⟩ := List.cons.inj (he.symm.trans hacc)
    exact ⟨trn,hname⟩
  cases h with
  | noName hr => cases hr <;> exact absurd rfl hno
  | invalid hd hname hv =>
    cases hname
    exact absurd rfl hno
  | fresh sender done ok hd hname hv =>
    obtain ⟨trn,htrn⟩ := hread hname (by cases hname; rfl)
    exact ⟨_,trn,by cases hname; rfl,htrn⟩
  | noConfirm sender asked hd hname hv hr =>
    obtain ⟨trn,htrn⟩ := hread hname (by cases hname; cases hr <;> rfl)
    exact ⟨_,trn,by cases hname; rfl,htrn⟩
  | declined sender sender' asked ok hd hname hv hc hno =>
    obtain ⟨trn,htrn⟩ := hread hname (by cases hname; rfl)
    exact ⟨_,trn,by cases hname; rfl,htrn⟩
  | confirmed sender sender' asked deleted done ok hd hname hv hc hyes =>
    obtain ⟨trn,htrn⟩ := hread hname (by cases hname; rfl)
    exact ⟨_,trn,by cases hname; rfl,htrn⟩

theorem Rename.names_of_accepted {old new : Bytes} (h : Rename config cmd m tr e m')
    (hacc : accepted tr = [old,new]) :
    (∃ trn, Reads 128 cmd.tail trn old) ∧ ∃ (d : Bytes) (trn : Trace),
      (gets tr).head? = some d ∧ Reads 3000 (DataMsg.received d).toList trn new := by
  have hno : accepted tr ≠ [] := by simp [hacc]
  have hread : ∀ (rest : Trace) {name : Bytes} {trn : Trace}, Reads 128 cmd.tail trn name →
      accepted tr = name :: accepted rest →
      (∃ trn, Reads 128 cmd.tail trn old) ∧ accepted rest = [new] := by
    intro rest name trn hname he
    obtain ⟨rfl,hrest⟩ := List.cons.inj (he.symm.trans hacc)
    exact ⟨⟨trn,hname⟩,hrest⟩
  cases h with
  | invalid hname hv =>
    cases hname
    exact absurd rfl hno
  | missing hname hv =>
    obtain ⟨-,hrest⟩ := hread [] hname (by cases hname; rfl)
    cases hrest
  | @handshake trn trr name _ _ ok hname hv hs hnew =>
    obtain ⟨hold,hrest⟩ := hread trr hname (by cases hname; rfl)
    obtain ⟨d,trn',hgets,hnew⟩ := hnew.name_of_accepted hrest
    exact ⟨hold,d,trn',by cases hname; exact hgets,hnew⟩
  | @direct trn trr name _ _ hname hv hs hnew =>
    obtain ⟨hold,hrest⟩ := hread trr hname (by cases hname; rfl)
    obtain ⟨d,trn',hgets,hnew⟩ := hnew.name_of_accepted hrest
    exact ⟨hold,d,trn',by cases hname; exact hgets,hnew⟩

theorem NewName.whole {oldFilepath : Bytes} (h : NewName config oldFilepath m tr e m') :
    Whole tr := by
  cases h with
  | noName hr => cases hr <;> simp [got,Backup.sentBy]
  | noConfirm sender asked hd hname hv hr =>
    cases hname
    cases hr <;> simp [sent,got,Backup.sentBy]
  | invalid hd hname hv =>
    cases hname
    simp [sent,got,Backup.sentBy]
  | fresh sender done ok hd hname hv =>
    cases hname
    simp [sent,got,renamed,Backup.sentBy]
  | declined sender sender' asked ok hd hname hv hc hno =>
    cases hname
    simp [sent,got,Backup.sentBy]
  | confirmed sender sender' asked deleted done ok hd hname hv hc hyes =>
    cases hname
    simp [sent,got,renamed,Backup.sentBy]

theorem Rename.whole (h : Rename config cmd m tr e m') : Whole tr := by
  cases h with
  | invalid hname hv =>
    cases hname
    simp [sent,Backup.sentBy]
  | missing hname hv =>
    cases hname
    simp [sent,Backup.sentBy]
  | handshake ok hname hv hs h =>
    cases hname
    simp [sent,Backup.sentBy,h.whole]
  | direct hname hv hs h =>
    cases hname
    simp [Backup.sentBy,h.whole]

theorem Reached.done_of_ack {old new : Bytes} {deletion : Option Bool} {done ok : Bool}
    (h : Reached config tr old new deletion done ok) (hack : ¬NoAck tr) : done = true := by
  obtain ⟨pre,m,-,hno,-,rfl⟩ := h.ends
  cases done with
  | false => exact absurd (by cases deletion <;> simp [hno,renamed,sent,acks]) hack
  | true => rfl

section Files
variable {F : Type} [DecidableEq F] {resolve : Bytes → F} {files : Files F}

theorem Remove.reported (h : Remove config (Client.command .REMOVE filename) m tr e m')
    (hack : ¬NoAck tr) : filesAfter resolve files tr =
      files.delete (resolve (joinPath config.backupDir (Backup.wireName filename))) := by
  cases h with
  | invalid hname hv =>
    cases hname
    exact absurd (by simp [sent,acks,ErrorCode.value]) hack
  | missing hname hv =>
    cases hname
    exact absurd (by simp [sent,acks]) hack
  | @deleted trn name done ok hname hv =>
    cases done with
    | false =>
      cases hname
      exact absurd (by simp [sent,acks]) hack
    | true =>
      obtain rfl := hname.wireName rfl
      rw [filesAfter_append,hname.quiet.filesAfter]
      rfl

theorem Rename.reported {newName : Bytes} {rest : List Bytes}
    (h : Rename config (Client.command .RENAME filename) m tr e m')
    (hfiles : Consistent resolve files tr) (hack : ¬NoAck tr) (hgets : gets tr <+: rest)
    (hrest : ∀ d, rest.head? = some d → d = (DataMsg.setData newName).toList) :
    Moved files (filesAfter resolve files tr)
      (resolve (joinPath config.backupDir (Backup.wireName filename)))
      (resolve (joinPath config.backupDir (wireNewName newName))) := by
  rcases h.cases_reached with hg | ⟨old,new,deletion,done,ok,hr⟩
  · exact absurd hg.noAck hack
  · obtain ⟨⟨trn,hold⟩,d,trn',hd,hnew⟩ := h.names_of_accepted hr.accepted
    obtain rfl : old = Backup.wireName filename := hold.wireName rfl
    obtain ⟨more,rfl⟩ := hgets
    have hdata := hrest d (by rw [List.head?_append,hd]; rfl)
    obtain rfl : new = wireNewName newName := by
      rw [hdata,DataMsg.received_toList] at hnew
      obtain ⟨beyond⟩ := hnew
      exact cString_setData _ _
    obtain rfl := hr.done_of_ack hack
    rw [hr.after,if_pos rfl]
    exact moved_cleared (hr.moved_some hfiles rfl)

end Files

/-- The relation of the handler that a command goes to. -/
def HandledAs (config : ServerConfig) (cmd : CmdMsg) (tr : Trace) (e : ErrorCode)
    (m' : Members) : Option Command → Prop
  | some .SEND => ∃ m, Send config cmd m tr e m'
  | some .REMOVE => ∃ m, Remove config cmd m tr e m'
  | some .RENAME => ∃ m, Rename config cmd m tr e m'
  | _ => Quiet tr

theorem Handled.as_command (h : Handled config cmd m tr e m') :
    HandledAs config cmd tr e m' cmd.getCommand := by
  cases h with
  | send hc h =>
    rw [hc]
    exact ⟨_,h⟩
  | remove hc h =>
    rw [hc]
    exact ⟨_,h⟩
  | rename hc h =>
    rw [hc]
    exact ⟨_,h⟩
  | ls files data ok hc =>
    rw [hc]
    simp [HandledAs,sent,alters]
  | shutdown ok hc =>
    rw [hc]
    simp [HandledAs,sent,alters]
  | overwrite hc =>
    rw [hc]
    exact quiet_nil
  | unknown hc =>
    simp only [List.mem_cons,List.not_mem_nil,or_false,not_or] at hc
    obtain ⟨-,hsend,hremove,hrename,-,-⟩ := hc
    unfold HandledAs
    split
    · rename_i he
      exact absurd he hsend
    · rename_i he
      exact absurd he hremove
    · rename_i he
      exact absurd he hrename
    · exact quiet_nil

end Server

/-- What the server does in a conversation: `trh` is what the handler of the command does, and it
takes all that the client sends behind the command. -/
structure Serves (config : Server.ServerConfig) (cmd : CmdMsg) (rest : List Bytes)
    (trc trs trh : Trace) : Prop where
  around : ∃ pre post, Quiet pre ∧ Quiet post ∧ trs = pre ++ trh ++ post
  handled : ∃ e m', Server.HandledAs config cmd trh e m' cmd.getCommand
  taken : gets trh = rest
  replies : gets trc <+: delivered trh

section Conversation
variable {F : Type} [DecidableEq F] {resolve : Bytes → F} {files : Files F}
variable {config : Server.ServerConfig} {clientConfig : Client.ClientConfig}
variable {handler : Client.Handler ErrorCode} {e : ErrorCode} {trc trs trh : Trace}
variable {cmd : CmdMsg} {rest : List Bytes}

theorem Conversation.client (h : Conversation config handler e trc trs) :
    ∃ mc mc', Runs handler mc trc e mc' := by
  cases h with
  | talked hc => exact ⟨_,_,hc⟩

/-- The server does nothing at all, or the handler of the command takes everything, so that the
main loop finds nothing more. -/
theorem Conversation.serves (h : Conversation config handler e trc trs)
    (hp : ∀ ev ∈ trs, Prompt ev) (hd : delivered trc = cmd.encode :: rest) (hne : [] ∉ rest)
    (hall : ∀ {trh : Trace} {ds later : List Bytes} {es : ErrorCode} {m' : Server.Members},
      Server.HandledAs config cmd trh es m' cmd.getCommand → (∀ ev ∈ trh, Prompt ev) →
      [] ∉ gets trh → gets trh ++ ds = rest → gets trc <+: sends trh ++ later → ds = []) :
    Quiet trs ∧ gets trc = [] ∨ ∃ trh, Serves config cmd rest trc trs trh := by
  obtain ⟨hc,hs,hgets,hreplies⟩ := h
  obtain ⟨calls,hrun⟩ := Server.serverRun_of_run hs
  rw [hd] at hgets
  have hcmd : [] ∉ cmd.encode :: rest := by
    rw [List.mem_cons,not_or]
    exact ⟨(List.ne_nil_of_length_eq_add_one cmd.encode_length).symm,hne⟩
  rcases hrun.first fun hmem => hcmd (hgets.subset hmem) with haside |
    ⟨d,pre,trh,post,later,hh⟩
  · rw [haside.delivered] at hreplies
    exact Or.inl ⟨haside.quiet,List.prefix_nil.mp hreplies⟩
  · obtain ⟨m,es,m',hhandled⟩ := hh.handled
    obtain ⟨ml,callsl,ml',hlater⟩ := hh.goesOn
    obtain rfl := hh.eq
    rw [delivered_of_prompt hp] at hreplies
    simp only [gets_append,sends_append,hh.gets,hh.sends,hh.after.gets,hh.after.sends,
      List.nil_append,List.cons_append] at hgets hreplies
    obtain ⟨rfl,⟨more,hmore⟩⟩ := List.cons_prefix_cons.mp hgets
    rw [List.append_assoc] at hmore
    rw [CmdMsg.received_encode] at hhandled
    have hpt : ∀ ev ∈ trh, Prompt ev := fun ev hev => hp ev (by simp [hev])
    have hnil : [] ∉ gets trh := fun hmem => hne (hmore ▸ List.mem_append_left _ hmem)
    have hnone := hall hhandled.as_command hpt hnil hmore hreplies
    have hl := hlater.aside (List.append_eq_nil_iff.mp hnone).1
    rw [hl.sends,List.append_nil,← delivered_of_prompt hpt] at hreplies
    rw [hnone,List.append_nil] at hmore
    exact Or.inr ⟨trh,⟨pre,_,hh.quiet,quiet_append.mpr ⟨hh.after.quiet,hl.quiet⟩,rfl⟩,
      ⟨es,m',hhandled.as_command⟩,hmore,hreplies⟩

section Serves
variable (h : Serves config cmd rest trc trs trh)
include h

theorem Serves.filesAfter : filesAfter resolve files trs = filesAfter resolve files trh := by
  obtain ⟨pre,post,hpre,hpost,rfl⟩ := h.around
  rw [filesAfter_append,filesAfter_append,Quiet.filesAfter hpre,Quiet.filesAfter hpost]

theorem Serves.consistent (hfiles : Consistent resolve files trs) :
    Consistent resolve files trh := by
  obtain ⟨pre,post,hpre,hpost,rfl⟩ := h.around
  rw [consistent_append,consistent_append,Quiet.filesAfter hpre] at hfiles
  exact hfiles.1.2

omit [DecidableEq F] in
theorem Serves.storedAs {path file : Bytes} (hstored : StoredAs path file trh) :
    StoredAs path file trs := by
  obtain ⟨pre,post,hpre,hpost,rfl⟩ := h.around
  exact hstored.wrap hpre hpost

/-- A reply that the client has got was sent by the handler. -/
theorem Serves.not_noAck {a : Bytes} (ha : a ∈ gets trc) (hack : Server.AckOf 0 a) :
    ¬Server.NoAck trh :=
  Server.not_noAck (delivered_sublist.subset (h.replies.subset ha)) hack

end Serves

theorem Conversation.small_sent {filename file : Bytes}
    (h : Conversation config (Client.handleSend filename) .SUCCESS trc trs)
    (hp : ∀ ev ∈ trs, Prompt ev) (hsizes : ∀ n ∈ sizes trc, n = file.length)
    (hread : Client.ReadsFrom file trc) (hsmall : file.length ≤ dataBufLen) :
    StoredAs (joinPath config.backupDir (wireName (getFilename filename))) file trs := by
  obtain ⟨mc,mc',hc⟩ := h.client
  obtain ⟨hvalid,rest,hd,hsent⟩ := Client.handleSend_sent hc hsizes hread hsmall
  rcases h.serves hp hd hsent.ne_nil fun {trh ds later es ms'} hh hpt hne hgets hheard => by
    obtain ⟨m,hsend⟩ := hh
    exact (Server.Send.talk hsend hvalid hsmall hpt hne).all_taken (hgets ▸ hsent) hheard
    with ⟨-,hnone⟩ | ⟨trh,hh⟩
  · rw [hnone] at hsent
    cases hsent
  · obtain ⟨es,ms',m,hsend⟩ := hh.handled
    have htaken := hh.taken
    generalize hg : gets trc = heard at hsent
    cases hsent with
    | new hr ha =>
      exact hh.storedAs (Server.Send.reported_new hsend hsmall (htaken ▸ List.prefix_refl _)
        (hg ▸ hh.replies) hr ha)
    | confirmed hr ha =>
      exact hh.storedAs (Server.Send.reported_confirmed hsend hsmall (htaken ▸ List.prefix_refl _)
        (hg ▸ hh.replies) ha)

/-- What a command has done to the files of the server. -/
def Reported (resolve : Bytes → F) (config : Server.ServerConfig) (files : Files F)
    (trc trs : Trace) : ClientCommand → Prop
  | .ls => filesAfter resolve files trs = files
  | .send filename => ∀ file : Bytes, (∀ n ∈ sizes trc, n = file.length) →
      Client.ReadsFrom file trc → file.length ≤ dataBufLen →
      filesAfter resolve files trs = Function.update files
        (resolve (joinPath config.backupDir (wireName (getFilename filename))))
        (some (storedBytes trs)) ∧
      storedBytes trs <+: file ∧ (storedBytes trs = file ↔ WritesAll trs)
  | .remove filename => filesAfter resolve files trs =
      files.delete (resolve (joinPath config.backupDir (wireName filename)))
  | .rename oldName newName => Server.Moved files (filesAfter resolve files trs)
      (resolve (joinPath config.backupDir (wireName oldName)))
      (resolve (joinPath config.backupDir (wireNewName newName)))
  | .shutdown => filesAfter resolve files trs = files

/-- Nothing is sent behind the command. -/
theorem Conversation.single (h : Conversation config handler e trc trs)
    (hp : ∀ ev ∈ trs, Prompt ev) (hd : delivered trc = [cmd.encode]) :
    Quiet trs ∧ gets trc = [] ∨ ∃ trh, Serves config cmd [] trc trs trh :=
  h.serves hp hd List.not_mem_nil fun _ _ _ hall _ => (List.append_eq_nil_iff.mp hall).2

/-- What the client reports as a success has happened on the server, and nothing else, when the
server gets its datagrams and its replies go out. Of a SEND this is about small files. -/
theorem reported_success {c : ClientCommand}
    (h : Conversation config (c.handler clientConfig) .SUCCESS trc trs)
    (hp : ∀ ev ∈ trs, Prompt ev) (hfiles : Consistent resolve files trs) :
    Reported resolve config files trc trs c := by
  obtain ⟨mc,mc',hc⟩ := h.client
  cases c with
  | ls =>
    rcases h.single hp (Client.handleLs_sent hc) with ⟨hquiet,-⟩ | ⟨trh,hh⟩
    · exact hquiet.filesAfter
    · obtain ⟨es,ms',hquiet⟩ := hh.handled
      exact hh.filesAfter.trans (Quiet.filesAfter hquiet)
  | send filename =>
    intro file hsizes hread hsmall
    have hstored := h.small_sent hp hsizes hread hsmall
    exact ⟨hstored.fills.filesAfter,hstored.begins,hstored.whole⟩
  | remove filename =>
    obtain ⟨a,hd,hg,hack⟩ := Client.handleRemove_heard hc
    rcases h.single hp hd with ⟨-,hnone⟩ | ⟨trh,hh⟩
    · rw [hg] at hnone
      cases hnone
    · obtain ⟨es,ms',m,hremove⟩ := hh.handled
      have hno := hh.not_noAck (by rw [hg]; exact List.mem_cons_self) hack
      exact hh.filesAfter.trans (Server.Remove.reported hremove hno)
  | rename oldName newName =>
    obtain ⟨rest,hd,hsent⟩ := Client.handleRename_sent hc
    obtain ⟨a,ha,hack⟩ := hsent.good
    rcases h.serves hp hd hsent.ne_nil fun {trh ds later es ms'} hh hpt hne hgets hheard => by
      obtain ⟨m,hrename⟩ := hh
      exact (Server.Rename.talk hrename hpt hne).all_taken (hgets ▸ hsent) hheard
      with ⟨-,hnone⟩ | ⟨trh,hh⟩
    · rw [hnone] at ha
      cases ha
    · obtain ⟨es,ms',m,hrename⟩ := hh.handled
      have hrename : Server.Rename config _ m trh es ms' := hrename
      have hlen := hrename.whole a (delivered_sublist.subset (hh.replies.subset ha))
      have hmoved := hrename.reported (hh.consistent hfiles) (hh.not_noAck ha (hack hlen))
        (hh.taken ▸ List.prefix_refl _) hsent.head
      rw [← hh.filesAfter] at hmoved
      exact hmoved
  | shutdown =>
    rcases h.single hp (Client.handleShutdown_sent hc) with ⟨hquiet,-⟩ | ⟨trh,hh⟩
    · exact hquiet.filesAfter
    · obtain ⟨es,ms',hquiet⟩ := hh.handled
      exact hh.filesAfter.trans (Quiet.filesAfter hquiet)

/-- The file `a` is renamed to `b`, which is there, and the user agrees. -/
def askRename : CmdMsg := Client.command .RENAME (ascii ['a'])

def newNameB : Bytes := (DataMsg.setData (ascii ['b'])).toList

def agreeRename : CmdMsg := { Client.command .OVERWRITE [] with error := 0 }

def renameClient (name : Bytes) : Trace :=
  [⟨.sendto Server.sampleAddr askRename.encode,true⟩,
    ⟨.recvfrom 137,some (Server.sampleAddr,(Server.reply .READY_FOR_NEW_NAME 0).encode)⟩,
    ⟨.sendto Server.sampleAddr name,true⟩,
    ⟨.recvfrom 137,some (Server.sampleAddr,(Server.reply .FILE_EXISTS 0).encode)⟩,
    ⟨.answer,ascii ['y']⟩,⟨.sendto Server.sampleAddr agreeRename.encode,true⟩,
    ⟨.recvfrom 137,some (Server.sampleAddr,(Server.reply .ACK 0).encode)⟩]

theorem rename_client : Runs (Client.handleRename ⟨true⟩ (ascii ['a']) (ascii ['b']))
    ⟨Server.sampleAddr,[]⟩ (renameClient newNameB) .SUCCESS ⟨Server.sampleAddr,[]⟩ := by
  have hreply : ∀ (msg : CmdMsg) (command : Command), CmdMsg.decode (overlay msg.encode
      (Server.reply command 0).encode) = Server.reply command 0 := fun msg command => by
    rw [overlay_full (by simp),CmdMsg.decode_encode]
  have hne : ∀ msg : CmdMsg, msg.encode ≠ [] := fun _ => List.cons_ne_nil _ _
  unfold Client.handleRename Client.sendCommand
  refine Client.runs_sendto_bind.mpr ⟨true,_,rfl,?_⟩
  refine Client.runs_receiveResponse_bind.mpr (Or.inr ⟨Server.sampleAddr,_,_,rfl,?_⟩)
  rw [if_neg (hne _),hreply]
  refine Client.runs_sendto_bind.mpr ⟨true,_,rfl,?_⟩
  refine Client.runs_receiveResponse_bind.mpr (Or.inr ⟨Server.sampleAddr,_,_,rfl,?_⟩)
  rw [if_neg (hne _),hreply]
  refine runs_ask_bind.mpr ⟨ascii ['y'],_,rfl,?_⟩
  refine Client.runs_sendto_bind.mpr ⟨true,_,rfl,?_⟩
  refine Client.runs_receiveResponse_bind.mpr (Or.inr ⟨Server.sampleAddr,_,_,rfl,?_⟩)
  rw [if_neg (hne _),hreply]
  exact runs_pure.mpr ⟨rfl,rfl,rfl⟩

/-- The server, whose main loop waits in vain behind the command. -/
def renameHandler (name : Bytes) : Trace :=
  [⟨.cstring 128 askRename.tail,[]⟩,⟨.accepted (ascii ['a']),()⟩,
    ⟨.fileExists (ascii ['b','/','a']),true⟩,
    ⟨.sendto Server.sampleAddr (Server.reply .READY_FOR_NEW_NAME 0).encode,true⟩,
    ⟨.recvfrom 3000,some (Server.sampleAddr,name)⟩,⟨.cstring 3000 name,[]⟩,
    ⟨.accepted (ascii ['b']),()⟩,⟨.fileExists (ascii ['b','/','b']),true⟩,
    ⟨.sendto Server.sampleAddr (Server.reply .FILE_EXISTS 0).encode,true⟩,
    ⟨.recvfrom 137,some (Server.sampleAddr,agreeRename.encode)⟩,
    ⟨.deleteFile (ascii ['b','/','b']),true⟩,
    ⟨.renameFile (ascii ['b','/','a']) (ascii ['b','/','b']),true⟩,
    ⟨.sendto Server.sampleAddr (Server.reply .ACK 0).encode,true⟩]

def renameServer (name : Bytes) : Trace :=
  [⟨.select,.readable⟩,⟨.recvfrom 137,some (Server.sampleAddr,askRename.encode)⟩,
    ⟨.metric (.recordRequest "CMD_RENAME"),()⟩] ++ renameHandler name ++
  [⟨.cstring 128 askRename.tail,[]⟩,⟨.select,.timeout⟩]

section Sample
open Server

theorem rename_handler (m : Members) : Runs (handleRename sampleConfig askRename)
    (m.serving sampleAddr) (renameHandler newNameB) .SUCCESS (m.serving sampleAddr) := by
  have hold : cString (askRename.tail ++ []) = ascii ['a'] := by decide +kernel
  have hnew : cString (newNameB ++ []) = ascii ['b'] := by
    rw [newNameB,cString_setData]
    decide +kernel
  have hne : newNameB ≠ [] := by simp [newNameB]
  have hread : Reads 3000 (DataMsg.received newNameB).toList
      [⟨.cstring 3000 newNameB,[]⟩] (ascii ['b']) := by
    rw [newNameB,DataMsg.received_toList,← newNameB,← hnew]
    exact .read []
  have hagree : Confirms (CmdMsg.received agreeRename.encode) := by
    rw [CmdMsg.received_encode]
    exact ⟨rfl,rfl⟩
  unfold handleRename
  refine runs_readString_bind.mpr ⟨_,_,_,.read [],rfl,?_⟩
  rw [hold]
  refine runs_validate_bind.mpr (Or.inr ⟨by decide +kernel,_,rfl,?_⟩)
  refine runs_ask_bind.mpr ⟨true,_,rfl,?_⟩
  refine runs_sendto_bind.mpr ⟨true,_,rfl,?_⟩
  refine runs_recvfrom_bind.mpr (Or.inr ⟨sampleAddr,_,_,rfl,?_⟩)
  dsimp only
  rw [if_neg hne]
  refine runs_readString_bind.mpr ⟨_,_,_,hread,rfl,?_⟩
  refine runs_validate_bind.mpr (Or.inr ⟨by decide +kernel,_,rfl,?_⟩)
  refine runs_ask_bind.mpr ⟨true,_,rfl,?_⟩
  refine runs_sendto_bind.mpr ⟨true,_,rfl,?_⟩
  refine runs_recvfrom_bind.mpr (Or.inr ⟨sampleAddr,_,_,rfl,?_⟩)
  simp only [hagree.1,hagree.2,ne_eq,not_true_eq_false,or_self,if_false]
  refine runs_ask_bind.mpr ⟨true,_,rfl,?_⟩
  refine runs_ask_bind.mpr ⟨true,_,rfl,?_⟩
  exact runs_sendto.mpr ⟨true,rfl,rfl,rfl⟩

theorem rename_server : ∃ m,
    Runs (run sampleConfig 2) (init sampleConfig) (renameServer newNameB) () m := by
  have hask : CmdMsg.received askRename.encode = askRename := CmdMsg.received_encode _
  refine ⟨{ (init sampleConfig).serving sampleAddr with state := .WAITING },?_⟩
  have hnext : Runs nextCommand (init sampleConfig)
      [⟨.select,.readable⟩,⟨.recvfrom 137,some (sampleAddr,askRename.encode)⟩]
      (some askRename.encode) ((init sampleConfig).serving sampleAddr) := by
    refine runs_ask_bind.mpr ⟨.readable,_,rfl,?_⟩
    exact runs_recvfrom_bind.mpr (Or.inr ⟨sampleAddr,_,_,rfl,runs_pure.mpr ⟨rfl,rfl,rfl⟩⟩)
  have hcall : Runs (processCommand sampleConfig askRename)
      ((init sampleConfig).serving sampleAddr)
      (renameHandler newNameB ++ [⟨.cstring 128 askRename.tail,[]⟩]) .SUCCESS
      { (init sampleConfig).serving sampleAddr with state := .PROCESS_RENAME } := by
    refine runs_bind.mpr ⟨.SUCCESS,_,_,_,rename_handler
      { init sampleConfig with state := .PROCESS_RENAME },?_,rfl⟩
    exact runs_readString_bind.mpr ⟨_,_,_,.read [],rfl,runs_pure.mpr ⟨rfl,rfl,rfl⟩⟩
  have hdispatch : Runs (dispatch sampleConfig askRename.encode)
      ((init sampleConfig).serving sampleAddr)
      (⟨.metric (.recordRequest "CMD_RENAME"),()⟩ ::
        (renameHandler newNameB ++ [⟨.cstring 128 askRename.tail,[]⟩])) true
      { (init sampleConfig).serving sampleAddr with state := .WAITING } := by
    unfold dispatch
    rw [hask]
    refine runs_ask_bind.mpr ⟨(),_,rfl,runs_bind.mpr ⟨.SUCCESS,_,_,[],hcall,?_,?_⟩⟩
    · exact runs_pure.mpr ⟨rfl,rfl,rfl⟩
    · simp
  have hidle : Runs (run sampleConfig 1)
      { (init sampleConfig).serving sampleAddr with state := .WAITING } [⟨.select,.timeout⟩] ()
      { (init sampleConfig).serving sampleAddr with state := .WAITING } :=
    exec_of_replay (by decide +kernel)
  rw [run,runs_get_bind,if_neg (by decide)]
  refine runs_bind.mpr ⟨_,_,_,_,hnext,runs_bind.mpr ⟨true,_,_,_,hdispatch,hidle,rfl⟩,?_⟩
  simp [renameServer]

end Sample

theorem rename_conversation : Conversation Server.sampleConfig
    ((ClientCommand.rename (ascii ['a']) (ascii ['b'])).handler ⟨true⟩) .SUCCESS
    (renameClient newNameB) (renameServer newNameB) := by
  obtain ⟨m,hserver⟩ := rename_server
  have hdata : ∀ name, gets (renameServer name) = delivered (renameClient name) := fun _ => rfl
  have hreplies : ∀ name, gets (renameClient name) = delivered (renameServer name) := fun _ => rfl
  exact .talked rename_client hserver (hdata _ ▸ List.prefix_refl _)
    (hreplies _ ▸ List.prefix_refl _)

/-- Two files are backed up. -/
def backedUp : Files Bytes := fun f =>
  if f = ascii ['b','/','a'] then some [1] else if f = ascii ['b','/','b'] then some [2] else none

theorem reported_success_rename : Reported id Server.sampleConfig backedUp
    (renameClient newNameB) (renameServer newNameB) (.rename (ascii ['a']) (ascii ['b'])) := by
  have hp : ∀ ev ∈ renameServer newNameB, Prompt ev := by
    unfold renameServer renameHandler
    simp [Prompt]
  have hfiles : Consistent id backedUp (renameServer newNameB) := by
    unfold renameServer renameHandler
    simp [Agrees,backedUp,effect,Store.delete,ascii]
  exact reported_success rename_conversation hp hfiles

end Conversation

end NetworkLab.Backup
