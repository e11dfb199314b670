import NetworkLab.Backup.Heard
import NetworkLab.Backup.Rename
import NetworkLab.Backup.WireNames
set_option autoImplicit false

/-! When no receive is in vain, the handler of a command takes everything that the client sends
behind the command, and nothing of it comes to the main loop. -/

namespace NetworkLab.Backup
open Interaction

/-- All that is sent goes out. -/
theorem delivered_of_prompt {tr : Trace} (h : ∀ ev ∈ tr, Prompt ev) : delivered tr = sends tr := by
  induction tr with
  | nil => rfl
  | cons ev tr ih =>
    obtain ⟨hev,htr⟩ := List.forall_mem_cons.mp h
    obtain ⟨o,r⟩ := ev
    cases o with
    | sendto dest d =>
      obtain rfl : r = true := hev
      exact congrArg (d :: ·) (ih htr)
    | _ => exact ih htr

/-- Calls that have to do neither with files nor with datagrams. -/
structure Aside (tr : Trace) : Prop where
  quiet : Quiet tr
  sends : sends tr = []
  gets : gets tr = []

section Aside
variable {tr post : Trace}

theorem Aside.nil : Aside [] := ⟨quiet_nil,rfl,rfl⟩

theorem Aside.append (h : Aside tr) (h' : Aside post) : Aside (tr ++ post) :=
  ⟨quiet_append.mpr ⟨h.quiet,h'.quiet⟩,by rw [sends_append,h.sends,h'.sends]; rfl,
    by rw [gets_append,h.gets,h'.gets]; rfl⟩

theorem Aside.delivered (h : Aside tr) : delivered tr = [] :=
  List.sublist_nil.mp (h.sends ▸ delivered_sublist)

end Aside

namespace Server

variable {config : ServerConfig} {cmd : CmdMsg} {m m' : Members} {tr : Trace} {e : ErrorCode}
variable {filepath filename file : Bytes} {taken replies ds heard later : List Bytes}

/-- Then what brought nothing was an empty datagram. -/
theorem Nothing.empty_of_prompt {size : Nat} {r : Event Res} (h : Nothing size m r m')
    (hp : Prompt r) : gotBy r = some [] := by
  cases h with
  | again => exact absurd rfl hp
  | empty sender => rfl

theorem Nothing.not_prompt {size : Nat} {r : Event Res} (h : Nothing size m r m')
    (hr : r ∈ tr) (hp : ∀ ev ∈ tr, Prompt ev) : [] ∈ gets tr :=
  List.mem_filterMap.mpr ⟨r,hr,h.empty_of_prompt (hp r hr)⟩

/-- What is taken and sent from the new name on: it is answered, or a confirmation is asked
for. -/
inductive NameTalk : List Bytes → List Bytes → Prop where
  | answered {d a : Bytes} : (CmdMsg.received a).getCommand = some .ACK → NameTalk [d] [a]
  | asked {d confirm q a : Bytes} : (CmdMsg.received q).getCommand = some .FILE_EXISTS →
      NameTalk [d,confirm] [q,a]

theorem NewName.talk {oldFilepath : Bytes} (h : NewName config oldFilepath m tr e m')
    (hp : ∀ ev ∈ tr, Prompt ev) (hne : [] ∉ gets tr) : NameTalk (gets tr) (Backup.sends tr) := by
  have hack : ∀ error, (CmdMsg.received (reply .ACK error).encode).getCommand = some .ACK :=
    fun error => by rw [CmdMsg.received_encode,getCommand_reply]
  have hexists : (CmdMsg.received (reply .FILE_EXISTS 0).encode).getCommand =
      some .FILE_EXISTS := by
    rw [CmdMsg.received_encode,getCommand_reply]
  cases h with
  | noName hr => exact absurd (hr.not_prompt (by simp) hp) hne
  | invalid hd hname hv =>
    cases hname
    exact .answered (hack _)
  | fresh sender done ok hd hname hv =>
    cases hname
    exact .answered (hack _)
  | noConfirm sender asked hd hname hv hr => exact absurd (hr.not_prompt (by simp) hp) hne
  | declined sender sender' asked ok hd hname hv hc hno =>
    cases hname
    exact .asked hexists
  | confirmed sender sender' asked deleted done ok hd hname hv hc hyes =>
    cases hname
    exact .asked hexists

/-- What the handler of a rename takes and sends. -/
inductive RenameTalk : List Bytes → List Bytes → Prop where
  | refused {a : Bytes} : a.length = 137 → (CmdMsg.received a).getCommand = some .ACK →
      (CmdMsg.received a).error ≠ 0 → RenameTalk [] [a]
  | handshake {r : Bytes} {taken replies : List Bytes} :
      (CmdMsg.received r).getCommand = some .READY_FOR_NEW_NAME → NameTalk taken replies →
      RenameTalk taken (r :: replies)
  | direct {taken replies : List Bytes} : NameTalk taken replies → RenameTalk taken replies

theorem Rename.talk (h : Rename config cmd m tr e m') (hp : ∀ ev ∈ tr, Prompt ev)
    (hne : [] ∉ gets tr) : RenameTalk (gets tr) (Backup.sends tr) := by
  have hrefused : ∀ {error : UInt16}, error ≠ 0 → RenameTalk [] [(reply .ACK error).encode] := by
    intro error herror
    refine .refused (CmdMsg.encode_length _) ?_ ?_
    · rw [CmdMsg.received_encode,getCommand_reply]
    · rwa [CmdMsg.received_encode]
  cases h with
  | invalid hname hv =>
    cases hname
    exact hrefused (by decide)
  | missing hname hv =>
    cases hname
    exact hrefused (by decide)
  | handshake ok hname hv hs hnew =>
    cases hname
    have hready : (CmdMsg.received (reply .READY_FOR_NEW_NAME 0).encode).getCommand =
        some .READY_FOR_NEW_NAME := by
      rw [CmdMsg.received_encode,getCommand_reply]
    exact .handshake hready (hnew.talk (fun ev hev => hp ev (List.mem_append_right _ hev)) hne)
  | direct hname hv hs hnew =>
    cases hname
    exact .direct (hnew.talk (fun ev hev => hp ev (List.mem_append_right _ hev)) hne)

/-- A client whose rename has succeeded was not refused. -/
theorem not_refused {newName a : Bytes} {rest : List Bytes}
    (h : Client.RenameSent newName rest heard) (hheard : heard <+: a :: later)
    (hlen : a.length = 137) (hack : (CmdMsg.received a).getCommand = some .ACK)
    (herror : (CmdMsg.received a).error ≠ 0) : False := by
  obtain ⟨more,hmore⟩ := hheard
  cases h with
  | old hgood =>
    obtain rfl := (List.cons.inj hmore).1
    exact herror (hgood hlen).2
  | @answered ready b hready hgood =>
    cases ready with
    | none =>
      obtain rfl : b = a := (List.cons.inj hmore).1
      exact herror (hgood hlen).2
    | some r =>
      obtain rfl : r = a := (List.cons.inj hmore).1
      exact hready r rfl hack
  | @confirmed ready _ q _ hready _ hexists =>
    cases ready with
    | none =>
      obtain rfl : q = a := (List.cons.inj hmore).1
      cases hack.symm.trans hexists
    | some r =>
      obtain rfl : r = a := (List.cons.inj hmore).1
      exact hready r rfl hack

/-- Nor was it asked for a confirmation when the server has not asked. -/
theorem not_answered {newName a : Bytes} {ready : Option Bytes} {rest : List Bytes}
    (h : Client.RenameSent newName rest heard) (hrest : rest.length = 2)
    (hready : ∀ r ∈ ready, (CmdMsg.received r).getCommand = some .READY_FOR_NEW_NAME)
    (hack : (CmdMsg.received a).getCommand = some .ACK)
    (hheard : heard <+: ready.toList ++ a :: later) : False := by
  obtain ⟨more,hmore⟩ := hheard
  cases h with
  | old => cases hrest
  | answered => cases hrest
  | @confirmed asked _ q b hasked _ hexists =>
    cases asked with
    | none =>
      cases ready with
      | none =>
        obtain rfl : q = a := (List.cons.inj hmore).1
        cases hack.symm.trans hexists
      | some r =>
        obtain rfl : q = r := (List.cons.inj hmore).1
        cases (hready q rfl).symm.trans hexists
    | some r =>
      cases ready with
      | none =>
        obtain rfl : r = a := (List.cons.inj hmore).1
        exact hasked r rfl hack
      | some r' =>
        obtain rfl : q = a := (List.cons.inj (List.cons.inj hmore).2).1
        cases hack.symm.trans hexists

theorem NameTalk.all_taken {newName : Bytes} {ready : Option Bytes}
    (h : NameTalk taken replies) (hsent : Client.RenameSent newName (taken ++ ds) heard)
    (hready : ∀ r ∈ ready, (CmdMsg.received r).getCommand = some .READY_FOR_NEW_NAME)
    (hheard : heard <+: ready.toList ++ (replies ++ later)) : ds = [] := by
  have hlen := hsent.length_le
  cases h with
  | @answered d a hack =>
    cases ds with
    | nil => rfl
    | cons c ds =>
      obtain rfl : ds = [] := by simpa using hlen
      exact (not_answered hsent rfl hready hack hheard).elim
  | asked => simpa using hlen

/-- Whatever the modes of the two are. -/
theorem RenameTalk.all_taken {newName : Bytes} (h : RenameTalk taken replies)
    (hsent : Client.RenameSent newName (taken ++ ds) heard)
    (hheard : heard <+: replies ++ later) : ds = [] := by
  cases h with
  | refused hlen hack herror => exact (not_refused hsent hheard hlen hack herror).elim
  | @handshake r taken replies hr htalk =>
    exact htalk.all_taken hsent (fun d hd => (by cases hd; exact hr) : ∀ d ∈ some r, _) hheard
  | direct htalk => exact htalk.all_taken hsent (fun d hd => (by cases hd) : ∀ d ∈ none, _) hheard

theorem Reads.aside {field : Nat} {memory name : Bytes} (h : Reads field memory tr name) :
    Aside tr := by
  cases h
  exact ⟨by simp [alters],rfl,rfl⟩

theorem aside_failed (cmd : CmdMsg) (e : ErrorCode) : Aside (failed cmd e) := by
  unfold failed
  split
  · exact ⟨by simp [alters],rfl,rfl⟩
  · exact .nil

/-- The name is read, and the file looked for. -/
theorem Reads.looked {field : Nat} {memory name : Bytes} (h : Reads field memory tr name)
    (dir : Bytes) (there : Bool) :
    Aside (tr ++ [⟨.accepted name,()⟩,⟨.fileExists (joinPath dir name),there⟩]) :=
  h.aside.append ⟨by simp [alters],rfl,rfl⟩

/-- A small file is announced with its size. -/
theorem AnyFile.small (h : AnyFile filepath (UInt32.ofNat file.length).toNat m tr e m')
    (hsmall : file.length ≤ dataBufLen) : SmallFile filepath file.length m tr e m' := by
  rw [announced_size (hsmall.trans_lt (by decide))] at h
  exact (h.resolve_right fun hlarge => absurd hlarge.1 (Nat.not_lt.mpr hsmall)).2

theorem Reads.wireName {name : Bytes} (h : Reads 128 cmd.tail tr name)
    (hcmd : cmd.filename = (CmdMsg.setFilename filename .new).filename) :
    name = Backup.wireName filename := by
  obtain ⟨beyond⟩ := h
  exact cString_tail beyond hcmd

theorem SmallFile.takes_one {filesize : Nat} (h : SmallFile filepath filesize m tr e m')
    (hp : ∀ ev ∈ tr, Prompt ev) (hne : [] ∉ gets tr) : (gets tr).length = 1 := by
  cases h with
  | noData hr => exact absurd (hr.not_prompt (by simp) hp) hne
  | noFile hd => rfl
  | stored stored hd => rfl

/-- What the handler of a SEND takes and sends, up to the file. -/
inductive SendTalk (confirm : Bytes) : List Bytes → List Bytes → Prop where
  | new {r : Bytes} {taken replies : List Bytes} :
      (CmdMsg.received r).getCommand = some .ACK → taken.length = 1 →
      SendTalk confirm taken (r :: replies)
  | declined {d r : Bytes} {replies : List Bytes} : d ≠ confirm →
      SendTalk confirm [d] (r :: replies)
  | confirmed {d r : Bytes} {taken replies : List Bytes} :
      (d = confirm → taken.length = 1) → SendTalk confirm (d :: taken) (r :: replies)

theorem Send.talk (h : Send config (Client.sendMsg filename file.length) m tr e m')
    (hvalid : isValidFilename (getFilename filename) = true) (hsmall : file.length ≤ dataBufLen)
    (hp : ∀ ev ∈ tr, Prompt ev) (hne : [] ∉ gets tr) :
    SendTalk (Client.confirmMsg filename file.length).encode (gets tr) (Backup.sends tr) := by
  cases h with
  | invalid hname hv =>
    obtain rfl := hname.wireName rfl
    rw [wireName_of_valid hvalid,valid_take hvalid] at hv
    cases hv
  | new hname hv hfile =>
    have hpre := hname.looked config.backupDir false
    rw [gets_append,hpre.gets,List.nil_append] at hne ⊢
    rw [sends_append,hpre.sends,List.nil_append]
    have hfile := hfile.small hsmall
    have htakes := hfile.takes_one (fun ev hev => hp ev (List.mem_append_right _ hev)) hne
    cases hfile <;> exact .new (by rw [CmdMsg.received_encode,getCommand_reply]) htakes
  | existing hname hv hc =>
    have hpre := hname.looked config.backupDir true
    rw [gets_append,hpre.gets,List.nil_append] at hne ⊢
    rw [sends_append,hpre.sends,List.nil_append]
    have hp := fun ev hev => hp ev (List.mem_append_right _ hev)
    cases hc with
    | notSent => cases (hp _ (List.mem_singleton_self _) : false = true)
    | noConfirm hn => exact absurd (hn.not_prompt (by simp) hp) hne
    | declined hd hno =>
      refine .declined ?_
      rintro rfl
      rw [CmdMsg.received_encode] at hno
      exact hno ⟨rfl,rfl⟩
    | @confirmed sender d name trn tr _ _ hd hconf hname' hfile =>
      simp only [gets_append,hname'.aside.gets,List.append_nil] at hne ⊢
      refine .confirmed ?_
      rintro rfl
      rw [CmdMsg.received_encode] at hfile
      exact (hfile.small hsmall).takes_one (fun ev hev => hp ev (List.mem_append_right _ hev))
        fun hmem => hne (List.mem_append_right _ hmem)

theorem SendTalk.all_taken
    (h : SendTalk (Client.confirmMsg filename file.length).encode taken replies)
    (hsent : Client.SmallSent filename file (taken ++ ds) heard)
    (hheard : heard <+: replies ++ later) : ds = [] := by
  cases h with
  | @new r taken replies hack hone =>
    generalize hall : taken ++ ds = rest at hsent
    have hlen := congrArg List.length hall
    rw [List.length_append,hone] at hlen
    cases hsent with
    | new => exact List.length_eq_zero_iff.mp (by simpa using hlen)
    | confirmed hexists =>
      obtain ⟨more,hmore⟩ := hheard
      obtain rfl := (List.cons.inj hmore).1
      cases hack.symm.trans hexists
  | @declined d r replies hd =>
    generalize hall : [d] ++ ds = rest at hsent
    cases hsent with
    | new => exact (List.cons.inj hall).2
    | confirmed => exact absurd (List.cons.inj hall).1 hd
  | @confirmed d r taken replies hone =>
    generalize hall : d :: taken ++ ds = rest at hsent
    cases hsent with
    | new => exact (List.append_eq_nil_iff.mp (List.cons.inj hall).2).2
    | confirmed =>
      obtain ⟨hd,hrest⟩ := List.cons.inj hall
      have hlen : (taken ++ ds).length = 1 := congrArg List.length hrest
      rw [List.length_append,hone hd] at hlen
      exact List.length_eq_zero_iff.mp (by simpa using hlen)

theorem aside_nextCommand (h : Runs nextCommand m tr none m') (hne : [] ∉ gets tr) : Aside tr := by
  rcases runs_nextCommand_none h with ⟨rfl,-⟩ | ⟨rfl,-⟩ | ⟨r,rfl,hr⟩
  · exact ⟨by simp [alters],rfl,rfl⟩
  · exact ⟨by simp [alters],rfl,rfl⟩
  · cases hr with
    | again => exact ⟨by simp [alters],rfl,rfl⟩
    | empty sender => exact absurd (List.mem_singleton_self _) hne

/-- The main loop takes `d`, runs its handler, and goes on. -/
structure Handles (config : ServerConfig) (d : Bytes) (tr pre trh post later : Trace) : Prop where
  eq : tr = pre ++ trh ++ (post ++ later)
  quiet : Quiet pre
  sends : Backup.sends pre = []
  gets : Backup.gets pre = [d]
  handled : ∃ m e m', Handled config (CmdMsg.received d) m trh e m'
  after : Aside post
  goesOn : ∃ m calls m', ServerRun config m later calls m'

/-- The main loop takes nothing, or there is a first command. -/
theorem ServerRun.first {calls : List ServerCall} (h : ServerRun config m tr calls m')
    (hne : [] ∉ gets tr) :
    Aside tr ∨ ∃ d pre trh post later, Handles config d tr pre trh post later := by
  induction h with
  | stop m => exact Or.inl .nil
  | idle _ hnext _ ih =>
    rw [gets_append,List.mem_append,not_or] at hne
    have hidle := aside_nextCommand hnext hne.1
    rcases ih hne.2 with haside | ⟨d,pre,trh,post,later,hh⟩
    · exact Or.inl (hidle.append haside)
    · refine Or.inr ⟨d,_,trh,post,later,⟨?_,quiet_append.mpr ⟨hidle.quiet,hh.quiet⟩,?_,?_,
        hh.handled,hh.after,hh.goesOn⟩⟩
      · rw [hh.eq,List.append_assoc,List.append_assoc,List.append_assoc]
      · rw [sends_append,hidle.sends,hh.sends,List.nil_append]
      · rw [gets_append,hidle.gets,hh.gets,List.nil_append]
  | @call _ _ _ _ _ _ tr d e _ _ hnext hp hrun ih =>
    obtain ⟨sender,-,rfl,rfl⟩ := runs_nextCommand_some hnext
    obtain ⟨hh,hread⟩ := runs_processCommand hp
    refine Or.inr ⟨d,[⟨.select,.readable⟩,got 137 sender d] ++ requested (CmdMsg.received d),_,
      _,tr,⟨?_,?_,rfl,rfl,⟨_,_,_,hh⟩,
      hread.aside.append (aside_failed (CmdMsg.received d) e),⟨_,_,_,hrun⟩⟩⟩
    · simp only [List.append_assoc]
    · simp [requested,got,alters]

/-- A main loop that gets nothing does nothing. -/
theorem ServerRun.aside {calls : List ServerCall} (h : ServerRun config m tr calls m')
    (hgets : gets tr = []) : Aside tr := by
  rcases h.first (hgets ▸ List.not_mem_nil) with haside | ⟨d,pre,trh,post,later,hh⟩
  · exact haside
  · rw [hh.eq,gets_append,gets_append,hh.gets] at hgets
    cases hgets

end Server

end NetworkLab.Backup
