import NetworkLab.Backup.Confinement
import NetworkLab.Backup.Names
set_option autoImplicit false

/-! Which names survive the way to the server: the validator lets pass 255 bytes, a command
has room for 127. -/

namespace NetworkLab.Backup
open Interaction Server

/-- The message was filled by `setFilename`. -/
def Carries (name : Bytes) (msg : CmdMsg) : Prop :=
  msg.filename = (CmdMsg.setFilename name .new).filename

/-- A call of a rename: it deletes and renames no other files. -/
def RenamesTo (oldFilepath newFilepath : Bytes) (ev : Event Res) : Prop :=
  (∀ path, ev.1 = .deleteFile path → path = newFilepath) ∧
    ∀ oldPath newPath, ev.1 = .renameFile oldPath newPath →
      oldPath = oldFilepath ∧ newPath = newFilepath

/-- The server reads this name from a command and from a message with a new name, and works
on its file: in SEND and REMOVE on no other, and RENAME moves it to the new name. -/
structure Survives (name : Bytes) : Prop where
  command : ∀ msg, Carries name msg → ∀ beyond, cString (msg.tail ++ beyond) = name
  newName : ∀ beyond, cString ((DataMsg.setData name).toList ++ beyond) = name
  acts : ∀ (config : ServerConfig) (cmd : CmdMsg) (m m' : Members) (tr : Trace) (e : ErrorCode),
    Runs (processCommand config cmd) m tr e m' →
    cmd.getCommand = some .SEND ∨ cmd.getCommand = some .REMOVE → Carries name cmd →
    (∀ sender d, got 137 sender d ∈ tr → Confirms (CmdMsg.received d) →
      Carries name (CmdMsg.received d)) →
    ∀ ev ∈ tr, ∀ path ∈ touches ev.1, path = joinPath config.backupDir name
  renames : ∀ (config : ServerConfig) (cmd : CmdMsg) (m m' : Members) (tr : Trace) (e : ErrorCode)
    (new : Bytes), Runs (processCommand config cmd) m tr e m' → cmd.getCommand = some .RENAME →
    isValidFilename new = true → Carries name cmd →
    (∀ sender d, got 3000 sender d ∈ tr → d ≠ [] → DataMsg.received d = .setData new) →
    ∀ ev ∈ tr, RenamesTo (joinPath config.backupDir name) (joinPath config.backupDir new) ev

section WireNames
variable {config : ServerConfig} {cmd : CmdMsg} {m m' : Members} {tr trn : Trace} {e : ErrorCode}
variable {name new : Bytes}

theorem wireName_of_valid (h : isValidFilename name = true) : wireName name = name.take 127 := by
  rw [wireName,cString_eq_self (valid_iff.mp h).2.2.2.2.2.2.1]

/-- A new name always arrives. -/
theorem wireNewName_of_valid (h : isValidFilename name = true) : wireNewName name = name := by
  obtain ⟨-,hlen,-,-,-,-,hzero,-⟩ := valid_iff.mp h
  rw [wireNewName,List.take_of_length_le (by omega),cString_eq_self hzero]

namespace Server

theorem Reads.carried {msg : CmdMsg} {read : Bytes} (h : Reads 128 msg.tail trn read)
    (hc : Carries name msg) (hname : wireName name = name) : read = name := by
  obtain ⟨beyond⟩ := h
  exact (cString_tail beyond hc).trans hname

theorem AnyFile.touches {filepath : Bytes} {filesize : Nat}
    (h : AnyFile filepath filesize m tr e m') :
    ∀ ev ∈ tr, ∀ path ∈ Server.touches ev.1, path = filepath :=
  fun ev hev => (h.fileEvent ev hev).touches

theorem Reads.untouched {field : Nat} {memory read : Bytes} (h : Reads field memory trn read) :
    ∀ ev ∈ trn, ∀ path ∈ touches ev.1, path = joinPath config.backupDir name := by
  cases h
  simp [touches]

theorem Send.acts (h : Send config cmd m tr e m') (hc : Carries name cmd)
    (hname : wireName name = name) (hconfirm : ∀ sender d, got 137 sender d ∈ tr →
      Confirms (CmdMsg.received d) → Carries name (CmdMsg.received d)) :
    ∀ ev ∈ tr, ∀ path ∈ touches ev.1, path = joinPath config.backupDir name := by
  cases h with
  | invalid hr hv =>
    rw [List.forall_mem_append]
    exact ⟨hr.untouched,by simp [sent,touches]⟩
  | new hr hv hfile =>
    obtain rfl := hr.carried hc hname
    rw [List.forall_mem_append,List.forall_mem_append]
    exact ⟨⟨hr.untouched,by simp [touches]⟩,AnyFile.touches hfile⟩
  | existing hr hv hfile =>
    obtain rfl := hr.carried hc hname
    rw [List.forall_mem_append,List.forall_mem_append]
    refine ⟨⟨hr.untouched,by simp [touches]⟩,?_⟩
    cases hfile with
    | notSent => simp [sent,touches]
    | noConfirm hn => cases hn <;> simp [sent,got,touches]
    | declined hd hno => simp [sent,got,touches]
    | @confirmed sender datagram read trn' tr' e m' hd hyes hr' hfile =>
      obtain rfl := hr'.carried (hconfirm sender datagram (by simp) hyes) hname
      rw [List.forall_mem_append,List.forall_mem_append]
      exact ⟨⟨by simp [sent,got,touches],hr'.untouched⟩,AnyFile.touches hfile⟩

theorem Remove.acts (h : Remove config cmd m tr e m') (hc : Carries name cmd)
    (hname : wireName name = name) :
    ∀ ev ∈ tr, ∀ path ∈ touches ev.1, path = joinPath config.backupDir name := by
  cases h with
  | invalid hr hv =>
    cases hr
    simp [sent,touches]
  | missing hr hv =>
    cases hr
    simp [sent,touches]
  | deleted hr hv =>
    obtain rfl := hr.carried hc hname
    cases hr
    simp [sent,touches]

theorem Reads.renamesTo {field : Nat} {memory read oldFilepath newFilepath : Bytes}
    (h : Reads field memory trn read) : ∀ ev ∈ trn, RenamesTo oldFilepath newFilepath ev := by
  cases h
  simp [RenamesTo]

theorem NewName.renamesTo {oldFilepath : Bytes} (h : NewName config oldFilepath m tr e m')
    (hnew : wireNewName new = new)
    (hdata : ∀ sender d, got 3000 sender d ∈ tr → d ≠ [] → DataMsg.received d = .setData new) :
    ∀ ev ∈ tr, RenamesTo oldFilepath (joinPath config.backupDir new) ev := by
  have hread : ∀ {d read : Bytes} {trn : Trace}, DataMsg.received d = .setData new →
      Reads 3000 (DataMsg.received d).toList trn read → read = new := by
    rintro d read trn hd ⟨beyond⟩
    rw [hd,cString_setData,hnew]
  cases h with
  | noName hn => cases hn <;> simp [got,RenamesTo]
  | invalid hd hr hv =>
    cases hr
    simp [got,sent,RenamesTo]
  | fresh sender done ok hd hr hv =>
    obtain rfl := hread (hdata sender _ (by simp) hd) hr
    cases hr
    simp [got,sent,renamed,RenamesTo]
  | noConfirm sender asked hd hr hv hn =>
    cases hr
    cases hn <;> simp [got,sent,RenamesTo]
  | declined sender sender' asked ok hd hr hv hc hno =>
    cases hr
    simp [got,sent,RenamesTo]
  | confirmed sender sender' asked deleted done ok hd hr hv hc hyes =>
    obtain rfl := hread (hdata sender _ (by simp) hd) hr
    cases hr
    simp [got,sent,renamed,RenamesTo]

theorem Rename.renamesTo (h : Rename config cmd m tr e m') (hc : Carries name cmd)
    (hname : wireName name = name) (hnew : wireNewName new = new)
    (hdata : ∀ sender d, got 3000 sender d ∈ tr → d ≠ [] → DataMsg.received d = .setData new) :
    ∀ ev ∈ tr, RenamesTo (joinPath config.backupDir name) (joinPath config.backupDir new) ev := by
  cases h with
  | invalid hr hv =>
    rw [List.forall_mem_append]
    exact ⟨hr.renamesTo,by simp [sent,RenamesTo]⟩
  | missing hr hv =>
    rw [List.forall_mem_append]
    exact ⟨hr.renamesTo,by simp [sent,RenamesTo]⟩
  | handshake ok hr hv hs hn =>
    obtain rfl := hr.carried hc hname
    rw [List.forall_mem_append,List.forall_mem_append]
    refine ⟨⟨hr.renamesTo,by simp [sent,RenamesTo]⟩,hn.renamesTo hnew fun sender d hd => ?_⟩
    exact hdata sender d (List.mem_append_right _ hd)
  | direct hr hv hs hn =>
    obtain rfl := hr.carried hc hname
    rw [List.forall_mem_append,List.forall_mem_append]
    refine ⟨⟨hr.renamesTo,by simp [RenamesTo]⟩,hn.renamesTo hnew fun sender d hd => ?_⟩
    exact hdata sender d (List.mem_append_right _ hd)

end Server

/-- Valid names survive unless the command has to cut them. -/
theorem survives_iff (h : isValidFilename name = true) : Survives name ↔ name.length ≤ 127 := by
  constructor
  · intro hs
    have hread := (cString_tail [] rfl).symm.trans (hs.command _ rfl [])
    have hlen := congrArg List.length ((wireName_of_valid h).symm.trans hread)
    rw [List.length_take] at hlen
    omega
  · intro hlen
    have hname : wireName name = name := by
      rw [wireName_of_valid h,List.take_of_length_le hlen]
    refine ⟨fun msg hc beyond => (cString_tail beyond hc).trans hname,
      fun beyond => (cString_setData name beyond).trans (wireNewName_of_valid h),?_,?_⟩
    · intro config cmd m m' tr e hrun hcmd hc hconfirm
      obtain ⟨hh,hlog⟩ := runs_processCommand hrun
      rw [List.forall_mem_append]
      refine ⟨?_,hlog.untouched⟩
      have hconfirm' := fun sender d hd => hconfirm sender d (List.mem_append_left _ hd)
      cases hh with
      | send _ hh => exact hh.acts hc hname hconfirm'
      | remove _ hh => exact hh.acts hc hname
      | unknown hno => rcases hcmd with he | he <;> simp [he] at hno
      | _ => simp_all
    · intro config cmd m m' tr e new hrun hcmd hnew hc hdata
      obtain ⟨hh,hlog⟩ := runs_processCommand hrun
      rw [List.forall_mem_append]
      refine ⟨?_,hlog.renamesTo⟩
      have hdata' := fun sender d hd => hdata sender d (List.mem_append_left _ hd)
      cases hh with
      | rename _ hh => exact hh.renamesTo hc hname (wireNewName_of_valid hnew) hdata'
      | unknown hno => simp [hcmd] at hno
      | _ => simp_all

/-- Two commands name one file when their names begin with the same 127 bytes. -/
theorem wireName_eq_iff {k : Bytes} (hn : isValidFilename name = true)
    (hk : isValidFilename k = true) : wireName name = wireName k ↔ name.take 127 = k.take 127 := by
  rw [wireName_of_valid hn,wireName_of_valid hk]

/-- A valid name survives the way to the server exactly when it has at most 127 bytes, and two
of them stay different exactly when they differ in these. -/
theorem names_survive (h : isValidFilename name = true) :
    (Survives name ↔ name.length ≤ 127) ∧
    ∀ k, isValidFilename k = true → ∀ beyond beyond' : Bytes,
      (cString ((CmdMsg.setFilename name .new).tail ++ beyond) ≠
        cString ((CmdMsg.setFilename k .new).tail ++ beyond') ↔ name.take 127 ≠ k.take 127) := by
  refine ⟨survives_iff h,fun k hk beyond beyond' => ?_⟩
  rw [cString_tail beyond rfl,cString_tail beyond' rfl]
  exact (wireName_eq_iff h hk).not

theorem names_survive_short : Survives (ascii ['a']) ∧ ∀ beyond beyond' : Bytes,
    cString ((CmdMsg.setFilename (ascii ['a']) .new).tail ++ beyond) ≠
      cString ((CmdMsg.setFilename (ascii ['b']) .new).tail ++ beyond') := by
  have ha : isValidFilename (ascii ['a']) = true := by decide
  have h := names_survive ha
  exact ⟨h.1.mpr (by decide),fun beyond beyond' =>
    (h.2 (ascii ['b']) (by decide) beyond beyond').mpr (by decide)⟩

/-- A name of 128 bytes loses its last, and two of them are one to the server. -/
theorem not_names_survive_always :
    (¬∀ name, isValidFilename name = true → Survives name) ∧
    ¬∀ name k, isValidFilename name = true → isValidFilename k = true → name ≠ k →
      ∀ beyond beyond' : Bytes, cString ((CmdMsg.setFilename name .new).tail ++ beyond) ≠
        cString ((CmdMsg.setFilename k .new).tail ++ beyond') := by
  have hb : isValidFilename (List.replicate 127 97 ++ [98]) = true := by decide +kernel
  have hc : isValidFilename (List.replicate 127 97 ++ [99]) = true := by decide +kernel
  constructor
  · intro hall
    have hlen := (survives_iff hb).mp (hall _ hb)
    simp at hlen
  · intro hall
    refine hall _ _ hb hc (by simp) [] [] ?_
    rw [cString_tail [] rfl,cString_tail [] rfl,wireName_eq_iff hb hc]
    simp

end WireNames

end NetworkLab.Backup
