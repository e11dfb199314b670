import NetworkLab.Backup.Transfer
import NetworkLab.Backup.Replies
set_option autoImplicit false

/-! What RENAME leaves in the files. -/

namespace NetworkLab.Backup.Server
open Interaction

variable {F : Type} [DecidableEq F] {resolve : Bytes → F} {files : Files F}
variable {config : ServerConfig} {cmd : CmdMsg} {m m' : Members} {tr : Trace} {e : ErrorCode}

/-- The end of a rename: the new name is free, or its overwriting is confirmed. -/
structure Reached (config : ServerConfig) (tr : Trace) (old new : Bytes) (deletion : Option Bool)
    (done ok : Bool) : Prop where
  ends : ∃ pre m, Quiet pre ∧ NoAck pre ∧ accepted pre = [old,new] ∧ tr = pre ++
    (deletion.toList.map fun deleted => ⟨.deleteFile (joinPath config.backupDir new),deleted⟩) ++
      renamed (joinPath config.backupDir old) (joinPath config.backupDir new) m done ok

/-- The handler gives up before it deletes or renames a file. -/
structure GivenUp (tr : Trace) : Prop where
  quiet : Quiet tr
  noAck : NoAck tr

theorem GivenUp.append {pre : Trace} (hpre : GivenUp pre) (h : GivenUp tr) : GivenUp (pre ++ tr) :=
  ⟨quiet_append.mpr ⟨hpre.quiet,h.quiet⟩,noAck_append.mpr ⟨hpre.noAck,h.noAck⟩⟩

theorem NewName.cases_reached {old : Bytes} {pre : Trace} (hpre : GivenUp pre)
    (hacc : accepted pre = [old]) (h : NewName config (joinPath config.backupDir old) m tr e m') :
    GivenUp (pre ++ tr) ∨
      ∃ new deletion done ok, Reached config (pre ++ tr) old new deletion done ok := by
  cases h with
  | noName hr =>
    refine Or.inl (hpre.append ⟨?_,?_⟩)
    all_goals cases hr <;> simp [got,alters,acks]
  | invalid hd hname hv =>
    cases hname
    refine Or.inl (hpre.append ⟨?_,?_⟩)
    · simp [sent,got,alters]
    · simp [sent,got,acks,ErrorCode.value]
  | noConfirm sender asked hd hname hv hr =>
    cases hname
    refine Or.inl (hpre.append ⟨?_,?_⟩)
    all_goals cases hr <;> simp [sent,got,alters,acks]
  | declined sender sender' asked ok hd hname hv hc hno =>
    cases hname
    refine Or.inl (hpre.append ⟨?_,?_⟩)
    · simp [sent,got,alters]
    · simp [sent,got,acks]
  | @fresh d name trn sender done ok hd hname hv =>
    refine Or.inr ⟨name,none,done,ok,pre ++ ([got 3000 sender d] ++ trn ++
      [⟨.accepted name,()⟩,⟨.fileExists (joinPath config.backupDir name),false⟩]),m.serving sender,
      ?_,?_,?_,by simp⟩
    · cases hname
      simp [got,alters,hpre.quiet]
    · cases hname
      simp [got,acks,hpre.noAck]
    · cases hname
      rw [accepted_append,hacc]
      rfl
  | @confirmed d name c trn sender sender' asked deleted done ok hd hname hv hc hyes =>
    refine Or.inr ⟨name,some deleted,done,ok,pre ++ ([got 3000 sender d] ++ trn ++
      [⟨.accepted name,()⟩,⟨.fileExists (joinPath config.backupDir name),true⟩,
        sent (m.serving sender) (reply .FILE_EXISTS 0).encode asked,got 137 sender' c]),
      m.serving sender',?_,?_,?_,by simp⟩
    · cases hname
      simp [sent,got,alters,hpre.quiet]
    · cases hname
      simp [sent,got,acks,hpre.noAck]
    · cases hname
      rw [accepted_append,hacc]
      rfl

theorem Rename.cases_reached (h : Rename config cmd m tr e m') :
    GivenUp tr ∨ ∃ old new deletion done ok, Reached config tr old new deletion done ok := by
  cases h with
  | invalid hname hv =>
    cases hname
    refine Or.inl ⟨by simp [sent,alters],?_⟩
    simp [sent,acks,ErrorCode.value]
  | missing hname hv =>
    cases hname
    exact Or.inl ⟨by simp [sent,alters],by simp [sent,acks]⟩
  | @handshake trn trr name _ _ ok hname hv hs hnew =>
    refine (hnew.cases_reached ⟨?_,?_⟩ ?_).imp id fun hr => ⟨name,hr⟩
    · simp [sent,alters,hname.quiet]
    · cases hname
      simp [sent,acks]
    · cases hname
      rfl
  | @direct trn trr name _ _ hname hv hs hnew =>
    refine (hnew.cases_reached ⟨?_,?_⟩ ?_).imp id fun hr => ⟨name,hr⟩
    · simp [alters,hname.quiet]
    · cases hname
      simp [acks]
    · cases hname
      rfl

/-- The files after the deletion of the new name, if it was deleted. -/
def cleared (files : Files F) (dst : F) (deletion : Option Bool) : Files F :=
  if deletion = some true then files.delete dst else files

section Reached
variable {old new : Bytes} {deletion : Option Bool} {done ok : Bool}
variable (h : Reached config tr old new deletion done ok)
include h

theorem Reached.accepted : accepted tr = [old,new] := by
  obtain ⟨pre,m,-,-,hacc,rfl⟩ := h.ends
  rw [accepted_append,accepted_append,hacc]
  cases deletion <;> rfl

theorem Reached.lastReply :
    lastReply tr = some (reply .ACK (if done then 0 else 1)).encode := by
  obtain ⟨pre,m,-,-,-,rfl⟩ := h.ends
  rw [lastReply_append]
  rfl

theorem Reached.renames {oldPath newPath : Bytes} {done' : Bool}
    (hmem : (⟨.renameFile oldPath newPath,done'⟩ : Event Res) ∈ tr) :
    oldPath = joinPath config.backupDir old ∧ newPath = joinPath config.backupDir new ∧
      done' = done := by
  obtain ⟨pre,m,hq,-,-,rfl⟩ := h.ends
  simp only [List.mem_append,List.mem_map,Option.mem_toList,renamed,List.mem_cons,
    List.not_mem_nil,or_false] at hmem
  rcases hmem with (hmem | ⟨deleted,hd,he⟩) | he | he
  · cases hq _ hmem
  · cases he
  · cases he
    exact ⟨rfl,rfl,rfl⟩
  · cases he

/-- The new name was deleted, and the rename failed. -/
theorem Reached.lost_iff :
    (∃ oldPath newPath, (⟨.deleteFile newPath,true⟩ : Event Res) ∈ tr ∧
      (⟨.renameFile oldPath newPath,false⟩ : Event Res) ∈ tr) ↔
    deletion = some true ∧ done = false := by
  obtain ⟨pre,m,hq,-,-,rfl⟩ := h.ends
  constructor
  · rintro ⟨oldPath,newPath,hdel,hren⟩
    refine ⟨?_,(h.renames hren).2.2.symm⟩
    simp only [List.mem_append,List.mem_map,Option.mem_toList,renamed,List.mem_cons,
      List.not_mem_nil,or_false] at hdel
    rcases hdel with (hmem | ⟨deleted,hd,he⟩) | he | he
    · cases hq _ hmem
    · cases he
      exact hd
    · cases he
    · cases he
  · rintro ⟨rfl,rfl⟩
    exact ⟨joinPath config.backupDir old,joinPath config.backupDir new,by simp,
      by simp [renamed]⟩

theorem Reached.after : filesAfter resolve files tr =
    if done then (cleared files (resolve (joinPath config.backupDir new)) deletion).move
      (resolve (joinPath config.backupDir old)) (resolve (joinPath config.backupDir new))
    else cleared files (resolve (joinPath config.backupDir new)) deletion := by
  obtain ⟨pre,m,hq,-,-,rfl⟩ := h.ends
  rw [filesAfter_append,filesAfter_append,hq.filesAfter]
  cases deletion with
  | none => cases done <;> rfl
  | some deleted => cases deleted <;> cases done <;> rfl

/-- A deletion that succeeds had a file to delete. -/
theorem Reached.deleted_some (hfiles : Consistent resolve files tr)
    (hdel : deletion = some true) :
    (files (resolve (joinPath config.backupDir new))).isSome := by
  obtain ⟨pre,m,hq,-,-,rfl⟩ := h.ends
  subst hdel
  simp only [consistent_append,hq.filesAfter] at hfiles
  exact hfiles.1.2.1

/-- A rename that succeeds had a file to rename. -/
theorem Reached.moved_some (hfiles : Consistent resolve files tr) (hdone : done = true) :
    (cleared files (resolve (joinPath config.backupDir new)) deletion
      (resolve (joinPath config.backupDir old))).isSome := by
  obtain ⟨pre,m,hq,-,-,rfl⟩ := h.ends
  subst hdone
  rw [List.append_assoc,consistent_append,hq.filesAfter,consistent_append] at hfiles
  cases deletion with
  | none => exact hfiles.2.2.1
  | some deleted => cases deleted <;> exact hfiles.2.2.1

end Reached

/-! Atomic renaming. -/

/-- The content of `src` is now in `dst`, and nothing else has changed. -/
structure Moved (files files' : Files F) (src dst : F) : Prop where
  content : ∃ bytes, files src = some bytes ∧ files' dst = some bytes
  gone : src ≠ dst → files' src = none
  others : ∀ f, f ≠ src → f ≠ dst → files' f = files f

structure RenameAtomic (resolve : Bytes → F) (files : Files F) (config : ServerConfig)
    (tr : Trace) : Prop where
  failed : ¬EndsWithAck tr → filesAfter resolve files tr = files
  done : EndsWithAck tr → ∃ old new, accepted tr = [old,new] ∧
    Moved files (filesAfter resolve files tr) (resolve (joinPath config.backupDir old))
      (resolve (joinPath config.backupDir new))

theorem GivenUp.atomic (h : GivenUp tr) : RenameAtomic resolve files config tr :=
  ⟨fun _ => h.quiet.filesAfter,fun hc => absurd hc h.noAck.not_endsWithAck⟩

theorem moved_cleared {src dst : F} {deletion : Option Bool}
    (hsome : (cleared files dst deletion src).isSome) :
    Moved files ((cleared files dst deletion).move src dst) src dst := by
  have hsrc : cleared files dst deletion src = files src := by
    unfold cleared at hsome ⊢
    split
    · rename_i hdel
      rw [if_pos hdel] at hsome
      refine Store.delete_of_ne _ fun he => ?_
      rw [he,Store.delete_self] at hsome
      cases hsome
    · rfl
  obtain ⟨bytes,hbytes⟩ := Option.isSome_iff_exists.mp hsome
  refine ⟨⟨bytes,hsrc ▸ hbytes,?_⟩,fun hne => Store.move_source _ hne,fun f hf hf' => ?_⟩
  · rw [Store.move_target,hbytes]
  · rw [Store.move_of_ne _ hf hf',cleared]
    split
    · exact Store.delete_of_ne _ hf'
    · rfl

theorem Reached.atomic_iff {old new : Bytes} {deletion : Option Bool} {done ok : Bool}
    (h : Reached config tr old new deletion done ok) (hfiles : Consistent resolve files tr) :
    RenameAtomic resolve files config tr ↔ ¬(deletion = some true ∧ done = false) := by
  have hends : EndsWithAck tr ↔ done = true := by
    unfold EndsWithAck
    rw [h.lastReply]
    cases done <;> simp
  have hafter : filesAfter resolve files tr = _ := h.after
  cases done with
  | true =>
    simp only [Bool.true_eq_false,and_false,not_false_eq_true,iff_true]
    rw [if_pos rfl] at hafter
    refine ⟨fun hno => absurd (hends.mpr rfl) hno,fun _ => ⟨old,new,h.accepted,?_⟩⟩
    rw [hafter]
    exact moved_cleared (h.moved_some hfiles rfl)
  | false =>
    simp only [and_true]
    have hno : ¬EndsWithAck tr := fun hc => by cases hends.mp hc
    rw [if_neg (by simp)] at hafter
    constructor
    · intro ha hdel
      have hsome := h.deleted_some hfiles hdel
      rw [← ha.failed hno,hafter,cleared,if_pos hdel,Store.delete_self] at hsome
      cases hsome
    · intro hdel
      refine ⟨fun _ => ?_,fun hc => absurd hc hno⟩
      rw [hafter,cleared,if_neg hdel]

/-- When an acknowledgement without an error is the last message, the file has moved. -/
theorem Reached.moved_of_ack {old new : Bytes} {deletion : Option Bool} {done ok : Bool}
    (h : Reached config tr old new deletion done ok) (hfiles : Consistent resolve files tr)
    (hack : ClosingAck tr) :
    Moved files (filesAfter resolve files tr) (resolve (joinPath config.backupDir old))
      (resolve (joinPath config.backupDir new)) := by
  have hafter : filesAfter resolve files tr = _ := h.after
  cases done with
  | true =>
    rw [hafter,if_pos rfl]
    exact moved_cleared (h.moved_some hfiles rfl)
  | false =>
    obtain ⟨pre,m,-,hno,-,rfl⟩ := h.ends
    refine absurd hack (NoAck.not_closingAck ?_)
    cases deletion <;> simp [hno,renamed,sent,acks]

/-- A rename is atomic unless the new name is deleted and the rename then fails. -/
theorem handleRename_atomic (h : Runs (handleRename config cmd) m tr e m')
    (hfiles : Consistent resolve files tr) :
    RenameAtomic resolve files config tr ↔
      ¬∃ oldPath newPath, (⟨.deleteFile newPath,true⟩ : Event Res) ∈ tr ∧
        (⟨.renameFile oldPath newPath,false⟩ : Event Res) ∈ tr := by
  have hcases := (runs_handleRename h).cases_reached
  rcases hcases with hg | ⟨old,new,deletion,done,ok,hr⟩
  · refine iff_of_true hg.atomic ?_
    rintro ⟨oldPath,newPath,hdel,-⟩
    cases hg.quiet _ hdel
  · rw [hr.lost_iff]
    exact hr.atomic_iff hfiles

/-- `a` is renamed to `b`, which exists; `b` is deleted, and then the rename fails. -/
def lostTrace : Trace :=
  let m := (init sampleConfig).serving sampleAddr
  let cmd := sampleCmd .RENAME ['a'] 0
  let path name := joinPath sampleConfig.backupDir (ascii name)
  [⟨.cstring 128 cmd.tail,[]⟩,⟨.accepted (ascii ['a']),()⟩,⟨.fileExists (path ['a']),true⟩,
    sent m (reply .READY_FOR_NEW_NAME 0).encode true,got 3000 sampleAddr (ascii ['b']),
    ⟨.cstring 3000 (DataMsg.received (ascii ['b'])).toList,[]⟩,⟨.accepted (ascii ['b']),()⟩,
    ⟨.fileExists (path ['b']),true⟩,sent m (reply .FILE_EXISTS 0).encode true,
    got 137 sampleAddr (reply .OVERWRITE 0).encode,⟨.deleteFile (path ['b']),true⟩,
    ⟨.renameFile (path ['a']) (path ['b']),false⟩,sent m (reply .ACK 1).encode true]

theorem lost_run : Runs (handleRename sampleConfig (sampleCmd .RENAME ['a'] 0))
    ((init sampleConfig).serving sampleAddr) lostTrace .SUCCESS
    ((init sampleConfig).serving sampleAddr) := by
  have hold : cString ((sampleCmd .RENAME ['a'] 0).tail ++ []) = ascii ['a'] := by
    decide +kernel
  have hnew : cString ((DataMsg.received (ascii ['b'])).toList ++ []) = ascii ['b'] :=
    DataMsg.cString_received [] (by decide) (by decide)
  unfold handleRename
  refine runs_readString_bind.mpr ⟨_,_,_,.read [],rfl,?_⟩
  rw [hold]
  refine runs_validate_bind.mpr (Or.inr ⟨by decide +kernel,_,rfl,?_⟩)
  refine runs_ask_bind.mpr ⟨true,_,rfl,?_⟩
  refine runs_sendto_bind.mpr ⟨true,_,rfl,?_⟩
  refine runs_recvfrom_bind.mpr (Or.inr ⟨sampleAddr,ascii ['b'],_,rfl,?_⟩)
  refine runs_readString_bind.mpr ⟨_,_,_,.read [],rfl,?_⟩
  rw [hnew]
  refine runs_validate_bind.mpr (Or.inr ⟨by decide +kernel,_,rfl,?_⟩)
  refine runs_ask_bind.mpr ⟨true,_,rfl,?_⟩
  refine runs_sendto_bind.mpr ⟨true,_,rfl,?_⟩
  refine runs_recvfrom_bind.mpr
    (Or.inr ⟨sampleAddr,(reply .OVERWRITE 0).encode,_,rfl,?_⟩)
  have hconfirm : Confirms (CmdMsg.received (reply .OVERWRITE 0).encode) := by
    rw [CmdMsg.received_encode]
    exact ⟨getCommand_reply,rfl⟩
  simp only [hconfirm.1,hconfirm.2,ne_eq,not_true_eq_false,or_self,if_false]
  refine runs_ask_bind.mpr ⟨true,_,rfl,?_⟩
  refine runs_ask_bind.mpr ⟨false,_,rfl,?_⟩
  exact runs_sendto.mpr ⟨true,rfl,rfl,rfl⟩

/-- Two files, `a` and `b`. -/
def twoFiles : Files Bytes := fun path =>
  if path = joinPath sampleConfig.backupDir (ascii ['a']) then some [1]
  else if path = joinPath sampleConfig.backupDir (ascii ['b']) then some [2]
  else none

theorem lostTrace_consistent : Consistent id twoFiles lostTrace := by
  have ha : (twoFiles (joinPath sampleConfig.backupDir (ascii ['a']))).isSome := by
    decide +kernel
  have hb : (twoFiles (joinPath sampleConfig.backupDir (ascii ['b']))).isSome := by
    decide +kernel
  exact ⟨trivial,trivial,ha.symm,trivial,trivial,trivial,trivial,hb.symm,trivial,trivial,hb,
    trivial,trivial,trivial⟩

/-- The file `b` is gone, although the rename has failed. -/
theorem not_handleRename_atomic_always :
    ¬∀ (config : ServerConfig) (cmd : CmdMsg) (m m' : Members) (tr : Trace) (e : ErrorCode)
      (files : Files Bytes), Runs (handleRename config cmd) m tr e m' →
      Consistent id files tr → RenameAtomic id files config tr := by
  intro hall
  have ha := hall _ _ _ _ _ _ _ lost_run lostTrace_consistent
  have hno : ¬EndsWithAck lostTrace := by
    rintro ⟨_,⟨⟩,hack⟩
    simp at hack
  have hb := congrFun (ha.failed hno) (joinPath sampleConfig.backupDir (ascii ['b']))
  have hafter : filesAfter id twoFiles lostTrace =
      twoFiles.delete (joinPath sampleConfig.backupDir (ascii ['b'])) := rfl
  rw [hafter,Store.delete_self] at hb
  revert hb
  decide +kernel

theorem handleRename_atomic_lostTrace :
    RenameAtomic id twoFiles sampleConfig lostTrace ↔
      ¬∃ oldPath newPath, (⟨.deleteFile newPath,true⟩ : Event Res) ∈ lostTrace ∧
        (⟨.renameFile oldPath newPath,false⟩ : Event Res) ∈ lostTrace :=
  handleRename_atomic lost_run lostTrace_consistent

end NetworkLab.Backup.Server
