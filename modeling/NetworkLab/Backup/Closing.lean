import NetworkLab.Backup.Rename
set_option autoImplicit false

/-! What an acknowledgement without an error is worth when it is the last message of a
SEND, REMOVE or RENAME. -/

namespace NetworkLab.Backup.Server
open Interaction

variable {F : Type} [DecidableEq F] {resolve : Bytes → F} {files : Files F}
variable {config : ServerConfig} {cmd : CmdMsg} {m m' : Members} {tr : Trace} {e : ErrorCode}

def confirmationOf : Event Res → Option CmdMsg
  | ⟨.recvfrom size,some (_,datagram)⟩ =>
    if size = 137 ∧ Confirms (CmdMsg.received datagram) then some (CmdMsg.received datagram)
    else none
  | _ => none

/-- The announced size; a confirmation announces it anew. -/
def announcedSize (cmd : CmdMsg) (tr : Trace) : Nat :=
  match tr.findSome? confirmationOf with
  | some confirmMsg => confirmMsg.size.toNat
  | none => cmd.size.toNat

/-- The file has exactly the first `n` bytes that the client sent. -/
structure Complete (files : Files F) (f : F) (tr : Trace) (n : Nat) : Prop where
  holds : files f = some ((content tr).take n)
  enough : n ≤ (content tr).length

/-- The command took full effect. -/
def TookEffect (resolve : Bytes → F) (files : Files F) (config : ServerConfig) (cmd : CmdMsg)
    (tr : Trace) : Prop :=
  let file := fun name => resolve (joinPath config.backupDir name)
  match cmd.getCommand with
  | some .SEND => ∃ name, accepted tr = [name] ∧
      Complete (filesAfter resolve files tr) (file name) tr (announcedSize cmd tr)
  | some .REMOVE => ∃ name, accepted tr = [name] ∧ filesAfter resolve files tr (file name) = none
  | some .RENAME => ∃ old new, accepted tr = [old,new] ∧
      (∃ bytes, files (file old) = some bytes ∧
        filesAfter resolve files tr (file new) = some bytes) ∧
      filesAfter resolve files tr (file old) = none
  | _ => True

/-- The writes put `n` bytes into the file, and the client sent as many. -/
structure Filled (resolve : Bytes → F) (f : F) (tr : Trace) (n : Nat) : Prop where
  opened : ∃ path ∈ opened tr, resolve path = f
  stored : (storedBytes tr).length = n
  enough : n ≤ (content tr).length

/-- Nothing was opened under the name, but the file was there with this content before. -/
structure Already (resolve : Bytes → F) (files : Files F) (f : F) (tr : Trace) (n : Nat) :
    Prop where
  closed : ∀ path ∈ opened tr, resolve path ≠ f
  complete : Complete files f tr n

theorem Transfer.complete_iff (h : Transfer m' e tr) {f : F} {n : Nat} :
    Complete (filesAfter resolve files tr) f tr n ↔
      Filled resolve f tr n ∨ Already resolve files f tr n := by
  rcases h.outcome with hu | ⟨path,hw⟩
  · have hno : ¬∃ path ∈ opened tr, resolve path = f := by
      rw [hu.opened]
      simp
    rw [hu.filesAfter]
    constructor
    · exact fun hc => Or.inr ⟨fun path hp he => hno ⟨path,hp,he⟩,hc⟩
    · rintro (hf | ha)
      · exact absurd hf.opened hno
      · exact ha.complete
  · have hopened : ∀ p ∈ opened tr, p = path := by
      rw [hw.opened]
      simp
    have hmem : path ∈ opened tr := by
      rw [hw.opened]
      simp
    by_cases hf : resolve path = f
    · have hafter : filesAfter resolve files tr f = some (storedBytes tr) := by
        rw [hw.filesAfter,← hf,Function.update_self]
      have hiff := h.stored_eq_iff (n := n)
      constructor
      · intro hc
        have hs := Option.some.inj (hafter ▸ hc.holds)
        obtain ⟨hlen,henough⟩ := hiff.mp ⟨hs,hc.enough⟩
        exact Or.inl ⟨⟨path,hmem,hf⟩,hlen,henough⟩
      · rintro (hfill | ha)
        · obtain ⟨hs,henough⟩ := hiff.mpr ⟨hfill.stored,hfill.enough⟩
          exact ⟨by rw [hafter,hs],henough⟩
        · exact absurd hf (ha.closed path hmem)
    · have hafter : filesAfter resolve files tr f = files f := by
        rw [hw.filesAfter,Function.update_of_ne (Ne.symm hf)]
      constructor
      · intro hc
        refine Or.inr ⟨fun p hp he => hf (hopened p hp ▸ he),?_⟩
        exact ⟨hafter ▸ hc.holds,hc.enough⟩
      · rintro (hfill | ha)
        · obtain ⟨p,hp,he⟩ := hfill.opened
          exact absurd (hopened p hp ▸ he) hf
        · exact ⟨hafter.trans ha.complete.holds,ha.complete.enough⟩

/-- The condition of a SEND and a RENAME; a REMOVE needs none. -/
def Fulfilled (resolve : Bytes → F) (files : Files F) (config : ServerConfig) (cmd : CmdMsg)
    (tr : Trace) : Prop :=
  let file := fun name => resolve (joinPath config.backupDir name)
  match cmd.getCommand with
  | some .SEND => ∃ name, accepted tr = [name] ∧
      (Filled resolve (file name) tr (announcedSize cmd tr) ∨
        Already resolve files (file name) tr (announcedSize cmd tr))
  | some .RENAME => ∃ old new, accepted tr = [old,new] ∧ file old ≠ file new
  | _ => True

theorem Remove.effect_of_ack (h : Remove config cmd m tr e m') (hack : ClosingAck tr) :
    ∃ name, accepted tr = [name] ∧
      filesAfter resolve files tr (resolve (joinPath config.backupDir name)) = none := by
  cases h with
  | invalid hname hv =>
    cases hname
    exact absurd hack (NoAck.not_closingAck (by simp [sent,acks,ErrorCode.value]))
  | missing hname hv =>
    cases hname
    exact absurd hack (NoAck.not_closingAck (by simp [sent,acks]))
  | @deleted trn name done ok hname hv =>
    cases hname
    cases done with
    | false => exact absurd hack (NoAck.not_closingAck (by simp [sent,acks]))
    | true => exact ⟨_,rfl,Store.delete_self _ _⟩

theorem Rename.effect_iff_of_ack (h : Rename config cmd m tr e m')
    (hfiles : Consistent resolve files tr) (hack : ClosingAck tr) :
    (∃ old new, accepted tr = [old,new] ∧
      (∃ bytes, files (resolve (joinPath config.backupDir old)) = some bytes ∧
        filesAfter resolve files tr (resolve (joinPath config.backupDir new)) = some bytes) ∧
      filesAfter resolve files tr (resolve (joinPath config.backupDir old)) = none) ↔
    ∃ old new, accepted tr = [old,new] ∧
      resolve (joinPath config.backupDir old) ≠ resolve (joinPath config.backupDir new) := by
  rcases h.cases_reached with hg | ⟨old,new,deletion,done,ok,hr⟩
  · exact absurd hack hg.noAck.not_closingAck
  · have hmoved := hr.moved_of_ack hfiles hack
    have heq : ∀ {old' new'}, accepted tr = [old',new'] → old' = old ∧ new' = new := by
      intro old' new' hacc
      rw [hr.accepted] at hacc
      obtain ⟨rfl,hnew⟩ := List.cons.inj hacc
      obtain ⟨rfl,-⟩ := List.cons.inj hnew
      exact ⟨rfl,rfl⟩
    constructor
    · rintro ⟨old',new',hacc,⟨bytes,-,hnew⟩,hgone⟩
      obtain ⟨rfl,rfl⟩ := heq hacc
      refine ⟨old',new',hacc,fun hsame => ?_⟩
      rw [hsame,hnew] at hgone
      cases hgone
    · rintro ⟨old',new',hacc,hne⟩
      obtain ⟨rfl,rfl⟩ := heq hacc
      exact ⟨old',new',hacc,hmoved.content,hmoved.gone hne⟩

/-- When the last message of a command is an acknowledgement without an error, a REMOVE
took full effect, a SEND when its writes put the announced bytes into the named file or
the file had them already, and a RENAME when its names name two files. -/
theorem closing_ack_truthful (h : Runs (handleCommand config cmd) m tr e m')
    (hfiles : Consistent resolve files tr) (hack : ClosingAck tr) :
    TookEffect resolve files config cmd tr ↔ Fulfilled resolve files config cmd tr := by
  unfold TookEffect Fulfilled
  cases runs_handleCommand h with
  | send hc hsend =>
    rw [hc]
    exact exists_congr fun name => and_congr_right fun _ => hsend.transfer.complete_iff
  | remove hc hremove =>
    rw [hc]
    exact iff_true_intro (hremove.effect_of_ack hack)
  | rename hc hrename =>
    rw [hc]
    exact hrename.effect_iff_of_ack hfiles hack
  | ls files data ok hc => rw [hc]
  | shutdown ok hc => rw [hc]
  | overwrite hc => rw [hc]
  | unknown hc =>
    split <;> simp_all

/-- A large file is announced, and the connection is closed at once. -/
def cutTrace : Trace :=
  let m := { (init sampleConfig).serving sampleAddr with state := .PROCESS_SEND }
  let cmd := sampleCmd .SEND ['a'] 3001
  let path := ascii ['b','/','a']
  [⟨.cstring 128 cmd.tail,[]⟩,⟨.accepted (ascii ['a']),()⟩,⟨.fileExists path,false⟩] ++
    listening m ++ [sent m (portAck m).encode true,⟨.accept,true⟩,⟨.ofstream path,true⟩,
      ⟨.recv 3000,none⟩] ++ counted 0 ++ [sent m (portAck m).encode true]

theorem cut_run : ∃ e m, replay (handleCommand sampleConfig (sampleCmd .SEND ['a'] 3001)
    ((init sampleConfig).serving sampleAddr)) cutTrace = some (e,m) :=
  replay_of_isSome (by decide +kernel)

theorem cutTrace_consistent : Consistent id (fun _ => none : Files Bytes) cutTrace := by
  simp [cutTrace,listening,counted,sent,Agrees,effect]

theorem cutTrace_ack : ClosingAck cutTrace := by
  refine ⟨(portAck { (init sampleConfig).serving sampleAddr with state := .PROCESS_SEND }).encode,
    rfl,?_⟩
  rw [ackOf_encode]
  exact ⟨Command.ofCode_code .ACK,rfl⟩

/-- The file stays empty, and the client is told that all went well. -/
theorem not_closing_ack_truthful_always :
    ¬∀ (config : ServerConfig) (cmd : CmdMsg) (m m' : Members) (tr : Trace) (e : ErrorCode)
      (files : Files Bytes), Runs (handleCommand config cmd) m tr e m' →
      Consistent id files tr → ClosingAck tr → TookEffect id files config cmd tr := by
  intro hall
  obtain ⟨e,m,h⟩ := cut_run
  have heffect := hall _ _ _ _ _ _ _ (exec_of_replay h) cutTrace_consistent cutTrace_ack
  have hcmd : (sampleCmd .SEND ['a'] 3001).getCommand = some .SEND := by decide +kernel
  unfold TookEffect at heffect
  rw [hcmd] at heffect
  obtain ⟨name,-,hcomplete⟩ := heffect
  have hsize : announcedSize (sampleCmd .SEND ['a'] 3001) cutTrace = 3001 := by decide +kernel
  have henough := hcomplete.enough
  rw [hsize] at henough
  revert henough
  decide +kernel

theorem closing_ack_truthful_cutTrace :
    TookEffect id (fun _ => none : Files Bytes) sampleConfig (sampleCmd .SEND ['a'] 3001)
        cutTrace ↔
      Fulfilled id (fun _ => none : Files Bytes) sampleConfig (sampleCmd .SEND ['a'] 3001)
        cutTrace := by
  obtain ⟨e,m,h⟩ := cut_run
  exact closing_ack_truthful (exec_of_replay h) cutTrace_consistent cutTrace_ack

end NetworkLab.Backup.Server
