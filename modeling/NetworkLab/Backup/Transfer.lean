import NetworkLab.Backup.Files
set_option autoImplicit false

/-! What the transfer of a file leaves in the files. -/

namespace NetworkLab.Backup.Server
open Interaction

variable {config : ServerConfig} {cmd : CmdMsg} {m m' : Members} {tr : Trace} {e : ErrorCode}
variable {filepath : Bytes} {filesize : Nat}

theorem Reads.quiet {field : Nat} {memory name : Bytes} (h : Reads field memory tr name) :
    Quiet tr := by
  cases h
  simp [alters]

theorem Chunks.appends {good : Bool} {total n : Nat}
    (h : Chunks filepath filesize good total tr n) : Appends filepath tr := by
  induction h with
  | full _ => exact appends_nil
  | closed _ => exact appends_cons.mpr ⟨Or.inl rfl,appends_nil⟩
  | stored chunk stored _ _ ih =>
    exact appends_cons.mpr ⟨Or.inl rfl,appends_cons.mpr ⟨Or.inr ⟨_,stored,rfl⟩,ih⟩⟩
  | dropped chunk _ _ ih => exact appends_cons.mpr ⟨Or.inl rfl,ih⟩

/-- After a short write nothing more gets into the file. -/
theorem Chunks.dropped_all {good : Bool} {total n : Nat}
    (h : Chunks filepath filesize good total tr n) (hgood : good = false) :
    storedBytes tr = [] := by
  induction h with
  | full _ => rfl
  | closed _ => rfl
  | stored => cases hgood
  | dropped chunk _ _ ih => exact ih hgood

theorem Chunks.stored_prefix {good : Bool} {total n : Nat}
    (h : Chunks filepath filesize good total tr n) : storedBytes tr <+: content tr := by
  induction h with
  | full _ => exact List.prefix_rfl
  | closed _ => exact List.prefix_rfl
  | @stored total n tr chunk stored hlt hc ih =>
    change chunk.val.take stored.val ++ storedBytes tr <+: chunk.val ++ content tr
    by_cases hall : stored.val = chunk.val.length
    · rw [hall,List.take_length]
      exact (List.prefix_append_right_inj _).mpr ih
    · rw [hc.dropped_all (decide_eq_false hall),List.append_nil]
      exact (List.take_prefix _ _).trans (List.prefix_append _ _)
  | @dropped total n tr chunk hlt hc ih =>
    rw [storedBytes_cons,hc.dropped_all rfl]
    exact List.nil_prefix

theorem SmallFile.outcome (h : SmallFile filepath filesize m tr e m') :
    Quiet tr ∨ Fills filepath tr := by
  cases h with
  | noData hr => exact Or.inl (by cases hr <;> simp [sent,got,alters])
  | noFile hd => exact Or.inl (by simp [sent,got,alters])
  | @stored ok ok' sender d stored hd =>
    refine Or.inr ⟨[sent m (reply .ACK 0).encode ok,got 3000 sender d],_,rfl,?_,?_⟩
    · simp [sent,got,alters]
    · refine appends_cons.mpr ⟨Or.inr ⟨_,stored,rfl⟩,Quiet.appends ?_⟩
      simp [counted,sent,alters]

theorem LargeFile.outcome (h : LargeFile filepath filesize m tr e m') :
    Quiet tr ∨ Fills filepath tr := by
  cases h with
  | @finished trc total ok hc =>
    refine Or.inr ⟨listening m ++ [sent m (portAck m).encode true,⟨.accept,true⟩],
      trc ++ (counted total ++ [sent m (portAck m).encode ok]),by simp,?_,?_⟩
    · simp [listening,sent,alters]
    · refine appends_append.mpr ⟨hc.appends,Quiet.appends ?_⟩
      simp [counted,sent,alters]
  | _ => exact Or.inl (by simp [listening,sent,alters])

theorem AnyFile.outcome (h : AnyFile filepath filesize m tr e m') :
    Quiet tr ∨ Fills filepath tr := by
  rcases h with ⟨-,h⟩ | ⟨-,h⟩
  · exact h.outcome
  · exact h.outcome

theorem received_prefix (d : Bytes) :
    (DataMsg.received d).toList <+: d ++ List.replicate dataBufLen 0 := by
  have hnew : DataMsg.new.toList = List.replicate 3000 0 := by simp [DataMsg.new]
  rw [DataMsg.toList_received,overlay,hnew,List.length_replicate,List.drop_replicate,dataBufLen]
  rcases Nat.le_total d.length 3000 with hle | hle
  · rw [List.take_of_length_le hle]
    refine (List.prefix_append_right_inj _).mpr ?_
    exact (List.prefix_replicate_iff).mpr ⟨by simp,by simp⟩
  · rw [Nat.sub_eq_zero_of_le hle,List.replicate_zero,List.append_nil]
    exact (List.take_prefix _ _).trans (List.prefix_append _ _)

/-- What is stored begins like what was sent; the message of a short datagram goes on
with zeros. -/
theorem SmallFile.stored_prefix (h : SmallFile filepath filesize m tr e m') :
    storedBytes tr <+: content tr ++ List.replicate dataBufLen 0 := by
  cases h with
  | @stored ok ok' sender d stored hd =>
    have hs : storedBytes ([sent m (reply .ACK 0).encode ok,got 3000 sender d,
        ⟨.ofstream filepath,true⟩,⟨.write filepath ((DataMsg.received d).toList.take filesize),
          stored⟩] ++ counted filesize ++ [sent (m.serving sender) (reply .ACK 0).encode ok']) =
        ((DataMsg.received d).toList.take filesize).take stored.val := by
      simp [storedBytes,storedBy,sent,got,counted]
    have hc : content ([sent m (reply .ACK 0).encode ok,got 3000 sender d,
        ⟨.ofstream filepath,true⟩,⟨.write filepath ((DataMsg.received d).toList.take filesize),
          stored⟩] ++ counted filesize ++ [sent (m.serving sender) (reply .ACK 0).encode ok']) =
        d := by
      simp [content,contentOf,sent,got,counted]
    rw [hs,hc]
    exact ((List.take_prefix _ _).trans (List.take_prefix _ _)).trans <| received_prefix d
  | noData hr => cases hr <;> exact List.nil_prefix
  | noFile hd => exact List.nil_prefix

theorem LargeFile.stored_prefix (h : LargeFile filepath filesize m tr e m') :
    storedBytes tr <+: content tr := by
  cases h with
  | @finished trc total ok hc =>
    have hs : ∀ trp trq : Trace, storedBytes trp = [] → storedBytes trq = [] →
        content trp = [] → storedBytes (trp ++ trc ++ trq) <+: content (trp ++ trc ++ trq) := by
      intro trp trq hp hq hcp
      simp only [storedBytes_append,content_append,hp,hq,hcp,List.nil_append,List.append_nil]
      exact hc.stored_prefix.trans (List.prefix_append _ _)
    have hrun := hs (listening m ++ [sent m (portAck m).encode true,⟨.accept,true⟩,
      ⟨.ofstream filepath,true⟩]) (counted total ++ [sent m (portAck m).encode ok]) rfl rfl rfl
    simp only [List.append_assoc] at hrun ⊢
    exact hrun
  | _ => exact List.nil_prefix

theorem AnyFile.stored_prefix (h : AnyFile filepath filesize m tr e m') :
    storedBytes tr <+: content tr ++ List.replicate dataBufLen 0 := by
  rcases h with ⟨-,h⟩ | ⟨-,h⟩
  · exact h.stored_prefix
  · exact h.stored_prefix.trans (List.prefix_append _ _)

theorem Reads.content {field : Nat} {memory name : Bytes} (h : Reads field memory tr name) :
    content tr = [] := by
  cases h
  rfl

/-- A SEND comes to `receiveFile` or not; the calls before and behind it are quiet and take
no content. -/
inductive Transfer (m' : Members) (e : ErrorCode) (tr : Trace) : Prop where
  | none : Quiet tr → Transfer m' e tr
  | file {pre trf post : Trace} {m : Members} {filepath : Bytes} {filesize : Nat} :
      Quiet pre → content pre = [] → AnyFile filepath filesize m trf e m' → Quiet post →
      content post = [] → tr = pre ++ trf ++ post → Transfer m' e tr

theorem SendConfirm.transfer (h : SendConfirm config cmd m tr e m') : Transfer m' e tr := by
  cases h with
  | notSent => exact .none (by simp [sent,alters])
  | noConfirm hr => exact .none (by cases hr <;> simp [sent,got,alters])
  | declined => exact .none (by simp [sent,got,alters])
  | confirmed hd hconf hname hfile =>
    refine .file ?_ ?_ hfile quiet_nil rfl (List.append_nil _).symm
    · simp [sent,got,alters,hname.quiet]
    · rw [content_append,hname.content,List.append_nil]
      rfl

theorem Send.transfer (h : Send config cmd m tr e m') : Transfer m' e tr := by
  cases h with
  | invalid hname _ => exact .none (by simp [sent,alters,hname.quiet])
  | new hname _ hfile =>
    refine .file (by simp [alters,hname.quiet]) ?_ hfile quiet_nil rfl (List.append_nil _).symm
    rw [content_append,hname.content]
    rfl
  | @existing trn trc name _ _ hname _ hconf =>
    have hpre : Quiet (trn ++ [⟨.accepted name,()⟩,
        ⟨.fileExists (joinPath config.backupDir name),true⟩]) := by
      simp [alters,hname.quiet]
    cases hconf.transfer with
    | none hq => exact .none (quiet_append.mpr ⟨hpre,hq⟩)
    | file hq hc hfile hq' hc' he =>
      rw [he,← List.append_assoc,← List.append_assoc]
      refine .file (quiet_append.mpr ⟨hpre,hq⟩) ?_ hfile hq' hc' rfl
      rw [content_append,content_append,hname.content,hc]
      rfl

section Transfer
variable (h : Transfer m' e tr)
include h

theorem Transfer.outcome : Quiet tr ∨ ∃ path, Fills path tr := by
  cases h with
  | none hq => exact Or.inl hq
  | @file pre trf post _ path _ hq _ hfile hq' _ he =>
    subst he
    rcases hfile.outcome with hquiet | hfills
    · exact Or.inl (quiet_append.mpr ⟨quiet_append.mpr ⟨hq,hquiet⟩,hq'⟩)
    · exact Or.inr ⟨path,hfills.wrap hq hq'⟩

theorem Transfer.stored_prefix :
    storedBytes tr <+: content tr ++ List.replicate dataBufLen 0 := by
  cases h with
  | none hq =>
    rw [hq.storedBytes]
    exact List.nil_prefix
  | file hq hc hfile hq' hc' he =>
    subst he
    simp only [storedBytes_append,content_append,hq.storedBytes,hc,hq'.storedBytes,hc',
      List.nil_append,List.append_nil]
    exact hfile.stored_prefix

/-- The name of the command is printed behind it. -/
theorem Transfer.logged {field : Nat} {memory name : Bytes} {trn : Trace}
    (hname : Reads field memory trn name) : Transfer m' e (tr ++ trn) := by
  cases h with
  | none hq => exact .none (quiet_append.mpr ⟨hq,hname.quiet⟩)
  | file hq hc hfile hq' hc' he =>
    subst he
    refine .file hq hc hfile (quiet_append.mpr ⟨hq',hname.quiet⟩) ?_ (List.append_assoc _ _ _)
    rw [content_append,hc',hname.content]
    rfl

/-- The file has the first `n` bytes that were sent exactly when `n` bytes were stored. -/
theorem Transfer.stored_eq_iff {n : Nat} :
    storedBytes tr = (content tr).take n ∧ n ≤ (content tr).length ↔
      (storedBytes tr).length = n ∧ n ≤ (content tr).length := by
  constructor
  · rintro ⟨hs,hn⟩
    rw [hs,List.length_take,Nat.min_eq_left hn]
    exact ⟨rfl,hn⟩
  · rintro ⟨hs,hn⟩
    have hp := List.prefix_iff_eq_take.mp h.stored_prefix
    rw [hs,List.take_append_of_le_length hn] at hp
    exact ⟨hp,hn⟩

end Transfer

end NetworkLab.Backup.Server
