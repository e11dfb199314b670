import NetworkLab.Backup.Closing
import NetworkLab.Backup.HttpTraces
set_option autoImplicit false

/-! Whether a failed SEND or upload leaves a part of the new content behind. -/

namespace NetworkLab.Backup
open Interaction

/-- A SEND or an upload: its calls, the path of a name, and the content and size that the
client announces. -/
inductive Writing (config : Server.ServerConfig) (server : Http.HttpServer) :
    Trace → (Bytes → Bytes) → Bytes → Nat → Prop where
  | send {cmd : CmdMsg} {m m' : Server.Members} {tr : Trace} {e : ErrorCode} :
      cmd.getCommand = some .SEND → Runs (Server.handleCommand config cmd) m tr e m' →
      Writing config server tr (joinPath config.backupDir) (content tr)
        (Server.announcedSize cmd tr)
  | upload {file : Http.MultipartFormData} {tr : Trace} {resp : Http.Response} :
      Runs (Http.upload server (some file)) () tr resp () →
      Writing config server tr server.path file.content file.content.length
  | noFile {tr : Trace} {resp : Http.Response} : Runs (Http.upload server none) () tr resp () →
      Writing config server tr server.path [] 0

section Atomic
variable {F : Type} [DecidableEq F] (resolve : Bytes → F) (files : Files F) (tr : Trace)
variable (path : Bytes → Bytes) (new : Bytes) (n : Nat)

/-- The named file is as it was or has the complete new content, and no other has changed. -/
structure WriteAtomic : Prop where
  named : ∀ name ∈ Server.accepted tr,
    filesAfter resolve files tr (resolve (path name)) = files (resolve (path name)) ∨
    filesAfter resolve files tr (resolve (path name)) = some (new.take n) ∧ n ≤ new.length
  others : ∀ f, (∀ name ∈ Server.accepted tr, f ≠ resolve (path name)) →
    filesAfter resolve files tr f = files f

/-- Each file that was opened held before what it holds now, or it is the named file, the
writes put `n` bytes into it, and the client sent as many. -/
def WriteWhole : Prop :=
  ∀ p ∈ opened tr, files (resolve p) = some (storedBytes tr) ∨
    (∃ name ∈ Server.accepted tr, resolve p = resolve (path name)) ∧
      (storedBytes tr).length = n ∧ n ≤ new.length

end Atomic

section Atomic
variable {F : Type} [DecidableEq F] {resolve : Bytes → F} {files : Files F} {tr : Trace}
variable {path : Bytes → Bytes} {new : Bytes} {n : Nat}

theorem writeAtomic_iff (hout : Quiet tr ∨ ∃ p, Fills p tr)
    (hstored : (storedBytes tr).length = n → n ≤ new.length → storedBytes tr = new.take n) :
    WriteAtomic resolve files tr path new n ↔ WriteWhole resolve files tr path new n := by
  rcases hout with hu | ⟨p,hw⟩
  · refine iff_of_true ⟨fun name _ => Or.inl ?_,fun f _ => ?_⟩ fun p hp => ?_
    · rw [hu.filesAfter]
    · rw [hu.filesAfter]
    · rw [hu.opened] at hp
      cases hp
  · have hself : filesAfter resolve files tr (resolve p) = some (storedBytes tr) := by
      rw [hw.filesAfter,Function.update_self]
    have hother : ∀ f, f ≠ resolve p → filesAfter resolve files tr f = files f := by
      intro f hf
      rw [hw.filesAfter,Function.update_of_ne hf]
    have hwhole : WriteWhole resolve files tr path new n ↔ files (resolve p) = some (storedBytes tr) ∨
        (∃ name ∈ Server.accepted tr, resolve p = resolve (path name)) ∧
          (storedBytes tr).length = n ∧ n ≤ new.length := by
      rw [WriteWhole,hw.opened,List.forall_mem_singleton]
    rw [hwhole]
    constructor
    · intro ha
      by_cases hnamed : ∃ name ∈ Server.accepted tr, resolve p = resolve (path name)
      · obtain ⟨name,hname,he⟩ := hnamed
        rcases ha.named name hname with hsame | ⟨hnew,hlen⟩
        · rw [← he,hself] at hsame
          exact Or.inl hsame.symm
        · rw [← he,hself] at hnew
          refine Or.inr ⟨⟨name,hname,he⟩,?_,hlen⟩
          rw [Option.some.inj hnew,List.length_take,Nat.min_eq_left hlen]
      · have hsame := ha.others (resolve p) fun name hname he => hnamed ⟨name,hname,he⟩
        rw [hself] at hsame
        exact Or.inl hsame.symm
    · rintro (hsame | ⟨⟨name,hname,he⟩,hlen,henough⟩)
      · have hall : ∀ f, filesAfter resolve files tr f = files f := by
          intro f
          by_cases hf : f = resolve p
          · rw [hf,hself,hsame]
          · exact hother f hf
        exact ⟨fun name _ => Or.inl (hall _),fun f _ => hall f⟩
      · refine ⟨fun name' _ => ?_,fun f hf => ?_⟩
        · by_cases hf : resolve (path name') = resolve p
          · rw [hf,hself,hstored hlen henough]
            exact Or.inr ⟨rfl,henough⟩
          · exact Or.inl (hother _ hf)
        · exact hother f (he ▸ hf name hname)

end Atomic

section Claim
variable {F : Type} [DecidableEq F] {resolve : Bytes → F} {files : Files F} {tr : Trace}
variable {file : Http.MultipartFormData} {resp : Http.Response} {server : Http.HttpServer}

theorem Http.Upload.outcome (h : Http.Upload server (some file) tr resp) :
    Quiet tr ∨ ∃ p, Fills p tr := by
  cases h with
  | invalid => exact Or.inl (by simp [requested,errorMark,alters])
  | tooLarge => exact Or.inl (by simp [requested,errorMark,alters])
  | notOpened => exact Or.inl (by simp [requested,uploadFailed,errorMark,alters])
  | stored made stored =>
    refine Or.inr ⟨_,[requested "/api/upload" "POST",⟨.accepted file.filename,()⟩,
      ⟨.createDirectory server.config.backupDir,made⟩],_,rfl,?_,?_⟩
    · simp [requested,alters]
    · refine appends_cons.mpr ⟨Or.inr ⟨_,stored,rfl⟩,Quiet.appends ?_⟩
      simp [uploadCounted,alters]
  | notDumped made stored =>
    refine Or.inr ⟨_,[requested "/api/upload" "POST",⟨.accepted file.filename,()⟩,
      ⟨.createDirectory server.config.backupDir,made⟩],_,rfl,?_,?_⟩
    · simp [requested,alters]
    · refine appends_cons.mpr ⟨Or.inr ⟨_,stored,rfl⟩,Quiet.appends ?_⟩
      simp [uploadCounted,uploadFailed,errorMark,alters]

theorem Http.Upload.stored_prefix (h : Http.Upload server (some file) tr resp) :
    storedBytes tr <+: file.content := by
  cases h with
  | stored made stored =>
    simp [storedBytes,storedBy,requested,uploadCounted,List.take_prefix]
  | notDumped made stored =>
    simp [storedBytes,storedBy,requested,uploadCounted,uploadFailed,errorMark,List.take_prefix]
  | _ => exact List.nil_prefix

/-- A SEND or an upload is atomic exactly when each file it opens keeps what it held, or
is the named one and takes the whole new content. -/
theorem write_atomic {config : Server.ServerConfig} {path : Bytes → Bytes} {new : Bytes} {n : Nat}
    (h : Writing config server tr path new n) :
    WriteAtomic resolve files tr path new n ↔ WriteWhole resolve files tr path new n := by
  cases h with
  | @send cmd m m' _ e hcmd hrun =>
    cases Server.runs_handleCommand hrun with
    | send _ hsend =>
      have htransfer := hsend.transfer
      refine writeAtomic_iff htransfer.outcome fun hlen henough => ?_
      exact (htransfer.stored_eq_iff.mpr ⟨hlen,henough⟩).1
    | _ => simp_all
  | upload hrun =>
    have hupload := Http.runs_upload hrun
    refine writeAtomic_iff hupload.outcome fun hlen _ => ?_
    have hp := List.prefix_iff_eq_take.mp hupload.stored_prefix
    rwa [hlen] at hp
  | noFile hrun =>
    cases Http.runs_upload hrun with
    | noFile =>
      refine writeAtomic_iff (Or.inl (by simp [Http.requested,alters])) fun hlen _ => ?_
      exact List.length_eq_zero_iff.mp hlen

end Claim

def sampleServer : Http.HttpServer := Server.httpServer Server.sampleConfig fun _ => none

theorem cutTrace_writing : Writing Server.sampleConfig sampleServer Server.cutTrace
    (joinPath Server.sampleConfig.backupDir) (content Server.cutTrace)
    (Server.announcedSize (Server.sampleCmd .SEND ['a'] 3001) Server.cutTrace) := by
  obtain ⟨e,m,h⟩ := Server.cut_run
  exact .send (by decide +kernel) (exec_of_replay h)

/-- A file that was not there before stays behind empty. -/
theorem not_write_atomic_always :
    ¬∀ (config : Server.ServerConfig) (server : Http.HttpServer) (tr : Trace)
      (path : Bytes → Bytes) (new : Bytes) (n : Nat) (files : Files Bytes),
      Writing config server tr path new n → WriteAtomic id files tr path new n := by
  intro hall
  have ha := hall _ _ _ _ _ _ (fun _ => none) cutTrace_writing
  have hafter : filesAfter id (fun _ => none : Files Bytes) Server.cutTrace
      (joinPath Server.sampleConfig.backupDir (ascii ['a'])) = some [] := by
    decide +kernel
  rcases ha.named (ascii ['a']) (List.mem_singleton_self _) with hsame | ⟨-,hlen⟩
  · cases hafter.symm.trans hsame
  · revert hlen
    decide +kernel

theorem write_atomic_cutTrace :
    WriteAtomic id (fun _ => none : Files Bytes) Server.cutTrace
        (joinPath Server.sampleConfig.backupDir) (content Server.cutTrace)
        (Server.announcedSize (Server.sampleCmd .SEND ['a'] 3001) Server.cutTrace) ↔
      WriteWhole id (fun _ => none : Files Bytes) Server.cutTrace
        (joinPath Server.sampleConfig.backupDir) (content Server.cutTrace)
        (Server.announcedSize (Server.sampleCmd .SEND ['a'] 3001) Server.cutTrace) :=
  write_atomic cutTrace_writing

end NetworkLab.Backup
