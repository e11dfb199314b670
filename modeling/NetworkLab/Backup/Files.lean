import NetworkLab.Backup.Events
import NetworkLab.Lib.Store
set_option autoImplicit false

/-! The regular files under the calls of a trace. `resolve` tells which file a path
names; two paths may name one file. -/

namespace NetworkLab.Backup
open Interaction

abbrev Files (F : Type) := Store F UInt8

section Effects
variable {F : Type} [DecidableEq F] (resolve : Bytes → F) (files : Files F)

/-- What a call does to the files. -/
def effect : Event Res → Files F
  | ⟨.ofstream path,true⟩ => files.create (resolve path)
  | ⟨.write path data,stored⟩ => files.append (resolve path) (data.take stored.val)
  | ⟨.deleteFile path,true⟩ => files.delete (resolve path)
  | ⟨.renameFile oldPath newPath,true⟩ => files.move (resolve oldPath) (resolve newPath)
  | _ => files

/-- What the answer of a call tells about the files before it. -/
def Agrees : Event Res → Prop
  | ⟨.fileExists path,there⟩ => there = (files (resolve path)).isSome
  | ⟨.deleteFile path,true⟩ => (files (resolve path)).isSome
  | ⟨.renameFile oldPath _,true⟩ => (files (resolve oldPath)).isSome
  | _ => True

def filesAfter (tr : Trace) : Files F := tr.foldl (effect resolve) files

/-- All answers of the trace agree with the files at their time. -/
def Consistent : Files F → Trace → Prop
  | _, [] => True
  | files, ev :: tr => Agrees resolve files ev ∧ Consistent (effect resolve files ev) tr

@[simp] theorem filesAfter_nil : filesAfter resolve files [] = files := rfl

@[simp] theorem filesAfter_cons (ev : Event Res) (tr : Trace) :
    filesAfter resolve files (ev :: tr) = filesAfter resolve (effect resolve files ev) tr := rfl

@[simp] theorem filesAfter_append (tr tr' : Trace) :
    filesAfter resolve files (tr ++ tr') =
      filesAfter resolve (filesAfter resolve files tr) tr' := List.foldl_append

@[simp] theorem consistent_nil : Consistent resolve files [] := trivial

@[simp] theorem consistent_cons {ev : Event Res} {tr : Trace} :
    Consistent resolve files (ev :: tr) ↔
      Agrees resolve files ev ∧ Consistent resolve (effect resolve files ev) tr := Iff.rfl

@[simp] theorem consistent_append {tr tr' : Trace} :
    Consistent resolve files (tr ++ tr') ↔
      Consistent resolve files tr ∧ Consistent resolve (filesAfter resolve files tr) tr' := by
  induction tr generalizing files with
  | nil => simp
  | cons ev tr ih => simp [ih,and_assoc]

end Effects

/-- The calls that can change a file. -/
def alters : Event Res → Bool
  | ⟨.ofstream _,opened⟩ => opened
  | ⟨.write _ _,_⟩ => true
  | ⟨.deleteFile _,_⟩ => true
  | ⟨.renameFile _ _,_⟩ => true
  | _ => false

/-- None of the calls can change a file. -/
def Quiet (tr : Trace) : Prop := ∀ ev ∈ tr, alters ev = false

@[simp] theorem quiet_nil : Quiet [] := fun _ h => by cases h

@[simp] theorem quiet_cons {ev : Event Res} {tr : Trace} :
    Quiet (ev :: tr) ↔ alters ev = false ∧ Quiet tr := List.forall_mem_cons

@[simp] theorem quiet_append {tr tr' : Trace} : Quiet (tr ++ tr') ↔ Quiet tr ∧ Quiet tr' :=
  List.forall_mem_append

/-! What a trace says about a transfer. -/

def openedBy : Event Res → Option Bytes
  | ⟨.ofstream path,true⟩ => some path
  | _ => none

/-- The paths that are opened for writing. -/
def opened (tr : Trace) : List Bytes := tr.filterMap openedBy

def storedBy : Event Res → Bytes
  | ⟨.write _ data,stored⟩ => data.take stored.val
  | _ => []

/-- The bytes that get into files. -/
def storedBytes (tr : Trace) : Bytes := tr.flatMap storedBy

def contentOf : Event Res → Bytes
  | ⟨.recvfrom size,some (_,datagram)⟩ => if size = 3000 then datagram else []
  | ⟨.recv _,some chunk⟩ => chunk.val
  | _ => []

/-- The bytes that the client sends as the content of a file. -/
def content (tr : Trace) : Bytes := tr.flatMap contentOf

@[simp] theorem opened_append (tr tr' : Trace) : opened (tr ++ tr') = opened tr ++ opened tr' :=
  List.filterMap_append

@[simp] theorem storedBytes_cons (ev : Event Res) (tr : Trace) :
    storedBytes (ev :: tr) = storedBy ev ++ storedBytes tr := List.flatMap_cons

@[simp] theorem storedBytes_append (tr tr' : Trace) :
    storedBytes (tr ++ tr') = storedBytes tr ++ storedBytes tr' := List.flatMap_append

@[simp] theorem content_append (tr tr' : Trace) :
    content (tr ++ tr') = content tr ++ content tr' := List.flatMap_append

section Quiet
variable {F : Type} [DecidableEq F] {resolve : Bytes → F} {files : Files F}
variable {ev : Event Res} {tr : Trace}

theorem effect_of_not_alters (h : alters ev = false) : effect resolve files ev = files := by
  unfold alters at h
  unfold effect
  split <;> simp_all

theorem openedBy_of_not_alters (h : alters ev = false) : openedBy ev = none := by
  unfold alters at h
  unfold openedBy
  split <;> simp_all

theorem storedBy_of_not_alters (h : alters ev = false) : storedBy ev = [] := by
  unfold alters at h
  unfold storedBy
  split <;> simp_all

theorem Quiet.filesAfter (h : Quiet tr) : filesAfter resolve files tr = files := by
  induction tr with
  | nil => rfl
  | cons ev tr ih =>
    obtain ⟨hev,htr⟩ := quiet_cons.mp h
    rw [filesAfter_cons,effect_of_not_alters hev]
    exact ih htr

theorem Quiet.opened (h : Quiet tr) : opened tr = [] :=
  List.filterMap_eq_nil_iff.mpr fun ev hev => openedBy_of_not_alters (h ev hev)

theorem Quiet.storedBytes (h : Quiet tr) : storedBytes tr = [] :=
  List.flatMap_eq_nil_iff.mpr fun ev hev => storedBy_of_not_alters (h ev hev)

end Quiet

/-! Filling one file. -/

/-- No file changes but by writing behind `path`. -/
def Appends (path : Bytes) (tr : Trace) : Prop :=
  ∀ ev ∈ tr, alters ev = false ∨ ∃ data stored, ev = ⟨.write path data,stored⟩

/-- One file is opened, and all writes go there. -/
structure Fills (path : Bytes) (tr : Trace) : Prop where
  shape : ∃ pre body, tr = pre ++ ⟨.ofstream path,true⟩ :: body ∧ Quiet pre ∧ Appends path body

section Fills
variable {F : Type} [DecidableEq F] {resolve : Bytes → F} {files : Files F}
variable {path : Bytes} {tr tr' : Trace}

@[simp] theorem appends_nil : Appends path [] := fun _ h => by cases h

theorem appends_cons {ev : Event Res} : Appends path (ev :: tr) ↔
    (alters ev = false ∨ ∃ data stored, ev = ⟨.write path data,stored⟩) ∧ Appends path tr :=
  List.forall_mem_cons

@[simp] theorem appends_append : Appends path (tr ++ tr') ↔ Appends path tr ∧ Appends path tr' :=
  List.forall_mem_append

theorem Quiet.appends (h : Quiet tr) : Appends path tr := fun ev hev => Or.inl (h ev hev)

theorem Appends.opened (h : Appends path tr) : opened tr = [] := by
  refine List.filterMap_eq_nil_iff.mpr fun ev hev => ?_
  rcases h ev hev with hq | ⟨data,stored,rfl⟩
  · exact openedBy_of_not_alters hq
  · rfl

/-- The written bytes go behind what the file holds. -/
theorem Appends.filesAfter {before : Bytes} (h : Appends path tr)
    (hf : files (resolve path) = some before) :
    filesAfter resolve files tr =
      Function.update files (resolve path) (some (before ++ storedBytes tr)) := by
  induction tr generalizing files before with
  | nil =>
    rw [show storedBytes [] = [] from rfl,List.append_nil,← hf,Function.update_eq_self]
    rfl
  | cons ev tr ih =>
    obtain ⟨hev,htr⟩ := appends_cons.mp h
    rcases hev with hq | ⟨data,stored,rfl⟩
    · rw [filesAfter_cons,effect_of_not_alters hq,storedBytes_cons,storedBy_of_not_alters hq,
        List.nil_append]
      exact ih htr hf
    · have happend : effect resolve files ⟨.write path data,stored⟩ =
          Function.update files (resolve path) (some (before ++ data.take stored.val)) := by
        change files.append (resolve path) (data.take stored.val) = _
        rw [Store.append,hf]
        rfl
      rw [filesAfter_cons,happend,ih htr (Function.update_self ..),Function.update_idem,
        storedBytes_cons,List.append_assoc]
      rfl

theorem Fills.opened (h : Fills path tr) : opened tr = [path] := by
  obtain ⟨pre,body,rfl,hpre,hbody⟩ := h.shape
  rw [opened_append,hpre.opened,List.nil_append]
  change path :: Backup.opened body = [path]
  rw [hbody.opened]

/-- The file holds what got into it, and no other changes. -/
theorem Fills.filesAfter (h : Fills path tr) :
    filesAfter resolve files tr =
      Function.update files (resolve path) (some (storedBytes tr)) := by
  obtain ⟨pre,body,rfl,hpre,hbody⟩ := h.shape
  rw [filesAfter_append,hpre.filesAfter,storedBytes_append,hpre.storedBytes,List.nil_append]
  change Backup.filesAfter resolve (files.create (resolve path)) body = _
  rw [hbody.filesAfter (Store.create_self _ _),Store.create,Function.update_idem]
  rfl

theorem Fills.wrap {pre post : Trace} (hpre : Quiet pre) (hpost : Quiet post)
    (h : Fills path tr) : Fills path (pre ++ tr ++ post) := by
  obtain ⟨pre',body,rfl,hpre',hbody⟩ := h.shape
  exact ⟨pre ++ pre',body ++ post,by simp,quiet_append.mpr ⟨hpre,hpre'⟩,
    appends_append.mpr ⟨hbody,hpost.appends⟩⟩

/-- Already in the middle of it, the file has changed only from its opening on. -/
theorem Fills.prefix (h : Fills path tr) (hpre : tr' <+: tr) : Quiet tr' ∨ Fills path tr' := by
  obtain ⟨pre,body,rfl,hquiet,hbody⟩ := h.shape
  obtain ⟨rest,hrest⟩ := hpre
  rcases List.append_eq_append_iff.mp hrest with ⟨more,rfl,-⟩ | ⟨more,rfl,hmore⟩
  · exact Or.inl (quiet_append.mp hquiet).1
  · cases more with
    | nil => exact Or.inl (quiet_append.mpr ⟨hquiet,quiet_nil⟩)
    | cons ev more =>
      obtain ⟨rfl,rfl⟩ := List.cons.inj hmore
      exact Or.inr ⟨pre,more,rfl,hquiet,(appends_append.mp hbody).1⟩

end Fills

end NetworkLab.Backup
