import NetworkLab.Backup.Events
import NetworkLab.Backup.Client
import NetworkLab.Backup.Names
import Mathlib.Data.List.Infix
set_option autoImplicit false

/-! The C strings that both ends read from the messages they have received, and whether
the zero behind them is still in the field. -/

namespace NetworkLab.Backup
open Interaction

/-- A string that is read from a field ends in it. -/
def StaysInside : Event Res → Prop
  | ⟨.cstring field memory,beyond⟩ => (cString (memory ++ beyond)).length < field
  | _ => True

section Strings
variable {field : Nat} {memory : Bytes}

theorem length_cString_lt_iff (beyond : Bytes) (h : field ≤ memory.length) :
    (cString (memory ++ beyond)).length < field ↔ 0 ∈ memory.take field := by
  induction field generalizing memory with
  | zero => simp
  | succ field ih =>
    cases memory with
    | nil => cases h
    | cons b memory =>
      have ih := ih (Nat.le_of_succ_le_succ h)
      by_cases hb : b = 0
      · simp [cString,hb]
      · have hcons : cString (b :: memory ++ beyond) = b :: cString (memory ++ beyond) :=
          List.takeWhile_cons_of_pos (by simpa using hb)
        rw [hcons,List.length_cons,Nat.add_lt_add_iff_right,ih]
        simp [Ne.symm hb]

theorem CmdMsg.take_tail (cmd : CmdMsg) : cmd.tail.take 128 = cmd.filename.toList := by
  simp [CmdMsg.tail,List.append_assoc]

end Strings

namespace Server

/-- Every name that is read has a zero among the bytes of its field: the one in the
command, the one in a confirmation, and a new name. -/
structure Terminated (cmd : CmdMsg) (tr : Trace) : Prop where
  command : 0 ∈ cmd.filename.toList
  confirmation : cmd.getCommand = some .SEND → ∀ sender d, got 137 sender d ∈ tr →
    Confirms (CmdMsg.received d) → 0 ∈ (CmdMsg.received d).filename.toList
  newName : cmd.getCommand = some .RENAME → ∀ sender d, got 3000 sender d ∈ tr →
    0 ∈ (DataMsg.received d).toList

section Terminated
variable {config : ServerConfig} {cmd : CmdMsg} {m m' : Members} {tr trn : Trace}
variable {e : ErrorCode} {name filepath : Bytes} {filesize : Nat}

theorem Reads.staysInside_cmd (h : Reads 128 cmd.tail trn name) :
    (∀ ev ∈ trn, StaysInside ev) ↔ 0 ∈ cmd.filename.toList := by
  cases h with
  | read beyond =>
    rw [List.forall_mem_singleton,← cmd.take_tail]
    exact length_cString_lt_iff _ (by simp [CmdMsg.tail])

theorem Reads.staysInside_data {data : DataMsg} (h : Reads 3000 data.toList trn name) :
    (∀ ev ∈ trn, StaysInside ev) ↔ 0 ∈ data.toList := by
  cases h with
  | read beyond =>
    rw [List.forall_mem_singleton]
    refine (length_cString_lt_iff _ (by simp)).trans ?_
    rw [List.take_of_length_le (by simp)]

theorem Reads.not_got {field size : Nat} {memory : Bytes} (h : Reads field memory trn name)
    (sender : Addr) (d : Bytes) : got size sender d ∉ trn := by
  cases h with
  | read beyond => simp [got]

theorem got_inj {size : Nat} {s s' : Addr} {d d' : Bytes}
    (h : got size s d = got size s' d') : s = s' ∧ d = d' := by
  simpa [got] using h

/-- Everything but a string stays inside. -/
theorem FileEvent.staysInside {ev : Event Res} (h : FileEvent filepath ev) :
    StaysInside ev := by
  cases h <;> trivial

theorem zero_mem_received_nil : 0 ∈ DataMsg.received [] := by
  rw [← Vector.mem_toList_iff,DataMsg.toList_received]
  decide +kernel

/-- A message is received, one string of it is read, and there is no other such message
and no other string. -/
theorem staysInside_one {size : Nat} {rest : Trace} {d : Bytes} (pre : Trace) (sender : Addr)
    (P : Bytes → Prop) (hpre : ∀ ev ∈ pre, StaysInside ev ∧ ∀ s d', ev ≠ got size s d')
    (hrest : ∀ ev ∈ rest, StaysInside ev ∧ ∀ s d', ev ≠ got size s d')
    (hno : ∀ s d', got size s d' ∉ trn) (htrn : (∀ ev ∈ trn, StaysInside ev) ↔ P d) :
    (∀ ev ∈ pre ++ got size sender d :: (trn ++ rest), StaysInside ev) ↔
      ∀ s d', got size s d' ∈ pre ++ got size sender d :: (trn ++ rest) → P d' := by
  rw [List.forall_mem_append,List.forall_mem_cons,List.forall_mem_append,htrn]
  constructor
  · rintro ⟨-,-,hp,-⟩ s d' hmem
    rcases List.mem_append.mp hmem with hin | hin
    · exact absurd rfl ((hpre _ hin).2 s d')
    rcases List.mem_cons.mp hin with he | hin
    · obtain ⟨rfl,rfl⟩ := got_inj he
      exact hp
    rcases List.mem_append.mp hin with hin | hin
    · exact absurd hin (hno s d')
    · exact absurd rfl ((hrest _ hin).2 s d')
  · intro hall
    exact ⟨fun ev hev => (hpre ev hev).1,trivial,hall sender d (by simp),
      fun ev hev => (hrest ev hev).1⟩

theorem SendConfirm.staysInside_iff (h : SendConfirm config cmd m tr e m') :
    (∀ ev ∈ tr, StaysInside ev) ↔ ∀ sender d, got 137 sender d ∈ tr →
      Confirms (CmdMsg.received d) → 0 ∈ (CmdMsg.received d).filename.toList := by
  have hempty : ¬Confirms (CmdMsg.received []) := by decide +kernel
  cases h with
  | notSent => simp [sent,got,StaysInside]
  | noConfirm hr => cases hr <;> simp [sent,got,StaysInside,hempty]
  | declined hd hno => simp [sent,got,StaysInside,hno]
  | @confirmed sender datagram name trn tr e m' hd hyes hname hfile =>
    have hrest : ∀ ev ∈ tr, StaysInside ev ∧ ∀ s d', ev ≠ got 137 s d' := by
      refine fun ev hev => ⟨(hfile.fileEvent ev hev).staysInside,?_⟩
      rintro s d' rfl
      cases hfile.fileEvent _ hev
    have hone := staysInside_one [sent m { reply .FILE_EXISTS 0 with size := cmd.size }.encode true]
      sender (fun d => Confirms (CmdMsg.received d) → 0 ∈ (CmdMsg.received d).filename.toList)
      (by simp [sent,got,StaysInside]) hrest hname.not_got
      (hname.staysInside_cmd.trans (imp_iff_right hyes).symm)
    simpa only [List.append_assoc,List.cons_append,List.nil_append] using hone

theorem NewName.staysInside_iff (h : NewName config filepath m tr e m') :
    (∀ ev ∈ tr, StaysInside ev) ↔ ∀ sender d, got 3000 sender d ∈ tr →
      0 ∈ (DataMsg.received d).toList := by
  have hone : ∀ {sender : Addr} {d name : Bytes} {trn rest : Trace},
      Reads 3000 (DataMsg.received d).toList trn name →
      (∀ ev ∈ rest, StaysInside ev ∧ ∀ s d', ev ≠ got 3000 s d') →
      ((∀ ev ∈ got 3000 sender d :: (trn ++ rest), StaysInside ev) ↔ ∀ s d',
        got 3000 s d' ∈ got 3000 sender d :: (trn ++ rest) → 0 ∈ (DataMsg.received d').toList) :=
    fun hname hrest => staysInside_one [] _ (fun d => 0 ∈ (DataMsg.received d).toList) (by simp)
      hrest hname.not_got hname.staysInside_data
  cases h with
  | noName hr => cases hr <;> simp [got,StaysInside,zero_mem_received_nil]
  | invalid hd hname hv =>
    simp only [List.cons_append,List.nil_append]
    exact hone hname (by simp [sent,got,StaysInside])
  | fresh sender done ok hd hname hv =>
    simp only [List.append_assoc,List.cons_append,List.nil_append]
    exact hone hname (by simp [sent,got,StaysInside,renamed])
  | noConfirm sender asked hd hname hv hr =>
    simp only [List.cons_append,List.nil_append]
    exact hone hname (by cases hr <;> simp [sent,got,StaysInside])
  | declined sender sender' asked ok hd hname hv hc hno =>
    simp only [List.cons_append,List.nil_append]
    exact hone hname (by simp [sent,got,StaysInside])
  | confirmed sender sender' asked deleted done ok hd hname hv hc hyes =>
    simp only [List.append_assoc,List.cons_append,List.nil_append]
    exact hone hname (by simp [sent,got,StaysInside,renamed])

/-- The name of the command is read first; what follows decides about the rest. -/
theorem Reads.terminated_iff {rest : Trace} (hname : Reads 128 cmd.tail trn name)
    (htr : tr = trn ++ rest)
    (hsend : cmd.getCommand = some .SEND → ((∀ ev ∈ rest, StaysInside ev) ↔
      ∀ sender d, got 137 sender d ∈ rest → Confirms (CmdMsg.received d) →
        0 ∈ (CmdMsg.received d).filename.toList))
    (hrename : cmd.getCommand = some .RENAME → ((∀ ev ∈ rest, StaysInside ev) ↔
      ∀ sender d, got 3000 sender d ∈ rest → 0 ∈ (DataMsg.received d).toList))
    (hother : cmd.getCommand ≠ some .SEND → cmd.getCommand ≠ some .RENAME →
      ∀ ev ∈ rest, StaysInside ev) :
    (∀ ev ∈ tr, StaysInside ev) ↔ Terminated cmd tr := by
  have hgot : ∀ {size sender d}, got size sender d ∈ tr ↔ got size sender d ∈ rest := by
    intro size sender d
    rw [htr,List.mem_append,or_iff_right (hname.not_got sender d)]
  rw [htr,List.forall_mem_append,hname.staysInside_cmd,← htr]
  constructor
  · rintro ⟨hcmd,hrest⟩
    exact ⟨hcmd,fun hc s d hd => (hsend hc).mp hrest s d (hgot.mp hd),
      fun hc s d hd => (hrename hc).mp hrest s d (hgot.mp hd)⟩
  · intro ht
    refine ⟨ht.command,?_⟩
    by_cases hs : cmd.getCommand = some .SEND
    · exact (hsend hs).mpr fun s d hd => ht.confirmation hs s d (hgot.mpr hd)
    · by_cases hr : cmd.getCommand = some .RENAME
      · exact (hrename hr).mpr fun s d hd => ht.newName hr s d (hgot.mpr hd)
      · exact hother hs hr

theorem Send.staysInside_iff (hc : cmd.getCommand = some .SEND)
    (h : Send config cmd m tr e m') : (∀ ev ∈ tr, StaysInside ev) ↔ Terminated cmd tr := by
  have hrename : cmd.getCommand ≠ some .RENAME := by simp [hc]
  cases h with
  | invalid hname hv =>
    exact hname.terminated_iff rfl (fun _ => by simp [sent,got,StaysInside])
      (fun h => absurd h hrename) (fun h => absurd hc h)
  | @new trn tr name e m' hname hv hfile =>
    refine hname.terminated_iff (List.append_assoc _ _ _) (fun _ => ?_) (fun h => absurd h hrename)
      (fun h => absurd hc h)
    refine iff_of_true ?_ ?_
    · simpa [StaysInside] using fun ev hev => (hfile.fileEvent ev hev).staysInside
    · intro sender d hd
      have hd : got 137 sender d ∈ tr := by simpa [got] using hd
      cases hfile.fileEvent _ hd
  | existing hname hv hconfirm =>
    refine hname.terminated_iff (List.append_assoc _ _ _) (fun _ => ?_) (fun h => absurd h hrename)
      (fun h => absurd hc h)
    have hiff := hconfirm.staysInside_iff
    simpa [StaysInside,got] using hiff

theorem Remove.staysInside_iff (hc : cmd.getCommand = some .REMOVE)
    (h : Remove config cmd m tr e m') : (∀ ev ∈ tr, StaysInside ev) ↔ Terminated cmd tr := by
  have hsend : cmd.getCommand ≠ some .SEND := by simp [hc]
  have hrename : cmd.getCommand ≠ some .RENAME := by simp [hc]
  cases h with
  | invalid hname hv =>
    exact hname.terminated_iff rfl (fun h => absurd h hsend) (fun h => absurd h hrename)
      fun _ _ => by simp [sent,StaysInside]
  | missing hname hv =>
    exact hname.terminated_iff rfl (fun h => absurd h hsend) (fun h => absurd h hrename)
      fun _ _ => by simp [sent,StaysInside]
  | deleted hname hv =>
    exact hname.terminated_iff rfl (fun h => absurd h hsend) (fun h => absurd h hrename)
      fun _ _ => by simp [sent,StaysInside]

theorem Rename.staysInside_iff (hc : cmd.getCommand = some .RENAME)
    (h : Rename config cmd m tr e m') : (∀ ev ∈ tr, StaysInside ev) ↔ Terminated cmd tr := by
  have hsend : cmd.getCommand ≠ some .SEND := by simp [hc]
  cases h with
  | invalid hname hv =>
    exact hname.terminated_iff rfl (fun h => absurd h hsend)
      (fun _ => by simp [sent,got,StaysInside]) fun _ h => absurd hc h
  | missing hname hv =>
    exact hname.terminated_iff rfl (fun h => absurd h hsend)
      (fun _ => by simp [sent,got,StaysInside]) fun _ h => absurd hc h
  | handshake ok hname hv hs hnew =>
    refine hname.terminated_iff (List.append_assoc _ _ _) (fun h => absurd h hsend) (fun _ => ?_)
      fun _ h => absurd hc h
    have hiff := hnew.staysInside_iff
    simpa [StaysInside,got,sent] using hiff
  | direct hname hv hs hnew =>
    refine hname.terminated_iff (List.append_assoc _ _ _) (fun h => absurd h hsend) (fun _ => ?_)
      fun _ h => absurd hc h
    have hiff := hnew.staysInside_iff
    simpa [StaysInside,got] using hiff

/-- Other commands read nothing themselves. -/
theorem terminated_iff_of_other (hsend : cmd.getCommand ≠ some .SEND)
    (hrename : cmd.getCommand ≠ some .RENAME) (htr : ∀ ev ∈ tr, StaysInside ev) :
    (∀ ev ∈ tr, StaysInside ev) ∧ 0 ∈ cmd.filename.toList ↔ Terminated cmd tr :=
  ⟨fun h => ⟨h.2,fun hc => absurd hc hsend,fun hc => absurd hc hrename⟩,
    fun h => ⟨htr,h.command⟩⟩

theorem Handled.staysInside_iff (h : Handled config cmd m tr e m') :
    (∀ ev ∈ tr, StaysInside ev) ∧ 0 ∈ cmd.filename.toList ↔ Terminated cmd tr := by
  have hread : ((∀ ev ∈ tr, StaysInside ev) ↔ Terminated cmd tr) →
      ((∀ ev ∈ tr, StaysInside ev) ∧ 0 ∈ cmd.filename.toList ↔ Terminated cmd tr) :=
    fun hiff => ⟨fun h => hiff.mp h.1,fun h => ⟨hiff.mpr h,h.command⟩⟩
  cases h with
  | ls files data ok hc =>
    exact terminated_iff_of_other (by simp [hc]) (by simp [hc]) (by simp [sent,StaysInside])
  | send hc h => exact hread (h.staysInside_iff hc)
  | remove hc h => exact hread (h.staysInside_iff hc)
  | rename hc h => exact hread (h.staysInside_iff hc)
  | shutdown ok hc =>
    exact terminated_iff_of_other (by simp [hc]) (by simp [hc]) (by simp [sent,StaysInside])
  | overwrite hc => exact terminated_iff_of_other (by simp [hc]) (by simp [hc]) (by simp)
  | unknown hc =>
    simp only [List.mem_cons,not_or] at hc
    exact terminated_iff_of_other hc.2.1 hc.2.2.2.1 (by simp)

theorem Processed.staysInside_iff (h : Processed config cmd m tr e m') :
    (∀ ev ∈ tr, StaysInside ev) ↔ Terminated cmd tr := by
  cases h with
  | @logged tr trn name e m' hh hname =>
    rw [List.forall_mem_append,hname.staysInside_cmd,hh.staysInside_iff]
    have hgot : ∀ {size sender d}, got size sender d ∈ tr ++ trn ↔ got size sender d ∈ tr := by
      intro size sender d
      rw [List.mem_append,or_iff_left (hname.not_got sender d)]
    exact ⟨fun h => ⟨h.command,fun hc s d hd => h.confirmation hc s d (hgot.mp hd),
        fun hc s d hd => h.newName hc s d (hgot.mp hd)⟩,
      fun h => ⟨h.command,fun hc s d hd => h.confirmation hc s d (hgot.mpr hd),
        fun hc s d hd => h.newName hc s d (hgot.mpr hd)⟩⟩

/-- The main loop itself reads no string. -/
theorem ServerRun.staysInside_iff {calls : List ServerCall} (h : ServerRun config m tr calls m') :
    (∀ ev ∈ tr, StaysInside ev) ↔ ∀ c ∈ calls, Terminated c.cmd c.trace := by
  induction h with
  | stop m => simp
  | idle _ hnext _ ih =>
    rw [List.forall_mem_append,ih,and_iff_right]
    rcases runs_nextCommand_none hnext with ⟨rfl,-⟩ | ⟨rfl,-⟩ | ⟨r,rfl,hr⟩
    · simp [StaysInside]
    · simp [StaysInside]
    · cases hr <;> simp [StaysInside,got]
  | @call m m₁ m₂ m' trn trc tr datagram e calls _ hnext hp _ ih =>
    obtain ⟨sender,-,rfl,-⟩ := runs_nextCommand_some hnext
    have hwait : ∀ ev ∈ [⟨.select,.readable⟩,got 137 sender datagram], StaysInside ev := by
      simp [StaysInside,got]
    have hbefore : ∀ ev ∈ requested (CmdMsg.received datagram), StaysInside ev := by
      simp [requested,StaysInside]
    have hafter : ∀ ev ∈ failed (CmdMsg.received datagram) e, StaysInside ev := by
      unfold failed
      split <;> simp [StaysInside]
    have hcall := (runs_processCommand hp).staysInside_iff
    rw [List.forall_mem_append,List.forall_mem_append,List.forall_mem_append,
      List.forall_mem_append,ih,hcall]
    constructor
    · rintro ⟨⟨-,⟨-,hc⟩,-⟩,hcalls⟩
      exact List.forall_mem_cons.mpr ⟨hc,hcalls⟩
    · intro hall
      obtain ⟨hc,hcalls⟩ := List.forall_mem_cons.mp hall
      exact ⟨⟨hwait,⟨hbefore,hc⟩,hafter⟩,hcalls⟩

end Terminated

end Server

namespace Client

/-- The walk over the names of a list meets a second zero behind a name, or there is no
name at all. -/
def ListEnds (data : Bytes) : Prop := data.head? = some 0 ∨ [0,0] <:+: data

section Walk
variable {m m' : Members} {tr : Trace} {e : ErrorCode} {name rest : Bytes}

theorem infix_zeros_iff (h : 0 ∉ name) :
    [0,0] <:+: name ++ 0 :: rest ↔ ListEnds rest := by
  induction name with
  | nil =>
    rw [List.nil_append,List.infix_cons_iff,List.cons_prefix_cons,ListEnds]
    refine or_congr ((and_iff_right rfl).trans ?_) Iff.rfl
    cases rest with
    | nil => simp
    | cons b rest =>
      rw [List.cons_prefix_cons,List.head?_cons,Option.some_inj]
      exact ⟨fun h => h.1.symm,fun h => ⟨h.symm,List.nil_prefix⟩⟩
  | cons b name ih =>
    obtain ⟨hb,hname⟩ := List.ne_and_not_mem_of_not_mem_cons h
    rw [List.cons_append,List.infix_cons_iff,ih hname,List.cons_prefix_cons]
    simp [hb]

/-- A name that ends in the message is left for the next one. -/
theorem listEnds_of_name (h : 0 ∉ name) (hne : name ≠ []) :
    ListEnds (name ++ 0 :: rest) ↔ ListEnds rest := by
  refine (or_iff_right fun hhead => ?_).trans (infix_zeros_iff h)
  cases name with
  | nil => exact hne rfl
  | cons b name => exact h (List.mem_cons.mpr (Or.inl (Option.some.inj hhead).symm))

theorem listEnds_of_not_mem (h : 0 ∉ rest) : ¬ListEnds rest := by
  rintro (hhead | hzeros)
  · exact h (List.mem_of_head? hhead)
  · exact h (hzeros.subset (by simp))

theorem runs_printNames {data : DataMsg} {fuel offset : Nat} (hfuel : 3000 - offset < 2 * fuel)
    (h : Runs (printNames data fuel offset) m tr () m') :
    (∀ ev ∈ tr, StaysInside ev) ↔ ListEnds (data.toList.drop offset) := by
  induction fuel generalizing offset m tr with
  | zero => omega
  | succ fuel ih =>
    have hlen : (data.toList.drop offset).length = 3000 - offset := by simp
    rw [printNames,readString,runs_bind_assoc] at h
    obtain ⟨beyond,tr₁,rfl,h₁⟩ := runs_ask_bind.mp h
    rw [runs_pure_bind] at h₁
    have hin := length_cString_lt_iff beyond hlen.ge
    rw [List.take_of_length_le hlen.le] at hin
    rw [List.forall_mem_cons]
    change (cString (data.toList.drop offset ++ beyond)).length < 3000 - offset ∧ _ ↔ _
    rw [hin]
    by_cases hmem : 0 ∈ data.toList.drop offset
    · obtain ⟨name,rest,hsplit,hname⟩ := List.eq_append_cons_of_mem hmem
      have hfile : cString (data.toList.drop offset ++ beyond) = name := by
        rw [hsplit,List.append_assoc,List.cons_append]
        exact cString_of_not_mem hname
      have hrest : data.toList.drop (offset + name.length + 1) = rest := by
        rw [Nat.add_assoc,← List.drop_drop,hsplit]
        simp
      rw [hfile] at h₁
      rw [and_iff_right hmem,hsplit]
      split at h₁
      · rename_i hnil
        obtain ⟨rfl,-,-⟩ := runs_pure.mp h₁
        rw [hnil]
        exact iff_of_true (fun _ hev => by cases hev) (Or.inl rfl)
      · rename_i hne
        have hpos := List.length_pos_of_ne_nil hne
        have hbound : name.length + 1 ≤ 3000 - offset := by
          rw [← hlen,hsplit]
          simp
        rw [listEnds_of_name hname hne,← hrest]
        exact ih (by omega) h₁
    · exact iff_of_false (fun h => hmem h.1) (listEnds_of_not_mem hmem)

theorem printNames_not_recvfrom {data : DataMsg} {fuel offset size : Nat}
    {r : Option (Addr × Bytes)} (h : Runs (printNames data fuel offset) m tr () m') :
    ⟨.recvfrom size,r⟩ ∉ tr := by
  induction fuel generalizing offset m tr with
  | zero =>
    obtain ⟨rfl,-,-⟩ := runs_pure.mp h
    exact List.not_mem_nil
  | succ fuel ih =>
    rw [printNames,readString,runs_bind_assoc] at h
    obtain ⟨beyond,tr₁,rfl,h₁⟩ := runs_ask_bind.mp h
    rw [runs_pure_bind] at h₁
    rw [List.mem_cons,not_or]
    refine ⟨by simp,?_⟩
    split at h₁
    · obtain ⟨rfl,-,-⟩ := runs_pure.mp h₁
      exact List.not_mem_nil
    · exact ih h₁

/-- `receiveData` brings no list, or the one that is in the datagram. -/
theorem runs_receiveData_bind {α : Type} {f : ErrorCode × DataMsg → Handler α} {b : α}
    (h : Runs (receiveData >>= f) m tr b m') :
    ∃ r tr' m₁, tr = ⟨.recvfrom 3000,r⟩ :: tr' ∧ m₁.listed = m.listed ∧
      ((∀ sender d, some (sender,d) = r → d = []) ∧
          Runs (f (.TIMEOUT,.new)) m₁ tr' b m' ∨
        ∃ sender d, some (sender,d) = r ∧ Runs (f (.SUCCESS,.received d)) m₁ tr' b m') := by
  rw [receiveData,runs_bind_assoc] at h
  rcases runs_recvfrom_bind.mp h with ⟨tr₁,rfl,h₁⟩ | ⟨sender,d,tr₁,rfl,h₁⟩
  · exact ⟨none,tr₁,m,rfl,rfl,Or.inl ⟨by simp,h₁⟩⟩
  · by_cases hd : d = []
    · rw [if_pos hd] at h₁
      refine ⟨_,tr₁,{ m with serverAddr := sender },rfl,rfl,Or.inl ⟨fun s d' he => ?_,h₁⟩⟩
      obtain ⟨-,rfl⟩ := Prod.mk.inj (Option.some.inj he)
      exact hd
    · rw [if_neg hd] at h₁
      exact ⟨_,tr₁,{ m with serverAddr := sender },rfl,rfl,Or.inr ⟨sender,d,rfl,h₁⟩⟩

theorem listEnds_received_nil : ListEnds (DataMsg.received []).toList := by
  rw [DataMsg.toList_received]
  exact Or.inl (by decide +kernel)

/-- Every string of the list stays in the buffer exactly when the list ends in it. -/
theorem handleLs_staysInside_iff (h : Runs handleLs m tr e m') :
    (∀ ev ∈ tr, StaysInside ev) ↔ ∀ sender d, ⟨.recvfrom 3000,some (sender,d)⟩ ∈ tr →
      ListEnds (DataMsg.received d).toList := by
  rw [handleLs,sendCommand] at h
  obtain ⟨ok,tr₁,rfl,h₁⟩ := runs_sendto_bind.mp h
  have hsent : StaysInside ⟨.sendto m.serverAddr (command .LS []).encode,ok⟩ := trivial
  rw [List.forall_mem_cons,and_iff_right hsent]
  simp only [List.mem_cons,Sigma.mk.injEq,reduceCtorEq,false_and,false_or]
  cases ok with
  | false =>
    obtain ⟨rfl,-,-⟩ := runs_pure.mp h₁
    simp
  | true =>
  obtain ⟨r,tr₂,m₂,rfl,-,hr⟩ := runs_receiveData_bind h₁
  have hgot : StaysInside ⟨.recvfrom 3000,r⟩ := trivial
  rw [List.forall_mem_cons,and_iff_right hgot]
  simp only [List.mem_cons,Sigma.mk.injEq,heq_eq_eq,true_and]
  rcases hr with ⟨hempty,h₂⟩ | ⟨sender,d,rfl,h₂⟩
  · obtain ⟨rfl,-,-⟩ := runs_pure.mp h₂
    refine iff_of_true (fun _ hev => by cases hev) fun sender d hd => ?_
    rw [hempty sender d (hd.resolve_right List.not_mem_nil)]
    exact listEnds_received_nil
  · dsimp only at h₂
    rw [if_neg (by simp)] at h₂
    have hone : (∀ r, ⟨.recvfrom 3000,r⟩ ∉ tr₂) → ((∀ s d', some (s,d') = some (sender,d) ∨
        ⟨.recvfrom 3000,some (s,d')⟩ ∈ tr₂ → ListEnds (DataMsg.received d').toList) ↔
          ListEnds (DataMsg.received d).toList) := by
      intro hno
      constructor
      · exact fun hall => hall sender d (Or.inl rfl)
      · rintro hd s d' (he | hin)
        · obtain ⟨-,rfl⟩ := Prod.mk.inj (Option.some.inj he)
          exact hd
        · exact absurd hin (hno _)
    split at h₂
    · rename_i hzero
      obtain ⟨rfl,-,-⟩ := runs_pure.mp h₂
      rw [hone fun _ => List.not_mem_nil]
      exact iff_of_true (fun _ hev => by cases hev) (Or.inl hzero)
    · obtain ⟨⟨⟩,m₃,tr₃,tr₄,hwalk,h₃,rfl⟩ := runs_bind.mp h₂
      obtain ⟨rfl,-,-⟩ := runs_pure.mp h₃
      rw [List.append_nil] at hone ⊢
      rw [hone fun _ => printNames_not_recvfrom hwalk]
      have hwalk := runs_printNames (by omega) hwalk
      rwa [List.drop_zero] at hwalk

end Walk

end Client

/-- A run of the server reads every string in its field exactly when every name that is
read has a zero there, and a list is read in its message exactly when it ends in it. -/
theorem strings_inside (config : Server.ServerConfig) (m m' : Server.Members) (tr : Trace)
    (calls : List Server.ServerCall) (mc mc' : Client.Members) (trc : Trace) (e : ErrorCode) :
    (Server.ServerRun config m tr calls m' →
      ((∀ ev ∈ tr, StaysInside ev) ↔ ∀ c ∈ calls, Server.Terminated c.cmd c.trace)) ∧
    (Runs Client.handleLs mc trc e mc' →
      ((∀ ev ∈ trc, StaysInside ev) ↔ ∀ sender d, ⟨.recvfrom 3000,some (sender,d)⟩ ∈ trc →
        Client.ListEnds (DataMsg.received d).toList)) :=
  ⟨fun h => h.staysInside_iff,fun h => Client.handleLs_staysInside_iff h⟩

/-! A REMOVE whose name fills its 128 bytes; what follows is read as its end. -/

def longCmd : CmdMsg :=
  { CmdMsg.new with cmd := Command.REMOVE.code, filename := Vector.replicate 128 97, size := 97 }

def longTrace : Trace :=
  [⟨.cstring 128 longCmd.tail,[]⟩,⟨.accepted (List.replicate 129 97),()⟩,
    ⟨.fileExists (ascii ['b','/'] ++ List.replicate 129 97),false⟩,
    Server.sent ((Server.init Server.sampleConfig).serving Server.sampleAddr)
      (Server.reply .ACK 1).encode true,
    ⟨.cstring 128 longCmd.tail,[]⟩]

theorem long_run : ∃ e m, replay (Server.processCommand Server.sampleConfig longCmd
    ((Server.init Server.sampleConfig).serving Server.sampleAddr)) longTrace = some (e,m) :=
  replay_of_isSome (by decide +kernel)

theorem not_strings_inside_always :
    ¬∀ (config : Server.ServerConfig) (m m' : Server.Members) (tr : Trace)
      (calls : List Server.ServerCall), Server.ServerRun config m tr calls m' →
      ∀ ev ∈ tr, StaysInside ev := by
  intro hall
  obtain ⟨e,m,h⟩ := long_run
  have hin := hall _ _ _ _ _ (Server.serverRun_single h) ⟨.cstring 128 longCmd.tail,[]⟩
    (by simp [longTrace])
  revert hin
  change ¬(cString (longCmd.tail ++ [])).length < 128
  decide +kernel

theorem strings_inside_longTrace : ∃ e m, (∀ ev ∈
    [⟨.select,.readable⟩,Server.got 137 Server.sampleAddr longCmd.encode] ++
      (Server.requested longCmd ++ longTrace ++ Server.failed longCmd e) ++ [],
    StaysInside ev) ↔ ∀ c ∈ [(⟨longCmd,(Server.init Server.sampleConfig).serving
      Server.sampleAddr,longTrace,e,m⟩ : Server.ServerCall)], Server.Terminated c.cmd c.trace := by
  obtain ⟨e,m,h⟩ := long_run
  let mc : Client.Members := ⟨Server.sampleAddr,[]⟩
  exact ⟨e,m,(strings_inside _ _ _ _ _ mc mc [] .SUCCESS).1 (Server.serverRun_single h)⟩

end NetworkLab.Backup
