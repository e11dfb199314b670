import NetworkLab.Lab2.Protocol
set_option autoImplicit false

/-! What one client and the server do to the backup, in any order of their steps. -/

namespace NetworkLab.Lab2
open Relation

/-- The client connects only with a file of its own that is too long for one datagram. -/
def Client.Owns (P : Platform) (files : Name → Option Bytes) : Client → Prop
  | .sendReply filename file | .overwriteReply filename file => files filename = some file
  | .portReply filename file | .connecting filename file _ =>
    files filename = some file ∧ P.dataBufLen < file.length
  | _ => True

section Transfer
variable {P : Platform} {files : Name → Option Bytes} {filesize : Nat}

theorem start_owns (t : Typed) (old : CmdMsg) : (t.start P files old).1.Owns P files := by
  cases t with
  | send filename =>
    simp only [Typed.start]
    cases hf : files filename with
    | none => trivial
    | some file => exact hf
  | _ => trivial

theorem Client.Owns.reply {c : Client} (h : c.Owns P files) (answer : Char) (stack : CmdMsg)
    (old : Bytes) (x : Option Datagram) : (c.reply P answer stack old x).1.Owns P files := by
  cases c with
  | sendReply filename file =>
    cases x with
    | none => trivial
    | some x =>
      simp only [Client.reply]
      split
      · split
        · exact h
        · trivial
      · split
        · split
          · rename_i hbig
            exact ⟨h,hbig⟩
          · trivial
        · trivial
  | overwriteReply filename file =>
    cases x with
    | none => trivial
    | some x =>
      simp only [Client.reply]
      split
      · trivial
      · split
        · rename_i hbig
          split
          · exact ⟨h,hbig⟩
          · exact ⟨h,hbig⟩
        · trivial
  | portReply filename file =>
    cases x with
    | none => trivial
    | some x => exact h
  | connecting filename file port => exact h
  | renameReply new =>
    cases x <;> simp only [Client.reply] <;> repeat' split
    all_goals trivial
  | renameConfirmReply =>
    cases x <;> simp only [Client.reply] <;> repeat' split
    all_goals trivial
  | removeReply =>
    cases x <;> simp only [Client.reply] <;> repeat' split
    all_goals trivial
  | prompt => cases x <;> trivial
  | lsReply => cases x <;> trivial
  | cancelReply => cases x <;> trivial
  | doneReply => cases x <;> trivial
  | dataReply => cases x <;> trivial
  | renameSecond new => cases x <;> trivial
  | renameLastReply ackMsg => cases x <;> trivial
  | quit => cases x <;> trivial

theorem prefix_receive (chunks : List Bytes) (total : Bytes) :
    receive filesize chunks total <+: total ++ chunks.flatten := by
  induction chunks generalizing total with
  | nil => simp [receive]
  | cons chunk chunks ih =>
    simp only [receive,List.flatten_cons]
    split
    · rw [← List.append_assoc]
      exact ih _
    · exact List.prefix_append _ _

theorem sendLoop_done {sends : List Nat} {file buffer : Bytes} :
    sendLoop filesize sends file buffer filesize = [] := by
  cases sends with
  | nil => rfl
  | cons sent sends => simp [sendLoop]

/-- A round in which `send` takes the whole buffer: a piece of the file goes out. -/
theorem sendLoop_whole {sent : Nat} (sends : List Nat) {file : Bytes} (buffer : Bytes)
    {bytesSent : Nat} (hsent : bufferSize ≤ sent) (hsize : bytesSent + file.length = filesize)
    (hne : file ≠ []) : ∃ buffer', sendLoop filesize (sent :: sends) file buffer bytesSent =
      file.take bufferSize ++ sendLoop filesize sends (file.drop bufferSize) buffer'
        (bytesSent + min bufferSize file.length) := by
  have hpos := List.length_pos_iff.mpr hne
  have hmin : min bufferSize (filesize - bytesSent) = min bufferSize file.length := by
    rw [← hsize,Nat.add_sub_cancel_left]
  have hread : file.take (min bufferSize file.length) = file.take bufferSize :=
    (List.take_eq_take_min ..).symm
  have hdrop : file.drop (min bufferSize file.length) = file.drop bufferSize :=
    List.drop_eq_drop_min.symm
  have hlen : (file.take bufferSize).length = min bufferSize file.length := List.length_take
  have hall : min sent (min bufferSize file.length) = min bufferSize file.length := by omega
  refine ⟨file.take bufferSize ++ buffer.drop (file.take bufferSize).length,?_⟩
  rw [sendLoop,if_pos (by omega)]
  simp only [hmin,hread,hdrop,hall]
  rw [List.take_left' hlen]

/-- As long as no `send` is short, what goes out begins the file. -/
theorem sendLoop_begins {sends : List Nat} (hwhole : ∀ sent ∈ sends, bufferSize ≤ sent)
    {file buffer : Bytes} {bytesSent : Nat} (hsize : bytesSent + file.length = filesize) :
    sendLoop filesize sends file buffer bytesSent <+: file := by
  induction sends generalizing file buffer bytesSent with
  | nil => exact List.nil_prefix
  | cons sent sends ih =>
    obtain ⟨hsent,hrest⟩ := List.forall_mem_cons.mp hwhole
    by_cases hne : file = []
    · rw [hne,List.length_nil,Nat.add_zero] at hsize
      rw [hsize,sendLoop_done]
      exact List.nil_prefix
    · obtain ⟨buffer',he⟩ := sendLoop_whole sends buffer hsent hsize hne
      rw [he]
      have hih : sendLoop filesize sends (file.drop bufferSize) buffer'
          (bytesSent + min bufferSize file.length) <+: file.drop bufferSize :=
        ih hrest (by rw [List.length_drop]; omega)
      obtain ⟨t,ht⟩ := hih
      exact ⟨t,by rw [List.append_assoc,ht,List.take_append_drop]⟩

end Transfer

/-- Bytes that came over TCP: the first of those that the client sends of a file that is too
long for one datagram, so of that file unless a `send` is short. -/
def Sent (P : Platform) (files : Name → Option Bytes) (b : Bytes) : Prop :=
  ∃ filename file sends buffer, files filename = some file ∧ P.dataBufLen < file.length ∧
    b <+: sendLoop file.length sends file buffer 0 ∧
    ((∀ sent ∈ sends, bufferSize ≤ sent) → b <+: file)

/-- What holds at every moment of a run that began with the files `d`. -/
structure Inv (P : Platform) (files : Name → Option Bytes) (d : Disk) (s : Sys) : Prop where
  phase : Phase P s
  plain : PlainName P s.client
  owns : s.client.Owns P files
  stored : ∀ n b, s.server.disk n = some b → (∃ m, d m = some b) ∨ Sent P files b

section Runs
variable {P : Platform} {files : Name → Option Bytes} {d : Disk} {s t : Sys}

theorem plain_of_none {c : Client} (h : c.newName = none) : PlainName P c := by
  intro new hnew
  rw [h] at hnew
  cases hnew

theorem Client.reply_newName {c : Client} (hw : c.Waits) (answer : Char) (stack : CmdMsg)
    (old : Bytes) (x : Option Datagram) : (c.reply P answer stack old x).1.newName = none := by
  cases c with
  | prompt => exact absurd hw id
  | connecting filename file port => exact absurd hw id
  | renameSecond new => exact absurd hw id
  | quit => exact absurd hw id
  | _ => cases x <;> simp only [Client.reply] <;> repeat' split
         all_goals rfl

/-- One step: the invariant, and what happens to the files that are there. -/
theorem Inv.step (h : Inv P files d s) (hst : Step P files s t) :
    Inv P files d t ∧ ∀ n b, s.server.disk n = some b →
      t.server.disk n = some b ∨ t.server.disk n = none ∨ n ∈ s.agreed := by
  have hmoved : ∀ {d' : Disk}, Moves s.agreed s.server.disk d' → ∀ n b, d' n = some b →
      (∃ m, d m = some b) ∨ Sent P files b := by
    intro d' hm n b hb
    obtain ⟨m,hb'⟩ := hm.found n b hb
    exact h.stored m b hb'
  obtain ⟨-,hst⟩ := hst
  cases hst with
  | typed c hcl hplain =>
    refine ⟨⟨h.phase.typed c hcl,?_,start_owns c _,h.stored⟩,fun n b hb => Or.inl hb⟩
    intro new hnew
    cases c with
    | rename filename new' =>
      cases hnew
      exact hplain
    | send filename =>
      simp only [Typed.start] at hnew
      split at hnew <;> cases hnew
    | _ => cases hnew
  | second new hcl =>
    refine ⟨⟨h.phase.second h.plain hcl,?_,trivial,h.stored⟩,fun n b hb => Or.inl hb⟩
    have := h.plain
    rw [hcl] at this
    exact this
  | reply answer stack old x rest hw hr =>
    exact ⟨⟨h.phase.reply hw hr,plain_of_none (Client.reply_newName hw _ _ _ _),
      h.owns.reply _ _ _ _,h.stored⟩,fun n b hb => Or.inl hb⟩
  | timeout answer stack old hw hsilent =>
    exact ⟨⟨h.phase.timeout hw hsilent,plain_of_none (Client.reply_newName hw _ _ _ _),
      h.owns.reply _ _ _ _,h.stored⟩,fun n b hb => Or.inl hb⟩
  | serve listens stack x rest hacc hex hq =>
    obtain ⟨hphase,hmoves⟩ := h.phase.serve listens stack h.plain hacc hex hq
    exact ⟨⟨hphase,h.plain,h.owns,hmoved hmoves⟩,hmoves.kept⟩
  | starve listens stack hacc hex =>
    obtain ⟨hphase,hd⟩ := h.phase.starve listens stack h.plain hacc hex
    refine ⟨⟨hphase,h.plain,h.owns,?_⟩,fun n b hb => Or.inl (hd ▸ hb)⟩
    intro n b hb
    exact h.stored n b (hd ▸ hb)
  | transfer listens ow filename file port sends buffer chunks hcl hpl hport hport0 hbuffer
      hchunks =>
    rcases h.phase.of_connects hcl with hpl' | ⟨ow',hpl',hstate,hq,hr,-,-,hname⟩
    · exact (hpl'.not_at hpl (by simp)).elim
    · cases hpl.symm.trans hpl'
      have hown := h.owns
      rw [hcl] at hown
      obtain ⟨u,out,htr,hat,hout,hkept,hfound⟩ := transfer_cases P listens chunks hstate hname
      rw [htr]
      refine ⟨⟨?_,plain_of_none rfl,trivial,fun n b hb => ?_⟩,fun n b hb => ?_⟩
      · rcases hout with rfl | ⟨m,rfl⟩
        · exact .quiet hat (by rw [hq]; exact leftover_nil) Ends.doneReply.not_connects
            (by simpa using hr)
        · exact .replied (.cmd m) hat (by rw [hq]; exact leftover_nil) (by simp [hr])
            (.ends _ _ .doneReply)
      · rcases hfound n b hb with hold | rfl
        · exact h.stored n b hold
        · have hsent : receive s.server.cmdMsg.size chunks [] <+: _ :=
            (prefix_receive chunks []).trans hchunks
          exact Or.inr ⟨filename,file,sends,buffer,hown.1,hown.2,hsent,fun hwhole =>
            hsent.trans (sendLoop_begins hwhole (Nat.zero_add _))⟩
      · exact (hkept n b hb).imp_right Or.inr
  | refused filename file port hcl =>
    exact ⟨⟨h.phase.refused ⟨_,_,_,hcl⟩,plain_of_none rfl,trivial,h.stored⟩,
      fun n b hb => Or.inl hb⟩

def oneFile : Name → Option Bytes := fun n => if n = [97] then some [1,2,3] else none

end Runs

end NetworkLab.Lab2
