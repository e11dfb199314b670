import NetworkLab.Lab2.System
set_option autoImplicit false

/-! What the server can do between two calls of `recvfrom`. -/

namespace NetworkLab.Lab2
open Function

def Server.AtLoop (s : Server) : Prop := s.serverState = .waiting ∧ s.place = .loop

/-- Files are removed or renamed, and only `agreed` ones are replaced. -/
structure Moves (agreed : List Name) (d d' : Disk) : Prop where
  kept : ∀ n b, d n = some b → d' n = some b ∨ d' n = none ∨ n ∈ agreed
  found : ∀ n b, d' n = some b → ∃ m, d m = some b

section Moves
variable {agreed : List Name} {d : Disk}

theorem Moves.refl : Moves agreed d d := ⟨fun _ _ h => Or.inl h,fun n _ h => ⟨n,h⟩⟩

theorem Moves.mono {agreed' : List Name} {d' : Disk} (h : Moves agreed d d')
    (hsub : agreed ⊆ agreed') : Moves agreed' d d' :=
  ⟨fun n b hb => (h.kept n b hb).imp_right (Or.imp_right fun hn => hsub hn),h.found⟩

theorem moves_remove (n : Name) : Moves agreed d (update d n none) := by
  constructor
  · intro m b hb
    by_cases he : m = n
    · exact Or.inr (Or.inl (by rw [he,update_self]))
    · exact Or.inl (by rwa [update_of_ne he])
  · intro m b hb
    by_cases he : m = n
    · rw [he,update_self] at hb
      cases hb
    · exact ⟨m,by rwa [update_of_ne he] at hb⟩

/-- The file `old` goes to a name that no file has, or that may be replaced. -/
theorem moves_rename {d' : Disk} {old new : Name} {file : Bytes} (hold : d old = some file)
    (hd' : ∀ n, n ≠ new → d' n = d n) (hnew : d new = none ∨ new ∈ agreed) :
    Moves agreed d (update (update d' old none) new (some file)) := by
  constructor
  · intro n b hb
    by_cases he : n = new
    · subst he
      rcases hnew with hnew | hnew
      · rw [hnew] at hb
        cases hb
      · exact Or.inr (Or.inr hnew)
    · rw [update_of_ne he]
      by_cases ho : n = old
      · exact Or.inr (Or.inl (by rw [ho,update_self]))
      · exact Or.inl (by rw [update_of_ne ho,hd' n he,hb])
  · intro n b hb
    by_cases he : n = new
    · rw [he,update_self] at hb
      exact ⟨old,hold.trans hb⟩
    · rw [update_of_ne he] at hb
      by_cases ho : n = old
      · rw [ho,update_self] at hb
        cases hb
      · rw [update_of_ne ho,hd' n he] at hb
        exact ⟨n,hb⟩

end Moves

/-- One command in the loop, with what the server sends. -/
inductive Dispatched (P : Platform) (s : Server) : Server × List Datagram → Prop where
  | silent (t : Server) : t.AtLoop → t.disk = s.disk → Dispatched P s (t,[])
  | listed (t : Server) (d : Bytes) : s.cmdMsg.cmd = .ls → t.AtLoop → t.disk = s.disk →
      Dispatched P s (t,[.data d])
  | existing (t : Server) (m : CmdMsg) : s.cmdMsg.cmd = .send → m.cmd = .fileExists →
      t.AtLoop → t.disk = s.disk → Dispatched P s (t,[.cmd m])
  | fileData (t : Server) : s.cmdMsg.cmd = .send → s.cmdMsg.size ≤ P.dataBufLen →
      t.place = .fileData → t.disk = s.disk → Dispatched P s (t,[])
  | accepting (t : Server) (m : CmdMsg) (overwriting : Bool) :
      (s.cmdMsg.cmd = .send ∧ overwriting = false ∧ s.disk s.cmdMsg.filename = none ∨
        s.cmdMsg.cmd = .overwrite ∧ s.cmdMsg.error = 0 ∧ overwriting = true ∧
          t.serverState = .waiting) →
      P.dataBufLen < s.cmdMsg.size → m.cmd = .ack → t.place = .accepting overwriting →
      t.cmdMsg = s.cmdMsg → t.disk = s.disk → Dispatched P s (t,[.cmd m])
  | acked (t : Server) (m : CmdMsg) :
      (s.cmdMsg.cmd = .remove ∨ s.cmdMsg.cmd = .rename ∨ s.cmdMsg.cmd = .overwrite ∧
        (s.cmdMsg.error ≠ 0 ∨ s.cmdMsg.size ≤ P.dataBufLen)) →
      m.cmd = .ack → t.AtLoop → Moves [] s.disk t.disk → Dispatched P s (t,[.cmd m])
  | newName (t : Server) : s.cmdMsg.cmd = .rename → t.place = .newName → t.disk = s.disk →
      Dispatched P s (t,[])
  | ended (t : Server) : t.Over → t.disk = s.disk → Dispatched P s (t,[])

section Dispatch
variable {P : Platform} {listens : Bool} {s : Server}

theorem process_waiting (h : s.serverState = .waiting) :
    process P listens s = ({ s with place := .loop },[]) := by
  simp [process,h]

theorem overwrite_dispatched (h : s.AtLoop) (hc : s.cmdMsg.cmd = .overwrite) :
    Dispatched P s (overwrite P listens s) := by
  unfold overwrite
  by_cases herr : s.cmdMsg.error = 0
  · rw [if_pos herr]
    by_cases hname : s.cmdMsg.filename = []
    · rw [if_pos hname,process_waiting rfl]
      exact .silent _ ⟨rfl,rfl⟩ rfl
    · rw [if_neg hname]
      by_cases hsize : P.dataBufLen < s.cmdMsg.size
      · rw [if_pos hsize]
        cases listens with
        | false =>
          rw [if_neg Bool.false_ne_true,process_waiting h.1]
          exact .silent _ ⟨h.1,rfl⟩ rfl
        | true => exact .accepting _ _ true (Or.inr ⟨hc,herr,rfl,h.1⟩) hsize rfl rfl rfl rfl
      · rw [if_neg hsize,answerAndProcess,process_waiting (s := s.answer .ack 0) h.1]
        exact .acked _ _ (Or.inr (Or.inr ⟨hc,Or.inr (Nat.le_of_not_lt hsize)⟩)) rfl ⟨h.1,rfl⟩ .refl
  · rw [if_neg herr,answerAndProcess,process_waiting (s := s.answer .ack 2) h.1]
    exact .acked _ _ (Or.inr (Or.inr ⟨hc,Or.inl herr⟩)) rfl ⟨h.1,rfl⟩ .refl

theorem processSend_dispatched (hc : s.cmdMsg.cmd = .send) :
    Dispatched P s (processSend P listens { s with serverState := .processSend }) := by
  unfold processSend
  cases hd : s.disk s.cmdMsg.filename with
  | some file =>
    simp only
    exact .existing _ _ hc rfl ⟨rfl,rfl⟩ rfl
  | none =>
    simp only
    by_cases hsize : s.cmdMsg.size ≤ P.dataBufLen
    · rw [if_pos hsize]
      exact .fileData _ hc hsize rfl rfl
    · rw [if_neg hsize]
      cases listens with
      | false => exact .silent _ ⟨rfl,rfl⟩ rfl
      | true =>
        exact .accepting _ _ false (Or.inl ⟨hc,rfl,hd⟩) (Nat.lt_of_not_le hsize) rfl rfl rfl rfl

theorem processRemove_dispatched (hc : s.cmdMsg.cmd = .remove) :
    Dispatched P s (processRemove P { s with serverState := .processRemove }) := by
  unfold processRemove
  cases hd : s.disk s.cmdMsg.filename with
  | none =>
    simp only
    exact .acked _ _ (Or.inl hc) rfl ⟨rfl,rfl⟩ .refl
  | some file =>
    simp only
    split
    · exact .acked _ _ (Or.inl hc) rfl ⟨rfl,rfl⟩ (moves_remove _)
    · exact .acked _ _ (Or.inl hc) rfl ⟨rfl,rfl⟩ .refl

theorem processRename_dispatched (hc : s.cmdMsg.cmd = .rename) :
    Dispatched P s (processRename { s with serverState := .processRename }) := by
  unfold processRename
  cases hd : s.disk s.cmdMsg.filename with
  | none =>
    simp only
    exact .acked _ _ (Or.inr (Or.inl hc)) rfl ⟨rfl,rfl⟩ .refl
  | some file =>
    simp only
    exact .newName _ hc rfl rfl

/-- The inversion lemma of the loop. -/
theorem dispatch_dispatched (h : s.AtLoop) : Dispatched P s (dispatch P listens s) := by
  unfold dispatch
  cases hc : s.cmdMsg.cmd with
  | ls => exact .listed _ _ hc ⟨rfl,rfl⟩ rfl
  | send => exact processSend_dispatched hc
  | remove => exact processRemove_dispatched hc
  | rename => exact processRename_dispatched hc
  | shutdown => exact .ended _ (Or.inl rfl) rfl
  | overwrite => exact overwrite_dispatched h hc
  | get => exact .silent _ ⟨rfl,rfl⟩ rfl
  | ack => exact .silent _ ⟨rfl,rfl⟩ rfl
  | ackPort => exact .silent _ ⟨rfl,rfl⟩ rfl
  | fileExists => exact .silent _ ⟨rfl,rfl⟩ rfl
  | other value =>
    cases value with
    | zero => exact .silent _ ⟨rfl,rfl⟩ rfl
    | succ value => exact .ended _ (Or.inr rfl) rfl

theorem dispatch_ignored (h : Ignored s.cmdMsg.cmd) :
    dispatch P listens s = ({ s with serverState := .waiting, place := .loop },[]) ∨
      dispatch P listens s = ({ s with place := .undefined },[]) := by
  unfold dispatch
  revert h
  cases s.cmdMsg.cmd with
  | other value =>
    cases value with
    | zero => exact fun _ => Or.inl rfl
    | succ value => exact fun _ => Or.inr rfl
  | get => exact fun _ => Or.inl rfl
  | ack => exact fun _ => Or.inl rfl
  | ackPort => exact fun _ => Or.inl rfl
  | fileExists => exact fun _ => Or.inl rfl
  | _ => exact fun h => absurd h id

end Dispatch

section Receive
variable {P : Platform} {s : Server}

/-- The answer goes out, and the server is back in the loop. -/
theorem renameFile_moves {d : Disk} {agreed : List Name} {new : Name}
    (hd : ∀ n, n ≠ new → s.disk n = d n) (hsub : s.disk new = d new ∨ s.disk new = none)
    (hnew : d new = none ∨ new ∈ agreed) :
    ∃ t m, renameFile P s new = (t,[.cmd m]) ∧ t.AtLoop ∧ m.cmd = .ack ∧ Moves agreed d t.disk := by
  have hsame : Moves agreed d s.disk := by
    constructor
    · intro n b hb
      by_cases he : n = new
      · subst he
        rcases hsub with hs | hs
        · exact Or.inl (hs.trans hb)
        · exact Or.inr (Or.inl hs)
      · exact Or.inl ((hd n he).trans hb)
    · intro n b hb
      by_cases he : n = new
      · subst he
        rcases hsub with hs | hs
        · exact ⟨n,hs.symm.trans hb⟩
        · rw [hs] at hb
          cases hb
      · exact ⟨n,(hd n he).symm.trans hb⟩
  unfold renameFile
  cases hold : s.disk s.cmdMsg.filename with
  | none => exact ⟨_,_,rfl,⟨rfl,rfl⟩,rfl,hsame⟩
  | some file =>
    simp only
    split
    · have hold' : d s.cmdMsg.filename = some file := by
        by_cases he : s.cmdMsg.filename = new
        · rw [he] at hold ⊢
          rcases hsub with hs | hs
          · exact hs.symm.trans hold
          · rw [hs] at hold
            cases hold
        · exact (hd _ he).symm.trans hold
      exact ⟨_,_,rfl,⟨rfl,rfl⟩,rfl,moves_rename hold' hd hnew⟩
    · exact ⟨_,_,rfl,⟨rfl,rfl⟩,rfl,hsame⟩

/-- A new name that is there: the server renames, or asks. -/
theorem readNewName_cases (d : Bytes) :
    (∃ t m, readNewName P s (some (.data d)) = (t,[.cmd m]) ∧ t.AtLoop ∧ m.cmd = .ack ∧
      Moves [] s.disk t.disk) ∨
    ∃ t m, readNewName P s (some (.data d)) = (t,[.cmd m]) ∧ m.cmd = .fileExists ∧
      t.place = .confirm (cString d) ∧ t.disk = s.disk := by
  simp only [readNewName,Platform.dataOf]
  cases hnew : s.disk (cString d) with
  | some file => exact Or.inr ⟨_,_,rfl,rfl,rfl,rfl⟩
  | none =>
    exact Or.inl (renameFile_moves (s := { s with dataMsg := d }) (d := s.disk)
      (fun _ _ => rfl) (Or.inl rfl) (Or.inl hnew))

/-- An answer that is there: the server renames only if it agrees. -/
theorem readConfirmation_moves {agreed : List Name} {new : Name} (stack : CmdMsg) {m : CmdMsg}
    (hagreed : m.error = 0 → new ∈ agreed) :
    ∃ t a, readConfirmation P s new stack (some (.cmd m)) = (t,[.cmd a]) ∧ t.AtLoop ∧
      a.cmd = .ack ∧ Moves agreed s.disk t.disk := by
  change ∃ t a, (if m.cmd ≠ .overwrite ∨ m.error ≠ 0 then (s.answer .ack 2).finish
    else renameFile P { s with disk := if P.removes new then update s.disk new none else s.disk }
      new) = (t,[.cmd a]) ∧ _
  by_cases hno : m.cmd ≠ .overwrite ∨ m.error ≠ 0
  · rw [if_pos hno]
    exact ⟨_,_,rfl,⟨rfl,rfl⟩,rfl,.refl⟩
  · have herr : m.error = 0 := by
      by_contra hne
      exact hno (Or.inr hne)
    rw [if_neg hno]
    refine renameFile_moves (d := s.disk) (fun n hn => ?_) ?_ (Or.inr (hagreed herr))
    · simp only
      split
      · exact update_of_ne hn _ _
      · rfl
    · simp only
      split
      · exact Or.inr (update_self _ _ _)
      · exact Or.inl rfl

/-- The file that came over TCP is the only new one. -/
theorem transfer_cases (P : Platform) (listens : Bool) (chunks : List Bytes) {overwriting : Bool}
    {agreed : List Name}
    (hstate : overwriting = true → s.serverState = .waiting)
    (hname : s.disk s.cmdMsg.filename = none ∨ s.cmdMsg.filename ∈ agreed) :
    ∃ t out, s.transfer P listens overwriting chunks = (t,out) ∧ t.AtLoop ∧
      (out = [] ∨ ∃ m, out = [.cmd m]) ∧
      (∀ n b, s.disk n = some b → t.disk n = some b ∨ n ∈ agreed) ∧
      ∀ n b, t.disk n = some b →
        s.disk n = some b ∨ b = receive s.cmdMsg.size chunks [] := by
  have hkept : ∀ n b, s.disk n = some b →
      update s.disk s.cmdMsg.filename (some (receive s.cmdMsg.size chunks [])) n = some b ∨
        n ∈ agreed := by
    intro n b hb
    by_cases he : n = s.cmdMsg.filename
    · subst he
      rcases hname with hn | hn
      · rw [hn] at hb
        cases hb
      · exact Or.inr hn
    · exact Or.inl (by rwa [update_of_ne he])
  have hnew : ∀ n b,
      update s.disk s.cmdMsg.filename (some (receive s.cmdMsg.size chunks [])) n = some b →
      s.disk n = some b ∨ b = receive s.cmdMsg.size chunks [] := by
    intro n b hb
    by_cases he : n = s.cmdMsg.filename
    · rw [he,update_self] at hb
      exact Or.inr (Option.some.inj hb).symm
    · rw [update_of_ne he] at hb
      exact Or.inl hb
  unfold Server.transfer
  cases P.creates s.cmdMsg.filename with
  | true =>
    cases overwriting with
    | true =>
      simp only [if_true]
      rw [process_waiting (by exact hstate rfl)]
      exact ⟨_,_,rfl,⟨hstate rfl,rfl⟩,Or.inr ⟨_,rfl⟩,hkept,hnew⟩
    | false => exact ⟨_,_,rfl,⟨rfl,rfl⟩,Or.inr ⟨_,rfl⟩,hkept,hnew⟩
  | false =>
    cases overwriting with
    | true =>
      simp only [if_true,Bool.false_eq_true,if_false]
      rw [process_waiting (hstate rfl)]
      exact ⟨_,_,rfl,⟨hstate rfl,rfl⟩,Or.inl rfl,fun _ _ h => Or.inl h,fun _ _ h => Or.inl h⟩
    | false =>
      exact ⟨_,_,rfl,⟨rfl,rfl⟩,Or.inl rfl,fun _ _ h => Or.inl h,fun _ _ h => Or.inl h⟩

end Receive

end NetworkLab.Lab2
