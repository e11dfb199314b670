import NetworkLab.Backup.Events
import Mathlib.Data.List.Basic
set_option autoImplicit false

/-! Which files a handler of the server changes: the names it lets pass, and the one way
around them, the name in an overwrite confirmation. -/

namespace NetworkLab.Backup.Server
open Interaction

/-- The paths that a call opens for writing, deletes or renames. -/
def touches : Sys → List Bytes
  | .ofstream path => [path]
  | .write path _ => [path]
  | .deleteFile path => [path]
  | .renameFile oldPath newPath => [oldPath,newPath]
  | _ => []

/-- Every path that is touched joins an accepted name, and for a SEND it joins the name
in the command. -/
def Confined (config : ServerConfig) (cmd : CmdMsg) (tr : Trace) : Prop :=
  (∀ ev ∈ tr, ∀ path ∈ touches ev.1, ∃ n, isValidFilename n = true ∧
    ⟨.accepted n,()⟩ ∈ tr ∧ path = joinPath config.backupDir n) ∧
  (cmd.getCommand = some .SEND → ∀ beyond rest, tr = ⟨.cstring 128 cmd.tail,beyond⟩ :: rest →
    ∀ ev ∈ tr, ∀ path ∈ touches ev.1,
      path = joinPath config.backupDir (cString (cmd.tail ++ beyond)))

/-- The content of a file is on its way: a datagram that is not empty, or a connection. -/
def Arrives (tr : Trace) : Prop :=
  (∃ sender datagram, datagram ≠ [] ∧ got 3000 sender datagram ∈ tr) ∨ ⟨.accept,true⟩ ∈ tr

/-- A SEND whose overwrite is confirmed under a name that joins to another path, and
whose content arrives. -/
def Redirected (config : ServerConfig) (cmd : CmdMsg) (tr : Trace) : Prop :=
  cmd.getCommand = some .SEND ∧ ∃ beyond pre sender confirm beyond' post,
    tr = ⟨.cstring 128 cmd.tail,beyond⟩ :: (pre ++ got 137 sender confirm ::
      ⟨.cstring 128 (CmdMsg.received confirm).tail,beyond'⟩ :: post) ∧
    Confirms (CmdMsg.received confirm) ∧
    joinPath config.backupDir (cString ((CmdMsg.received confirm).tail ++ beyond')) ≠
      joinPath config.backupDir (cString (cmd.tail ++ beyond)) ∧ Arrives post

section Confinement
variable {config : ServerConfig} {cmd : CmdMsg} {m m' : Members} {tr : Trace} {e : ErrorCode}
variable {filepath : Bytes} {filesize : Nat}

theorem FileEvent.touches {ev : Event Res} (h : FileEvent filepath ev) :
    ∀ path ∈ touches ev.1, path = filepath := by
  cases h <;> simp [Server.touches]

theorem FileEvent.not_got {ev : Event Res} (h : FileEvent filepath ev) (sender : Addr)
    (datagram : Bytes) : ev ≠ got 137 sender datagram := by
  rintro rfl
  cases h

/-- The file is opened exactly when its content arrives. -/
theorem AnyFile.touched_iff (h : AnyFile filepath filesize m tr e m') :
    (∃ ev ∈ tr, filepath ∈ Server.touches ev.1) ↔ Arrives tr := by
  rcases h with ⟨-,h⟩ | ⟨-,h⟩
  · cases h with
    | noData hr =>
      cases hr <;> simp [Server.touches,Arrives,got,sent]
    | noFile hd => simp [Server.touches,Arrives,got,sent,hd]
    | stored stored hd => simp [Server.touches,Arrives,got,sent,hd,counted]
  · cases h with
    | noSocket => simp [Server.touches,Arrives,got]
    | noBind => simp [Server.touches,Arrives,got]
    | noListen => simp [Server.touches,Arrives,got]
    | notSent => simp [Server.touches,Arrives,got,sent,listening]
    | noAccept => simp [Server.touches,Arrives,got,sent,listening]
    | noFile => simp [Server.touches,Arrives,listening]
    | finished ok hc => simp [Server.touches,Arrives,listening]

/-- All paths that are touched join one accepted name, the one in the command. -/
theorem confined_of_name {beyond : Bytes} {rest : Trace}
    (htr : tr = ⟨.cstring 128 cmd.tail,beyond⟩ :: rest)
    (hv : isValidFilename (cString (cmd.tail ++ beyond)) = true)
    (hacc : ⟨.accepted (cString (cmd.tail ++ beyond)),()⟩ ∈ tr)
    (ht : ∀ ev ∈ tr, ∀ path ∈ touches ev.1,
      path = joinPath config.backupDir (cString (cmd.tail ++ beyond))) :
    Confined config cmd tr := by
  refine ⟨fun ev hev path hp => ⟨_,hv,hacc,ht ev hev path hp⟩,fun _ beyond' rest' he => ?_⟩
  rw [htr] at he
  obtain ⟨he,-⟩ := List.cons_eq_cons.mp he
  obtain rfl : beyond = beyond' := by simpa using he
  exact ht

theorem confined_of_untouched (h : ∀ ev ∈ tr, touches ev.1 = []) : Confined config cmd tr := by
  have hno : ∀ ev ∈ tr, ∀ path ∈ touches ev.1, False := by
    intro ev hev path hp
    rw [h ev hev] at hp
    exact List.not_mem_nil hp
  exact ⟨fun ev hev path hp => (hno ev hev path hp).elim,
    fun _ _ _ _ ev hev path hp => (hno ev hev path hp).elim⟩

theorem not_redirected (h : ∀ sender confirm, got 137 sender confirm ∈ tr →
    ¬Confirms (CmdMsg.received confirm)) : ¬Redirected config cmd tr := by
  rintro ⟨-,beyond,pre,sender,confirm,beyond',post,rfl,hc,-⟩
  exact h sender confirm (by simp) hc

theorem not_confirms_nil : ¬Confirms (CmdMsg.received []) := by
  decide +kernel

/-- In a confirmed SEND the parts of the trace are where `Redirected` looks for them. -/
theorem redirected_confirmed (beyond beyond' : Bytes) (pre : Trace) (sender : Addr)
    {confirm : Bytes} {post : Trace}
    (hcmd : cmd.getCommand = some .SEND) (hc : Confirms (CmdMsg.received confirm))
    (hpre : ∀ sender d, got 137 sender d ∉ pre) (hpost : ∀ sender d, got 137 sender d ∉ post) :
    Redirected config cmd (⟨.cstring 128 cmd.tail,beyond⟩ :: (pre ++ got 137 sender confirm ::
      ⟨.cstring 128 (CmdMsg.received confirm).tail,beyond'⟩ :: post)) ↔
    joinPath config.backupDir (cString ((CmdMsg.received confirm).tail ++ beyond')) ≠
      joinPath config.backupDir (cString (cmd.tail ++ beyond)) ∧ Arrives post := by
  constructor
  · rintro ⟨-,b,pre',sender',confirm',b',post',he,-,hne,ha⟩
    obtain ⟨hb,he₁⟩ := List.cons_eq_cons.mp he
    obtain rfl : beyond = b := by simpa using hb
    have hnotin : got 137 sender' confirm' ∉
        (⟨.cstring 128 (CmdMsg.received confirm).tail,beyond'⟩ :: post : Trace) := by
      simp [got] at hpost ⊢
      exact hpost _ _
    obtain ⟨-,hg,hrest⟩ := (List.append_cons_inj_of_notMem (hpre _ _) hnotin).mp he₁
    obtain ⟨rfl,rfl⟩ : sender = sender' ∧ confirm = confirm' := by simpa [got] using hg
    obtain ⟨hb',rfl⟩ := List.cons_eq_cons.mp hrest
    obtain rfl : beyond' = b' := by simpa using hb'
    exact ⟨hne,ha⟩
  · rintro ⟨hne,ha⟩
    exact ⟨hcmd,beyond,pre,sender,confirm,beyond',post,rfl,hc,hne,ha⟩

theorem Send.confined_iff (h : Send config cmd m tr e m') (hcmd : cmd.getCommand = some .SEND)
    (b : Bytes) : Confined config cmd (tr ++ [⟨.cstring 128 cmd.tail,b⟩]) ↔
      ¬Redirected config cmd (tr ++ [⟨.cstring 128 cmd.tail,b⟩]) := by
  cases h with
  | invalid hr hv =>
    cases hr with | read beyond =>
    refine iff_of_true (confined_of_untouched ?_) (not_redirected ?_)
    · simp [sent,touches]
    · simp [sent,got]
  | new hr hv hf =>
    cases hr with | read beyond =>
    have hev := hf.fileEvent
    refine iff_of_true (confined_of_name (by simp; rfl) hv (by simp) ?_) (not_redirected ?_)
    · simpa [touches,or_imp,forall_and] using fun ev hmem => (hev ev hmem).touches
    · intro sender d hmem
      simp [got] at hmem
      exact absurd rfl ((hev _ hmem).not_got sender d)
  | existing hr hv hs =>
    cases hr with | read beyond =>
    cases hs with
    | notSent =>
      refine iff_of_true (confined_of_untouched ?_) (not_redirected ?_)
      · simp [sent,touches]
      · simp [sent,got]
    | noConfirm hn =>
      cases hn with
      | again =>
        refine iff_of_true (confined_of_untouched ?_) (not_redirected ?_)
        · simp [sent,touches]
        · simp [sent,got]
      | empty sender =>
        refine iff_of_true (confined_of_untouched ?_) (not_redirected ?_)
        · simp [sent,got,touches]
        · simp [sent,got,not_confirms_nil]
    | declined hd hc =>
      refine iff_of_true (confined_of_untouched ?_) (not_redirected ?_)
      · simp [sent,got,touches]
      · simp [sent,got,hc]
    | @confirmed sender confirm name trn tr e m' hd hc hr' hf =>
      cases hr' with | read beyond' =>
      have hev := hf.fileEvent
      have hno : ∀ sender d, got 137 sender d ∉ tr ++ [⟨.cstring 128 cmd.tail,b⟩] := by
        intro sender d hmem
        simp [got] at hmem
        exact (hev _ hmem).not_got sender d rfl
      have hred : Redirected config cmd _ ↔ _ := redirected_confirmed beyond beyond'
        [⟨.accepted (cString (cmd.tail ++ beyond)),()⟩,
          ⟨.fileExists (joinPath config.backupDir (cString (cmd.tail ++ beyond))),true⟩,
          sent m { reply .FILE_EXISTS 0 with size := cmd.size }.encode true]
        sender hcmd hc (by simp [got,sent]) hno
      have harr : Arrives (tr ++ [⟨.cstring 128 cmd.tail,b⟩]) ↔ Arrives tr := by
        simp [Arrives,got]
      rw [harr,← hf.touched_iff] at hred
      simp only [List.cons_append,List.nil_append] at hred ⊢
      rw [hred]
      constructor
      · rintro ⟨-,hs⟩ ⟨hne,ev,hmem,hp⟩
        exact hne (hs hcmd beyond _ rfl ev (by simp [hmem]) _ hp)
      · intro hno
        have hsame : ∀ ev ∈ tr, ∀ path ∈ touches ev.1,
            path = joinPath config.backupDir (cString (cmd.tail ++ beyond)) := by
          intro ev hmem path hp
          obtain rfl := (hev ev hmem).touches path hp
          by_contra hne
          exact hno ⟨hne,ev,hmem,hp⟩
        exact confined_of_name rfl hv (by simp) 
          (by simpa [touches,sent,got,or_imp,forall_and] using hsame)

theorem not_redirected_of_command (h : cmd.getCommand ≠ some .SEND) :
    ¬Redirected config cmd tr := fun hr => h hr.1

/-- Other commands than SEND only have to touch accepted names. -/
theorem confined_of_accepted (hcmd : cmd.getCommand ≠ some .SEND)
    (h : ∀ ev ∈ tr, ∀ path ∈ touches ev.1, ∃ n, isValidFilename n = true ∧
      ⟨.accepted n,()⟩ ∈ tr ∧ path = joinPath config.backupDir n) : Confined config cmd tr :=
  ⟨h,fun hc => absurd hc hcmd⟩

theorem Remove.confined (h : Remove config cmd m tr e m')
    (hcmd : cmd.getCommand = some .REMOVE) (b : Bytes) :
    Confined config cmd (tr ++ [⟨.cstring 128 cmd.tail,b⟩]) := by
  have hne : cmd.getCommand ≠ some .SEND := by simp [hcmd]
  cases h with
  | invalid hr hv =>
    cases hr
    exact confined_of_untouched (by simp [sent,touches])
  | missing hr hv =>
    cases hr
    exact confined_of_untouched (by simp [sent,touches])
  | deleted hr hv =>
    cases hr with | read beyond =>
    exact confined_of_accepted hne (by simp [touches,sent,hv])

/-- A file is renamed from one accepted name to another. -/
theorem NewName.touches {oldFilepath : Bytes} (h : NewName config oldFilepath m tr e m') :
    ∀ ev ∈ tr, ∀ path ∈ Server.touches ev.1, path = oldFilepath ∨
      ∃ n, isValidFilename n = true ∧ ⟨.accepted n,()⟩ ∈ tr ∧
        path = joinPath config.backupDir n := by
  cases h with
  | noName hn => cases hn <;> simp [Server.touches,got]
  | invalid _ hr _ =>
    cases hr
    simp [Server.touches,got,sent]
  | fresh _ _ _ _ hr hv =>
    cases hr
    simp [Server.touches,got,sent,renamed,hv]
  | noConfirm _ _ _ hr _ hn =>
    cases hr
    cases hn <;> simp [Server.touches,got,sent]
  | declined _ _ _ _ _ hr _ _ _ =>
    cases hr
    simp [Server.touches,got,sent]
  | confirmed _ _ _ _ _ _ _ hr hv _ _ =>
    cases hr
    simp [Server.touches,got,sent,renamed,hv]

theorem NewName.touches_accepted {name : Bytes}
    (h : NewName config (joinPath config.backupDir name) m tr e m')
    (hv : isValidFilename name = true) :
    ∀ ev ∈ tr, ∀ path ∈ Server.touches ev.1, ∃ n, isValidFilename n = true ∧
      (n = name ∨ ⟨.accepted n,()⟩ ∈ tr) ∧ path = joinPath config.backupDir n := by
  intro ev hmem path hp
  rcases h.touches ev hmem path hp with rfl | ⟨n,hn,hacc,rfl⟩
  · exact ⟨name,hv,Or.inl rfl,rfl⟩
  · exact ⟨n,hn,Or.inr hacc,rfl⟩

theorem Rename.confined (h : Rename config cmd m tr e m')
    (hcmd : cmd.getCommand = some .RENAME) (b : Bytes) :
    Confined config cmd (tr ++ [⟨.cstring 128 cmd.tail,b⟩]) := by
  have hne : cmd.getCommand ≠ some .SEND := by simp [hcmd]
  cases h with
  | invalid hr hv =>
    cases hr
    exact confined_of_untouched (by simp [sent,touches])
  | missing hr hv =>
    cases hr
    exact confined_of_untouched (by simp [sent,touches])
  | handshake ok hr hv hs hn =>
    cases hr with | read beyond =>
    exact confined_of_accepted hne
      (by simpa [touches,sent,or_imp,forall_and] using hn.touches_accepted hv)
  | direct hr hv hs hn =>
    cases hr with | read beyond =>
    exact confined_of_accepted hne (by simpa [touches,or_imp,forall_and] using hn.touches_accepted hv)

theorem Processed.confined_iff (h : Processed config cmd m tr e m') :
    Confined config cmd tr ↔ ¬Redirected config cmd tr := by
  obtain ⟨h,⟨b⟩⟩ := h
  cases h with
  | ls files data ok hcmd =>
    refine iff_of_true (confined_of_untouched ?_) (not_redirected_of_command (by simp [hcmd]))
    simp [sent,touches]
  | send hcmd h => exact h.confined_iff hcmd b
  | remove hcmd h =>
    exact iff_of_true (h.confined hcmd b) (not_redirected_of_command (by simp [hcmd]))
  | rename hcmd h =>
    exact iff_of_true (h.confined hcmd b) (not_redirected_of_command (by simp [hcmd]))
  | shutdown ok hcmd =>
    refine iff_of_true (confined_of_untouched ?_) (not_redirected_of_command (by simp [hcmd]))
    simp [sent,touches]
  | overwrite hcmd =>
    refine iff_of_true (confined_of_untouched ?_) (not_redirected_of_command (by simp [hcmd]))
    simp [touches]
  | unknown hcmd =>
    refine iff_of_true (confined_of_untouched ?_) (not_redirected ?_)
    · simp [touches]
    · simp [got]

/-- In every run of the server a call stays with the names it accepted exactly when no
confirmation redirects it. -/
theorem server_confined {calls : List ServerCall} (h : ServerRun config m tr calls m') :
    ∀ c ∈ calls, Confined config c.cmd c.trace ↔ ¬Redirected config c.cmd c.trace :=
  h.forall_calls fun _ hc => hc.confined_iff

end Confinement

/-- The file `a` exists, and the confirmation names `../x`. -/
def redirectedTrace : Trace :=
  let m := (init sampleConfig).serving sampleAddr
  let cmd := sampleCmd .SEND ['a'] 0
  let confirm := sampleCmd .OVERWRITE ['.','.','/','x'] 0
  let path := ascii ['b','/','.','.','/','x']
  [⟨.cstring 128 cmd.tail,[]⟩,⟨.accepted (ascii ['a']),()⟩,
    ⟨.fileExists (ascii ['b','/','a']),true⟩,sent m (reply .FILE_EXISTS 0).encode true,
    got 137 sampleAddr confirm.encode,⟨.cstring 128 confirm.tail,[]⟩,
    sent m (reply .ACK 0).encode true,got 3000 sampleAddr [1],⟨.ofstream path,true⟩,
    ⟨.write path [],0⟩,⟨.metric (.recordBytesReceived 0),()⟩,⟨.metric .recordSendSession,()⟩,
    sent m (reply .ACK 0).encode true,⟨.cstring 128 cmd.tail,[]⟩]

theorem redirected_run : ∃ e m, replay (processCommand sampleConfig (sampleCmd .SEND ['a'] 0)
    ((init sampleConfig).serving sampleAddr)) redirectedTrace = some (e,m) :=
  replay_of_isSome (by decide +kernel)

theorem redirected_redirectedTrace :
    Redirected sampleConfig (sampleCmd .SEND ['a'] 0) redirectedTrace := by
  refine ⟨by decide +kernel,[],(redirectedTrace.drop 1).take 3,sampleAddr,
    (sampleCmd .OVERWRITE ['.','.','/','x'] 0).encode,[],redirectedTrace.drop 6,?_,?_,?_,?_⟩
  · rw [CmdMsg.received_encode]
    rfl
  · rw [CmdMsg.received_encode]
    decide +kernel
  · rw [CmdMsg.received_encode]
    decide +kernel
  · exact Or.inl ⟨sampleAddr,[1],by decide,by simp [redirectedTrace]⟩

/-- The server creates `b/../x`, which is in no backup directory. -/
theorem not_server_confined_always :
    ¬∀ (config : ServerConfig) (tr : Trace) (calls : List ServerCall) (m : Members),
      ServerRun config (init config) tr calls m → ∀ c ∈ calls, Confined config c.cmd c.trace := by
  intro hall
  obtain ⟨e,m,h⟩ := redirected_run
  have hc : Confined sampleConfig (sampleCmd .SEND ['a'] 0) redirectedTrace :=
    hall _ _ _ _ (serverRun_single h) _ (List.mem_singleton_self _)
  have hpath := hc.2 (by decide +kernel) [] _ rfl
    ⟨.ofstream (ascii ['b','/','.','.','/','x']),true⟩ (by simp [redirectedTrace]) _
    (List.mem_singleton_self _)
  exact absurd hpath (by decide +kernel)

theorem server_confined_redirectedTrace :
    ¬Confined sampleConfig (sampleCmd .SEND ['a'] 0) redirectedTrace := by
  obtain ⟨e,m,h⟩ := redirected_run
  have hiff : Confined sampleConfig (sampleCmd .SEND ['a'] 0) redirectedTrace ↔ _ :=
    server_confined (serverRun_single h) _ (List.mem_singleton_self _)
  exact fun hc => hiff.mp hc redirected_redirectedTrace

end NetworkLab.Backup.Server
