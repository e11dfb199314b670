import NetworkLab.Backup.Closing
set_option autoImplicit false

/-! Which failures of LS, SEND, REMOVE and RENAME can be seen: by the client in an error
reply, and by the main loop in the code that is returned. -/

namespace NetworkLab.Backup.Server
open Interaction

variable {F : Type} [DecidableEq F] {resolve : Bytes → F} {files : Files F}
variable {config : ServerConfig} {cmd : CmdMsg} {m m' : Members} {tr : Trace} {e : ErrorCode}

/-- The requested operation took effect. -/
def Performed (resolve : Bytes → F) (files : Files F) (config : ServerConfig) (cmd : CmdMsg)
    (tr : Trace) : Prop :=
  let file := fun name => resolve (joinPath config.backupDir name)
  match cmd.getCommand with
  | some .LS => (∃ names, (⟨.listDirectory config.backupDir,some names⟩ : Event Res) ∈ tr) ∧
      ∃ dest datagram, (⟨.sendto dest datagram,true⟩ : Event Res) ∈ tr
  | some .SEND => ∃ name, accepted tr = [name] ∧ (∃ path ∈ opened tr, resolve path = file name) ∧
      Complete (filesAfter resolve files tr) (file name) tr (announcedSize cmd tr)
  | some .REMOVE => ∃ name, accepted tr = [name] ∧ (files (file name)).isSome ∧
      filesAfter resolve files tr (file name) = none
  | some .RENAME => ∃ old new, accepted tr = [old,new] ∧
      (⟨.renameFile (joinPath config.backupDir old) (joinPath config.backupDir new),true⟩ :
        Event Res) ∈ tr ∧
      Moved files (filesAfter resolve files tr) (file old) (file new)
  | _ => True

/-- An acknowledgement with an error is sent. -/
def errs : Event Res → Prop
  | ⟨.sendto _ datagram,true⟩ => ∃ msg : CmdMsg, datagram = msg.encode ∧
      msg.getCommand = some .ACK ∧ msg.error ≠ 0
  | _ => False

def Visible (tr : Trace) (e : ErrorCode) : Prop := (∃ ev ∈ tr, errs ev) ∧ e ≠ .SUCCESS

/-- The content does not come, or the file cannot be opened. -/
def failing : Event Res → Bool
  | ⟨.recvfrom size,none⟩ => size == 3000
  | ⟨.recvfrom size,some (_,datagram)⟩ => size == 3000 && datagram == []
  | ⟨.ofstream _,opened⟩ => !opened
  | _ => false

/-- The next call is a `sendto` that succeeds. -/
def sends : Trace → Bool
  | ⟨.sendto _ _,ok⟩ :: _ => ok
  | _ => false

/-- Right behind such a failure a message is sent. -/
def refused : Trace → Bool
  | [] => false
  | ev :: tr => failing ev && sends tr || refused tr

/-- No error is sent, and there is no such failure. -/
def Calm (tr : Trace) : Prop := ∀ ev ∈ tr, ¬errs ev ∧ failing ev = false

section Calm
variable {pre post : Trace}

@[simp] theorem calm_nil : Calm [] := fun _ h => by cases h

@[simp] theorem calm_cons {ev : Event Res} :
    Calm (ev :: tr) ↔ (¬errs ev ∧ failing ev = false) ∧ Calm tr := List.forall_mem_cons

@[simp] theorem calm_append : Calm (pre ++ post) ↔ Calm pre ∧ Calm post :=
  List.forall_mem_append

@[simp] theorem errs_sent {msg : CmdMsg} {ok : Bool} :
    errs (sent m msg.encode ok) ↔ ok = true ∧ msg.getCommand = some .ACK ∧ msg.error ≠ 0 := by
  cases ok with
  | false => simp [errs,sent]
  | true =>
    simp only [errs,sent,true_and]
    constructor
    · rintro ⟨msg',he,h⟩
      have : msg = msg' := by rw [← CmdMsg.decode_encode msg,he,CmdMsg.decode_encode]
      rwa [this]
    · exact fun h => ⟨msg,rfl,h⟩

/-- A message without an error is calm, whether it is sent or not. -/
theorem calm_sent {msg : CmdMsg} {ok : Bool} (h : msg.getCommand = some .ACK → msg.error = 0) :
    ¬errs (sent m msg.encode ok) ∧ failing (sent m msg.encode ok) = false :=
  ⟨fun he => (errs_sent.mp he).2.2 (h (errs_sent.mp he).2.1),rfl⟩

theorem calm_got {size : Nat} {sender : Addr} {datagram : Bytes}
    (h : size ≠ 3000 ∨ datagram ≠ []) :
    ¬errs (got size sender datagram) ∧ failing (got size sender datagram) = false := by
  refine ⟨id,?_⟩
  rcases h with h | h <;> simp [failing,got,h]

theorem refused_append (h : Calm pre) : refused (pre ++ tr) = refused tr := by
  induction pre with
  | nil => rfl
  | cons ev pre ih =>
    obtain ⟨⟨-,hev⟩,hpre⟩ := calm_cons.mp h
    rw [List.cons_append,refused,hev,ih hpre]
    rfl

theorem visible_append (h : Calm pre) : Visible (pre ++ tr) e ↔ Visible tr e := by
  unfold Visible
  refine and_congr_left fun _ => ?_
  constructor
  · rintro ⟨ev,hev,he⟩
    rcases List.mem_append.mp hev with hp | ht
    · exact absurd he (h ev hp).1
    · exact ⟨ev,ht,he⟩
  · rintro ⟨ev,hev,he⟩
    exact ⟨ev,List.mem_append_right _ hev,he⟩

theorem visible_iff_append (h : Calm pre) (hv : Visible tr e ↔ refused tr = true) :
    Visible (pre ++ tr) e ↔ refused (pre ++ tr) = true := by
  rw [visible_append h,refused_append h]
  exact hv

theorem Calm.not_refused (h : Calm tr) : refused tr = false := by
  have hr : refused (tr ++ []) = refused [] := refused_append h
  rwa [List.append_nil] at hr

theorem Calm.not_visible (h : Calm tr) : ¬Visible tr e :=
  fun ⟨⟨ev,hev,he⟩,_⟩ => (h ev hev).1 he

theorem Chunks.calm {filepath : Bytes} {filesize total n : Nat} {good : Bool}
    (h : Chunks filepath filesize good total tr n) : Calm tr := by
  induction h with
  | full _ => exact calm_nil
  | closed _ => simp [errs,failing]
  | stored chunk stored _ _ ih => simp [errs,failing,ih]
  | dropped chunk _ _ ih => simp [errs,failing,ih]

end Calm

/-- What is printed behind a command. -/
structure Logged (post : Trace) : Prop where
  calm : Calm post
  silent : sends post = false

theorem Reads.logged {field : Nat} {memory name : Bytes} (h : Reads field memory tr name) :
    Logged tr := by
  cases h
  exact ⟨by simp [errs,failing],rfl⟩

section Send
variable {filepath : Bytes} {filesize : Nat} {post : Trace}

theorem visible_iff_of_calm (h : Calm tr) (hpost : Logged post) :
    Visible (tr ++ post) e ↔ refused (tr ++ post) = true := by
  have hall := calm_append.mpr ⟨h,hpost.calm⟩
  rw [hall.not_refused]
  exact iff_of_false hall.not_visible (by simp)

/-- A failure, and the error reply right behind it. -/
theorem visible_iff_of_failing (m : Members) (ok : Bool) {r : Event Res} (hr : failing r = true)
    (hr' : ¬errs r) (he : e ≠ .SUCCESS) (hpost : Logged post) :
    Visible ([r,sent m (reply .ACK 1).encode ok] ++ post) e ↔
      refused ([r,sent m (reply .ACK 1).encode ok] ++ post) = true := by
  have hrefused : refused ([r,sent m (reply .ACK 1).encode ok] ++ post) = ok := by
    change (failing r && ok || (false && sends post || refused post)) = ok
    rw [hr,hpost.calm.not_refused,Bool.true_and,Bool.false_and,Bool.or_self,Bool.or_false]
  rw [hrefused]
  constructor
  · rintro ⟨⟨ev,hev,herr⟩,-⟩
    rcases List.mem_append.mp hev with hmem | hmem
    · rcases List.mem_pair.mp hmem with rfl | rfl
      · exact absurd herr hr'
      · exact (errs_sent.mp herr).1
    · exact absurd herr (hpost.calm ev hmem).1
  · rintro rfl
    have hmem : sent m (reply .ACK 1).encode true ∈ [r,sent m (reply .ACK 1).encode true] ++ post :=
      List.mem_append_left _ (by simp)
    exact ⟨⟨_,hmem,errs_sent.mpr ⟨rfl,getCommand_reply,by simp⟩⟩,he⟩

/-- The code behind a last reply is SUCCESS when the reply is sent. -/
theorem not_visible_of_last (m : Members) (msg : CmdMsg) (ok : Bool) (hpost : Logged post) :
    ¬Visible ([sent m msg.encode ok] ++ post) (sendCode ok) := by
  rintro ⟨⟨ev,hev,herr⟩,hcode⟩
  rcases List.mem_append.mp hev with hmem | hmem
  · rw [List.mem_singleton.mp hmem] at herr
    rw [(errs_sent.mp herr).1] at hcode
    exact hcode rfl
  · exact (hpost.calm ev hmem).1 herr

theorem visible_iff_of_last (m : Members) (msg : CmdMsg) (ok : Bool) (hpost : Logged post) :
    Visible ([sent m msg.encode ok] ++ post) (sendCode ok) ↔
      refused ([sent m msg.encode ok] ++ post) = true := by
  refine iff_of_false (not_visible_of_last m msg ok hpost) ?_
  change ¬(false || refused post) = true
  rw [hpost.calm.not_refused]
  simp

/-- Only the two failures of a small file are told to the client and to the main loop. -/
theorem SmallFile.visible_iff (h : SmallFile filepath filesize m tr e m') (hpost : Logged post) :
    Visible (tr ++ post) e ↔ refused (tr ++ post) = true := by
  have hgo : ∀ ok, ¬errs (sent m (reply .ACK 0).encode ok) ∧
      failing (sent m (reply .ACK 0).encode ok) = false := fun ok => calm_sent fun _ => rfl
  cases h with
  | @noData ok ok' r m' hr =>
    have hpre : Calm [sent m (reply .ACK 0).encode ok] := calm_cons.mpr ⟨hgo ok,calm_nil⟩
    have hr₁ : failing r = true := by cases hr <;> rfl
    have hr₂ : ¬errs r := by cases hr <;> exact id
    have hne : ErrorCode.SOCKET_RECV_ERROR ≠ .SUCCESS := by simp
    have hall := visible_iff_append hpre
      (visible_iff_of_failing m' ok' hr₁ hr₂ hne hpost)
    exact hall
  | @noFile ok ok' sender d hd =>
    have hpre : Calm [sent m (reply .ACK 0).encode ok,got 3000 sender d] :=
      calm_cons.mpr ⟨hgo ok,calm_cons.mpr ⟨calm_got (Or.inr hd),calm_nil⟩⟩
    have hr : failing ⟨.ofstream filepath,false⟩ = true := rfl
    have hne : ErrorCode.FILE_OPEN_ERROR ≠ .SUCCESS := by simp
    have hall := visible_iff_append hpre
      (visible_iff_of_failing (m.serving sender) ok' hr id hne hpost)
    exact hall
  | @stored ok ok' sender d stored hd =>
    refine visible_iff_of_calm ?_ hpost
    have hack : ∀ ok, ¬errs (sent (m.serving sender) (reply .ACK 0).encode ok) ∧
        failing (sent (m.serving sender) (reply .ACK 0).encode ok) = false :=
      fun ok => calm_sent fun _ => rfl
    simp only [calm_append,calm_cons,counted,calm_nil,and_true]
    exact ⟨⟨⟨hgo ok,calm_got (Or.inr hd),⟨id,rfl⟩,⟨id,rfl⟩⟩,⟨id,rfl⟩,⟨id,rfl⟩⟩,hack ok'⟩

theorem calm_listening : Calm (listening m) := by
  simp only [listening,calm_cons,calm_nil,and_true]
  exact ⟨⟨id,rfl⟩,⟨id,rfl⟩,⟨id,rfl⟩⟩

theorem LargeFile.visible_iff (h : LargeFile filepath filesize m tr e m') (hpost : Logged post) :
    Visible (tr ++ post) e ↔ refused (tr ++ post) = true := by
  have hack : ∀ ok, ¬errs (sent m (portAck m).encode ok) ∧
      failing (sent m (portAck m).encode ok) = false := fun ok => calm_sent fun _ => rfl
  cases h with
  | noSocket => exact visible_iff_of_calm (calm_cons.mpr ⟨⟨id,rfl⟩,calm_nil⟩) hpost
  | noBind =>
    refine visible_iff_of_calm ?_ hpost
    simp only [calm_cons,calm_nil,and_true]
    exact ⟨⟨id,rfl⟩,id,rfl⟩
  | noListen =>
    refine visible_iff_of_calm ?_ hpost
    simp only [calm_cons,calm_nil,and_true]
    exact ⟨⟨id,rfl⟩,⟨id,rfl⟩,id,rfl⟩
  | notSent =>
    refine visible_iff_of_calm ?_ hpost
    simp only [calm_append,calm_cons,calm_nil,and_true]
    exact ⟨calm_listening,hack false⟩
  | noAccept =>
    refine visible_iff_of_calm ?_ hpost
    simp only [calm_append,calm_cons,calm_nil,and_true]
    exact ⟨calm_listening,hack true,id,rfl⟩
  | noFile =>
    -- the failure is there, but nothing is sent behind it
    have hpre : Calm (listening m ++ [sent m (portAck m).encode true,⟨.accept,true⟩]) := by
      simp only [calm_append,calm_cons,calm_nil,and_true]
      exact ⟨calm_listening,hack true,id,rfl⟩
    have hsplit : listening m ++ [sent m (portAck m).encode true,⟨.accept,true⟩,
          ⟨.ofstream filepath,false⟩] ++ post =
        (listening m ++ [sent m (portAck m).encode true,⟨.accept,true⟩]) ++
          (⟨.ofstream filepath,false⟩ :: post) := by simp
    have hlast : refused (⟨.ofstream filepath,false⟩ :: post) = false := by
      rw [refused,hpost.silent,Bool.and_false,hpost.calm.not_refused,Bool.or_self]
    rw [hsplit]
    refine visible_iff_append hpre (iff_of_false ?_ (by simp [hlast]))
    rintro ⟨⟨ev,hev,herr⟩,-⟩
    rcases List.mem_cons.mp hev with rfl | hmem
    · exact herr
    · exact (hpost.calm ev hmem).1 herr
  | finished ok hc =>
    refine visible_iff_of_calm ?_ hpost
    simp only [calm_append,calm_cons,counted,calm_nil,and_true]
    exact ⟨⟨⟨⟨calm_listening,hack true,⟨id,rfl⟩,id,rfl⟩,hc.calm⟩,⟨id,rfl⟩,id,rfl⟩,hack ok⟩

theorem AnyFile.visible_iff (h : AnyFile filepath filesize m tr e m') (hpost : Logged post) :
    Visible (tr ++ post) e ↔ refused (tr ++ post) = true := by
  rcases h with ⟨-,h⟩ | ⟨-,h⟩
  · exact h.visible_iff hpost
  · exact h.visible_iff hpost

theorem Reads.calm {field : Nat} {memory name : Bytes} (h : Reads field memory tr name) :
    Calm tr := h.logged.calm

theorem SendConfirm.visible_iff (h : SendConfirm config cmd m tr e m') (hpost : Logged post) :
    Visible (tr ++ post) e ↔ refused (tr ++ post) = true := by
  have hask : ∀ ok, ¬errs (sent m { reply .FILE_EXISTS 0 with size := cmd.size }.encode ok) ∧
      failing (sent m { reply .FILE_EXISTS 0 with size := cmd.size }.encode ok) = false :=
    fun ok => calm_sent fun _ => rfl
  cases h with
  | notSent => exact visible_iff_of_calm (calm_cons.mpr ⟨hask false,calm_nil⟩) hpost
  | noConfirm hr =>
    refine visible_iff_of_calm (calm_cons.mpr ⟨hask true,calm_cons.mpr ⟨?_,calm_nil⟩⟩) hpost
    cases hr with
    | again => exact ⟨id,rfl⟩
    | empty sender => exact calm_got (Or.inl (by decide))
  | @declined sender d ok hd hno =>
    -- the error is sent or the code is not SUCCESS, never both
    have hpre : Calm [sent m { reply .FILE_EXISTS 0 with size := cmd.size }.encode true,
        got 137 sender d] :=
      calm_cons.mpr ⟨hask true,calm_cons.mpr ⟨calm_got (Or.inl (by decide)),calm_nil⟩⟩
    have hall := visible_iff_append hpre
      (visible_iff_of_last (m.serving sender) (reply .ACK 2) ok hpost)
    exact hall
  | @confirmed sender d name trn trf _ _ hd hconf hname hfile =>
    have hpre : Calm ([sent m { reply .FILE_EXISTS 0 with size := cmd.size }.encode true,
        got 137 sender d] ++ trn) :=
      calm_append.mpr ⟨calm_cons.mpr ⟨hask true,calm_cons.mpr
        ⟨calm_got (Or.inl (by decide)),calm_nil⟩⟩,hname.calm⟩
    rw [List.append_assoc]
    exact visible_iff_append hpre (hfile.visible_iff hpost)

theorem calm_checked {name path : Bytes} {there : Bool} :
    Calm [⟨.accepted name,()⟩,⟨.fileExists path,there⟩] :=
  calm_cons.mpr ⟨⟨id,rfl⟩,calm_cons.mpr ⟨⟨id,rfl⟩,calm_nil⟩⟩

theorem Send.visible_iff (h : Send config cmd m tr e m') (hpost : Logged post) :
    Visible (tr ++ post) e ↔ refused (tr ++ post) = true := by
  cases h with
  | invalid hname hv =>
    rw [List.append_assoc]
    exact visible_iff_append hname.calm (visible_iff_of_last _ _ _ hpost)
  | new hname hv hfile =>
    rw [List.append_assoc]
    exact visible_iff_append (calm_append.mpr ⟨hname.calm,calm_checked⟩) (hfile.visible_iff hpost)
  | existing hname hv hconf =>
    rw [List.append_assoc]
    exact visible_iff_append (calm_append.mpr ⟨hname.calm,calm_checked⟩) (hconf.visible_iff hpost)

end Send

/-! In the other commands no failure is visible to both. -/

section Others
variable {pre post : Trace}

/-- If there is an error it is in the last reply, and the code tells whether it was sent. -/
inductive ErrsLast : Trace → ErrorCode → Prop where
  | silent {tr : Trace} {e : ErrorCode} : (∀ ev ∈ tr, ¬errs ev) → ErrsLast tr e
  | last {tr : Trace} (m : Members) (msg : CmdMsg) (ok : Bool) : (∀ ev ∈ tr, ¬errs ev) →
      ErrsLast (tr ++ [sent m msg.encode ok]) (sendCode ok)

theorem ErrsLast.append (hpre : ∀ ev ∈ pre, ¬errs ev) (h : ErrsLast tr e) :
    ErrsLast (pre ++ tr) e := by
  cases h with
  | silent h => exact .silent (List.forall_mem_append.mpr ⟨hpre,h⟩)
  | last m msg ok h =>
    rw [← List.append_assoc]
    exact .last m msg ok (List.forall_mem_append.mpr ⟨hpre,h⟩)

theorem ErrsLast.not_visible (h : ErrsLast tr e) (hpost : Logged post) :
    ¬Visible (tr ++ post) e := by
  cases h with
  | silent h =>
    rintro ⟨⟨ev,hev,herr⟩,-⟩
    rcases List.mem_append.mp hev with hmem | hmem
    · exact h ev hmem herr
    · exact (hpost.calm ev hmem).1 herr
  | last m msg ok h =>
    rintro ⟨⟨ev,hev,herr⟩,hcode⟩
    rw [List.append_assoc] at hev
    rcases List.mem_append.mp hev with hmem | hmem
    · exact h ev hmem herr
    · exact not_visible_of_last m msg ok hpost ⟨⟨ev,hmem,herr⟩,hcode⟩

theorem not_errs_reads {field : Nat} {memory name : Bytes} (h : Reads field memory tr name) :
    ∀ ev ∈ tr, ¬errs ev := fun ev hev => (h.calm ev hev).1

theorem not_errs_checked {name path : Bytes} {there : Bool} :
    ∀ ev ∈ ([⟨.accepted name,()⟩,⟨.fileExists path,there⟩] : Trace), ¬errs ev :=
  fun ev hev => (calm_checked ev hev).1

theorem errsLast_missing {trn : Trace} {name path : Bytes} {ok : Bool}
    (hname : Reads 128 cmd.tail trn name) :
    ErrsLast (trn ++ [⟨.accepted name,()⟩,⟨.fileExists path,false⟩,
      sent m (reply .ACK 1).encode ok]) (sendCode ok) := by
  have hpre : ∀ ev ∈ trn ++ [⟨.accepted name,()⟩,⟨.fileExists path,false⟩], ¬errs ev :=
    List.forall_mem_append.mpr ⟨not_errs_reads hname,not_errs_checked⟩
  have hlast := ErrsLast.last m (reply .ACK 1) ok hpre
  rw [List.append_assoc] at hlast
  exact hlast

theorem Remove.errsLast (h : Remove config cmd m tr e m') : ErrsLast tr e := by
  cases h with
  | invalid hname hv => exact .last _ _ _ (not_errs_reads hname)
  | missing hname hv => exact errsLast_missing hname
  | @deleted trn name done ok hname hv =>
    have hdel : ∀ ev ∈ ([⟨.accepted name,()⟩,⟨.fileExists (joinPath config.backupDir name),true⟩,
        ⟨.deleteFile (joinPath config.backupDir name),done⟩] : Trace), ¬errs ev := by
      simp only [List.forall_mem_cons]
      exact ⟨id,id,id,fun _ h => by cases h⟩
    have hlast := ErrsLast.last m (reply .ACK (if done then 0 else 1)) ok
      (List.forall_mem_append.mpr ⟨not_errs_reads hname,hdel⟩)
    rw [List.append_assoc] at hlast
    exact hlast

theorem errsLast_renamed {oldPath newPath : Bytes} {done ok : Bool} (hpre : ∀ ev ∈ pre, ¬errs ev) :
    ErrsLast (pre ++ renamed oldPath newPath m done ok) (sendCode ok) := by
  have hren : ∀ ev ∈ ([⟨.renameFile oldPath newPath,done⟩] : Trace), ¬errs ev := by
    simp only [List.forall_mem_singleton]
    exact id
  have hlast := ErrsLast.last m (reply .ACK (if done then 0 else 1)) ok
    (List.forall_mem_append.mpr ⟨hpre,hren⟩)
  rw [List.append_assoc] at hlast
  exact hlast

theorem NewName.errsLast {oldFilepath : Bytes} (h : NewName config oldFilepath m tr e m') :
    ErrsLast tr e := by
  have hgot : ∀ size sender d, ∀ ev ∈ [got size sender d], ¬errs ev := by
    intro size sender d
    simp only [List.forall_mem_singleton]
    exact id
  have hask : ∀ (m : Members) ok, ¬errs (sent m (reply .FILE_EXISTS 0).encode ok) :=
    fun m ok => (calm_sent fun _ => rfl).1
  cases h with
  | noName hr =>
    refine .silent ?_
    simp only [List.forall_mem_singleton]
    cases hr <;> exact id
  | invalid hd hname hv =>
    exact .last _ _ _ (List.forall_mem_append.mpr ⟨hgot _ _ _,not_errs_reads hname⟩)
  | fresh sender done ok hd hname hv =>
    refine errsLast_renamed (List.forall_mem_append.mpr ⟨?_,not_errs_checked⟩)
    exact List.forall_mem_append.mpr ⟨hgot _ _ _,not_errs_reads hname⟩
  | @noConfirm d name trn r m' sender asked hd hname hv hr =>
    refine .silent (List.forall_mem_append.mpr
      ⟨List.forall_mem_append.mpr ⟨hgot _ _ _,not_errs_reads hname⟩,?_⟩)
    simp only [List.forall_mem_cons]
    refine ⟨id,id,hask _ _,?_,fun _ h => by cases h⟩
    cases hr <;> exact id
  | @declined d name c trn sender sender' asked ok hd hname hv hc hno =>
    have hconf : ∀ ev ∈ ([⟨.accepted name,()⟩,⟨.fileExists (joinPath config.backupDir name),true⟩,
        sent (m.serving sender) (reply .FILE_EXISTS 0).encode asked,got 137 sender' c] : Trace),
        ¬errs ev := by
      simp only [List.forall_mem_cons]
      exact ⟨id,id,hask _ _,id,fun _ h => by cases h⟩
    have hlast := ErrsLast.last (m.serving sender') (reply .ACK 2) ok (List.forall_mem_append.mpr
      ⟨List.forall_mem_append.mpr ⟨hgot 3000 sender d,not_errs_reads hname⟩,hconf⟩)
    rw [List.append_assoc] at hlast
    exact hlast
  | @confirmed d name c trn sender sender' asked deleted done ok hd hname hv hc hyes =>
    refine errsLast_renamed (List.forall_mem_append.mpr
      ⟨List.forall_mem_append.mpr ⟨hgot _ _ _,not_errs_reads hname⟩,?_⟩)
    simp only [List.forall_mem_cons]
    exact ⟨id,id,hask _ _,id,id,fun _ h => by cases h⟩

theorem Rename.errsLast (h : Rename config cmd m tr e m') : ErrsLast tr e := by
  cases h with
  | invalid hname hv => exact .last _ _ _ (not_errs_reads hname)
  | missing hname hv => exact errsLast_missing hname
  | handshake ok hname hv hs hnew =>
    refine hnew.errsLast.append (List.forall_mem_append.mpr ⟨not_errs_reads hname,?_⟩)
    simp only [List.forall_mem_cons]
    exact ⟨id,id,(calm_sent fun _ => rfl).1,fun _ h => by cases h⟩
  | direct hname hv hs hnew =>
    exact hnew.errsLast.append
      (List.forall_mem_append.mpr ⟨not_errs_reads hname,not_errs_checked⟩)

end Others

/-! When a command takes effect. -/

section Effect
variable {trn : Trace} {printed : Bytes}

variable (resolve files) in
theorem Transfer.filled_iff (h : Transfer m' e tr) (f : F) (n : Nat) :
    (∃ path ∈ opened tr, resolve path = f) ∧ Complete (filesAfter resolve files tr) f tr n ↔
      Filled resolve f tr n := by
  constructor
  · rintro ⟨⟨path,hmem,hf⟩,hc⟩
    rcases h.complete_iff.mp hc with hfill | ha
    · exact hfill
    · exact absurd hf (ha.closed path hmem)
  · exact fun hfill => ⟨hfill.opened,h.complete_iff.mpr (Or.inl hfill)⟩

theorem Remove.performed_iff (h : Remove config cmd m tr e m') (hlog : Reads 128 cmd.tail trn printed)
    (hfiles : Consistent resolve files (tr ++ trn)) :
    (∃ name, accepted (tr ++ trn) = [name] ∧
      (files (resolve (joinPath config.backupDir name))).isSome ∧
      filesAfter resolve files (tr ++ trn) (resolve (joinPath config.backupDir name)) = none) ↔
    ∃ path, (⟨.deleteFile path,true⟩ : Event Res) ∈ tr ++ trn := by
  cases hlog
  cases h with
  | invalid hname hv =>
    cases hname
    refine iff_of_false ?_ (by simp [sent])
    rintro ⟨name,hacc,-⟩
    cases hacc
  | @missing trn name ok hname hv =>
    have hno : false = (files (resolve (joinPath config.backupDir name))).isSome := by
      cases hname
      exact hfiles.2.2.1
    cases hname
    refine iff_of_false ?_ (by simp [sent])
    rintro ⟨name,hacc,hthere,-⟩
    obtain ⟨rfl,-⟩ := List.cons.inj hacc
    exact absurd (hno.trans hthere) (by simp)
  | @deleted trn name done ok hname hv =>
    have hthere : true = (files (resolve (joinPath config.backupDir name))).isSome := by
      cases hname
      exact hfiles.2.2.1
    cases hname
    cases done with
    | false =>
      refine iff_of_false ?_ (by simp [sent])
      rintro ⟨name,hacc,-,hgone⟩
      obtain ⟨rfl,-⟩ := List.cons.inj hacc
      have hnone : files (resolve (joinPath config.backupDir (cString (cmd.tail ++ _)))) = none :=
        hgone
      rw [hnone] at hthere
      cases hthere
    | true =>
      refine iff_of_true ⟨_,rfl,hthere.symm,Store.delete_self _ _⟩ ?_
      exact ⟨_,List.mem_append_left _ (List.mem_append_right _ (.tail _ (.tail _ (.head _))))⟩

/-- A rename takes effect exactly when its call succeeds. -/
theorem Rename.performed_iff (h : Rename config cmd m tr e m') (hlog : Reads 128 cmd.tail trn printed)
    (hfiles : Consistent resolve files (tr ++ trn)) :
    (∃ old new, accepted (tr ++ trn) = [old,new] ∧
      (⟨.renameFile (joinPath config.backupDir old) (joinPath config.backupDir new),true⟩ :
        Event Res) ∈ tr ++ trn ∧
      Moved files (filesAfter resolve files (tr ++ trn)) (resolve (joinPath config.backupDir old))
        (resolve (joinPath config.backupDir new))) ↔
    ∃ oldPath newPath, (⟨.renameFile oldPath newPath,true⟩ : Event Res) ∈ tr ++ trn := by
  have hno : ∀ oldPath newPath, (⟨.renameFile oldPath newPath,true⟩ : Event Res) ∉ trn :=
    fun _ _ hmem => by cases hlog.quiet _ hmem
  have hacc : accepted (tr ++ trn) = accepted tr := by
    cases hlog
    rw [accepted_append]
    exact List.append_nil _
  rcases h.cases_reached with hg | ⟨old,new,deletion,done,ok,hr⟩
  · refine iff_of_false ?_ ?_
    · rintro ⟨old,new,-,hmem,-⟩
      rcases List.mem_append.mp hmem with hmem | hmem
      · cases hg.quiet _ hmem
      · exact hno _ _ hmem
    · rintro ⟨oldPath,newPath,hmem⟩
      rcases List.mem_append.mp hmem with hmem | hmem
      · cases hg.quiet _ hmem
      · exact hno _ _ hmem
  · constructor
    · exact fun ⟨old,new,_,hmem,_⟩ => ⟨_,_,hmem⟩
    · rintro ⟨oldPath,newPath,hmem⟩
      have hmem : (⟨.renameFile oldPath newPath,true⟩ : Event Res) ∈ tr :=
        (List.mem_append.mp hmem).resolve_right (hno _ _)
      obtain ⟨rfl,rfl,rfl⟩ := hr.renames hmem
      have hfiles := ((consistent_append _ _).mp hfiles).1
      refine ⟨old,new,hacc.trans hr.accepted,List.mem_append_left _ hmem,?_⟩
      rw [filesAfter_append,hlog.quiet.filesAfter,hr.after,if_pos rfl]
      exact moved_cleared (hr.moved_some hfiles rfl)

end Effect

/-- A listing is no acknowledgement. -/
theorem not_errs_data {data : DataMsg} {ok : Bool} : ¬errs (sent m data.toList ok) := by
  cases ok with
  | false => exact id
  | true =>
    rintro ⟨msg,he,-⟩
    have hlen := congrArg List.length he
    simp at hlen

/-- When no failure is hidden. -/
def NoneHidden (resolve : Bytes → F) (config : ServerConfig) (cmd : CmdMsg) (tr : Trace) : Prop :=
  match cmd.getCommand with
  | some .LS => (∃ names, (⟨.listDirectory config.backupDir,some names⟩ : Event Res) ∈ tr) ∧
      ∃ dest datagram, (⟨.sendto dest datagram,true⟩ : Event Res) ∈ tr
  | some .SEND => (∃ name, accepted tr = [name] ∧
      Filled resolve (resolve (joinPath config.backupDir name)) tr (announcedSize cmd tr)) ∨
      refused tr = true
  | some .REMOVE => ∃ path, (⟨.deleteFile path,true⟩ : Event Res) ∈ tr
  | some .RENAME => ∃ oldPath newPath, (⟨.renameFile oldPath newPath,true⟩ : Event Res) ∈ tr
  | _ => True

/-- A command that does not take effect is seen to fail, by the client and the main loop,
exactly when it takes effect or is a SEND of a small file that is refused. -/
theorem failures_visible (h : Runs (processCommand config cmd) m tr e m')
    (hfiles : Consistent resolve files tr) :
    (¬Performed resolve files config cmd tr → Visible tr e) ↔ NoneHidden resolve config cmd tr := by
  have himp : ∀ {p q : Prop}, ¬q → ((¬p → q) ↔ p) := fun hq =>
    ⟨fun h => by_contra fun hp => hq (h hp),fun hp hnp => absurd hp hnp⟩
  cases runs_processCommand h with
  | @logged tr trn printed e m' hh hlog =>
  unfold Performed NoneHidden
  cases hh with
  | @ls names data ok hc =>
    rw [hc]
    refine himp (ErrsLast.not_visible (.silent ?_) hlog.logged)
    simp only [List.forall_mem_cons]
    exact ⟨id,not_errs_data,fun _ h => by cases h⟩
  | send hc hsend =>
    rw [hc]
    have hiff := exists_congr fun name => and_congr_right fun (_ : accepted (tr ++ trn) = [name]) =>
      (hsend.transfer.logged hlog).filled_iff resolve files
        (resolve (joinPath config.backupDir name)) (announcedSize cmd (tr ++ trn))
    simp only
    rw [hiff,hsend.visible_iff hlog.logged]
    exact ⟨fun h => Classical.or_iff_not_imp_left.mpr h,Classical.or_iff_not_imp_left.mp⟩
  | remove hc hremove =>
    rw [hc]
    exact (himp (hremove.errsLast.not_visible hlog.logged)).trans
      (hremove.performed_iff hlog hfiles)
  | rename hc hrename =>
    rw [hc]
    exact (himp (hrename.errsLast.not_visible hlog.logged)).trans
      (hrename.performed_iff hlog hfiles)
  | shutdown ok hc =>
    rw [hc]
    simp
  | overwrite hc =>
    rw [hc]
    simp
  | unknown hc =>
    split <;> simp_all

theorem missingTrace_consistent : Consistent id (fun _ => none : Files Bytes) missingTrace := by
  simp [missingTrace,sent,Agrees,effect]

/-- The client is told that the file is missing, the main loop is not. -/
theorem not_failures_visible_always :
    ¬∀ (config : ServerConfig) (cmd : CmdMsg) (m m' : Members) (tr : Trace) (e : ErrorCode)
      (files : Files Bytes), Runs (processCommand config cmd) m tr e m' →
      Consistent id files tr → ¬Performed id files config cmd tr → Visible tr e := by
  intro hall
  obtain ⟨m,h⟩ := missing_run
  refine (hall _ _ _ _ _ _ _ (exec_of_replay h) missingTrace_consistent ?_).2 rfl
  have hcmd : (sampleCmd .REMOVE ['a'] 0).getCommand = some .REMOVE := by decide +kernel
  unfold Performed
  rw [hcmd]
  rintro ⟨name,-,hthere,-⟩
  cases hthere

theorem failures_visible_missingTrace :
    (¬Performed id (fun _ => none : Files Bytes) sampleConfig (sampleCmd .REMOVE ['a'] 0)
        missingTrace → Visible missingTrace .SUCCESS) ↔
      NoneHidden id sampleConfig (sampleCmd .REMOVE ['a'] 0) missingTrace := by
  obtain ⟨m,h⟩ := missing_run
  exact failures_visible (exec_of_replay h) missingTrace_consistent

end NetworkLab.Backup.Server
