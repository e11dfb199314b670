import NetworkLab.Backup.Datagrams
import NetworkLab.Backup.Events
set_option autoImplicit false

/-! Several clients at one socket: whose datagrams a handler of the server takes, and to
whom it answers. -/

namespace NetworkLab.Backup.Server
open Interaction

/-- The datagrams that are taken from the socket, in order. -/
def arrived (tr : Trace) : List (Addr × Bytes) :=
  tr.filterMap fun
    | ⟨.recvfrom _,some r⟩ => some r
    | _ => none

/-- The answers to the questions whether a file exists. -/
def found (tr : Trace) : List Bool :=
  tr.filterMap fun
    | ⟨.fileExists _,there⟩ => some there
    | _ => none

/-- How many datagrams the handler of a SEND or RENAME takes: this follows from the command, from
the files that it finds, and from the confirmation, which is the first of the datagrams that come
next. -/
def takes (cmd : CmdMsg) (found : List Bool) (next : List (Addr × Bytes)) : Nat :=
  match cmd.getCommand, found with
  | some .SEND, [false] => if cmd.size.toNat ≤ dataBufLen then 1 else 0
  | some .SEND, [true] =>
    match next with
    | [] => 0
    | (_,d) :: _ =>
      if Confirms (CmdMsg.received d) ∧ (CmdMsg.received d).size.toNat ≤ dataBufLen then 2 else 1
  | some .RENAME, [true] => 1
  | some .RENAME, [true,false] => 1
  | some .RENAME, [true,true] => 2
  | _, _ => 0

/-- Reading a trace with the address that is being served: `none` if a reply goes to
another one, and otherwise the address at the end. -/
@[simp] def follows (client : Addr) : Trace → Option Addr
  | [] => some client
  | ⟨.sendto dest _,_⟩ :: tr => if dest = client then follows client tr else none
  | ⟨.recvfrom _,some (sender,_)⟩ :: tr => follows sender tr
  | _ :: tr => follows client tr

/-- `data` came in a datagram, or over the connection of the transfer. -/
def CameIn (tr : Trace) (data : Bytes) : Prop :=
  (∃ sender d, got 3000 sender d ∈ tr ∧ data <+: (DataMsg.received d).toList) ∨
  ∃ chunk : Chunk 3000, ⟨.recv 3000,some chunk⟩ ∈ tr ∧ data = chunk.val

/-- What is stored has come in. -/
def StoresReceived (tr : Trace) : Prop :=
  ∀ path data stored, ⟨.write path data,stored⟩ ∈ tr → CameIn tr data

section Isolation
variable {config : ServerConfig} {cmd : CmdMsg} {m m' : Members} {tr : Trace} {e : ErrorCode}
variable {filepath : Bytes} {filesize : Nat}

@[simp] theorem serving_currentClientAddr (m : Members) (sender : Addr) :
    (m.serving sender).currentClientAddr = sender := rfl

@[simp] theorem follows_sent (client : Addr) (d : Bytes) (ok : Bool) (tr : Trace) :
    follows client (sent m d ok :: tr) =
      if m.currentClientAddr = client then follows client tr else none := rfl

@[simp] theorem follows_got (client sender : Addr) (size : Nat) (d : Bytes) (tr : Trace) :
    follows client (got size sender d :: tr) = follows sender tr := rfl

theorem follows_append (client : Addr) (tr tr' : Trace) :
    follows client (tr ++ tr') = (follows client tr).bind fun c => follows c tr' := by
  induction client, tr using follows.induct <;> simp_all

theorem Nothing.follows {size : Nat} {r : Event Res} (h : Nothing size m r m') (tr : Trace) :
    Server.follows m.currentClientAddr (r :: tr) = Server.follows m'.currentClientAddr tr := by
  cases h <;> rfl

theorem SmallFile.follows (h : SmallFile filepath filesize m tr e m') :
    follows m.currentClientAddr tr = some m'.currentClientAddr := by
  cases h with
  | noData hr => simp [hr.follows]
  | noFile hd => simp
  | stored stored hd => simp [counted]

theorem Chunks.follows {good : Bool} {total n : Nat}
    (h : Chunks filepath filesize good total tr n) (client : Addr) :
    Server.follows client tr = some client := by
  induction h with
  | full _ => rfl
  | closed _ => rfl
  | stored chunk stored _ _ ih => exact ih
  | dropped chunk _ _ ih => exact ih

theorem LargeFile.follows (h : LargeFile filepath filesize m tr e m') :
    follows m.currentClientAddr tr = some m'.currentClientAddr := by
  cases h with
  | finished ok hc => simp [listening,counted,follows_append,hc.follows]
  | _ => simp [listening]

theorem AnyFile.follows (h : AnyFile filepath filesize m tr e m') :
    follows m.currentClientAddr tr = some m'.currentClientAddr := by
  rcases h with ⟨-,h⟩ | ⟨-,h⟩
  · exact h.follows
  · exact h.follows

theorem Reads.follows {field : Nat} {memory name : Bytes} (h : Reads field memory tr name)
    (client : Addr) : Server.follows client tr = some client := by
  cases h
  rfl

theorem SendConfirm.follows (h : SendConfirm config cmd m tr e m') :
    follows m.currentClientAddr tr = some m'.currentClientAddr := by
  cases h with
  | notSent => simp
  | noConfirm hn => simp [hn.follows]
  | declined hd hc => simp
  | confirmed hd hc hr hf =>
    have hfile := hf.follows
    rw [serving_currentClientAddr] at hfile
    simp [follows_append,hr.follows,hfile]

theorem Send.follows (h : Send config cmd m tr e m') :
    follows m.currentClientAddr tr = some m'.currentClientAddr := by
  cases h with
  | invalid hr hv => simp [follows_append,hr.follows]
  | new hr hv hf => simp [follows_append,hr.follows,hf.follows]
  | existing hr hv hs => simp [follows_append,hr.follows,hs.follows]

theorem NewName.follows {oldFilepath : Bytes} (h : NewName config oldFilepath m tr e m') :
    follows m.currentClientAddr tr = some m'.currentClientAddr := by
  cases h with
  | noName hn => simp [hn.follows]
  | invalid hd hr hv => simp [follows_append,hr.follows]
  | fresh sender done ok hd hr hv => simp [follows_append,hr.follows,renamed]
  | noConfirm sender asked hd hr hv hn =>
    have hnone := hn.follows []
    rw [serving_currentClientAddr] at hnone
    simp [follows_append,hr.follows,hnone]
  | declined sender sender' asked ok hd hr hv hc hno =>
    simp [follows_append,hr.follows]
  | confirmed sender sender' asked deleted done ok hd hr hv hc hyes =>
    simp [follows_append,hr.follows,renamed]

theorem Rename.follows (h : Rename config cmd m tr e m') :
    follows m.currentClientAddr tr = some m'.currentClientAddr := by
  cases h with
  | invalid hr hv => simp [follows_append,hr.follows]
  | missing hr hv => simp [follows_append,hr.follows]
  | handshake ok hr hv hs hn => simp [follows_append,hr.follows,hn.follows]
  | direct hr hv hs hn => simp [follows_append,hr.follows,hn.follows]

theorem arrived_append (tr tr' : Trace) : arrived (tr ++ tr') = arrived tr ++ arrived tr' :=
  List.filterMap_append

theorem mem_arrived {sender : Addr} {d : Bytes} :
    (sender,d) ∈ arrived tr ↔ ∃ size, got size sender d ∈ tr := by
  unfold arrived
  rw [List.mem_filterMap]
  constructor
  · rintro ⟨ev,hmem,hev⟩
    split at hev
    · rename_i size r
      obtain rfl := Option.some.inj hev
      exact ⟨size,hmem⟩
    · cases hev
  · rintro ⟨size,hmem⟩
    exact ⟨_,hmem,rfl⟩

theorem found_append (tr tr' : Trace) : found (tr ++ tr') = found tr ++ found tr' :=
  List.filterMap_append

/-- Calls that neither take a datagram nor look for a file. -/
def Blind (tr : Trace) : Prop := arrived tr = [] ∧ found tr = []

theorem Chunks.blind {good : Bool} {total n : Nat} (h : Chunks filepath filesize good total tr n) :
    Blind tr := by
  induction h with
  | full _ => exact ⟨rfl,rfl⟩
  | closed _ => exact ⟨rfl,rfl⟩
  | stored chunk stored _ _ ih => exact ih
  | dropped chunk _ _ ih => exact ih

theorem LargeFile.blind (h : LargeFile filepath filesize m tr e m') : Blind tr := by
  cases h with
  | finished ok hc =>
    obtain ⟨harr,hfound⟩ := hc.blind
    constructor
    · simp only [arrived_append,harr]
      rfl
    · simp only [found_append,hfound]
      rfl
  | _ => exact ⟨rfl,rfl⟩

/-- So many datagrams are taken at most, and exactly so many when no receive comes back empty and
all replies go out. -/
def TakesUpTo (n : Nat) (tr : Trace) : Prop :=
  (arrived tr).length ≤ n ∧ ((∀ ev ∈ tr, Prompt ev) → (arrived tr).length = n)

theorem takesUpTo_of_eq {n : Nat} (h : (arrived tr).length = n) : TakesUpTo n tr :=
  ⟨h.le,fun _ => h⟩

theorem Nothing.takesUpTo {size n : Nat} {r : Event Res} (h : Nothing size m r m')
    (hr : r ∈ tr) (hn : (arrived tr).length = n + (arrived [r]).length) : TakesUpTo (n + 1) tr := by
  cases h with
  | again => exact ⟨hn.le.trans (Nat.le_succ n),fun hp => absurd rfl (hp _ hr)⟩
  | empty sender => exact takesUpTo_of_eq hn

theorem Nothing.found {size : Nat} {r : Event Res} (h : Nothing size m r m') :
    found [r] = [] := by
  cases h <;> rfl

theorem TakesUpTo.behind {n k n' : Nat} {pre : Trace} (h : TakesUpTo n tr)
    (hpre : (arrived pre).length = k) (hn : k + n = n') : TakesUpTo n' (pre ++ tr) := by
  unfold TakesUpTo at h ⊢
  rw [arrived_append,List.length_append,hpre,← hn]
  refine ⟨Nat.add_le_add_left h.1 k,fun hp => ?_⟩
  rw [h.2 fun ev hev => hp ev (List.mem_append_right _ hev)]

theorem AnyFile.takesUpTo (h : AnyFile filepath filesize m tr e m') :
    found tr = [] ∧ TakesUpTo (if filesize ≤ dataBufLen then 1 else 0) tr := by
  rcases h with ⟨hsmall,h⟩ | ⟨hlarge,h⟩
  · rw [if_pos hsmall]
    cases h with
    | noData hr => exact ⟨by cases hr <;> rfl,hr.takesUpTo (by simp) (by cases hr <;> rfl)⟩
    | noFile hd => exact ⟨rfl,takesUpTo_of_eq rfl⟩
    | stored stored hd => exact ⟨rfl,takesUpTo_of_eq rfl⟩
  · rw [if_neg (Nat.not_le.mpr hlarge)]
    exact ⟨h.blind.2,takesUpTo_of_eq (congrArg List.length h.blind.1)⟩

section Takes
variable {sender : Addr} {d : Bytes} {next : List (Addr × Bytes)}

theorem takes_new (hc : cmd.getCommand = some .SEND) :
    takes cmd [false] next = if cmd.size.toNat ≤ dataBufLen then 1 else 0 := by
  unfold takes
  rw [hc]

theorem takes_declined (hc : cmd.getCommand = some .SEND)
    (hno : ¬Confirms (CmdMsg.received d)) : takes cmd [true] ((sender,d) :: next) = 1 := by
  unfold takes
  rw [hc]
  exact if_neg fun h => hno h.1

theorem takes_confirmed (hc : cmd.getCommand = some .SEND) (hyes : Confirms (CmdMsg.received d)) :
    takes cmd [true] ((sender,d) :: next) =
      1 + if (CmdMsg.received d).size.toNat ≤ dataBufLen then 1 else 0 := by
  unfold takes
  rw [hc]
  dsimp only
  split
  · rename_i h
    rw [if_pos h.2]
  · rename_i h
    rw [if_neg fun hsmall => h ⟨hyes,hsmall⟩]

theorem takes_rename (hc : cmd.getCommand = some .RENAME) (next : List (Addr × Bytes)) :
    takes cmd [true] next = 1 ∧ takes cmd [true,false] next = 1 ∧
      takes cmd [true,true] next = 2 := by
  unfold takes
  rw [hc]
  exact ⟨rfl,rfl,rfl⟩

/-- Whatever comes later. -/
theorem Send.takesUpTo (hc : cmd.getCommand = some .SEND) (h : Send config cmd m tr e m')
    (later : List (Addr × Bytes)) : TakesUpTo (takes cmd (found tr) (arrived tr ++ later)) tr := by
  cases h with
  | invalid hr hv =>
    cases hr
    unfold takes
    rw [hc]
    exact takesUpTo_of_eq rfl
  | new hr hv hf =>
    cases hr
    obtain ⟨hfound,htakes⟩ := hf.takesUpTo
    rw [found_append,hfound,List.append_nil]
    refine htakes.behind rfl ?_
    exact (Nat.zero_add _).trans (takes_new hc).symm
  | existing hr hv hs =>
    cases hr
    cases hs with
    | notSent =>
      refine ⟨Nat.zero_le _,fun hp => ?_⟩
      have hsent := hp _ (List.mem_append_right _ (List.mem_singleton_self _))
      cases (hsent : false = true)
    | noConfirm hn =>
      cases hn with
      | again =>
        refine ⟨Nat.zero_le _,fun hp => ?_⟩
        exact absurd rfl (hp ⟨.recvfrom 137,none⟩ (by simp) : (none : Option _) ≠ none)
      | empty sender => exact takesUpTo_of_eq (takes_declined hc (by decide +kernel)).symm
    | declined hd hno => exact takesUpTo_of_eq (takes_declined hc hno).symm
    | confirmed hd hyes hr' hf =>
      cases hr'
      obtain ⟨hfound,htakes⟩ := hf.takesUpTo
      simp only [found_append,hfound,List.append_nil,← List.append_assoc]
      refine htakes.behind rfl ?_
      exact (takes_confirmed hc hyes).symm

theorem NewName.takesUpTo {oldFilepath : Bytes} (hc : cmd.getCommand = some .RENAME)
    (h : NewName config oldFilepath m tr e m') (next : List (Addr × Bytes)) :
    TakesUpTo (takes cmd (true :: found tr) next) tr := by
  obtain ⟨hone,hfree,htwo⟩ := takes_rename hc next
  cases h with
  | noName hn =>
    rw [hn.found,hone]
    exact hn.takesUpTo (List.mem_singleton_self _) (Nat.zero_add _).symm
  | invalid hd hr hv =>
    cases hr
    exact takesUpTo_of_eq hone.symm
  | fresh sender done ok hd hr hv =>
    cases hr
    exact takesUpTo_of_eq hfree.symm
  | noConfirm sender asked hd hr hv hn =>
    cases hr
    cases hn with
    | again =>
      refine ⟨(Nat.le_succ 1).trans htwo.ge,fun hp => ?_⟩
      exact absurd rfl (hp ⟨.recvfrom 137,none⟩ (by simp) : (none : Option _) ≠ none)
    | empty sender => exact takesUpTo_of_eq htwo.symm
  | declined sender sender' asked ok hd hr hv hc hno =>
    cases hr
    exact takesUpTo_of_eq htwo.symm
  | confirmed sender sender' asked deleted done ok hd hr hv hc hyes =>
    cases hr
    exact takesUpTo_of_eq htwo.symm

theorem Rename.takesUpTo (hc : cmd.getCommand = some .RENAME) (h : Rename config cmd m tr e m')
    (later : List (Addr × Bytes)) : TakesUpTo (takes cmd (found tr) (arrived tr ++ later)) tr := by
  have hnone : ∀ next, takes cmd [] next = 0 ∧ takes cmd [false] next = 0 := by
    intro next
    unfold takes
    rw [hc]
    exact ⟨rfl,rfl⟩
  cases h with
  | invalid hr hv =>
    cases hr
    exact takesUpTo_of_eq (hnone _).1.symm
  | missing hr hv =>
    cases hr
    exact takesUpTo_of_eq (hnone _).2.symm
  | handshake ok hr hv hs hn =>
    cases hr
    rw [found_append]
    exact (hn.takesUpTo hc _).behind rfl (Nat.zero_add _)
  | direct hr hv hs hn =>
    cases hr
    rw [found_append]
    exact (hn.takesUpTo hc _).behind rfl (Nat.zero_add _)

end Takes

/-- A reply goes to the client that is served at first, or to one that sent a datagram. -/
theorem dest_of_follows {client last dest : Addr} {d : Bytes} {ok : Bool}
    (h : follows client tr = some last) (hmem : ⟨.sendto dest d,ok⟩ ∈ tr) :
    dest = client ∨ ∃ d', (dest,d') ∈ arrived tr := by
  induction client, tr using follows.induct with
  | case1 client => simp at hmem
  | case2 client data ok' tr ih =>
    simp only [follows,if_true] at h
    rcases List.mem_cons.mp hmem with he | hmem
    · cases he
      exact Or.inl rfl
    · exact (ih h hmem).imp_right fun ⟨d',hd⟩ => ⟨d',hd⟩
  | case3 client dest' data ok' tr hne =>
    simp only [follows,if_neg hne] at h
    cases h
  | case4 client size sender data tr ih =>
    have hmem' : ⟨.sendto dest d,ok⟩ ∈ tr := by simpa using hmem
    rcases ih h hmem' with rfl | ⟨d',hd⟩
    · exact Or.inr ⟨data,List.mem_cons_self⟩
    · exact Or.inr ⟨d',List.mem_cons_of_mem _ hd⟩
  | case5 client ev tr hsend hrecv ih =>
    have hmem' : ⟨.sendto dest d,ok⟩ ∈ tr := by
      rcases List.mem_cons.mp hmem with rfl | hmem
      · exact absurd rfl (hsend dest d ok)
      · exact hmem
    have hf : follows client tr = some last := by
      rwa [follows] at h
      · exact hsend
      · exact hrecv
    refine (ih hf hmem').imp_right fun ⟨d',hd⟩ => ⟨d',?_⟩
    obtain ⟨size,hg⟩ := mem_arrived.mp hd
    exact mem_arrived.mpr ⟨size,List.mem_cons_of_mem _ hg⟩

theorem CameIn.mono {tr' : Trace} {data : Bytes} (h : CameIn tr data) (hsub : tr ⊆ tr') :
    CameIn tr' data := by
  rcases h with ⟨sender,d,hd,hp⟩ | ⟨chunk,hc,he⟩
  · exact Or.inl ⟨sender,d,hsub hd,hp⟩
  · exact Or.inr ⟨chunk,hsub hc,he⟩

theorem StoresReceived.append {tr' : Trace} (h : StoresReceived tr) (h' : StoresReceived tr') :
    StoresReceived (tr ++ tr') := by
  intro path data stored hmem
  rcases List.mem_append.mp hmem with hmem | hmem
  · exact (h path data stored hmem).mono (List.subset_append_left _ _)
  · exact (h' path data stored hmem).mono (List.subset_append_right _ _)

theorem SmallFile.storesReceived (h : SmallFile filepath filesize m tr e m') :
    StoresReceived tr := by
  intro path data stored hmem
  cases h with
  | noData hn => cases hn <;> simp [sent,got] at hmem
  | noFile hd => simp [sent,got] at hmem
  | @stored ok ok' sender datagram n hd =>
    simp [sent,got,counted] at hmem
    obtain ⟨⟨rfl,rfl⟩,-⟩ := hmem
    exact Or.inl ⟨sender,datagram,by simp,List.take_prefix _ _⟩

theorem Chunks.storesReceived {good : Bool} {total n : Nat}
    (h : Chunks filepath filesize good total tr n) : StoresReceived tr := by
  induction h with
  | full _ => exact fun _ _ _ hmem => absurd hmem List.not_mem_nil
  | closed _ => simp [StoresReceived]
  | @stored total n tr chunk k _ _ ih =>
    intro path data stored hmem
    simp only [List.mem_cons] at hmem
    rcases hmem with he | he | hmem
    · cases he
    · cases he
      exact Or.inr ⟨chunk,by simp,rfl⟩
    · exact (ih path data stored hmem).mono fun _ hx => by simp [hx]
  | @dropped total n tr chunk _ _ ih =>
    intro path data stored hmem
    simp only [List.mem_cons] at hmem
    rcases hmem with he | hmem
    · cases he
    · exact (ih path data stored hmem).mono fun _ hx => by simp [hx]

theorem LargeFile.storesReceived (h : LargeFile filepath filesize m tr e m') :
    StoresReceived tr := by
  intro path data stored hmem
  cases h with
  | finished ok hc =>
    simp [listening,counted,sent] at hmem
    exact (hc.storesReceived path data stored hmem).mono fun _ hx => by simp [hx]
  | _ => simp [listening,sent] at hmem

theorem AnyFile.storesReceived (h : AnyFile filepath filesize m tr e m') :
    StoresReceived tr := by
  rcases h with ⟨-,h⟩ | ⟨-,h⟩
  · exact h.storesReceived
  · exact h.storesReceived

/-- Only a transfer writes. -/
theorem CommandEvents.storesReceived (h : CommandEvents tr) : StoresReceived tr :=
  fun _ _ _ hmem => by cases h _ hmem

theorem Send.storesReceived (h : Send config cmd m tr e m') : StoresReceived tr := by
  rcases h.commandEvents with ⟨hc,-⟩ | ⟨tr₁,tr₂,m₁,filepath,filesize,rfl,hc,-,hf⟩
  · exact hc.storesReceived
  · exact hc.storesReceived.append hf.storesReceived

/-- While the server processes a SEND or a RENAME of one client, it takes datagrams of
this client only, stores nothing else, and answers nobody else. -/
structure Isolated (c : ServerCall) : Prop where
  taken : ∀ size sender d, got size sender d ∈ c.trace → sender = c.before.currentClientAddr
  stored : ∀ path data n, ⟨.write path data,n⟩ ∈ c.trace →
    (∃ d, got 3000 c.before.currentClientAddr d ∈ c.trace ∧
      data <+: (DataMsg.received d).toList) ∨
    ∃ chunk : Chunk 3000, ⟨.recv 3000,some chunk⟩ ∈ c.trace ∧ data = chunk.val
  replies : ∀ dest d ok, ⟨.sendto dest d,ok⟩ ∈ c.trace → dest = c.before.currentClientAddr

theorem isolated_iff {c : ServerCall} {last : Addr}
    (hf : follows c.before.currentClientAddr c.trace = some last)
    (hs : StoresReceived c.trace) :
    Isolated c ↔ ∀ p ∈ arrived c.trace, p.1 = c.before.currentClientAddr := by
  constructor
  · rintro h ⟨sender,d⟩ hp
    obtain ⟨size,hg⟩ := mem_arrived.mp hp
    exact h.taken size sender d hg
  · intro h
    have htaken : ∀ size sender d, got size sender d ∈ c.trace →
        sender = c.before.currentClientAddr :=
      fun size sender d hg => h (sender,d) (mem_arrived.mpr ⟨size,hg⟩)
    refine ⟨htaken,fun path data n hmem => ?_,fun dest d ok hmem => ?_⟩
    · rcases hs path data n hmem with ⟨sender,d,hg,hp⟩ | hc
      · obtain rfl := htaken 3000 sender d hg
        exact Or.inl ⟨d,hg,hp⟩
      · exact Or.inr hc
    · rcases dest_of_follows hf hmem with he | ⟨d',hd⟩
      · exact he
      · exact h _ hd

theorem Processed.isolated_iff {c : ServerCall}
    (h : Processed config c.cmd c.before c.trace c.code c.after)
    (hcmd : c.cmd.getCommand = some .SEND ∨ c.cmd.getCommand = some .RENAME) :
    Isolated c ↔ ∀ p ∈ arrived c.trace, p.1 = c.before.currentClientAddr := by
  obtain ⟨cmd,m,tr,e,m'⟩ := c
  simp only at h hcmd
  obtain ⟨h,hr⟩ := h
  have hlog := hr.commandEvents.storesReceived
  cases h with
  | send _ h =>
    have hf := h.follows
    exact Server.isolated_iff (by rw [follows_append,hf]; exact hr.follows _)
      (h.storesReceived.append hlog)
  | rename _ h =>
    have hf := h.follows
    exact Server.isolated_iff (by rw [follows_append,hf]; exact hr.follows _)
      (h.commandEvents.storesReceived.append hlog)
  | _ => simp_all

theorem Processed.takesUpTo {c : ServerCall}
    (h : Processed config c.cmd c.before c.trace c.code c.after)
    (hcmd : c.cmd.getCommand = some .SEND ∨ c.cmd.getCommand = some .RENAME)
    (later : List (Addr × Bytes)) :
    TakesUpTo (takes c.cmd (found c.trace) (arrived c.trace ++ later)) c.trace := by
  obtain ⟨cmd,m,tr,e,m'⟩ := c
  simp only at h hcmd
  obtain ⟨h,hr⟩ := h
  cases hr
  have hlogged : ∀ {n : Nat} {tr : Trace} {name : Bytes}, TakesUpTo n tr →
      TakesUpTo n (tr ++ [⟨.cstring 128 cmd.tail,name⟩]) := by
    intro n tr name htakes
    have hsame : arrived (tr ++ [⟨.cstring 128 cmd.tail,name⟩]) = arrived tr := by
      rw [arrived_append]
      exact List.append_nil _
    unfold TakesUpTo
    rw [hsame]
    exact ⟨htakes.1,fun hp => htakes.2 fun ev hev => hp ev (List.mem_append_left _ hev)⟩
  rw [arrived_append,found_append]
  cases h with
  | send hc h =>
    have htakes := h.takesUpTo hc later
    exact hlogged (by simpa [arrived,found] using htakes)
  | rename hc h =>
    have htakes := h.takesUpTo hc later
    exact hlogged (by simpa [arrived,found] using htakes)
  | _ => simp_all

/-- The datagrams that a handler takes are the ones that arrive right behind its
command. -/
theorem ServerRun.arrived_call {calls : List ServerCall} (h : ServerRun config m tr calls m') :
    ∀ c ∈ calls, ∃ before command after,
      arrived tr = before ++ (c.before.currentClientAddr,command) :: (arrived c.trace ++ after) ∧
      CmdMsg.received command = c.cmd := by
  induction h with
  | stop m => simp
  | idle _ _ _ ih =>
    intro c hc
    obtain ⟨before,command,after,he,hcmd⟩ := ih c hc
    exact ⟨_,command,after,by rw [arrived_append,he,← List.append_assoc],hcmd⟩
  | @call m m₁ m₂ m' trn trc tr datagram e calls _ hnext _ _ ih =>
    obtain ⟨sender,-,rfl,rfl⟩ := runs_nextCommand_some hnext
    have hfailed : arrived (failed (CmdMsg.received datagram) e) = [] := by
      unfold failed
      split <;> rfl
    refine List.forall_mem_cons.mpr ⟨⟨[],datagram,arrived tr,?_,rfl⟩,fun c hc => ?_⟩
    · simp only [arrived_append,hfailed,List.append_assoc]
      rfl
    · obtain ⟨before,command,after,he,hcmd⟩ := ih c hc
      exact ⟨_,command,after,by rw [arrived_append,he,← List.append_assoc],hcmd⟩

/-- A SEND or RENAME is isolated exactly when the datagrams that arrive right behind it,
as many as its handler takes, come from the same address. How many these are the command, the
files that are found and the confirmation say; they are fewer only where a receive comes back
empty or a reply does not go out. -/
theorem server_isolated {calls : List ServerCall} (h : ServerRun config m tr calls m') :
    ∀ c ∈ calls, (c.cmd.getCommand = some .SEND ∨ c.cmd.getCommand = some .RENAME) →
      (∃ before command after, arrived tr =
        before ++ (c.before.currentClientAddr,command) :: (arrived c.trace ++ after) ∧
          CmdMsg.received command = c.cmd ∧
          TakesUpTo (takes c.cmd (found c.trace) (arrived c.trace ++ after)) c.trace) ∧
      (Isolated c ↔ ∀ p ∈ arrived c.trace, p.1 = c.before.currentClientAddr) := by
  intro c hc hcmd
  obtain ⟨before,command,after,harrived,hreceived⟩ := h.arrived_call c hc
  have htakes := h.forall_calls (fun _ hp => hp.takesUpTo) c hc hcmd after
  exact ⟨⟨before,command,after,harrived,hreceived,htakes⟩,
    h.forall_calls (fun _ hp => hp.isolated_iff) c hc hcmd⟩

end Isolation

/-- X sends a file `a`, and a LS of Y arrives before its content. -/
def interruptedTrace : Trace :=
  let m := (init sampleConfig).serving sampleAddr
  let cmd := sampleCmd .SEND ['a'] 0
  let other : Addr := ⟨2,2⟩
  let path := ascii ['b','/','a']
  [⟨.cstring 128 cmd.tail,[]⟩,⟨.accepted (ascii ['a']),()⟩,⟨.fileExists path,false⟩,
    sent m (reply .ACK 0).encode true,got 3000 other (sampleCmd .LS [] 0).encode,
    ⟨.ofstream path,true⟩,⟨.write path [],⟨0,Nat.zero_lt_one⟩⟩,⟨.metric (.recordBytesReceived 0),()⟩,
    ⟨.metric .recordSendSession,()⟩,sent (m.serving other) (reply .ACK 0).encode true,
    ⟨.cstring 128 cmd.tail,[]⟩]

theorem interrupted_run : ∃ e m, replay (processCommand sampleConfig (sampleCmd .SEND ['a'] 0)
    ((init sampleConfig).serving sampleAddr)) interruptedTrace = some (e,m) :=
  replay_of_isSome (by decide +kernel)

/-- The LS of Y is taken for the content of the file, and the reply goes to Y. -/
theorem not_server_isolated_always :
    ¬∀ (config : ServerConfig) (tr : Trace) (calls : List ServerCall) (m : Members),
      ServerRun config (init config) tr calls m → ∀ c ∈ calls,
        (c.cmd.getCommand = some .SEND ∨ c.cmd.getCommand = some .RENAME) → Isolated c := by
  intro hall
  obtain ⟨e,m,h⟩ := interrupted_run
  have hcmd : (sampleCmd .SEND ['a'] 0).getCommand = some .SEND := by decide +kernel
  have hi := hall _ _ _ _ (serverRun_single h) _ (List.mem_singleton_self _) (Or.inl hcmd)
  have hx : (⟨2,2⟩ : Addr) = sampleAddr :=
    hi.taken 3000 ⟨2,2⟩ (sampleCmd .LS [] 0).encode (by simp [interruptedTrace])
  exact absurd hx (by decide)

theorem server_isolated_interruptedTrace : ∃ c : ServerCall, c.trace = interruptedTrace ∧
    (arrived interruptedTrace).length = 1 ∧
    (Isolated c ↔ ∀ p ∈ arrived interruptedTrace, p.1 = sampleAddr) := by
  obtain ⟨e,m,h⟩ := interrupted_run
  have hcmd : (sampleCmd .SEND ['a'] 0).getCommand = some .SEND := by decide +kernel
  exact ⟨_,rfl,rfl,(server_isolated (serverRun_single h) _ (List.mem_singleton_self _)
    (Or.inl hcmd)).2⟩

end NetworkLab.Backup.Server
