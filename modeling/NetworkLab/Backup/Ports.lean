import NetworkLab.Backup.Events
import Mathlib.Data.UInt
set_option autoImplicit false

/-! The ports of the transfers: which one is announced, and which one listens. -/

namespace NetworkLab.Backup.Server
open Interaction

/-- The datagrams that are sent while a port has just begun to listen, with that port:
the announcements of a large transfer. -/
def announced : Trace → List (UInt16 × Bytes)
  | ⟨.bind port,true⟩ :: ⟨.listen,true⟩ :: ⟨.sendto _ datagram,_⟩ :: tr =>
    (port,datagram) :: announced tr
  | _ :: tr => announced tr
  | [] => []

/-- The large transfers that got as far as the file. -/
def transfers : Trace → Nat
  | ⟨.accept,true⟩ :: ⟨.ofstream _,true⟩ :: tr => transfers tr + 1
  | _ :: tr => transfers tr
  | [] => 0

/-- A socket bound to port 0 gets another port from the system. -/
def ListensOn (port actual : UInt16) : Prop := if port = 0 then actual ≠ 0 else actual = port

/-- Whatever port listens, it is the announced one and it is mapped by `docker-compose`. -/
def PortsUsable (tr : Trace) : Prop :=
  ∀ a ∈ announced tr, ∀ actual, ListensOn a.1 actual →
    (CmdMsg.decode a.2).size.toNat = actual.toNat ∧
    40000 ≤ (CmdMsg.decode a.2).size.toNat ∧ (CmdMsg.decode a.2).size.toNat ≤ 40010

section Ports
variable {config : ServerConfig} {cmd : CmdMsg} {m m' : Members} {tr : Trace} {e : ErrorCode}
variable {filepath : Bytes} {filesize : Nat}

/-- No part of an announcement or of a finished transfer. -/
def Plain (ev : Event Res) : Prop := (∀ port, ev.1 ≠ .bind port) ∧ ev.1 ≠ .accept

theorem announced_plain {ev : Event Res} (h : Plain ev) (tr : Trace) :
    announced (ev :: tr) = announced tr := by
  rw [announced]
  rintro port dest d ok tr' rfl
  exact absurd rfl (h.1 port)

theorem transfers_plain {ev : Event Res} (h : Plain ev) (tr : Trace) :
    transfers (ev :: tr) = transfers tr := by
  rw [transfers]
  rintro path tr' rfl
  exact absurd rfl h.2

theorem announced_append_plain {tr : Trace} (h : ∀ ev ∈ tr, Plain ev) (tr' : Trace) :
    announced (tr ++ tr') = announced tr' := by
  induction tr with
  | nil => rfl
  | cons ev tr ih =>
    rw [List.cons_append,announced_plain (h ev List.mem_cons_self)]
    exact ih fun ev hev => h ev (List.mem_cons_of_mem _ hev)

theorem transfers_append_plain {tr : Trace} (h : ∀ ev ∈ tr, Plain ev) (tr' : Trace) :
    transfers (tr ++ tr') = transfers tr' := by
  induction tr with
  | nil => rfl
  | cons ev tr ih =>
    rw [List.cons_append,transfers_plain (h ev List.mem_cons_self)]
    exact ih fun ev hev => h ev (List.mem_cons_of_mem _ hev)

/-- What one call does with ports: nothing, or it announces the current one and goes on
to the next if the transfer gets as far as the file. -/
def Ported (m : Members) (tr : Trace) (m' : Members) : Prop :=
  announced tr = [] ∧ transfers tr = 0 ∧ m'.currentTcpPort = m.currentTcpPort ∨
  ∃ d, announced tr = [(m.currentTcpPort,d)] ∧
    (CmdMsg.decode d).size = m.currentTcpPort.toUInt32 ∧
    m'.currentTcpPort = m.currentTcpPort + UInt16.ofNat (transfers tr)

theorem ported_plain (h : ∀ ev ∈ tr, Plain ev) (hm : m'.currentTcpPort = m.currentTcpPort) :
    Ported m tr m' := by
  have ha := announced_append_plain h []
  have ht := transfers_append_plain h []
  rw [List.append_nil] at ha ht
  exact Or.inl ⟨ha,ht,hm⟩

theorem Ported.cons {m₁ : Members} (h : Ported m₁ tr m') (hm : m₁.currentTcpPort = m.currentTcpPort)
    {tr' : Trace} (hp : ∀ ev ∈ tr', Plain ev) : Ported m (tr' ++ tr) m' := by
  unfold Ported
  rw [announced_append_plain hp,transfers_append_plain hp,← hm]
  exact h

theorem SmallFile.plain (h : SmallFile filepath filesize m tr e m') :
    (∀ ev ∈ tr, Plain ev) ∧ m'.currentTcpPort = m.currentTcpPort := by
  cases h with
  | noData hn => cases hn <;> simp [Plain,sent,got,Members.serving]
  | noFile hd => simp [Plain,sent,got,Members.serving]
  | stored stored hd => simp [Plain,sent,got,Members.serving,counted]

theorem Chunks.plain {good : Bool} {total n : Nat} (h : Chunks filepath filesize good total tr n) :
    ∀ ev ∈ tr, Plain ev := by
  induction h with
  | full _ => simp
  | closed _ => simp [Plain]
  | stored chunk stored _ _ ih =>
    simp only [List.forall_mem_cons]
    exact ⟨by simp [Plain],by simp [Plain],ih⟩
  | dropped chunk _ _ ih =>
    simp only [List.forall_mem_cons]
    exact ⟨by simp [Plain],ih⟩

theorem portAck_size (m : Members) :
    (CmdMsg.decode (portAck m).encode).size = m.currentTcpPort.toUInt32 := by
  rw [CmdMsg.decode_encode]
  rfl

theorem LargeFile.ported (h : LargeFile filepath filesize m tr e m') {post : Trace}
    (hpost : ∀ ev ∈ post, Plain ev) : Ported m (tr ++ post) m' := by
  have ha := announced_append_plain hpost []
  have ht := transfers_append_plain hpost []
  rw [List.append_nil] at ha ht
  have hsize := portAck_size m
  cases h with
  | noSocket => exact Or.inl ⟨by simpa [announced] using ha,by simpa [transfers] using ht,rfl⟩
  | noBind => exact Or.inl ⟨by simpa [announced] using ha,by simpa [transfers] using ht,rfl⟩
  | noListen => exact Or.inl ⟨by simpa [announced] using ha,by simpa [transfers] using ht,rfl⟩
  | notSent =>
    refine Or.inr ⟨_,by simpa [announced,listening,sent] using ha,hsize,?_⟩
    simp [transfers,listening,sent,ht]
  | noAccept =>
    refine Or.inr ⟨_,by simpa [announced,listening,sent] using ha,hsize,?_⟩
    simp [transfers,listening,sent,ht]
  | noFile =>
    refine Or.inr ⟨_,by simpa [announced,listening,sent] using ha,hsize,?_⟩
    simp [transfers,listening,sent,ht]
  | finished ok hc =>
    have hcount : ∀ total, ∀ ev ∈ counted total, Plain ev := by simp [counted,Plain]
    refine Or.inr ⟨_,?_,hsize,?_⟩
    · simp [announced,listening,sent,announced_append_plain hc.plain,
        announced_append_plain (hcount _),ha]
    · simp [transfers,listening,sent,transfers_append_plain hc.plain,
        transfers_append_plain (hcount _),ht]

theorem AnyFile.ported (h : AnyFile filepath filesize m tr e m') {post : Trace}
    (hpost : ∀ ev ∈ post, Plain ev) : Ported m (tr ++ post) m' := by
  rcases h with ⟨-,h⟩ | ⟨-,h⟩
  · obtain ⟨hp,hm⟩ := h.plain
    exact ported_plain (List.forall_mem_append.mpr ⟨hp,hpost⟩) hm
  · exact h.ported hpost

theorem CommandEvents.plain (h : CommandEvents tr) : ∀ ev ∈ tr, Plain ev :=
  fun ev hev => by cases h ev hev <;> simp [Plain]

theorem Send.ported (h : Send config cmd m tr e m') {post : Trace}
    (hpost : ∀ ev ∈ post, Plain ev) : Ported m (tr ++ post) m' := by
  rcases h.commandEvents with ⟨hc,hm⟩ | ⟨tr₁,tr₂,m₁,filepath,filesize,rfl,hc,hm,hf⟩
  · exact ported_plain (List.forall_mem_append.mpr ⟨hc.plain,hpost⟩) hm
  · rw [List.append_assoc]
    exact (hf.ported hpost).cons hm hc.plain

theorem Processed.ported (h : Processed config cmd m tr e m') : Ported m tr m' := by
  obtain ⟨h,hr⟩ := h
  have hlog := hr.commandEvents.plain
  rcases h.cases_send with ⟨-,h⟩ | ⟨-,hc,hm⟩
  · exact h.ported hlog
  · exact ported_plain (List.forall_mem_append.mpr ⟨hc.plain,hlog⟩) hm

theorem Ported.next (h : Ported m tr m') :
    m'.currentTcpPort = m.currentTcpPort + UInt16.ofNat (transfers tr) := by
  rcases h with ⟨-,ht,hm⟩ | ⟨d,-,-,hm⟩
  · simp [ht,hm]
  · exact hm

/-- The ports of one call are usable when it announces none, or one that is mapped. -/
theorem Ported.usable_iff (h : Ported m tr m') :
    PortsUsable tr ↔ announced tr = [] ∨
      40000 ≤ m.currentTcpPort.toNat ∧ m.currentTcpPort.toNat ≤ 40010 := by
  rcases h with ⟨ha,-⟩ | ⟨d,ha,hd,-⟩
  · simp [PortsUsable,ha]
  · simp only [PortsUsable,ha,List.mem_singleton,forall_eq,hd,List.cons_ne_self,false_or,
      UInt16.toNat_toUInt32]
    constructor
    · intro h
      by_cases h0 : m.currentTcpPort = 0
      · exact (h 1 (by rw [ListensOn,if_pos h0]; decide)).2
      · exact (h m.currentTcpPort (by rw [ListensOn,if_neg h0])).2
    · intro h actual hl
      have h0 : m.currentTcpPort ≠ 0 := by
        intro h0
        rw [h0] at h
        exact absurd h.1 (by decide)
      rw [ListensOn,if_neg h0] at hl
      rw [hl]
      exact ⟨rfl,h⟩

/-- All finished transfers of some calls. -/
def allTransfers (calls : List ServerCall) : Nat :=
  calls.foldr (fun c n => transfers c.trace + n) 0

@[simp] theorem afterCall_currentTcpPort (m : Members) :
    (afterCall m).currentTcpPort = m.currentTcpPort := by
  unfold afterCall
  split <;> rfl

theorem ServerRun.ported {calls : List ServerCall} (h : ServerRun config m tr calls m') :
    ∀ pre c post, calls = pre ++ c :: post →
      c.before.currentTcpPort = m.currentTcpPort + UInt16.ofNat (allTransfers pre) ∧
      Ported c.before c.trace c.after := by
  induction h with
  | stop m =>
    intro pre c post he
    simp at he
  | idle _ hnext _ ih =>
    intro pre c post he
    have hm : ∀ {m m' : Members} {tr : Trace}, Runs nextCommand m tr none m' →
        m'.currentTcpPort = m.currentTcpPort := by
      intro m m' tr hn
      rcases runs_nextCommand_none hn with ⟨-,rfl⟩ | ⟨-,rfl⟩ | ⟨r,-,hr⟩
      · rfl
      · rfl
      · cases hr <;> rfl
    rw [← hm hnext]
    exact ih pre c post he
  | call _ hnext hp _ ih =>
    intro pre c post he
    obtain ⟨sender,-,-,rfl⟩ := runs_nextCommand_some hnext
    have hported := (runs_processCommand hp).ported
    cases pre with
    | nil =>
      obtain ⟨rfl,-⟩ := List.cons_eq_cons.mp he
      exact ⟨by simp [allTransfers,Members.serving],hported⟩
    | cons c₀ pre =>
      obtain ⟨rfl,he₁⟩ := List.cons_eq_cons.mp he
      obtain ⟨hb,hc⟩ := ih pre c post he₁
      refine ⟨?_,hc⟩
      rw [hb,afterCall_currentTcpPort,hported.next]
      simp [allTransfers,Members.serving,UInt16.add_assoc]

/-- With the default base port a call announces usable ports exactly when it announces
none, or at most 10 transfers have finished before it, counted modulo 65536. -/
theorem server_ports {calls : List ServerCall} (hport : config.tcpPort = 40000)
    (h : ServerRun config (init config) tr calls m') :
    ∀ pre c post, calls = pre ++ c :: post →
      (PortsUsable c.trace ↔ announced c.trace = [] ∨ allTransfers pre % 65536 ≤ 10) := by
  intro pre c post he
  obtain ⟨hb,hported⟩ := h.ported pre c post he
  have hnat : c.before.currentTcpPort.toNat = (40000 + allTransfers pre % 65536) % 65536 := by
    rw [hb]
    simp [init,hport]
  have hrange : 40000 ≤ c.before.currentTcpPort.toNat ∧
      c.before.currentTcpPort.toNat ≤ 40010 ↔ allTransfers pre % 65536 ≤ 10 := by omega
  rw [hported.usable_iff,hrange]

end Ports

/-! One client sends large files and closes each connection at once. -/

def busy (k : Nat) : Members :=
  { init sampleConfig with currentClientAddr := sampleAddr
                           currentTcpPort := 40000 + UInt16.ofNat k }

def largeCmd : CmdMsg := sampleCmd .SEND ['a'] 3001

def closedTrace (k : Nat) : Trace :=
  let path := ascii ['b','/','a']
  [⟨.cstring 128 largeCmd.tail,[]⟩,⟨.accepted (ascii ['a']),()⟩,⟨.fileExists path,false⟩] ++
    listening (busy k) ++
    [sent (busy k) (portAck (busy k)).encode true,⟨.accept,true⟩,⟨.ofstream path,true⟩,
      ⟨.recv 3000,none⟩] ++ counted 0 ++
    [sent (busy k) (portAck (busy k)).encode true,⟨.cstring 128 largeCmd.tail,[]⟩]

def closedAfter (k : Nat) : Members :=
  { busy k with currentTcpPort := 40000 + UInt16.ofNat k + 1, state := .PROCESS_SEND }

def closedCall (k : Nat) : ServerCall :=
  ⟨largeCmd,busy k,closedTrace k,.SUCCESS,closedAfter k⟩

theorem closed_replay : ∀ k < 12,
    replay (processCommand sampleConfig largeCmd (busy k)) (closedTrace k) =
      some (.SUCCESS,closedAfter k) := by
  decide +kernel

/-- The server processes `n` such commands one after the other. -/
theorem closed_run (n : Nat) : ∀ k m, k + n ≤ 12 → m.serving sampleAddr = busy k →
    m.shutdownRequested = false →
    ∃ tr m', ServerRun sampleConfig m tr ((List.range' k n).map closedCall) m' := by
  induction n with
  | zero => exact fun k m _ _ _ => ⟨[],m,.stop m⟩
  | succ n ih =>
    intro k m hk hm hs
    have hafter : (afterCall (closedAfter k)).serving sampleAddr = busy (k + 1) := by
      simp [afterCall,closedAfter,busy,Members.serving,init,UInt16.add_assoc]
    obtain ⟨tr,m',hrest⟩ := ih (k + 1) (afterCall (closedAfter k)) (by omega) hafter rfl
    have hnext : Runs nextCommand m [⟨.select,.readable⟩,got 137 sampleAddr largeCmd.encode]
        (some largeCmd.encode) (busy k) := by
      refine runs_ask_bind.mpr ⟨.readable,_,rfl,?_⟩
      refine runs_recvfrom_bind.mpr (Or.inr ⟨sampleAddr,largeCmd.encode,[],rfl,?_⟩)
      exact runs_pure.mpr ⟨rfl,rfl,hm.symm⟩
    have hproc : Runs (processCommand sampleConfig (CmdMsg.received largeCmd.encode)) (busy k)
        (closedTrace k) .SUCCESS (closedAfter k) := by
      rw [CmdMsg.received_encode]
      exact exec_of_replay (closed_replay k (by omega))
    have hrun := ServerRun.call hs hnext hproc hrest
    rw [CmdMsg.received_encode] at hrun
    exact ⟨_,m',hrun⟩

theorem server_ports_first : PortsUsable (closedTrace 0) := by
  obtain ⟨tr,m,h⟩ := closed_run 1 0 (init sampleConfig) (by decide) rfl rfl
  exact (server_ports rfl h [] (closedCall 0) [] rfl).mpr (Or.inr (by decide))

/-- The twelfth transfer announces port 40011. -/
theorem not_server_ports_always :
    ¬∀ (config : ServerConfig) (tr : Trace) (calls : List ServerCall) (m : Members),
      config.tcpPort = 40000 → ServerRun config (init config) tr calls m →
        ∀ c ∈ calls, PortsUsable c.trace := by
  intro hall
  obtain ⟨tr,m,h⟩ := closed_run 12 0 (init sampleConfig) (by decide) rfl rfl
  have hu := hall _ _ _ _ rfl h (closedCall 11)
    (List.mem_map_of_mem (List.mem_range'_1.mpr (by decide)))
  have hmem : (40011,(portAck (busy 11)).encode) ∈ announced (closedTrace 11) := by
    decide +kernel
  exact absurd (hu _ hmem 40011 rfl).2.2 (by decide +kernel)

end NetworkLab.Backup.Server
