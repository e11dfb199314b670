import NetworkLab.Backup.Events
set_option autoImplicit false

/-! The counters, `metrics.cpp`, and what `GET /api/metrics` tells of them. Latencies and
times are left out. -/

namespace NetworkLab.Backup
open Interaction

/-- What has been added to each counter. A counter that is not in a map yet is zero. -/
structure Metrics where
  requestCounts : String → Nat
  errorCounts : String → Nat
  bytesReceived : Nat
  bytesSent : Nat
  sendSessions : Nat
  sendFailures : Nat
  httpRequests : Nat

namespace Metrics

def reset : Metrics :=
  { requestCounts := fun _ => 0, errorCounts := fun _ => 0, bytesReceived := 0, bytesSent := 0,
    sendSessions := 0, sendFailures := 0, httpRequests := 0 }

/-- `getOrCreateCounter(map, key).fetch_add(1)`. -/
def add (key : String) (counts : String → Nat) : String → Nat :=
  fun k => if k = key then counts k + 1 else counts k

def record (s : Metrics) : Metric → Metrics
  | .recordRequest command => { s with requestCounts := add command s.requestCounts }
  | .recordError command error =>
      { s with errorCounts := add command (add (command ++ ":" ++ error) s.errorCounts) }
  | .recordBytesReceived bytes => { s with bytesReceived := s.bytesReceived + bytes }
  | .recordSendSession => { s with sendSessions := s.sendSessions + 1 }
  | .recordSendFailure => { s with sendFailures := s.sendFailures + 1 }
  | .recordHttpRequest endpoint method =>
      { s with httpRequests := s.httpRequests + 1
               requestCounts := add (method ++ ":" ++ endpoint) s.requestCounts }

end Metrics

/-- What a `std::atomic<uint64_t>` shows to which `n` has been added. -/
def shown (n : Nat) : Nat := (UInt64.ofNat n).toNat

theorem shown_eq (n : Nat) : shown n = n % 2 ^ 64 := UInt64.toNat_ofNat'

@[simp] theorem shown_zero : shown 0 = 0 := rfl

structure ByCommand where
  ls : Nat
  send : Nat
  remove : Nat
  rename : Nat
  deriving DecidableEq, Repr

structure ByHttpEndpoint where
  upload : Nat
  delete : Nat
  rename : Nat
  deriving DecidableEq, Repr

structure MetricsResponse where
  requestsByCommand : ByCommand
  requestsByHttpEndpoint : ByHttpEndpoint
  httpTotal : Nat
  errorsByCommand : ByCommand
  errorsByHttpEndpoint : ByHttpEndpoint
  bytesReceived : Nat
  bytesSent : Nat
  sendSessions : Nat
  sendFailures : Nat
  deriving DecidableEq, Repr

/-- The handler of `GET /api/metrics`: it counts the query, then it reads. -/
def getMetrics (s : Metrics) : MetricsResponse :=
  let s := s.record (.recordHttpRequest "/api/metrics" "GET")
  let requests := fun command => shown (s.requestCounts command)
  let errors := fun command => shown (s.errorCounts command)
  { requestsByCommand :=
      { ls := requests "ls", send := requests "send"
        remove := requests "remove", rename := requests "rename" }
    requestsByHttpEndpoint :=
      { upload := requests "http_upload", delete := requests "http_delete"
        rename := requests "http_rename" }
    httpTotal := shown s.httpRequests
    errorsByCommand :=
      { ls := errors "ls", send := errors "send"
        remove := errors "remove", rename := errors "rename" }
    errorsByHttpEndpoint :=
      { upload := errors "http_upload", delete := errors "http_delete"
        rename := errors "http_rename" }
    bytesReceived := shown s.bytesReceived
    bytesSent := shown s.bytesSent
    sendSessions := shown s.sendSessions
    sendFailures := shown s.sendFailures }

/-- The counters behind a trace. -/
def metricsAfter (s : Metrics) (tr : Trace) : Metrics :=
  tr.foldl (fun s ev => match ev with
    | ⟨.metric m,_⟩ => s.record m
    | _ => s) s

namespace Server

/-- The metrics that the UDP server records: nothing under the names that the endpoint
asks for. -/
inductive UdpMetric : Metric → Prop where
  | request (command : Option Command) : UdpMetric (.recordRequest (commandToString command))
  | error (command : Option Command) (e : ErrorCode) :
      UdpMetric (.recordError (commandToString command) (errorCodeToString e))
  | bytesReceived (bytes : Nat) : UdpMetric (.recordBytesReceived bytes)
  | sendSession : UdpMetric .recordSendSession

section Keys

def endpointKeys : List String := ["ls","send","remove","rename"]

theorem commandToString_notMem (c : Option Command) : commandToString c ∉ endpointKeys := by
  rcases c with _ | c
  · decide
  · cases c <;> decide

theorem errorKey_notMem (c : Option Command) (e : ErrorCode) :
    commandToString c ++ ":" ++ errorCodeToString e ∉ endpointKeys := by
  rcases c with _ | c
  · cases e <;> decide
  · cases c <;> cases e <;> decide

variable {s : Metrics} {m : Metric} {key : String}

theorem UdpMetric.requestCounts (h : UdpMetric m) (hk : key ∈ endpointKeys) :
    (s.record m).requestCounts key = s.requestCounts key := by
  cases h with
  | request c =>
    have hne : key ≠ commandToString c := fun he => commandToString_notMem c (he ▸ hk)
    simp [Metrics.record,Metrics.add,hne]
  | error c e => rfl
  | bytesReceived n => rfl
  | sendSession => rfl

theorem UdpMetric.errorCounts (h : UdpMetric m) (hk : key ∈ endpointKeys) :
    (s.record m).errorCounts key = s.errorCounts key := by
  cases h with
  | request c => rfl
  | error c e =>
    have hne : key ≠ commandToString c := fun he => commandToString_notMem c (he ▸ hk)
    have hne' : key ≠ commandToString c ++ ":" ++ errorCodeToString e :=
      fun he => errorKey_notMem c e (he ▸ hk)
    simp [Metrics.record,Metrics.add,hne,hne']
  | bytesReceived n => rfl
  | sendSession => rfl

theorem metricsAfter_key {tr : Trace} (h : ∀ m, ⟨.metric m,()⟩ ∈ tr → UdpMetric m)
    (hk : key ∈ endpointKeys) (s : Metrics) :
    (metricsAfter s tr).requestCounts key = s.requestCounts key ∧
    (metricsAfter s tr).errorCounts key = s.errorCounts key := by
  induction tr generalizing s with
  | nil => exact ⟨rfl,rfl⟩
  | cons ev tr ih =>
    have ih := ih (fun m hm => h m (List.mem_cons_of_mem _ hm))
    unfold metricsAfter at ih ⊢
    rw [List.foldl_cons]
    split
    · rename_i m _
      have hm := h m List.mem_cons_self
      exact ⟨(ih _).1.trans (hm.requestCounts hk),(ih _).2.trans (hm.errorCounts hk)⟩
    · exact ih s

end Keys

/-! What a run records. -/

section Recorded
variable {config : ServerConfig} {cmd : CmdMsg} {m m' : Members} {tr : Trace} {e : ErrorCode}
variable {filepath : Bytes} {filesize : Nat}

def Records (tr : Trace) : Prop := ∀ x, ⟨.metric x,()⟩ ∈ tr → UdpMetric x

theorem Records.append {tr' : Trace} (h : Records tr) (h' : Records tr') :
    Records (tr ++ tr') := fun x hx => (List.mem_append.mp hx).elim (h x) (h' x)

theorem AnyFile.records (h : AnyFile filepath filesize m tr e m') : Records tr := by
  intro x hx
  cases h.fileEvent _ hx with
  | received n => exact .bytesReceived n
  | session => exact .sendSession

theorem CommandEvents.records (h : CommandEvents tr) : Records tr :=
  fun _ hx => by cases h _ hx

theorem Send.records (h : Send config cmd m tr e m') : Records tr := by
  rcases h.commandEvents with ⟨hc,-⟩ | ⟨tr₁,tr₂,m₁,filepath,filesize,rfl,hc,-,hf⟩
  · exact hc.records
  · exact hc.records.append hf.records

theorem Processed.records (h : Processed config cmd m tr e m') : Records tr := by
  obtain ⟨h,hr⟩ := h
  refine Records.append ?_ hr.commandEvents.records
  rcases h.cases_send with ⟨-,h⟩ | ⟨-,hc,-⟩
  · exact h.records
  · exact hc.records

theorem ServerRun.records {calls : List ServerCall} (h : ServerRun config m tr calls m') :
    Records tr := by
  induction h with
  | stop m => exact fun x hx => absurd hx List.not_mem_nil
  | idle _ hnext _ ih =>
    refine Records.append ?_ ih
    rcases runs_nextCommand_none hnext with ⟨rfl,-⟩ | ⟨rfl,-⟩ | ⟨r,rfl,hn⟩
    · simp [Records]
    · simp [Records]
    · cases hn <;> simp [Records,got]
  | @call m m₁ m₂ m' trn trc tr datagram e calls _ hnext hp _ ih =>
    obtain ⟨sender,-,rfl,-⟩ := runs_nextCommand_some hnext
    have hnext : Records [⟨.select,.readable⟩,got 137 sender datagram] := by simp [Records,got]
    have hreq : ∀ cmd : CmdMsg, Records (requested cmd) := by
      intro cmd x hx
      simp [requested] at hx
      exact hx ▸ .request _
    have hfail : ∀ (cmd : CmdMsg) (e : ErrorCode), Records (failed cmd e) := by
      intro cmd e x hx
      unfold failed at hx
      split at hx
      · simp at hx
        exact hx ▸ .error _ _
      · simp at hx
    have hcall := (hreq (CmdMsg.received datagram)).append (runs_processCommand hp).records
    exact (hnext.append (hcall.append (hfail _ e))).append ih

/-- How many commands of a kind were dispatched, and how many of them failed. -/
def dispatched (calls : List ServerCall) (command : Command) : Nat :=
  calls.countP fun c => c.cmd.getCommand = some command

def failures (calls : List ServerCall) (command : Command) : Nat :=
  calls.countP fun c => c.cmd.getCommand = some command ∧ c.code ≠ .SUCCESS

/-- What `GET /api/metrics` should tell about the commands of a run. -/
def countedCommands (f : Command → Nat) : ByCommand :=
  { ls := f .LS, send := f .SEND, remove := f .REMOVE, rename := f .RENAME }

def FileCommand (cmd : CmdMsg) : Prop :=
  cmd.getCommand ∈ ([some .LS,some .SEND,some .REMOVE,some .RENAME] : List (Option Command))

theorem getMetrics_byCommand (h : Records tr) :
    (getMetrics (metricsAfter .reset tr)).requestsByCommand = ⟨0,0,0,0⟩ ∧
    (getMetrics (metricsAfter .reset tr)).errorsByCommand = ⟨0,0,0,0⟩ := by
  have hkey := fun k (hk : k ∈ endpointKeys) => metricsAfter_key h hk .reset
  have hls := hkey "ls" (by decide)
  have hsend := hkey "send" (by decide)
  have hremove := hkey "remove" (by decide)
  have hrename := hkey "rename" (by decide)
  have hzero : ∀ k, Metrics.reset.requestCounts k = 0 ∧ Metrics.reset.errorCounts k = 0 :=
    fun _ => ⟨rfl,rfl⟩
  simp [getMetrics,Metrics.record,Metrics.add,hls,hsend,hremove,hrename,hzero]

theorem dispatched_eq_zero {calls : List ServerCall} :
    (∀ c ∈ calls, ¬FileCommand c.cmd) ↔ countedCommands (dispatched calls) = ⟨0,0,0,0⟩ := by
  simp only [countedCommands,ByCommand.mk.injEq,dispatched,List.countP_eq_zero,
    decide_eq_true_eq,FileCommand,List.mem_cons,List.not_mem_nil,or_false,not_or]
  constructor
  · exact fun h => ⟨fun c hc => (h c hc).1,fun c hc => (h c hc).2.1,fun c hc => (h c hc).2.2.1,
      fun c hc => (h c hc).2.2.2⟩
  · exact fun h c hc => ⟨h.1 c hc,h.2.1 c hc,h.2.2.1 c hc,h.2.2.2 c hc⟩

theorem failures_le (calls : List ServerCall) (command : Command) :
    failures calls command ≤ dispatched calls command := by
  refine List.countP_mono_left fun c _ hc => ?_
  simp only [decide_eq_true_eq] at hc ⊢
  exact hc.1

/-- The endpoint tells the numbers of a run exactly when there is nothing to tell: the
server counts under `CMD_LS` and so on, the endpoint reads `ls` and so on. -/
theorem server_metrics {calls : List ServerCall} (h : ServerRun config (init config) tr calls m') :
    (let r := getMetrics (metricsAfter .reset tr)
     r.requestsByCommand = countedCommands (dispatched calls) ∧
       r.errorsByCommand = countedCommands (failures calls)) ↔
      ∀ c ∈ calls, ¬FileCommand c.cmd := by
  obtain ⟨hreq,herr⟩ := getMetrics_byCommand h.records
  simp only [hreq,herr,dispatched_eq_zero]
  constructor
  · exact fun h => h.1.symm
  · intro h0
    refine ⟨h0.symm,?_⟩
    simp only [countedCommands,ByCommand.mk.injEq] at h0 ⊢
    have hle := failures_le calls
    have := hle .LS
    have := hle .SEND
    have := hle .REMOVE
    have := hle .RENAME
    omega

end Recorded

theorem server_metrics_missing : ∃ (tr : Trace) (calls : List ServerCall), calls.length = 1 ∧
    ((let r := getMetrics (metricsAfter .reset tr)
      r.requestsByCommand = countedCommands (dispatched calls) ∧
        r.errorsByCommand = countedCommands (failures calls)) ↔
      ∀ c ∈ calls, ¬FileCommand c.cmd) := by
  obtain ⟨m,h⟩ := missing_run
  exact ⟨_,_,rfl,server_metrics (serverRun_single h)⟩

/-- One REMOVE has been dispatched, and `requests.by_command.remove` is 0. -/
theorem not_server_metrics_always :
    ¬∀ (config : ServerConfig) (tr : Trace) (calls : List ServerCall) (m : Members),
      ServerRun config (init config) tr calls m →
        (getMetrics (metricsAfter .reset tr)).requestsByCommand =
          countedCommands (dispatched calls) ∧
        (getMetrics (metricsAfter .reset tr)).errorsByCommand =
          countedCommands (failures calls) := by
  intro hall
  obtain ⟨m,h⟩ := missing_run
  have hr := (hall _ _ _ _ (serverRun_single h)).1
  have hzero := (getMetrics_byCommand (serverRun_single h).records).1
  have hcmd : (sampleCmd .REMOVE ['a'] 0).getCommand = some .REMOVE := by decide +kernel
  rw [hzero] at hr
  simp [countedCommands,dispatched,hcmd] at hr

end Server

end NetworkLab.Backup
