import NetworkLab.Backup.Linearizable
import NetworkLab.Backup.Metrics
import Mathlib.Data.Rat.Floor
import Mathlib.Tactic.Linarith
import Mathlib.Tactic.Positivity
set_option autoImplicit false

/-! The success rate that `GET /api/metrics` computes. -/

namespace NetworkLab.Backup
open Interaction

/-- `100.0 * (getSendSessions() - getSendFailures()) / getSendSessions()`, from the counters of
64 bits. -/
def successRatePct (sendSessions sendFailures : UInt64) : ℚ :=
  if 0 < sendSessions then
    100 * ((sendSessions - sendFailures).toNat : ℚ) / (sendSessions.toNat : ℚ)
  else 100

/-- The subtraction is exact where it is made, and the rate is a percentage. -/
structure Percentage (sendSessions sendFailures : UInt64) : Prop where
  exact : 0 < sendSessions →
    (sendSessions - sendFailures).toNat + sendFailures.toNat = sendSessions.toNat
  nonneg : 0 ≤ successRatePct sendSessions sendFailures
  le : successRatePct sendSessions sendFailures ≤ 100

theorem percentage_iff (s f : UInt64) :
    Percentage s f ↔ s.toNat = 0 ∨ f.toNat ≤ s.toNat := by
  have hpos : 0 < s ↔ 0 < s.toNat := UInt64.lt_iff_toNat_lt
  constructor
  · intro h
    rcases Nat.eq_zero_or_pos s.toNat with hs | hs
    · exact Or.inl hs
    · exact Or.inr (by have := h.exact (hpos.mpr hs); omega)
  · intro h
    by_cases hs : 0 < s
    · have hle : f.toNat ≤ s.toNat := h.resolve_left (by have := hpos.mp hs; omega)
      have hsub : (s - f).toNat = s.toNat - f.toNat :=
        UInt64.toNat_sub_of_le _ _ (UInt64.le_iff_toNat_le.mpr hle)
      have hs' : (0 : ℚ) < s.toNat := by exact_mod_cast hpos.mp hs
      have hle' : ((s - f).toNat : ℚ) ≤ s.toNat := by
        rw [hsub]
        exact_mod_cast Nat.sub_le _ _
      refine ⟨fun _ => by omega,?_,?_⟩
      · rw [successRatePct,if_pos hs]
        positivity
      · rw [successRatePct,if_pos hs,div_le_iff₀ hs']
        linarith
    · refine ⟨fun hc => absurd hc hs,?_,?_⟩
      · rw [successRatePct,if_neg hs]
        norm_num
      · rw [successRatePct,if_neg hs]

/-! What a handler counts. -/

def counts (x : Metric) : Event Res → Bool
  | ⟨.metric m,_⟩ => decide (m = x)
  | _ => false

/-- How often this is counted. -/
def recorded (x : Metric) (tr : Trace) : Nat := tr.countP (counts x)

def opens (ok : Bool) : Event Res → Bool
  | ⟨.ofstream _,opened⟩ => opened == ok
  | _ => false

/-- How many files are created. -/
def created (tr : Trace) : Nat := tr.countP (opens true)

/-- How many files cannot be created. -/
def refusals (tr : Trace) : Nat := tr.countP (opens false)

theorem metricsAfter_transfer (s : Metrics) (tr : Trace) :
    (metricsAfter s tr).sendSessions = s.sendSessions + recorded .recordSendSession tr ∧
      (metricsAfter s tr).sendFailures = s.sendFailures + recorded .recordSendFailure tr := by
  induction tr generalizing s with
  | nil => exact ⟨rfl,rfl⟩
  | cons ev tr ih =>
    obtain ⟨o,r⟩ := ev
    cases o with
    | metric m =>
      obtain ⟨hs,hf⟩ := ih (s.record m)
      change (metricsAfter (s.record m) tr).sendSessions = _ ∧
        (metricsAfter (s.record m) tr).sendFailures = _
      rw [hs,hf]
      cases m <;> simp [recorded,counts,Metrics.record] <;> omega
    | _ =>
      obtain ⟨hs,hf⟩ := ih s
      simp only [recorded,List.countP_cons,counts]
      exact ⟨hs,hf⟩

/-- A call that neither counts nor opens a file. -/
def Idle : Event Res → Prop
  | ⟨.metric _,_⟩ => False
  | ⟨.ofstream _,_⟩ => False
  | _ => True

section Counts
variable {tr tr' : Trace} {x : Metric} {ok : Bool}

@[simp] theorem recorded_append : recorded x (tr ++ tr') = recorded x tr + recorded x tr' :=
  List.countP_append

@[simp] theorem created_append : created (tr ++ tr') = created tr + created tr' :=
  List.countP_append

theorem recorded_of_idle (h : ∀ ev ∈ tr, Idle ev) : recorded x tr = 0 := by
  refine List.countP_eq_zero.mpr fun ev hev hc => ?_
  have hidle := h ev hev
  unfold counts at hc
  split at hc
  · exact hidle
  · cases hc

theorem created_of_idle (h : ∀ ev ∈ tr, Idle ev) : created tr = 0 := by
  refine List.countP_eq_zero.mpr fun ev hev hc => ?_
  have hidle := h ev hev
  unfold opens at hc
  split at hc
  · exact hidle
  · cases hc

end Counts

namespace Server
section Transfers
variable {config : ServerConfig} {cmd : CmdMsg} {m m' : Members} {tr : Trace} {e : ErrorCode}
variable {filepath : Bytes} {filesize : Nat}

theorem CommandEvents.idle (h : CommandEvents tr) : ∀ ev ∈ tr, Idle ev :=
  fun ev hev => by cases h ev hev <;> trivial

theorem Chunks.idle {good : Bool} {total n : Nat} (h : Chunks filepath filesize good total tr n) :
    ∀ ev ∈ tr, Idle ev := by
  induction h with
  | full => simp
  | closed => simp [Idle]
  | stored _ _ _ _ ih => simpa [Idle] using ih
  | dropped _ _ _ ih => simpa [Idle] using ih

/-- A session for each file that is created, and no failures. -/
def Counted (tr : Trace) : Prop :=
  recorded .recordSendSession tr = created tr ∧ recorded .recordSendFailure tr = 0

theorem counted_of_idle (h : ∀ ev ∈ tr, Idle ev) : Counted tr :=
  ⟨(recorded_of_idle h).trans (created_of_idle h).symm,recorded_of_idle h⟩

theorem Counted.append {tr' : Trace} (h : Counted tr) (h' : Counted tr') : Counted (tr ++ tr') := by
  simp only [Counted,recorded_append,created_append]
  exact ⟨by rw [h.1,h'.1],by rw [h.2,h'.2]⟩

theorem AnyFile.counted (h : AnyFile filepath filesize m tr e m') : Counted tr := by
  rcases h with ⟨-,h⟩ | ⟨-,h⟩
  · cases h with
    | noData hr =>
      refine counted_of_idle ?_
      cases hr <;> simp [Idle,sent,got]
    | noFile => exact ⟨rfl,rfl⟩
    | stored => exact ⟨rfl,rfl⟩
  · cases h with
    | noSocket | noBind | noListen | notSent | noAccept | noFile => exact ⟨rfl,rfl⟩
    | finished ok hc =>
      simp only [Counted,recorded_append,created_append,recorded_of_idle hc.idle,
        created_of_idle hc.idle]
      exact ⟨rfl,rfl⟩

theorem Processed.counted (h : Processed config cmd m tr e m') : Counted tr := by
  obtain ⟨h,hname⟩ := h
  refine Counted.append ?_ (counted_of_idle hname.commandEvents.idle)
  rcases h.cases_send with ⟨-,hsend⟩ | ⟨-,hcalls,-⟩
  · rcases hsend.commandEvents with ⟨hcalls,-⟩ | ⟨tr₁,tr₂,m₁,filepath,filesize,rfl,hcalls,-,hf⟩
    · exact counted_of_idle hcalls.idle
    · exact (counted_of_idle hcalls.idle).append hf.counted
  · exact counted_of_idle hcalls.idle

theorem counted_dispatch {datagram : Bytes} {more : Bool}
    (h : Runs (dispatch config datagram) m tr more m') : Counted tr := by
  obtain ⟨trc,e,m₁,hrun,rfl,-⟩ := runs_dispatch h
  have hrequest : ∀ cmd : CmdMsg, Counted (requested cmd) := fun _ => ⟨rfl,rfl⟩
  have hfailed : ∀ (cmd : CmdMsg) (e : ErrorCode), Counted (failed cmd e) := by
    intro cmd e
    unfold failed
    split
    · exact ⟨rfl,rfl⟩
    · exact ⟨rfl,rfl⟩
  exact ((hrequest _).append (runs_processCommand hrun).counted).append (hfailed _ _)

end Transfers
end Server

namespace Http
section Requests
variable {config : Server.ServerConfig} {dumpError : Bytes → Option String} {tr : Trace}
variable {resp : Response}

/-- The files that are created, but whose name cannot be printed. -/
def unprintable (dumpError : Bytes → Option String) (file : Option MultipartFormData)
    (tr : Trace) : Nat :=
  if file.any fun file => (dumpError file.filename).isSome then created tr else 0

theorem unprintable_of_created {file : Option MultipartFormData} (h : created tr = 0) :
    unprintable dumpError file tr = 0 := by
  unfold unprintable
  split
  · exact h
  · rfl

/-- An upload counts a session for a file that is created, and a failure in two cases. -/
theorem Upload.counted {file : Option MultipartFormData}
    (h : Upload (Server.httpServer config dumpError) file tr resp) :
    recorded .recordSendSession tr = created tr ∧
      recorded .recordSendFailure tr = refusals tr + unprintable dumpError file tr := by
  cases h with
  | noFile | invalid | tooLarge | notOpened =>
    refine ⟨rfl,?_⟩
    rw [unprintable_of_created rfl]
    rfl
  | @stored file _ _ _ _ hdump =>
    have hnone : dumpError file.filename = none := hdump
    refine ⟨rfl,?_⟩
    rw [unprintable,if_neg (by simp [hnone])]
    rfl
  | @notDumped file what _ _ _ _ hdump =>
    have hsome : dumpError file.filename = some what := hdump
    refine ⟨rfl,?_⟩
    rw [unprintable,if_pos (by simp [hsome])]
    rfl

theorem Delete.counted {filename : Bytes} (h : Delete config dumpError filename tr resp) :
    Server.Counted tr := by
  cases h <;> exact ⟨rfl,rfl⟩

theorem Rename.counted {body : Option Json} (h : Rename config dumpError body tr resp) :
    Server.Counted tr := by
  cases h with
  | malformed | missing => exact ⟨rfl,rfl⟩
  | names _ _ hnames => cases hnames <;> exact ⟨rfl,rfl⟩

end Requests
end Http

/-- A datagram or a request that a server handles. -/
inductive Job where
  | command (datagram : Bytes)
  | request (r : Http.Request)

/-- How a handler of the two servers can treat it. -/
inductive Handles (config : Server.ServerConfig) (dumpError : Bytes → Option String) :
    Job → Trace → Prop where
  | command {datagram : Bytes} {m m' : Server.Members} {tr : Trace} {more : Bool} :
      Runs (Server.dispatch config datagram) m tr more m' →
      Handles config dumpError (.command datagram) tr
  | request {r : Http.Request} {tr : Trace} {resp : Http.Response} :
      Runs (r.run (Server.httpServer config dumpError)) () tr resp () →
      Handles config dumpError (.request r) tr

/-- What an upload counts as failed. -/
def Job.failures (dumpError : Bytes → Option String) : Job → Trace → Nat
  | .request (.upload file), tr => refusals tr + Http.unprintable dumpError file tr
  | _, _ => 0

section History
variable {config : Server.ServerConfig} {dumpError : Bytes → Option String} {job : Job} {tr : Trace}
variable {history : List (Job × Trace)}

theorem Handles.counted (h : Handles config dumpError job tr) :
    recorded .recordSendSession tr = created tr ∧
      recorded .recordSendFailure tr = job.failures dumpError tr := by
  cases h with
  | command hr => exact Server.counted_dispatch hr
  | @request r _ _ hr =>
    cases r with
    | upload file => exact (Http.runs_upload hr).counted
    | delete filename => exact (Http.runs_delete hr).counted
    | rename body => exact (Http.runs_rename hr).counted

/-- The files that were created so far. -/
def stored (history : List (Job × Trace)) : Nat := (history.map fun h => created h.2).sum

/-- The uploads that counted as failed so far: their file could not be created, or their name
could not be printed. -/
def failed (dumpError : Bytes → Option String) (history : List (Job × Trace)) : Nat :=
  (history.map fun h => h.1.failures dumpError h.2).sum

/-- Handlers may run at the same time: the order of their calls does not matter. -/
theorem recorded_history (h : ∀ j ∈ history, Handles config dumpError j.1 j.2)
    (hp : tr.Perm (history.flatMap Prod.snd)) :
    recorded .recordSendSession tr = stored history ∧
      recorded .recordSendFailure tr = failed dumpError history := by
  have hsum : ∀ x, recorded x tr = (history.map fun j => recorded x j.2).sum := by
    intro x
    rw [recorded,hp.countP_eq,List.countP_flatMap]
    rfl
  rw [hsum,hsum]
  constructor
  · exact congrArg List.sum (List.map_congr_left fun j hj => (h j hj).counted.1)
  · exact congrArg List.sum (List.map_congr_left fun j hj => (h j hj).counted.2)

/-- The rate is a percentage exactly when no file was created, or at least as many as uploads
failed; the counters have 64 bits. -/
theorem success_rate_percentage (h : ∀ j ∈ history, Handles config dumpError j.1 j.2)
    (hp : tr.Perm (history.flatMap Prod.snd)) :
    Percentage (.ofNat (metricsAfter .reset tr).sendSessions)
        (.ofNat (metricsAfter .reset tr).sendFailures) ↔
      stored history % 2 ^ 64 = 0 ∨
        failed dumpError history % 2 ^ 64 ≤ stored history % 2 ^ 64 := by
  obtain ⟨hs,hf⟩ := metricsAfter_transfer .reset tr
  obtain ⟨hsessions,hfailures⟩ := recorded_history h hp
  have hzero : Metrics.reset.sendSessions = 0 ∧ Metrics.reset.sendFailures = 0 := ⟨rfl,rfl⟩
  rw [percentage_iff,UInt64.toNat_ofNat',UInt64.toNat_ofNat',hs,hf,hsessions,hfailures,hzero.1,
    hzero.2,Nat.zero_add,Nat.zero_add]

end History

section Samples

def sampleFile : Http.MultipartFormData := ⟨[97],[]⟩

/-- The calls of an upload up to the file. -/
def opening (opened : Bool) : Trace :=
  [Http.requested "/api/upload" "POST",⟨.accepted [97],()⟩,
    ⟨.createDirectory Server.sampleConfig.backupDir,true⟩,
    ⟨.ofstream ((Server.httpServer Server.sampleConfig fun _ => none).path [97]),opened⟩]

def storedTrace : Trace :=
  opening true ++
    [⟨.write ((Server.httpServer Server.sampleConfig fun _ => none).path [97]) [],Fin.last 0⟩] ++
    Http.uploadCounted 0

def refusedTrace : Trace := opening false ++ Http.uploadFailed

def sampleUpload : Job := .request (.upload (some sampleFile))

theorem stored_handles : Handles Server.sampleConfig (fun _ => none) sampleUpload storedTrace := by
  have hrun : Runs (Http.upload (Server.httpServer Server.sampleConfig fun _ => none)
      (some sampleFile)) () storedTrace
      (Http.success [("filename",.name [97]),("size",.number 0)]) () := by
    refine runs_ask_bind.mpr ⟨(),_,rfl,runs_validate_bind.mpr (Or.inr ⟨by decide,_,rfl,?_⟩)⟩
    exact runs_ask_bind.mpr ⟨true,_,rfl,runs_ask_bind.mpr ⟨true,_,rfl,runs_ask_bind.mpr ⟨0,_,rfl,
      runs_ask_bind.mpr ⟨(),_,rfl,runs_ask_bind.mpr ⟨(),_,rfl,runs_ask_bind.mpr ⟨(),_,rfl,
        runs_pure.mpr ⟨rfl,rfl,rfl⟩⟩⟩⟩⟩⟩⟩
  exact .request hrun

theorem refused_handles : Handles Server.sampleConfig (fun _ => none) sampleUpload refusedTrace := by
  have hrun : Runs (Http.upload (Server.httpServer Server.sampleConfig fun _ => none)
      (some sampleFile)) () refusedTrace (Http.failure 500 "Failed to create file") () := by
    refine runs_ask_bind.mpr ⟨(),_,rfl,runs_validate_bind.mpr (Or.inr ⟨by decide,_,rfl,?_⟩)⟩
    exact runs_ask_bind.mpr ⟨true,_,rfl,runs_ask_bind.mpr ⟨false,_,rfl,runs_ask_bind.mpr ⟨(),_,rfl,
      Http.runs_recordError_pure.mpr ⟨rfl,rfl⟩⟩⟩⟩
  exact .request hrun

/-- One upload is stored, another is not. -/
theorem success_rate_percentage_even :
    Percentage (.ofNat (metricsAfter .reset (storedTrace ++ refusedTrace)).sendSessions)
      (.ofNat (metricsAfter .reset (storedTrace ++ refusedTrace)).sendFailures) :=
  (@success_rate_percentage Server.sampleConfig (fun _ => none) _
    [(sampleUpload,storedTrace),(sampleUpload,refusedTrace)]
    (by simp [stored_handles,refused_handles]) (.refl _)).mpr (Or.inr (by decide))

/-- One upload is stored, two are not: 1 - 2 failures. -/
theorem not_success_rate_percentage_always :
    ¬∀ (config : Server.ServerConfig) (dumpError : Bytes → Option String)
      (history : List (Job × Trace)),
      (∀ j ∈ history, Handles config dumpError j.1 j.2) →
        Percentage (.ofNat (metricsAfter .reset (history.flatMap Prod.snd)).sendSessions)
          (.ofNat (metricsAfter .reset (history.flatMap Prod.snd)).sendFailures) := by
  intro hall
  have hp := hall Server.sampleConfig (fun _ => none)
    [(sampleUpload,storedTrace),(sampleUpload,refusedTrace),(sampleUpload,refusedTrace)]
    (by simp [stored_handles,refused_handles])
  exact absurd ((percentage_iff _ _).mp hp) (by decide)

end Samples

end NetworkLab.Backup
