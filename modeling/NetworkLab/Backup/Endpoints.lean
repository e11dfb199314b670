import NetworkLab.Backup.Linearizable
import NetworkLab.Backup.Metrics
set_option autoImplicit false

/-! What `GET /api/metrics` tells of the HTTP requests, while the UDP server counts beside
them. -/

namespace NetworkLab.Backup
open Interaction

namespace Http

def endpointKeys : List String := ["http_upload","http_delete","http_rename"]

/-- A counter that the event adds to. -/
def requests (key : String) : Event Res → Bool
  | ⟨.metric (.recordRequest command),_⟩ => key = command
  | _ => false

def errors (key : String) : Event Res → Bool
  | ⟨.metric (.recordError command _),_⟩ => key = command
  | _ => false

def queries : Event Res → Bool
  | ⟨.metric (.recordHttpRequest _ _),_⟩ => true
  | _ => false

section Keys
variable {key : String}

theorem colon_notMem (hk : key ∈ endpointKeys) : ':' ∉ key.toList := by
  simp only [endpointKeys,List.mem_cons,List.not_mem_nil,or_false] at hk
  rcases hk with rfl | rfl | rfl <;> decide

/-- The counters of the details have other names. -/
theorem key_ne_pair (hk : key ∈ endpointKeys) (first second : String) :
    key ≠ first ++ ":" ++ second := by
  rintro rfl
  exact colon_notMem hk (by simp)

theorem commandToString_notMem (hk : key ∈ endpointKeys) (c : Option Command) :
    key ≠ commandToString c := by
  rintro rfl
  revert hk
  rcases c with _ | c
  · decide
  · cases c <;> decide

theorem add_apply (key k : String) (counts : String → Nat) :
    Metrics.add key counts k = counts k + if k = key then 1 else 0 := by
  unfold Metrics.add
  split <;> rfl

theorem record_counts (hk : key ∈ endpointKeys) (s : Metrics) (x : Metric) :
    (s.record x).requestCounts key =
      s.requestCounts key + (if requests key ⟨.metric x,()⟩ then 1 else 0) ∧
    (s.record x).errorCounts key =
      s.errorCounts key + (if errors key ⟨.metric x,()⟩ then 1 else 0) ∧
    (s.record x).httpRequests = s.httpRequests + if queries ⟨.metric x,()⟩ then 1 else 0 := by
  have hne := key_ne_pair hk
  cases x <;> simp [Metrics.record,add_apply,requests,errors,queries,hne]

theorem metricsAfter_counts (hk : key ∈ endpointKeys) (s : Metrics) (tr : Trace) :
    (metricsAfter s tr).requestCounts key = s.requestCounts key + tr.countP (requests key) ∧
    (metricsAfter s tr).errorCounts key = s.errorCounts key + tr.countP (errors key) ∧
    (metricsAfter s tr).httpRequests = s.httpRequests + tr.countP queries := by
  induction tr generalizing s with
  | nil => exact ⟨rfl,rfl,rfl⟩
  | cons ev tr ih =>
    obtain ⟨op,res⟩ := ev
    simp only [List.countP_cons]
    cases op with
    | metric x =>
      obtain rfl : res = () := rfl
      obtain ⟨h₁,h₂,h₃⟩ := ih (s.record x)
      obtain ⟨k₁,k₂,k₃⟩ := record_counts hk s x
      change (metricsAfter (s.record x) tr).requestCounts key = _ ∧
        (metricsAfter (s.record x) tr).errorCounts key = _ ∧
        (metricsAfter (s.record x) tr).httpRequests = _
      rw [h₁,h₂,h₃,k₁,k₂,k₃]
      exact ⟨by omega,by omega,by omega⟩
    | _ => exact ih s

end Keys

/-- The counter that `GET /api/metrics` shows for a request. -/
def Request.key : Request → String
  | .upload _ => "http_upload"
  | .delete _ => "http_delete"
  | .rename _ => "http_rename"

/-- A call that has changed the directory. -/
def effective : Event Res → Bool
  | ⟨.ofstream _,opened⟩ => opened
  | ⟨.deleteFile _,done⟩ => done
  | ⟨.renameFile _ _,done⟩ => done
  | _ => false

/-- The errors that are counted nowhere. -/
def uncounted : List Response :=
  [failure 400 "No file provided",failure 400 "Invalid JSON",
    failure 400 "Missing oldName or newName"]

/-- A request with what its handler has done. -/
structure Answer where
  request : Request
  trace : Trace
  response : Response

def Answer.took (key : String) (a : Answer) : Bool :=
  key = a.request.key && a.trace.any effective

def Answer.refused (key : String) (a : Answer) : Bool :=
  key = a.request.key && a.response.status ≠ 200 && a.response ∉ uncounted

def Answer.Handled (config : Server.ServerConfig) (dumpError : Bytes → Option String)
    (a : Answer) : Prop :=
  Runs (a.request.run (Server.httpServer config dumpError)) () a.trace a.response ()

section Answers
variable {config : Server.ServerConfig} {dumpError : Bytes → Option String} {tr : Trace}
variable {resp : Response} {key : String}

/-- The counters say what the request has done. -/
def Told (r : Request) (tr : Trace) (resp : Response) : Prop :=
  (∀ key, tr.countP (requests key) = if Answer.took key ⟨r,tr,resp⟩ then 1 else 0) ∧
  (∀ key, tr.countP (errors key) = if Answer.refused key ⟨r,tr,resp⟩ then 1 else 0) ∧
  tr.countP queries = 1

theorem told_upload {file : Option MultipartFormData}
    (h : Upload (Server.httpServer config dumpError) file tr resp) :
    Told (.upload file) tr resp := by
  refine ⟨fun key => ?_,fun key => ?_,?_⟩
  · by_cases hk : key = "http_upload" <;> cases h <;>
      simp [requested,errorMark,uploadFailed,uploadCounted,requests,Answer.took,Request.key,
        effective,hk]
  · by_cases hk : key = "http_upload" <;> cases h <;>
      simp [requested,errorMark,uploadFailed,uploadCounted,errors,Answer.refused,Request.key,
        uncounted,failure,success,hk]
  · cases h <;>
      simp [requested,errorMark,uploadFailed,uploadCounted,queries,List.countP_cons]

theorem told_delete {filename : Bytes} (h : Delete config dumpError filename tr resp) :
    Told (.delete filename) tr resp := by
  refine ⟨fun key => ?_,fun key => ?_,?_⟩
  · by_cases hk : key = "http_delete" <;> cases h <;>
      simp [requested,errorMark,counted,requests,Answer.took,Request.key,effective,hk]
  · by_cases hk : key = "http_delete" <;> cases h <;>
      simp [requested,errorMark,counted,errors,Answer.refused,Request.key,uncounted,failure,
        success,hk]
  · cases h <;> simp [requested,errorMark,counted,queries,List.countP_cons]

theorem told_names {oldName newName : Bytes} {body : Option Json}
    (h : RenameNames config dumpError oldName newName tr resp) :
    Told (.rename body) (requested "/api/rename" "POST" :: tr) resp := by
  have hdone : ∀ key tr' parts, Answer.refused key ⟨.rename body,tr',success parts⟩ = false :=
    fun key tr' parts => by simp [Answer.refused,success]
  have hdump : ∀ key tr', Answer.refused key
      ⟨.rename body,tr',failure 400 "Invalid JSON"⟩ = false :=
    fun key tr' => by simp [Answer.refused,uncounted]
  refine ⟨fun key => ?_,fun key => ?_,?_⟩
  · by_cases hk : key = "http_rename" <;> cases h <;>
      simp [requested,errorMark,counted,requests,Answer.took,Request.key,effective,hk]
  · cases h with
    | renamed hv hv' he =>
      have hno : ∀ tr', Answer.refused key ⟨.rename body,tr',resp⟩ = false := by
        intro tr'
        rw [he]
        split
        · exact hdone _ _ _
        · exact hdump _ _
      rw [hno]
      simp [requested,counted,errors]
    | _ =>
      by_cases hk : key = "http_rename" <;>
        simp [requested,errorMark,errors,Answer.refused,Request.key,uncounted,failure,hk]
  · cases h <;> simp [requested,errorMark,counted,queries,List.countP_cons]

theorem told_rename {body : Option Json} (h : Rename config dumpError body tr resp) :
    Told (.rename body) tr resp := by
  cases h with
  | malformed hb =>
    exact ⟨fun key => by simp [requested,requests,Answer.took,effective],
      fun key => by simp [requested,errors,Answer.refused,uncounted],by simp [requested,queries]⟩
  | missing hb =>
    exact ⟨fun key => by simp [requested,requests,Answer.took,effective],
      fun key => by simp [requested,errors,Answer.refused,uncounted],by simp [requested,queries]⟩
  | names ho hn h => exact told_names h

theorem Answer.Handled.told {a : Answer} (h : a.Handled config dumpError) :
    Told a.request a.trace a.response := by
  obtain ⟨r,tr,resp⟩ := a
  cases r with
  | upload file => exact told_upload (runs_upload h)
  | delete filename => exact told_delete (runs_delete h)
  | rename body => exact told_rename (runs_rename h)

end Answers

section System
variable {config : Server.ServerConfig} {dumpError : Bytes → Option String} {tr tru : Trace}
variable {answers : List Answer} {key : String}

theorem countP_answers {p : Event Res → Bool} {q : Answer → Bool}
    (h : ∀ a ∈ answers, a.trace.countP p = if q a then 1 else 0) :
    (answers.flatMap Answer.trace).countP p = answers.countP q := by
  induction answers with
  | nil => rfl
  | cons a answers ih =>
    obtain ⟨ha,hrest⟩ := List.forall_mem_cons.mp h
    rw [List.flatMap_cons,List.countP_append,List.countP_cons,ha,ih hrest,Nat.add_comm]

/-- The UDP server counts under other names. -/
theorem records_countP (h : Server.Records tru) (hk : key ∈ endpointKeys) :
    tru.countP (requests key) = 0 ∧ tru.countP (errors key) = 0 ∧ tru.countP queries = 0 := by
  refine ⟨?_,?_,?_⟩
  all_goals
    refine List.countP_eq_zero.mpr fun ev hev hc => ?_
    obtain ⟨op,res⟩ := ev
    cases op with
    | metric x =>
      obtain rfl : res = () := rfl
      cases h x hev <;>
        simp [requests,errors,queries,commandToString_notMem hk] at hc
    | _ => cases hc

/-- The handlers of the requests and the UDP server take turns in any order. Each request is
counted with its endpoint if it has changed the directory, and as an error if it is answered
with one, but for the three errors that are not counted. The counters have 64 bits. -/
theorem http_endpoints {m m' : Server.Members} {calls : List Server.ServerCall}
    (hudp : Server.ServerRun config m tru calls m')
    (hhttp : ∀ a ∈ answers, a.Handled config dumpError)
    (hp : tr.Perm (tru ++ answers.flatMap Answer.trace)) :
    let r := getMetrics (metricsAfter .reset tr)
    r.requestsByHttpEndpoint =
      { upload := answers.countP (Answer.took "http_upload") % 2 ^ 64
        delete := answers.countP (Answer.took "http_delete") % 2 ^ 64
        rename := answers.countP (Answer.took "http_rename") % 2 ^ 64 } ∧
    r.errorsByHttpEndpoint =
      { upload := answers.countP (Answer.refused "http_upload") % 2 ^ 64
        delete := answers.countP (Answer.refused "http_delete") % 2 ^ 64
        rename := answers.countP (Answer.refused "http_rename") % 2 ^ 64 } ∧
    r.httpTotal = (answers.length + 1) % 2 ^ 64 := by
  have hcounts : ∀ key ∈ endpointKeys,
      let s := (metricsAfter .reset tr).record (.recordHttpRequest "/api/metrics" "GET")
      s.requestCounts key = answers.countP (Answer.took key) ∧
      s.errorCounts key = answers.countP (Answer.refused key) ∧
      s.httpRequests = answers.length + 1 := by
    intro key hk
    obtain ⟨h₁,h₂,h₃⟩ := metricsAfter_counts hk .reset tr
    obtain ⟨g₁,g₂,g₃⟩ := record_counts hk (metricsAfter .reset tr)
      (.recordHttpRequest "/api/metrics" "GET")
    obtain ⟨u₁,u₂,u₃⟩ := records_countP hudp.records hk
    have k₁ := countP_answers fun a ha => (hhttp a ha).told.1 key
    have k₂ := countP_answers fun a ha => (hhttp a ha).told.2.1 key
    have k₃ : (answers.flatMap Answer.trace).countP queries = answers.countP fun _ => true :=
      countP_answers fun a ha => by rw [(hhttp a ha).told.2.2,if_pos rfl]
    simp only [g₁,g₂,g₃,h₁,h₂,h₃,hp.countP_eq,List.countP_append,u₁,u₂,u₃,k₁,k₂,k₃,
      List.countP_true]
    simp [Metrics.reset,requests,errors,queries]
  obtain ⟨u₁,u₂,u₃⟩ := hcounts "http_upload" (by decide)
  obtain ⟨d₁,d₂,-⟩ := hcounts "http_delete" (by decide)
  obtain ⟨n₁,n₂,-⟩ := hcounts "http_rename" (by decide)
  simp only [getMetrics,u₁,u₂,u₃,d₁,d₂,n₁,n₂,shown_eq,and_self]

end System

/-- The file `a` is uploaded, renamed to `b` and deleted; then it is deleted once more, and a
rename is no JSON. -/
def directoryRequests : List Answer :=
  [⟨.upload (some ⟨ascii ['a'],[1,2]⟩),
      [requested "/api/upload" "POST",⟨.accepted (ascii ['a']),()⟩,
        ⟨.createDirectory Server.sampleConfig.backupDir,true⟩,
        ⟨.ofstream (ascii ['b','/','a']),true⟩,⟨.write (ascii ['b','/','a']) [1,2],Fin.last 2⟩] ++
        uploadCounted 2,
      success [("filename",.name (ascii ['a'])),("size",.number 2)]⟩,
    ⟨renameTo 'a',lookTrace 'a' ++ moveTrace 'a',renamedTo 'a'⟩,
    ⟨.delete (ascii ['b']),
      [requested "/api/files" "DELETE",⟨.accepted (ascii ['b']),()⟩,
        ⟨.fileExists (ascii ['b','/','b']),true⟩,⟨.deleteFile (ascii ['b','/','b']),true⟩,
        counted "http_delete"],
      success [("filename",.name (ascii ['b']))]⟩,
    ⟨.delete (ascii ['b']),
      [requested "/api/files" "DELETE",⟨.accepted (ascii ['b']),()⟩,
        ⟨.fileExists (ascii ['b','/','b']),false⟩,errorMark "http_delete" "not_found"],
      failure 404 "File not found"⟩,
    ⟨.rename none,[requested "/api/rename" "POST"],failure 400 "Invalid JSON"⟩]

theorem directoryRequests_handled :
    ∀ a ∈ directoryRequests, a.Handled Server.sampleConfig fun _ => none := by
  simp only [directoryRequests,List.forall_mem_cons,List.not_mem_nil,false_imp_iff,implies_true,
    and_true]
  exact ⟨exec_of_replay (by decide +kernel),exec_of_replay (by decide +kernel),
    exec_of_replay (by decide +kernel),exec_of_replay (by decide +kernel),
    exec_of_replay (by decide +kernel)⟩

/-- One request of each kind has changed the directory, one deletion is an error, and the last
request is not counted with its endpoint at all. -/
theorem http_endpoints_directoryRequests : ∃ tru : Trace, tru ≠ [] ∧
    (let r := getMetrics (metricsAfter .reset (tru ++ directoryRequests.flatMap Answer.trace))
     r.requestsByHttpEndpoint = ⟨1,1,1⟩ ∧ r.errorsByHttpEndpoint = ⟨0,1,0⟩ ∧ r.httpTotal = 6) := by
  obtain ⟨m,h⟩ := Server.missing_run
  obtain ⟨hrequests,herrors,htotal⟩ :=
    http_endpoints (Server.serverRun_single h) directoryRequests_handled (.refl _)
  refine ⟨_,List.cons_ne_nil _ _,hrequests.trans ?_,herrors.trans ?_,htotal.trans ?_⟩
  · decide +kernel
  · decide +kernel
  · decide +kernel

end Http

end NetworkLab.Backup
