import NetworkLab.Lib.Threads
import NetworkLab.Backup.Metrics
set_option autoImplicit false

/-! The counters of `metrics.cpp` under threads. A thread looks a counter up under the lock,
and adds to it later, through the reference; other threads take steps between the two. -/

namespace NetworkLab.Backup.Metrics
open Threads

/-- `requestCounts_` or `errorCounts_`. -/
inductive CounterMap where
  | requestCounts
  | errorCounts
  deriving DecidableEq, Repr

/-- What the threads share. The maps point into `counters`, where `new` puts a counter behind
the others. -/
structure Shared where
  counters : List UInt64
  maps : CounterMap → List (String × Nat)
  bytesReceived : UInt64
  sendSessions : UInt64
  sendFailures : UInt64
  httpRequests : UInt64

def Shared.init : Shared :=
  { counters := [], maps := fun _ => [], bytesReceived := 0, sendSessions := 0
    sendFailures := 0, httpRequests := 0 }

namespace Shared

/-- `counter->load()` -/
def load (s : Shared) (counter : Nat) : UInt64 := s.counters.getD counter 0

/-- `counter.fetch_add(1)` -/
def fetchAdd (s : Shared) (counter : Nat) : Shared :=
  { s with counters := s.counters.modify counter (· + 1) }

/-- `map[key] = new std::atomic<uint64_t>(0)` -/
def newCounter (s : Shared) (map : CounterMap) (key : String) : Shared :=
  { s with counters := s.counters ++ [0]
           maps := Function.update s.maps map (s.maps map ++ [(key,s.counters.length)]) }

def getOrCreateCounter (s : Shared) (map : CounterMap) (key : String) : Nat × Shared :=
  match (s.maps map).lookup key with
  | some counter => (counter,s)
  | none => (s.counters.length,s.newCounter map key)

def getCount (s : Shared) (map : CounterMap) (key : String) : UInt64 :=
  match (s.maps map).lookup key with
  | some counter => s.load counter
  | none => 0

def getRequestCount (s : Shared) (cmd : String) : UInt64 := s.getCount .requestCounts cmd

def getErrorCount (s : Shared) (cmd : String) : UInt64 := s.getCount .errorCounts cmd

def getHttpRequestCount (s : Shared) : UInt64 := s.httpRequests

/-- What the handler of `GET /api/metrics` reads of them, one behind the other. Nobody calls
`recordBytesSent`. -/
def getMetrics (s : Shared) : MetricsResponse :=
  { requestsByCommand :=
      { ls := (s.getRequestCount "ls").toNat, send := (s.getRequestCount "send").toNat
        remove := (s.getRequestCount "remove").toNat, rename := (s.getRequestCount "rename").toNat }
    requestsByHttpEndpoint :=
      { upload := (s.getRequestCount "http_upload").toNat
        delete := (s.getRequestCount "http_delete").toNat
        rename := (s.getRequestCount "http_rename").toNat }
    httpTotal := s.getHttpRequestCount.toNat
    errorsByCommand :=
      { ls := (s.getErrorCount "ls").toNat, send := (s.getErrorCount "send").toNat
        remove := (s.getErrorCount "remove").toNat, rename := (s.getErrorCount "rename").toNat }
    errorsByHttpEndpoint :=
      { upload := (s.getErrorCount "http_upload").toNat
        delete := (s.getErrorCount "http_delete").toNat
        rename := (s.getErrorCount "http_rename").toNat }
    bytesReceived := s.bytesReceived.toNat
    bytesSent := 0
    sendSessions := s.sendSessions.toNat
    sendFailures := s.sendFailures.toNat }

def getAllErrorCounts (s : Shared) : List (String × UInt64) :=
  (s.maps .errorCounts).map fun pair => (pair.1,s.load pair.2)

end Shared

/-- `getOrCreateCounter(map, key).fetch_add(1)`, or `fetch_add` on a member. -/
inductive Statement where
  | counter (map : CounterMap) (key : String)
  | bytesReceived (bytes : Nat)
  | sendSessions
  | sendFailures
  | httpRequests
  deriving DecidableEq, Repr

def statements : Metric → List Statement
  | .recordRequest command => [.counter .requestCounts command]
  | .recordError command error =>
      [.counter .errorCounts (command ++ ":" ++ error),.counter .errorCounts command]
  | .recordBytesReceived bytes => [.bytesReceived bytes]
  | .recordSendSession => [.sendSessions]
  | .recordSendFailure => [.sendFailures]
  | .recordHttpRequest endpoint method =>
      [.httpRequests,.counter .requestCounts (method ++ ":" ++ endpoint)]

/-- What is seen of a statement, once it is through. -/
def act (s : Metrics) : Statement → Metrics
  | .counter .requestCounts key => { s with requestCounts := add key s.requestCounts }
  | .counter .errorCounts key => { s with errorCounts := add key s.errorCounts }
  | .bytesReceived bytes => { s with bytesReceived := s.bytesReceived + bytes }
  | .sendSessions => { s with sendSessions := s.sendSessions + 1 }
  | .sendFailures => { s with sendFailures := s.sendFailures + 1 }
  | .httpRequests => { s with httpRequests := s.httpRequests + 1 }

theorem record_eq (s : Metrics) (call : Metric) : s.record call = (statements call).foldl act s := by
  cases call <;> rfl

theorem add_swap (key key' : String) (counts : String → Nat) :
    add key (add key' counts) = add key' (add key counts) := by
  funext k
  unfold add
  split <;> split <;> rfl

theorem act_comm (m : Metrics) (a b : Statement) : (m.act a).act b = (m.act b).act a := by
  cases a with
  | counter map key =>
    cases b with
    | counter map' key' => cases map <;> cases map' <;> simp [act,add_swap key]
    | _ => cases map <;> rfl
  | bytesReceived bytes =>
    cases b with
    | counter map key => cases map <;> rfl
    | bytesReceived bytes' => simp [act,Nat.add_right_comm]
    | _ => rfl
  | _ =>
    cases b with
    | counter map key => cases map <;> rfl
    | _ => rfl

/-- `reference` is there between a lookup and the addition. The statements are the rest of
the call that has begun, and the calls those that have not. -/
structure Thread where
  reference : Option Nat
  statements : List Statement
  calls : List Metric
  deriving DecidableEq, Repr

def Thread.start (calls : List Metric) : Thread := ⟨none,[],calls⟩

def Thread.Finished (t : Thread) : Prop := t = .start []

instance (t : Thread) : Decidable t.Finished := inferInstanceAs (Decidable (t = .start []))

/-- The next step of a thread. -/
def next (s : Shared) : Thread → Option (Shared × Thread)
  | ⟨some counter,rest,calls⟩ => some (s.fetchAdd counter,⟨none,rest,calls⟩)
  | ⟨none,.counter map key :: rest,calls⟩ =>
      let (counter,s) := s.getOrCreateCounter map key
      some (s,⟨some counter,rest,calls⟩)
  | ⟨none,.bytesReceived bytes :: rest,calls⟩ =>
      some ({ s with bytesReceived := s.bytesReceived + .ofNat bytes },⟨none,rest,calls⟩)
  | ⟨none,.sendSessions :: rest,calls⟩ =>
      some ({ s with sendSessions := s.sendSessions + 1 },⟨none,rest,calls⟩)
  | ⟨none,.sendFailures :: rest,calls⟩ =>
      some ({ s with sendFailures := s.sendFailures + 1 },⟨none,rest,calls⟩)
  | ⟨none,.httpRequests :: rest,calls⟩ =>
      some ({ s with httpRequests := s.httpRequests + 1 },⟨none,rest,calls⟩)
  | ⟨none,[],call :: calls⟩ => some (s,⟨none,statements call,calls⟩)
  | ⟨none,[],[]⟩ => none

def step (s : Shared) (t : Thread) (s' : Shared) (t' : Thread) : Prop := next s t = some (s',t')

/-- The state of some threads that have made these calls in some order. -/
def Reached (programs : List (List Metric)) (s : Shared) (threads : List Thread) : Prop :=
  Threads.Run step (.init,programs.map .start) (s,threads)

/-- The steps that a thread has before it, at most. -/
def Thread.rank (t : Thread) : Nat :=
  t.reference.toList.length + 2 * t.statements.length +
    (t.calls.map fun call => 2 * (Metrics.statements call).length + 1).sum

theorem exists_step (s : Shared) (t : Thread) (h : ¬t.Finished) :
    ∃ s' t', step s t s' t' ∧ t'.rank < t.rank := by
  obtain ⟨reference,rest,calls⟩ := t
  cases reference with
  | some counter => exact ⟨_,_,rfl,by simp [Thread.rank]⟩
  | none =>
    cases rest with
    | cons statement rest =>
      cases statement with
      | counter map key =>
        refine ⟨_,_,rfl,?_⟩
        simp [Thread.rank]
        omega
      | _ => exact ⟨_,_,rfl,by simp [Thread.rank]⟩
    | nil =>
      cases calls with
      | nil => exact absurd rfl h
      | cons call calls => exact ⟨_,_,rfl,by simp [Thread.rank]⟩

/-- All threads can finish. -/
theorem exists_reached_finished (programs : List (List Metric)) :
    ∃ s threads, Reached programs s threads ∧ ∀ t ∈ threads, t.Finished :=
  exists_run_finished Thread.rank (fun s t hnot =>
    let ⟨s',t',hstep,hlt⟩ := exists_step s t hnot
    ⟨s',t',.one hstep,hlt⟩) _ _

/-! A counter of its own for each key. -/

section Addresses
variable {s s' : Shared} {map map' : CounterMap} {key key' : String} {counter counter' : Nat}

structure Addresses (s : Shared) : Prop where
  lt : ∀ map key counter, (s.maps map).lookup key = some counter → counter < s.counters.length
  inj : ∀ map map' key key' counter, (s.maps map).lookup key = some counter →
    (s.maps map').lookup key' = some counter → map' = map ∧ key' = key
  nodup : ∀ map, ((s.maps map).map Prod.fst).Nodup

theorem addresses_init : Addresses .init where
  lt map key counter h := by cases h
  inj map map' key key' counter h := by cases h
  nodup map := List.nodup_nil

theorem Addresses.of_maps (h : Addresses s) (hlength : s'.counters.length = s.counters.length)
    (hmaps : s'.maps = s.maps) : Addresses s' := by
  refine ⟨?_,?_,?_⟩
  · rw [hlength,hmaps]
    exact h.lt
  · rw [hmaps]
    exact h.inj
  · rw [hmaps]
    exact h.nodup

theorem maps_newCounter : (s.newCounter map key).maps map' =
    s.maps map' ++ if map' = map then [(key,s.counters.length)] else [] := by
  by_cases hmap : map' = map
  · simp [Shared.newCounter,hmap]
  · simp [Shared.newCounter,hmap,Function.update_of_ne]

theorem lookup_newCounter : ((s.newCounter map key).maps map').lookup key' =
    ((s.maps map').lookup key').or
      (if map' = map ∧ key' = key then some s.counters.length else none) := by
  rw [maps_newCounter,List.lookup_append]
  by_cases hmap : map' = map
  · by_cases hkey : key' = key
    · simp [hmap,hkey]
    · have hbeq : (key' == key) = false := beq_false_of_ne hkey
      simp [hmap,hkey,List.lookup_cons,hbeq]
  · simp [hmap]

theorem lookup_newCounter_eq_some (hnone : (s.maps map).lookup key = none) :
    ((s.newCounter map key).maps map').lookup key' = some counter ↔
      (s.maps map').lookup key' = some counter ∨
        map' = map ∧ key' = key ∧ counter = s.counters.length := by
  rw [lookup_newCounter]
  by_cases hsame : map' = map ∧ key' = key
  · obtain ⟨rfl,rfl⟩ := hsame
    simp [hnone,eq_comm]
  · rw [if_neg hsame,Option.or_none]
    exact ⟨Or.inl,fun h => h.resolve_right fun hc => hsame ⟨hc.1,hc.2.1⟩⟩

theorem load_newCounter : (s.newCounter map key).load counter = s.load counter := by
  rcases Nat.lt_or_ge counter s.counters.length with h | h
  · simp [Shared.load,Shared.newCounter,List.getElem?_append_left h]
  · have hzero : ([0] : List UInt64)[counter - s.counters.length]?.getD 0 = 0 := by
      cases counter - s.counters.length <;> rfl
    simp [Shared.load,Shared.newCounter,List.getElem?_append_right h,hzero,
      List.getElem?_eq_none h]

theorem getCount_newCounter (hnone : (s.maps map).lookup key = none) :
    (s.newCounter map key).getCount map' key' = s.getCount map' key' := by
  unfold Shared.getCount
  rw [lookup_newCounter]
  by_cases hsame : map' = map ∧ key' = key
  · obtain ⟨rfl,rfl⟩ := hsame
    have hzero : s.load s.counters.length = 0 := by simp [Shared.load]
    simp [hnone,load_newCounter,hzero]
  · rw [if_neg hsame,Option.or_none]
    simp only [load_newCounter]

theorem Addresses.newCounter (h : Addresses s) (hnone : (s.maps map).lookup key = none) :
    Addresses (s.newCounter map key) where
  lt map' key' counter hc := by
    have hlength : (s.newCounter map key).counters.length = s.counters.length + 1 := by
      simp [Shared.newCounter]
    rw [hlength]
    rcases (lookup_newCounter_eq_some hnone).mp hc with hold | ⟨-,-,rfl⟩
    · exact Nat.lt_succ_of_lt (h.lt _ _ _ hold)
    · exact Nat.lt_succ_self _
  inj map₁ map₂ key₁ key₂ counter hc₁ hc₂ := by
    rcases (lookup_newCounter_eq_some hnone).mp hc₁ with hold₁ | ⟨rfl,rfl,rfl⟩
    · rcases (lookup_newCounter_eq_some hnone).mp hc₂ with hold₂ | ⟨rfl,rfl,rfl⟩
      · exact h.inj _ _ _ _ _ hold₁ hold₂
      · exact absurd (h.lt _ _ _ hold₁) (Nat.lt_irrefl _)
    · rcases (lookup_newCounter_eq_some hnone).mp hc₂ with hold₂ | ⟨rfl,rfl,-⟩
      · exact absurd (h.lt _ _ _ hold₂) (Nat.lt_irrefl _)
      · exact ⟨rfl,rfl⟩
  nodup map' := by
    rw [maps_newCounter,List.map_append]
    by_cases hmap : map' = map
    · subst hmap
      rw [if_pos rfl]
      refine List.nodup_append.mpr ⟨h.nodup _,by simp,?_⟩
      rintro k hk key' hkey' rfl
      obtain ⟨pair,hpair,rfl⟩ := List.mem_map.mp hk
      have hne := List.lookup_eq_none_iff.mp hnone pair hpair
      rw [List.mem_singleton.mp hkey'] at hne
      simp at hne
    · simpa [hmap] using h.nodup map'

theorem load_fetchAdd (h : counter < s.counters.length) :
    (s.fetchAdd counter).load counter' = s.load counter' + if counter' = counter then 1 else 0 := by
  by_cases hc : counter' = counter
  · subst hc
    simp [Shared.load,Shared.fetchAdd,h]
  · simp [Shared.load,Shared.fetchAdd,hc,Ne.symm hc]

/-- The addition is seen under the key that was looked up, and nowhere else. -/
theorem Addresses.getCount_fetchAdd (h : Addresses s)
    (hfound : (s.maps map).lookup key = some counter) :
    (s.fetchAdd counter).getCount map' key' =
      s.getCount map' key' + if map' = map ∧ key' = key then 1 else 0 := by
  have hmaps : (s.fetchAdd counter).maps = s.maps := rfl
  unfold Shared.getCount
  rw [hmaps]
  cases hlookup : (s.maps map').lookup key' with
  | none =>
    have hne : ¬(map' = map ∧ key' = key) := by
      rintro ⟨rfl,rfl⟩
      cases hfound.symm.trans hlookup
    simp [hne]
  | some counter' =>
    have hsame : counter' = counter ↔ map' = map ∧ key' = key := by
      constructor
      · rintro rfl
        exact h.inj _ _ _ _ _ hfound hlookup
      · rintro ⟨rfl,rfl⟩
        exact Option.some.inj (hlookup.symm.trans hfound)
    simp only [load_fetchAdd (h.lt _ _ _ hfound),hsame]

end Addresses

/-! The threads perform the statements on the counters without threads. -/

section Simulation
variable {s s' : Shared} {m : Metrics} {map : CounterMap} {key : String} {counter : Nat}

def counts (m : Metrics) : CounterMap → String → Nat
  | .requestCounts => m.requestCounts
  | .errorCounts => m.errorCounts

theorem counts_act (m : Metrics) (statement : Statement) (map : CounterMap) (key : String) :
    (m.act statement).counts map key =
      m.counts map key + if statement = .counter map key then 1 else 0 := by
  cases statement with
  | counter map' key' =>
    cases map' <;> cases map <;> simp [act,counts,add,eq_comm (a := key')] <;> split <;> rfl
  | bytesReceived bytes => cases map <;> rfl
  | sendSessions => cases map <;> rfl
  | sendFailures => cases map <;> rfl
  | httpRequests => cases map <;> rfl

/-- The shared counters tell the counts, as far as 64 bits do. A key that is in no map has not
been counted. -/
structure Tells (s : Shared) (m : Metrics) : Prop where
  addresses : Addresses s
  getCount : ∀ map key, s.getCount map key = .ofNat (m.counts map key)
  missing : ∀ map key, (s.maps map).lookup key = none → m.counts map key = 0
  bytesReceived : s.bytesReceived = .ofNat m.bytesReceived
  sendSessions : s.sendSessions = .ofNat m.sendSessions
  sendFailures : s.sendFailures = .ofNat m.sendFailures
  httpRequests : s.httpRequests = .ofNat m.httpRequests

theorem tells_init : Tells .init .reset where
  addresses := addresses_init
  getCount map key := by cases map <;> rfl
  missing map key _ := by cases map <;> rfl
  bytesReceived := rfl
  sendSessions := rfl
  sendFailures := rfl
  httpRequests := rfl

/-- So the 64-bit counters answer the query as the counts do. -/
theorem Tells.getMetrics (h : Tells s (m.record (.recordHttpRequest "/api/metrics" "GET")))
    (hsent : m.bytesSent = 0) : s.getMetrics = Backup.getMetrics m := by
  simp only [Shared.getMetrics,Backup.getMetrics,Shared.getRequestCount,Shared.getErrorCount,
    Shared.getHttpRequestCount,h.getCount,h.bytesReceived,h.sendSessions,h.sendFailures,
    h.httpRequests,shown,counts]
  simp [Metrics.record,hsent]

theorem Tells.newCounter (h : Tells s m) (hnone : (s.maps map).lookup key = none) :
    Tells (s.newCounter map key) m where
  addresses := h.addresses.newCounter hnone
  getCount map' key' := (getCount_newCounter hnone).trans (h.getCount map' key')
  missing map' key' hc := by
    rw [lookup_newCounter] at hc
    exact h.missing map' key' (Option.or_eq_none_iff.mp hc).1
  bytesReceived := h.bytesReceived
  sendSessions := h.sendSessions
  sendFailures := h.sendFailures
  httpRequests := h.httpRequests

theorem Tells.fetchAdd (h : Tells s m) (hfound : (s.maps map).lookup key = some counter) :
    Tells (s.fetchAdd counter) (m.act (.counter map key)) where
  addresses := h.addresses.of_maps (List.length_modify ..) rfl
  getCount map' key' := by
    have hsame : Statement.counter map key = .counter map' key' ↔ map' = map ∧ key' = key := by
      rw [Statement.counter.injEq,eq_comm,eq_comm (a := key)]
    rw [h.addresses.getCount_fetchAdd hfound,h.getCount,counts_act,UInt64.ofNat_add]
    simp only [hsame]
    split <;> rfl
  missing map' key' hc := by
    have hne : Statement.counter map key ≠ .counter map' key' := by
      rintro heq
      injection heq with hmap hkey
      subst hmap hkey
      cases hfound.symm.trans hc
    rw [counts_act,if_neg hne,h.missing map' key' hc]
  bytesReceived := by cases map <;> exact h.bytesReceived
  sendSessions := by cases map <;> exact h.sendSessions
  sendFailures := by cases map <;> exact h.sendFailures
  httpRequests := by cases map <;> exact h.httpRequests

/-- What a thread has yet to add: where it holds a reference, first of all to that counter. -/
def Thread.Left (s : Shared) (t : Thread) (left : List Statement) : Prop :=
  let rest := t.statements ++ t.calls.flatMap Metrics.statements
  match t.reference with
  | some counter => ∃ map key, (s.maps map).lookup key = some counter ∧
      left = .counter map key :: rest
  | none => left = rest

theorem Thread.Left.mono {t : Thread} {left : List Statement} (h : t.Left s left)
    (hkept : ∀ {map key counter}, (s.maps map).lookup key = some counter →
      (s'.maps map).lookup key = some counter) : t.Left s' left := by
  unfold Thread.Left at h ⊢
  split at h
  · obtain ⟨map,key,hfound,hleft⟩ := h
    exact ⟨map,key,hkept hfound,hleft⟩
  · exact h

theorem lookup_kept (hnone : (s.maps map).lookup key = none) {map' : CounterMap} {key' : String}
    {counter' : Nat} (h : (s.maps map').lookup key' = some counter') :
    ((s.newCounter map key).maps map').lookup key' = some counter' :=
  (lookup_newCounter_eq_some hnone).mpr (Or.inl h)

/-- The steps of a thread: a lookup that finds, one that creates, the addition through the
reference, an addition to a member, the next call. -/
inductive Took (s : Shared) : Thread → Shared → Thread → Prop where
  | found {map : CounterMap} {key : String} {counter : Nat} {rest : List Statement}
      {calls : List Metric} : (s.maps map).lookup key = some counter →
      Took s ⟨none,.counter map key :: rest,calls⟩ s ⟨some counter,rest,calls⟩
  | created {map : CounterMap} {key : String} {rest : List Statement} {calls : List Metric} :
      (s.maps map).lookup key = none →
      Took s ⟨none,.counter map key :: rest,calls⟩ (s.newCounter map key)
        ⟨some s.counters.length,rest,calls⟩
  | added {counter : Nat} {rest : List Statement} {calls : List Metric} :
      Took s ⟨some counter,rest,calls⟩ (s.fetchAdd counter) ⟨none,rest,calls⟩
  | member {statement : Statement} {s' : Shared} {rest : List Statement} {calls : List Metric} :
      s'.maps = s.maps → (∀ m, Tells s m → Tells s' (m.act statement)) →
      Took s ⟨none,statement :: rest,calls⟩ s' ⟨none,rest,calls⟩
  | called {call : Metric} {calls : List Metric} :
      Took s ⟨none,[],call :: calls⟩ s ⟨none,statements call,calls⟩

theorem step_cases {t t' : Thread} (h : step s t s' t') : Took s t s' t' := by
  unfold step next at h
  split at h
  · obtain ⟨rfl,rfl⟩ := Prod.mk.inj (Option.some.inj h)
    exact .added
  · rename_i map key rest calls
    cases hlookup : (s.maps map).lookup key with
    | some counter =>
      simp only [Shared.getOrCreateCounter,hlookup] at h
      obtain ⟨rfl,rfl⟩ := Prod.mk.inj (Option.some.inj h)
      exact .found hlookup
    | none =>
      simp only [Shared.getOrCreateCounter,hlookup] at h
      obtain ⟨rfl,rfl⟩ := Prod.mk.inj (Option.some.inj h)
      exact .created hlookup
  · obtain ⟨rfl,rfl⟩ := Prod.mk.inj (Option.some.inj h)
    refine .member rfl fun m hm => ?_
    exact { hm with
      addresses := hm.addresses.of_maps rfl rfl
      bytesReceived := by simp [act,hm.bytesReceived] }
  · obtain ⟨rfl,rfl⟩ := Prod.mk.inj (Option.some.inj h)
    refine .member rfl fun m hm => ?_
    exact { hm with
      addresses := hm.addresses.of_maps rfl rfl
      sendSessions := by simp [act,hm.sendSessions] }
  · obtain ⟨rfl,rfl⟩ := Prod.mk.inj (Option.some.inj h)
    refine .member rfl fun m hm => ?_
    exact { hm with
      addresses := hm.addresses.of_maps rfl rfl
      sendFailures := by simp [act,hm.sendFailures] }
  · obtain ⟨rfl,rfl⟩ := Prod.mk.inj (Option.some.inj h)
    refine .member rfl fun m hm => ?_
    exact { hm with
      addresses := hm.addresses.of_maps rfl rfl
      httpRequests := by simp [act,hm.httpRequests] }
  · obtain ⟨rfl,rfl⟩ := Prod.mk.inj (Option.some.inj h)
    exact .called
  · cases h

theorem Took.maps {t t' : Thread} (h : Took s t s' t') {map : CounterMap} {key : String}
    {counter : Nat} (hc : (s.maps map).lookup key = some counter) :
    (s'.maps map).lookup key = some counter := by
  cases h with
  | found | called => exact hc
  | created hnone => exact lookup_kept hnone hc
  | added => exact hc
  | member hmaps => rwa [hmaps]

theorem performs : Performs step act Tells Thread.Left where
  own {s s' t t' m left} hstep hm hleft := by
    cases step_cases hstep with
    | @found map key counter rest calls hfound =>
      exact Or.inl ⟨hm,map,key,hfound,hleft⟩
    | @created map key rest calls hnone =>
      have hfound := (lookup_newCounter_eq_some hnone).mpr (Or.inr ⟨rfl,rfl,rfl⟩)
      exact Or.inl ⟨hm.newCounter hnone,map,key,hfound,hleft⟩
    | @added counter rest calls =>
      obtain ⟨map,key,hfound,rfl⟩ := hleft
      exact Or.inr ⟨_,_,rfl,hm.fetchAdd hfound,rfl⟩
    | member _ hact => exact Or.inr ⟨_,_,hleft,hact m hm,rfl⟩
    | called => exact Or.inl ⟨hm,hleft⟩
  other hstep _ hleft := hleft.mono (step_cases hstep).maps

theorem left_start (s : Shared) (programs : List (List Metric)) :
    List.Forall₂ (Thread.Left s) (programs.map .start)
      (programs.map fun calls => calls.flatMap statements) := by
  rw [List.forall₂_map_left_iff,List.forall₂_map_right_iff]
  exact List.forall₂_same.mpr fun calls _ => rfl

/-- In each state that is reached, the shared counters tell the statements that are done. -/
theorem Reached.performed {programs : List (List Metric)} {threads : List Thread}
    (h : Reached programs s threads) : ∃ done left, Tells s (done.foldl act .reset) ∧
      List.Forall₂ (Thread.Left s) threads left ∧
        Merged (programs.map fun calls => calls.flatMap statements) done left :=
  performs.run h tells_init (left_start _ programs)

end Simulation

end NetworkLab.Backup.Metrics
