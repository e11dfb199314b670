import NetworkLab.Lib.Locks
set_option autoImplicit false

/-! The mutexes of `metrics.cpp`. A call is the list of what it does with them and with the data
that the threads share; which way it takes through the branches and loops is a part of the
call. -/

namespace NetworkLab.Backup.Mutexes
open Locks

inductive Mutex where
  | requestMutex
  | latencyMutex
  | sampleMutex (cmd : String)
  deriving DecidableEq, Repr

/-- The order in which the mutexes are taken. -/
def Mutex.rank : Mutex → Nat
  | .requestMutex => 0
  | .latencyMutex => 1
  | .sampleMutex _ => 2

/-- The atomics are a `counter`, and `count`, `sum` and `max` of a command. -/
inductive Data where
  | requestCounts
  | errorCounts
  | counter
  | latencyStats
  | latency (cmd : String)
  | samples (cmd : String)
  | startTime
  deriving DecidableEq, Repr

def Data.needs : Data → List Mutex
  | .requestCounts => [.requestMutex]
  | .errorCounts => [.requestMutex]
  | .latencyStats => [.latencyMutex]
  | .samples cmd => [.sampleMutex cmd]
  | _ => []

abbrev Ops := List (Op Mutex Data)

def getOrCreateCounter (map : Data) : Ops := guarded .requestMutex [.act map]

def getOrCreateLatencyStats : Ops := guarded .latencyMutex [.act .latencyStats]

/-- `recordBytesReceived` and the other functions of one atomic are one call. -/
inductive Call where
  | recordRequest
  | recordError
  | getRequestCount (found : Bool)
  | getErrorCount (found : Bool)
  | getAllRequestCounts (counters : Nat)
  | getAllErrorCounts (counters : Nat)
  | atomic
  | recordLatency (cmd : String) (sumTries maxTries : Nat) (full kept : Bool)
  | getAverageLatency (cmd : String) (found counted : Bool)
  | getMaxLatency (cmd : String) (found : Bool)
  | getLatencyPercentile (cmd : String) (found : Bool)
  | recordHttpRequest
  | getUptimeSeconds
  | getStartTime
  | reset (requests errors : Nat) (cmds : List String)
  deriving Repr

def Call.ops : Call → Ops
  | .recordRequest => getOrCreateCounter .requestCounts ++ [.act .counter]
  | .recordError => getOrCreateCounter .errorCounts ++ [.act .counter] ++
      (getOrCreateCounter .errorCounts ++ [.act .counter])
  | .getRequestCount found => guarded .requestMutex
      (.act .requestCounts :: if found then [.act .counter] else [])
  | .getErrorCount found => guarded .requestMutex
      (.act .errorCounts :: if found then [.act .counter] else [])
  | .getAllRequestCounts counters => guarded .requestMutex
      (.act .requestCounts :: List.replicate counters (.act .counter))
  | .getAllErrorCounts counters => guarded .requestMutex
      (.act .errorCounts :: List.replicate counters (.act .counter))
  | .atomic => [.act .counter]
  | .recordLatency cmd sumTries maxTries full kept => getOrCreateLatencyStats ++
      List.replicate (1 + (1 + sumTries) + (1 + maxTries)) (.act (.latency cmd)) ++
      guarded (.sampleMutex cmd) (.act (.samples cmd) ::
        (if full then [.act (.latency cmd)] else []) ++
        if full && !kept then [] else [.act (.samples cmd)])
  | .getAverageLatency cmd found counted => guarded .latencyMutex (.act .latencyStats ::
      (if found then [.act (.latency cmd)] else []) ++
      if found && counted then [.act (.latency cmd)] else [])
  | .getMaxLatency cmd found => guarded .latencyMutex
      (.act .latencyStats :: if found then [.act (.latency cmd)] else [])
  | .getLatencyPercentile cmd found => guarded .latencyMutex
      (.act .latencyStats ::
        if found then guarded (.sampleMutex cmd) [.act (.samples cmd)] else [])
  | .recordHttpRequest => .act .counter ::
      (getOrCreateCounter .requestCounts ++ [.act .counter])
  | .getUptimeSeconds => [.act .startTime]
  | .getStartTime => [.act .startTime]
  | .reset requests errors cmds => guarded .requestMutex
      (.act .requestCounts :: List.replicate requests (.act .counter) ++
        .act .errorCounts :: List.replicate errors (.act .counter) ++
        List.replicate 5 (.act .counter) ++
        guarded .latencyMutex (.act .latencyStats :: cmds.flatMap fun cmd =>
          List.replicate 3 (.act (.latency cmd)) ++
            guarded (.sampleMutex cmd) [.act (.samples cmd)]) ++
        [.act .startTime])

section Calls
variable {held : List Mutex}

abbrev Kept (held : List Mutex) (ops : Ops) : Prop := Balanced Mutex.rank Data.needs held ops

/-- What needs no mutex. -/
theorem kept_act {d : Data} (hd : d.needs = []) : Kept held [.act d] :=
  balanced_nil.act (by simp [hd])

theorem kept_replicate {n : Nat} {d : Data} (hd : d.needs = []) :
    Kept held (List.replicate n (.act d)) := by
  induction n with
  | zero => exact balanced_nil
  | succ n ih => exact ih.act (by simp [hd])

theorem kept_ite {b : Prop} [Decidable b] {ops ops' : Ops} (h : Kept held ops)
    (h' : Kept held ops') : Kept held (if b then ops else ops') := by
  split
  · exact h
  · exact h'

/-- Under a mutex that comes behind those that are held. -/
theorem kept_guarded {mutex : Mutex} {d : Data} {ops : Ops} (hd : d.needs = [mutex])
    (hheld : ∀ k ∈ held, k.rank < mutex.rank) (h : Kept (mutex :: held) ops) :
    Kept held (guarded mutex (.act d :: ops)) :=
  Balanced.guarded hheld (h.act (by simp [hd]))

theorem kept_getOrCreateCounter {map : Data} (hmap : map.needs = [.requestMutex]) :
    Kept [] (getOrCreateCounter map ++ [.act .counter]) :=
  (kept_guarded hmap (by simp) balanced_nil).append (kept_act rfl)

/-- Every call takes the mutexes in their order, and holds the one that its data needs. -/
theorem Call.kept (call : Call) : Kept [] call.ops := by
  cases call with
  | recordRequest => exact kept_getOrCreateCounter rfl
  | recordError => exact (kept_getOrCreateCounter rfl).append (kept_getOrCreateCounter rfl)
  | getRequestCount found =>
    exact kept_guarded rfl (by simp) (kept_ite (kept_act rfl) balanced_nil)
  | getErrorCount found => exact kept_guarded rfl (by simp) (kept_ite (kept_act rfl) balanced_nil)
  | getAllRequestCounts counters => exact kept_guarded rfl (by simp) (kept_replicate rfl)
  | getAllErrorCounts counters => exact kept_guarded rfl (by simp) (kept_replicate rfl)
  | atomic => exact kept_act rfl
  | recordLatency cmd sumTries maxTries full kept =>
    have hsample : Kept [.sampleMutex cmd] [.act (.samples cmd)] :=
      balanced_nil.act (by simp [Data.needs])
    have hstats : Kept [] getOrCreateLatencyStats := kept_guarded rfl (by simp) balanced_nil
    have hsamples : Kept [.sampleMutex cmd] ((if full then [.act (.latency cmd)] else []) ++
        if full && !kept then [] else [.act (.samples cmd)]) :=
      (kept_ite (kept_act rfl) balanced_nil).append (kept_ite balanced_nil hsample)
    exact (hstats.append (kept_replicate rfl)).append (kept_guarded rfl (by simp) hsamples)
  | getAverageLatency cmd found counted =>
    exact kept_guarded rfl (by simp) ((kept_ite (kept_act rfl) balanced_nil).append
      (kept_ite (kept_act rfl) balanced_nil))
  | getMaxLatency cmd found =>
    exact kept_guarded rfl (by simp) (kept_ite (kept_act rfl) balanced_nil)
  | getLatencyPercentile cmd found =>
    have hsamples : Kept [.latencyMutex] (guarded (.sampleMutex cmd) [.act (.samples cmd)]) :=
      kept_guarded rfl (by simp [Mutex.rank]) balanced_nil
    exact kept_guarded rfl (by simp) (kept_ite hsamples balanced_nil)
  | recordHttpRequest => exact (kept_act rfl).append (kept_getOrCreateCounter rfl)
  | getUptimeSeconds => exact kept_act rfl
  | getStartTime => exact kept_act rfl
  | reset requests errors cmds =>
    have hcmds : Kept [.latencyMutex,.requestMutex] (cmds.flatMap fun cmd =>
        List.replicate 3 (.act (.latency cmd)) ++
          guarded (.sampleMutex cmd) [.act (.samples cmd)]) :=
      balanced_flatMap fun cmd _ => (kept_replicate rfl).append
        (kept_guarded rfl (by simp [Mutex.rank]) balanced_nil)
    have hstart : Kept [.requestMutex] [.act .startTime] := kept_act rfl
    have herrors : Kept [.requestMutex]
        (.act .errorCounts :: List.replicate errors (.act .counter)) :=
      (kept_replicate rfl).act (by simp [Data.needs])
    have hcounters : ∀ n, Kept [.requestMutex] (List.replicate n (.act .counter)) :=
      fun n => kept_replicate rfl
    have hstats : Kept [.requestMutex] (guarded .latencyMutex (.act .latencyStats ::
        cmds.flatMap fun cmd => List.replicate 3 (.act (.latency cmd)) ++
          guarded (.sampleMutex cmd) [.act (.samples cmd)])) :=
      kept_guarded rfl (by simp [Mutex.rank]) hcmds
    have hrest := (((hcounters requests).append herrors).append (hcounters 5)).append hstats
    exact kept_guarded rfl (by simp) (by simpa using hrest.append hstart)

end Calls

/-- What the threads of a program have to do, call after call. -/
def threads (programs : List (List Call)) : (Mutex → Bool) × List (Thread Mutex Data) :=
  start (programs.map fun calls => calls.flatMap Call.ops)

theorem threads_inv (programs : List (List Call)) :
    Inv Mutex.rank Data.needs (threads programs) := by
  refine inv_start fun ops hops => ?_
  obtain ⟨calls,-,rfl⟩ := List.mem_map.mp hops
  exact (balanced_flatMap fun call _ => call.kept).ordered

/-- Any number of threads makes any calls. No two of them are ever about to touch the same
guarded data, some thread can go on until all have finished, and all can finish. -/
theorem metrics_threads (programs : List (List Call))
    (c : (Mutex → Bool) × List (Thread Mutex Data))
    (h : Threads.Run Locks.Step (threads programs) c) :
    (∀ before mid after t u d d' rest rest', c.2 = before ++ t :: mid ++ u :: after →
      t.rest = .act d :: rest → u.rest = .act d' :: rest' → ∀ l ∈ d.needs, l ∉ d'.needs) ∧
    ((∃ t ∈ c.2, t.rest ≠ []) → ∃ c', Threads.Step Locks.Step c c') ∧
    ∃ c', Threads.Run Locks.Step c c' ∧ ∀ t ∈ c'.2, t.rest = [] := by
  have hinv := (threads_inv programs).run h
  refine ⟨?_,hinv.progress,hinv.finish⟩
  intro before mid after t u d d' rest rest' hc ht hu l hl hl'
  have hot := hinv.ordered t (by simp [hc])
  have hou := hinv.ordered u (by simp [hc])
  rw [ht] at hot
  rw [hu] at hou
  exact hinv.apart hc (hot.1 l hl) (hou.1 l hl')

def threeThreads : List (List Call) :=
  [[.recordRequest],[.getAverageLatency "ls" true true],[.reset 0 0 ["ls"]]]

def recording : Thread Mutex Data :=
  ⟨[.requestMutex],[.act .requestCounts,.unlock .requestMutex,.act .counter]⟩

def averaging : Thread Mutex Data := ⟨[],(Call.getAverageLatency "ls" true true).ops⟩

def resetting : Thread Mutex Data := ⟨[],(Call.reset 0 0 ["ls"]).ops⟩

def oneHolds : (Mutex → Bool) × List (Thread Mutex Data) :=
  (Function.update (fun _ => false) .requestMutex true,[recording,averaging,resetting])

/-- `requestMutex` is held by the first thread, `latencyMutex` by the second, and the third waits
for the first. -/
def contended : (Mutex → Bool) × List (Thread Mutex Data) :=
  (Function.update oneHolds.1 .latencyMutex true,
    [recording,⟨[.latencyMutex],averaging.rest.tail⟩,resetting])

theorem run_contended : Threads.Run Locks.Step (threads threeThreads) contended := by
  have hfirst : Threads.Step Locks.Step (threads threeThreads) oneHolds :=
    .mk [] [averaging,resetting] (.lock rfl)
  have hsecond : Threads.Step Locks.Step oneHolds contended :=
    .mk [recording] [resetting] (.lock rfl)
  exact .tail (.single hfirst) hsecond

theorem metrics_threads_contended :
    (resetting.rest.head? = some (.lock .requestMutex) ∧ contended.1 .requestMutex = true) ∧
    (∀ l ∈ Data.needs .requestCounts, l ∉ Data.needs .latencyStats) ∧
    (∃ c', Threads.Step Locks.Step contended c') ∧
    ∃ c', Threads.Run Locks.Step contended c' ∧ ∀ t ∈ c'.2, t.rest = [] := by
  obtain ⟨happart,hprogress,hfinish⟩ := metrics_threads threeThreads contended run_contended
  exact ⟨⟨rfl,rfl⟩,happart [] [] [resetting] recording _ _ _ _ _ rfl rfl rfl,
    hprogress ⟨_,List.mem_cons_self,List.cons_ne_nil _ _⟩,hfinish⟩

end NetworkLab.Backup.Mutexes
