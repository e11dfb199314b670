import NetworkLab.Backup.Counters
import Mathlib.Algebra.Order.BigOperators.Group.List
import Mathlib.Data.List.Nodup
set_option autoImplicit false

/-! What the threads have counted: each call once, whatever the order of the steps. -/

namespace NetworkLab.Backup.Metrics
open Threads

/-! The keys of the errors of a command. -/

section Keys
variable {cmd cmd' code key : String}

def isCodeOf (cmd key : String) : Bool := (cmd ++ ":").toList.isPrefixOf key.toList

theorem isCodeOf_iff : isCodeOf cmd key = true ↔ ∃ code, key = cmd ++ ":" ++ code := by
  rw [isCodeOf,List.isPrefixOf_iff_prefix]
  constructor
  · rintro ⟨code,hcode⟩
    exact ⟨String.ofList code,String.toList_injective (by simp [← hcode])⟩
  · rintro ⟨code,rfl⟩
    exact ⟨code.toList,String.toList_append.symm⟩

/-- The command is what stands before the first colon. -/
theorem takeWhile_key (h : ':' ∉ cmd.toList) :
    (cmd ++ ":" ++ code).toList.takeWhile (· ≠ ':') = cmd.toList := by
  have hall : ∀ c ∈ cmd.toList, decide (c ≠ ':') = true := by
    intro c hc
    exact decide_eq_true fun he => h (he ▸ hc)
  rw [String.toList_append,String.toList_append,List.append_assoc,
    List.takeWhile_append_of_pos hall]
  simp

theorem isCodeOf_key (h : ':' ∉ cmd.toList) (h' : ':' ∉ cmd'.toList) :
    isCodeOf cmd (cmd' ++ ":" ++ code) = decide (cmd' = cmd) := by
  rw [Bool.eq_iff_iff,isCodeOf_iff,decide_eq_true_eq]
  constructor
  · rintro ⟨code',he⟩
    have hcmd := congrArg (fun key : String => key.toList.takeWhile (· ≠ ':')) he
    simp only [takeWhile_key h,takeWhile_key h'] at hcmd
    exact String.toList_injective hcmd
  · rintro rfl
    exact ⟨code,rfl⟩

theorem colon_mem_key : ':' ∈ (cmd ++ ":" ++ code).toList := by simp

theorem isCodeOf_plain (h : ':' ∉ key.toList) : isCodeOf cmd key = false := by
  rw [← Bool.not_eq_true,isCodeOf_iff]
  rintro ⟨code,rfl⟩
  exact h colon_mem_key

theorem key_ne (h : ':' ∉ cmd.toList) : cmd' ++ ":" ++ code ≠ cmd := by
  rintro rfl
  exact h colon_mem_key

end Keys

/-- The sum over the codes of the counters `cmd:code`. -/
def Shared.errorsByCode (s : Shared) (cmd : String) : Nat :=
  ((s.getAllErrorCounts.filter fun pair => isCodeOf cmd pair.1).map fun pair =>
    pair.2.toNat).sum

/-! The calls, and how often their statements count. -/

/-- The command has no colon in its name. -/
def Plain : Metric → Prop
  | .recordRequest command => ':' ∉ command.toList
  | .recordError command _ => ':' ∉ command.toList
  | _ => True

instance : DecidablePred Plain := fun call => by
  cases call <;> unfold Plain <;> infer_instance

def requestCalls (cmd : String) (calls : List Metric) : Nat :=
  calls.countP fun
    | .recordRequest command => command = cmd
    | _ => false

def errorCalls (cmd : String) (calls : List Metric) : Nat :=
  calls.countP fun
    | .recordError command _ => command = cmd
    | _ => false

def httpCalls (calls : List Metric) : Nat :=
  calls.countP fun
    | .recordHttpRequest _ _ => true
    | _ => false

/-- The statement adds to a counter `cmd:code`. -/
def addsCode (cmd : String) : Statement → Bool
  | .counter .errorCounts key => isCodeOf cmd key
  | _ => false

@[simp] theorem addsCode_errorCounts {cmd key : String} :
    addsCode cmd (.counter .errorCounts key) = isCodeOf cmd key := rfl

section Calls
variable {cmd : String} {calls : List Metric}

theorem countP_statements {p : Statement → Bool} {q : Metric → Bool}
    (h : ∀ call ∈ calls, (statements call).countP p = if q call then 1 else 0) :
    (calls.flatMap statements).countP p = calls.countP q := by
  induction calls with
  | nil => rfl
  | cons call calls ih =>
    rw [List.flatMap_cons,List.countP_append,List.countP_cons,h call List.mem_cons_self,
      ih fun call hc => h call (List.mem_cons_of_mem _ hc),Nat.add_comm]

theorem countP_addsCode (hcmd : ':' ∉ cmd.toList) (hplain : ∀ call ∈ calls, Plain call) :
    (calls.flatMap statements).countP (addsCode cmd) = errorCalls cmd calls := by
  refine countP_statements fun call hc => ?_
  have hcall := hplain call hc
  cases call with
  | recordError command code =>
    simp [statements,List.countP_cons,isCodeOf_key hcmd hcall,isCodeOf_plain hcall]
  | _ => simp [statements,addsCode]

theorem errorCalls_le (cmd : String) (calls : List Metric) :
    errorCalls cmd calls ≤ (calls.flatMap statements).countP (addsCode cmd) := by
  induction calls with
  | nil => exact Nat.le_refl _
  | cons call calls ih =>
    rw [errorCalls,List.countP_cons,List.flatMap_cons,List.countP_append,Nat.add_comm]
    refine Nat.add_le_add ?_ ih
    cases call with
    | recordError command code =>
      by_cases hc : command = cmd
      · subst hc
        have hcode : isCodeOf command (command ++ ":" ++ code) = true := isCodeOf_iff.mpr ⟨code,rfl⟩
        simp [statements,List.countP_cons,hcode]
      · simp [hc]
    | _ => simp

theorem count_errorCounts (calls : List Metric) (hcmd : ':' ∉ cmd.toList) :
    (calls.flatMap statements).count (.counter .errorCounts cmd) = errorCalls cmd calls := by
  refine countP_statements fun call _ => ?_
  cases call with
  | recordError command code =>
    simp [statements,key_ne hcmd]
  | _ => simp [statements]

theorem count_requestCounts (calls : List Metric) (hcmd : ':' ∉ cmd.toList) :
    (calls.flatMap statements).count (.counter .requestCounts cmd) = requestCalls cmd calls := by
  refine countP_statements fun call _ => ?_
  cases call with
  | recordHttpRequest endpoint method =>
    simp [statements,key_ne hcmd]
  | _ => simp [statements]

theorem count_httpRequests (calls : List Metric) :
    (calls.flatMap statements).count .httpRequests = httpCalls calls := by
  refine countP_statements fun call _ => ?_
  cases call <;> simp [statements]

/-- An error is counted under its code first. -/
theorem countP_suffix_call {call : Metric} (hcmd : ':' ∉ cmd.toList) (hcall : Plain call)
    {ops : List Statement} (h : ops <:+ statements call) :
    ops.countP (addsCode cmd) ≤ ops.count (.counter .errorCounts cmd) := by
  cases call with
  | recordError command code =>
    rcases List.suffix_cons_iff.mp h with rfl | h
    · simp [List.countP_cons,List.count_cons,isCodeOf_key hcmd hcall,isCodeOf_plain hcall]
    · rcases List.suffix_cons_iff.mp h with rfl | h
      · simp [isCodeOf_plain hcall]
      · rw [List.suffix_nil.mp h]
        exact Nat.le_refl _
  | _ =>
    have hzero : ops.countP (addsCode cmd) = 0 := by
      refine List.countP_eq_zero.mpr fun statement hs => ?_
      have hmem := h.subset hs
      simp [statements] at hmem
      rcases hmem with rfl | rfl <;> simp [addsCode]
    rw [hzero]
    exact Nat.zero_le _

end Calls

/-! What is counted, statement by statement. -/

theorem counts_foldl (m : Metrics) (done : List Statement) (map : CounterMap) (key : String) :
    (done.foldl act m).counts map key = m.counts map key + done.count (.counter map key) := by
  induction done generalizing m with
  | nil => rfl
  | cons statement done ih =>
    rw [List.foldl_cons,ih,counts_act,List.count_cons]
    simp only [beq_iff_eq]
    omega

theorem counts_done (done : List Statement) (map : CounterMap) (key : String) :
    (done.foldl act .reset).counts map key = done.count (.counter map key) := by
  have hzero : reset.counts map key = 0 := by cases map <;> rfl
  rw [counts_foldl,hzero,Nat.zero_add]

theorem httpRequests_foldl (m : Metrics) (done : List Statement) :
    (done.foldl act m).httpRequests = m.httpRequests + done.count .httpRequests := by
  induction done generalizing m with
  | nil => rfl
  | cons statement done ih =>
    have hact : (m.act statement).httpRequests =
        m.httpRequests + if statement = .httpRequests then 1 else 0 := by
      cases statement with
      | counter map key => cases map <;> rfl
      | _ => rfl
    rw [List.foldl_cons,ih,hact,List.count_cons]
    simp only [beq_iff_eq]
    omega

/-! The sum over the codes. -/

section Sums
variable {cmd : String} {s : Shared} {m : Metrics}

theorem sum_indicator (key : String) {keys : List String} (h : keys.Nodup) :
    (keys.map fun k => if key = k then 1 else 0).sum = if key ∈ keys then 1 else 0 := by
  induction keys with
  | nil => rfl
  | cons k keys ih =>
    obtain ⟨hk,hkeys⟩ := List.nodup_cons.mp h
    by_cases he : key = k
    · subst he
      simp [hk,ih hkeys]
    · simp [he,ih hkeys]

/-- Each addition under a code is at one key. -/
theorem sum_count {keys : List String} (hkeys : keys.Nodup)
    (hcode : ∀ key ∈ keys, isCodeOf cmd key = true) {done : List Statement}
    (hdone : ∀ key, isCodeOf cmd key = true → .counter .errorCounts key ∈ done → key ∈ keys) :
    (keys.map fun key => done.count (.counter .errorCounts key)).sum =
      done.countP (addsCode cmd) := by
  induction done with
  | nil => simp
  | cons statement done ih =>
    have ih := ih fun key hk hmem => hdone key hk (List.mem_cons_of_mem _ hmem)
    simp only [List.count_cons,List.sum_map_add,List.countP_cons,ih,Nat.add_left_cancel_iff]
    by_cases hs : ∃ key, statement = .counter .errorCounts key
    · obtain ⟨key,rfl⟩ := hs
      by_cases hk : key ∈ keys
      · simp [sum_indicator key hkeys,hk,hcode key hk]
      · have hnot : isCodeOf cmd key = false :=
          Bool.eq_false_iff.mpr fun hc => hk (hdone key hc List.mem_cons_self)
        simp [sum_indicator key hkeys,hk,hnot]
    · have hne : ∀ key, statement ≠ .counter .errorCounts key := fun key he => hs ⟨key,he⟩
      have hadds : addsCode cmd statement = false := by
        unfold addsCode
        split
        · exact absurd rfl (hne _)
        · rfl
      simp [hne,hadds]

theorem lookup_of_mem {pairs : List (String × Nat)} (h : (pairs.map Prod.fst).Nodup)
    {pair : String × Nat} (hmem : pair ∈ pairs) : pairs.lookup pair.1 = some pair.2 := by
  induction pairs with
  | nil => cases hmem
  | cons first pairs ih =>
    obtain ⟨hfirst,hpairs⟩ := List.nodup_cons.mp h
    rcases List.mem_cons.mp hmem with rfl | hmem
    · exact List.lookup_cons_self
    · have hne : (pair.1 == first.1) = false :=
        beq_false_of_ne fun he => hfirst (he ▸ List.mem_map_of_mem hmem)
      rw [List.lookup_cons,hne]
      exact ih hpairs hmem

/-- The keys `cmd:code` that are in the map. -/
def Shared.codeKeys (s : Shared) (cmd : String) : List String :=
  ((s.maps .errorCounts).map Prod.fst).filter (isCodeOf cmd)

theorem Tells.errorsByCode (h : Tells s m) :
    s.errorsByCode cmd = ((s.codeKeys cmd).map fun key => m.errorCounts key % 2 ^ 64).sum := by
  rw [Shared.errorsByCode,Shared.getAllErrorCounts,Shared.codeKeys,List.filter_map,List.filter_map,
    List.map_map,List.map_map]
  refine congrArg List.sum (List.map_congr_left fun pair hpair => ?_)
  have hlookup := lookup_of_mem (h.addresses.nodup .errorCounts) (List.mem_filter.mp hpair).1
  have hcount := h.getCount .errorCounts pair.1
  rw [Shared.getCount,hlookup] at hcount
  exact (congrArg UInt64.toNat hcount).trans UInt64.toNat_ofNat'

theorem Tells.sum_codeKeys {done : List Statement} (h : Tells s (done.foldl act .reset)) :
    ((s.codeKeys cmd).map fun key => (done.foldl act .reset).errorCounts key).sum =
      done.countP (addsCode cmd) := by
  have hcount : ∀ key, (done.foldl act .reset).errorCounts key =
      done.count (.counter .errorCounts key) := counts_done done .errorCounts
  simp only [hcount]
  refine sum_count ((h.addresses.nodup _).filter _) (fun key hk => (List.mem_filter.mp hk).2) ?_
  intro key hcode hmem
  refine List.mem_filter.mpr ⟨?_,hcode⟩
  by_contra hnot
  have hnone : (s.maps .errorCounts).lookup key = none := by
    rw [List.lookup_eq_none_iff]
    rintro pair hpair
    exact bne_iff_ne.mpr fun he => hnot (he ▸ List.mem_map_of_mem hpair)
  have hzero : done.count (.counter .errorCounts key) = 0 :=
    (counts_done done .errorCounts key).symm.trans (h.missing _ _ hnone)
  exact List.count_eq_zero.mp hzero hmem

theorem sum_mod_of_lt {keys : List String} {f : String → Nat} {n : Nat}
    (h : (keys.map f).sum < n) : (keys.map fun key => f key % n).sum = (keys.map f).sum := by
  refine congrArg List.sum (List.map_congr_left fun key hk => Nat.mod_eq_of_lt ?_)
  exact Nat.lt_of_le_of_lt (List.le_sum_of_mem (List.mem_map_of_mem hk)) h

theorem Tells.errorsByCode_mod {done : List Statement} (h : Tells s (done.foldl act .reset)) :
    s.errorsByCode cmd % 2 ^ 64 = done.countP (addsCode cmd) % 2 ^ 64 := by
  rw [h.errorsByCode,← h.sum_codeKeys]
  refine Eq.symm ?_
  rw [List.sum_nat_mod ((s.codeKeys cmd).map _) (2 ^ 64),
    List.map_map]
  rfl

theorem Tells.errorsByCode_of_lt {done : List Statement} (h : Tells s (done.foldl act .reset))
    (hlt : done.countP (addsCode cmd) < 2 ^ 64) :
    s.errorsByCode cmd = done.countP (addsCode cmd) := by
  rw [← h.sum_codeKeys] at hlt ⊢
  rw [h.errorsByCode,sum_mod_of_lt hlt]

end Sums

/-! Every state that is reached, and the last one. -/

section Reached
variable {programs : List (List Metric)} {s : Shared} {threads : List Thread} {cmd : String}

theorem calls_sublist {left : List (List Statement)}
    (h : List.Forall₂ (Thread.Left s) threads left) :
    ((threads.flatMap Thread.calls).flatMap statements).Sublist left.flatten := by
  refine sublist_left h fun t ops hleft => ?_
  unfold Thread.Left at hleft
  split at hleft
  · obtain ⟨map,key,-,rfl⟩ := hleft
    exact (List.sublist_append_right _ _).cons _
  · rw [hleft]
    exact List.sublist_append_right _ _

theorem Tells.getCount_toNat {done : List Statement} (h : Tells s (done.foldl act .reset))
    (map : CounterMap) (key : String) :
    (s.getCount map key).toNat = done.count (.counter map key) % 2 ^ 64 := by
  rw [h.getCount,counts_done,UInt64.toNat_ofNat']

theorem Tells.httpRequests_toNat {done : List Statement} (h : Tells s (done.foldl act .reset)) :
    s.httpRequests.toNat = done.count .httpRequests % 2 ^ 64 := by
  have hzero : Metrics.reset.httpRequests = 0 := rfl
  rw [h.httpRequests,httpRequests_foldl,hzero,Nat.zero_add,UInt64.toNat_ofNat']

/-- At every moment an error that is counted under its command is counted under its code. -/
theorem Reached.errorCount_le (h : Reached programs s threads)
    (hplain : ∀ call ∈ programs.flatten, Plain call) (hcmd : ':' ∉ cmd.toList)
    (hlt : errorCalls cmd programs.flatten <
      errorCalls cmd (threads.flatMap Thread.calls) + 2 ^ 64) :
    (s.getErrorCount cmd).toNat ≤ s.errorsByCode cmd := by
  obtain ⟨done,left,htells,hleft,hmerged⟩ := h.performed
  have hcodes := hmerged.countP_eq (addsCode cmd)
  have herrors := hmerged.countP_eq (· == .counter .errorCounts cmd)
  rw [flatten_map_flatMap] at hcodes herrors
  rw [countP_addsCode hcmd hplain] at hcodes
  have htotal := count_errorCounts programs.flatten hcmd
  have hbegun := (errorCalls_le cmd (threads.flatMap Thread.calls)).trans
    ((calls_sublist hleft).countP_le (p := addsCode cmd))
  have hfirst : left.flatten.countP (addsCode cmd) ≤
      left.flatten.countP (· == .counter .errorCounts cmd) := by
    refine hmerged.countP_le_of_call fun call hcall ops hops => ?_
    exact countP_suffix_call hcmd (hplain call hcall) hops
  have hsum := htells.errorsByCode_of_lt (show done.countP (addsCode cmd) < _ by omega)
  have hcount := Nat.mod_le (done.count (.counter .errorCounts cmd)) (2 ^ 64)
  rw [Shared.getErrorCount,htells.getCount_toNat,hsum]
  rw [List.count] at htotal hcount ⊢
  omega

/-- Once all threads have finished, all statements are done. -/
theorem Reached.finished (h : Reached programs s threads) (hfin : ∀ t ∈ threads, t.Finished) :
    ∃ done : List Statement, Tells s (done.foldl act .reset) ∧
      done.Perm (programs.flatten.flatMap statements) := by
  obtain ⟨done,left,htells,hleft,hmerged⟩ := h.performed
  refine ⟨done,htells,?_⟩
  rw [← flatten_map_flatMap]
  refine hmerged.finished (forall₂_right hleft hfin ?_)
  rintro t ops rfl hleft
  exact hleft

/-- The counters end up as if one thread had recorded all the calls. -/
theorem Reached.as_recorded (h : Reached programs s threads) (hfin : ∀ t ∈ threads, t.Finished) :
    Tells s (programs.flatten.foldl record .reset) := by
  obtain ⟨done,htells,hperm⟩ := h.finished hfin
  have hrecord : programs.flatten.foldl record reset =
      (programs.flatten.flatMap statements).foldl act reset := by
    rw [List.foldl_flatMap]
    simp only [← record_eq]
  rw [hrecord,← hperm.foldl_eq' fun a _ b _ m => act_comm m a b]
  exact htells

theorem Reached.count_finished (h : Reached programs s threads)
    (hfin : ∀ t ∈ threads, t.Finished) (map : CounterMap) (key : String) :
    (s.getCount map key).toNat =
      (programs.flatten.flatMap statements).count (.counter map key) % 2 ^ 64 := by
  obtain ⟨done,htells,hperm⟩ := h.finished hfin
  rw [htells.getCount_toNat,hperm.count_eq]

theorem Reached.httpRequests_finished (h : Reached programs s threads)
    (hfin : ∀ t ∈ threads, t.Finished) :
    s.getHttpRequestCount.toNat = httpCalls programs.flatten % 2 ^ 64 := by
  obtain ⟨done,htells,hperm⟩ := h.finished hfin
  rw [Shared.getHttpRequestCount,htells.httpRequests_toNat,hperm.count_eq,count_httpRequests]

theorem Reached.errorsByCode_finished (h : Reached programs s threads)
    (hplain : ∀ call ∈ programs.flatten, Plain call) (hfin : ∀ t ∈ threads, t.Finished)
    (hcmd : ':' ∉ cmd.toList) :
    s.errorsByCode cmd % 2 ^ 64 = errorCalls cmd programs.flatten % 2 ^ 64 ∧
      (errorCalls cmd programs.flatten < 2 ^ 64 →
        s.errorsByCode cmd = errorCalls cmd programs.flatten) := by
  obtain ⟨done,htells,hperm⟩ := h.finished hfin
  have hcount : done.countP (addsCode cmd) = errorCalls cmd programs.flatten := by
    rw [hperm.countP_eq,countP_addsCode hcmd hplain]
  rw [← hcount]
  exact ⟨htells.errorsByCode_mod,htells.errorsByCode_of_lt⟩

/-- Nothing is lost, as far as 64 bits go: the counters tell the numbers of the calls modulo
`2 ^ 64`, and no error is missed under its code before `2 ^ 64` of them have begun. -/
theorem counters_lose_nothing (hplain : ∀ call ∈ programs.flatten, Plain call)
    (h : Reached programs s threads) (hcmd : ':' ∉ cmd.toList) :
    (errorCalls cmd programs.flatten < errorCalls cmd (threads.flatMap Thread.calls) + 2 ^ 64 →
      (s.getErrorCount cmd).toNat ≤ s.errorsByCode cmd) ∧
    ((∀ t ∈ threads, t.Finished) →
      (s.getErrorCount cmd).toNat = errorCalls cmd programs.flatten % 2 ^ 64 ∧
      s.errorsByCode cmd % 2 ^ 64 = errorCalls cmd programs.flatten % 2 ^ 64 ∧
      (errorCalls cmd programs.flatten < 2 ^ 64 →
        s.errorsByCode cmd = errorCalls cmd programs.flatten) ∧
      (s.getRequestCount cmd).toNat = requestCalls cmd programs.flatten % 2 ^ 64 ∧
      s.getHttpRequestCount.toNat = httpCalls programs.flatten % 2 ^ 64) := by
  refine ⟨h.errorCount_le hplain hcmd,fun hfin => ?_⟩
  obtain ⟨hmod,hexact⟩ := h.errorsByCode_finished hplain hfin hcmd
  refine ⟨?_,hmod,hexact,?_,h.httpRequests_finished hfin⟩
  · rw [Shared.getErrorCount,h.count_finished hfin,count_errorCounts _ hcmd]
  · rw [Shared.getRequestCount,h.count_finished hfin,count_requestCounts _ hcmd]

end Reached

section Samples

/-- Two threads meet in the counter `ls` between the lookup and the addition. -/
theorem counters_lose_nothing_two :
    ∃ (s : Shared) (threads : List Thread),
      Reached [[.recordError "ls" "404"],[.recordError "ls" "500",.recordRequest "ls",
        .recordHttpRequest "/" "GET"]] s threads ∧
      (s.getErrorCount "ls").toNat = 2 ∧ s.errorsByCode "ls" = 2 ∧
      (s.getRequestCount "ls").toNat = 1 ∧ s.getHttpRequestCount.toNat = 1 := by
  have hrun : (follow next [0,1,0,1,0,1,0,1,0,1,1,1,1,1,1,1,1] (.init,
      [[.recordError "ls" "404"],[.recordError "ls" "500",.recordRequest "ls",
        .recordHttpRequest "/" "GET"]].map .start)).map Prod.snd = some [.start [],.start []] := by
    decide +kernel
  obtain ⟨⟨s,threads⟩,hfollow,rfl⟩ := Option.map_eq_some_iff.mp hrun
  have hreached : Reached _ s _ := run_follow hfollow
  obtain ⟨herror,-,hcodes,hrequest,hhttp⟩ :=
    (counters_lose_nothing (by decide +kernel) hreached (show ':' ∉ "ls".toList by decide)).2
      (by decide)
  exact ⟨s,_,hreached,herror,hcodes (by decide),hrequest,hhttp⟩

theorem requests_finished (n : Nat) : ∃ (programs : List (List Metric)) (s : Shared)
    (threads : List Thread), (∀ call ∈ programs.flatten, Plain call) ∧
      Reached programs s threads ∧ (∀ t ∈ threads, t.Finished) ∧
      requestCalls "ls" programs.flatten = n ∧ (s.getRequestCount "ls").toNat = n % 2 ^ 64 := by
  have hls : ':' ∉ "ls".toList := by decide
  have hcalls : requestCalls "ls" [List.replicate n (.recordRequest "ls")].flatten = n := by
    simp [requestCalls,List.countP_replicate]
  obtain ⟨s,threads,hreached,hfin⟩ :=
    exists_reached_finished [List.replicate n (.recordRequest "ls")]
  refine ⟨_,s,threads,?_,hreached,hfin,hcalls,?_⟩
  · intro call hc
    rw [List.flatten_singleton] at hc
    rw [List.eq_of_mem_replicate hc]
    exact hls
  · rw [Shared.getRequestCount,hreached.count_finished hfin,count_requestCounts _ hls,hcalls]

/-- After `2 ^ 64` calls of `recordRequest("ls")` the counter is back at 0. -/
theorem not_lose_nothing_always :
    ¬∀ (programs : List (List Metric)) (s : Shared) (threads : List Thread),
      (∀ call ∈ programs.flatten, Plain call) → Reached programs s threads →
      ∀ cmd : String, ':' ∉ cmd.toList →
        (s.getErrorCount cmd).toNat ≤ s.errorsByCode cmd ∧
        ((∀ t ∈ threads, t.Finished) →
          (s.getErrorCount cmd).toNat = errorCalls cmd programs.flatten ∧
          (s.getErrorCount cmd).toNat = s.errorsByCode cmd ∧
          (s.getRequestCount cmd).toNat = requestCalls cmd programs.flatten ∧
          s.getHttpRequestCount.toNat = httpCalls programs.flatten) := by
  intro hall
  obtain ⟨programs,s,threads,hplain,hreached,hfin,hcalls,hcount⟩ := requests_finished (2 ^ 64)
  have hclaim := ((hall programs s threads hplain hreached "ls" (by decide)).2 hfin).2.2.1
  rw [hcount,hcalls] at hclaim
  exact absurd hclaim (by decide)

end Samples

end NetworkLab.Backup.Metrics
