import NetworkLab.Lib.Threads
import NetworkLab.Backup.Latency
import Mathlib.Data.List.Perm.Subperm
import Mathlib.Order.Bounds.Basic
set_option autoImplicit false

/-! `recordLatency` under threads, for the latencies of one command, with exact numbers. Other
threads take steps between any two accesses to what is shared. -/

namespace NetworkLab.Backup.Recording
open Threads

/-- `LatencyStats`, with a count that does not wrap. -/
structure Stats where
  count : Nat
  sum : ℚ
  max : ℚ
  samples : List ℚ
  deriving DecidableEq, Repr

def Stats.new : Stats := { count := 0, sum := 0, max := 0, samples := [] }

/-- With the count in 64 bits. -/
def Stats.stored (stats : Stats) : LatencyStats :=
  { count := .ofNat stats.count, sum := stats.sum, max := stats.max, samples := stats.samples }

/-- What the section under `sampleMutex` does; `idx` is what the generator gives, any index. -/
def Stats.storeSample (stats : Stats) (latencyMs : ℚ) (idx : Nat) : Stats :=
  { stats with
    samples :=
      if stats.samples.length < LatencyStats.maxSamples then stats.samples ++ [latencyMs]
      else if idx < LatencyStats.maxSamples then stats.samples.set idx latencyMs
      else stats.samples }

/-- What `latencyStats_` has for the command. -/
abbrev Shared := Option Stats

def Shared.stats (s : Shared) : Stats := s.getD .new

@[simp]
theorem stats_some (stats : Stats) : Shared.stats (some stats) = stats := rfl

/-- `compare_exchange_weak`: if it was successful, and the value and `expected` after it. A weak
one may fail for no reason. -/
def compareExchangeWeak (fails : Bool) (value expected desired : ℚ) : Bool × ℚ × ℚ :=
  if value = expected ∧ fails = false then (true,desired,expected) else (false,value,value)

/-- What a call of `recordLatency` has behind it: nothing, the lookup, `fetch_add`, a load of
`sum`, the loop for `sum`, a load of `max`, the loop for `max`. -/
inductive Phase where
  | idle
  | found (latencyMs : ℚ)
  | counted (latencyMs : ℚ)
  | summing (latencyMs oldSum : ℚ)
  | summed (latencyMs : ℚ)
  | raising (latencyMs oldMax : ℚ)
  | raised (latencyMs : ℚ)
  deriving DecidableEq, Repr

/-- `calls` have not begun. -/
structure Thread where
  phase : Phase
  calls : List ℚ
  deriving DecidableEq, Repr

def Thread.start (calls : List ℚ) : Thread := ⟨.idle,calls⟩

def Thread.Finished (t : Thread) : Prop := t = .start []

instance (t : Thread) : Decidable t.Finished := inferInstanceAs (Decidable (t = .start []))

/-- The next step of a thread. -/
def next (fails : Bool) (idx : Nat) (s : Shared) : Thread → Option (Shared × Thread)
  | ⟨.idle,[]⟩ => none
  | ⟨.idle,latencyMs :: calls⟩ => some (some s.stats,⟨.found latencyMs,calls⟩)
  | ⟨.found latencyMs,calls⟩ =>
      some (some { s.stats with count := s.stats.count + 1 },⟨.counted latencyMs,calls⟩)
  | ⟨.counted latencyMs,calls⟩ => some (s,⟨.summing latencyMs s.stats.sum,calls⟩)
  | ⟨.summing latencyMs oldSum,calls⟩ =>
      match compareExchangeWeak fails s.stats.sum oldSum (oldSum + latencyMs) with
      | (true,sum,_) => some (some { s.stats with sum := sum },⟨.summed latencyMs,calls⟩)
      | (false,_,oldSum) => some (s,⟨.summing latencyMs oldSum,calls⟩)
  | ⟨.summed latencyMs,calls⟩ => some (s,⟨.raising latencyMs s.stats.max,calls⟩)
  | ⟨.raising latencyMs oldMax,calls⟩ =>
      if oldMax < latencyMs then
        match compareExchangeWeak fails s.stats.max oldMax latencyMs with
        | (true,max,_) => some (some { s.stats with max := max },⟨.raised latencyMs,calls⟩)
        | (false,_,oldMax) => some (s,⟨.raising latencyMs oldMax,calls⟩)
      else some (s,⟨.raised latencyMs,calls⟩)
  | ⟨.raised latencyMs,calls⟩ => some (some (s.stats.storeSample latencyMs idx),⟨.idle,calls⟩)

def step (s : Shared) (t : Thread) (s' : Shared) (t' : Thread) : Prop :=
  ∃ fails idx, next fails idx s t = some (s',t')

/-- The state of some threads that record these latencies. -/
def Reached (programs : List (List ℚ)) (s : Shared) (threads : List Thread) : Prop :=
  Threads.Run step (none,programs.map .start) (s,threads)

theorem compareExchangeWeak_cases (fails : Bool) (value expected desired : ℚ) :
    value = expected ∧ compareExchangeWeak fails value expected desired = (true,desired,expected) ∨
      compareExchangeWeak fails value expected desired = (false,value,value) := by
  unfold compareExchangeWeak
  split
  · rename_i h
    exact Or.inl ⟨h.1,rfl⟩
  · exact Or.inr rfl

/-! A call that no other thread disturbs. -/

section Alone

/-- It does what `recordLatency` does in one thread. -/
theorem recordLatency_alone (s : Shared) (latencyMs : ℚ) (idx : Nat) (calls : List ℚ) :
    ∃ stats : Stats, stats.stored = s.stats.stored.recordLatency latencyMs idx ∧
      Alone step (s,⟨.idle,latencyMs :: calls⟩) (some stats,⟨.idle,calls⟩) := by
  let counted : Stats := { s.stats with count := s.stats.count + 1 }
  let summed : Stats := { counted with sum := counted.sum + latencyMs }
  let raised : Stats :=
    { summed with max := if summed.max < latencyMs then latencyMs else summed.max }
  have hsum : Alone step (s,⟨.idle,latencyMs :: calls⟩)
      (some summed,⟨.summed latencyMs,calls⟩) := by
    refine .head ⟨false,idx,rfl⟩ (.head ⟨false,idx,rfl⟩ (.head ⟨false,idx,rfl⟩ ?_))
    refine .one ⟨false,idx,?_⟩
    simp [next,compareExchangeWeak,summed,counted]
  have hmax : Alone step (some summed,⟨.summed latencyMs,calls⟩)
      (some raised,⟨.raised latencyMs,calls⟩) := by
    refine .head ⟨false,idx,rfl⟩ (.one ⟨false,idx,?_⟩)
    by_cases hlt : summed.max < latencyMs <;> simp [next,compareExchangeWeak,raised,hlt]
  refine ⟨raised.storeSample latencyMs idx,?_,(hsum.trans hmax).trans (.single ⟨false,idx,rfl⟩)⟩
  have hcount : UInt64.ofNat (s.stats.count + 1) = UInt64.ofNat s.stats.count + 1 :=
    UInt64.ofNat_add _ _
  exact congrArg (fun count => { (raised.storeSample latencyMs idx).stored with count }) hcount

def Phase.rank : Phase → Nat
  | .idle => 0
  | .found _ => 6
  | .counted _ => 5
  | .summing _ _ => 4
  | .summed _ => 3
  | .raising _ _ => 2
  | .raised _ => 1

def Thread.rank (t : Thread) : Nat := t.phase.rank + 7 * t.calls.length

/-- Without other threads an exchange that failed is successful at the second time. -/
theorem exists_steps (s : Shared) (t : Thread) (h : ¬t.Finished) :
    ∃ s' t', Alone step (s,t) (s',t') ∧ t'.rank < t.rank := by
  obtain ⟨phase,calls⟩ := t
  cases phase with
  | idle =>
    cases calls with
    | nil => exact absurd rfl h
    | cons latencyMs calls =>
      refine ⟨_,_,.one ⟨false,0,rfl⟩,?_⟩
      simp [Thread.rank,Phase.rank]
      omega
  | summing latencyMs oldSum =>
    have hexchange : ∀ sum, s.stats.sum = sum → step s ⟨.summing latencyMs sum,calls⟩
        (some { s.stats with sum := sum + latencyMs }) ⟨.summed latencyMs,calls⟩ :=
      fun sum hsum => ⟨false,0,by simp [next,compareExchangeWeak,hsum]⟩
    by_cases hsum : s.stats.sum = oldSum
    · exact ⟨_,_,.one (hexchange _ hsum),by simp [Thread.rank,Phase.rank]⟩
    · have hretry : step s ⟨.summing latencyMs oldSum,calls⟩
          s ⟨.summing latencyMs s.stats.sum,calls⟩ :=
        ⟨false,0,by simp [next,compareExchangeWeak,hsum]⟩
      exact ⟨_,_,.head hretry (.one (hexchange _ rfl)),by simp [Thread.rank,Phase.rank]⟩
  | raising latencyMs oldMax =>
    have hend : ∀ max, s.stats.max = max → ∃ s', step s ⟨.raising latencyMs max,calls⟩
        s' ⟨.raised latencyMs,calls⟩ := by
      intro max hmax
      by_cases hlt : max < latencyMs
      · exact ⟨some { s.stats with max := latencyMs },false,0,
          by simp [next,compareExchangeWeak,hlt,hmax]⟩
      · exact ⟨s,false,0,by simp [next,hlt]⟩
    by_cases hmax : s.stats.max = oldMax
    · obtain ⟨s',hstep⟩ := hend _ hmax
      exact ⟨s',_,.one hstep,by simp [Thread.rank,Phase.rank]⟩
    · by_cases hlt : oldMax < latencyMs
      · have hretry : step s ⟨.raising latencyMs oldMax,calls⟩
            s ⟨.raising latencyMs s.stats.max,calls⟩ :=
          ⟨false,0,by simp [next,compareExchangeWeak,hlt,hmax]⟩
        obtain ⟨s',hstep⟩ := hend _ rfl
        exact ⟨s',_,.head hretry (.one hstep),by simp [Thread.rank,Phase.rank]⟩
      · have hskip : step s ⟨.raising latencyMs oldMax,calls⟩ s ⟨.raised latencyMs,calls⟩ :=
          ⟨false,0,by simp [next,hlt]⟩
        exact ⟨_,_,.one hskip,by simp [Thread.rank,Phase.rank]⟩
  | _ => exact ⟨_,_,.one ⟨false,0,rfl⟩,by simp [Thread.rank,Phase.rank]⟩

/-- From every state all threads can finish. -/
theorem Reached.exists_finished {programs : List (List ℚ)} {s : Shared} {threads : List Thread}
    (h : Reached programs s threads) :
    ∃ s' threads', Reached programs s' threads' ∧ ∀ t ∈ threads', t.Finished := by
  obtain ⟨s',threads',hrun,hfin⟩ := exists_run_finished Thread.rank exists_steps s threads
  exact ⟨s',threads',h.trans hrun,hfin⟩

end Alone

/-! A step updates one field, with the latency of its call, or none. -/

inductive Field where
  | count
  | sum
  | max
  | samples
  deriving DecidableEq, Repr

/-- Those of a call, in its order. -/
def updates (latencyMs : ℚ) : List (Field × ℚ) :=
  [(.count,latencyMs),(.sum,latencyMs),(.max,latencyMs),(.samples,latencyMs)]

inductive Update (stats : Stats) : Field × ℚ → Stats → Prop where
  | count (latencyMs : ℚ) : Update stats (.count,latencyMs) { stats with count := stats.count + 1 }
  | sum (latencyMs : ℚ) : Update stats (.sum,latencyMs) { stats with sum := stats.sum + latencyMs }
  | max (latencyMs : ℚ) :
      Update stats (.max,latencyMs) { stats with max := Max.max latencyMs stats.max }
  | samples (latencyMs : ℚ) (idx : Nat) :
      Update stats (.samples,latencyMs) (stats.storeSample latencyMs idx)

def Phase.left : Phase → List (Field × ℚ)
  | .idle => []
  | .found latencyMs => updates latencyMs
  | .counted latencyMs | .summing latencyMs _ =>
      [(.sum,latencyMs),(.max,latencyMs),(.samples,latencyMs)]
  | .summed latencyMs | .raising latencyMs _ => [(.max,latencyMs),(.samples,latencyMs)]
  | .raised latencyMs => [(.samples,latencyMs)]

/-- The updates that the thread is still to make. -/
def Thread.left (t : Thread) : List (Field × ℚ) := t.phase.left ++ t.calls.flatMap updates

/-- A maximum that was loaded stays below. -/
def Thread.Seen (s : Shared) (t : Thread) : Prop :=
  match t.phase with
  | .raising _ oldMax => oldMax ≤ s.stats.max
  | _ => True

section Steps
variable {s s' : Shared} {t t' : Thread}

/-- The last case is a latency that is not above the maximum that was loaded. -/
theorem step_cases (h : step s t s' t') : t'.Seen s' ∧
    (s'.stats = s.stats ∧ t'.left = t.left ∨
      (∃ update, Update s.stats update s'.stats ∧ t.left = update :: t'.left) ∨
      ∃ latencyMs oldMax, t.phase = .raising latencyMs oldMax ∧ latencyMs ≤ oldMax ∧ s' = s ∧
        t.left = (.max,latencyMs) :: t'.left) := by
  obtain ⟨fails,idx,h⟩ := h
  obtain ⟨phase,calls⟩ := t
  cases phase with
  | idle =>
    cases calls with
    | nil => cases h
    | cons latencyMs calls =>
      cases h
      exact ⟨trivial,Or.inl ⟨rfl,rfl⟩⟩
  | found latencyMs =>
    cases h
    exact ⟨trivial,Or.inr (Or.inl ⟨_,.count latencyMs,rfl⟩)⟩
  | counted latencyMs =>
    cases h
    exact ⟨trivial,Or.inl ⟨rfl,rfl⟩⟩
  | summing latencyMs oldSum =>
    rw [next] at h
    rcases compareExchangeWeak_cases fails s.stats.sum oldSum (oldSum + latencyMs) with
      ⟨rfl,hcas⟩ | hcas
    · rw [hcas] at h
      cases h
      exact ⟨trivial,Or.inr (Or.inl ⟨_,.sum latencyMs,rfl⟩)⟩
    · -- the loop goes on with the sum that was found
      rw [hcas] at h
      cases h
      exact ⟨trivial,Or.inl ⟨rfl,rfl⟩⟩
  | summed latencyMs =>
    cases h
    exact ⟨le_refl s.stats.max,Or.inl ⟨rfl,rfl⟩⟩
  | raising latencyMs oldMax =>
    rw [next] at h
    split at h
    · rename_i hlt
      rcases compareExchangeWeak_cases fails s.stats.max oldMax latencyMs with ⟨rfl,hcas⟩ | hcas
      · rw [hcas] at h
        cases h
        refine ⟨trivial,Or.inr (Or.inl ⟨_,?_,rfl⟩)⟩
        have hupdate : Update s.stats (.max,latencyMs)
            { s.stats with max := max latencyMs s.stats.max } := .max latencyMs
        rwa [max_eq_left hlt.le] at hupdate
      · rw [hcas] at h
        cases h
        exact ⟨le_refl s.stats.max,Or.inl ⟨rfl,rfl⟩⟩
    · rename_i hnot
      cases h
      exact ⟨trivial,Or.inr (Or.inr ⟨_,_,rfl,not_lt.mp hnot,rfl,rfl⟩)⟩
  | raised latencyMs =>
    cases h
    exact ⟨trivial,Or.inr (Or.inl ⟨_,.samples latencyMs idx,rfl⟩)⟩

theorem Update.max_le {stats stats' : Stats} {update : Field × ℚ}
    (h : Update stats update stats') : stats.max ≤ stats'.max := by
  cases h with
  | max latencyMs => exact le_max_right _ _
  | _ => exact le_rfl

theorem step_max_le (h : step s t s' t') : s.stats.max ≤ s'.stats.max := by
  rcases (step_cases h).2 with ⟨hstats,-⟩ | ⟨update,hupdate,-⟩ | ⟨_,_,-,-,rfl,-⟩
  · rw [hstats]
  · exact hupdate.max_le
  · exact le_rfl

theorem Thread.Seen.step {u : Thread} (hu : u.Seen s) (h : Recording.step s t s' t') :
    u.Seen s' := by
  unfold Thread.Seen at hu ⊢
  split
  · rename_i hphase
    rw [hphase] at hu
    exact hu.trans (step_max_le h)
  · trivial

end Steps

/-! The updates that are made tell the statistics. -/

/-- The latencies that a field has had. -/
def seen (done : List (Field × ℚ)) (field : Field) : List ℚ :=
  done.filterMap fun update => if update.1 = field then some update.2 else none

theorem seen_append (done done' : List (Field × ℚ)) (field : Field) :
    seen (done ++ done') field = seen done field ++ seen done' field := List.filterMap_append

@[simp]
theorem seen_concat (done : List (Field × ℚ)) (field field' : Field) (latencyMs : ℚ) :
    seen (done ++ [(field',latencyMs)]) field =
      seen done field ++ if field' = field then [latencyMs] else [] := by
  rw [seen_append]
  congr 1
  by_cases h : field' = field <;> simp [seen,h]

theorem count_seen (done : List (Field × ℚ)) (field : Field) (latencyMs : ℚ) :
    (seen done field).count latencyMs = done.count (field,latencyMs) := by
  induction done with
  | nil => rfl
  | cons update done ih =>
    obtain ⟨field',latencyMs'⟩ := update
    by_cases h : field' = field <;> simp [seen,h,List.count_cons] at ih ⊢ <;> simp [ih]

structure Tells (stats : Stats) (done : List (Field × ℚ)) : Prop where
  count : stats.count = (seen done .count).length
  sum : stats.sum = (seen done .sum).sum
  max : IsGreatest {x | x ∈ 0 :: seen done .max} stats.max
  samples : stats.samples.Subperm (seen done .samples)
  length : stats.samples.length = min (seen done .samples).length LatencyStats.maxSamples

section Tells
variable {stats stats' : Stats} {done : List (Field × ℚ)}

theorem tells_new : Tells .new [] where
  count := rfl
  sum := rfl
  max := ⟨List.mem_cons_self,by simp [upperBounds,seen,Stats.new]⟩
  samples := List.nil_subperm
  length := rfl

theorem subperm_storeSample (latencyMs : ℚ) (idx : Nat) {values : List ℚ}
    (h : stats.samples.Subperm values)
    (hlength : stats.samples.length = min values.length LatencyStats.maxSamples) :
    (stats.storeSample latencyMs idx).samples.Subperm (values ++ [latencyMs]) := by
  unfold Stats.storeSample
  dsimp only
  split
  · exact (List.subperm_append_right _).mpr h
  · split
    · have hidx : idx < stats.samples.length := by omega
      have herase := (List.eraseIdx_sublist stats.samples idx).subperm.trans h
      have hset := (List.set_perm_cons_eraseIdx hidx latencyMs).subperm
      have hconcat := (List.perm_append_singleton latencyMs values).symm.subperm
      exact (hset.trans ((List.subperm_cons latencyMs).mpr herase)).trans hconcat
    · exact h.trans (List.sublist_append_left values [latencyMs]).subperm

theorem length_storeSample (latencyMs : ℚ) (idx : Nat) {n : Nat}
    (hlength : stats.samples.length = min n LatencyStats.maxSamples) :
    (stats.storeSample latencyMs idx).samples.length = min (n + 1) LatencyStats.maxSamples := by
  unfold Stats.storeSample
  dsimp only
  split
  · simp only [List.length_append,List.length_singleton]
    omega
  · split
    · rw [List.length_set]
      omega
    · omega

theorem Tells.update {made : Field × ℚ} (h : Tells stats done)
    (hupdate : Update stats made stats') : Tells stats' (done ++ [made]) := by
  obtain ⟨hcount,hsum,hmax,hsamples,hlength⟩ := h
  cases hupdate with
  | count latencyMs => exact ⟨by simp [hcount],by simpa,by simpa using hmax,by simpa,by simpa⟩
  | sum latencyMs => exact ⟨by simpa,by simp [hsum],by simpa using hmax,by simpa,by simpa⟩
  | max latencyMs =>
    refine ⟨by simpa,by simpa,?_,by simpa,by simpa⟩
    have hset : {x | x ∈ 0 :: seen (done ++ [(.max,latencyMs)]) .max} =
        insert latencyMs {x | x ∈ 0 :: seen done .max} := by
      ext x
      simp [or_comm,or_left_comm]
    rw [hset]
    exact hmax.insert latencyMs
  | samples latencyMs idx =>
    refine ⟨by simpa,by simpa,by simpa [Stats.storeSample] using hmax,?_,?_⟩
    · simpa using subperm_storeSample latencyMs idx hsamples hlength
    · simpa using length_storeSample latencyMs idx hlength

end Tells

structure Thread.Left (s : Shared) (t : Thread) (updates : List (Field × ℚ)) : Prop where
  left : t.left = updates
  seen : t.Seen s

theorem performs :
    Performs step (fun done update => done ++ [update]) (fun s done => Tells s.stats done)
      Thread.Left where
  own := by
    rintro s s' t t' done _ hstep htells ⟨rfl,hseen⟩
    obtain ⟨hseen',hcases⟩ := step_cases hstep
    rcases hcases with ⟨hstats,hleft⟩ | ⟨update,hupdate,hleft⟩ | ⟨x,oldMax,hphase,hle,rfl,hleft⟩
    · exact Or.inl ⟨hstats ▸ htells,hleft,hseen'⟩
    · exact Or.inr ⟨update,t'.left,hleft,htells.update hupdate,rfl,hseen'⟩
    · have hmax : x ≤ s'.stats.max := by
        simp only [Thread.Seen,hphase] at hseen
        exact hle.trans hseen
      have hupdate : Update s'.stats (.max,x) { s'.stats with max := max x s'.stats.max } := .max x
      rw [max_eq_right hmax] at hupdate
      exact Or.inr ⟨_,t'.left,hleft,htells.update hupdate,rfl,hseen'⟩
  other := fun hstep _ hleft => ⟨hleft.left,hleft.seen.step hstep⟩

/-! Every state that is reached, and the last one. -/

theorem seen_updates (values : List ℚ) (field : Field) :
    seen (values.flatMap updates) field = values := by
  induction values with
  | nil => rfl
  | cons latencyMs values ih =>
    rw [List.flatMap_cons,seen_append,ih]
    cases field <;> rfl

theorem count_updates (values : List ℚ) (field : Field) (latencyMs : ℚ) :
    (values.flatMap updates).count (field,latencyMs) = values.count latencyMs := by
  rw [← count_seen,seen_updates]

/-- The samples are the last of the fields. -/
theorem count_suffix_le {value : ℚ} {ops : List (Field × ℚ)} (h : ops <:+ updates value)
    (field : Field) (latencyMs : ℚ) :
    ops.count (field,latencyMs) ≤ ops.count (.samples,latencyMs) := by
  simp only [updates,List.suffix_cons_iff,List.suffix_nil] at h
  rcases h with rfl | rfl | rfl | rfl | rfl <;> cases field <;> simp [List.count_cons]

section Reached
variable {programs : List (List ℚ)} {s : Shared} {threads : List Thread}
variable {done : List (Field × ℚ)} {left : List (List (Field × ℚ))}

theorem Reached.performed (h : Reached programs s threads) :
    ∃ done left, Tells s.stats done ∧ List.Forall₂ (Thread.Left s) threads left ∧
      Merged (programs.map fun calls => calls.flatMap updates) done left := by
  have hstart : List.Forall₂ (Thread.Left none) (programs.map .start)
      (programs.map fun calls => calls.flatMap updates) := by
    rw [List.forall₂_map_left_iff,List.forall₂_map_right_iff]
    exact List.forall₂_same.mpr fun calls _ => ⟨rfl,trivial⟩
  obtain ⟨done,left,htells,hleft,hmerged⟩ := performs.run h (a := []) tells_new hstart
  have hdone : done.foldl (fun done update => done ++ [update]) [] = done := by
    simp [← List.flatMap_def]
  exact ⟨done,left,hdone ▸ htells,hleft,hmerged⟩

/-- A latency that was offered as a sample has been in all fields. -/
theorem samples_subperm (h : Merged (programs.map fun calls => calls.flatMap updates) done left)
    (field : Field) : (seen done .samples).Subperm (seen done field) := by
  rw [List.subperm_ext_iff]
  intro latencyMs _
  rw [count_seen,count_seen]
  have hle : left.flatten.count (field,latencyMs) ≤ left.flatten.count (.samples,latencyMs) :=
    h.countP_le_of_call fun _ _ _ hops => count_suffix_le hops field latencyMs
  have hfield := h.countP_eq (· == (field,latencyMs))
  have hsamples := h.countP_eq (· == (.samples,latencyMs))
  have htotal := count_updates programs.flatten field latencyMs
  have htotal' := count_updates programs.flatten .samples latencyMs
  rw [flatten_map_flatMap] at hfield hsamples
  rw [List.count] at hle htotal htotal' ⊢
  rw [List.count] at hle ⊢
  omega

theorem seen_perm {ops : List (Field × ℚ)}
    (h : ops.Perm (programs.map fun calls => calls.flatMap updates).flatten) (field : Field) :
    (seen ops field).Perm programs.flatten := by
  rw [flatten_map_flatMap] at h
  have hperm := h.filterMap fun update => if update.1 = field then some update.2 else none
  rwa [← seen,← seen,seen_updates] at hperm

/-- What the calls that have not begun are still to offer. -/
theorem calls_sublist (h : List.Forall₂ (Thread.Left s) threads left) :
    (threads.flatMap Thread.calls).Sublist (seen left.flatten .samples) := by
  have hsub : ((threads.flatMap Thread.calls).flatMap updates).Sublist left.flatten := by
    refine sublist_left h ?_
    rintro t ops ⟨rfl,-⟩
    exact List.sublist_append_right _ _
  have hseen := hsub.filterMap fun update =>
    if update.1 = Field.samples then some update.2 else none
  rwa [← seen,← seen,seen_updates] at hseen

theorem Reached.sample_le (h : Reached programs s threads) :
    ∀ x ∈ s.stats.samples, x ≤ s.stats.max := by
  obtain ⟨done,left,htells,-,hmerged⟩ := h.performed
  intro x hx
  have hmem := (htells.samples.trans (samples_subperm hmerged .max)).subset hx
  exact htells.max.2 (List.mem_cons_of_mem 0 hmem)

theorem Reached.max_nonneg (h : Reached programs s threads) : 0 ≤ s.stats.max := by
  obtain ⟨done,left,htells,-,-⟩ := h.performed
  exact htells.max.2 List.mem_cons_self

theorem Reached.length_le (h : Reached programs s threads) :
    s.stats.samples.length ≤ min s.stats.count LatencyStats.maxSamples := by
  obtain ⟨done,left,htells,-,hmerged⟩ := h.performed
  rw [htells.length,htells.count]
  exact min_le_min_right _ (samples_subperm hmerged .count).length_le

/-- The samples are of calls that have begun. -/
theorem Reached.subperm (h : Reached programs s threads) :
    (s.stats.samples ++ threads.flatMap Thread.calls).Subperm programs.flatten := by
  obtain ⟨done,left,htells,hleft,hmerged⟩ := h.performed
  have hperm := seen_perm hmerged.perm .samples
  rw [seen_append] at hperm
  exact (htells.samples.append (calls_sublist hleft).subperm).trans hperm.subperm

theorem Reached.percentile_le (h : Reached programs s threads)
    {latencyStats : String → Option LatencyStats} {cmd : String}
    (hstats : latencyStats cmd = s.map Stats.stored) (p : ℚ) :
    getLatencyPercentile latencyStats cmd p ≤ getMaxLatency latencyStats cmd := by
  have hle := h.sample_le
  have hzero := h.max_nonneg
  have hlength := h.length_le
  cases s with
  | none => simp [getLatencyPercentile,getMaxLatency,hstats]
  | some stats =>
    have hmax : getMaxLatency latencyStats cmd = stats.max := by
      rw [getMaxLatency,hstats]
      rfl
    rw [hmax]
    by_cases hne : stats.samples = []
    · have hpercentile : getLatencyPercentile latencyStats cmd p = 0 := by
        simp [getLatencyPercentile,hstats,Stats.stored,hne]
      rw [hpercentile]
      exact hzero
    · have hlt : stats.samples.length < 2 ^ 64 :=
        (hlength.trans (min_le_right _ _)).trans_lt (by decide)
      exact hle _ (percentile_mem hstats hne hlt)

/-- Once all threads have finished, each field has had each latency. -/
theorem Reached.finished (h : Reached programs s threads) (hfin : ∀ t ∈ threads, t.Finished) :
    ∃ done, Tells s.stats done ∧ ∀ field, (seen done field).Perm programs.flatten := by
  obtain ⟨done,left,htells,hleft,hmerged⟩ := h.performed
  refine ⟨done,htells,seen_perm (hmerged.finished (forall₂_right hleft hfin ?_))⟩
  rintro t ops rfl ⟨rfl,-⟩
  rfl

theorem Reached.max_finished (h : Reached programs s threads) (hfin : ∀ t ∈ threads, t.Finished)
    (hnonneg : ∀ calls ∈ programs, ∀ x ∈ calls, 0 ≤ x) (hne : programs.flatten ≠ []) :
    IsGreatest {x | x ∈ programs.flatten} s.stats.max := by
  obtain ⟨done,htells,hperm⟩ := h.finished hfin
  obtain ⟨hmem,hle⟩ := htells.max
  have hle' : ∀ x ∈ programs.flatten, x ≤ s.stats.max := fun x hx =>
    hle (List.mem_cons_of_mem 0 ((hperm .max).mem_iff.mpr hx))
  refine ⟨?_,hle'⟩
  rcases List.mem_cons.mp hmem with hzero | hmem
  · -- all latencies are zero
    obtain ⟨x,hx⟩ := List.exists_mem_of_ne_nil _ hne
    obtain ⟨calls,hcalls,hx'⟩ := List.mem_flatten.mp hx
    have hx'' : x = s.stats.max :=
      le_antisymm (hle' x hx) (hzero.le.trans (hnonneg calls hcalls x hx'))
    exact hx'' ▸ hx
  · exact (hperm .max).mem_iff.mp hmem

theorem Reached.average_finished (h : Reached programs s threads)
    (hfin : ∀ t ∈ threads, t.Finished) (hlt : programs.flatten.length < 2 ^ 64)
    {latencyStats : String → Option LatencyStats} {cmd : String}
    (hstats : latencyStats cmd = s.map Stats.stored) :
    getAverageLatency latencyStats cmd = programs.flatten.sum / programs.flatten.length := by
  obtain ⟨done,htells,hperm⟩ := h.finished hfin
  have hcount := htells.count.trans (hperm .count).length_eq
  have hsum := htells.sum.trans (hperm .sum).sum_eq
  have hstored : latencyStats cmd = none ∧ s.stats = .new ∨
      latencyStats cmd = some s.stats.stored := by
    cases s with
    | none => exact Or.inl ⟨hstats,rfl⟩
    | some stats => exact Or.inr hstats
  rw [getAverageLatency,← hcount,← hsum]
  rcases hstored with ⟨hnone,hnew⟩ | hsome
  · simp [hnone,hnew,Stats.new]
  · have hnat : (UInt64.ofNat s.stats.count).toNat = s.stats.count :=
      UInt64.toNat_ofNat_of_lt' (hcount ▸ hlt)
    simp only [hsome,Stats.stored,hnat,UInt64.lt_iff_toNat_lt,UInt64.toNat_zero]
    split
    · rfl
    · rename_i hzero
      have hzero' : s.stats.count = 0 := by omega
      simp [hzero']

/-- At every moment the samples are latencies that were recorded, none above the maximum, and
not more than were counted. In the end nothing was lost. -/
theorem latencies_consistent (hnonneg : ∀ calls ∈ programs, ∀ x ∈ calls, 0 ≤ x)
    (h : Reached programs s threads) :
    (∀ x ∈ s.stats.samples, x ≤ s.stats.max) ∧
    s.stats.samples.length ≤ min s.stats.count LatencyStats.maxSamples ∧
    (s.stats.samples ++ threads.flatMap Thread.calls).Subperm programs.flatten ∧
    (∀ (latencyStats : String → Option LatencyStats) (cmd : String) (percentile : ℚ),
      latencyStats cmd = s.map Stats.stored →
        getLatencyPercentile latencyStats cmd percentile ≤ getMaxLatency latencyStats cmd) ∧
    ((∀ t ∈ threads, t.Finished) →
      s.stats.count = programs.flatten.length ∧
      s.stats.sum = programs.flatten.sum ∧
      (programs.flatten ≠ [] → IsGreatest {x | x ∈ programs.flatten} s.stats.max) ∧
      s.stats.samples.length = min s.stats.count LatencyStats.maxSamples) := by
  refine ⟨h.sample_le,h.length_le,h.subperm,fun _ _ p hstats => h.percentile_le hstats p,
    fun hfin => ?_⟩
  obtain ⟨done,htells,hperm⟩ := h.finished hfin
  have hcount : s.stats.count = programs.flatten.length :=
    htells.count.trans (hperm .count).length_eq
  refine ⟨hcount,htells.sum.trans (hperm .sum).sum_eq,h.max_finished hfin hnonneg,?_⟩
  rw [htells.length,(hperm .samples).length_eq,hcount]

end Reached

/-- Two threads meet in the loop for the sum, and the second has to try again. -/
theorem latencies_consistent_two : ∃ (s : Shared) (threads : List Thread),
    Reached [[5],[3,7]] s threads ∧ (∀ t ∈ threads, t.Finished) ∧ s.stats.count = 3 ∧
      s.stats.sum = 15 ∧ IsGreatest {x | x ∈ [5,3,7]} s.stats.max ∧
      s.stats.samples.length = 3 := by
  have hrun : (follow (next false 0) [0,1,0,1,0,1,0,1,1,0,0,0,1,1,1,1,1,1,1,1,1,1]
      (none,[[5],[3,7]].map .start)).map Prod.snd = some [.start [],.start []] := by
    decide +kernel
  obtain ⟨⟨s,threads⟩,hfollow,rfl⟩ := Option.map_eq_some_iff.mp hrun
  have hreached : Reached [[5],[3,7]] s _ :=
    (run_follow hfollow).mono fun _ _ _ _ hnext => ⟨false,0,hnext⟩
  have hfin : ∀ t ∈ [Thread.start [],Thread.start []], t.Finished := by decide
  obtain ⟨hcount,hsum,hmax,hlength⟩ :=
    (latencies_consistent (by simp) hreached).2.2.2.2 hfin
  refine ⟨s,_,hreached,hfin,hcount,hsum.trans (by norm_num),hmax (by simp),?_⟩
  rw [hlength,hcount]
  rfl

end NetworkLab.Backup.Recording
