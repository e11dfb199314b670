import NetworkLab.Lib.NearestRank
import Mathlib.Data.Rat.Floor
import Mathlib.Tactic.Linarith
import Mathlib.Tactic.Positivity
set_option autoImplicit false

/-! The latencies of `metrics.cpp`, with exact numbers in the place of `double`. -/

namespace NetworkLab.Backup
open Rank

/-- Without the mutex. -/
structure LatencyStats where
  count : UInt64
  sum : ℚ
  max : ℚ
  samples : List ℚ

namespace LatencyStats

def maxSamples : Nat := 1000

def new : LatencyStats := { count := 0, sum := 0, max := 0, samples := [] }

/-- `recordLatency` of one thread; `idx` is what the generator gives. -/
def recordLatency (stats : LatencyStats) (latencyMs : ℚ) (idx : Nat) : LatencyStats :=
  { count := stats.count + 1
    sum := stats.sum + latencyMs
    max := if stats.max < latencyMs then latencyMs else stats.max
    samples :=
      if stats.samples.length < maxSamples then stats.samples ++ [latencyMs]
      else if idx < maxSamples then stats.samples.set idx latencyMs
      else stats.samples }

/-- What calls of `recordLatency` lead to. -/
inductive Recorded : LatencyStats → Prop where
  | new : Recorded new
  | record {stats : LatencyStats} (latencyMs : ℚ) (idx : Nat) : Recorded stats →
      Recorded (stats.recordLatency latencyMs idx)

theorem Recorded.length_samples {stats : LatencyStats} (h : Recorded stats) :
    stats.samples.length ≤ maxSamples := by
  induction h with
  | new => exact Nat.zero_le _
  | @record stats latencyMs idx _ ih =>
    change (if _ then _ else _ : List ℚ).length ≤ _
    split
    · simp only [List.length_append,List.length_singleton]
      omega
    · split
      · rwa [List.length_set]
      · exact ih

end LatencyStats

def getAverageLatency (latencyStats : String → Option LatencyStats) (cmd : String) : ℚ :=
  match latencyStats cmd with
  | none => 0
  | some stats => if 0 < stats.count then stats.sum / stats.count.toNat else 0

def getMaxLatency (latencyStats : String → Option LatencyStats) (cmd : String) : ℚ :=
  match latencyStats cmd with
  | none => 0
  | some stats => stats.max

/-- The ceiling is not negative; the subtraction wraps, and then the index is clamped. -/
def percentileIndex (percentile : ℚ) (size : Nat) : UInt64 :=
  min (UInt64.ofNat ⌈percentile / 100 * size⌉.toNat - 1) (UInt64.ofNat size - 1)

/-- A command without samples has the percentile 0. -/
def getLatencyPercentile (latencyStats : String → Option LatencyStats) (cmd : String)
    (percentile : ℚ) : ℚ :=
  match latencyStats cmd with
  | none => 0
  | some stats =>
    if stats.samples = [] then 0
    else
      let sorted := stats.samples.insertionSort (· ≤ ·)
      sorted.getD (percentileIndex percentile sorted.length).toNat 0

/-- The least sample that is not exceeded by at least so many percent of the samples. -/
structure NearestRank (samples : List ℚ) (percentile x : ℚ) : Prop where
  mem : x ∈ samples
  reaches : percentile / 100 * samples.length ≤ atMost samples x
  least : ∀ y ∈ samples, percentile / 100 * samples.length ≤ atMost samples y → x ≤ y
  minimum : percentile = 0 → ∀ y ∈ samples, x ≤ y
  maximum : percentile = 100 → ∀ y ∈ samples, y ≤ x

section Percentile
variable {samples : List ℚ} {p q x : ℚ} {n : Nat}

/-- The ends follow from the rest. -/
theorem nearestRank_of_least (hmem : x ∈ samples)
    (hreach : p / 100 * samples.length ≤ atMost samples x)
    (hleast : ∀ y ∈ samples, p / 100 * samples.length ≤ atMost samples y → x ≤ y) :
    NearestRank samples p x := by
  refine ⟨hmem,hreach,hleast,?_,?_⟩
  · rintro rfl y hy
    exact hleast y hy (by simp)
  · rintro rfl y hy
    have hle : (samples.length : ℚ) ≤ atMost samples x := by simpa using hreach
    have heq : atMost samples x = samples.length :=
      Nat.le_antisymm List.countP_le_length (by exact_mod_cast hle)
    exact atMost_eq_length_iff.mp heq y hy

/-- How many samples `p` percent are at least. -/
def needed (p : ℚ) (n : Nat) : Nat := ⌈p / 100 * n⌉.toNat

theorem needed_le_iff {k : Nat} : needed p n ≤ k ↔ p / 100 * n ≤ k := by
  rw [needed,Int.toNat_le,Int.ceil_le]
  norm_cast

theorem needed_pos (hp : 0 < p) (hn : 0 < n) : 0 < needed p n := by
  have hpos : 0 < p / 100 * n := by positivity
  exact Int.lt_toNat.mpr (by exact_mod_cast Int.ceil_pos.mpr hpos)

theorem needed_le (hp : p ≤ 100) : needed p n ≤ n := by
  rw [needed_le_iff]
  have hn : (0 : ℚ) ≤ n := Nat.cast_nonneg n
  nlinarith

theorem needed_mono (h : p ≤ q) : needed p n ≤ needed q n := by
  have hn : (0 : ℚ) ≤ n := Nat.cast_nonneg n
  exact Int.toNat_le_toNat (Int.ceil_le_ceil (by nlinarith))

theorem toNat_sub_one (hn : 0 < n) (hlen : n < 2 ^ 64) : (UInt64.ofNat n - 1).toNat = n - 1 := by
  rw [UInt64.toNat_sub,UInt64.toNat_ofNat']
  have hone : UInt64.toNat 1 = 1 := rfl
  omega

theorem toNat_min (a b : UInt64) : (min a b).toNat = min a.toNat b.toNat := by
  change (if a ≤ b then a else b).toNat = _
  rw [min_def]
  simp only [UInt64.le_iff_toNat_le]
  split <;> rfl

theorem toNat_percentileIndex (hp : 0 < p) (hp' : p ≤ 100) (hn : 0 < n) (hlen : n < 2 ^ 64) :
    (percentileIndex p n).toNat = needed p n - 1 := by
  have hpos := needed_pos hp hn
  have hle := needed_le (n := n) hp'
  change (min (UInt64.ofNat (needed p n) - 1) (UInt64.ofNat n - 1)).toNat = _
  rw [toNat_min,toNat_sub_one hpos (by omega),toNat_sub_one hn hlen]
  omega

/-- Zero minus one is the largest index. -/
theorem toNat_percentileIndex_zero (hn : 0 < n) (hlen : n < 2 ^ 64) :
    (percentileIndex 0 n).toNat = n - 1 := by
  have hzero : ⌈(0 : ℚ) / 100 * n⌉.toNat = 0 := by simp
  have hwrap : (UInt64.ofNat 0 - 1).toNat = 2 ^ 64 - 1 := rfl
  rw [percentileIndex,hzero,toNat_min,hwrap,toNat_sub_one hn hlen]
  omega

theorem toNat_percentileIndex_lt (hn : 0 < n) (hlen : n < 2 ^ 64) :
    (percentileIndex p n).toNat < n := by
  rw [percentileIndex,toNat_min,toNat_sub_one hn hlen]
  omega

section Stats
variable {latencyStats : String → Option LatencyStats} {cmd : String} {stats : LatencyStats}
variable (hstats : latencyStats cmd = some stats) (hne : stats.samples ≠ [])
include hstats hne

/-- What is returned is the sample with this rank. -/
theorem percentile_of_index {k : Nat} (hk : k < stats.samples.length)
    (hidx : (percentileIndex p stats.samples.length).toNat = k) :
    ∃ x, getLatencyPercentile latencyStats cmd p = x ∧ x ∈ stats.samples ∧
      ∀ y, k < atMost stats.samples y ↔ x ≤ y := by
  have hperm := List.perm_insertionSort (· ≤ ·) stats.samples
  have hk' : k < (stats.samples.insertionSort (· ≤ ·)).length := by
    rw [List.length_insertionSort]
    exact hk
  refine ⟨(stats.samples.insertionSort (· ≤ ·))[k],?_,hperm.mem_iff.mp (List.getElem_mem hk'),
    fun y => ?_⟩
  · rw [getLatencyPercentile,hstats]
    simp only [if_neg hne,List.length_insertionSort,hidx]
    rw [List.getD_eq_getElem?_getD,List.getElem?_eq_getElem hk',Option.getD_some]
  · rw [← atMost_of_perm hperm]
    exact lt_atMost_iff List.sortedLE_insertionSort hk'

variable (hlen : stats.samples.length < 2 ^ 64)
include hlen

theorem percentile_mem : getLatencyPercentile latencyStats cmd p ∈ stats.samples := by
  have hn : 0 < stats.samples.length := List.length_pos_iff.mpr hne
  obtain ⟨x,hx,hmem,-⟩ := percentile_of_index hstats hne (toNat_percentileIndex_lt hn hlen) rfl
  rwa [hx]

theorem percentile_pos (hp : 0 < p) (hp' : p ≤ 100) :
    ∃ x, getLatencyPercentile latencyStats cmd p = x ∧ x ∈ stats.samples ∧
      ∀ y, needed p stats.samples.length ≤ atMost stats.samples y ↔ x ≤ y := by
  have hn : 0 < stats.samples.length := List.length_pos_iff.mpr hne
  have hpos := needed_pos hp hn
  have hle := needed_le (n := stats.samples.length) hp'
  obtain ⟨x,hx,hmem,hrank⟩ := percentile_of_index hstats hne (by omega)
    (toNat_percentileIndex hp hp' hn hlen)
  refine ⟨x,hx,hmem,fun y => ?_⟩
  rw [← hrank]
  omega

/-- At 0 the largest sample is returned. -/
theorem percentile_zero : ∃ x, getLatencyPercentile latencyStats cmd 0 = x ∧ x ∈ stats.samples ∧
    ∀ y ∈ stats.samples, y ≤ x := by
  have hn : 0 < stats.samples.length := List.length_pos_iff.mpr hne
  obtain ⟨x,hx,hmem,hrank⟩ := percentile_of_index hstats hne (by omega)
    (toNat_percentileIndex_zero hn hlen)
  have hall := (hrank x).mpr le_rfl
  refine ⟨x,hx,hmem,atMost_eq_length_iff.mp (Nat.le_antisymm List.countP_le_length (by omega))⟩

theorem nearestRank_pos (hp : 0 < p) (hp' : p ≤ 100) :
    NearestRank stats.samples p (getLatencyPercentile latencyStats cmd p) := by
  obtain ⟨x,hx,hmem,hrank⟩ := percentile_pos hstats hne hlen hp hp'
  rw [hx]
  exact nearestRank_of_least hmem (needed_le_iff.mp ((hrank x).mpr le_rfl))
    fun y _ hy => (hrank y).mp (needed_le_iff.mpr hy)

theorem percentile_mono (hp : 0 < p) (hpq : p ≤ q) (hq : q ≤ 100) :
    getLatencyPercentile latencyStats cmd p ≤ getLatencyPercentile latencyStats cmd q := by
  obtain ⟨x,hx,-,hrank⟩ := percentile_pos hstats hne hlen hp (hpq.trans hq)
  obtain ⟨y,hy,-,hrank'⟩ := percentile_pos hstats hne hlen (hp.trans_le hpq) hq
  rw [hx,hy,← hrank]
  exact (needed_mono hpq).trans ((hrank' y).mpr le_rfl)

/-- The percentiles are those of the nearest rank, and grow, unless the percentile is 0 and the
samples differ. -/
theorem percentile_nearest_rank (hp : 0 ≤ p) (hpq : p ≤ q) (hq : q ≤ 100) :
    (NearestRank stats.samples p (getLatencyPercentile latencyStats cmd p) ∧
        getLatencyPercentile latencyStats cmd p ≤ getLatencyPercentile latencyStats cmd q) ↔
      0 < p ∨ ∀ x ∈ stats.samples, ∀ y ∈ stats.samples, x = y := by
  constructor
  · rintro ⟨hrank,-⟩
    refine hp.lt_or_eq.imp_right fun hzero => ?_
    subst hzero
    obtain ⟨m,hm,-,hmax⟩ := percentile_zero hstats hne hlen
    rw [hm] at hrank
    intro x hx y hy
    exact le_antisymm ((hmax x hx).trans (hrank.minimum rfl y hy))
      ((hmax y hy).trans (hrank.minimum rfl x hx))
  · intro h
    rcases hp.lt_or_eq with hpos | hzero
    · exact ⟨nearestRank_pos hstats hne hlen hpos (hpq.trans hq),
        percentile_mono hstats hne hlen hpos hpq hq⟩
    · subst hzero
      have hall := h.resolve_left (lt_irrefl 0)
      obtain ⟨m,hm,hmem,hmax⟩ := percentile_zero hstats hne hlen
      have hleast : NearestRank stats.samples 0 m :=
        nearestRank_of_least hmem (by simp) fun y hy _ => (hall m hmem y hy).le
      refine ⟨hm ▸ hleast,?_⟩
      rcases hpq.lt_or_eq with hq' | rfl
      · have hq'' := (nearestRank_pos hstats hne hlen hq' hq).mem
        rw [hm]
        exact (hall m hmem _ hq'').le
      · exact le_rfl

end Stats

theorem LatencyStats.Recorded.length_lt {stats : LatencyStats} (h : stats.Recorded) :
    stats.samples.length < 2 ^ 64 :=
  h.length_samples.trans_lt (by decide)

/-- Two calls. -/
def twoSamples : LatencyStats := (LatencyStats.new.recordLatency 3 0).recordLatency 1 0

theorem twoSamples_recorded : twoSamples.Recorded := (LatencyStats.Recorded.new.record 3 0).record 1 0

theorem samples_twoSamples : twoSamples.samples = [3,1] := rfl

theorem percentile_nearest_rank_two :
    NearestRank twoSamples.samples 50 (getLatencyPercentile (fun _ => some twoSamples) "ls" 50) ∧
      getLatencyPercentile (fun _ => some twoSamples) "ls" 50 ≤
        getLatencyPercentile (fun _ => some twoSamples) "ls" 100 :=
  (percentile_nearest_rank rfl (by simp [samples_twoSamples]) twoSamples_recorded.length_lt
    (by norm_num) (by norm_num) le_rfl).mpr (Or.inl (by norm_num))

/-- The percentile 0 of 3 and 1 is 3. -/
theorem not_percentile_nearest_rank_always :
    ¬∀ (latencyStats : String → Option LatencyStats) (cmd : String) (stats : LatencyStats) (p : ℚ),
      latencyStats cmd = some stats → stats.Recorded → stats.samples ≠ [] → 0 ≤ p → p ≤ 100 →
        NearestRank stats.samples p (getLatencyPercentile latencyStats cmd p) := by
  intro hall
  have hne : twoSamples.samples ≠ [] := by simp [samples_twoSamples]
  have hrank := hall (fun _ => some twoSamples) "ls" twoSamples 0 rfl twoSamples_recorded hne le_rfl
    (by norm_num)
  obtain ⟨m,hm,-,hmax⟩ := @percentile_zero (fun _ => some twoSamples) "ls" twoSamples rfl hne
    twoSamples_recorded.length_lt
  have hthree := hmax 3 (by simp [samples_twoSamples])
  have hone := hrank.minimum rfl 1 (by simp [samples_twoSamples])
  rw [hm] at hone
  linarith

end Percentile

end NetworkLab.Backup
