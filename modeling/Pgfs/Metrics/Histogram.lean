import Mathlib.Data.List.Induction
import Mathlib.Data.List.OfFn
import Mathlib.Order.Bounds.Basic
import Pgfs.Foundation.MachineInt

namespace Pgfs

open MachineInt

/-! The latency histogram and its summary line. The summary finds the three
percentiles in one pass over the buckets, with the bucket number zero standing for
a percentile that is not found yet. -/

/-- `HISTO_BUCKETS`. -/
def histoBuckets : Nat := 7

/-- `HISTO_THRESHOLDS`, in microseconds. -/
def histoThresholds : List Nat := [10, 100, 1000, 10000, 100000, 1000000]

/-- The bucket number that `record` computes for a duration in nanoseconds. -/
def bucketNumber (duration : Nat) : Nat :=
  let us := duration / 1000 % 2 ^ 64
  (histoThresholds.findIdx? fun threshold => us ≤ threshold).getD (histoBuckets - 1)

theorem bucketNumber_lt (duration : Nat) : bucketNumber duration < histoBuckets := by
  have bound : ∀ found : Option Nat, (∀ index, found = some index → index < histoBuckets) →
      found.getD (histoBuckets - 1) < histoBuckets := by
    intro found inside
    cases found with
    | none => decide
    | some index => exact inside index rfl
  apply bound
  intro index found
  have inside := (List.findIdx?_eq_some_iff_findIdx_eq.mp found).1
  exact Nat.lt_trans inside (by decide)

def bucketOf (duration : Nat) : Fin histoBuckets :=
  ⟨bucketNumber duration, bucketNumber_lt duration⟩

structure Histogram where
  counts : Fin histoBuckets → Nat

structure Percentile where
  target : Nat
  reached : Nat
  deriving DecidableEq

def Percentile.visit (index cum : Nat) (percentile : Percentile) : Percentile :=
  if percentile.reached = 0 ∧ percentile.target ≤ cum then
    { percentile with reached := index }
  else
    percentile

def summaryLoop (index cum : Nat) : List Nat → List Percentile → Option (List Percentile)
  | [], targets => some targets
  | count :: rest, targets => do
      let cum ← checkedAdd cum count
      summaryLoop (index + 1) cum rest (targets.map (Percentile.visit index cum))

def bucketLabel : Nat → String
  | 0 => "<=10"
  | 1 => "<=100"
  | 2 => "<=1k"
  | 3 => "<=10k"
  | 4 => "<=100k"
  | 5 => "<=1M"
  | _ => ">1M"

def summaryText (label : String) (total : Nat) (p50 p95 p99 : String) : String :=
  label ++ " total=" ++ toString total ++ " p50=" ++ p50 ++ "µs p95=" ++ p95 ++ "µs p99=" ++
    p99 ++ "µs"

namespace Histogram

/-- `Histogram::new`. -/
def new : Histogram := ⟨fun _ => 0⟩

/-- `Histogram::record`; the counter wraps around. -/
def record (duration : Nat) (histogram : Histogram) : Histogram :=
  ⟨Function.update histogram.counts (bucketOf duration)
    ((histogram.counts (bucketOf duration) + 1) % 2 ^ 64)⟩

/-- `Histogram::snapshot`. -/
def snapshot (histogram : Histogram) : List Nat := List.ofFn histogram.counts

/-- `s.iter().sum()`. -/
def checkedSum : List Nat → Nat → Option Nat
  | [], sum => some sum
  | count :: rest, sum => do checkedSum rest (← checkedAdd sum count)

/-- `total * percent / 100`, not reached yet. -/
def target (total percent : Nat) : Option Percentile := do
  let product ← checkedMul total percent
  return ⟨product / 100, 0⟩

/-- `Histogram::summary`; no result stands for an arithmetic overflow. -/
def summary (label : String) (histogram : Histogram) : Option String := do
  let counts := histogram.snapshot
  let total ← checkedSum counts 0
  if total = 0 then
    return label ++ "=0 samples"
  else
    let p50 ← target total 50
    let p95 ← target total 95
    let p99 ← target total 99
    match ← summaryLoop 0 0 counts [p50, p95, p99] with
    | [p50, p95, p99] =>
        return summaryText label total (bucketLabel p50.reached) (bucketLabel p95.reached)
          (bucketLabel p99.reached)
    | _ => none

end Histogram

def recorded (durations : List Nat) : Histogram :=
  durations.foldl (fun histogram duration => histogram.record duration) .new

def cumulative (durations : List Nat) (bucket : Nat) : Nat :=
  durations.countP fun duration => bucketNumber duration ≤ bucket

/-- The bucket of the sample of nearest rank for a percentage. -/
def NearestRank (durations : List Nat) (percent bucket : Nat) : Prop :=
  IsLeast {bucket | percent * durations.length ≤ 100 * cumulative durations bucket} bucket

/-! ## Counts -/

theorem cumulative_mono (durations : List Nat) {bucket later : Nat} (le : bucket ≤ later) :
    cumulative durations bucket ≤ cumulative durations later := by
  apply List.countP_mono_left
  intro duration _ below
  simp only [decide_eq_true_eq] at below ⊢
  omega

theorem cumulative_of_last_le (durations : List Nat) {bucket : Nat}
    (last : histoBuckets ≤ bucket + 1) : cumulative durations bucket = durations.length := by
  apply List.countP_eq_length.mpr
  intro duration _
  have bound := bucketNumber_lt duration
  simp only [decide_eq_true_eq]
  omega

theorem cumulative_succ (durations : List Nat) (bucket : Nat) :
    cumulative durations (bucket + 1) =
      cumulative durations bucket +
        durations.countP fun duration => bucketNumber duration = bucket + 1 := by
  unfold cumulative
  induction durations with
  | nil => rfl
  | cons duration rest induction =>
      simp only [List.countP_cons, induction, decide_eq_true_eq]
      split_ifs <;> omega

theorem Histogram.record_counts (duration : Nat) (histogram : Histogram)
    (bucket : Fin histoBuckets) :
    (histogram.record duration).counts bucket =
      if bucketNumber duration = bucket then (histogram.counts bucket + 1) % 2 ^ 64
      else histogram.counts bucket := by
  by_cases same : bucket = bucketOf duration
  · subst same
    rw [if_pos (show bucketNumber duration = (bucketOf duration : Nat) from rfl)]
    exact Function.update_self ..
  · have number : bucketNumber duration ≠ bucket := by
      intro equal
      exact same (Fin.ext equal.symm)
    rw [if_neg number]
    exact Function.update_of_ne same ..

theorem recorded_counts (durations : List Nat) (bucket : Fin histoBuckets) :
    (recorded durations).counts bucket =
      (durations.countP fun duration => bucketNumber duration = bucket) % 2 ^ 64 := by
  induction durations using List.reverseRecOn with
  | nil => rfl
  | append_singleton durations duration induction =>
      have step : recorded (durations ++ [duration]) = (recorded durations).record duration := by
        rw [recorded, List.foldl_append]
        rfl
      rw [step, Histogram.record_counts, List.countP_append, List.countP_singleton, induction]
      simp only [decide_eq_true_eq]
      split_ifs <;> omega

theorem sum_take_snapshot {durations : List Nat} (few : durations.length < 2 ^ 64)
    (bucket : Nat) :
    ((recorded durations).snapshot.take (bucket + 1)).sum = cumulative durations bucket := by
  have counted : ∀ index, ((recorded durations).snapshot[index]?.toList).sum =
      durations.countP fun duration => bucketNumber duration = index := by
    intro index
    rw [Histogram.snapshot, List.getElem?_ofFn]
    split_ifs with inside
    · have small : (durations.countP fun duration => bucketNumber duration = index) < 2 ^ 64 :=
        Nat.lt_of_le_of_lt List.countP_le_length few
      rw [recorded_counts, Nat.mod_eq_of_lt small]
      rfl
    · symm
      apply List.countP_eq_zero.mpr
      intro duration _ same
      have bound := bucketNumber_lt duration
      rw [decide_eq_true_eq] at same
      omega
  induction bucket with
  | zero =>
      rw [List.take_add_one, List.sum_append, counted 0]
      simp [cumulative]
  | succ bucket induction =>
      rw [List.take_add_one, List.sum_append, induction, counted, cumulative_succ]

theorem sum_snapshot {durations : List Nat} (few : durations.length < 2 ^ 64) :
    (recorded durations).snapshot.sum = durations.length := by
  rw [← cumulative_of_last_le durations (Nat.le_succ histoBuckets),
    ← sum_take_snapshot few, List.take_of_length_le]
  rw [Histogram.snapshot, List.length_ofFn]
  decide

/-! ## The loop -/

def Percentile.scan (index cum : Nat) (percentile : Percentile) : List Nat → Percentile
  | [] => percentile
  | count :: rest => (percentile.visit index (cum + count)).scan (index + 1) (cum + count) rest

theorem summaryLoop_eq {counts : List Nat} {index cum : Nat} {targets : List Percentile}
    (small : cum + counts.sum < 2 ^ 64) :
    summaryLoop index cum counts targets =
      some (targets.map fun percentile => percentile.scan index cum counts) := by
  induction counts generalizing index cum targets with
  | nil => simp [summaryLoop, Percentile.scan]
  | cons count rest induction =>
      rw [List.sum_cons] at small
      have added : checkedAdd cum count = some (cum + count) := checkedAdd_of_lt (by omega)
      rw [summaryLoop, added, Option.bind_eq_bind, Option.bind_some, induction (by omega),
        List.map_map]
      rfl

theorem Percentile.scan_of_reached {percentile : Percentile} (reached : percentile.reached ≠ 0)
    (index cum : Nat) (counts : List Nat) : percentile.scan index cum counts = percentile := by
  induction counts generalizing index cum with
  | nil => rfl
  | cons count rest induction =>
      have kept : percentile.visit index (cum + count) = percentile :=
        if_neg fun both => reached both.1
      rw [Percentile.scan, kept, induction]

/-- From the second bucket on the loop stops at the first bucket whose running count
reaches the target. -/
theorem Percentile.scan_isLeast {percentile : Percentile} {index cum : Nat} {counts : List Nat}
    (later : 0 < index) (unreached : percentile.reached = 0) (nonempty : counts ≠ [])
    (enough : percentile.target ≤ cum + counts.sum) :
    IsLeast {bucket | index ≤ bucket ∧
        percentile.target ≤ cum + (counts.take (bucket + 1 - index)).sum}
      (percentile.scan index cum counts).reached := by
  induction counts generalizing index cum with
  | nil => exact absurd rfl nonempty
  | cons count rest induction =>
      rw [Percentile.scan]
      by_cases here : percentile.target ≤ cum + count
      · have stops : percentile.visit index (cum + count) = { percentile with reached := index } :=
          if_pos ⟨unreached, here⟩
        rw [stops, Percentile.scan_of_reached (Nat.ne_of_gt later)]
        refine ⟨⟨Nat.le_refl index, ?_⟩, fun bucket member => member.1⟩
        rw [Nat.add_sub_cancel_left]
        simpa using here
      · have goesOn : percentile.visit index (cum + count) = percentile :=
          if_neg fun both => here both.2
        have more : rest ≠ [] := by
          intro empty
          subst empty
          exact here (by simpa using enough)
        rw [List.sum_cons] at enough
        have least := @induction (index + 1) (cum + count) (by omega) more (by omega)
        have shifted : ∀ bucket, index + 1 ≤ bucket →
            cum + ((count :: rest).take (bucket + 1 - index)).sum =
              cum + count + (rest.take (bucket + 1 - (index + 1))).sum := by
          intro bucket after
          rw [show bucket + 1 - index = bucket + 1 - (index + 1) + 1 by omega,
            List.take_succ_cons, List.sum_cons, Nat.add_assoc]
        rw [goesOn]
        constructor
        · refine ⟨by have := least.1.1; omega, ?_⟩
          rw [shifted _ least.1.1]
          exact least.1.2
        · intro bucket member
          rcases Nat.eq_or_lt_of_le member.1 with same | after
          · subst same
            have reached := member.2
            rw [Nat.add_sub_cancel_left] at reached
            exact absurd (by simpa using reached) here
          · apply least.2
            refine ⟨after, ?_⟩
            rw [← shifted bucket after]
            exact member.2

theorem Histogram.checkedSum_eq {counts : List Nat} {sum : Nat} (small : sum + counts.sum < 2 ^ 64) :
    checkedSum counts sum = some (sum + counts.sum) := by
  induction counts generalizing sum with
  | nil => rfl
  | cons count rest induction =>
      rw [List.sum_cons] at small
      have added : checkedAdd sum count = some (sum + count) := checkedAdd_of_lt (by omega)
      rw [checkedSum, added, Option.bind_eq_bind, Option.bind_some, induction (by omega),
        List.sum_cons, Nat.add_assoc]

theorem Histogram.target_eq {total percent : Nat} (few : total < 2 ^ 57) (share : percent ≤ 100) :
    target total percent = some ⟨total * percent / 100, 0⟩ := by
  have small : total * percent < 2 ^ 64 := by
    have bound := Nat.mul_le_mul (Nat.le_of_lt few) share
    omega
  rw [target, checkedMul_of_lt small]
  rfl

def reachedBucket (durations : List Nat) (percent : Nat) : Nat :=
  (Percentile.scan 0 0 ⟨durations.length * percent / 100, 0⟩ (recorded durations).snapshot).reached

theorem summary_eq {durations : List Nat} (samples : durations ≠ [])
    (few : durations.length < 2 ^ 57) (label : String) :
    (recorded durations).summary label =
      some (summaryText label durations.length (bucketLabel (reachedBucket durations 50))
        (bucketLabel (reachedBucket durations 95)) (bucketLabel (reachedBucket durations 99))) := by
  have total : (recorded durations).snapshot.sum = durations.length := sum_snapshot (by omega)
  have summed : Histogram.checkedSum (recorded durations).snapshot 0 = some durations.length := by
    rw [Histogram.checkedSum_eq (by omega), total, Nat.zero_add]
  have counted : durations.length ≠ 0 := by
    intro empty
    exact samples (List.length_eq_zero_iff.mp empty)
  simp only [Histogram.summary, summed, Option.bind_eq_bind, Option.bind_some, if_neg counted,
    Histogram.target_eq few (show 50 ≤ 100 by decide),
    Histogram.target_eq few (show 95 ≤ 100 by decide),
    Histogram.target_eq few (show 99 ≤ 100 by decide),
    summaryLoop_eq (show 0 + (recorded durations).snapshot.sum < 2 ^ 64 by omega), List.map_cons,
    List.map_nil]
  rfl

/-- The first bucket is never found, and the target is rounded down. -/
theorem reachedBucket_isLeast {durations : List Nat} {percent : Nat}
    (few : durations.length < 2 ^ 57) (share : percent ≤ 100) :
    IsLeast {bucket | 1 ≤ bucket ∧ durations.length * percent / 100 ≤ cumulative durations bucket}
      (reachedBucket durations percent) := by
  have parts : ∃ first rest, (recorded durations).snapshot = first :: rest ∧ rest ≠ [] :=
    ⟨_, _, rfl, List.cons_ne_nil _ _⟩
  rcases parts with ⟨first, rest, parts, more⟩
  have total : (recorded durations).snapshot.sum = durations.length := sum_snapshot (by omega)
  have running : ∀ bucket, 1 ≤ bucket →
      0 + first + (rest.take (bucket + 1 - 1)).sum = cumulative durations bucket := by
    intro bucket _
    rw [← sum_take_snapshot (by omega), parts, List.take_succ_cons, List.sum_cons, Nat.zero_add,
      Nat.add_sub_cancel]
  have below : durations.length * percent / 100 ≤ durations.length := by
    apply Nat.div_le_of_le_mul
    rw [Nat.mul_comm]
    exact Nat.mul_le_mul_right _ share
  have skipped : Percentile.visit 0 (0 + first) ⟨durations.length * percent / 100, 0⟩ =
      ⟨durations.length * percent / 100, 0⟩ := by
    rw [Percentile.visit]
    split_ifs <;> rfl
  rw [reachedBucket, parts, Percentile.scan, skipped]
  rw [parts, List.sum_cons] at total
  have least := @Percentile.scan_isLeast ⟨durations.length * percent / 100, 0⟩ 1 (0 + first)
    rest Nat.one_pos rfl more (by simpa [total] using below)
  constructor
  · refine ⟨least.1.1, ?_⟩
    rw [← running _ least.1.1]
    exact least.1.2
  · intro bucket member
    apply least.2
    refine ⟨member.1, ?_⟩
    rw [running bucket member.1]
    exact member.2

theorem reachedBucket_lt {durations : List Nat} {percent : Nat}
    (few : durations.length < 2 ^ 57) (share : percent ≤ 100) :
    reachedBucket durations percent < histoBuckets := by
  have last : reachedBucket durations percent ≤ 6 := by
    apply (reachedBucket_isLeast few share).2
    refine ⟨by decide, ?_⟩
    rw [cumulative_of_last_le durations (Nat.le_refl histoBuckets)]
    apply Nat.div_le_of_le_mul
    rw [Nat.mul_comm]
    exact Nat.mul_le_mul_right _ share
  exact Nat.lt_succ_of_le last

theorem bucketLabel_inj {left right : Nat} (leftInside : left < histoBuckets)
    (rightInside : right < histoBuckets) (same : bucketLabel left = bucketLabel right) :
    left = right := by
  have inj : ∀ left < 7, ∀ right < 7, bucketLabel left = bucketLabel right → left = right := by
    decide
  exact inj left leftInside right rightInside same

/-- The first bucket holds less than the percentage, and no later running count
lies between the target as it is rounded down and the target itself. -/
def Separates (durations : List Nat) (percent : Nat) : Prop :=
  100 * cumulative durations 0 < percent * durations.length ∧
    ∀ bucket, 1 ≤ bucket → percent * durations.length ≤ 100 * cumulative durations bucket ∨
      100 * cumulative durations bucket + 100 ≤ percent * durations.length

/-- The bucket found is the one of nearest rank exactly when the counts keep clear of
the two shortcuts of the loop. -/
theorem nearestRank_reachedBucket_iff {durations : List Nat} {percent : Nat}
    (few : durations.length < 2 ^ 57) (share : percent ≤ 100) :
    NearestRank durations percent (reachedBucket durations percent) ↔
      Separates durations percent := by
  have least := reachedBucket_isLeast few share
  rw [Nat.mul_comm] at least
  constructor
  · intro nearest
    constructor
    · apply Nat.lt_of_not_le
      intro enough
      have first : reachedBucket durations percent ≤ 0 := nearest.2 enough
      exact Nat.not_succ_le_zero 0 (Nat.le_trans least.1.1 first)
    · intro bucket later
      by_cases enough : percent * durations.length ≤ 100 * cumulative durations bucket
      · exact Or.inl enough
      · right
        apply Nat.le_of_not_lt
        intro between
        have found : reachedBucket durations percent ≤ bucket :=
          least.2 ⟨later, by omega⟩
        have grows := cumulative_mono durations found
        have enough : percent * durations.length ≤
            100 * cumulative durations (reachedBucket durations percent) := nearest.1
        omega
  · intro separates
    constructor
    · rcases separates.2 _ least.1.1 with enough | short
      · exact enough
      · have found := least.1.2
        omega
    · intro bucket enough
      have enough : percent * durations.length ≤ 100 * cumulative durations bucket := enough
      apply least.2
      refine ⟨?_, by omega⟩
      apply Nat.one_le_iff_ne_zero.mpr
      intro zero
      subst zero
      exact absurd separates.1 (Nat.not_lt_of_le enough)

theorem exists_nearestRank (durations : List Nat) {percent : Nat} (share : percent ≤ 100) :
    ∃ bucket < histoBuckets, NearestRank durations percent bucket := by
  have reached : ∃ bucket, percent * durations.length ≤ 100 * cumulative durations bucket := by
    refine ⟨6, ?_⟩
    rw [cumulative_of_last_le durations (Nat.le_refl histoBuckets)]
    exact Nat.mul_le_mul_right _ share
  refine ⟨Nat.find reached, ?_, Nat.find_spec reached, fun bucket enough =>
    Nat.find_min' reached enough⟩
  apply Nat.lt_succ_of_le
  apply Nat.find_min' reached
  rw [cumulative_of_last_le durations (Nat.le_refl histoBuckets)]
  exact Nat.mul_le_mul_right _ share

/-- The summary prints the label of the nearest rank bucket exactly for the counts
that keep clear of the loop's two shortcuts. -/
theorem summary_prints_nearest_rank {durations : List Nat} (samples : durations ≠ [])
    (few : durations.length < 2 ^ 57) (label : String) :
    ∃ p50 p95 p99, (recorded durations).summary label =
        some (summaryText label durations.length p50 p95 p99) ∧
      ∀ percent printed, (percent, printed) ∈ [(50, p50), (95, p95), (99, p99)] →
        ((∃ bucket, NearestRank durations percent bucket ∧ printed = bucketLabel bucket) ↔
          Separates durations percent) := by
  have exact_iff : ∀ percent ≤ 100,
      ((∃ bucket, NearestRank durations percent bucket ∧
          bucketLabel (reachedBucket durations percent) = bucketLabel bucket) ↔
        Separates durations percent) := by
    intro percent share
    rw [← nearestRank_reachedBucket_iff few share]
    constructor
    · intro printed
      rcases printed with ⟨bucket, nearest, same⟩
      rcases exists_nearestRank durations share with ⟨least, inside, leastNearest⟩
      have unique : bucket = least := nearest.unique leastNearest
      subst unique
      rw [bucketLabel_inj (reachedBucket_lt few share) inside same]
      exact nearest
    · intro nearest
      exact ⟨_, nearest, rfl⟩
  refine ⟨_, _, _, summary_eq samples few label, ?_⟩
  intro percent printed member
  simp only [List.mem_cons, Prod.mk.injEq, List.not_mem_nil, or_false] at member
  rcases member with ⟨percentIs, printedIs⟩ | ⟨percentIs, printedIs⟩ | ⟨percentIs, printedIs⟩ <;>
    · rw [percentIs, printedIs]
      exact exact_iff _ (by decide)

/-- Two samples of 50 µs and two of 5 ms. -/
theorem summary_prints_nearest_rank_four :
    ∃ p50 p95 p99 bucket,
      (recorded [50000, 50000, 5000000, 5000000]).summary "fuse" =
        some (summaryText "fuse" 4 p50 p95 p99) ∧
      NearestRank [50000, 50000, 5000000, 5000000] 50 bucket ∧ p50 = bucketLabel bucket := by
  have separates : Separates [50000, 50000, 5000000, 5000000] 50 := by
    constructor
    · decide
    · intro bucket later
      left
      have grows := cumulative_mono [50000, 50000, 5000000, 5000000] later
      have first : cumulative [50000, 50000, 5000000, 5000000] 1 = 2 := by decide
      show 50 * 4 ≤ _
      omega
  have samples : [50000, 50000, 5000000, 5000000] ≠ [] := List.cons_ne_nil _ _
  rcases summary_prints_nearest_rank samples (by decide) "fuse" with
    ⟨p50, p95, p99, printed, right⟩
  rcases (right 50 p50 (List.mem_cons_self ..)).mpr separates with ⟨bucket, nearest, label⟩
  exact ⟨p50, p95, p99, bucket, printed, nearest, label⟩

/-- One fast sample is reported in the second bucket. -/
theorem single_fast_sample_is_misreported :
    (recorded [5000]).summary "fuse" =
        some "fuse total=1 p50=<=100µs p95=<=100µs p99=<=100µs" ∧
      NearestRank [5000] 50 0 ∧ bucketLabel 0 = "<=10" := by
  refine ⟨by decide, ⟨?_, ?_⟩, rfl⟩
  · show 50 * 1 ≤ 100 * cumulative [5000] 0
    decide
  · intro bucket _
    exact Nat.zero_le bucket

end Pgfs
