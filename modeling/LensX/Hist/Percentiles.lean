import Mathlib.Algebra.Order.Floor.Semifield
import LensX.General.OrderStatistics
import LensX.Hist.Buckets

/-! # Percentiles

The loop of a percentile stops in the bucket of the value whose rank is the truncated
target. If the target is not truncated to a smaller rank, the bucket covers its share.
-/

namespace LensX

open OrderStatistics

namespace Hist

theorem rank_le {n p : ℕ} (hp : p ≤ 100) : n * p / 100 ≤ n := by
  refine Nat.div_le_of_le_mul ?_
  rw [Nat.mul_comm 100]
  exact Nat.mul_le_mul_left n hp

section Scan

variable {vals : List UInt64} (hn : vals.length < 2 ^ 31)
include hn

/-- The accumulator counts the values of the buckets before. -/
theorem scan_eq (target : UInt64) (s m : ℕ) {cum : UInt64}
    (hcum : cum.toNat = (vals.map (·.toNat)).countP (logBucket · < s)) :
    (vals.foldl record empty).scan target (List.range' s m) cum =
      (List.range' s m).find?
        fun i => target.toNat ≤ (vals.map (·.toNat)).countP (logBucket · ≤ i) := by
  induction m generalizing s cum with
  | zero => rfl
  | succ m ih =>
    have hsum := countP_le_eq_add (f := logBucket) (vals.map (·.toNat)) s
    have hlen := (vals.map (·.toNat)).countP_le_length (p := (logBucket · ≤ s))
    rw [List.length_map] at hlen
    have hcell : ((vals.foldl record empty).buckets s).toNat =
        (vals.map (·.toNat)).countP (logBucket · = s) := by
      rw [toNat_buckets hn, List.countP_map]
      rfl
    have hcum' : (cum + (vals.foldl record empty).buckets s).toNat =
        (vals.map (·.toNat)).countP (logBucket · ≤ s) := by
      rw [UInt64.toNat_add, hcum, hcell, hsum]
      exact Nat.mod_eq_of_lt (by omega)
    rw [List.range'_succ, scan, List.find?_cons]
    simp only [ge_iff_le, UInt64.le_iff_toNat_le, hcum']
    split
    · next h => rw [decide_eq_true h]
    · next h =>
      rw [decide_eq_false h]
      apply ih
      rw [hcum']
      simp only [Nat.lt_succ_iff]

theorem pctBucket_eq (p : ℚ) :
    (vals.foldl record empty).pctBucket p = (List.range bucketCount).find? fun i =>
      ((vals.foldl record empty).target p).toNat ≤
        (vals.map (·.toNat)).countP (logBucket · ≤ i) := by
  rw [pctBucket, List.range_eq_range']
  exact scan_eq hn _ 0 bucketCount (by simp)

theorem toNat_target {p : ℕ} (hp : p ≤ 100) :
    ((vals.foldl record empty).target p).toNat = vals.length * p / 100 := by
  have hfloor : ⌊((vals.length * p : ℕ) : ℚ) / (100 : ℕ)⌋₊ = vals.length * p / 100 :=
    Nat.floor_div_eq_div _ _
  have hcast : ((vals.length : ℤ) : ℚ) * p / 100 = ((vals.length * p : ℕ) : ℚ) / (100 : ℕ) := by
    push_cast
    rfl
  rw [target, count_foldl_record hn, hcast, hfloor]
  exact UInt64.toNat_ofNat_of_lt' (((rank_le hp).trans_lt hn).trans (by decide))

end Scan

theorem midpoint_eq {i : ℕ} (hi : i < bucketCount) :
    midpoint i = .ofNat ((2 ^ i + 2 ^ (i + 1)) / 2) := by
  have hall : ∀ i < 48, midpoint i = .ofNat ((2 ^ i + 2 ^ (i + 1)) / 2) := by decide
  exact hall i hi

section Rank

variable {vals : List UInt64} {p : ℕ} (hp : p ≤ 100)
include hp

theorem exists_kth_target (hk : 1 ≤ vals.length * p / 100) :
    ∃ x, kth (vals.map (·.toNat)) (vals.length * p / 100) = some x := by
  apply exists_kth hk
  rw [List.length_map]
  exact rank_le hp

variable (hn : vals.length < 2 ^ 31)
include hn

theorem pctBucket_eq_of_kth (hk : 1 ≤ vals.length * p / 100) {x : ℕ}
    (hx : kth (vals.map (·.toNat)) (vals.length * p / 100) = some x) :
    (vals.foldl record empty).pctBucket p = some (logBucket x) := by
  rw [pctBucket_eq hn, toNat_target hn hp]
  exact find?_countP_eq logBucket_mono hk hx (logBucket_lt x)

/-- A percentile is the midpoint of the bucket of the value whose rank is the target. -/
theorem pct_eq_kth (hk : 1 ≤ vals.length * p / 100) :
    ∃ x i, kth (vals.map (·.toNat)) (vals.length * p / 100) = some x ∧
      i = min 47 (Nat.log 2 (max 1 x)) ∧ (vals.foldl record empty).pctBucket p = some i ∧
      (vals.foldl record empty).pct p = .ofNat ((2 ^ i + 2 ^ (i + 1)) / 2) := by
  obtain ⟨x, hx⟩ := exists_kth_target hp hk
  have hbucket := pctBucket_eq_of_kth hp hn hk hx
  refine ⟨x, logBucket x, hx, rfl, hbucket, ?_⟩
  rw [pct, hbucket, ← midpoint_eq (logBucket_lt x)]
  rfl

end Rank

/-- The middle one of three values is the second smallest. -/
theorem pct_eq_kth_three : ([1000, 20, 300].foldl record empty).pct (90 : ℕ) = 384 := by
  obtain ⟨x, i, hx, rfl, -, h⟩ := @pct_eq_kth [1000, 20, 300] 90 (by decide) (by decide) (by decide)
  obtain rfl : x = 300 := Option.some.inj (hx.symm.trans (by decide))
  exact h

section Coverage

/-- The bucket at which the loop returns is not empty, and enough values lie up to it. -/
def Covers (vals : List UInt64) (p : ℕ) : Prop :=
  ∃ i, (vals.foldl record empty).pctBucket p = some i ∧ (∃ v ∈ vals, bucket v = i) ∧
    p * vals.length ≤ 100 * vals.countP (bucket · ≤ i)

/-- Truncating the target does not move it to an earlier bucket. -/
def TargetKept (vals : List UInt64) (p : ℕ) : Prop :=
  let xs := vals.map (·.toNat)
  let k := vals.length * p / 100
  100 ∣ vals.length * p ∨
    1 ≤ k ∧ (kth xs k).map logBucket = (kth xs (k + 1)).map logBucket ∨
    k = 0 ∧ ∃ x ∈ xs, x ≤ 1

theorem countP_bucket_le (vals : List UInt64) (i : ℕ) :
    vals.countP (bucket · ≤ i) = (vals.map (·.toNat)).countP (logBucket · ≤ i) := by
  simp only [bucket_eq]
  rw [List.countP_map]
  rfl

theorem logBucket_eq_zero_iff {n : ℕ} : logBucket n = 0 ↔ n ≤ 1 := by
  rw [logBucket_eq_iff (by decide)]
  omega

variable {vals : List UInt64} {p : ℕ} (hp : 1 ≤ p ∧ p ≤ 100) (hn : vals.length < 2 ^ 31)
include hp hn

/-- A target of zero is reached at the first bucket, empty or not. -/
theorem covers_iff_of_target_zero (hk : vals.length * p / 100 = 0) :
    Covers vals p ↔ ∃ x ∈ vals.map (·.toNat), x ≤ 1 := by
  have hbucket : (vals.foldl record empty).pctBucket p = some 0 := by
    rw [pctBucket_eq hn, toNat_target hn hp.2, hk]
    rfl
  simp only [Covers, hbucket, Option.some.injEq, exists_eq_left', bucket_eq,
    logBucket_eq_zero_iff, List.mem_map, exists_exists_and_eq_and, and_iff_left_iff_imp]
  rintro ⟨v, hv, hle⟩
  have hpos : 0 < vals.countP (logBucket ·.toNat ≤ 0) :=
    List.countP_pos_iff.mpr ⟨v, hv, decide_eq_true (logBucket_eq_zero_iff.mpr hle).le⟩
  rw [Nat.mul_comm p]
  omega

theorem covers_iff_of_target_pos (hk : 1 ≤ vals.length * p / 100) :
    Covers vals p ↔ 100 ∣ vals.length * p ∨
      (kth (vals.map (·.toNat)) (vals.length * p / 100)).map logBucket =
        (kth (vals.map (·.toNat)) (vals.length * p / 100 + 1)).map logBucket := by
  obtain ⟨x, hx⟩ := exists_kth_target hp.2 hk
  have hbucket := pctBucket_eq_of_kth hp.2 hn hk hx
  obtain ⟨v, hv, rfl⟩ := List.mem_map.mp (mem_of_kth hx)
  have hlow := (class_kth_le_iff logBucket_mono hk hx (logBucket v.toNat)).mp le_rfl
  have hcovers : Covers vals p ↔ p * vals.length ≤
      100 * (vals.map (·.toNat)).countP (logBucket · ≤ logBucket v.toNat) := by
    simp only [Covers, hbucket, Option.some.injEq, exists_eq_left', countP_bucket_le]
    exact and_iff_right ⟨v, hv, bucket_eq v⟩
  rw [hcovers, Nat.mul_comm p]
  by_cases hd : 100 ∣ vals.length * p
  · exact iff_of_true (by omega) (Or.inl hd)
  · -- the rank that covers the share is the next one
    have hlen : vals.length * p / 100 + 1 ≤ (vals.map (·.toNat)).length := by
      rw [List.length_map]
      have hle : vals.length * p ≤ vals.length * 100 := Nat.mul_le_mul_left _ hp.2
      omega
    obtain ⟨y, hy⟩ := exists_kth (by omega) hlen
    have heq := class_kth_eq_iff logBucket_mono hk (Nat.le_succ _) hx hy
    rw [or_iff_right hd, hx, hy, Option.map_some, Option.map_some, Option.some.injEq,
      @eq_comm _ (logBucket v.toNat), heq]
    omega

/-- A percentile covers its share if and only if the truncation of its target does no harm. -/
theorem covers_iff_targetKept (hne : vals ≠ []) : Covers vals p ↔ TargetKept vals p := by
  have hlen : 0 < vals.length := List.length_pos_iff.mpr hne
  have hpos : 0 < vals.length * p := Nat.mul_pos hlen hp.1
  unfold TargetKept
  rcases Nat.eq_zero_or_pos (vals.length * p / 100) with hk | hk
  · have hd : ¬ 100 ∣ vals.length * p := by omega
    simp only [covers_iff_of_target_zero hp hn hk, hk, hd, false_or, true_and]
    simp
  · have hk' : vals.length * p / 100 ≠ 0 := by omega
    simp only [covers_iff_of_target_pos hp hn hk, hk', Nat.one_le_iff_ne_zero, false_and, or_false,
      ne_eq, not_false_eq_true, true_and]

end Coverage

/-- The target of an even number of values is their half. -/
theorem covers_iff_targetKept_half : Covers [1000, 20, 300, 5] 50 :=
  (covers_iff_targetKept (by decide) (by decide) (by decide)).mpr (Or.inl (by decide))

/-- With a single value every percentile returns the first bucket; with three values the median
returns the bucket of the smallest one. -/
theorem not_covers_truncated :
    (([1000].foldl record empty).pct (90 : ℕ) = 1 ∧ ¬ Covers [1000] 90) ∧
      ([20, 1000, 1000].foldl record empty).pct (50 : ℕ) = 24 ∧ ¬ Covers [20, 1000, 1000] 50 := by
  refine ⟨⟨by decide +kernel, ?_⟩, by decide +kernel, ?_⟩
  · rw [covers_iff_of_target_zero (by decide) (by decide) (by decide)]
    decide
  · rw [covers_iff_of_target_pos (by decide) (by decide) (by decide)]
    decide

end Hist

end LensX
