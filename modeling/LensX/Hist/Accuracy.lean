import LensX.Hist.Percentiles

/-! # The printed percentiles

The percentiles of a report are in order, and each of them is close to the latency
whose rank is the target.
-/

namespace LensX

open OrderStatistics

namespace Hist

/-- Of two thresholds the smaller one is reached first. -/
theorem find?_le_find? {f : ℕ → ℕ} {a b n i j : ℕ} (hab : a ≤ b)
    (hi : (List.range n).find? (fun i => a ≤ f i) = some i)
    (hj : (List.range n).find? (fun i => b ≤ f i) = some j) : i ≤ j := by
  rw [List.find?_range_eq_some] at hi hj
  by_contra hlt
  have hbefore := hi.2.2 j (Nat.lt_of_not_le hlt)
  rw [Bool.not_eq_true', decide_eq_false_iff_not] at hbefore
  exact hbefore (hab.trans (of_decide_eq_true hj.1))

theorem toNat_midpoint {i : ℕ} (hi : i < bucketCount) :
    (midpoint i).toNat = (2 ^ i + 2 ^ (i + 1)) / 2 := by
  have hall : ∀ i < 48, (midpoint i).toNat = (2 ^ i + 2 ^ (i + 1)) / 2 := by decide
  exact hall i hi

theorem midpoint_mono {i j : ℕ} (hij : i ≤ j) (hj : j < bucketCount) :
    (midpoint i).toNat ≤ (midpoint j).toNat := by
  rw [toNat_midpoint (hij.trans_lt hj), toNat_midpoint hj]
  have hpow := Nat.pow_le_pow_right (n := 2) (by decide) hij
  exact Nat.div_le_div_right (by omega)

/-- The middle of an interval from a power of two to the next one. -/
theorem midpoint_near {x i : ℕ} (hi : i < bucketCount) (hx : x < 2 ^ 48) (h : logBucket x = i) :
    3 * x < 4 * (midpoint i).toNat ∧ 2 * (midpoint i).toNat ≤ 3 * max 1 x := by
  rw [toNat_midpoint hi]
  have hpow := Nat.two_pow_pos i
  rcases (logBucket_eq_iff hi).mp h with h | ⟨rfl, rfl⟩ | h
  · cases i <;> omega
  · decide
  · omega

/-- The percentiles that a report prints. -/
abbrev printedRanks : List ℚ := [50, 90, 99, 999 / 10]

theorem printedRanks_le : ∀ p ∈ printedRanks, p ≤ 100 := by
  intro p hp
  simp only [printedRanks, List.mem_cons, List.not_mem_nil, or_false] at hp
  rcases hp with rfl | rfl | rfl | rfl <;> norm_num

section Targets

variable {vals : List UInt64} (hn : vals.length < 2 ^ 31)
include hn

theorem toNat_target_floor {p : ℚ} (hp : p ≤ 100) :
    ((vals.foldl record empty).target p).toNat = ⌊(vals.length : ℚ) * p / 100⌋₊ ∧
      ⌊(vals.length : ℚ) * p / 100⌋₊ ≤ vals.length := by
  have hle : ⌊(vals.length : ℚ) * p / 100⌋₊ ≤ vals.length := by
    refine Nat.floor_le_of_le ?_
    rw [div_le_iff₀ (by norm_num)]
    exact mul_le_mul_of_nonneg_left hp (Nat.cast_nonneg _)
  refine ⟨?_, hle⟩
  rw [target, count_foldl_record hn, Int.cast_natCast]
  exact UInt64.toNat_ofNat_of_lt' ((hle.trans_lt hn).trans (by decide))

theorem exists_pctBucket {p : ℚ} (hp : p ≤ 100) :
    ∃ i < bucketCount, (vals.foldl record empty).pctBucket p = some i := by
  obtain ⟨htarget, hle⟩ := toNat_target_floor hn hp
  rw [pctBucket_eq hn, htarget]
  cases hfind : (List.range bucketCount).find? fun i => ⌊(vals.length : ℚ) * p / 100⌋₊ ≤
      (vals.map (·.toNat)).countP (logBucket · ≤ i) with
  | some i => exact ⟨i, List.mem_range.mp (List.mem_of_find?_eq_some hfind), rfl⟩
  | none =>
    -- the last bucket is reached with all values
    have hlast := List.find?_eq_none.mp hfind 47 (List.mem_range.mpr (by decide))
    have hall : (vals.map (·.toNat)).countP (logBucket · ≤ 47) = vals.length := by
      rw [List.countP_eq_length.mpr fun x _ => decide_eq_true (Nat.le_of_lt_succ (logBucket_lt x)),
        List.length_map]
    exact absurd (decide_eq_true (hall ▸ hle)) hlast

theorem pct_mono {p q : ℚ} (hpq : p ≤ q) (hq : q ≤ 100) :
    ((vals.foldl record empty).pct p).toNat ≤ ((vals.foldl record empty).pct q).toNat := by
  obtain ⟨i, -, hi⟩ := exists_pctBucket hn (hpq.trans hq)
  obtain ⟨j, hj, hj'⟩ := exists_pctBucket hn hq
  rw [pct, pct, hi, hj', Option.elim_some, Option.elim_some]
  refine midpoint_mono (find?_le_find? ?_ (pctBucket_eq hn p ▸ hi) (pctBucket_eq hn q ▸ hj')) hj
  rw [(toNat_target_floor hn (hpq.trans hq)).1, (toNat_target_floor hn hq).1]
  refine Nat.floor_le_floor ?_
  gcongr

theorem pct_near {p : ℚ} (hp : p ≤ 100) (hsmall : ∀ v ∈ vals, v.toNat < 2 ^ 48)
    (hk : 1 ≤ ⌊(vals.length : ℚ) * p / 100⌋₊) :
    ∃ x, kth (vals.map (·.toNat)) ⌊(vals.length : ℚ) * p / 100⌋₊ = some x ∧
      3 * x < 4 * ((vals.foldl record empty).pct p).toNat ∧
      2 * ((vals.foldl record empty).pct p).toNat ≤ 3 * max 1 x := by
  obtain ⟨htarget, hle⟩ := toNat_target_floor hn hp
  obtain ⟨x, hx⟩ := exists_kth (l := vals.map (·.toNat)) hk (by rwa [List.length_map])
  obtain ⟨v, hv, hvx⟩ := List.mem_map.mp (mem_of_kth hx)
  have hbucket : (vals.foldl record empty).pctBucket p = some (logBucket x) := by
    rw [pctBucket_eq hn, htarget]
    exact find?_countP_eq logBucket_mono hk hx (logBucket_lt x)
  refine ⟨x, hx, ?_⟩
  rw [pct, hbucket, Option.elim_some]
  exact midpoint_near (logBucket_lt x) (hvx ▸ hsmall v hv) rfl

/-- The percentiles of a report are printed in ascending order. -/
theorem percentiles_sorted :
    (printedRanks.map fun p => ((vals.foldl record empty).pct p).toNat).Pairwise (· ≤ ·) := by
  have hsorted : printedRanks.Pairwise (· ≤ ·) := by norm_num
  rw [List.pairwise_map]
  exact hsorted.imp_of_mem fun _ hq hpq => pct_mono hn hpq (printedRanks_le _ hq)

/-- A printed percentile is more than three quarters and at most three halves of the latency whose
rank is the target, unless the target is zero. -/
theorem percentiles_near (hsmall : ∀ v ∈ vals, v.toNat < 2 ^ 48) :
    ∀ p ∈ printedRanks, 1 ≤ ⌊(vals.length : ℚ) * p / 100⌋₊ →
      ∃ x, kth (vals.map (·.toNat)) ⌊(vals.length : ℚ) * p / 100⌋₊ = some x ∧
        3 * x < 4 * ((vals.foldl record empty).pct p).toNat ∧
        2 * ((vals.foldl record empty).pct p).toNat ≤ 3 * max 1 x :=
  fun p hp hk => pct_near hn (printedRanks_le p hp) hsmall hk

end Targets

theorem percentiles_sorted_three :
    (printedRanks.map fun p => (([1000, 20, 300].foldl record empty).pct p).toNat).Pairwise
      (· ≤ ·) :=
  percentiles_sorted (by decide)

theorem percentiles_near_three :
    ∃ x, kth [1000, 20, 300] ⌊(3 : ℚ) * 50 / 100⌋₊ = some x ∧
      3 * x < 4 * (([1000, 20, 300].foldl record empty).pct 50).toNat := by
  have hsmall : ∀ v ∈ ([1000, 20, 300] : List UInt64), v.toNat < 2 ^ 48 := by simp
  obtain ⟨x, hx, h, -⟩ := percentiles_near (by decide) hsmall 50 (by simp) (by norm_num)
  exact ⟨x, hx, h⟩

end Hist

end LensX
