import Mathlib.Data.Nat.Log
import LensX.Model.Report
import LensX.System.Reports

/-! # Buckets and rows

The bucket of a value is the truncated logarithm of the value, where zero counts as
one and everything from `2^47` on falls into the last bucket.
-/

namespace LensX

namespace Hist

theorem log_or_one (n : ℕ) : Nat.log 2 (n ||| 1) = Nat.log 2 (max 1 n) := by
  have hdiv : (n ||| 1) / 2 = n / 2 := by rw [Nat.or_div_two]; simp
  have hmod : (n ||| 1) % 2 = 1 := Nat.or_mod_two_eq_one.mpr (Or.inr rfl)
  by_cases hn : n < 2
  · rw [Nat.log_of_lt (by omega), Nat.log_of_lt (by omega)]
  · rw [Nat.log_of_one_lt_of_le (by decide) (by omega), hdiv,
      Nat.log_of_one_lt_of_le (b := 2) (n := max 1 n) (by decide) (by omega),
      Nat.max_eq_right (by omega)]

/-- The class of a number: its truncated logarithm, clamped at both ends. -/
def logBucket (n : ℕ) : ℕ := min 47 (Nat.log 2 (max 1 n))

theorem logBucket_mono : Monotone logBucket := by
  intro m n h
  exact min_le_min_left 47 (Nat.log_mono_right (max_le_max_left 1 h))

theorem logBucket_lt (n : ℕ) : logBucket n < bucketCount :=
  (min_le_left 47 _).trans_lt (by decide)

theorem logBucket_eq_iff {n i : ℕ} (hi : i < bucketCount) :
    logBucket n = i ↔ 2 ^ i ≤ n ∧ n ≤ 2 ^ (i + 1) - 1 ∨ i = 0 ∧ n = 0 ∨ i = 47 ∧ 2 ^ 48 ≤ n := by
  have hi : i < 48 := hi
  have hpow : 0 < 2 ^ (i + 1) := Nat.two_pow_pos (i + 1)
  have hlow : i ≤ Nat.log 2 (max 1 n) ↔ 2 ^ i ≤ max 1 n :=
    Nat.le_log_iff_pow_le (by decide) (by omega)
  have hhigh : Nat.log 2 (max 1 n) < i + 1 ↔ max 1 n < 2 ^ (i + 1) :=
    Nat.log_lt_iff_lt_pow (by decide) (by omega)
  have hone : i = 0 ∨ 2 ≤ 2 ^ i := by
    rcases Nat.eq_zero_or_pos i with h | h
    · exact Or.inl h
    · exact Or.inr (Nat.le_self_pow (by omega) 2)
  unfold logBucket
  rcases Nat.lt_or_ge i 47 with hlt | hge
  · constructor
    · intro h
      have h₁ := hlow.mp (by omega)
      have h₂ := hhigh.mp (by omega)
      omega
    · rintro (⟨h₁, h₂⟩ | ⟨rfl, rfl⟩ | ⟨rfl, -⟩)
      · have := hlow.mpr (by omega)
        have := hhigh.mpr (by omega)
        omega
      · simp
      · omega
  · obtain rfl : i = 47 := by omega
    constructor
    · intro h
      have := hlow.mp (by omega)
      omega
    · intro h
      have := hlow.mpr (by omega)
      omega

/-- The bucket of a value is its truncated logarithm, clamped at both ends. -/
theorem bucket_eq (v : UInt64) : bucket v = logBucket v.toNat := by
  have hval : (v ||| 1).toBitVec.toNat = v.toNat ||| 1 := by
    rw [UInt64.toNat_toBitVec, UInt64.toNat_or]
    rfl
  have hne : (v ||| 1).toBitVec ≠ 0#64 := by
    intro h
    have h := congrArg BitVec.toNat h
    have hmod : (v.toNat ||| 1) % 2 = 1 := Nat.or_mod_two_eq_one.mpr (Or.inr rfl)
    rw [hval, BitVec.toNat_ofNat] at h
    omega
  have hclz : (v ||| 1).toBitVec.clz.toNat < 64 := BitVec.clz_lt_iff_ne_zero.mpr hne
  have hlow := BitVec.two_pow_sub_clz_le_toNat_of_ne_zero (by decide) hne
  have hhigh := @BitVec.toNat_lt_two_pow_sub_clz _ (v ||| 1).toBitVec
  have hlog : 63 - (v ||| 1).toBitVec.clz.toNat = Nat.log 2 (max 1 v.toNat) := by
    rw [← log_or_one, ← hval]
    refine (Nat.log_eq_of_pow_le_of_lt_pow hlow (hhigh.trans_le ?_)).symm
    exact Nat.pow_le_pow_right (by decide) (by omega)
  unfold bucket logBucket
  simp only [hlog, bucketCount]
  split <;> omega

section Rows

variable {vals : List UInt64}

/-- A counter is the number of recorded values of its bucket. -/
theorem toNat_buckets (hn : vals.length < 2 ^ 31) (i : ℕ) :
    ((vals.foldl record empty).buckets i).toNat = vals.countP (logBucket ·.toNat = i) := by
  simp only [foldl_record, bucket_eq]
  exact UInt64.toNat_ofNat_of_lt' ((List.countP_le_length.trans_lt hn).trans (by decide))

theorem toNat_shl {i : ℕ} (hi : i < 64) : (shl i).toNat = 2 ^ i := by
  rw [shl, UInt64.toNat_shiftLeft, UInt64.toNat_ofNat_of_lt' (hi.trans (by decide)),
    Nat.mod_eq_of_lt hi, UInt64.toNat_one, Nat.one_shiftLeft]
  exact Nat.mod_eq_of_lt (Nat.pow_lt_pow_right (by decide) hi)

theorem toNat_lo (h : Hist) {i : ℕ} (hi : i < bucketCount) : (h.row i).lo.toNat = 2 ^ i :=
  toNat_shl (hi.trans (by decide))

theorem toNat_hi (h : Hist) {i : ℕ} (hi : i < bucketCount) :
    (h.row i).hi.toNat = 2 ^ (i + 1) - 1 := by
  have hi : i < 48 := hi
  have hshl := toNat_shl (i := i + 1) (by omega)
  have hpos := Nat.two_pow_pos (i + 1)
  rw [row, UInt64.toNat_sub_of_le, hshl, UInt64.toNat_one]
  rw [UInt64.le_iff_toNat_le, hshl]
  exact hpos

theorem row_mem_rows {h : Hist} {i : ℕ} (hi : i < bucketCount) (hne : h.buckets i ≠ 0) :
    h.row i ∈ h.rows :=
  List.mem_filterMap.mpr ⟨i, List.mem_range.mpr hi, if_neg hne⟩

theorem sum_rows (h : Hist) : (h.rows.map (·.counter.toNat)).sum = h.total := by
  have hsum : ∀ l : List ℕ, ((l.filterMap fun i =>
      if h.buckets i = 0 then none else some (h.row i)).map (·.counter.toNat)).sum =
        (l.map fun i => (h.buckets i).toNat).sum := by
    intro l
    induction l with
    | nil => rfl
    | cons i l ih => by_cases hi : h.buckets i = 0 <;> simp [hi, ih]
  rw [rows, hsum, total]
  rfl

/-- A printed counter is the number of values in the interval of its row, where the first row also
counts the zeros and the last one everything from `2^48` on. -/
theorem rows_count (hn : vals.length < 2 ^ 31) :
    (∀ i < bucketCount, (vals.foldl record empty).buckets i ≠ 0 →
      ∃ r ∈ (vals.foldl record empty).rows, r.lo.toNat = 2 ^ i ∧ r.hi.toNat = 2 ^ (i + 1) - 1 ∧
        r.counter.toNat = vals.countP fun v =>
          2 ^ i ≤ v.toNat ∧ v.toNat ≤ 2 ^ (i + 1) - 1 ∨ i = 0 ∧ v.toNat = 0 ∨
            i = 47 ∧ 2 ^ 48 ≤ v.toNat) ∧
      ((vals.foldl record empty).rows.map (·.counter.toNat)).sum = vals.length := by
  constructor
  · intro i hi hne
    refine ⟨_, row_mem_rows hi hne, toNat_lo _ hi, toNat_hi _ hi, ?_⟩
    rw [row_counter, toNat_buckets hn]
    simp only [logBucket_eq_iff hi]
  · rw [sum_rows, total_foldl_record (hn.trans (by decide))]

/-- A zero, a value inside its row and one beyond all rows. -/
theorem rows_count_ends :
    (([0, 5, 0x1000000000000000].foldl record empty).rows.map (·.counter.toNat)).sum = 3 :=
  have hn : ([0, 5, 0x1000000000000000] : List UInt64).length < 2 ^ 31 := by decide
  (rows_count hn).2

/-- A zero is counted in the row that is labelled with the interval of one. -/
theorem rows_count_zero :
    (([0].foldl record empty).rows.map fun r => (r.lo, r.hi, r.counter)) = [(1, 1, 1)] ∧
      [0].countP (fun v : UInt64 => 1 ≤ v.toNat ∧ v.toNat ≤ 1) = 0 := by
  constructor
  · rfl
  · rfl

end Rows

end Hist

end LensX
