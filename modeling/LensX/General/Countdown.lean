import Mathlib.Data.Nat.Notation

/-! # Countdowns

One party of a system takes its steps while the others do what they like. A property
that its steps bring nearer and that the others do not push away is reached after a
bounded number of its steps.
-/

namespace Countdown

variable {S : Type*} {other : S → S → Prop} {own : S → S}

/-- A run with a number of steps of the one party. -/
inductive Run (other : S → S → Prop) (own : S → S) : ℕ → S → S → Prop where
  | refl (s : S) : Run other own 0 s s
  | other {n : ℕ} {s t u : S} (h : Run other own n s t) (hstep : other t u) : Run other own n s u
  | own {n : ℕ} {s t : S} (h : Run other own n s t) : Run other own (n + 1) s (own t)

/-- `P k` says that at most `k` steps are missing. -/
theorem Run.countdown {P : ℕ → S → Prop} (hzero : ∀ s, P 0 s → P 0 (own s))
    (hown : ∀ k s, P (k + 1) s → P k (own s)) (hother : ∀ k s t, P k s → other s t → P k t)
    {n : ℕ} {s t : S} (h : Run other own n s t) {k : ℕ} (hs : P k s) : P (k - n) t := by
  induction h with
  | refl => exact hs
  | other _ hstep ih => exact hother _ _ _ (ih hs) hstep
  | @own n s t _ ih =>
    have ht := ih hs
    by_cases hlt : n < k
    · have hk : k - n = k - (n + 1) + 1 := by omega
      exact hown _ _ (hk ▸ ht)
    · rw [Nat.sub_eq_zero_of_le (by omega)] at ht ⊢
      exact hzero _ ht

end Countdown
