import Mathlib.Data.List.Sort
import Mathlib.Order.Monotone.Basic

/-! # Order statistics by counting

The values of a list are sorted into classes by a monotone function. The class of
its `k`-th smallest value is the first at which the values counted so far reach `k`.
-/

namespace OrderStatistics

variable {α : Type*} [LinearOrder α]

/-- The `k`-th smallest value of a list, counted from one. -/
def kth (l : List α) (k : ℕ) : Option α := (l.insertionSort (· ≤ ·))[k - 1]?

/-- A downward closed predicate holds on a prefix of a sorted list. -/
theorem getElem_iff_lt_countP {l : List α} (hl : l.Pairwise (· ≤ ·)) {p : α → Bool}
    (hp : ∀ a b, a ≤ b → p b = true → p a = true) {j : ℕ} (hj : j < l.length) :
    p l[j] = true ↔ j < l.countP p := by
  induction l generalizing j with
  | nil => exact absurd hj (Nat.not_lt_zero j)
  | cons a l ih =>
    obtain ⟨ha, hl⟩ := List.pairwise_cons.mp hl
    by_cases hpa : p a = true
    · rw [List.countP_cons_of_pos hpa]
      cases j with
      | zero => simp [hpa]
      | succ j =>
        rw [List.getElem_cons_succ, ih hl (Nat.lt_of_succ_lt_succ hj), Nat.succ_lt_succ_iff]
    · have hnone : ∀ b ∈ a :: l, ¬ p b = true := by
        intro b hb hpb
        rcases List.mem_cons.mp hb with rfl | hb
        · exact hpa hpb
        · exact hpa (hp a b (ha b hb) hpb)
      rw [List.countP_eq_zero.mpr hnone]
      exact iff_of_false (hnone _ (List.getElem_mem hj)) (Nat.not_lt_zero j)

variable {l : List α} {k : ℕ} {x : α}

theorem exists_kth (hk : 1 ≤ k) (hlen : k ≤ l.length) : ∃ x, kth l k = some x := by
  have hlt : k - 1 < (l.insertionSort (· ≤ ·)).length := by
    rw [List.length_insertionSort]
    omega
  exact ⟨_, List.getElem?_eq_getElem hlt⟩

theorem mem_of_kth (hx : kth l k = some x) : x ∈ l :=
  (List.mem_insertionSort (· ≤ ·)).mp (List.mem_of_getElem? hx)

/-- The `k`-th smallest value has a property that passes to smaller values if and only if at least
`k` values have it. -/
theorem kth_iff_le_countP (hk : 1 ≤ k) (hx : kth l k = some x) {p : α → Bool}
    (hp : ∀ a b, a ≤ b → p b = true → p a = true) : p x = true ↔ k ≤ l.countP p := by
  obtain ⟨hlt, rfl⟩ := List.getElem?_eq_some_iff.mp hx
  rw [getElem_iff_lt_countP (List.pairwise_insertionSort _ l) hp hlt,
    (List.perm_insertionSort _ l).countP_eq]
  omega

theorem class_kth_le_iff {β : Type*} [LinearOrder β] {f : α → β} (hf : Monotone f) (hk : 1 ≤ k)
    (hx : kth l k = some x) (i : β) : f x ≤ i ↔ k ≤ l.countP (f · ≤ i) := by
  rw [← kth_iff_le_countP hk hx fun a b hab hb => ?_, decide_eq_true_eq]
  exact decide_eq_true ((hf hab).trans (of_decide_eq_true hb))

/-- The scan that stops as soon as it has counted `k` values stops at the class of the `k`-th
smallest one. -/
theorem find?_countP_eq {f : α → ℕ} (hf : Monotone f) (hk : 1 ≤ k) (hx : kth l k = some x) {n : ℕ}
    (hn : f x < n) : (List.range n).find? (fun i => k ≤ l.countP (f · ≤ i)) = some (f x) := by
  have hclass := class_kth_le_iff hf hk hx
  simp only [List.find?_range_eq_some, ← hclass, List.mem_range, decide_eq_true_eq, le_refl,
    true_and, hn, Bool.not_eq_true', decide_eq_false_iff_not, not_le, imp_self,
    implies_true]

theorem countP_le_eq_add {α β : Type*} [LinearOrder β] {f : α → β} (l : List α) (i : β) :
    l.countP (f · ≤ i) = l.countP (f · < i) + l.countP (f · = i) := by
  induction l with
  | nil => rfl
  | cons a l ih =>
    rcases lt_trichotomy (f a) i with h | h | h
    · simp [ih, h, h.le, h.ne, Nat.add_right_comm]
    · simp [ih, h, Nat.add_assoc]
    · simp [ih, h.not_ge, h.not_gt, h.ne']

/-- The ranks that belong to one class. -/
theorem class_kth_eq_iff {β : Type*} [LinearOrder β] {f : α → β} (hf : Monotone f) {k' : ℕ} {y : α}
    (hk : 1 ≤ k) (hk' : k ≤ k') (hx : kth l k = some x) (hy : kth l k' = some y) :
    f y = f x ↔ k' ≤ l.countP (f · ≤ f x) := by
  rw [← class_kth_le_iff hf (hk.trans hk') hy]
  have hle : f x ≤ f y :=
    (class_kth_le_iff hf hk hx _).mpr
      (hk'.trans ((class_kth_le_iff hf (hk.trans hk') hy _).mp le_rfl))
  exact ⟨fun h => h.le, fun h => le_antisymm h hle⟩

end OrderStatistics
