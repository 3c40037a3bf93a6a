import Mathlib.Data.Int.Notation
import Mathlib.Data.List.Basic

/-! # Lines and fields

A text of lines that each end with a mark determines its lines, and a line of fields
that are separated by another mark determines its fields. Decimal numbers contain
neither mark.
-/

namespace Lines

variable {α : Type*} [DecidableEq α] {x : α}

/-- Every line is followed by the mark. -/
def unlines (x : α) (ls : List (List α)) : List α := ls.flatMap (· ++ [x])

omit [DecidableEq α] in
theorem unlines_eq_intercalate (ls : List (List α)) :
    unlines x ls = [x].intercalate (ls ++ [[]]) := by
  induction ls with
  | nil => rfl
  | cons l ls ih =>
    rw [unlines, List.flatMap_cons, ← unlines, ih, List.cons_append]
    cases ls <;> simp [List.intercalate_cons_cons]

theorem unlines_injective {ls ls' : List (List α)} (h : ∀ l ∈ ls, x ∉ l) (h' : ∀ l ∈ ls', x ∉ l)
    (heq : unlines x ls = unlines x ls') : ls = ls' := by
  have hsplit : ∀ {ls : List (List α)}, (∀ l ∈ ls, x ∉ l) →
      (unlines x ls).splitOn x = ls ++ [[]] := by
    intro ls h
    rw [unlines_eq_intercalate]
    refine List.splitOn_intercalate x (fun l hl => ?_) (by simp)
    rcases List.mem_append.mp hl with hl | hl
    · exact h l hl
    · simp_all
  have hboth := hsplit h
  rw [heq, hsplit h'] at hboth
  exact (List.append_cancel_right hboth).symm

theorem intercalate_injective {ls ls' : List (List α)} (h : ∀ l ∈ ls, x ∉ l)
    (h' : ∀ l ∈ ls', x ∉ l) (hne : ls ≠ []) (hne' : ls' ≠ [])
    (heq : [x].intercalate ls = [x].intercalate ls') : ls = ls' := by
  rw [← List.splitOn_intercalate x h hne, heq, List.splitOn_intercalate x h' hne']

omit [DecidableEq α] in
theorem eq_or_mem_of_mem_intercalate {c : α} {ls : List (List α)} (h : c ∈ [x].intercalate ls) :
    c = x ∨ ∃ l ∈ ls, c ∈ l := by
  induction ls with
  | nil => simp at h
  | cons l ls ih =>
    cases ls with
    | nil => exact .inr ⟨l, List.mem_cons_self, by simpa using h⟩
    | cons l' ls =>
      rw [List.intercalate_cons_cons, List.append_assoc, List.mem_append, List.mem_append,
        List.mem_singleton] at h
      rcases h with h | h | h
      · exact .inr ⟨l, List.mem_cons_self, h⟩
      · exact .inl h
      · exact (ih h).imp_right fun ⟨m, hm, hc⟩ => ⟨m, List.mem_cons_of_mem _ hm, hc⟩

omit [DecidableEq α] in
/-- Up to the first mark. -/
theorem eq_of_append_mark {l l' r r' : List α} (h : x ∉ l) (h' : x ∉ l')
    (heq : l ++ x :: r = l' ++ x :: r') : l = l' ∧ r = r' := by
  induction l generalizing l' with
  | nil =>
    cases l' with
    | nil => exact ⟨rfl, (List.cons.inj heq).2⟩
    | cons c l' => exact absurd ((List.cons.inj heq).1 ▸ List.mem_cons_self) h'
  | cons c l ih =>
    cases l' with
    | nil => exact absurd ((List.cons.inj heq).1 ▸ List.mem_cons_self) h
    | cons c' l' =>
      obtain ⟨rfl, htail⟩ := List.cons.inj heq
      obtain ⟨rfl, hr⟩ := ih (fun hm => h (List.mem_cons_of_mem _ hm))
        (fun hm => h' (List.mem_cons_of_mem _ hm)) htail
      exact ⟨rfl, hr⟩

omit [DecidableEq α] in
/-- Paragraphs of one length follow one another without a mark. -/
theorem flatMap_injective_of_length {β : Type*} {f : β → List α} {n : ℕ} (hn : 0 < n)
    (hlen : ∀ b, (f b).length = n) {bs bs' : List β}
    (hf : ∀ b ∈ bs, ∀ b' ∈ bs', f b = f b' → b = b') (h : bs.flatMap f = bs'.flatMap f) :
    bs = bs' := by
  have hne : ∀ (b : β) (l : List α), f b ++ l ≠ [] := by
    intro b l h
    have hb := hlen b
    rw [(List.append_eq_nil_iff.mp h).1, List.length_nil] at hb
    omega
  induction bs generalizing bs' with
  | nil =>
    cases bs' with
    | nil => rfl
    | cons b' bs' => exact absurd h.symm (hne b' _)
  | cons b bs ih =>
    cases bs' with
    | nil => exact absurd h (hne b _)
    | cons b' bs' =>
      rw [List.flatMap_cons, List.flatMap_cons] at h
      obtain ⟨hhead, htail⟩ := List.append_inj h ((hlen b).trans (hlen b').symm)
      obtain rfl := hf b List.mem_cons_self b' List.mem_cons_self hhead
      rw [ih (fun c hc c' hc' => hf c (List.mem_cons_of_mem _ hc) c' (List.mem_cons_of_mem _ hc'))
        htail]

section Decimal

theorem isDigit_of_mem_nat {n : ℕ} {c : Char} (h : c ∈ (toString n).toList) : c.isDigit = true := by
  rw [Nat.toString_eq_repr, Nat.toList_repr] at h
  exact Nat.isDigit_of_mem_toDigits (by decide) (by decide) h

theorem toString_nat_inj {m n : ℕ} (h : (toString m).toList = (toString n).toList) : m = n := by
  rw [Nat.toString_eq_repr, Nat.toString_eq_repr, Nat.toList_repr, Nat.toList_repr] at h
  rw [← Nat.ofDigitChars_toDigits (b := 10) (by decide) (by decide) (n := m), h,
    Nat.ofDigitChars_toDigits (by decide) (by decide)]

theorem toString_int_nonneg {i : ℤ} (h : 0 ≤ i) :
    (toString i).toList = (toString i.toNat).toList := by
  change i.repr.toList = i.toNat.repr.toList
  rw [Int.repr_eq_if, if_pos h]

theorem toString_int_neg {i : ℤ} (h : i < 0) :
    (toString i).toList = '-' :: (toString (-i).toNat).toList := by
  change i.repr.toList = '-' :: (-i).toNat.repr.toList
  rw [Int.repr_eq_if, if_neg (Int.not_le.mpr h), String.toList_append]
  rfl

theorem mem_toString_int {i : ℤ} {c : Char} (h : c ∈ (toString i).toList) :
    c = '-' ∨ c.isDigit = true := by
  rcases Int.lt_or_le i 0 with hi | hi
  · rw [toString_int_neg hi, List.mem_cons] at h
    exact h.imp id isDigit_of_mem_nat
  · rw [toString_int_nonneg hi] at h
    exact .inr (isDigit_of_mem_nat h)

theorem toString_int_inj {i j : ℤ} (h : (toString i).toList = (toString j).toList) : i = j := by
  have hminus : ∀ {n : ℕ} {l : List Char}, (toString n).toList ≠ '-' :: l := by
    intro n l hn
    have hdigit := isDigit_of_mem_nat (n := n) (c := '-') (by rw [hn]; exact List.mem_cons_self)
    exact absurd hdigit (by decide)
  rcases Int.lt_or_le i 0 with hi | hi <;> rcases Int.lt_or_le j 0 with hj | hj
  · rw [toString_int_neg hi, toString_int_neg hj, List.cons.injEq] at h
    have hnat := toString_nat_inj h.2
    omega
  · rw [toString_int_neg hi, toString_int_nonneg hj] at h
    exact absurd h.symm hminus
  · rw [toString_int_nonneg hi, toString_int_neg hj] at h
    exact absurd h hminus
  · rw [toString_int_nonneg hi, toString_int_nonneg hj] at h
    have hnat := toString_nat_inj h
    omega

end Decimal

end Lines
