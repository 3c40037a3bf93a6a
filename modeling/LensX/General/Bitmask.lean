import Mathlib.Order.Basic
import Mathlib.Data.Int.Basic

/-! # Masks of 64 bits as sets of small integers

A mask holds the integers of `0..63` whose bit is set. Shift amounts are
reduced modulo 64, as the shift instruction does, so every amount denotes some
bit; the lemmas ask for amounts in range.
-/

namespace Bitmask

/-- The amounts for which a shift of a 64-bit word is defined. -/
def InRange (s : ℤ) : Prop := 0 ≤ s ∧ s < 64

instance (s : ℤ) : Decidable (InRange s) := inferInstanceAs (Decidable (_ ∧ _))

/-- The word with one bit set. -/
def bit (s : ℤ) : UInt64 := 1 <<< UInt64.ofInt s

/-- The union of the bits of a list. -/
def ofList (l : List ℤ) : UInt64 := l.foldl (fun m s => m ||| bit s) 0

/-- The integer is an element of the mask. -/
def Has (m : UInt64) (s : ℤ) : Prop := m &&& bit s ≠ 0

instance (m : UInt64) (s : ℤ) : Decidable (Has m s) := inferInstanceAs (Decidable (_ ≠ _))

theorem toBitVec_bit {s : ℤ} (h : InRange s) : (bit s).toBitVec = BitVec.twoPow 64 s.toNat := by
  obtain ⟨n, rfl⟩ := Int.eq_ofNat_of_zero_le h.1
  have hn : n < 64 := by have := h.2; omega
  have hs : (UInt64.ofInt (n : ℤ)).toBitVec % 64 = BitVec.ofNat 64 n := by
    apply BitVec.eq_of_toNat_eq
    simp [UInt64.ofInt]
    omega
  simp only [bit, UInt64.toBitVec_shiftLeft, hs, Int.toNat_natCast, BitVec.twoPow]
  apply BitVec.eq_of_toNat_eq
  simp [Nat.mod_eq_of_lt (show n < 18446744073709551616 by omega)]

theorem has_iff_getLsbD {m : UInt64} {s : ℤ} (h : InRange s) :
    Has m s ↔ m.toBitVec.getLsbD s.toNat = true := by
  have hs : s.toNat < 64 := by have := h.1; have := h.2; omega
  have hne : BitVec.twoPow 64 s.toNat ≠ 0#64 := by
    intro he
    have := congrArg (fun b : BitVec 64 => b.getLsbD s.toNat) he
    simp [hs] at this
  rw [Has, ne_eq, ← UInt64.toBitVec_inj, UInt64.toBitVec_and, toBitVec_bit h, BitVec.and_twoPow]
  by_cases hb : m.toBitVec.getLsbD s.toNat = true
  · simpa [hb] using hne
  · simp [hb]

@[simp] theorem not_has_zero (s : ℤ) : ¬ Has 0 s := by simp [Has]

theorem has_or {a b : UInt64} {s : ℤ} (h : InRange s) : Has (a ||| b) s ↔ Has a s ∨ Has b s := by
  simp only [has_iff_getLsbD h, UInt64.toBitVec_or, BitVec.getLsbD_or, Bool.or_eq_true]

theorem has_bit {s t : ℤ} (hs : InRange s) (ht : InRange t) : Has (bit s) t ↔ s = t := by
  obtain ⟨h₀, h₁⟩ := hs
  obtain ⟨h₂, h₃⟩ := ht
  rw [has_iff_getLsbD ⟨h₂, h₃⟩, toBitVec_bit ⟨h₀, h₁⟩, BitVec.getLsbD_twoPow]
  simp only [Bool.and_eq_true, decide_eq_true_eq]
  omega

theorem has_or_bit {m : UInt64} {s t : ℤ} (hs : InRange s) (ht : InRange t) :
    Has (m ||| bit s) t ↔ Has m t ∨ s = t := by
  rw [has_or ht, has_bit hs ht]

theorem has_foldl {l : List ℤ} (hl : ∀ s ∈ l, InRange s) {t : ℤ} (ht : InRange t) (m : UInt64) :
    Has (l.foldl (fun m s => m ||| bit s) m) t ↔ Has m t ∨ t ∈ l := by
  induction l generalizing m with
  | nil => simp
  | cons a l ih =>
    rw [List.foldl_cons, ih (fun s hs => hl s (List.mem_cons_of_mem _ hs)),
      has_or_bit (hl a List.mem_cons_self) ht, List.mem_cons, or_assoc, eq_comm]

/-- The mask of a list in range holds exactly the list's elements. -/
theorem has_ofList {l : List ℤ} (hl : ∀ s ∈ l, InRange s) {t : ℤ} (ht : InRange t) :
    Has (ofList l) t ↔ t ∈ l := by
  simp [ofList, has_foldl hl ht]

/-- A mask absorbs another one exactly when it holds all its elements. -/
theorem and_eq_right_iff {a m : UInt64} :
    a &&& m = m ↔ ∀ s, InRange s → Has m s → Has a s := by
  rw [← UInt64.toBitVec_inj, UInt64.toBitVec_and]
  constructor
  · intro h s hs hm
    rw [has_iff_getLsbD hs] at hm ⊢
    have := congrArg (fun b : BitVec 64 => b.getLsbD s.toNat) h
    simp only [BitVec.getLsbD_and, hm, Bool.and_true] at this
    exact this
  · intro h
    apply BitVec.eq_of_getLsbD_eq
    intro i hi
    have hs : InRange (i : ℤ) := ⟨by omega, by omega⟩
    have := h i hs
    rw [has_iff_getLsbD hs, has_iff_getLsbD hs, Int.toNat_natCast] at this
    rw [BitVec.getLsbD_and]
    cases hm : m.toBitVec.getLsbD i <;> simp_all

theorem ofList_subset_iff {a : UInt64} {l : List ℤ} (hl : ∀ s ∈ l, InRange s) :
    a &&& ofList l = ofList l ↔ ∀ s ∈ l, Has a s := by
  rw [and_eq_right_iff]
  exact ⟨fun h s hs => h s (hl s hs) ((has_ofList hl (hl s hs)).mpr hs),
    fun h s hs hm => h s ((has_ofList hl hs).mp hm)⟩

end Bitmask
