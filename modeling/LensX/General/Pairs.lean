import Mathlib.Data.List.Nodup
import Mathlib.Data.List.Sublists
import Mathlib.Order.Lattice

/-! # Pairs of positions

The pairs `(xᵢ, xⱼ)` with `i < j` of a list, in the order of two nested loops.
-/

namespace Pairs

variable {α : Type*}

/-- The elements at two positions `i < j`, the first position in the outer loop. -/
def pairs : List α → List (α × α)
  | [] => []
  | a :: l => l.map (a, ·) ++ pairs l

theorem mem_pairs {l : List α} {a b : α} : (a, b) ∈ pairs l ↔ [a, b].Sublist l := by
  induction l with
  | nil => simp [pairs]
  | cons x l ih =>
    rw [pairs, List.mem_append, ih, List.mem_map]
    constructor
    · rintro (⟨y, hy, he⟩ | h)
      · obtain ⟨rfl, rfl⟩ := Prod.mk.inj he
        exact (List.singleton_sublist.mpr hy).cons_cons _
      · exact h.cons _
    · intro h
      cases h with
      | cons _ h => exact Or.inr h
      | cons_cons _ h => exact Or.inl ⟨b, List.singleton_sublist.mp h, rfl⟩

theorem mem_of_mem_pairs {l : List α} {p : α × α} (h : p ∈ pairs l) : p.1 ∈ l ∧ p.2 ∈ l := by
  have hs : [p.1, p.2] ⊆ l := (mem_pairs.mp h).subset
  exact ⟨hs (by simp), hs (by simp)⟩

theorem nodup_pairs {l : List α} (h : l.Nodup) : (pairs l).Nodup := by
  induction l with
  | nil => exact List.nodup_nil
  | cons a l ih =>
    obtain ⟨ha, hl⟩ := List.nodup_cons.mp h
    refine List.nodup_append.mpr ⟨hl.map (fun _ _ he => (Prod.mk.inj he).2), ih hl, ?_⟩
    rintro _ hp q hq rfl
    obtain ⟨b, _, rfl⟩ := List.mem_map.mp hp
    exact ha (mem_of_mem_pairs hq).1

theorem mem_pairs_of_sorted [LinearOrder α] {l : List α} (h : l.Pairwise (· < ·)) {a b : α} :
    (a, b) ∈ pairs l ↔ a ∈ l ∧ b ∈ l ∧ a < b := by
  rw [mem_pairs]
  constructor
  · intro hs
    have hp := h.sublist hs
    exact ⟨hs.subset (by simp), hs.subset (by simp), by simpa using hp⟩
  · rintro ⟨ha, hb, hab⟩
    obtain ⟨s, t, rfl⟩ := List.append_of_mem ha
    rcases List.mem_append.mp hb with hb | hb
    · exact absurd hab (List.pairwise_append.mp h |>.2.2 b hb a List.mem_cons_self).asymm
    · rcases List.mem_cons.mp hb with rfl | hb
      · exact absurd hab (lt_irrefl b)
      · exact ((List.singleton_sublist.mpr hb).cons_cons a).trans (List.sublist_append_right s _)

end Pairs
