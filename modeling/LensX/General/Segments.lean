import LensX.General.Blocks
import LensX.General.Window

/-! # Histories that are made of segments

When every minimal cover begins with the only start letter it has, the window of
the history and the open part of the greedy cut are the same word.
-/

namespace Window

open Blocks

variable {α ι : Type*} {start : α → Prop} {c : α → ι} {M : List ι}

/-- The word begins with a start letter and has no other one. -/
def Started (start : α → Prop) (w : List α) : Prop :=
  ∃ a t, w = a :: t ∧ start a ∧ ∀ b ∈ t, ¬ start b

/-- The history is a concatenation of segments that each cover with their last letter; the last
segment may be unfinished. -/
structure Segmented (start : α → Prop) (c : α → ι) (M : List ι) (h : List α)
    (segs : List (List α)) (rest : List α) : Prop where
  eq_flatten : h = segs.flatten ++ rest
  started : ∀ w ∈ segs, Started start w
  covers : ∀ w ∈ segs, Covers c M w
  minimal : ∀ w ∈ segs, ¬ Covers c M w.dropLast
  rest_started : rest = [] ∨ Started start rest
  unfinished : ¬ Covers c M rest

theorem Started.of_prefix {w p : List α} (hw : Started start w) (hp : p <+: w) (hn : p ≠ []) :
    Started start p := by
  obtain ⟨a, t, rfl, ha, ht⟩ := hw
  cases p with
  | nil => exact absurd rfl hn
  | cons b p =>
    obtain ⟨rfl, hpt⟩ := List.cons_prefix_cons.mp hp
    exact ⟨b, p, rfl, ha, fun x hx => ht x (hpt.subset hx)⟩

/-- After any letter of a segmented history the open part of the cut, with that letter, is the
window. -/
theorem Segmented.exists_window [DecidableEq ι] {H h : List α} {a : α} {segs : List (List α)}
    {rest : List α} (hs : Segmented start c M H segs rest) (hp : h ++ [a] <+: H) :
    IsWindow start (h ++ [a]) ((cut c M h).2 ++ [a]) ∧ ¬ Covers c M (cut c M h).2 := by
  have hflat : H = (segs ++ [rest]).flatten := by simp [hs.eq_flatten]
  obtain ⟨L, R, N, p, hLR, hpR, hpn, hhist⟩ := exists_block (hflat ▸ hp) (by simp)
  rcases List.eq_nil_or_concat p with rfl | ⟨p₀, b, rfl⟩
  · exact absurd rfl hpn
  rw [List.concat_eq_append] at hhist hpR hpn
  rw [← List.append_assoc] at hhist
  obtain ⟨rfl, hab⟩ := List.append_inj' hhist rfl
  obtain rfl : a = b := by simpa using hab
  obtain ⟨hL, hstart, hopen⟩ : (∀ w ∈ L, w ∈ segs) ∧ Started start R ∧ ¬ Covers c M p₀ := by
    rcases List.eq_nil_or_concat N with rfl | ⟨N, x, rfl⟩
    · obtain ⟨rfl, hR⟩ := List.append_inj' hLR rfl
      obtain rfl : rest = R := by simpa using hR
      have hne : rest ≠ [] := by
        rintro rfl
        exact hpn (List.prefix_nil.mp hpR)
      have hsub : p₀ ⊆ rest := fun y hy => hpR.subset (List.mem_append_left _ hy)
      exact ⟨fun w hw => hw, hs.rest_started.resolve_left hne,
        fun hc => hs.unfinished (hc.mono hsub)⟩
    · rw [List.concat_eq_append, ← List.cons_append, ← List.append_assoc] at hLR
      obtain ⟨rfl, _⟩ := List.append_inj' hLR rfl
      obtain ⟨t, rfl⟩ := hpR
      have hdrop : (p₀ ++ [a] ++ t).dropLast = p₀ ++ (a :: t).dropLast := by
        rw [← List.append_cons, List.dropLast_append_of_ne_nil (List.cons_ne_nil a t)]
      refine ⟨fun w hw => List.mem_append_left _ hw, hs.started _ (by simp), fun hc => ?_⟩
      exact hs.minimal _ (by simp) (hdrop ▸ hc.mono (List.subset_append_left _ _))
  have hcut : cut c M (L.flatten ++ p₀) = (L, p₀) :=
    IsCut.eq_cut ⟨rfl, fun w hw => hs.covers w (hL w hw), fun w hw => hs.minimal w (hL w hw), hopen⟩
  rw [hcut]
  refine ⟨⟨⟨L.flatten, by simp⟩, hstart.of_prefix hpR hpn⟩, hopen⟩

end Window
