import Mathlib.Data.List.Infix

/-! # Places in filtered and concatenated lists

A letter of a filtered list stands somewhere in the list, a concatenation to
which one index contributes is that index's block, and a nonempty prefix of a
concatenation ends in one block, at one place of it.
-/

namespace Blocks

variable {α : Type*} {L L' M M' : List (List α)} {R R' p p' h : List α}

theorem split_filter {f : α → Bool} {evs l v : List α} {a : α} (h : evs.filter f = l ++ a :: v) :
    ∃ pre post, evs = pre ++ a :: post ∧ pre.filter f = l ∧ f a = true := by
  obtain ⟨e₁, e₂, rfl, hl, hr⟩ := List.filter_eq_append_iff.mp h
  obtain ⟨f₁, f₂, rfl, hf, ha, _⟩ := List.filter_eq_cons_iff.mp hr
  refine ⟨e₁ ++ f₁, f₂, by simp, ?_, ha⟩
  rw [List.filter_append, List.filter_eq_nil_iff.mpr hf, List.append_nil, hl]

theorem flatMap_eq_getElem? {β : Type*} {l : List α} {g : α → List β} {i : ℕ} {a : α}
    (hi : l[i]? = some a) (hn : ∀ j b, l[j]? = some b → j ≠ i → g b = []) :
    l.flatMap g = g a := by
  induction l generalizing i with
  | nil => simp at hi
  | cons b l ih =>
    cases i with
    | zero =>
      obtain rfl : b = a := by simpa using hi
      have hl : l.flatMap g = [] := by
        rw [List.flatMap_eq_nil_iff]
        intro x hx
        obtain ⟨j, hj⟩ := List.mem_iff_getElem?.mp hx
        exact hn (j + 1) x (by simpa using hj) (by omega)
      rw [List.flatMap_cons, hl, List.append_nil]
    | succ i =>
      have hb : g b = [] := hn 0 b (by simp) (by omega)
      rw [List.flatMap_cons, hb, List.nil_append]
      exact ih (by simpa using hi) fun j x hj hji => hn (j + 1) x (by simpa using hj) (by omega)

/-- Of the members of a list at most one contributes, so the order of the list does not matter. -/
theorem flatMap_eq_of_perm {β : Type*} {l l' : List α} {g : α → List β} (hp : l.Perm l')
    (h : l.Pairwise fun a b => g a = [] ∨ g b = []) : l.flatMap g = l'.flatMap g := by
  induction hp with
  | nil => rfl
  | cons a _ ih => rw [List.flatMap_cons, List.flatMap_cons, ih (List.pairwise_cons.mp h).2]
  | swap a b l =>
    have hab := (List.pairwise_cons.mp h).1 a (by simp)
    rw [List.flatMap_cons, List.flatMap_cons, List.flatMap_cons, List.flatMap_cons]
    rcases hab with hb | ha
    · rw [hb, List.nil_append, List.nil_append]
    · rw [ha, List.nil_append, List.nil_append]
  | trans hp₁ _ ih₁ ih₂ =>
    have hsymm : ∀ {a b : α}, g a = [] ∨ g b = [] → g b = [] ∨ g a = [] := Or.symm
    rw [ih₁ h, ih₂ ((hp₁.pairwise_iff hsymm).mp h)]

theorem exists_block {Ls : List (List α)} (hp : h <+: Ls.flatten) (hn : h ≠ []) :
    ∃ L R M p, Ls = L ++ R :: M ∧ p <+: R ∧ p ≠ [] ∧ h = L.flatten ++ p := by
  induction Ls generalizing h with
  | nil => exact absurd (List.prefix_nil.mp hp) hn
  | cons R Ls ih =>
    rw [List.flatten_cons] at hp
    by_cases hR : h <+: R
    · exact ⟨[], R, Ls, h, rfl, hR, hn, rfl⟩
    · have hor := List.prefix_or_prefix_of_prefix hp (List.prefix_append _ _)
      obtain ⟨u, rfl⟩ := hor.resolve_left hR
      have hu : u ≠ [] := by
        rintro rfl
        exact hR (by simp)
      obtain ⟨L, Q, M, p, rfl, hpQ, hpn, rfl⟩ := ih ((List.prefix_append_right_inj R).mp hp) hu
      exact ⟨R :: L, Q, M, p, rfl, hpQ, hpn, by simp⟩

/-- Two such ends of one prefix agree. -/
theorem block_unique (hs : L ++ R :: M = L' ++ R' :: M') (hp : p <+: R) (hp' : p' <+: R')
    (hn : p ≠ []) (hn' : p' ≠ []) (he : L.flatten ++ p = L'.flatten ++ p') :
    L = L' ∧ R = R' ∧ p = p' := by
  induction L generalizing L' with
  | nil =>
    cases L' with
    | nil =>
      obtain ⟨rfl, rfl⟩ := List.cons.inj hs
      exact ⟨rfl, rfl, by simpa using he⟩
    | cons Q L' =>
      obtain ⟨rfl, rfl⟩ := List.cons.inj hs
      have hlen := congrArg List.length he
      have := hp.length_le
      have := List.length_pos_iff.mpr hn'
      simp at hlen
      omega
  | cons Q L ih =>
    cases L' with
    | nil =>
      obtain ⟨rfl, rfl⟩ := List.cons.inj hs
      have hlen := congrArg List.length he
      have := hp'.length_le
      have := List.length_pos_iff.mpr hn
      simp at hlen
      omega
    | cons Q' L' =>
      obtain ⟨rfl, hs'⟩ := List.cons.inj hs
      obtain ⟨rfl, hR, hpp⟩ := ih hs' (by simpa using he)
      exact ⟨rfl, hR, hpp⟩

end Blocks
