import Mathlib.Data.List.Infix
import LensX.General.Transducer
import LensX.General.Window

/-! # Lost letters

When a letter is lost, a transducer whose states leapfrog emits one output more
or less, however long it runs on. When no start letter is lost, apart from those
before the first letter that is left, the windows lose letters and keep their
starts, so a window of distinct classes completes only if it has lost nothing.
-/

namespace Transducer

variable {σ α β κ : Type*} {M : Step σ α β} {p : α → Prop} {le : σ → σ → Prop}

/-- A state that is ahead of another one stays ahead until it alone emits, and is then behind. A
letter leads ahead or back, and back if it emits. -/
structure Leapfrog (M : Step σ α β) (p : α → Prop) (le : σ → σ → Prop) : Prop where
  step : ∀ s s' a, p a → le s s' →
    ((M s a).2.isSome = (M s' a).2.isSome ∧ le (M s a).1 (M s' a).1) ∨
    ((M s a).2.isSome = false ∧ (M s' a).2.isSome = true ∧ le (M s' a).1 (M s a).1)
  lose : ∀ s a, p a → le (M s a).1 s ∨ (M s a).2.isSome = false ∧ le s (M s a).1

theorem length_emits_cons (s : σ) (a : α) (l : List α) :
    (emits M s (a :: l)).length =
      (if (M s a).2.isSome then 1 else 0) + (emits M (M s a).1 l).length := by
  rw [emits_cons, List.length_append]
  cases (M s a).2 <;> rfl

/-- The state ahead emits at most one output more than the other, and none less. -/
theorem Leapfrog.length_emits (h : Leapfrog M p le) {l : List α} (hl : ∀ a ∈ l, p a) {s s' : σ}
    (hs : le s s') : (emits M s l).length ≤ (emits M s' l).length ∧
      (emits M s' l).length ≤ (emits M s l).length + 1 := by
  induction l generalizing s s' with
  | nil => simp
  | cons a l ih =>
    have htail : ∀ b ∈ l, p b := fun b hb => hl b (List.mem_cons_of_mem _ hb)
    rw [length_emits_cons, length_emits_cons]
    rcases h.step s s' a (hl a List.mem_cons_self) hs with ⟨hout, hnext⟩ | ⟨hout, hout', hnext⟩
    · obtain ⟨hle, hle'⟩ := ih htail hnext
      rw [hout]
      omega
    · obtain ⟨hle, hle'⟩ := ih htail hnext
      simp only [hout, hout', Bool.false_eq_true, if_false, if_true]
      omega

/-- Lost letters change the number of outputs by at most their own number. -/
theorem Leapfrog.length_emits_sublist (h : Leapfrog M p le) {l l' : List α} (hs : l'.Sublist l)
    (hl : ∀ a ∈ l, p a) (s : σ) :
    (emits M s l).length ≤ (emits M s l').length + (l.length - l'.length) ∧
      (emits M s l').length ≤ (emits M s l).length + (l.length - l'.length) := by
  induction hs generalizing s with
  | slnil => simp
  | @cons l' l a hs ih =>
    have htail : ∀ b ∈ l, p b := fun b hb => hl b (List.mem_cons_of_mem _ hb)
    obtain ⟨hle, hle'⟩ := ih htail s
    have hlen := hs.length_le
    have hone : (emits M s (a :: l)).length ≤ (emits M s l).length + 1 ∧
        (emits M s l).length ≤ (emits M s (a :: l)).length + 1 := by
      rw [length_emits_cons]
      rcases h.lose s a (hl a List.mem_cons_self) with hback | ⟨hout, hahead⟩
      · obtain ⟨hnext, hnext'⟩ := h.length_emits htail hback
        split <;> omega
      · obtain ⟨hnext, hnext'⟩ := h.length_emits htail hahead
        simp only [hout, Bool.false_eq_true, if_false]
        omega
    rw [List.length_cons]
    omega
  | @cons_cons l' l a hs ih =>
    obtain ⟨hle, hle'⟩ := ih (fun b hb => hl b (List.mem_cons_of_mem _ hb)) (M s a).1
    rw [length_emits_cons, length_emits_cons, List.length_cons, List.length_cons]
    omega

/-- Copies leapfrog that differ for one key only. -/
theorem Leapfrog.keyed [DecidableEq κ] (key : α → κ) (h : Leapfrog M p le) :
    Leapfrog (keyed key M) p fun t t' => ∃ k, le (t k) (t' k) ∧ ∀ j ≠ k, t j = t' j where
  step := by
    rintro t t' a ha ⟨k, hk, hother⟩
    simp only [Transducer.keyed]
    by_cases hkey : key a = k
    · subst hkey
      have hrest : ∀ x y, ∀ j ≠ key a,
          Function.update t (key a) x j = Function.update t' (key a) y j := by
        intro x y j hj
        rw [Function.update_of_ne hj, Function.update_of_ne hj, hother j hj]
      rcases h.step _ _ a ha hk with ⟨hout, hnext⟩ | ⟨hout, hout', hnext⟩
      · exact Or.inl ⟨hout, key a, by simpa using hnext, hrest _ _⟩
      · exact Or.inr ⟨hout, hout', key a, by simpa using hnext, fun j hj => (hrest _ _ j hj).symm⟩
    · -- the copies for the key of the letter are equal
      rw [hother _ hkey]
      refine Or.inl ⟨rfl, k, ?_, fun j hj => ?_⟩
      · rwa [Function.update_of_ne (Ne.symm hkey), Function.update_of_ne (Ne.symm hkey)]
      · by_cases hja : j = key a
        · rw [hja, Function.update_self, Function.update_self]
        · rw [Function.update_of_ne hja, Function.update_of_ne hja, hother j hj]
  lose := by
    intro t a ha
    simp only [Transducer.keyed]
    rcases h.lose (t (key a)) a ha with hback | ⟨hout, hahead⟩
    · exact Or.inl ⟨key a, by simpa using hback, fun j hj => Function.update_of_ne hj _ _⟩
    · exact Or.inr ⟨hout, key a, by simpa using hahead,
        fun j hj => (Function.update_of_ne hj _ _).symm⟩

end Transducer

namespace Window

variable {α ι : Type*} {start start' : α → Prop} {l l' w w' : List α}

/-- The second word is the first one from some letter on, without some letters none of which is a
start letter. -/
inductive Thinned (start : α → Prop) : List α → List α → Prop where
  | late (l : List α) : Thinned start l []
  | keep {l l' : List α} (a : α) : Thinned start l l' → Thinned start (l ++ [a]) (l' ++ [a])
  | lose {l l' : List α} {a : α} : ¬ start a → Thinned start l l' → Thinned start (l ++ [a]) l'

namespace Thinned

theorem sublist (h : Thinned start l l') : l'.Sublist l := by
  induction h with
  | late l => exact List.nil_sublist l
  | keep a _ ih => exact ih.append_right [a]
  | lose _ _ ih => exact ih.trans (List.sublist_append_left _ _)

theorem mono (h : Thinned start l l') (hs : ∀ a, start' a → start a) : Thinned start' l l' := by
  induction h with
  | late l => exact .late l
  | keep a _ ih => exact ih.keep a
  | lose ha _ ih => exact ih.lose fun hs' => ha (hs _ hs')

theorem filter (h : Thinned start l l') (q : α → Bool) :
    Thinned start (l.filter q) (l'.filter q) := by
  induction h with
  | late l => exact .late _
  | @keep l l' a _ ih =>
    rw [List.filter_append, List.filter_append]
    cases hq : q a with
    | true => simpa [hq] using ih.keep a
    | false => simpa [hq] using ih
  | @lose l l' a ha _ ih =>
    rw [List.filter_append]
    cases hq : q a with
    | true => simpa [hq] using ih.lose ha
    | false => simpa [hq] using ih

/-- A window of what is left is a window from the same start letter, without the lost letters. -/
theorem exists_window (h : Thinned start l l') (hw : IsWindow start l' w') :
    ∃ w, IsWindow start l w ∧ w'.Sublist w := by
  induction h generalizing w' with
  | late l => exact (not_isWindow_nil hw).elim
  | keep a _ ih =>
    by_cases ha : start a
    · obtain rfl := (isWindow_concat_start ha).mp hw
      exact ⟨[a], (isWindow_concat_start ha).mpr rfl, List.Sublist.refl _⟩
    · obtain ⟨v', hv', rfl⟩ := (isWindow_concat ha).mp hw
      obtain ⟨v, hv, hsub⟩ := ih hv'
      exact ⟨v ++ [a], (isWindow_concat ha).mpr ⟨v, hv, rfl⟩, hsub.append_right [a]⟩
  | @lose l l' a ha _ ih =>
    obtain ⟨v, hv, hsub⟩ := ih hw
    exact ⟨v ++ [a], (isWindow_concat ha).mpr ⟨v, hv, rfl⟩,
      hsub.trans (List.sublist_append_left _ _)⟩

end Thinned

variable {c : α → ι} {M : List ι}

/-- A word of distinct classes that still covers has lost nothing. -/
theorem eq_of_sublist_of_covers (hs : w'.Sublist w) (hd : (w.map c).Nodup) (hm : ∀ a ∈ w, c a ∈ M)
    (hc : Covers c M w') : w' = w := by
  refine hs.eq_of_length_le ?_
  have hsub : w.map c ⊆ w'.map c := by
    intro s hs
    obtain ⟨a, ha, rfl⟩ := List.mem_map.mp hs
    obtain ⟨b, hb, heq⟩ := hc _ (hm a ha)
    exact heq ▸ List.mem_map_of_mem hb
  simpa using hd.length_le_of_subset hsub

/-- A window that completes has lost nothing, so it completes without the losses too. -/
theorem Thinned.completes (h : Thinned start l l')
    (hd : ∀ w, IsWindow start l w → (w.map c).Nodup) (hm : ∀ a ∈ l, c a ∈ M)
    (hc : Completes start c M l' w) : Completes start c M l w := by
  obtain ⟨hw, hcov, hmin⟩ := hc
  obtain ⟨v, hv, hsub⟩ := h.exists_window hw
  obtain rfl := eq_of_sublist_of_covers hsub (hd v hv) (fun a ha => hm a (hv.1.subset ha)) hcov
  exact ⟨hv, hcov, hmin⟩

end Window
