import LensX.General.Transducer

/-! # Related transducers

A relation between the states of two transducers that every letter preserves relates
whole runs, and the outputs that it relates step by step correspond one to one.
-/

namespace Transducer

variable {σ σ' α β β' κ : Type*}

/-- Letters that satisfy a predicate lead from related states to related states, with related
outputs; the second transducer reads the image of the letter. -/
def Related (M : Step σ α β) (M' : Step σ' α β') (p : α → Prop) (f : α → α) (R : σ → σ' → Prop)
    (S : β → β' → Prop) : Prop :=
  ∀ s s' a, p a → R s s' → R (M s a).1 (M' s' (f a)).1 ∧ Option.Rel S (M s a).2 (M' s' (f a)).2

variable {M : Step σ α β} {M' : Step σ' α β'} {p : α → Prop} {f : α → α} {R : σ → σ' → Prop}
  {S : β → β' → Prop} {s : σ} {s' : σ'}

theorem Related.run (h : Related M M' p f R S) {l : List α} (hl : ∀ a ∈ l, p a) (hs : R s s') :
    R (run M s l) (Transducer.run M' s' (l.map f)) := by
  induction l generalizing s s' with
  | nil => exact hs
  | cons a l ih =>
    have hnext := (h s s' a (hl a List.mem_cons_self) hs).1
    exact ih (fun b hb => hl b (List.mem_cons_of_mem _ hb)) hnext

theorem Related.emits (h : Related M M' p f R S) {l : List α} (hl : ∀ a ∈ l, p a) (hs : R s s') :
    List.Forall₂ (fun o o' => o'.1 = f o.1 ∧ S o.2 o'.2) (emits M s l)
      (Transducer.emits M' s' (l.map f)) := by
  induction l generalizing s s' with
  | nil => exact .nil
  | cons a l ih =>
    obtain ⟨hnext, hout⟩ := h s s' a (hl a List.mem_cons_self) hs
    have htail := ih (fun b hb => hl b (List.mem_cons_of_mem _ hb)) hnext
    rw [emits_cons, List.map_cons, emits_cons]
    cases hb : (M s a).2 with
    | none =>
      rw [hb] at hout
      cases hb' : (M' s' (f a)).2 with
      | none => exact htail
      | some b' => rw [hb'] at hout; cases hout
    | some b =>
      rw [hb] at hout
      cases hb' : (M' s' (f a)).2 with
      | none => rw [hb'] at hout; cases hout
      | some b' =>
        rw [hb'] at hout
        cases hout with
        | some hS => exact .cons ⟨rfl, hS⟩ htail

/-- Copies for the same keys are related one by one. -/
theorem Related.keyed [DecidableEq κ] (key : α → κ) (h : Related M M' p f R S)
    (hkey : ∀ a, key (f a) = key a) :
    Related (keyed key M) (Transducer.keyed key M') p f (fun t t' => ∀ k, R (t k) (t' k)) S := by
  intro t t' a ha ht
  obtain ⟨hnext, hout⟩ := h (t (key a)) (t' (key a)) a ha (ht (key a))
  rw [Transducer.keyed, Transducer.keyed, hkey]
  refine ⟨fun k => ?_, hout⟩
  by_cases hk : k = key a
  · subst hk
    simpa using hnext
  · simpa [Function.update_of_ne hk] using ht k

theorem prefixes_map (f : α → α) (l : List α) :
    prefixes (l.map f) = (prefixes l).map fun q => (q.1.map f, f q.2) := by
  induction l with
  | nil => rfl
  | cons a l ih => simp [prefixes, ih, Function.comp_def]

end Transducer
