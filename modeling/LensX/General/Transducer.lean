import Mathlib.Data.List.Induction
import Mathlib.Data.List.Perm.Basic
import Mathlib.Logic.Function.Basic

/-! # Transducers and keyed products

A transducer reads a word and may emit an output at each letter. A keyed product
keeps one copy of the state for every key and hands a letter to the copy of its
key. Each copy runs on the letters of its own key alone, whatever the order in
which the keys interleave.
-/

namespace Transducer

variable {σ α β κ : Type*}

/-- A transition function that may emit an output. -/
abbrev Step (σ α β : Type*) := σ → α → σ × Option β

/-- The state reached after a word. -/
def run (M : Step σ α β) (s : σ) (l : List α) : σ := l.foldl (fun s a => (M s a).1) s

/-- The emitted outputs in order, each with the letter that triggered it. -/
def emits (M : Step σ α β) : σ → List α → List (α × β)
  | _, [] => []
  | s, a :: l => ((M s a).2.map (a, ·)).toList ++ emits M (M s a).1 l

variable (M : Step σ α β) (s : σ)

@[simp] theorem run_nil : run M s [] = s := rfl

@[simp] theorem run_cons (a : α) (l : List α) : run M s (a :: l) = run M (M s a).1 l := rfl

@[simp] theorem run_concat (l : List α) (a : α) : run M s (l ++ [a]) = (M (run M s l) a).1 := by
  simp [run]

@[simp] theorem emits_nil : emits M s [] = [] := rfl

theorem emits_cons (a : α) (l : List α) :
    emits M s (a :: l) = ((M s a).2.map (a, ·)).toList ++ emits M (M s a).1 l := rfl

theorem emits_append (l l' : List α) :
    emits M s (l ++ l') = emits M s l ++ emits M (run M s l) l' := by
  induction l generalizing s with
  | nil => rfl
  | cons a l ih => simp [emits_cons, ih]

theorem emits_concat (l : List α) (a : α) :
    emits M s (l ++ [a]) = emits M s l ++ ((M (run M s l) a).2.map (a, ·)).toList := by
  simp [emits_append, emits_cons]

theorem mem_emits {l : List α} {a : α} {b : β} :
    (a, b) ∈ emits M s l ↔
      ∃ pre post, l = pre ++ a :: post ∧ (M (run M s pre) a).2 = some b := by
  induction l generalizing s with
  | nil => simp
  | cons x l ih =>
    rw [emits_cons, List.mem_append, ih]
    constructor
    · rintro (h | ⟨pre, post, rfl, h⟩)
      · obtain ⟨y, hy, he⟩ := Option.map_eq_some_iff.mp (Option.mem_toList.mp h)
        obtain ⟨rfl, rfl⟩ := Prod.mk.inj he
        exact ⟨[], l, rfl, hy⟩
      · exact ⟨x :: pre, post, rfl, h⟩
    · rintro ⟨pre, post, he, h⟩
      cases pre with
      | nil =>
        obtain ⟨rfl, rfl⟩ := List.cons.inj he
        exact Or.inl (by simpa using h)
      | cons y pre =>
        obtain ⟨rfl, rfl⟩ := List.cons.inj he
        exact Or.inr ⟨pre, post, rfl, h⟩

/-- The letters of a word, each with the word before it. -/
def prefixes : List α → List (List α × α)
  | [] => []
  | a :: l => ([], a) :: (prefixes l).map fun p => (a :: p.1, p.2)

@[simp] theorem prefixes_nil : prefixes ([] : List α) = [] := rfl

theorem prefixes_concat (l : List α) (a : α) : prefixes (l ++ [a]) = prefixes l ++ [(l, a)] := by
  induction l with
  | nil => rfl
  | cons b l ih => simp [prefixes, ih]

theorem mem_prefixes {l pre : List α} {a : α} : (pre, a) ∈ prefixes l ↔ pre ++ [a] <+: l := by
  induction l using List.reverseRecOn with
  | nil => simp
  | append_singleton l b ih =>
    rw [prefixes_concat, List.mem_append, ih, List.mem_singleton, List.prefix_concat_iff,
      Prod.mk.injEq, or_comm, List.append_singleton_inj]

/-- The outputs of a word are those of its letters, each in the state before it. -/
theorem emits_eq_prefixes (l : List α) :
    emits M s l =
      (prefixes l).flatMap fun p => ((M (run M s p.1) p.2).2.map (p.2, ·)).toList := by
  induction l using List.reverseRecOn with
  | nil => rfl
  | append_singleton l a ih => rw [emits_concat, prefixes_concat, List.flatMap_append, ih]; simp

variable {M} {s}

section Idle

variable {p : α → Bool}

/-- Letters outside the predicate leave the state alone and emit nothing. -/
def Ignores (M : Step σ α β) (p : α → Bool) : Prop := ∀ s a, p a = false → M s a = (s, none)

theorem run_filter (h : Ignores M p) (s : σ) (l : List α) : run M s (l.filter p) = run M s l := by
  induction l generalizing s with
  | nil => rfl
  | cons a l ih => cases hp : p a <;> simp [hp, ih, h s a]

/-- Ignored letters may be left out. -/
theorem emits_filter_of_ignored (h : Ignores M p) {q : α → Bool} (s : σ) {l : List α}
    (hq : ∀ a ∈ l, q a = false → p a = false) : emits M s (l.filter q) = emits M s l := by
  induction l generalizing s with
  | nil => rfl
  | cons a l ih =>
    have htail := fun s => ih s fun b hb => hq b (List.mem_cons_of_mem _ hb)
    cases hqa : q a with
    | true => simp [hqa, htail, emits_cons]
    | false => simp [hqa, htail, emits_cons, h s a (hq a List.mem_cons_self hqa)]

theorem emits_filter (h : Ignores M p) (s : σ) (l : List α) :
    emits M s (l.filter p) = emits M s l := emits_filter_of_ignored h s fun _ _ hp => hp

end Idle

section Keyed

variable [DecidableEq κ] (key : α → κ)

/-- One copy of the state for every key; a letter moves the copy of its own key. -/
def keyed (M : Step σ α β) : Step (κ → σ) α β := fun s a =>
  (Function.update s (key a) (M (s (key a)) a).1, (M (s (key a)) a).2)

theorem Ignores.keyed {M : Step σ α β} {p : α → Bool} (h : Ignores M p) :
    Ignores (keyed key M) p := by
  intro s a ha
  rw [Transducer.keyed, h _ a ha, Function.update_eq_self]

/-- The copy of a key has run on the letters of that key. -/
theorem run_keyed (s : κ → σ) (l : List α) (k : κ) :
    run (keyed key M) s l k = run M (s k) (l.filter (key · = k)) := by
  induction l generalizing s with
  | nil => rfl
  | cons a l ih =>
    by_cases h : key a = k
    · subst h; simp [ih, keyed]
    · simp [ih, keyed, h, Function.update_of_ne (Ne.symm h)]

theorem emits_keyed (s : κ → σ) (l : List α) (k : κ) :
    (emits (keyed key M) s l).filter (fun o => key o.1 = k) =
      emits M (s k) (l.filter (key · = k)) := by
  induction l generalizing s with
  | nil => rfl
  | cons a l ih =>
    rw [emits_cons, List.filter_append, ih]
    by_cases h : key a = k
    · subst h
      cases ho : (M (s (key a)) a).2 <;> simp [keyed, emits_cons, ho]
    · cases ho : (M (s (key a)) a).2 <;>
        simp [keyed, h, ho, Function.update_of_ne (Ne.symm h)]

omit key in
/-- Lists that agree key by key, up to order, agree up to order. -/
theorem perm_of_keyed {l l' : List β} (f : β → κ)
    (h : ∀ k, (l.filter (f · = k)).Perm (l'.filter (f · = k))) : l.Perm l' := by
  classical
  rw [List.perm_iff_count]
  intro b
  have hb := (h (f b)).count_eq b
  rwa [List.count_filter (by simp), List.count_filter (by simp)] at hb

end Keyed

end Transducer
