import Mathlib.Data.List.TakeDrop
import Mathlib.Logic.Relation

/-! # Logs that are finished out of order

Entries are reserved one after another, written and finished in any order, and
consumed in the order of the reservations. What has been delivered is always what was
submitted, in that order, among the first entries.
-/

namespace CommitLog

/-- A finished entry is submitted or discarded. -/
inductive Status where
  | reserved
  | written
  | submitted
  | discarded
  deriving DecidableEq, Repr

def Status.Finished (s : Status) : Prop := s = .submitted ∨ s = .discarded

instance (s : Status) : Decidable s.Finished := inferInstanceAs (Decidable (_ ∨ _))

/-- Only a written entry is submitted; an open entry may be discarded at any time. -/
inductive Status.Next : Status → Status → Prop where
  | write : Next .reserved .written
  | submit : Next .written .submitted
  | drop : Next .reserved .discarded
  | discard : Next .written .discarded

theorem Status.Next.not_finished {s s' : Status} (h : s.Next s') : ¬ s.Finished := by
  cases h <;> decide

structure Entry (α : Type*) where
  value : α
  status : Status
  deriving Repr

/-- The entries in the order of their reservations; the first ones are consumed. -/
structure Log (α : Type*) where
  entries : List (Entry α)
  consumed : ℕ

variable {α : Type*}

/-- The values of the submitted entries. -/
def submitted (l : List (Entry α)) : List α :=
  (l.filter (·.status = .submitted)).map Entry.value

namespace Log

inductive Step : Log α → Log α → Prop where
  | reserve (l : Log α) (a : α) : Step l ⟨l.entries ++ [⟨a, .reserved⟩], l.consumed⟩
  | change (l : Log α) {i : ℕ} {e : Entry α} {s : Status} (he : l.entries[i]? = some e)
    (hs : e.status.Next s) : Step l ⟨l.entries.set i ⟨e.value, s⟩, l.consumed⟩
  | consume (l : Log α) {e : Entry α} (h : l.entries[l.consumed]? = some e)
    (hs : e.status.Finished) : Step l ⟨l.entries, l.consumed + 1⟩

/-- Consumed entries exist and are finished. -/
structure Valid (l : Log α) : Prop where
  le : l.consumed ≤ l.entries.length
  finished : ∀ e ∈ l.entries.take l.consumed, e.status.Finished

theorem Valid.finished_of_lt {l : Log α} (h : l.Valid) {i : ℕ} (hi : i < l.consumed) {e : Entry α}
    (he : l.entries[i]? = some e) : e.status.Finished := by
  refine h.finished e (List.mem_of_getElem? ((List.getElem?_take_of_lt hi).trans he))

/-- Only open entries change, so the consumed ones stay. -/
theorem Valid.take_set {l : Log α} (h : l.Valid) {i : ℕ} {e : Entry α}
    (he : l.entries[i]? = some e) (hopen : ¬ e.status.Finished) (e' : Entry α) :
    (l.entries.set i e').take l.consumed = l.entries.take l.consumed := by
  rw [List.take_set_of_le]
  by_contra hlt
  exact hopen (h.finished_of_lt (by omega) he)

/-- One step keeps the consumed entries and the values of all entries. -/
structure Extends (l l' : Log α) : Prop where
  consumed : l.entries.take l.consumed <+: l'.entries.take l'.consumed
  values : l.entries.map Entry.value <+: l'.entries.map Entry.value

theorem Extends.refl (l : Log α) : l.Extends l := ⟨List.prefix_rfl, List.prefix_rfl⟩

theorem Extends.trans {l₁ l₂ l₃ : Log α} (h : l₁.Extends l₂) (h' : l₂.Extends l₃) :
    l₁.Extends l₃ := ⟨h.consumed.trans h'.consumed, h.values.trans h'.values⟩

theorem map_value_set {l : List (Entry α)} {i : ℕ} {e : Entry α} (he : l[i]? = some e)
    (s : Status) : (l.set i ⟨e.value, s⟩).map Entry.value = l.map Entry.value := by
  obtain ⟨hi, rfl⟩ := List.getElem?_eq_some_iff.mp he
  rw [List.map_set]
  rw [← List.getElem_map Entry.value (h := by simpa using hi), List.set_getElem_self]

theorem Step.valid_extends {l l' : Log α} (h : l.Valid) (hs : Step l l') :
    l'.Valid ∧ l.Extends l' := by
  cases hs with
  | reserve a =>
    have htake : (l.entries ++ [(⟨a, .reserved⟩ : Entry α)]).take l.consumed =
        l.entries.take l.consumed := List.take_append_of_le_length h.le
    refine ⟨⟨?_, ?_⟩, ⟨?_, ?_⟩⟩
    · exact Nat.le_trans h.le (by simp)
    · exact fun e he => h.finished e (htake ▸ he)
    · exact htake ▸ List.prefix_rfl
    · exact ⟨[a], by simp⟩
  | @change i e s he hs =>
    have htake := h.take_set he hs.not_finished ⟨e.value, s⟩
    refine ⟨⟨?_, fun e hm => h.finished e (htake ▸ hm)⟩, ⟨htake ▸ List.prefix_rfl, ?_⟩⟩
    · simpa using h.le
    · exact map_value_set he s ▸ List.prefix_rfl
  | @consume e he hs =>
    obtain ⟨hlt, rfl⟩ := List.getElem?_eq_some_iff.mp he
    have htake := List.take_succ_eq_append_getElem hlt
    refine ⟨⟨hlt, fun e hm => ?_⟩, ⟨?_, List.prefix_rfl⟩⟩
    · rw [htake, List.mem_append, List.mem_singleton] at hm
      rcases hm with hm | rfl
      · exact h.finished e hm
      · exact hs
    · exact ⟨_, htake.symm⟩

/-- Whatever happens to a log, it stays valid, and nothing that was consumed or reserved is
changed. -/
theorem valid_extends_of_steps {l l' : Log α} (h : l.Valid) (hs : Relation.ReflTransGen Step l l') :
    l'.Valid ∧ l.Extends l' := by
  induction hs with
  | refl => exact ⟨h, .refl l⟩
  | tail _ hstep ih =>
    obtain ⟨hv, he⟩ := hstep.valid_extends ih.1
    exact ⟨hv, ih.2.trans he⟩

end Log

theorem submitted_append (l l' : List (Entry α)) :
    submitted (l ++ l') = submitted l ++ submitted l' := by
  simp [submitted]

end CommitLog
