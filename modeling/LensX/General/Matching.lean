import Mathlib.Data.Finset.Card
import Mathlib.Data.List.Forall2
import Mathlib.Order.Interval.Finset.Nat
import LensX.General.BoundedQueue

/-! # What a bounded queue pairs

A push is offered to a pop when it comes before it and is among as many of the
last pushes as the queue has room for. A queue that drops its oldest element
joins pushes and pops in increasing order, each only to one that is offered to
it, and no other way to do so makes more pairs.
-/

namespace BoundedQueue

variable {α β : Type*} {c i j : ℕ} {ops : List (Op α β)}

/-- The `i`-th push is among the last `c` ones before the `j`-th pop. -/
def Offers (c : ℕ) (ops : List (Op α β)) (i j : ℕ) : Prop :=
  ∃ pre y, pre ++ [.pop y] <+: ops ∧ (pops pre).length = j ∧
    i < (pushes pre).length ∧ (pushes pre).length ≤ i + c

theorem Offers.lt (h : Offers c ops i j) : j < (pops ops).length := by
  obtain ⟨pre, y, hp, rfl, -⟩ := h
  have hle := (hp.filterMap Op.popped).length_le
  change (pops (pre ++ [.pop y])).length ≤ (pops ops).length at hle
  rw [pops_concat_pop, List.length_append] at hle
  exact hle

theorem offers_concat_push (x : α) : Offers c (ops ++ [.push x]) i j ↔ Offers c ops i j := by
  constructor
  · rintro ⟨pre, y, hp, h⟩
    rcases List.prefix_concat_iff.mp hp with heq | hp
    · simpa using (List.append_inj' heq rfl).2
    · exact ⟨pre, y, hp, h⟩
  · rintro ⟨pre, y, hp, h⟩
    exact ⟨pre, y, hp.trans (List.prefix_append _ _), h⟩

theorem offers_concat_pop (y : β) : Offers c (ops ++ [.pop y]) i j ↔
    Offers c ops i j ∨ j = (pops ops).length ∧ i < (pushes ops).length ∧
      (pushes ops).length ≤ i + c := by
  constructor
  · rintro ⟨pre, y', hp, rfl, h⟩
    rcases List.prefix_concat_iff.mp hp with heq | hp
    · obtain rfl := (List.append_inj' heq rfl).1
      exact Or.inr ⟨rfl, h⟩
    · exact Or.inl ⟨pre, y', hp, rfl, h⟩
  · rintro (⟨pre, y', hp, h⟩ | ⟨rfl, h⟩)
    · exact ⟨pre, y', hp.trans (List.prefix_append _ _), h⟩
    · exact ⟨ops, y, List.prefix_rfl, rfl, h⟩

section Length

theorem Queue.length_push_items (q : Queue α c) (x : α) :
    (q.push x).items.length = min (q.items.length + 1) c := by
  rw [push_items, List.length_drop, List.length_append, List.length_singleton]
  omega

theorem lengths_concat_pop (c : ℕ) (ops : List (Op α β)) (y : β) :
    (contents c (ops ++ [.pop y])).items.length = (contents c ops).items.length - 1 ∧
      (paired c (ops ++ [.pop y])).length =
        (paired c ops).length + min 1 (contents c ops).items.length := by
  cases hp : (contents c ops).pop with
  | none =>
    obtain ⟨hq, hout⟩ := concat_pop_none (y := y) hp
    rw [Queue.pop_eq_none_iff] at hp
    simp [hq, hout, hp]
  | some xq =>
    obtain ⟨x, q⟩ := xq
    obtain ⟨hq, hout⟩ := concat_pop_some (y := y) hp
    rw [hq, hout, Queue.items_of_pop hp]
    simp

end Length

section Ledger

/-- The pair consists of the `ij.1`-th push and the `ij.2`-th pop. -/
def Joins (ops : List (Op α β)) (p : α × β) (ij : ℕ × ℕ) : Prop :=
  (pushes ops)[ij.1]? = some p.1 ∧ (pops ops)[ij.2]? = some p.2

theorem Joins.append {p : α × β} {ij : ℕ × ℕ} (h : Joins ops p ij) (ops' : List (Op α β)) :
    Joins (ops ++ ops') p ij := by
  obtain ⟨hpush, hpop⟩ := h
  constructor
  · rw [pushes_append, List.getElem?_append_left (List.getElem?_eq_some_iff.mp hpush).1, hpush]
  · rw [pops_append, List.getElem?_append_left (List.getElem?_eq_some_iff.mp hpop).1, hpop]

/-- The numbers of the pushes and pops that were joined, and how many pushes have left the
queue. -/
structure Ledger (c : ℕ) (ops : List (Op α β)) (m : List (ℕ × ℕ)) (front : ℕ) : Prop where
  items : (contents c ops).items = (pushes ops).drop front
  le : front ≤ (pushes ops).length
  joins : List.Forall₂ (Joins ops) (paired c ops) m
  below : ∀ p ∈ m, p.1 < front
  sorted : m.Pairwise fun p q => p.1 < q.1 ∧ p.2 < q.2
  offers : ∀ p ∈ m, Offers c ops p.1 p.2

variable {m : List (ℕ × ℕ)} {front : ℕ}

theorem Ledger.push (h : Ledger c ops m front) (x : α) :
    Ledger c (ops ++ [.push x]) m (front + ((contents c ops).items.length + 1 - c)) where
  items := by
    rw [contents_concat_push, Queue.push_items, pushes_concat_push, ← List.drop_drop,
      List.drop_append_of_le_length h.le, ← h.items]
  le := by
    have hlen := congrArg List.length h.items
    have hle := h.le
    rw [List.length_drop] at hlen
    rw [pushes_concat_push, List.length_append, List.length_singleton]
    omega
  joins := by
    rw [paired_concat_push]
    exact h.joins.imp fun p ij hj => hj.append _
  below p hp := (h.below p hp).trans_le (Nat.le_add_right _ _)
  sorted := h.sorted
  offers p hp := (offers_concat_push x).mpr (h.offers p hp)

theorem Ledger.pop_none (h : Ledger c ops m front) {y : β} (hp : (contents c ops).pop = none) :
    Ledger c (ops ++ [.pop y]) m front := by
  obtain ⟨hq, hout⟩ := concat_pop_none (y := y) hp
  constructor
  · rw [hq, pushes_concat_pop, h.items]
  · rw [pushes_concat_pop]
    exact h.le
  · rw [hout]
    exact h.joins.imp fun p ij hj => hj.append _
  · exact h.below
  · exact h.sorted
  · exact fun p hp => (offers_concat_pop y).mpr (Or.inl (h.offers p hp))

theorem Ledger.pop_some (h : Ledger c ops m front) {x : α} {y : β} {q : Queue α c}
    (hp : (contents c ops).pop = some (x, q)) :
    Ledger c (ops ++ [.pop y]) (m ++ [(front, (pops ops).length)]) (front + 1) := by
  obtain ⟨hq, hout⟩ := concat_pop_some (y := y) hp
  have hitems : (pushes ops).drop front = x :: q.items := h.items.symm.trans (Queue.items_of_pop hp)
  have hlen : (pushes ops).length - front = q.items.length + 1 := by
    rw [← List.length_drop, hitems, List.length_cons]
  -- the queue holds at most `c` elements, so its oldest one is offered
  have hle : q.items.length + 1 ≤ c := by
    rw [← List.length_cons (a := x), ← Queue.items_of_pop hp]
    exact (contents c ops).length_le
  have hoffers : Offers c (ops ++ [.pop y]) front (pops ops).length :=
    (offers_concat_pop y).mpr (Or.inr ⟨rfl, by omega, by omega⟩)
  constructor
  · rw [hq, pushes_concat_pop, ← List.drop_drop, hitems, List.drop_one, List.tail_cons]
  · rw [pushes_concat_pop]
    omega
  · rw [hout]
    refine List.rel_append (h.joins.imp fun p ij hj => hj.append _) (.cons ?_ .nil)
    constructor
    · rw [pushes_concat_pop, ← List.head?_drop, hitems, List.head?_cons]
    · rw [pops_concat_pop, List.getElem?_concat_length]
  · intro p hp
    rcases List.mem_append.mp hp with hp | hp
    · exact (h.below p hp).trans (Nat.lt_succ_self _)
    · exact List.mem_singleton.mp hp ▸ Nat.lt_succ_self _
  · rw [List.pairwise_append]
    refine ⟨h.sorted, List.pairwise_singleton _ _, fun p hp p' hp' => ?_⟩
    rw [List.mem_singleton.mp hp']
    exact ⟨h.below p hp, (h.offers p hp).lt⟩
  · intro p hp
    rcases List.mem_append.mp hp with hp | hp
    · exact (offers_concat_pop y).mpr (Or.inl (h.offers p hp))
    · exact List.mem_singleton.mp hp ▸ hoffers

theorem exists_ledger (c : ℕ) (ops : List (Op α β)) : ∃ m front, Ledger c ops m front := by
  induction ops using List.reverseRecOn with
  | nil => exact ⟨[], 0, rfl, le_rfl, .nil, by simp, .nil, by simp⟩
  | append_singleton ops op ih =>
    obtain ⟨m, front, h⟩ := ih
    cases op with
    | push x => exact ⟨_, _, h.push x⟩
    | pop y =>
      cases hp : (contents c ops).pop with
      | none => exact ⟨_, _, h.pop_none hp⟩
      | some xq => exact ⟨_, _, h.pop_some hp⟩

/-- The pairs join pushes and pops in increasing order, each to one that is offered to it. -/
theorem exists_joins (c : ℕ) (ops : List (Op α β)) : ∃ m : List (ℕ × ℕ),
    m.Pairwise (fun p q => p.1 < q.1 ∧ p.2 < q.2) ∧ (∀ p ∈ m, Offers c ops p.1 p.2) ∧
      List.Forall₂ (Joins ops) (paired c ops) m := by
  obtain ⟨m, front, h⟩ := exists_ledger c ops
  exact ⟨m, h.sorted, h.offers, h.joins⟩

end Ledger

section Maximum

variable {ι κ : Type*}

/-- A set of pairs in which nothing occurs twice. -/
structure IsMatching (R : ι → κ → Prop) (M : Finset (ι × κ)) : Prop where
  left : Set.InjOn Prod.fst (M : Set (ι × κ))
  right : Set.InjOn Prod.snd (M : Set (ι × κ))
  rel : ∀ p ∈ M, R p.1 p.2

theorem IsMatching.mono {R R' : ι → κ → Prop} {M M' : Finset (ι × κ)} (h : IsMatching R M)
    (hsub : M' ⊆ M) (hrel : ∀ p ∈ M', R p.1 p.2 → R' p.1 p.2) : IsMatching R' M' where
  left := h.left.mono (Finset.coe_subset.mpr hsub)
  right := h.right.mono (Finset.coe_subset.mpr hsub)
  rel p hp := hrel p hp (h.rel p (hsub hp))

/-- Those of the last `c` among `n` pushes that a matching does not use. -/
def unused (c n : ℕ) (M : Finset (ℕ × ℕ)) : Finset ℕ :=
  (Finset.Ico (n - c) n).filter fun i => ∀ p ∈ M, p.1 ≠ i

variable {n : ℕ} {M : Finset (ℕ × ℕ)}

theorem mem_unused : i ∈ unused c n M ↔ (n ≤ i + c ∧ i < n) ∧ ∀ p ∈ M, p.1 ≠ i := by
  rw [unused, Finset.mem_filter, Finset.mem_Ico, Nat.sub_le_iff_le_add]

theorem card_unused_le : (unused c n M).card ≤ c := by
  have hle : (unused c n M).card ≤ (Finset.Ico (n - c) n).card :=
    Finset.card_le_card (Finset.filter_subset _ _)
  rw [Nat.card_Ico] at hle
  omega

theorem card_unused_succ_le : (unused c (n + 1) M).card ≤ (unused c n M).card + 1 := by
  have hsub : unused c (n + 1) M ⊆ insert n (unused c n M) := by
    intro i hi
    obtain ⟨⟨hc, hn⟩, hM⟩ := mem_unused.mp hi
    rcases Nat.lt_succ_iff_lt_or_eq.mp hn with hlt | rfl
    · exact Finset.mem_insert_of_mem (mem_unused.mpr ⟨⟨by omega, hlt⟩, hM⟩)
    · exact Finset.mem_insert_self _ _
  exact (Finset.card_le_card hsub).trans (Finset.card_insert_le _ _)

/-- A pair that is left out gives its push back. -/
theorem card_unused_erase (h : Set.InjOn Prod.fst (M : Set (ℕ × ℕ))) (hp : (i, j) ∈ M)
    (hc : n ≤ i + c) (hn : i < n) :
    (unused c n M).card + 1 ≤ (unused c n (M.erase (i, j))).card := by
  have hi : i ∉ unused c n M := fun hi => (mem_unused.mp hi).2 _ hp rfl
  rw [← Finset.card_insert_of_notMem hi]
  apply Finset.card_le_card
  intro k hk
  rcases Finset.mem_insert.mp hk with rfl | hk
  · refine mem_unused.mpr ⟨⟨hc, hn⟩, fun q hq heq => ?_⟩
    obtain ⟨hne, hq⟩ := Finset.mem_erase.mp hq
    exact hne (h hq hp heq)
  · obtain ⟨hwindow, hM⟩ := mem_unused.mp hk
    exact mem_unused.mpr ⟨hwindow, fun q hq => hM q (Finset.mem_of_mem_erase hq)⟩

/-- A queue is ahead of every matching, in the pairs that it has made and also together with the
pushes that can still be used. -/
theorem IsMatching.card_le (hM : IsMatching (Offers c ops) M) :
    M.card ≤ (paired c ops).length ∧
      M.card + (unused c (pushes ops).length M).card ≤
        (paired c ops).length + (contents c ops).items.length := by
  induction ops using List.reverseRecOn generalizing M with
  | nil =>
    obtain rfl : M = ∅ := Finset.eq_empty_of_forall_notMem fun p hp => by
      simpa using (hM.rel p hp).lt
    simp [unused]
  | append_singleton ops op ih =>
    cases op with
    | push x =>
      obtain ⟨hcard, hsum⟩ := ih (hM.mono subset_rfl fun p _ => (offers_concat_push x).mp)
      have hunused : (unused c ((pushes ops).length + 1) M).card ≤ _ := card_unused_succ_le
      have hroom : (unused c ((pushes ops).length + 1) M).card ≤ c := card_unused_le
      rw [paired_concat_push, contents_concat_push, Queue.length_push_items, pushes_concat_push,
        List.length_append, List.length_singleton]
      exact ⟨hcard, by omega⟩
    | pop y =>
      obtain ⟨hitems, hpaired⟩ := lengths_concat_pop c ops y
      rw [hitems, hpaired, pushes_concat_pop]
      have hold : ∀ p ∈ M, p.2 ≠ (pops ops).length → Offers c ops p.1 p.2 := fun p hp hne =>
        ((offers_concat_pop y).mp (hM.rel p hp)).resolve_right fun h => hne h.1
      by_cases hlast : ∃ i, (i, (pops ops).length) ∈ M
      · -- the matching uses the new pop; without that pair it is one of the operations before
        obtain ⟨i, hi⟩ := hlast
        obtain ⟨hcard, hsum⟩ := ih (M := M.erase (i, (pops ops).length)) <|
          hM.mono (Finset.erase_subset _ _) fun p hp _ => by
            obtain ⟨hne, hp⟩ := Finset.mem_erase.mp hp
            exact hold p hp fun heq => hne (hM.right hp hi heq)
        obtain ⟨-, hn, hc⟩ := ((offers_concat_pop y).mp (hM.rel _ hi)).resolve_left
          fun h => h.lt.ne rfl
        have herase := Finset.card_erase_add_one hi
        have hunused := card_unused_erase hM.left hi hc hn
        omega
      · have hne : ∀ p ∈ M, p.2 ≠ (pops ops).length := fun p hp heq => hlast ⟨p.1, heq ▸ hp⟩
        obtain ⟨hcard, hsum⟩ := ih (hM.mono subset_rfl fun p hp _ => hold p hp (hne p hp))
        omega

/-- No pairing of pops with pushes that are offered to them makes more pairs. -/
theorem card_le_length_paired (hM : IsMatching (Offers c ops) M) :
    M.card ≤ (paired c ops).length := hM.card_le.1

end Maximum

end BoundedQueue
