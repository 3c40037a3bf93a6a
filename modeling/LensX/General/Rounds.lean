import Mathlib.Data.List.Nodup
import Mathlib.Data.List.Perm.Subperm
import LensX.General.Blocks
import LensX.General.Window

/-! # Words that go in rounds

The letters of a word may run through a list of classes again and again, with
the last round possibly unfinished. A round completes at the letter of the last
class, and then the word has had the same number of letters of every class.
-/

namespace Rounds

open Window Blocks

variable {α ι : Type*} [DecidableEq ι] {c : α → ι} {M : List ι} {h u w : List α} {a : α} {s : ι}

/-- The classes of the word are a prefix of repetitions of the list. -/
def InRounds (c : α → ι) (M : List ι) (h : List α) : Prop :=
  ∃ m, h.map c <+: (List.replicate m M).flatten

omit [DecidableEq ι] in
theorem InRounds.of_prefix {h' : List α} (hr : InRounds c M h) (hp : h' <+: h) :
    InRounds c M h' := by
  obtain ⟨m, hm⟩ := hr
  exact ⟨m, (hp.map c).trans hm⟩

omit [DecidableEq ι] in
theorem InRounds.mem (hr : InRounds c M h) (ha : a ∈ h) : c a ∈ M := by
  obtain ⟨m, hm⟩ := hr
  obtain ⟨l, hl, hal⟩ := List.mem_flatten.mp (hm.subset (List.mem_map_of_mem ha))
  rwa [List.eq_of_mem_replicate hl] at hal

/-- The word consists of some full rounds and a nonempty beginning of one. -/
structure IsRound (c : α → ι) (M : List ι) (u w : List α) (j : ℕ) : Prop where
  full : u.map c = (List.replicate j M).flatten
  last : w.map c <+: M
  ne_nil : w ≠ []

omit [DecidableEq ι] in
theorem InRounds.exists_round (hr : InRounds c M h) (hne : h ≠ []) :
    ∃ u w j, h = u ++ w ∧ IsRound c M u w j := by
  obtain ⟨m, hm⟩ := hr
  obtain ⟨L, R, M', p, hL, hp, hpn, he⟩ := exists_block hm (by simpa using hne)
  obtain ⟨hL', hR⟩ := List.append_eq_replicate_iff.mp hL.symm |>.2
  obtain ⟨u, w, rfl, hu, hw⟩ := List.map_eq_append_iff.mp he
  obtain rfl : R = M := List.eq_of_mem_replicate (hR ▸ List.mem_cons_self)
  refine ⟨u, w, L.length, rfl, by rw [hu, ← hL'], hw ▸ hp, ?_⟩
  rintro rfl
  exact hpn hw.symm

theorem countP_eq_count (w : List α) (s : ι) : w.countP (c · = s) = (w.map c).count s := by
  rw [List.count, List.countP_map]
  apply List.countP_congr
  simp

omit [DecidableEq ι] in
theorem length_le_of_covers (hd : M.Nodup) (hc : Covers c M w) : M.length ≤ w.length := by
  have hs : M ⊆ w.map c := by
    intro s hs
    obtain ⟨a, ha, rfl⟩ := hc s hs
    exact List.mem_map_of_mem ha
  simpa using (List.subperm_of_subset hd hs).length_le

namespace IsRound

variable {j : ℕ} (hw : IsRound c M u w j)
include hw

theorem countP_full (hd : M.Nodup) (hs : s ∈ M) : u.countP (c · = s) = j := by
  rw [countP_eq_count, hw.full, List.count_flatten, List.map_replicate,
    List.count_eq_one_of_mem hd hs, List.sum_replicate_nat, Nat.mul_one]

omit [DecidableEq ι] in
theorem covers_iff (hd : M.Nodup) : Covers c M w ↔ w.map c = M := by
  constructor
  · exact fun hc => hw.last.eq_of_length_le (by simpa using length_le_of_covers hd hc)
  · exact fun he s hs => List.mem_map.mp (he ▸ hs)

omit [DecidableEq ι] in
/-- The beginning of the round is the window of the word. -/
theorem isWindow (hd : M.Nodup) {f : ι} (hf : M.head? = some f) :
    IsWindow (c · = f) (u ++ w) w := by
  obtain ⟨T, rfl⟩ := List.head?_eq_some_iff.mp hf
  refine ⟨List.suffix_append u w, ?_⟩
  cases w with
  | nil => exact absurd rfl hw.ne_nil
  | cons x t =>
    obtain ⟨hx, ht⟩ := List.cons_prefix_cons.mp hw.last
    refine ⟨x, t, rfl, hx, fun b hb hbf => ?_⟩
    exact (List.nodup_cons.mp hd).1 (hbf ▸ ht.subset (List.mem_map_of_mem hb))

omit [DecidableEq ι] in
/-- A round with a letter of the last class is full. -/
theorem full_of_mem (hd : M.Nodup) {l : ι} (hl : M.getLast? = some l) (hm : l ∈ w.map c) :
    w.map c = M := by
  obtain ⟨t, ht⟩ := hw.last
  rcases List.eq_nil_or_concat t with rfl | ⟨t', b, rfl⟩
  · simpa using ht
  · rw [← ht, List.concat_eq_append, ← List.append_assoc, List.getLast?_concat] at hl
    obtain rfl := Option.some.inj hl
    rw [← ht, List.nodup_append] at hd
    exact absurd rfl (hd.2.2 b hm b (by simp))

end IsRound

section Ends

variable (hd : M.Nodup)
include hd

/-- No class has had fewer letters than the last one. -/
theorem InRounds.countP_last_le (hr : InRounds c M h) {l : ι} (hl : M.getLast? = some l)
    (hs : s ∈ M) : h.countP (c · = l) ≤ h.countP (c · = s) := by
  rcases eq_or_ne h [] with rfl | hne
  · simp
  obtain ⟨u, w, j, rfl, hw⟩ := hr.exists_round hne
  have hlM : l ∈ M := List.mem_of_getLast? hl
  rw [List.countP_append, List.countP_append, hw.countP_full hd hlM, hw.countP_full hd hs]
  refine Nat.add_le_add_left ?_ j
  rw [countP_eq_count, countP_eq_count]
  by_cases hm : l ∈ w.map c
  · rw [hw.full_of_mem hd hl hm, List.count_eq_one_of_mem hd hlM, List.count_eq_one_of_mem hd hs]
  · rw [List.count_eq_zero.mpr hm]
    exact Nat.zero_le _

variable {f : ι} (hf : M.head? = some f)
include hf

omit [DecidableEq ι] in
/-- A round completes at a letter of the last class only. -/
theorem InRounds.last_of_completes (hr : InRounds c M (h ++ [a]))
    (hw : Completes (c · = f) c M (h ++ [a]) w) : M.getLast? = some (c a) := by
  obtain ⟨u, w', j, he, hround⟩ := hr.exists_round (by simp)
  obtain rfl : w = w' := hw.1.unique (he ▸ hround.isWindow hd hf)
  have hlast : w.getLast? = some a := by
    have := congrArg List.getLast? he
    rwa [List.getLast?_concat, List.getLast?_append_of_ne_nil _ hround.ne_nil, eq_comm] at this
  rw [← (hround.covers_iff hd).mp hw.2.1, List.getLast?_map, hlast]
  rfl

/-- When a round completes, its letter of a class is the next one of that class. -/
theorem InRounds.completes (hr : InRounds c M (h ++ [a])) (hl : M.getLast? = some (c a)) :
    ∃ w, Completes (c · = f) c M (h ++ [a]) w ∧ ∀ s ∈ M, ∃ b, lastOf c s w = some b ∧
      (h ++ [a]).filter (c · = s) = (h.filter (c · = s)).take (h.countP (c · = c a)) ++ [b] := by
  obtain ⟨u, w, j, he, hround⟩ := hr.exists_round (by simp)
  obtain ⟨v, x, rfl⟩ := (List.eq_nil_or_concat' w).resolve_left hround.ne_nil
  rw [← List.append_assoc] at he
  obtain ⟨rfl, hx⟩ := List.append_inj' he rfl
  obtain rfl : a = x := by simpa using hx
  have hfull : (v ++ [a]).map c = M := hround.full_of_mem hd hl (by simp)
  have hone : ∀ s ∈ M, (v ++ [a]).countP (c · = s) = 1 := by
    intro s hs
    rw [countP_eq_count, hfull, List.count_eq_one_of_mem hd hs]
  have hcount : (u ++ v).countP (c · = c a) = j := by
    have ha := List.mem_of_getLast? hl
    have h₁ := hone _ ha
    have h₂ := hround.countP_full hd ha
    rw [List.countP_append, List.countP_singleton, decide_eq_true rfl, if_pos rfl] at h₁
    rw [List.countP_append, h₂]
    omega
  refine ⟨v ++ [a], ⟨?_, (hround.covers_iff hd).mpr hfull, fun hc => ?_⟩, fun s hs => ?_⟩
  · rw [List.append_assoc]
    exact hround.isWindow hd hf
  · have hlen := length_le_of_covers hd hc
    rw [← hfull, List.dropLast_concat, List.length_map, List.length_append,
      List.length_singleton] at hlen
    omega
  · obtain ⟨b, hb⟩ := List.length_eq_one_iff.mp
      ((List.countP_eq_length_filter ..).symm.trans (hone s hs))
    refine ⟨b, by rw [lastOf, hb]; rfl, ?_⟩
    have hlen : (u.filter (c · = s)).length = j := by
      rw [← List.countP_eq_length_filter, hround.countP_full hd hs]
    rw [List.append_assoc, List.filter_append, hb, hcount, List.filter_append,
      List.take_append_of_le_length hlen.ge, List.take_of_length_le hlen.le]

end Ends

end Rounds
