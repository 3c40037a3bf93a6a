import Mathlib.Data.List.Infix
import Mathlib.Data.List.Induction

/-! # Windows and greedy segments of a history

Letters carry a class. A window is the part of a history from its last start
letter on; it completes at the letter with which it first covers a set of
classes. A greedy cut splits a history into consecutive minimal covering
segments, with an unfinished one at the end.
-/

namespace Window

variable {α ι : Type*}

section Classes

variable (c : α → ι) (M : List ι)

/-- Every class of the list occurs in the word. -/
def Covers (w : List α) : Prop := ∀ s ∈ M, ∃ a ∈ w, c a = s

instance [DecidableEq ι] (w : List α) : Decidable (Covers c M w) :=
  inferInstanceAs (Decidable (∀ s ∈ M, ∃ a ∈ w, c a = s))

/-- The last letter of a class. -/
def lastOf [DecidableEq ι] (s : ι) (w : List α) : Option α := (w.filter (c · = s)).getLast?

variable {c M}

theorem Covers.mono {w w' : List α} (h : Covers c M w) (hs : w ⊆ w') : Covers c M w' := by
  intro s hm
  obtain ⟨a, ha, he⟩ := h s hm
  exact ⟨a, hs ha, he⟩

theorem covers_perm {w w' : List α} (hp : w.Perm w') : Covers c M w ↔ Covers c M w' :=
  ⟨fun h => h.mono hp.subset, fun h => h.mono hp.symm.subset⟩

theorem not_covers_nil (hM : M ≠ []) : ¬ Covers c M [] := by
  intro h
  obtain ⟨s, hs⟩ := List.exists_mem_of_ne_nil M hM
  obtain ⟨a, ha, _⟩ := h s hs
  exact List.not_mem_nil ha

/-- The first letter with which the extension of a word covers. -/
theorem exists_first_cover {x w : List α} (hx : ¬ Covers c M x) (hw : Covers c M (x ++ w)) :
    ∃ u a v, w = u ++ a :: v ∧ ¬ Covers c M (x ++ u) ∧ Covers c M (x ++ u ++ [a]) := by
  induction w using List.reverseRecOn with
  | nil => exact (hx (by simpa using hw)).elim
  | append_singleton w a ih =>
    by_cases hc : Covers c M (x ++ w)
    · obtain ⟨u, b, v, rfl, hu⟩ := ih hc
      exact ⟨u, b, v ++ [a], by simp, hu⟩
    · exact ⟨w, a, [], rfl, hc, by simpa using hw⟩

section LastOf

variable [DecidableEq ι] {s : ι} {w : List α} {a : α}

@[simp] theorem lastOf_nil : lastOf c s [] = none := rfl

theorem lastOf_append (w w' : List α) :
    lastOf c s (w ++ w') = (lastOf c s w').or (lastOf c s w) := by
  simp [lastOf, List.getLast?_append]

theorem lastOf_concat (w : List α) (a : α) :
    lastOf c s (w ++ [a]) = if c a = s then some a else lastOf c s w := by
  by_cases h : c a = s <;> simp [lastOf, h]

theorem mem_of_lastOf (h : lastOf c s w = some a) : a ∈ w ∧ c a = s := by
  have := List.mem_of_getLast? h
  simpa using this

theorem lastOf_isSome_iff : (lastOf c s w).isSome ↔ ∃ a ∈ w, c a = s := by
  simp [lastOf, Option.isSome_iff_ne_none]

theorem lastOf_append_of_mem {w' : List α} (h : ∃ a ∈ w', c a = s) :
    lastOf c s (w ++ w') = lastOf c s w' := by
  obtain ⟨b, hb⟩ := Option.isSome_iff_exists.mp (lastOf_isSome_iff.mpr h)
  simp [lastOf_append, hb]

theorem exists_lastOf (h : Covers c M w) (hs : s ∈ M) : ∃ a, lastOf c s w = some a :=
  Option.isSome_iff_exists.mp (lastOf_isSome_iff.mpr (h s hs))

/-- When no class repeats, the order of a word does not matter for its last letters. -/
theorem lastOf_perm {w' : List α} (hp : w.Perm w') (hd : (w.map c).Nodup) :
    lastOf c s w = lastOf c s w' := by
  have hf : (w.filter (c · = s)).Perm (w'.filter (c · = s)) := hp.filter _
  unfold lastOf
  cases hw : w.filter (c · = s) with
  | nil =>
    rw [hw] at hf
    rw [List.nil_perm.mp hf]
  | cons a l =>
    cases l with
    | nil =>
      rw [hw] at hf
      rw [List.perm_singleton.mp hf.symm]
    | cons b l =>
      have hab : (a :: b :: l).Sublist w := hw ▸ List.filter_sublist
      have hn := hd.sublist (hab.map c)
      have hm : ∀ x ∈ a :: b :: l, c x = s := by
        intro x hx
        rw [← hw] at hx
        simpa using (List.mem_filter.mp hx).2
      simp [hm a (by simp), hm b (by simp)] at hn

/-- After the last letter of the first class comes a letter of the second one. -/
def Follows (c : α → ι) (s t : ι) (w : List α) : Prop :=
  ∃ u v, w = u ++ v ∧ (∃ b ∈ v, c b = t) ∧ ∀ a ∈ v, c a ≠ s

theorem rel_of_follows {R : α → α → Prop} {t : ι} {a b : α} (hp : w.Pairwise R)
    (hf : Follows c s t w) (ha : lastOf c s w = some a) (hb : lastOf c t w = some b) :
    R a b := by
  obtain ⟨u, v, rfl, ht, hs⟩ := hf
  rw [lastOf_append_of_mem ht] at hb
  obtain ⟨hma, hca⟩ := mem_of_lastOf ha
  have hau : a ∈ u := (List.mem_append.mp hma).resolve_right fun hv => hs a hv hca
  exact (List.pairwise_append.mp hp).2.2 a hau b (mem_of_lastOf hb).1

theorem rel_of_not_follows {R : α → α → Prop} {t : ι} {a b : α} (hst : s ≠ t)
    (hp : w.Pairwise R) (hf : ¬ Follows c s t w) (ha : lastOf c s w = some a)
    (hb : lastOf c t w = some b) : R b a := by
  induction w using List.reverseRecOn with
  | nil => simp at ha
  | append_singleton w x ih =>
    rw [lastOf_concat] at ha hb
    have hx : c x ≠ t ∨ c x = s := by
      by_contra hn
      obtain ⟨hxt, hxs⟩ := not_or.mp hn
      exact hf ⟨w, [x], rfl, ⟨x, by simp, not_not.mp hxt⟩, by simpa using hxs⟩
    split at ha
    · next hxs =>
      obtain rfl := Option.some.inj ha
      rw [if_neg (fun h => hst (hxs.symm.trans h))] at hb
      exact (List.pairwise_append.mp hp).2.2 b (mem_of_lastOf hb).1 x (by simp)
    · next hxs =>
      rw [if_neg (hx.resolve_right hxs)] at hb
      refine ih (List.pairwise_append.mp hp).1 ?_ ha hb
      rintro ⟨u, v, rfl, ⟨y, hy, hyt⟩, hv⟩
      refine hf ⟨u, v ++ [x], by simp, ⟨y, by simp [hy], hyt⟩, fun z hz => ?_⟩
      rcases List.mem_append.mp hz with hz | hz
      · exact hv z hz
      · exact List.mem_singleton.mp hz ▸ hxs

end LastOf

end Classes

section Windows

variable (start : α → Prop) (c : α → ι) (M : List ι)

/-- The suffix of the history that begins with its last start letter. -/
def IsWindow (h w : List α) : Prop :=
  w <:+ h ∧ ∃ a t, w = a :: t ∧ start a ∧ ∀ b ∈ t, ¬ start b

/-- The window covers the classes with the last letter and not before. -/
def Completes (h w : List α) : Prop :=
  IsWindow start h w ∧ Covers c M w ∧ ¬ Covers c M w.dropLast

instance [DecidableEq α] [DecidablePred start] : ∀ h w, Decidable (IsWindow start h w)
  | _, [] => .isFalse fun ⟨_, _, _, he, _⟩ => List.cons_ne_nil _ _ he.symm
  | h, a :: t => decidable_of_iff (a :: t <:+ h ∧ start a ∧ ∀ b ∈ t, ¬ start b) (by simp [IsWindow])

instance [DecidableEq α] [DecidableEq ι] [DecidablePred start] (h w : List α) :
    Decidable (Completes start c M h w) := inferInstanceAs (Decidable (_ ∧ _ ∧ _))

/-- The windows of a history are among its suffixes. -/
instance [DecidableEq α] [DecidableEq ι] [DecidablePred start] (h : List α) :
    Decidable (∃ w, Completes start c M h w) :=
  decidable_of_iff (∃ w ∈ h.tails, Completes start c M h w)
    ⟨fun ⟨w, _, hw⟩ => ⟨w, hw⟩, fun ⟨w, hw⟩ => ⟨w, (List.mem_tails w h).mpr hw.1.1, hw⟩⟩

variable {start c M} {h w w' : List α} {a : α}

theorem IsWindow.ne_nil (hw : IsWindow start h w) : w ≠ [] := by
  obtain ⟨_, b, t, rfl, _⟩ := hw
  exact List.cons_ne_nil b t

theorem not_isWindow_nil : ¬ IsWindow start [] w :=
  fun hw => hw.ne_nil (List.suffix_nil.mp hw.1)

theorem isWindow_concat_start (ha : start a) : IsWindow start (h ++ [a]) w ↔ w = [a] := by
  constructor
  · rintro ⟨⟨p, hp⟩, b, t, rfl, _, ht⟩
    rcases List.eq_nil_or_concat t with rfl | ⟨t', x, rfl⟩
    · have := List.append_inj_right' hp rfl
      simpa using this
    · rw [List.concat_eq_append, ← List.cons_append, ← List.append_assoc] at hp
      obtain ⟨_, hx⟩ := List.append_inj' hp rfl
      exact (ht x (by simp) (by simp_all)).elim
  · rintro rfl
    exact ⟨List.suffix_append h [a], a, [], rfl, ha, by simp⟩

theorem isWindow_concat (ha : ¬ start a) :
    IsWindow start (h ++ [a]) w ↔ ∃ w', IsWindow start h w' ∧ w = w' ++ [a] := by
  constructor
  · rintro ⟨⟨p, hp⟩, b, t, rfl, hb, ht⟩
    rcases List.eq_nil_or_concat t with rfl | ⟨t', x, rfl⟩
    · have := List.append_inj_right' hp rfl
      exact (ha (by simp_all)).elim
    · rw [List.concat_eq_append, ← List.cons_append, ← List.append_assoc] at hp
      obtain ⟨rfl, hx⟩ := List.append_inj' hp rfl
      obtain rfl : x = a := by simpa using hx
      exact ⟨b :: t', ⟨⟨p, rfl⟩, b, t', rfl, hb, fun y hy => ht y (by simp [hy])⟩, by simp⟩
  · rintro ⟨_, ⟨⟨p, rfl⟩, b, t, rfl, hb, ht⟩, rfl⟩
    refine ⟨⟨p, by simp⟩, b, t ++ [a], rfl, hb, fun y hy => ?_⟩
    rcases List.mem_append.mp hy with hy | hy
    · exact ht y hy
    · exact (List.mem_singleton.mp hy) ▸ ha

theorem IsWindow.unique (hw : IsWindow start h w) (hw' : IsWindow start h w') : w = w' := by
  induction h using List.reverseRecOn generalizing w w' with
  | nil => exact (not_isWindow_nil hw).elim
  | append_singleton h a ih =>
    by_cases ha : start a
    · rw [isWindow_concat_start ha] at hw hw'
      exact hw.trans hw'.symm
    · obtain ⟨v, hv, rfl⟩ := (isWindow_concat ha).mp hw
      obtain ⟨v', hv', rfl⟩ := (isWindow_concat ha).mp hw'
      rw [ih hv hv']

/-- Every class of a window other than that of its start letter follows the start class. -/
theorem IsWindow.follows {s t : ι} (hw : IsWindow (c · = s) h w) (hst : s ≠ t)
    (ht : ∃ b ∈ w, c b = t) : Follows c s t w := by
  obtain ⟨_, a, v, rfl, ha, hv⟩ := hw
  obtain ⟨b, hb, hbt⟩ := ht
  have hbv : b ∈ v := (List.mem_cons.mp hb).resolve_left fun he => hst (by rw [← ha, ← he, hbt])
  exact ⟨[a], v, rfl, ⟨b, hbv, hbt⟩, hv⟩

end Windows

section Greedy

variable [DecidableEq ι] (c : α → ι) (M : List ι)

/-- One letter of the greedy cut: it closes the open segment as soon as that covers. -/
def cutStep (p : List (List α) × List α) (a : α) : List (List α) × List α :=
  if Covers c M (p.2 ++ [a]) then (p.1 ++ [p.2 ++ [a]], []) else (p.1, p.2 ++ [a])

/-- The finished segments of a history and the unfinished one. -/
def cut (h : List α) : List (List α) × List α := h.foldl (cutStep c M) ([], [])

/-- The finished segments are minimal covers and the rest does not cover. -/
structure IsCut (h : List α) (segs : List (List α)) (rest : List α) : Prop where
  eq_flatten : h = segs.flatten ++ rest
  covers : ∀ w ∈ segs, Covers c M w
  minimal : ∀ w ∈ segs, ¬ Covers c M w.dropLast
  unfinished : ¬ Covers c M rest

variable {c M} {h : List α}

@[simp] theorem cut_nil : cut c M [] = ([], []) := rfl

theorem cut_concat (h : List α) (a : α) : cut c M (h ++ [a]) = cutStep c M (cut c M h) a := by
  simp [cut]

theorem isCut_cut (hM : M ≠ []) (h : List α) : IsCut c M h (cut c M h).1 (cut c M h).2 := by
  induction h using List.reverseRecOn with
  | nil => exact ⟨rfl, by simp, by simp, not_covers_nil hM⟩
  | append_singleton h a ih =>
    rw [cut_concat, cutStep]
    split
    · next hc =>
      refine ⟨by simp [← List.append_assoc, ← ih.eq_flatten], ?_, ?_, not_covers_nil hM⟩
      · intro w hw
        rcases List.mem_append.mp hw with hw | hw
        · exact ih.covers w hw
        · exact List.mem_singleton.mp hw ▸ hc
      · intro w hw
        rcases List.mem_append.mp hw with hw | hw
        · exact ih.minimal w hw
        · obtain rfl := List.mem_singleton.mp hw
          simpa using ih.unfinished
    · next hc =>
      exact ⟨by simp [← List.append_assoc, ← ih.eq_flatten], ih.covers, ih.minimal, hc⟩

theorem cut_append_of_not_covers {w : List α} :
    ¬ Covers c M ((cut c M h).2 ++ w) →
      cut c M (h ++ w) = ((cut c M h).1, (cut c M h).2 ++ w) := by
  induction w using List.reverseRecOn with
  | nil => simp
  | append_singleton w a ih =>
    intro hn
    rw [← List.append_assoc] at hn
    have hw := ih (fun hc => hn (hc.mono (List.subset_append_left _ _)))
    rw [← List.append_assoc, cut_concat, hw, cutStep, if_neg hn, List.append_assoc]

/-- The greedy cut is the only one. -/
theorem IsCut.eq_cut {segs : List (List α)} {rest : List α} (hc : IsCut c M h segs rest) :
    cut c M h = (segs, rest) := by
  suffices ∀ l : List (List α), (∀ w ∈ l, Covers c M w) → (∀ w ∈ l, ¬ Covers c M w.dropLast) →
      ∀ g, (cut c M g).2 = [] → cut c M (g ++ l.flatten) = ((cut c M g).1 ++ l, []) by
    have hs := this segs hc.covers hc.minimal [] rfl
    simp only [cut_nil, List.nil_append] at hs
    have hr := cut_append_of_not_covers (h := segs.flatten) (c := c) (M := M) (w := rest)
      (by simpa [hs] using hc.unfinished)
    rw [hc.eq_flatten, hr, hs]
    rfl
  intro l
  induction l with
  | nil =>
    intro _ _ g hg
    simp only [List.flatten_nil, List.append_nil]
    exact Prod.ext rfl hg
  | cons w l ih =>
    intro hcov hmin g hg
    have hw := hcov w List.mem_cons_self
    have hm := hmin w List.mem_cons_self
    have hne : w ≠ [] := by rintro rfl; exact hm hw
    have hd := cut_append_of_not_covers (h := g) (c := c) (M := M) (w := w.dropLast) (by simpa [hg])
    have hcut : cut c M (g ++ w) = ((cut c M g).1 ++ [w], []) := by
      conv_lhs => rw [← List.dropLast_append_getLast hne, ← List.append_assoc, cut_concat, hd]
      simp [cutStep, hg, List.dropLast_append_getLast hne, hw]
    have := ih (fun v hv => hcov v (List.mem_cons_of_mem _ hv))
      (fun v hv => hmin v (List.mem_cons_of_mem _ hv)) (g ++ w) (by rw [hcut])
    simpa [hcut] using this

/-- A history in which no class repeats is a single segment. -/
theorem cut_of_nodup (hM : M ≠ []) (hm : ∀ a ∈ h, c a ∈ M) (hd : (h.map c).Nodup) :
    cut c M h = if Covers c M h then ([h], []) else ([], h) := by
  split
  · next hc =>
    refine IsCut.eq_cut ⟨by simp, by simpa using hc, ?_, not_covers_nil hM⟩
    rintro w hw hcov
    obtain rfl := List.mem_singleton.mp hw
    rcases List.eq_nil_or_concat w with rfl | ⟨u, a, rfl⟩
    · exact not_covers_nil hM hc
    · rw [List.concat_eq_append] at hcov hd hm
      rw [List.dropLast_concat] at hcov
      obtain ⟨b, hb, hba⟩ := hcov (c a) (hm a (by simp))
      rw [List.map_append, List.nodup_append] at hd
      exact hd.2.2 (c b) (List.mem_map_of_mem hb) (c a) (by simp) hba
  · next hc => exact IsCut.eq_cut ⟨by simp, by simp, by simp, hc⟩

end Greedy

end Window
