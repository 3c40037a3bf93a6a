import Mathlib.Algebra.BigOperators.Group.Finset.Basic
import LensX.General.Blocks
import LensX.System.Samples

/-! # Reports and their histograms

With unique names and pairs `report_keys` is a bijection, so the samples of a
report are counted pair by pair. A histogram depends on its values only as a
multiset: its counter counts all of them and its buckets share them out.
-/

namespace LensX

open Bitmask Pairs Transducer Blocks

section Keys

variable {reports : List ReportConfig}

theorem reportKeys_concat (reports : List ReportConfig) (r : ReportConfig) :
    reportKeys (reports ++ [r]) =
      Function.update (reportKeys reports) (r.fromStage, r.toStage) (some r.name) := by
  simp [reportKeys]

theorem exists_of_reportKeys {p : ℤ × ℤ} {name : String}
    (h : reportKeys reports p = some name) :
    ∃ r ∈ reports, r.name = name ∧ (r.fromStage, r.toStage) = p := by
  induction reports using List.reverseRecOn with
  | nil => simp [reportKeys] at h
  | append_singleton reports r ih =>
    rw [reportKeys_concat] at h
    by_cases hp : p = (r.fromStage, r.toStage)
    · subst hp
      rw [Function.update_self, Option.some.injEq] at h
      exact ⟨r, by simp, h, rfl⟩
    · rw [Function.update_of_ne hp] at h
      obtain ⟨r', hr', h'⟩ := ih h
      exact ⟨r', List.mem_append_left _ hr', h'⟩

theorem reportKeys_of_mem (hd : (reports.map fun r => (r.fromStage, r.toStage)).Nodup)
    {r : ReportConfig} (hr : r ∈ reports) :
    reportKeys reports (r.fromStage, r.toStage) = some r.name := by
  induction reports using List.reverseRecOn with
  | nil => simp at hr
  | append_singleton reports r' ih =>
    rw [List.map_append, List.nodup_append] at hd
    rw [reportKeys_concat]
    rcases List.mem_append.mp hr with hr | hr
    · have hne : (r.fromStage, r.toStage) ≠ (r'.fromStage, r'.toStage) :=
        hd.2.2 _ (List.mem_map.mpr ⟨r, hr, rfl⟩) _ (by simp)
      rw [Function.update_of_ne hne, ih hd.1 hr]
    · obtain rfl := List.mem_singleton.mp hr
      rw [Function.update_self]

theorem reportKeys_eq_iff (hn : (reports.map (·.name)).Nodup)
    (hd : (reports.map fun r => (r.fromStage, r.toStage)).Nodup) {r : ReportConfig}
    (hr : r ∈ reports) (p : ℤ × ℤ) :
    reportKeys reports p = some r.name ↔ p = (r.fromStage, r.toStage) := by
  constructor
  · intro hk
    obtain ⟨r', hr', hname, rfl⟩ := exists_of_reportKeys hk
    obtain rfl := List.inj_on_of_nodup_map hn hr' hr hname
    rfl
  · rintro rfl
    exact reportKeys_of_mem hd hr

end Keys

section Count

/-- The samples with the name of a report among those of pairs without repetition. -/
theorem countP_filterMap {name : String} {l : List (ℤ × ℤ)} (hd : l.Nodup)
    {f : ℤ × ℤ → Option Sample} {a : ℤ × ℤ}
    (hf : ∀ p ∈ l, (∃ x, f p = some x ∧ x.report = name) ↔ p = a) :
    (l.filterMap f).countP (·.report = name) = if a ∈ l then 1 else 0 := by
  have hc : (l.filterMap f).countP (·.report = name) = l.count a := by
    rw [List.countP_filterMap, List.count]
    apply List.countP_congr
    intro p hp
    rw [beq_iff_eq, ← hf p hp]
    cases f p <;> simp
  rw [hc]
  split
  · next hm => exact List.count_eq_one_of_mem hd hm
  · next hm => exact List.count_eq_zero.mpr hm

theorem countP_flatMap_const {α β : Type*} {l : List α} {g : α → List β} {q : β → Bool} {n : ℕ}
    (hn : ∀ a ∈ l, (g a).countP q = n) : (l.flatMap g).countP q = l.length * n := by
  induction l with
  | nil => simp
  | cons a l ih =>
    rw [List.flatMap_cons, List.countP_append, hn a (by simp),
      ih fun b hb => hn b (List.mem_cons_of_mem _ hb), List.length_cons, Nat.succ_mul, Nat.add_comm]

/-- A list is shared out among the values of a function. -/
theorem sum_countP {α κ : Type*} [DecidableEq κ] {f : α → κ} {s : Finset κ} {l : List α}
    (h : ∀ a ∈ l, f a ∈ s) : ∑ k ∈ s, l.countP (f · = k) = l.length := by
  have hcount : ∀ k, l.countP (f · = k) = Multiset.count k (l.map f : Multiset κ) := by
    intro k
    rw [Multiset.coe_count, List.count, List.countP_map]
    exact List.countP_congr fun a _ => by simp
  simp only [hcount]
  rw [Multiset.sum_count_eq_card (by simpa using h), Multiset.coe_card, List.length_map]

variable {keys : ReportKeys} {name : String} {a b : ℤ} (hk : ∀ p, keys p = some name ↔ p = (a, b))
include hk

/-- The deltas of a group give one drained sample if the list has the stages in their order. -/
theorem countP_drainSample {stages : List ℤ} (hd : stages.Nodup) (r : Record) :
    ((pairDeltas stages r).filterMap (drainSample keys)).countP (·.report = name) =
      if [a, b].Sublist stages then 1 else 0 := by
  rw [pairDeltas, List.filterMap_map, countP_filterMap (a := (a, b)) (nodup_pairs hd) fun p _ => ?_]
  · simp only [mem_pairs]
  · rw [← hk]
    cases hp : keys p <;> simp [drainSample, hp]

/-- A part without the stages of a report drains nothing for it. -/
theorem filter_drainSample_eq_nil {p : Part} (hp : (a, b) ∉ pairs p.stages) (evs : List RawEvent) :
    ((p.pendingAfter evs).filterMap (drainSample keys)).filter (·.report = name) = [] := by
  rw [List.filter_eq_nil_iff]
  intro x hx hname
  obtain ⟨d, hd, hx⟩ := List.mem_filterMap.mp hx
  obtain ⟨n, hn, rfl⟩ := Option.map_eq_some_iff.mp hx
  obtain rfl : n = name := of_decide_eq_true hname
  exact hp ((hk _).mp hn ▸ Part.stages_of_mem_pendingAfter hd)

/-- The drained samples of a report come from the only part with its stages. -/
theorem filter_drained {ps : List Part} {i : ℕ} {p : Part} (hi : ps[i]? = some p)
    (hothers : ∀ (j : ℕ) q, ps[j]? = some q → j ≠ i → (a, b) ∉ pairs q.stages)
    (evs : List RawEvent) :
    ((drained ps evs).filterMap (drainSample keys)).filter (·.report = name) =
      ((p.pendingAfter evs).filterMap (drainSample keys)).filter (·.report = name) := by
  rw [drained, List.filterMap_flatMap, List.filter_flatMap, flatMap_eq_getElem? hi]
  exact fun j q hq hj => filter_drainSample_eq_nil hk (hothers j q hq hj) evs

end Count

/-- Every sample is recorded by one of three routes. -/
theorem countP_routes (l : List Sample) (q : Sample → Bool) :
    l.countP q = (l.filter (·.route = .seq)).countP q + (l.filter (·.route = .fifo)).countP q +
      (l.filter (·.route = .drain)).countP q := by
  induction l with
  | nil => rfl
  | cons x l ih =>
    cases hx : x.route <;> simp [hx, List.countP_cons, ih] <;> omega

namespace Hist

/-- The number of values in the buckets. -/
def total (h : Hist) : ℕ := ∑ i ∈ Finset.range bucketCount, (h.buckets i).toNat

theorem bucket_lt (v : UInt64) : bucket v < bucketCount := by
  unfold bucket
  simp only
  split <;> simp_all [bucketCount]

/-- The counters of a histogram that recorded a list of values. -/
theorem foldl_record (vals : List UInt64) :
    vals.foldl record empty =
      ⟨fun i => UInt64.ofNat (vals.countP (bucket · = i)), Int32.ofNat vals.length⟩ := by
  induction vals using List.reverseRecOn with
  | nil => rfl
  | append_singleton vals v ih =>
    rw [List.foldl_append, ih, List.foldl_cons, List.foldl_nil, record]
    congr 1
    · ext1 i
      rw [Function.update_apply, List.countP_append, List.countP_singleton]
      by_cases hi : i = bucket v
      · simp [hi]
      · simp [hi, Ne.symm hi]
    · simp

theorem total_foldl_record {vals : List UInt64} (h : vals.length < 2 ^ 64) :
    (vals.foldl record empty).total = vals.length := by
  rw [total, foldl_record, ← sum_countP fun v _ => Finset.mem_range.mpr (bucket_lt v)]
  refine Finset.sum_congr rfl fun i _ => ?_
  exact UInt64.toNat_ofNat_of_lt' (List.countP_le_length.trans_lt h)

theorem count_foldl_record {vals : List UInt64} (h : vals.length < 2 ^ 31) :
    (vals.foldl record empty).count.toInt = vals.length := by
  rw [foldl_record]
  exact Int32.toInt_ofNat_of_lt h

end Hist

theorem World.histOf_getD (vals : List UInt64) :
    (histOf vals).getD .empty = vals.foldl Hist.record .empty := by
  unfold histOf
  by_cases h : vals = [] <;> simp [h]

theorem World.histOf_perm {vals vals' : List UInt64} (h : vals.Perm vals') :
    histOf vals = histOf vals' := by
  have hnil : vals = [] ↔ vals' = [] := ⟨fun he => (he ▸ h).nil_eq.symm, fun he => (he ▸ h).eq_nil⟩
  have hfold : vals.foldl Hist.record .empty = vals'.foldl Hist.record .empty := by
    rw [Hist.foldl_record, Hist.foldl_record, h.length_eq]
    congr
    ext1 i
    rw [h.countP_eq]
  rw [histOf, histOf, hfold]
  simp only [hnil]

end LensX
