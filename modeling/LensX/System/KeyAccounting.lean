import LensX.System.Reports

/-! # Accounting of the samples of key matchers

Without seq matchers a run records nothing before the final drain, and the
drain hands every finished segment of every key to each of its reports once.
-/

namespace LensX

open Bitmask Pairs Transducer Window

/-- A configuration without seq matchers. Two key matchers have at most one stage in common, and
report names and reported pairs are unique. -/
structure Config.KeysOnly (cfg : Config) : Prop where
  noSeq : ∀ mc ∈ cfg.matchers, mc.mode ≠ "seq"
  inRange : ∀ mc ∈ cfg.matchers, mc.mode = "key" → ∀ s ∈ mc.stages, InRange s
  nodup : ∀ mc ∈ cfg.matchers, mc.mode = "key" → mc.stages.Nodup
  separate : cfg.matchers.Pairwise fun a b => a.mode = "key" → b.mode = "key" →
    ∀ s ∈ a.stages, ∀ t ∈ a.stages, s ≠ t → s ∈ b.stages → t ∉ b.stages
  names : (cfg.reports.map (·.name)).Nodup
  pairs : (cfg.reports.map fun r => (r.fromStage, r.toStage)).Nodup

/-- The number of finished segments of all keys that occur. -/
def segmentCount (stages : List ℤ) (evs : List RawEvent) : ℕ :=
  ∑ k ∈ (evs.map (·.key)).toFinset, (keyCut stages k evs).1.length

/-- The groups of a key matcher are the finished segments of its keys. -/
theorem length_emits_keysStep {stages : List ℤ} (hr : ∀ s ∈ stages, InRange s)
    {evs : List RawEvent} (hlt : ∀ e ∈ evs, e.stage < 64) :
    (emits (keysStep stages) (fun _ => none) evs).length = segmentCount stages evs := by
  have hmem : ∀ o ∈ emits (keysStep stages) (fun _ => none) evs,
      o.1.key ∈ (evs.map (·.key)).toFinset := by
    rintro ⟨e, r⟩ ho
    obtain ⟨pre, post, rfl, _⟩ := (mem_emits _ _).mp ho
    simp
  rw [← sum_countP hmem, segmentCount]
  refine Finset.sum_congr rfl fun k _ => ?_
  have hk := congrArg List.length (emits_keysStep hr hlt k)
  rwa [List.length_map, List.length_map, ← List.countP_eq_length_filter] at hk

section Run

variable {cfg : Config} (h : cfg.KeysOnly) (order : IterationOrder) (csvOpen : Bool)
  {evs : List RawEvent}
include h

/-- All parts are key matchers of the configuration. -/
theorem exists_key_of_parts {i : ℕ} {p : Part} (hi : (parts cfg order)[i]? = some p) :
    (baseParts cfg.matchers)[i]? = some p ∧ ∃ mc ∈ cfg.matchers, mc.mode = "key" ∧
      Part.of mc = some p ∧ p = .key mc.id mc.stages := by
  rw [getElem?_parts] at hi
  obtain ⟨b, hb, rfl⟩ := Option.map_eq_some_iff.mp hi
  obtain ⟨mc, hm, hof⟩ := exists_of_mem_baseParts (List.mem_of_getElem? hb)
  have hmode := (part_of_stages hof).1.resolve_left (h.noSeq mc hm)
  obtain rfl := Option.some.inj ((part_of_key hmode).symm.trans hof)
  exact ⟨hb, mc, hm, hmode, hof, rfl⟩

theorem calls_eq_nil (evs : List RawEvent) : calls (parts cfg order) evs = [] := by
  rw [calls, List.flatMap_eq_nil_iff]
  rintro ⟨pre, e⟩ _
  rw [callsAt, List.flatMap_eq_nil_iff]
  intro p hp
  obtain ⟨i, hi⟩ := List.mem_iff_getElem?.mp hp
  obtain ⟨_, mc, _, _, _, rfl⟩ := exists_key_of_parts h order hi
  rfl

/-- A run records the drained samples and nothing else. -/
theorem samples_eq_drainSamples (evs : List RawEvent) :
    (run cfg order csvOpen evs).world.samples = drainSamples cfg order evs := by
  rw [run_world_eq, World.addAll_samples, beforeDrain, calls_eq_nil h order]
  rfl

/-- The histogram of a report holds as many values as the report has drained samples. -/
theorem exists_hist {name : String}
    (hlim : (run cfg order csvOpen evs).world.samples.countP (·.report = name) < 2 ^ 31) :
    ∃ vals : List UInt64, vals.length = (drainSamples cfg order evs).countP (·.report = name) ∧
      vals.length < 2 ^ 31 ∧
      (run cfg order csvOpen evs).world.hists name = World.histOf vals := by
  have hcons := (run_consistent (fun mc hm hs => absurd hs (h.noSeq mc hm)) order csvOpen evs).hists
    name
  rw [samples_eq_drainSamples h] at hlim hcons
  refine ⟨_, ?_, ?_, hcons⟩
  · rw [List.length_map, List.countP_eq_length_filter]
  · rwa [List.length_map, ← List.countP_eq_length_filter]

variable {mc : MatcherConfig} (hmc : mc ∈ cfg.matchers) (hmode : mc.mode = "key")
  (hlt : ∀ e ∈ evs, e.stage < 64) {r : ReportConfig} (hr : r ∈ cfg.reports)
include hr

include hmc hmode hlt in
/-- A report with its stages in the order of a key matcher gets one sample for each segment. -/
theorem countP_drainSamples (hsub : [r.fromStage, r.toStage].Sublist mc.stages) :
    (drainSamples cfg order evs).countP (·.report = r.name) = segmentCount mc.stages evs := by
  obtain ⟨i, hi, hothers⟩ := exists_position h.separate hmc (part_of_key hmode)
  have hpart : (parts cfg order)[i]? = some (.key mc.id mc.stages) := by
    rw [getElem?_parts, hi]
    rfl
  have hk := reportKeys_eq_iff h.names h.pairs hr
  obtain ⟨hfrom, hto⟩ := mem_of_mem_pairs (mem_pairs.mpr hsub)
  have hne : r.fromStage ≠ r.toStage := by
    have hd := (h.nodup mc hmc hmode).sublist hsub
    simpa using hd
  have hother : ∀ (j : ℕ) q, (parts cfg order)[j]? = some q → j ≠ i →
      (r.fromStage, r.toStage) ∉ pairs q.stages := by
    intro j q hq hj hpair
    obtain ⟨hbase, _⟩ := exists_key_of_parts h order hq
    obtain ⟨mc', hm', hof, hR⟩ := hothers j q hbase hj
    obtain ⟨hmode', hst⟩ := part_of_stages hof
    have hkey := hmode'.resolve_left (h.noSeq mc' hm')
    obtain ⟨hfrom', hto'⟩ := mem_of_mem_pairs hpair
    rw [hst] at hfrom' hto'
    rcases hR with hR | hR
    · exact hR hmode hkey _ hfrom _ hto hne hfrom' hto'
    · exact hR hkey hmode _ hfrom' _ hto' hne hfrom hto
  rw [List.countP_eq_length_filter, drainSamples, filter_drained hk hpart hother,
    ← List.countP_eq_length_filter, Part.pendingAfter, KeyMatcher.feedAll_new,
    List.filterMap_flatMap, countP_flatMap_const (n := 1), Nat.mul_one,
    length_emits_keysStep (h.inRange mc hmc hmode) hlt]
  intro o _
  rw [countP_drainSample hk (h.nodup mc hmc hmode), if_pos hsub]

/-- A report whose stages no key matcher lists in their order gets no sample. -/
theorem countP_drainSamples_eq_zero
    (hno : ∀ mc ∈ cfg.matchers, mc.mode = "key" →
      ¬ [r.fromStage, r.toStage].Sublist mc.stages) :
    (drainSamples cfg order evs).countP (·.report = r.name) = 0 := by
  have hk := reportKeys_eq_iff h.names h.pairs hr
  rw [List.countP_eq_length_filter, drainSamples, drained, List.filterMap_flatMap,
    List.filter_flatMap, List.length_eq_zero_iff, List.flatMap_eq_nil_iff]
  intro p hp
  obtain ⟨i, hi⟩ := List.mem_iff_getElem?.mp hp
  obtain ⟨_, mc, hm, hmode, _, rfl⟩ := exists_key_of_parts h order hi
  have hpair : (r.fromStage, r.toStage) ∉ pairs (Part.key mc.id mc.stages).stages :=
    fun hpair => hno mc hm hmode (mem_pairs.mp hpair)
  exact filter_drainSample_eq_nil hk hpair evs

end Run

/-- For a report whose stages a key matcher lists in their order, the counter and the buckets of
the histogram both count the finished segments of all keys. Every other report has no histogram. -/
theorem key_samples_accounted {cfg : Config} (h : cfg.KeysOnly) (order : IterationOrder)
    (csvOpen : Bool) (evs : List RawEvent) (hlt : ∀ e ∈ evs, e.stage < 64)
    (hlim : ∀ r ∈ cfg.reports,
      (run cfg order csvOpen evs).world.samples.countP (·.report = r.name) < 2 ^ 31) :
    let hists := (run cfg order csvOpen evs).world.hists
    (∀ mc ∈ cfg.matchers, mc.mode = "key" →
      ∀ r ∈ cfg.reports, [r.fromStage, r.toStage].Sublist mc.stages →
        ((hists r.name).getD .empty).count.toInt = segmentCount mc.stages evs ∧
          ((hists r.name).getD .empty).total = segmentCount mc.stages evs) ∧
    ∀ r ∈ cfg.reports, (∀ mc ∈ cfg.matchers, mc.mode = "key" →
      ¬ [r.fromStage, r.toStage].Sublist mc.stages) → hists r.name = none := by
  intro hists
  constructor
  · intro mc hmc hmode r hr hsub
    obtain ⟨vals, hlen, hlt31, hhist⟩ := exists_hist h order csvOpen (hlim r hr)
    rw [countP_drainSamples h order hmc hmode hlt hr hsub] at hlen
    have hget : (hists r.name).getD .empty = vals.foldl Hist.record .empty := by
      rw [show hists r.name = World.histOf vals from hhist, World.histOf_getD]
    rw [hget, Hist.count_foldl_record hlt31, Hist.total_foldl_record (by omega), hlen]
    exact ⟨rfl, rfl⟩
  · intro r hr hno
    obtain ⟨vals, hlen, _, hhist⟩ := exists_hist h order csvOpen (hlim r hr)
    rw [countP_drainSamples_eq_zero h order hr hno] at hlen
    obtain rfl := List.length_eq_zero_iff.mp hlen
    exact hhist

/-- Two interleaved requests; the second one also repeats its first stage. -/
theorem key_samples_accounted_pair :
    let cfg : Config := ⟨"nebulaX", "", [], [⟨"io_key", [0, 1], "key", 4096⟩],
      [⟨"dispatch", 0, 1⟩, ⟨"back", 1, 0⟩]⟩
    let evs : List RawEvent :=
      [⟨10, 7, 0, 5⟩, ⟨12, 7, 0, 6⟩, ⟨19, 8, 1, 5⟩, ⟨20, 7, 0, 6⟩, ⟨25, 8, 1, 6⟩]
    let hists := (run cfg default false evs).world.hists
    segmentCount [0, 1] evs = 2 ∧ ((hists "dispatch").getD .empty).count.toInt = 2 ∧
      ((hists "dispatch").getD .empty).total = 2 ∧ hists "back" = none := by
  intro cfg evs hists
  have hseg : segmentCount [0, 1] evs = 2 := by decide
  obtain ⟨hall, hnone⟩ := key_samples_accounted (show cfg.KeysOnly by constructor <;> decide)
    default false evs (by decide) (by decide)
  obtain ⟨hcount, htotal⟩ := hall _ (List.mem_singleton_self _) rfl ⟨"dispatch", 0, 1⟩ (by decide)
    (by decide)
  rw [hseg] at hcount htotal
  exact ⟨hseg, hcount, htotal, hnone ⟨"back", 1, 0⟩ (by decide) (by decide)⟩

end LensX
