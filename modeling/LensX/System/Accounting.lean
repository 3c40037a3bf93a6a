import LensX.System.Reports

/-! # Accounting of the samples of a seq matcher

A completed group reaches the histogram of a report twice: through the callback
of the pairs and, when the stage list has the report's stages in their order,
through the final drain.
-/

namespace LensX

open Bitmask Pairs Transducer Window Blocks

/-- Some slot takes in a block of events that starts with the first stage, has no other first
stage and covers the stage list. -/
def HasGroup (stages : List ℤ) (evs : List RawEvent) : Prop :=
  ∃ k x t, x :: t <:+: slotHistory stages k evs ∧ Starts stages x ∧ (∀ y ∈ t, ¬ Starts stages y) ∧
    Covers RawEvent.stageNo stages (x :: t)

theorem prefix_slotHistory (stages : List ℤ) (k : UInt32) {pre evs : List RawEvent}
    (h : pre <+: evs) : slotHistory stages k pre <+: slotHistory stages k evs := h.filter _

section Occurrence

variable {stages : List ℤ} (hr : ∀ s ∈ stages, InRange s) {evs : List RawEvent}
  (hlt : ∀ e ∈ evs, e.stage < 64)
include hr hlt

theorem hasGroup_of_mem_emits {o : RawEvent × Record}
    (ho : o ∈ emits (slotsStep stages) (fun _ => .zero) evs) : HasGroup stages evs := by
  obtain ⟨e, r⟩ := o
  obtain ⟨pre, post, rfl, hout⟩ := (mem_emits _ _).mp ho
  have hpre : pre ++ [e] <+: pre ++ e :: post := ⟨post, by simp⟩
  obtain ⟨_, w, ⟨⟨hsuf, x, t, rfl, hx, ht⟩, hc, _⟩, _⟩ :=
    completes_of_slotsStep hr (fun y hy => hlt y (hpre.subset hy)) hout
  exact ⟨_, x, t, hsuf.isInfix.trans (prefix_slotHistory stages _ hpre).isInfix, hx, ht, hc⟩

theorem emits_ne_nil_of_hasGroup (h : HasGroup stages evs) (hne : stages ≠ []) :
    emits (slotsStep stages) (fun _ => .zero) evs ≠ [] := by
  obtain ⟨k, x, t, ⟨a, b, hab⟩, hx, ht, hc⟩ := h
  obtain ⟨u, e, v, huv, hnu, hue⟩ := exists_first_cover (x := []) (not_covers_nil hne) hc
  have hhist : slotHistory stages k evs = (a ++ u) ++ e :: (v ++ b) := by
    rw [← hab, huv]
    simp
  obtain ⟨pre, post, rfl, hpre, he⟩ := split_filter hhist
  obtain ⟨hes, rfl⟩ := of_decide_eq_true he
  have hpost : pre ++ [e] <+: pre ++ e :: post := ⟨post, by simp⟩
  have hwin : IsWindow (Starts stages) (a ++ u ++ [e]) (u ++ [e]) := by
    refine ⟨⟨a, by simp⟩, ?_⟩
    cases u with
    | nil =>
      obtain ⟨rfl, _⟩ := List.cons.inj huv
      exact ⟨x, [], rfl, hx, by simp⟩
    | cons y u =>
      obtain ⟨rfl, rfl⟩ := List.cons.inj huv
      refine ⟨x, u ++ [e], rfl, hx, fun z hz => ht z ?_⟩
      rcases List.mem_append.mp hz with hz | hz <;> simp_all
  have hw : CompletesGroup stages (slotHistory stages (SeqMatcher.tidHash e.tid) (pre ++ [e]))
      (u ++ [e]) := by
    rw [slotHistory_concat hes rfl, slotHistory, hpre]
    exact ⟨hwin, hue, by simpa using hnu⟩
  obtain ⟨r, hout, _⟩ := slotsStep_of_completes hr (fun y hy => hlt y (hpost.subset hy)) hes hw
  exact List.ne_nil_of_mem ((mem_emits _ _).mpr ⟨pre, post, rfl, hout⟩)

/-- A matcher completes a group exactly when the events of some slot hold one. -/
theorem groups_eq_nil_iff (id : String) (hne : stages ≠ []) :
    groups id stages evs = [] ↔ ¬ HasGroup stages evs := by
  rw [groups_eq, List.map_eq_nil_iff]
  constructor
  · exact fun hnil h => emits_ne_nil_of_hasGroup hr hlt h hne hnil
  · intro hno
    by_contra hn
    obtain ⟨o, ho⟩ := List.exists_mem_of_ne_nil _ hn
    exact hno (hasGroup_of_mem_emits hr hlt ho)

end Occurrence

/-- A configuration whose matchers of events have no stage in common and whose ids, report names
and reported pairs are unique. -/
structure Config.Separate (cfg : Config) : Prop where
  inRange : ∀ mc ∈ cfg.matchers, mc.mode = "seq" → ∀ s ∈ mc.stages, InRange s
  nodup : ∀ mc ∈ cfg.matchers, mc.mode = "seq" → mc.stages.Nodup
  disjoint : cfg.matchers.Pairwise fun a b => a.mode = "seq" ∨ a.mode = "key" →
    b.mode = "seq" ∨ b.mode = "key" → ∀ s ∈ a.stages, s ∉ b.stages
  ids : (cfg.matchers.map (·.id)).Nodup
  names : (cfg.reports.map (·.name)).Nodup
  pairs : (cfg.reports.map fun r => (r.fromStage, r.toStage)).Nodup

/-- A seq matcher has a position, and no other part has a stage of it. -/
theorem exists_separate_position {cfg : Config} (h : cfg.Separate) {mc : MatcherConfig}
    (hmc : mc ∈ cfg.matchers) (hmode : mc.mode = "seq") :
    ∃ i : ℕ, (baseParts cfg.matchers)[i]? = some (.seq mc.id mc.stages []) ∧
      ∀ (j : ℕ) p, (baseParts cfg.matchers)[j]? = some p → j ≠ i →
        ∀ s ∈ mc.stages, s ∉ p.stages := by
  obtain ⟨i, hi, hothers⟩ := exists_position h.disjoint hmc (part_of_seq hmode)
  refine ⟨i, hi, fun j p hp hj s hs hsp => ?_⟩
  obtain ⟨mc', _, hof, hR⟩ := hothers j p hp hj
  obtain ⟨hmode', hst⟩ := part_of_stages hof
  rcases hR with hR | hR
  · exact hR (Or.inl hmode) hmode' s hs (hst ▸ hsp)
  · exact hR hmode' (Or.inl hmode) s (hst ▸ hsp) hs

section Count

variable {cfg : Config} (h : cfg.Separate) {r : ReportConfig} (hr : r ∈ cfg.reports)

theorem nodup_maskStages (m : UInt64) : (maskStages m).Pairwise (· < ·) := by
  refine List.Pairwise.filter _ (List.pairwise_map.mpr ?_)
  exact List.pairwise_lt_range.imp fun hab => Int.ofNat_lt.mpr hab

include h hr

/-- The callback of the pairs records one sample for a report with both stages in the list. -/
theorem countP_pairSamples (hft : r.fromStage < r.toStage) {stages : List ℤ}
    (hs : ∀ s ∈ stages, InRange s) (rec₀ : Record) :
    (pairSamples (reportKeys cfg.reports) (snapshotOf stages rec₀)).countP (·.report = r.name) =
      if r.fromStage ∈ stages ∧ r.toStage ∈ stages then 1 else 0 := by
  have hsorted := nodup_maskStages (snapshotOf stages rec₀).stages
  have hmem : ∀ t, t ∈ maskStages (snapshotOf stages rec₀).stages ↔ t ∈ stages := by
    intro t
    rw [mem_maskStages]
    change InRange t ∧ Has (ofList stages) t ↔ _
    constructor
    · exact fun ⟨ht, hm⟩ => (has_ofList hs ht).mp hm
    · exact fun ht => ⟨hs t ht, (has_ofList hs (hs t ht)).mpr ht⟩
  have hassigned := assigned_snapshotOf hs rec₀
  rw [pairSamples, countP_filterMap (a := (r.fromStage, r.toStage)) (nodup_pairs
    (hsorted.imp ne_of_lt)) fun p hp => ?_]
  · simp only [mem_pairs_of_sorted hsorted, hmem, hft, and_true]
  · rw [← reportKeys_eq_iff h.names h.pairs hr]
    obtain ⟨h₁, h₂⟩ := mem_of_mem_pairs hp
    obtain ⟨x, hx⟩ := hassigned _ (mem_maskStages.mp h₁).1 (mem_maskStages.mp h₁).2
    obtain ⟨y, hy⟩ := hassigned _ (mem_maskStages.mp h₂).1 (mem_maskStages.mp h₂).2
    cases hk : reportKeys cfg.reports p <;> simp [pairSample, hk, hx, hy]

end Count

/-- The snapshots that a matcher completes. -/
theorem groups_eq_completions (id : String) (stages : List ℤ) (evs : List RawEvent) :
    (groups id stages evs).map (·.2) =
      (prefixes evs).flatMap fun p => (completion stages p.1 p.2).toList := by
  rw [groups_eq, List.map_map, emits_eq_prefixes, List.map_flatMap]
  refine List.flatMap_congr fun p _ => ?_
  unfold completion
  cases (slotsStep stages (slotsAfter stages p.1) p.2).2 <;> rfl

theorem length_groups (id : String) (stages : List ℤ) (evs : List RawEvent) :
    (groups id stages evs).length = (emits (slotsStep stages) (fun _ => .zero) evs).length := by
  rw [groups_eq, List.length_map]

/-- The calls of a seq part whose only callback of pairs is the first one. -/
theorem flatMap_seqSamples_callsAt (keys : ReportKeys) (pre : List RawEvent) (e : RawEvent)
    (id : String) (stages : List ℤ) {hooks : List Hook} (hh : ∀ k ∈ hooks, k ≠ .pairs) :
    ((Part.seq id stages (.pairs :: hooks)).callsAt pre e).flatMap (Call.seqSamples keys) =
      (completion stages pre e).toList.flatMap (pairSamples keys) := by
  rw [Part.callsAt, List.flatMap_assoc]
  refine List.flatMap_congr fun s _ => ?_
  rw [List.flatMap_map, List.flatMap_cons]
  have hnil : hooks.flatMap (fun k => Call.seqSamples keys (k, s)) = [] := by
    rw [List.flatMap_eq_nil_iff]
    intro k hk
    cases k with
    | pairs => exact absurd rfl (hh _ hk)
    | push r => rfl
    | pop r => rfl
  rw [hnil, List.append_nil]
  rfl

section Total

variable {cfg : Config} (h : cfg.Separate) (order : IterationOrder) (csvOpen : Bool)
  {mc : MatcherConfig} (hmc : mc ∈ cfg.matchers) (hmode : mc.mode = "seq") {r : ReportConfig}
  (hr : r ∈ cfg.reports) (hfrom : r.fromStage ∈ mc.stages) (hto : r.toStage ∈ mc.stages)
  (evs : List RawEvent)
include h hmc hmode hr hfrom hto

omit hr in
/-- The seq part of the matcher, with its hooks. -/
theorem exists_part : ∃ (i : ℕ) (hooks : List Hook),
    (parts cfg order)[i]? = some (.seq mc.id mc.stages (.pairs :: hooks)) ∧
      (∀ k ∈ hooks, k ≠ .pairs) ∧
      (∀ (j : ℕ) p, (parts cfg order)[j]? = some p → j ≠ i → ∀ s ∈ mc.stages, s ∉ p.stages) ∧
      connection (baseParts cfg.matchers) (seqEntries cfg order) r = none := by
  obtain ⟨i, hi, hothers⟩ := exists_separate_position h hmc hmode
  have hinv := seqMapInv_baseWiring cfg.matchers
  have hids : ((cfg.matchers.filter (·.mode = "seq")).map (·.id)).Nodup :=
    h.ids.sublist (List.filter_sublist.map _)
  have hperm : ((seqEntries cfg order).map (·.2)).Perm
      ((baseWiring cfg.matchers).seqMap.map (·.2)) :=
    (order.perm _).map _
  have hpairs := hooksAt_pairs (hperm.nodup_iff.mpr hinv.nodup)
    (hperm.mem_iff.mpr (List.mem_map.mpr ⟨_, hinv.total hids i _ _ _ hi, rfl⟩))
  refine ⟨i, hooksAt (cfg.reports.flatMap
    (connectHooks (baseParts cfg.matchers) (seqEntries cfg order))) i, ?_, ?_, ?_, ?_⟩
  · rw [getElem?_parts, hi, registrations, hooksAt_append, hpairs]
    rfl
  · intro k hk
    obtain ⟨r', _, p, q, _, ⟨rfl, _⟩ | ⟨rfl, _⟩⟩ := mem_hooksAt_connect hk <;> simp
  · intro j p hp hj s hs
    rw [getElem?_parts] at hp
    obtain ⟨b, hb, rfl⟩ := Option.map_eq_some_iff.mp hp
    have := hothers j b hb hj s hs
    cases b <;> exact this
  · have hfound : ∀ t ∈ mc.stages, ∀ p,
        findPart (baseParts cfg.matchers) (seqEntries cfg order) t = some p → p = i := by
      intro t ht p hp
      obtain ⟨mc', _, _, hmem, hpart⟩ := exists_owner h.inRange (h.inRange mc hmc hmode t ht) hp
      by_contra hne
      exact hothers p _ hpart hne t ht hmem
    refine Option.eq_none_iff_forall_ne_some.mpr ?_
    rintro ⟨p, q⟩ hcon
    obtain ⟨hp, hq, hne⟩ := connection_eq_some_iff.mp hcon
    exact hne ((hfound _ hfrom p hp).trans (hfound _ hto q hq).symm)

/-- The samples of the report at an event are those of the matcher's own completion. -/
theorem seqSamples_callsAt (hft : r.fromStage < r.toStage) (pre : List RawEvent) (e : RawEvent) :
    ((callsAt (parts cfg order) pre e).flatMap
      (Call.seqSamples (reportKeys cfg.reports))).filter (·.report = r.name) =
      ((completion mc.stages pre e).toList.flatMap
        (pairSamples (reportKeys cfg.reports))).filter (·.report = r.name) := by
  obtain ⟨i, hooks, hi, hh, hothers, _⟩ := exists_part h order hmc hmode hfrom hto
  rw [callsAt, List.flatMap_assoc, List.filter_flatMap, flatMap_eq_getElem? hi,
    flatMap_seqSamples_callsAt _ _ _ _ _ hh]
  intro j p hp hj
  rw [List.filter_eq_nil_iff]
  intro x hx hname
  obtain ⟨c, hc, hx⟩ := List.mem_flatMap.mp hx
  cases p with
  | key id stages => exact absurd hc List.not_mem_nil
  | seq id stages hooks' =>
    obtain ⟨s, hs, hc⟩ := List.mem_flatMap.mp hc
    obtain ⟨k, _, rfl⟩ := List.mem_map.mp hc
    obtain ⟨rec₀, _, rfl⟩ := Option.map_eq_some_iff.mp (Option.mem_toList.mp hs)
    obtain ⟨mc', hm', hmode', _, rfl⟩ := mem_parts_seq (List.mem_of_getElem? hp)
    have hcount := countP_pairSamples h hr hft (h.inRange mc' hm' hmode') rec₀
    rw [if_neg fun hmem => hothers j _ hp hj _ hfrom hmem.1, List.countP_eq_zero] at hcount
    cases k with
    | pairs => exact hcount x hx hname
    | push r' => exact absurd hx List.not_mem_nil
    | pop r' => exact absurd hx List.not_mem_nil

theorem countP_seqRoute (hft : r.fromStage < r.toStage) :
    ((run cfg order csvOpen evs).world.samples.filter (·.route = .seq)).countP (·.report = r.name) =
      (groups mc.id mc.stages evs).length := by
  have hall : ((calls (parts cfg order) evs).flatMap
      (Call.seqSamples (reportKeys cfg.reports))).countP (·.report = r.name) =
      (((groups mc.id mc.stages evs).map (·.2)).flatMap
        (pairSamples (reportKeys cfg.reports))).countP (·.report = r.name) := by
    rw [groups_eq_completions, List.countP_eq_length_filter, List.countP_eq_length_filter, calls,
      List.flatMap_assoc, List.flatMap_assoc, List.filter_flatMap, List.filter_flatMap]
    congr 1
    exact List.flatMap_congr fun p _ =>
      seqSamples_callsAt h order hmc hmode hr hfrom hto hft p.1 p.2
  rw [run_seqSamples h.inRange, hall, countP_flatMap_const (n := 1) fun s hs => ?_, List.length_map,
    Nat.mul_one]
  rw [groups_eq, List.map_map] at hs
  obtain ⟨o, _, rfl⟩ := List.mem_map.mp hs
  change (pairSamples _ (snapshotOf mc.stages o.2)).countP _ = 1
  rw [countP_pairSamples h hr hft (h.inRange mc hmc hmode), if_pos ⟨hfrom, hto⟩]

theorem countP_fifoRoute :
    ((run cfg order csvOpen evs).world.samples.filter (·.route = .fifo)).countP
      (·.report = r.name) = 0 := by
  obtain ⟨_, _, _, _, _, hcon⟩ := exists_part h order hmc hmode hfrom hto
  rw [List.countP_eq_zero]
  intro x hx hname
  obtain ⟨hx, hroute⟩ := List.mem_filter.mp hx
  obtain ⟨r', id, stages, hooks, hp, hh, hx'⟩ :=
    run_fifo_report h.inRange order csvOpen evs hx (of_decide_eq_true hroute)
  obtain ⟨j, hj⟩ := List.mem_iff_getElem?.mp hp
  rcases hook_of_parts hj hh with hbad | ⟨r'', hr'', p, q, hcon', ⟨hbad, _⟩ | ⟨hpop, _⟩⟩
  · exact Hook.noConfusion hbad
  · exact Hook.noConfusion hbad
  · obtain rfl := Hook.pop.inj hpop
    have hn : r'.name = r.name := hx'.symm.trans (of_decide_eq_true hname)
    obtain rfl := List.inj_on_of_nodup_map h.names hr'' hr hn
    exact absurd (hcon.symm.trans hcon') (by simp)

theorem countP_drainRoute :
    ((run cfg order csvOpen evs).world.samples.filter (·.route = .drain)).countP
        (·.report = r.name) =
      (groups mc.id mc.stages evs).length *
        if [r.fromStage, r.toStage].Sublist mc.stages then 1 else 0 := by
  obtain ⟨i, hooks, hi, _, hothers, _⟩ := exists_part h order hmc hmode hfrom hto
  have hk := reportKeys_eq_iff h.names h.pairs hr
  have hone := filter_drained hk hi (fun j q hq hj hm =>
    hothers j q hq hj _ hfrom (mem_of_mem_pairs hm).1) evs
  rw [run_drainSamples h.inRange, List.countP_eq_length_filter, drainSamples, hone,
    ← List.countP_eq_length_filter, length_groups, Part.pendingAfter, List.filterMap_flatMap]
  exact countP_flatMap_const fun o _ => countP_drainSample hk (h.nodup mc hmc hmode) o.2

end Total

/-- A report between two stages of a seq matcher has one sample for each group exactly when its
stages are not listed in their order, or when there is no group. -/
theorem seq_samples_eq_groups_iff {cfg : Config} (h : cfg.Separate) (order : IterationOrder)
    (csvOpen : Bool) {mc : MatcherConfig} (hmc : mc ∈ cfg.matchers) (hmode : mc.mode = "seq")
    {r : ReportConfig} (hr : r ∈ cfg.reports) (hft : r.fromStage < r.toStage)
    (hfrom : r.fromStage ∈ mc.stages) (hto : r.toStage ∈ mc.stages) (evs : List RawEvent)
    (hlt : ∀ e ∈ evs, e.stage < 64) :
    (run cfg order csvOpen evs).world.samples.countP (·.report = r.name) =
        (groups mc.id mc.stages evs).length ↔
      ¬ [r.fromStage, r.toStage].Sublist mc.stages ∨ ¬ HasGroup mc.stages evs := by
  rw [← groups_eq_nil_iff (h.inRange mc hmc hmode) hlt mc.id (List.ne_nil_of_mem hfrom),
    countP_routes, countP_seqRoute h order csvOpen hmc hmode hr hfrom hto evs hft,
    countP_fifoRoute h order csvOpen hmc hmode hr hfrom hto evs,
    countP_drainRoute h order csvOpen hmc hmode hr hfrom hto evs, ← List.length_eq_zero_iff]
  by_cases hs : [r.fromStage, r.toStage].Sublist mc.stages
  · simp [hs]
  · simp [hs]

/-- One group, recorded by its callback and by the final drain. -/
theorem seq_samples_doubled :
    ¬ ∀ (cfg : Config) (order : IterationOrder) (csvOpen : Bool), cfg.Separate →
      ∀ mc ∈ cfg.matchers, mc.mode = "seq" → ∀ r ∈ cfg.reports, r.fromStage < r.toStage →
        r.fromStage ∈ mc.stages → r.toStage ∈ mc.stages →
        ∀ evs : List RawEvent, (∀ e ∈ evs, e.stage < 64) →
          (run cfg order csvOpen evs).world.samples.countP (·.report = r.name) =
            (groups mc.id mc.stages evs).length := by
  intro h
  have hrun := h ⟨"nebulaX", "", [], [⟨"io_flow", [0, 1], "seq", 4096⟩], [⟨"dispatch", 0, 1⟩]⟩
    default false (by constructor <;> decide) _ (List.mem_singleton_self _) rfl _
    (List.mem_singleton_self _) (by decide) (by decide) (by decide)
    [⟨10, 7, 0, 0⟩, ⟨19, 7, 1, 0⟩] (by decide)
  revert hrun
  decide

/-- A stage list in decreasing order has one sample for each group. -/
theorem seq_samples_eq_groups_pair :
    (run ⟨"nebulaX", "", [], [⟨"io_flow", [1, 0], "seq", 4096⟩], [⟨"dispatch", 0, 1⟩]⟩
      default false [⟨10, 7, 0, 0⟩, ⟨19, 7, 1, 0⟩]).world.samples.countP (·.report = "dispatch") =
        (groups "io_flow" [1, 0] [⟨10, 7, 0, 0⟩, ⟨19, 7, 1, 0⟩]).length :=
  (seq_samples_eq_groups_iff (show Config.Separate ⟨"nebulaX", "", [],
    [⟨"io_flow", [1, 0], "seq", 4096⟩], [⟨"dispatch", 0, 1⟩]⟩ by constructor <;> decide) default
    false (List.mem_singleton_self _) rfl (List.mem_singleton_self _) (by decide) (by decide)
    (by decide) _ (by decide)).mpr (Or.inl (by decide))

end LensX
