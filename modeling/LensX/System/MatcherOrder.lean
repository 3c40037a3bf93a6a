import LensX.System.Reports
import LensX.System.VisitOrder

/-! # The order of the matchers

When no stage belongs to two seq matchers, the hooks of a matcher depend on the
matcher and not on its position. An event completes at most one of them, so the
callbacks run in the same order for every order of the matchers; only the final
drain records in another order.
-/

namespace LensX

open Bitmask Transducer Blocks

/-- A configuration with unique ids whose seq matchers share no stage. -/
structure Config.Unshared (cfg : Config) : Prop where
  sound : cfg.Sound
  ids : (cfg.matchers.map (·.id)).Nodup
  disjoint : cfg.matchers.Pairwise fun a b => a.mode = "seq" → b.mode = "seq" →
    ∀ s ∈ a.stages, s ∉ b.stages

/-- The hooks of a report at a matcher, when the report has one producer and one consumer. -/
def Config.reportHooks (cfg : Config) (mc : MatcherConfig) (r : ReportConfig) : List Hook :=
  match cfg.owners r.fromStage, cfg.owners r.toStage with
  | [A], [B] =>
    if A = B then []
    else (if mc = A then [.push r] else []) ++ (if mc = B then [.pop r] else [])
  | _, _ => []

/-- All hooks of a seq matcher. -/
def Config.hooksOf (cfg : Config) (mc : MatcherConfig) : List Hook :=
  .pairs :: cfg.reports.flatMap (cfg.reportHooks mc)

/-- The configuration with its matchers listed in another way. -/
def Config.withMatchers (cfg : Config) (ms : List MatcherConfig) : Config :=
  { cfg with matchers := ms }

namespace Config.Unshared

variable {cfg : Config} (h : cfg.Unshared)
include h

theorem perm {ms : List MatcherConfig} (hp : ms.Perm cfg.matchers) :
    (cfg.withMatchers ms).Unshared where
  sound := by
    constructor
    · exact fun mc hm => h.sound.stages mc (hp.mem_iff.mp hm)
    · exact h.sound.reports
    · exact fun mc hm => h.sound.queues mc (hp.mem_iff.mp hm)
    · exact h.sound.names
  ids := (hp.map _).nodup_iff.mpr h.ids
  disjoint := by
    refine (hp.pairwise_iff ?_).mpr h.disjoint
    intro a b hab hb ha s hs hsa
    exact hab ha hb s hsa hs

/-- A stage has no owner or one. -/
theorem owners_cases (stage : ℤ) : cfg.owners stage = [] ∨ ∃ A, cfg.owners stage = [A] := by
  have hd : (cfg.owners stage).Pairwise fun a b => a.mode = "seq" → b.mode = "seq" →
      ∀ s ∈ a.stages, s ∉ b.stages := h.disjoint.sublist List.filter_sublist
  cases ho : cfg.owners stage with
  | nil => exact Or.inl rfl
  | cons A l =>
    cases l with
    | nil => exact Or.inr ⟨A, rfl⟩
    | cons B l =>
      obtain ⟨_, hA, hAs⟩ := mem_owners.mp (ho ▸ List.mem_cons_self : A ∈ cfg.owners stage)
      obtain ⟨_, hB, hBs⟩ := mem_owners.mp
        (ho ▸ List.mem_cons_of_mem _ List.mem_cons_self : B ∈ cfg.owners stage)
      rw [ho, List.pairwise_cons] at hd
      exact absurd hBs (hd.1 B (by simp) hA hB stage hAs)

theorem owners_perm {ms : List MatcherConfig} (hp : ms.Perm cfg.matchers) (stage : ℤ) :
    (cfg.withMatchers ms).owners stage = cfg.owners stage := by
  have hperm : ((cfg.withMatchers ms).owners stage).Perm (cfg.owners stage) := hp.filter _
  rcases h.owners_cases stage with ho | ⟨A, ho⟩
  · rw [ho] at hperm ⊢
    exact hperm.eq_nil
  · rw [ho] at hperm ⊢
    exact List.perm_singleton.mp hperm

theorem hooksOf_perm {ms : List MatcherConfig} (hp : ms.Perm cfg.matchers) (mc : MatcherConfig) :
    (cfg.withMatchers ms).hooksOf mc = cfg.hooksOf mc := by
  have hreport : ∀ r, (cfg.withMatchers ms).reportHooks mc r = cfg.reportHooks mc r := by
    intro r
    rw [reportHooks, reportHooks, h.owners_perm hp, h.owners_perm hp]
  exact congrArg (Hook.pairs :: ·) (List.flatMap_congr fun r _ => hreport r)

end Config.Unshared

section Parts

variable {cfg : Config} (h : cfg.Unshared) (order : IterationOrder)
include h

/-- A report is connected when its stages have different owners, at the positions of these. -/
theorem connection_cases {r : ReportConfig} (hr : r ∈ cfg.reports) :
    (∃ A B p q, cfg.owners r.fromStage = [A] ∧ cfg.owners r.toStage = [B] ∧ A ≠ B ∧
      connection (baseParts cfg.matchers) (seqEntries cfg order) r = some (p, q) ∧
      (baseParts cfg.matchers)[p]? = some (.seq A.id A.stages []) ∧
      (baseParts cfg.matchers)[q]? = some (.seq B.id B.stages [])) ∨
    connection (baseParts cfg.matchers) (seqEntries cfg order) r = none ∧
      ∀ mc, cfg.reportHooks mc r = [] := by
  obtain ⟨hf, ht⟩ := h.sound.reports r hr
  rcases h.owners_cases r.fromStage with hA | ⟨A, hA⟩
  · exact Or.inr ⟨by rw [connection, findPart_eq_none h.sound.seqStages hf hA],
      fun mc => by rw [Config.reportHooks, hA]⟩
  rcases h.owners_cases r.toStage with hB | ⟨B, hB⟩
  · refine Or.inr ⟨?_, fun mc => by rw [Config.reportHooks, hA, hB]⟩
    rw [connection, findPart_eq_none h.sound.seqStages ht hB]
    cases findPart (baseParts cfg.matchers) (seqEntries cfg order) r.fromStage <;> rfl
  obtain ⟨p, q, hp, hq, hcon⟩ := connection_of_owners h.sound.seqStages h.ids order hA hB
  by_cases hAB : A = B
  · rw [if_pos hAB] at hcon
    exact Or.inr ⟨hcon, fun mc => by simp [Config.reportHooks, hA, hB, hAB]⟩
  · rw [if_neg hAB] at hcon
    exact Or.inl ⟨A, B, p, q, hA, hB, hAB, hcon, hp, hq⟩

/-- The hooks at the position of a seq matcher are those of the matcher. -/
theorem hooksAt_registrations {mc : MatcherConfig} (hm : mc ∈ cfg.matchers)
    (hmode : mc.mode = "seq") {i : ℕ}
    (hi : (baseParts cfg.matchers)[i]? = some (.seq mc.id mc.stages [])) :
    hooksAt (registrations cfg order) i = cfg.hooksOf mc := by
  obtain ⟨i', _, hentry, hpos⟩ := exists_entry h.ids hm hmode
  obtain rfl : i = i' := (hpos i mc hm hi).mpr rfl
  have hperm : ((seqEntries cfg order).map (·.2)).Perm
      ((baseWiring cfg.matchers).seqMap.map (·.2)) := (order.perm _).map _
  have hpairs := hooksAt_pairs (hperm.nodup_iff.mpr (seqMapInv_baseWiring cfg.matchers).nodup)
    (hperm.mem_iff.mpr (List.mem_map.mpr ⟨_, hentry, rfl⟩))
  have hflat : ∀ regs : ReportConfig → List (ℕ × Hook), hooksAt (cfg.reports.flatMap regs) i =
      cfg.reports.flatMap fun r => hooksAt (regs r) i := by
    intro regs
    simp only [hooksAt, List.filter_flatMap, List.map_flatMap]
  rw [registrations, hooksAt_append, hpairs, hflat, Config.hooksOf, List.singleton_append]
  congr 1
  refine List.flatMap_congr fun r hr => ?_
  rcases connection_cases h order hr with ⟨A, B, p, q, hA, hB, hAB, hcon, hp, hq⟩ | ⟨hcon, hnil⟩
  · have hmA := (mem_owners.mp (hA ▸ List.mem_singleton_self A)).1
    have hmB := (mem_owners.mp (hB ▸ List.mem_singleton_self B)).1
    have hpi : p = i ↔ mc = A := by rw [hpos p A hmA hp, eq_comm]
    have hqi : q = i ↔ mc = B := by rw [hpos q B hmB hq, eq_comm]
    rw [connectHooks, hcon, Config.reportHooks, hA, hB]
    simp only [if_neg hAB, ← hpi, ← hqi]
    by_cases hp' : p = i <;> by_cases hq' : q = i <;> simp [hooksAt, hp', hq']
  · rw [connectHooks, hcon, hnil]
    rfl

/-- The parts are the matchers of events with their hooks. -/
theorem parts_eq : parts cfg order =
    cfg.matchers.filterMap fun mc => (Part.of mc).map (·.addHooks (cfg.hooksOf mc)) := by
  have hbase : baseParts cfg.matchers =
      (cfg.matchers.filterMap fun mc => (Part.of mc).map (mc, ·)).map (·.2) := by
    rw [List.map_filterMap, baseParts]
    congr 1
    ext1 mc
    cases Part.of mc <;> rfl
  have hgoal : (cfg.matchers.filterMap fun mc => (Part.of mc).map (·.addHooks (cfg.hooksOf mc))) =
      (cfg.matchers.filterMap fun mc => (Part.of mc).map (mc, ·)).map
        fun x => x.2.addHooks (cfg.hooksOf x.1) := by
    rw [List.map_filterMap]
    congr 1
    ext1 mc
    cases Part.of mc <;> rfl
  rw [hgoal]
  apply List.ext_getElem?
  intro i
  rw [getElem?_parts, hbase, List.getElem?_map, List.getElem?_map, Option.map_map]
  cases hi : (cfg.matchers.filterMap fun mc => (Part.of mc).map (mc, ·))[i]? with
  | none => rfl
  | some x =>
    obtain ⟨mc, p⟩ := x
    obtain ⟨mc', hm, hof⟩ := List.mem_filterMap.mp (List.mem_of_getElem? hi)
    obtain ⟨p', hof', he⟩ := Option.map_eq_some_iff.mp hof
    obtain ⟨rfl, rfl⟩ := Prod.mk.inj he
    simp only [Option.map_some, Function.comp_apply, Option.some.injEq]
    cases p' with
    | key id stages => rfl
    | seq id stages hooks =>
      obtain ⟨hmode, rfl, rfl, rfl⟩ := part_of_eq_seq hof'
      rw [hooksAt_registrations h order hm hmode (by rw [hbase, List.getElem?_map, hi]; rfl)]

theorem isSome_connection_iff {r : ReportConfig} (hr : r ∈ cfg.reports) :
    (connection (baseParts cfg.matchers) (seqEntries cfg order) r).isSome ↔
      ∃ mc, cfg.reportHooks mc r ≠ [] := by
  rcases connection_cases h order hr with ⟨A, B, p, q, hA, hB, hAB, hcon, _⟩ | ⟨hcon, hnil⟩
  · have hpush : cfg.reportHooks A r ≠ [] := by simp [Config.reportHooks, hA, hB, hAB]
    rw [hcon]
    exact ⟨fun _ => ⟨A, hpush⟩, fun _ => rfl⟩
  · simp [hcon, hnil]

variable {ms : List MatcherConfig} (hp : ms.Perm cfg.matchers) (order' : IterationOrder)
include hp

theorem parts_perm : (parts (cfg.withMatchers ms) order').Perm (parts cfg order) := by
  rw [parts_eq h, parts_eq (h.perm hp)]
  simp only [h.hooksOf_perm hp]
  exact hp.filterMap _

/-- The queues at the beginning are the same. -/
theorem wire_fifos_perm :
    (wire (cfg.withMatchers ms) order').fifos = (wire cfg order).fifos := by
  have hreport : ∀ mc r, (cfg.withMatchers ms).reportHooks mc r = cfg.reportHooks mc r := by
    intro mc r
    rw [Config.reportHooks, Config.reportHooks, h.owners_perm hp, h.owners_perm hp]
  have hconn : ∀ r ∈ cfg.reports,
      ((connection (baseParts ms) (seqEntries (cfg.withMatchers ms) order') r).isSome ↔
        (connection (baseParts cfg.matchers) (seqEntries cfg order) r).isSome) := by
    intro r hr
    rw [isSome_connection_iff h order hr]
    exact (isSome_connection_iff (h.perm hp) order' hr).trans (by simp only [hreport])
  ext1 name
  rw [wire_fifos, wire_fifos]
  change (if ∃ r ∈ cfg.reports, r.name = name ∧
    (connection (baseParts ms) (seqEntries (cfg.withMatchers ms) order') r).isSome then
      some (((baseWiring ms).fifos name).getD (.new name 4096)) else (baseWiring ms).fifos name) = _
  rw [baseWiring_fifos_perm h.ids hp]
  congr 1
  refine propext (exists_congr fun r => and_congr_right fun hr => and_congr_right fun _ => ?_)
  exact hconn r hr

variable {evs : List RawEvent} (hlt : ∀ e ∈ evs, e.stage < 64)
include hlt

omit hp in
/-- An event completes at most one seq matcher. -/
theorem pairwise_callsAt {pre : List RawEvent} {e : RawEvent} (hpre : pre ++ [e] <+: evs) :
    (parts cfg order).Pairwise fun a b => a.callsAt pre e = [] ∨ b.callsAt pre e = [] := by
  have hstage : ∀ mc ∈ cfg.matchers, ∀ p,
      (Part.of mc).map (·.addHooks (cfg.hooksOf mc)) = some p → p.callsAt pre e ≠ [] →
        mc.mode = "seq" ∧ e.stageNo ∈ mc.stages := by
    intro mc hm p hof hne
    obtain ⟨b, hb, rfl⟩ := Option.map_eq_some_iff.mp hof
    cases b with
    | key id stages => exact absurd rfl hne
    | seq id stages hooks =>
      obtain ⟨hmode, rfl, rfl, rfl⟩ := part_of_eq_seq hb
      refine ⟨hmode, ?_⟩
      by_contra hno
      have hnone : completion mc.stages pre e = none := by
        by_contra hsome
        obtain ⟨s, hs⟩ := Option.ne_none_iff_exists'.mp hsome
        exact hno (mem_of_completion (h.sound.stages mc hm) (fun x hx => hlt x (hpre.subset hx)) hs)
      exact hne (by simp [Part.addHooks, Part.callsAt, hnone])
  rw [parts_eq h, List.pairwise_filterMap]
  refine h.disjoint.imp_of_mem fun {a b} ha hb hab p hp q hq => ?_
  by_contra hno
  obtain ⟨hpne, hqne⟩ := not_or.mp hno
  obtain ⟨hma, hsa⟩ := hstage a ha p hp hpne
  obtain ⟨hmb, hsb⟩ := hstage b hb q hq hqne
  exact hab hma hmb _ hsa hsb

/-- The callbacks run in the same order. -/
theorem calls_perm :
    calls (parts (cfg.withMatchers ms) order') evs = calls (parts cfg order) evs := by
  refine List.flatMap_congr fun x hx => ?_
  have hpre : x.1 ++ [x.2] <+: evs := mem_prefixes.mp hx
  exact (flatMap_eq_of_perm (parts_perm h order hp order').symm
    (pairwise_callsAt h order hlt hpre)).symm

end Parts

/-- Listing the matchers in another order, and visiting `seq_map` in another order, records the same
samples in another order, and the histograms are the same. -/
theorem hists_matcher_order {cfg : Config} (h : cfg.Unshared) {ms : List MatcherConfig}
    (hp : ms.Perm cfg.matchers) (order order' : IterationOrder) (csvOpen : Bool)
    (evs : List RawEvent) (hlt : ∀ e ∈ evs, e.stage < 64) :
    let w := (run cfg order csvOpen evs).world
    let w' := (run (cfg.withMatchers ms) order' csvOpen evs).world
    w'.samples.Perm w.samples ∧ w'.hists = w.hists := by
  intro w w'
  have hbefore : beforeDrain (cfg.withMatchers ms) order' csvOpen evs =
      beforeDrain cfg order csvOpen evs := by
    rw [beforeDrain, beforeDrain, calls_perm h order hp order' hlt, Tracer.init, Tracer.init,
      wire_fifos_perm h order hp order']
    rfl
  have hdrain : (drainSamples (cfg.withMatchers ms) order' evs).Perm
      (drainSamples cfg order evs) :=
    ((parts_perm h order hp order').flatMap_right _).filterMap _
  have hsamples : w'.samples.Perm w.samples := by
    change (run (cfg.withMatchers ms) order' csvOpen evs).world.samples.Perm
      (run cfg order csvOpen evs).world.samples
    rw [run_world_eq, run_world_eq, hbefore, World.addAll_samples, World.addAll_samples]
    exact hdrain.append_left _
  refine ⟨hsamples, ?_⟩
  ext1 name
  have hcons := (run_consistent h.sound.seqStages order csvOpen evs).hists name
  have hcons' := (run_consistent (h.perm hp).sound.seqStages order' csvOpen
    evs).hists name
  change (run (cfg.withMatchers ms) order' csvOpen evs).world.hists name =
    (run cfg order csvOpen evs).world.hists name
  rw [hcons, hcons']
  exact World.histOf_perm ((hsamples.filter _).map _)

/-- The consumer listed before the producer, with a key matcher over both. -/
theorem hists_matcher_order_swap :
    let io : MatcherConfig := ⟨"io_flow", [0, 1], "seq", 4096⟩
    let send : MatcherConfig := ⟨"send_flow", [5, 6], "seq", 4096⟩
    let key : MatcherConfig := ⟨"by_request", [0, 5], "key", 4096⟩
    let cfg : Config := ⟨"nebulaX", "", [], [io, send, key], [⟨"dispatch", 0, 1⟩, ⟨"ring", 1, 5⟩]⟩
    let evs : List RawEvent := [⟨10, 7, 0, 3⟩, ⟨11, 8, 5, 3⟩, ⟨12, 7, 1, 0⟩, ⟨13, 8, 6, 0⟩]
    (run (cfg.withMatchers [key, send, io]) default false evs).world.hists =
      (run cfg default false evs).world.hists := by
  intro io send key cfg evs
  exact (hists_matcher_order (show cfg.Unshared from
    ⟨by constructor <;> decide, by decide, by decide⟩) (by decide) default default false evs
    (by decide)).2

end LensX
