import LensX.System.Queues
import LensX.System.Reports

/-! # Adding a report

An added report has its own queue and its own hooks, and takes over the entry of
its pair of stages in `report_keys`. Everything else is the same with it as
without it, call by call.
-/

namespace LensX

open Bitmask Pairs Transducer

/-- The configuration with another report at the end of its list. -/
def Config.addReport (cfg : Config) (r : ReportConfig) : Config :=
  { cfg with reports := cfg.reports ++ [r] }

/-- A sample that a report does not take over: one of a queue, or of other stages. -/
def ReportConfig.Spares (r : ReportConfig) (x : Sample) : Prop :=
  x.route = .fifo ∨ (x.row.fromStage, x.row.toStage) ≠ (r.fromStage, r.toStage)

instance (r : ReportConfig) (x : Sample) : Decidable (r.Spares x) :=
  inferInstanceAs (Decidable (_ ∨ _))

/-- A state without a report and one with it agree on the queues and the samples of other names,
except for the samples that the report takes over. -/
structure World.Framed (r : ReportConfig) (w w' : World) : Prop where
  fifos : ∀ name, name ≠ r.name → w'.fifos name = w.fifos name
  samples : w'.samples.filter (·.report ≠ r.name) =
    w.samples.filter fun x => x.report ≠ r.name ∧ r.Spares x

namespace World.Framed

variable {r r' : ReportConfig} {w w' : World}

theorem fault (h : Framed r w w') (name : String) (u : Undefined) :
    Framed r (w.fault name u) (w'.fault name u) := ⟨h.fifos, h.samples⟩

theorem update (h : Framed r w w') (name : String) (q : FifoQueue) :
    Framed r { w with fifos := Function.update w.fifos name (some q) }
      { w' with fifos := Function.update w'.fifos name (some q) } := by
  constructor
  · intro n hn
    by_cases he : n = name
    · subst he
      simp
    · simp [he, h.fifos n hn]
  · exact h.samples

theorem addAll (h : Framed r w w') {l l' : List Sample}
    (hl : l'.filter (·.report ≠ r.name) = l.filter fun x => x.report ≠ r.name ∧ r.Spares x) :
    Framed r (w.addAll l) (w'.addAll l') := by
  constructor
  · simpa using h.fifos
  · rw [addAll_samples, addAll_samples, List.filter_append, List.filter_append, h.samples, hl]

theorem recordBetween (h : Framed r w w') (name : String) (a b : ℤ) (x y : Option UInt64)
    (tid : UInt32) :
    Framed r (w.recordBetween .fifo name a b x y tid)
      (w'.recordBetween .fifo name a b x y tid) := by
  cases x with
  | none => exact h.fault name .uninitialised
  | some x =>
    cases y with
    | none => exact h.fault name .uninitialised
    | some y =>
      have hrow : ∀ z ∈ [(⟨.fifo, name, ⟨a, b, y - x, x, y, tid⟩⟩ : Sample)],
          decide (z.report ≠ r.name) = decide (z.report ≠ r.name ∧ r.Spares z) := by
        intro z hz
        obtain rfl := List.mem_singleton.mp hz
        simp [ReportConfig.Spares]
      exact h.addAll (List.filter_congr hrow)

/-- The callbacks of the report itself. -/
theorem own (h : Framed r w w') (s : StageSnapshot) :
    Framed r w (pushCb r s w') ∧ Framed r w (popCb r s w') := by
  refine ⟨⟨fun name hn => ?_, ?_⟩, ⟨fun name hn => ?_, ?_⟩⟩
  · rw [(sameQueue_pushCb hn.symm s).fifos, h.fifos name hn]
  · rw [(pushCb_samples r s w').1, h.samples]
  · rw [(sameQueue_popCb hn.symm s).fifos, h.fifos name hn]
  · rcases popCb_samples r s w' with ⟨hs, _⟩ | ⟨row, hs, _⟩
    · rw [hs, h.samples]
    · rw [hs, add_samples, List.filter_append, h.samples]
      simp

/-- The producer's callback of another report. -/
theorem push (h : Framed r w w') (hn : r'.name ≠ r.name) (s : StageSnapshot) :
    Framed r (pushCb r' s w) (pushCb r' s w') := by
  unfold pushCb
  rw [h.fifos r'.name hn]
  by_cases hs : Has s.stages r'.fromStage
  · rw [if_pos hs, if_pos hs]
    cases s.ts r'.fromStage with
    | none => exact h.fault _ _
    | some x =>
      cases w.fifos r'.name with
      | none => exact h
      | some q =>
        cases hq : q.push r'.fromStage x with
        | ok q' => simpa only [hq] using h.update r'.name q'
        | error u => simpa only [hq] using h.fault r'.name u
  · rwa [if_neg hs, if_neg hs]

/-- The consumer's callback of another report. -/
theorem pop (h : Framed r w w') (hn : r'.name ≠ r.name) (s : StageSnapshot) :
    Framed r (popCb r' s w) (popCb r' s w') := by
  unfold popCb
  rw [h.fifos r'.name hn]
  by_cases hs : Has s.stages r'.toStage
  · rw [if_pos hs, if_pos hs]
    cases w.fifos r'.name with
    | none => exact h
    | some q =>
      cases hq : q.pop r'.toStage none with
      | error u => simpa only [hq] using h.fault r'.name u
      | ok res =>
        obtain ⟨found, pushTs, q'⟩ := res
        cases found with
        | false => simpa only [hq] using h
        | true => simpa only [hq] using (h.update r'.name q').recordBetween _ _ _ _ _ _
  · rwa [if_neg hs, if_neg hs]

end World.Framed

section Keys

variable {keys : ReportKeys} (r : ReportConfig)

/-- `report_keys` with the pair of the report entered. -/
abbrev ReportKeys.enter (keys : ReportKeys) (r : ReportConfig) : ReportKeys :=
  Function.update keys (r.fromStage, r.toStage) (some r.name)

theorem filter_pairSamples (s : StageSnapshot) :
    (pairSamples (keys.enter r) s).filter (·.report ≠ r.name) =
      (pairSamples keys s).filter fun x => x.report ≠ r.name ∧ r.Spares x := by
  rw [pairSamples, pairSamples, List.filter_filterMap, List.filter_filterMap]
  refine List.filterMap_congr fun p _ => ?_
  by_cases hp : p = (r.fromStage, r.toStage)
  · subst hp
    unfold pairSample
    rw [ReportKeys.enter, Function.update_self]
    cases keys (r.fromStage, r.toStage) <;> cases s.ts r.fromStage <;> cases s.ts r.toStage <;>
      simp [ReportConfig.Spares, Option.filter]
  · unfold pairSample
    rw [ReportKeys.enter, Function.update_of_ne hp]
    cases keys p <;> cases s.ts p.1 <;> cases s.ts p.2 <;>
      simp [ReportConfig.Spares, Option.filter, hp]

theorem filter_drainSamples (ds : List Delta) :
    (ds.filterMap (drainSample (keys.enter r))).filter (·.report ≠ r.name) =
      (ds.filterMap (drainSample keys)).filter fun x => x.report ≠ r.name ∧ r.Spares x := by
  rw [List.filter_filterMap, List.filter_filterMap]
  refine List.filterMap_congr fun d _ => ?_
  unfold drainSample
  by_cases hp : (d.fromStage, d.toStage) = (r.fromStage, r.toStage)
  · rw [ReportKeys.enter, hp, Function.update_self]
    cases keys (r.fromStage, r.toStage) <;> simp [ReportConfig.Spares, Option.filter, hp]
  · rw [ReportKeys.enter, Function.update_of_ne hp]
    cases keys (d.fromStage, d.toStage) <;> simp [ReportConfig.Spares, Option.filter, hp]

/-- A call for the report itself. -/
theorem World.Framed.apply_own {w w' : World} (h : w.Framed r w') {c : Call}
    (hc : c.1.report = some r) : w.Framed r (c.apply (keys.enter r) w') := by
  obtain ⟨k, s⟩ := c
  cases k with
  | pairs => exact absurd hc (by simp [Hook.report])
  | push r' =>
    obtain rfl : r' = r := Option.some.inj hc
    exact (h.own s).1
  | pop r' =>
    obtain rfl : r' = r := Option.some.inj hc
    exact (h.own s).2

/-- A call for the pairs of a matcher or for a report of another name. -/
theorem World.Framed.apply_other {w w' : World} (h : w.Framed r w') {c : Call}
    (ha : c.2.Assigned) (hc : ∀ r', c.1.report = some r' → r'.name ≠ r.name) :
    (c.apply keys w).Framed r (c.apply (keys.enter r) w') := by
  obtain ⟨k, s⟩ := c
  cases k with
  | pairs =>
    change (recordPairs keys s w).Framed r (recordPairs (keys.enter r) s w')
    rw [recordPairs_eq keys ha, recordPairs_eq _ ha]
    exact h.addAll (filter_pairSamples r s)
  | push r' => exact h.push (hc r' rfl) s
  | pop r' => exact h.pop (hc r' rfl) s

/-- Calls with the report added, and those of them that are not its own. -/
theorem World.Framed.foldl {w w' : World} (h : w.Framed r w') {cs : List Call}
    (ha : ∀ c ∈ cs, c.2.Assigned)
    (hc : ∀ c ∈ cs, c.1.report = some r ∨ ∀ r', c.1.report = some r' → r'.name ≠ r.name) :
    ((cs.filter (·.1.report ≠ some r)).foldl (Call.apply keys) w).Framed r
      (cs.foldl (Call.apply (keys.enter r)) w') := by
  induction cs generalizing w w' with
  | nil => exact h
  | cons c cs ih =>
    have hrest : ∀ {v v' : World}, v.Framed r v' →
        ((cs.filter (·.1.report ≠ some r)).foldl (Call.apply keys) v).Framed r
          (cs.foldl (Call.apply (keys.enter r)) v') :=
      fun hv => ih hv (fun c' hc' => ha c' (by simp [hc'])) (fun c' hc' => hc c' (by simp [hc']))
    by_cases ho : c.1.report = some r
    · rw [List.filter_cons_of_neg (by simp [ho])]
      exact hrest (h.apply_own r ho)
    · rw [List.filter_cons_of_pos (by simp [ho])]
      exact hrest (h.apply_other r (ha c (by simp)) ((hc c (by simp)).resolve_left ho))

end Keys

theorem flatMap_register {β : Type*} {f g : Part → List β} {regs : List (ℕ × Hook)} {ps : List Part}
    (h : ∀ (i : ℕ) p, ps[i]? = some p → f (p.addHooks (hooksAt regs i)) = g p) :
    (register regs ps).flatMap f = ps.flatMap g := by
  have hmap : (register regs ps).map f = ps.map g := by
    apply List.ext_getElem?
    intro i
    rw [List.getElem?_map, List.getElem?_map, getElem?_register, Option.map_map]
    cases hi : ps[i]? with
    | none => rfl
    | some p => exact congrArg some (h i p hi)
  rw [List.flatMap_def, List.flatMap_def, hmap]

section Run

variable {cfg : Config} {r : ReportConfig} (hnew : ∀ r' ∈ cfg.reports, r'.name ≠ r.name)
  (order : IterationOrder)

theorem reportKeys_addReport (cfg : Config) (r : ReportConfig) :
    reportKeys (cfg.addReport r).reports = (reportKeys cfg.reports).enter r :=
  reportKeys_concat cfg.reports r

/-- The added report registers its hooks with the parts that are there. -/
theorem parts_addReport (cfg : Config) (r : ReportConfig) :
    parts (cfg.addReport r) order =
      register (connectHooks (baseParts cfg.matchers) (seqEntries cfg order) r)
        (parts cfg order) := by
  have hregs : registrations (cfg.addReport r) order = registrations cfg order ++
      connectHooks (baseParts cfg.matchers) (seqEntries cfg order) r := by
    change _ ++ (cfg.reports ++ [r]).flatMap _ = _
    rw [List.flatMap_append, ← List.append_assoc, List.flatMap_singleton]
    rfl
  rw [parts, hregs, register_append]
  rfl

theorem drained_addReport (cfg : Config) (r : ReportConfig) (evs : List RawEvent) :
    drained (parts (cfg.addReport r) order) evs = drained (parts cfg order) evs := by
  rw [drained, drained, parts_addReport]
  exact flatMap_register fun i p _ => by cases p <;> rfl

include hnew

/-- The calls without the report are those with it that are not its own. -/
theorem calls_addReport (evs : List RawEvent) :
    calls (parts cfg order) evs =
      (calls (parts (cfg.addReport r) order) evs).filter (·.1.report ≠ some r) := by
  rw [calls, calls, List.filter_flatMap]
  refine List.flatMap_congr fun x _ => ?_
  rw [callsAt, callsAt, List.filter_flatMap, parts_addReport]
  symm
  refine flatMap_register fun i p hp => ?_
  cases p with
  | key id stages => rfl
  | seq id stages hooks =>
    have hold : hooks.filter (·.report ≠ some r) = hooks := by
      rw [List.filter_eq_self]
      intro k hk
      rcases hook_of_parts hp hk with rfl | ⟨r', hr', _, _, _, ⟨rfl, _⟩ | ⟨rfl, _⟩⟩
      · simp [Hook.report]
      · have hne : r' ≠ r := fun he => hnew r' hr' (congrArg ReportConfig.name he)
        simpa [Hook.report] using hne
      · have hne : r' ≠ r := fun he => hnew r' hr' (congrArg ReportConfig.name he)
        simpa [Hook.report] using hne
    have hown : (hooksAt (connectHooks (baseParts cfg.matchers) (seqEntries cfg order) r) i).filter
        (·.report ≠ some r) = [] := by
      rw [List.filter_eq_nil_iff]
      intro k hk
      have hflat : k ∈ hooksAt ([r].flatMap
          (connectHooks (baseParts cfg.matchers) (seqEntries cfg order))) i := by
        rwa [List.flatMap_singleton]
      obtain ⟨r', hr', _, _, _, ⟨rfl, _⟩ | ⟨rfl, _⟩⟩ := mem_hooksAt_connect hflat
      · simp [Hook.report, List.mem_singleton.mp hr']
      · simp [Hook.report, List.mem_singleton.mp hr']
    rw [Part.addHooks, Part.callsAt, Part.callsAt, List.filter_flatMap]
    refine List.flatMap_congr fun s _ => ?_
    rw [List.filter_map]
    change ((hooks ++ _).filter (·.report ≠ some r)).map _ = _
    rw [List.filter_append, hold, hown, List.append_nil]

omit hnew in
theorem framed_init (csvOpen : Bool) :
    (Tracer.init cfg order csvOpen).world.Framed r
      (Tracer.init (cfg.addReport r) order csvOpen).world := by
  constructor
  · intro name hname
    change (wire (cfg.addReport r) order).fifos name = (wire cfg order).fifos name
    rw [wire_fifos, wire_fifos]
    have hex : (∃ r' ∈ (cfg.addReport r).reports, r'.name = name ∧
        (connection (baseParts cfg.matchers) (seqEntries cfg order) r').isSome) ↔
        ∃ r' ∈ cfg.reports, r'.name = name ∧
          (connection (baseParts cfg.matchers) (seqEntries cfg order) r').isSome := by
      simp [Config.addReport, or_and_right, exists_or, hname.symm]
    exact if_congr hex rfl rfl
  · rfl

/-- The two runs agree on everything but what the report takes over. -/
theorem framed_run (hr : ∀ mc ∈ cfg.matchers, mc.mode = "seq" → ∀ s ∈ mc.stages, InRange s)
    (csvOpen : Bool) (evs : List RawEvent) :
    (run cfg order csvOpen evs).world.Framed r (run (cfg.addReport r) order csvOpen evs).world := by
  rw [run_world_eq, run_world_eq]
  refine World.Framed.addAll ?_ ?_
  · rw [beforeDrain, beforeDrain, calls_addReport hnew, reportKeys_addReport]
    refine World.Framed.foldl r (framed_init order csvOpen) (fun c hc => ?_) fun c hc => ?_
    · exact @assigned_of_mem_calls (cfg.addReport r) hr order evs c hc
    · by_cases ho : c.1.report = some r
      · exact Or.inl ho
      · refine Or.inr fun r' hr' => ?_
        have hmem : r' ∈ cfg.reports ++ [r] := (report_of_mem_calls hc hr').1
        rcases List.mem_append.mp hmem with hmem | hmem
        · exact hnew r' hmem
        · exact absurd (List.mem_singleton.mp hmem ▸ hr') ho
  · rw [drainSamples, drainSamples, reportKeys_addReport, drained_addReport]
    exact filter_drainSamples r _

omit hnew in
/-- A sample outside the queues is of the stages of some report. -/
theorem exists_report_of_sample
    (hr : ∀ mc ∈ cfg.matchers, mc.mode = "seq" → ∀ s ∈ mc.stages, InRange s) (csvOpen : Bool)
    (evs : List RawEvent) {x : Sample} (hx : x ∈ (run cfg order csvOpen evs).world.samples)
    (hroute : x.route ≠ .fifo) :
    ∃ r' ∈ cfg.reports, (r'.fromStage, r'.toStage) = (x.row.fromStage, x.row.toStage) := by
  have hkeys : ∃ name, reportKeys cfg.reports (x.row.fromStage, x.row.toStage) = some name := by
    cases hroute' : x.route with
    | fifo => exact absurd hroute' hroute
    | seq =>
      have hmem : x ∈ (run cfg order csvOpen evs).world.samples.filter (·.route = .seq) :=
        List.mem_filter.mpr ⟨hx, by simpa using hroute'⟩
      rw [run_seqSamples hr] at hmem
      obtain ⟨⟨k, s⟩, _, hx⟩ := List.mem_flatMap.mp hmem
      cases k with
      | pairs =>
        obtain ⟨p, _, hp⟩ := List.mem_filterMap.mp hx
        unfold pairSample at hp
        split at hp
        · next name _ _ hk _ _ =>
          obtain rfl := Option.some.inj hp
          exact ⟨name, hk⟩
        · exact absurd hp (by simp)
      | push r' => exact absurd hx List.not_mem_nil
      | pop r' => exact absurd hx List.not_mem_nil
    | drain =>
      have hmem : x ∈ (run cfg order csvOpen evs).world.samples.filter (·.route = .drain) :=
        List.mem_filter.mpr ⟨hx, by simpa using hroute'⟩
      rw [run_drainSamples hr] at hmem
      obtain ⟨d, _, hd⟩ := List.mem_filterMap.mp hmem
      obtain ⟨name, hk, rfl⟩ := Option.map_eq_some_iff.mp hd
      exact ⟨name, hk⟩
  obtain ⟨name, hk⟩ := hkeys
  obtain ⟨r', hr', _, hpair⟩ := exists_of_reportKeys hk
  exact ⟨r', hr', hpair⟩

end Run

/-- With a report of a new name added, every other name keeps its samples except those outside the
queues that are of the added report's stages. If no report has these stages, nothing changes. -/
theorem add_report_frame {cfg : Config}
    (hr : ∀ mc ∈ cfg.matchers, mc.mode = "seq" → ∀ s ∈ mc.stages, InRange s) {r : ReportConfig}
    (hnew : ∀ r' ∈ cfg.reports, r'.name ≠ r.name) (order : IterationOrder) (csvOpen : Bool)
    (evs : List RawEvent) :
    let w := (run cfg order csvOpen evs).world
    let w' := (run (cfg.addReport r) order csvOpen evs).world
    (∀ name, name ≠ r.name → w'.samples.filter (·.report = name) =
      w.samples.filter fun x => x.report = name ∧ r.Spares x) ∧
    ((∀ r' ∈ cfg.reports, (r'.fromStage, r'.toStage) ≠ (r.fromStage, r.toStage)) →
      ∀ name, name ≠ r.name →
        w'.samples.filter (·.report = name) = w.samples.filter (·.report = name)) := by
  intro w w'
  have hframe : ∀ name, name ≠ r.name → w'.samples.filter (·.report = name) =
      w.samples.filter fun x => x.report = name ∧ r.Spares x := by
    intro name hname
    have hsame := congrArg (List.filter (·.report = name))
      (framed_run hnew order hr csvOpen evs).samples
    rw [List.filter_filter, List.filter_filter] at hsame
    calc w'.samples.filter (·.report = name)
        = w'.samples.filter fun x => decide (x.report = name) && decide (x.report ≠ r.name) := by
          refine List.filter_congr fun x _ => ?_
          by_cases hx : x.report = name <;> simp [hx, hname]
      _ = w.samples.filter fun x =>
            decide (x.report = name) && decide (x.report ≠ r.name ∧ r.Spares x) := hsame
      _ = w.samples.filter fun x => x.report = name ∧ r.Spares x := by
          refine List.filter_congr fun x _ => ?_
          by_cases hx : x.report = name <;> simp [hx, hname]
  refine ⟨hframe, fun hpairs name hname => ?_⟩
  rw [hframe name hname]
  refine List.filter_congr fun x hx => ?_
  have hspares : r.Spares x := by
    by_cases hroute : x.route = .fifo
    · exact Or.inl hroute
    · obtain ⟨r', hr', he⟩ := exists_report_of_sample order hr csvOpen evs hx hroute
      exact Or.inr (he ▸ hpairs r' hr')
  simp [hspares]

/-- A second report of the same stages takes all samples of the first. -/
theorem add_report_takes_over :
    ¬ ∀ (cfg : Config) (r : ReportConfig),
      (∀ mc ∈ cfg.matchers, (∀ s ∈ mc.stages, InRange s) ∧ 1 ≤ mc.queueSize) →
      (∀ r' ∈ cfg.reports ++ [r], InRange r'.fromStage ∧ InRange r'.toStage) →
      (cfg.matchers.map (·.id)).Nodup → (∀ r' ∈ cfg.reports, r'.name ≠ r.name) →
      ∀ (order : IterationOrder) (csvOpen : Bool) (evs : List RawEvent),
        (∀ e ∈ evs, e.stage < 64) → evs.length < 2 ^ 31 → ∀ r' ∈ cfg.reports,
          ((run (cfg.addReport r) order csvOpen evs).world.samples.filter (·.report = r'.name)).Perm
            ((run cfg order csvOpen evs).world.samples.filter (·.report = r'.name)) := by
  intro h
  have hrun := h ⟨"nebulaX", "", [], [⟨"io_flow", [0, 1], "seq", 4096⟩], [⟨"dispatch", 0, 1⟩]⟩
    ⟨"recv", 0, 1⟩ (by decide) (by decide) (by decide) (by decide) default false
    [⟨10, 7, 0, 0⟩, ⟨19, 7, 1, 0⟩] (by decide) (by decide) ⟨"dispatch", 0, 1⟩ (by decide)
  have hlen := hrun.length_eq
  revert hlen
  decide

/-- A report through a queue is added between two matchers of another report. -/
theorem add_report_frame_ring :
    let cfg : Config := ⟨"nebulaX", "", [], [⟨"io_flow", [0, 1], "seq", 4096⟩,
      ⟨"send_flow", [5, 6], "seq", 4096⟩], [⟨"ring", 1, 5⟩]⟩
    let evs : List RawEvent := [⟨10, 7, 0, 0⟩, ⟨11, 7, 1, 0⟩, ⟨12, 8, 5, 0⟩, ⟨13, 8, 6, 0⟩]
    (run (cfg.addReport ⟨"e2e", 0, 6⟩) default false evs).world.samples.filter (·.report = "ring") =
      (run cfg default false evs).world.samples.filter (·.report = "ring") := by
  intro cfg evs
  exact (@add_report_frame cfg (by decide) ⟨"e2e", 0, 6⟩ (by decide) default false evs).2
    (by decide) "ring" (by decide)

end LensX
