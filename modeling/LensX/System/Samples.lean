import LensX.System.Calls

/-! # The samples of a run

The history of samples determines the histograms and the raw data rows. The
samples of the callbacks of a matcher's own pairs and those of the final drain
are read off from the calls and from the drained deltas.
-/

namespace LensX

open Bitmask Pairs Transducer

namespace World

/-- Record a sample. -/
def add (w : World) (x : Sample) : World := w.record x.route x.report x.row

@[simp] theorem add_samples (w : World) (x : Sample) : (w.add x).samples = w.samples ++ [x] := rfl

@[simp] theorem add_fifos (w : World) (x : Sample) : (w.add x).fifos = w.fifos := rfl

@[simp] theorem add_faults (w : World) (x : Sample) : (w.add x).faults = w.faults := rfl

def addAll (w : World) (l : List Sample) : World := l.foldl add w

@[simp] theorem addAll_samples (w : World) (l : List Sample) :
    (w.addAll l).samples = w.samples ++ l := by
  unfold addAll
  induction l generalizing w with
  | nil => simp
  | cons x l ih => simp [ih]

@[simp] theorem addAll_fifos (w : World) (l : List Sample) : (w.addAll l).fifos = w.fifos := by
  unfold addAll
  induction l generalizing w with
  | nil => rfl
  | cons x l ih => simp [ih]

@[simp] theorem addAll_faults (w : World) (l : List Sample) : (w.addAll l).faults = w.faults := by
  unfold addAll
  induction l generalizing w with
  | nil => rfl
  | cons x l ih => simp [ih]

@[simp] theorem addAll_nil (w : World) : w.addAll [] = w := rfl

/-- A loop whose rounds record at most one sample each. -/
theorem foldl_eq_addAll {α : Type*} {f : World → α → World} {g : α → Option Sample} {l : List α}
    (h : ∀ a ∈ l, ∀ w, f w a = w.addAll (g a).toList) (w : World) :
    l.foldl f w = w.addAll (l.filterMap g) := by
  induction l generalizing w with
  | nil => rfl
  | cons a l ih =>
    rw [List.foldl_cons, h a (by simp), ih fun b hb => h b (List.mem_cons_of_mem _ hb)]
    cases hg : g a with
    | none => simp [hg]
    | some x => simp [hg, addAll]

/-- The histogram of a list of values, which exists once there is a value. -/
def histOf (vals : List UInt64) : Option Hist :=
  if vals = [] then none else some (vals.foldl Hist.record .empty)

theorem histOf_concat (vals : List UInt64) (v : UInt64) :
    histOf (vals ++ [v]) = some (((histOf vals).getD .empty).record v) := by
  unfold histOf
  by_cases h : vals = [] <;> simp [h]

/-- The histograms and the raw data rows are those of the recorded samples. -/
structure Consistent (csvOn : Bool) (w : World) : Prop where
  hists : ∀ name, w.hists name =
    histOf ((w.samples.filter (·.report = name)).map (·.row.valNs))
  csv : w.csv = if csvOn then some (w.samples.map (·.row)) else none

theorem Consistent.add {csvOn : Bool} {w : World} (h : Consistent csvOn w) (x : Sample) :
    Consistent csvOn (w.add x) where
  hists := by
    intro name
    change Function.update w.hists x.report
      (some (((w.hists x.report).getD .empty).record x.row.valNs)) name = _
    rw [add_samples, List.filter_append, List.map_append]
    by_cases hn : x.report = name
    · subst hn
      simp [h.hists, histOf_concat]
    · simp [hn, Function.update_of_ne (Ne.symm hn), h.hists]
  csv := by
    change w.csv.map (· ++ [x.row]) = _
    rw [h.csv, add_samples]
    cases csvOn <;> simp

theorem Consistent.addAll {csvOn : Bool} {w : World} (h : Consistent csvOn w) (l : List Sample) :
    Consistent csvOn (w.addAll l) := by
  unfold World.addAll
  induction l generalizing w with
  | nil => exact h
  | cons x l ih => exact ih (h.add x)

theorem Consistent.congr {csvOn : Bool} {w w' : World} (h : Consistent csvOn w)
    (hh : w'.hists = w.hists) (hc : w'.csv = w.csv) (hs : w'.samples = w.samples) :
    Consistent csvOn w' where
  hists := by simpa [hh, hs] using h.hists
  csv := by simpa [hc, hs] using h.csv

end World

/-- Every stage of the snapshot has a timestamp. -/
def StageSnapshot.Assigned (s : StageSnapshot) : Prop :=
  ∀ t, InRange t → Has s.stages t → ∃ x, s.ts t = some x

/-- The stages of a mask in increasing order. -/
def maskStages (m : UInt64) : List ℤ := ((List.range 64).map Int.ofNat).filter (Has m ·)

theorem mem_maskStages {m : UInt64} {t : ℤ} : t ∈ maskStages m ↔ InRange t ∧ Has m t := by
  rw [maskStages, List.mem_filter, decide_eq_true_eq]
  refine and_congr_left fun _ => ?_
  simp only [List.mem_map, List.mem_range]
  constructor
  · rintro ⟨n, hn, rfl⟩
    exact ⟨Int.natCast_nonneg n, Int.ofNat_lt.mpr hn⟩
  · rintro ⟨h₀, h₁⟩
    exact ⟨t.toNat, by omega, by simp [h₀]⟩

/-- The sample of a pair of stages of a snapshot. -/
def pairSample (keys : ReportKeys) (s : StageSnapshot) (p : ℤ × ℤ) : Option Sample :=
  match keys p, s.ts p.1, s.ts p.2 with
  | some name, some x, some y => some ⟨.seq, name, ⟨p.1, p.2, y - x, x, y, s.tid⟩⟩
  | _, _, _ => none

/-- The samples of the pairs of a snapshot. -/
def pairSamples (keys : ReportKeys) (s : StageSnapshot) : List Sample :=
  (pairs (maskStages s.stages)).filterMap (pairSample keys s)

theorem recordPairs_eq (keys : ReportKeys) {s : StageSnapshot} (hs : s.Assigned) (w : World) :
    recordPairs keys s w = w.addAll (pairSamples keys s) := by
  refine World.foldl_eq_addAll ?_ w
  rintro ⟨i, j⟩ hp w
  obtain ⟨h₁, h₂⟩ := mem_of_mem_pairs hp
  obtain ⟨x, hx⟩ := hs i (mem_maskStages.mp h₁).1 (mem_maskStages.mp h₁).2
  obtain ⟨y, hy⟩ := hs j (mem_maskStages.mp h₂).1 (mem_maskStages.mp h₂).2
  cases hk : keys (i, j) with
  | none => simp [pairSample, hk]
  | some name =>
    simp [pairSample, hk, hx, hy, World.recordBetween, World.addAll, World.add]

/-- The sample of a drained delta. -/
def drainSample (keys : ReportKeys) (d : Delta) : Option Sample :=
  (keys (d.fromStage, d.toStage)).map fun name =>
    ⟨.drain, name, ⟨d.fromStage, d.toStage, d.valNs, d.tsFrom, d.tsTo, d.tid⟩⟩

theorem recordDeltas_eq (keys : ReportKeys) (ds : List Delta) (w : World) :
    ds.foldl (Tracer.recordDelta keys) w = w.addAll (ds.filterMap (drainSample keys)) := by
  refine World.foldl_eq_addAll ?_ w
  intro d _ w
  cases hk : keys (d.fromStage, d.toStage) with
  | none => simp [Tracer.recordDelta, drainSample, hk]
  | some name => simp [Tracer.recordDelta, drainSample, hk, World.addAll, World.add]

theorem pushCb_samples (r : ReportConfig) (s : StageSnapshot) (w : World) :
    (pushCb r s w).samples = w.samples ∧ (pushCb r s w).hists = w.hists ∧
      (pushCb r s w).csv = w.csv := by
  unfold pushCb
  split
  · split
    · split <;> exact ⟨rfl, rfl, rfl⟩
    · exact ⟨rfl, rfl, rfl⟩
    · exact ⟨rfl, rfl, rfl⟩
  · exact ⟨rfl, rfl, rfl⟩

/-- A pop leaves the samples alone or records one. -/
theorem popCb_samples (r : ReportConfig) (s : StageSnapshot) (w : World) :
    ((popCb r s w).samples = w.samples ∧ (popCb r s w).hists = w.hists ∧
      (popCb r s w).csv = w.csv) ∨
    ∃ row, (popCb r s w).samples = (w.add ⟨.fifo, r.name, row⟩).samples ∧
      (popCb r s w).hists = (w.add ⟨.fifo, r.name, row⟩).hists ∧
      (popCb r s w).csv = (w.add ⟨.fifo, r.name, row⟩).csv := by
  unfold popCb
  split
  · split
    · split
      · unfold World.recordBetween
        split
        · exact Or.inr ⟨_, rfl, rfl, rfl⟩
        · exact Or.inl ⟨rfl, rfl, rfl⟩
      · exact Or.inl ⟨rfl, rfl, rfl⟩
      · exact Or.inl ⟨rfl, rfl, rfl⟩
    · exact Or.inl ⟨rfl, rfl, rfl⟩
  · exact Or.inl ⟨rfl, rfl, rfl⟩

/-- The samples that a call adds by the route of the seq matchers. -/
def Call.seqSamples (keys : ReportKeys) (c : Call) : List Sample :=
  match c.1 with
  | .pairs => pairSamples keys c.2
  | .push _ => []
  | .pop _ => []

theorem route_of_mem_pairSamples {keys : ReportKeys} {s : StageSnapshot} {x : Sample}
    (h : x ∈ pairSamples keys s) : x.route = .seq := by
  obtain ⟨p, _, hp⟩ := List.mem_filterMap.mp h
  unfold pairSample at hp
  split at hp
  · exact (Option.some.inj hp) ▸ rfl
  · exact absurd hp (by simp)

/-- A call appends samples, none of them by the route of the final drain. -/
theorem apply_samples (keys : ReportKeys) {c : Call} (hc : c.2.Assigned) (w : World) :
    ∃ l, (c.apply keys w).samples = w.samples ++ l ∧
      l.filter (·.route = .seq) = c.seqSamples keys ∧
      ∀ x ∈ l, x.route = .seq ∨ x.route = .fifo ∧ ∃ r, c.1 = .pop r ∧ x.report = r.name := by
  obtain ⟨h, s⟩ := c
  cases h with
  | pairs =>
    refine ⟨pairSamples keys s, ?_, ?_, fun x hx => Or.inl (route_of_mem_pairSamples hx)⟩
    · change (recordPairs keys s w).samples = _
      rw [recordPairs_eq keys hc, World.addAll_samples]
    · exact List.filter_eq_self.mpr fun x hx => by simpa using route_of_mem_pairSamples hx
  | push r => exact ⟨[], (pushCb_samples r s w).1.trans (List.append_nil _).symm, rfl, by simp⟩
  | pop r =>
    rcases popCb_samples r s w with h | ⟨row, h⟩
    · exact ⟨[], h.1.trans (List.append_nil _).symm, rfl, by simp⟩
    · refine ⟨[⟨.fifo, r.name, row⟩], h.1, rfl, fun x hx => Or.inr ?_⟩
      exact (List.mem_singleton.mp hx) ▸ ⟨rfl, r, rfl, rfl⟩

theorem apply_consistent (keys : ReportKeys) {c : Call} (hc : c.2.Assigned) {csvOn : Bool}
    {w : World} (hw : w.Consistent csvOn) : (c.apply keys w).Consistent csvOn := by
  obtain ⟨h, s⟩ := c
  cases h with
  | pairs =>
    change (recordPairs keys s w).Consistent csvOn
    rw [recordPairs_eq keys hc]
    exact hw.addAll _
  | push r =>
    obtain ⟨hs, hh, hcsv⟩ := pushCb_samples r s w
    exact hw.congr hh hcsv hs
  | pop r =>
    rcases popCb_samples r s w with ⟨hs, hh, hcsv⟩ | ⟨row, hs, hh, hcsv⟩
    · exact hw.congr hh hcsv hs
    · exact (hw.add ⟨.fifo, r.name, row⟩).congr hh hcsv hs

/-- Calls append samples; those by the route of the queues belong to reports that are popped. -/
theorem foldl_samples {cs : List Call} (hcs : ∀ c ∈ cs, c.2.Assigned) (keys : ReportKeys)
    (w : World) :
    ∃ l, (cs.foldl (Call.apply keys) w).samples = w.samples ++ l ∧
      l.filter (·.route = .seq) = cs.flatMap (Call.seqSamples keys) ∧
      ∀ x ∈ l, x.route = .seq ∨
        x.route = .fifo ∧ ∃ c ∈ cs, ∃ r, c.1 = .pop r ∧ x.report = r.name := by
  induction cs using List.reverseRecOn with
  | nil => exact ⟨[], by simp⟩
  | append_singleton cs c ih =>
    obtain ⟨l, hl, hseq, hroute⟩ := ih fun c' hc' => hcs c' (List.mem_append_left _ hc')
    obtain ⟨l', hl', hseq', hroute'⟩ :=
      apply_samples keys (hcs c (by simp)) (cs.foldl (Call.apply keys) w)
    refine ⟨l ++ l', ?_, ?_, fun x hx => ?_⟩
    · rw [List.foldl_append, List.foldl_cons, List.foldl_nil, hl', hl, List.append_assoc]
    · rw [List.filter_append, hseq, hseq', List.flatMap_append]
      simp
    · rcases List.mem_append.mp hx with hx | hx
      · refine (hroute x hx).imp_right fun ⟨hf, c', hc', h⟩ => ⟨hf, c', ?_, h⟩
        exact List.mem_append_left _ hc'
      · exact (hroute' x hx).imp_right fun ⟨hf, h⟩ => ⟨hf, c, by simp, h⟩

section Run

variable {cfg : Config}

theorem mem_parts {order : IterationOrder} {p : Part} (h : p ∈ parts cfg order) :
    ∃ mc ∈ cfg.matchers, ∃ hs, (Part.of mc).map (·.addHooks hs) = some p := by
  obtain ⟨i, hi⟩ := List.mem_iff_getElem?.mp h
  rw [parts, getElem?_register] at hi
  obtain ⟨b, hb, rfl⟩ := Option.map_eq_some_iff.mp hi
  obtain ⟨mc, hm, hof⟩ := exists_of_mem_baseParts (List.mem_of_getElem? hb)
  exact ⟨mc, hm, _, by rw [hof]; rfl⟩

/-- The stages of a part are those of a matcher of events. -/
theorem matcher_of_mem_parts {order : IterationOrder} {p : Part} (h : p ∈ parts cfg order) :
    ∃ mc ∈ cfg.matchers, (mc.mode = "seq" ∨ mc.mode = "key") ∧ p.stages = mc.stages := by
  obtain ⟨mc, hm, hs, hof⟩ := mem_parts h
  obtain ⟨b, hb, rfl⟩ := Option.map_eq_some_iff.mp hof
  obtain ⟨hmode, hst⟩ := part_of_stages hb
  refine ⟨mc, hm, hmode, ?_⟩
  rw [← hst]
  cases b <;> rfl

theorem mem_parts_seq {order : IterationOrder} {id : String} {stages : List ℤ} {hooks : List Hook}
    (h : .seq id stages hooks ∈ parts cfg order) :
    ∃ mc ∈ cfg.matchers, mc.mode = "seq" ∧ mc.id = id ∧ mc.stages = stages := by
  obtain ⟨mc, hm, hs, hof⟩ := mem_parts h
  obtain ⟨b, hb, he⟩ := Option.map_eq_some_iff.mp hof
  cases b with
  | seq id' stages' hooks' =>
    obtain ⟨rfl, rfl, rfl⟩ := Part.seq.inj he
    obtain ⟨hmode, hid, hst, _⟩ := part_of_eq_seq hb
    exact ⟨mc, hm, hmode, hid, hst⟩
  | key id' stages' => exact Part.noConfusion he

theorem mem_parts_key {order : IterationOrder} {id : String} {stages : List ℤ} :
    .key id stages ∈ parts cfg order ↔
      ∃ mc ∈ cfg.matchers, mc.mode = "key" ∧ mc.id = id ∧ mc.stages = stages := by
  constructor
  · intro h
    obtain ⟨mc, hm, hs, hof⟩ := mem_parts h
    obtain ⟨b, hb, he⟩ := Option.map_eq_some_iff.mp hof
    cases b with
    | seq id' stages' hooks' => exact Part.noConfusion he
    | key id' stages' =>
      obtain ⟨rfl, rfl⟩ := Part.key.inj he
      exact ⟨mc, hm, part_of_eq_key hb⟩
  · rintro ⟨mc, hm, hmode, rfl, rfl⟩
    have hb : .key mc.id mc.stages ∈ baseParts cfg.matchers :=
      List.mem_filterMap.mpr ⟨mc, hm, part_of_key hmode⟩
    obtain ⟨i, hi⟩ := List.mem_iff_getElem?.mp hb
    exact List.mem_of_getElem? (by rw [getElem?_parts, hi]; rfl)

theorem assigned_snapshotOf {stages : List ℤ} (hr : ∀ s ∈ stages, InRange s) (r : Record) :
    (snapshotOf stages r).Assigned := by
  intro t ht hm
  refine ⟨r.ts t, ?_⟩
  rw [snapshotOf_ts]
  exact if_pos ((has_ofList hr ht).mp hm)

/-- A call of a run belongs to a part that completes a group. -/
theorem mem_calls {ps : List Part} {evs : List RawEvent} {c : Call} (h : c ∈ calls ps evs) :
    ∃ pre e id stages hooks, pre ++ [e] <+: evs ∧ .seq id stages hooks ∈ ps ∧ c.1 ∈ hooks ∧
      completion stages pre e = some c.2 := by
  obtain ⟨⟨pre, e⟩, hp, hc⟩ := List.mem_flatMap.mp h
  obtain ⟨p, hm, hc⟩ := List.mem_flatMap.mp hc
  cases p with
  | key id stages => exact absurd hc List.not_mem_nil
  | seq id stages hooks =>
    obtain ⟨s, hs, hc⟩ := List.mem_flatMap.mp hc
    obtain ⟨k, hk, rfl⟩ := List.mem_map.mp hc
    exact ⟨pre, e, id, stages, hooks, mem_prefixes.mp hp, hm, hk, Option.mem_toList.mp hs⟩

/-- The state before the final drain. -/
def beforeDrain (cfg : Config) (order : IterationOrder) (csvOpen : Bool) (evs : List RawEvent) :
    World :=
  (calls (parts cfg order) evs).foldl (Call.apply (reportKeys cfg.reports))
    (Tracer.init cfg order csvOpen).world

/-- The samples of the final drain. -/
def drainSamples (cfg : Config) (order : IterationOrder) (evs : List RawEvent) : List Sample :=
  (drained (parts cfg order) evs).filterMap (drainSample (reportKeys cfg.reports))

theorem run_world_eq (cfg : Config) (order : IterationOrder) (csvOpen : Bool)
    (evs : List RawEvent) :
    (run cfg order csvOpen evs).world =
      (beforeDrain cfg order csvOpen evs).addAll (drainSamples cfg order evs) := by
  rw [run_world, recordDeltas_eq, beforeDrain, drainSamples]

theorem route_of_mem_drainSamples {order : IterationOrder} {evs : List RawEvent} {x : Sample}
    (h : x ∈ drainSamples cfg order evs) : x.route = .drain := by
  obtain ⟨d, _, hd⟩ := List.mem_filterMap.mp h
  obtain ⟨name, _, rfl⟩ := Option.map_eq_some_iff.mp hd
  rfl

variable (hr : ∀ mc ∈ cfg.matchers, mc.mode = "seq" → ∀ s ∈ mc.stages, InRange s)
  (order : IterationOrder) (csvOpen : Bool) (evs : List RawEvent)
include hr

theorem assigned_of_mem_calls {c : Call} (h : c ∈ calls (parts cfg order) evs) : c.2.Assigned := by
  obtain ⟨pre, e, id, stages, hooks, _, hm, _, hs⟩ := mem_calls h
  obtain ⟨mc, hmc, hmode, _, rfl⟩ := mem_parts_seq hm
  obtain ⟨r, _, hsnap⟩ := Option.map_eq_some_iff.mp hs
  exact hsnap ▸ assigned_snapshotOf (hr mc hmc hmode) r

/-- The histograms and the raw data of a run are those of its samples. -/
theorem run_consistent :
    (run cfg order csvOpen evs).world.Consistent (cfg.csvPath ≠ "" ∧ csvOpen) := by
  rw [run_world_eq]
  refine World.Consistent.addAll (List.foldlRecOn _ _ ?_ fun w hw c hc => ?_) _
  · exact ⟨fun name => rfl, by simp [Tracer.init]⟩
  · exact apply_consistent _ (assigned_of_mem_calls hr order evs hc) hw

/-- The samples of a run by the route of the seq matchers. -/
theorem run_seqSamples :
    (run cfg order csvOpen evs).world.samples.filter (·.route = .seq) =
      (calls (parts cfg order) evs).flatMap (Call.seqSamples (reportKeys cfg.reports)) := by
  obtain ⟨l, hl, hseq, _⟩ := foldl_samples (fun c hc => assigned_of_mem_calls hr order evs hc)
    (reportKeys cfg.reports) (Tracer.init cfg order csvOpen).world
  have hdrain : (drainSamples cfg order evs).filter (·.route = .seq) = [] :=
    List.filter_eq_nil_iff.mpr fun x hx => by simp [route_of_mem_drainSamples hx]
  rw [run_world_eq, World.addAll_samples, List.filter_append, hdrain, List.append_nil, beforeDrain,
    hl, List.filter_append, hseq]
  rfl

/-- The samples of a run by the route of the final drain. -/
theorem run_drainSamples :
    (run cfg order csvOpen evs).world.samples.filter (·.route = .drain) =
      drainSamples cfg order evs := by
  obtain ⟨l, hl, _, hroute⟩ := foldl_samples (fun c hc => assigned_of_mem_calls hr order evs hc)
    (reportKeys cfg.reports) (Tracer.init cfg order csvOpen).world
  have hnil : l.filter (·.route = .drain) = [] := by
    refine List.filter_eq_nil_iff.mpr fun x hx => ?_
    rcases hroute x hx with h | ⟨h, _⟩ <;> simp [h]
  have hdrain : (drainSamples cfg order evs).filter (·.route = .drain) =
      drainSamples cfg order evs :=
    List.filter_eq_self.mpr fun x hx => by simpa using route_of_mem_drainSamples hx
  rw [run_world_eq, World.addAll_samples, List.filter_append, hdrain, beforeDrain, hl,
    List.filter_append, hnil]
  rfl

/-- A sample by the route of the queues belongs to a report that some part pops. -/
theorem run_fifo_report {x : Sample} (hx : x ∈ (run cfg order csvOpen evs).world.samples)
    (hf : x.route = .fifo) :
    ∃ r id stages hooks, .seq id stages hooks ∈ parts cfg order ∧ .pop r ∈ hooks ∧
      x.report = r.name := by
  obtain ⟨l, hl, _, hroute⟩ := foldl_samples (fun c hc => assigned_of_mem_calls hr order evs hc)
    (reportKeys cfg.reports) (Tracer.init cfg order csvOpen).world
  rw [run_world_eq, World.addAll_samples, beforeDrain, hl, List.append_assoc] at hx
  rcases List.mem_append.mp hx with hx | hx
  · exact absurd hx List.not_mem_nil
  · rcases List.mem_append.mp hx with hx | hx
    · rcases hroute x hx with h | ⟨_, c, hc, r, hr, hname⟩
      · rw [h] at hf
        exact absurd hf (by simp)
      · obtain ⟨_, _, id, stages, hooks, _, hp, hh, _⟩ := mem_calls hc
        exact ⟨r, id, stages, hooks, hp, hr ▸ hh, hname⟩
    · rw [route_of_mem_drainSamples hx] at hf
      exact absurd hf (by simp)

end Run

end LensX
