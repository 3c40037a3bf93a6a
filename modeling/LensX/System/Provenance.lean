import LensX.System.Queues

/-! # Where the samples come from

Slots are reused without being cleared, snapshots are assigned in part and the
ring overwrites its cells. A sample nevertheless takes both its timestamps from
fed events of its stages, by whichever route it was recorded, because a route
only reads stages that a covering list of events has filled.
-/

namespace LensX

open Bitmask Pairs Transducer Window BoundedQueue

/-- Some event of the stage was fed with the timestamp. -/
def Stamped (evs : List RawEvent) (stage : ℤ) (ts : UInt64) : Prop :=
  ∃ e ∈ evs, e.stageNo = stage ∧ e.ts = ts

/-- The row spans two timestamps of fed events of its stages. -/
structure CsvRow.Genuine (evs : List RawEvent) (row : CsvRow) : Prop where
  val : row.valNs = row.tsTo - row.tsFrom
  source : Stamped evs row.fromStage row.tsFrom
  target : Stamped evs row.toStage row.tsTo

section Groups

variable {stages : List ℤ} {evs w : List RawEvent} {r : Record}

theorem stamped_of_isGroup (hg : IsGroup stages w r) (hc : Covers RawEvent.stageNo stages w)
    (hw : w ⊆ evs) {t : ℤ} (ht : t ∈ stages) : Stamped evs t (r.ts t) := by
  obtain ⟨a, ha⟩ := exists_lastOf hc ht
  obtain ⟨hmem, hstage⟩ := mem_of_lastOf ha
  exact ⟨a, hw hmem, hstage, by rw [hg.ts t ht, lastTs_of_lastOf ha]⟩

/-- The deltas of a group are genuine. -/
theorem genuine_of_pairDeltas (hg : IsGroup stages w r) (hc : Covers RawEvent.stageNo stages w)
    (hw : w ⊆ evs) {d : Delta} (hd : d ∈ pairDeltas stages r) :
    CsvRow.Genuine evs ⟨d.fromStage, d.toStage, d.valNs, d.tsFrom, d.tsTo, d.tid⟩ := by
  obtain ⟨⟨a, b⟩, hp, rfl⟩ := List.mem_map.mp hd
  obtain ⟨ha, hb⟩ := mem_of_mem_pairs hp
  exact ⟨rfl, stamped_of_isGroup hg hc hw ha, stamped_of_isGroup hg hc hw hb⟩

variable (hr : ∀ s ∈ stages, InRange s) (hlt : ∀ e ∈ evs, e.stage < 64)
include hr hlt

/-- A completed slot holds a covering list of fed events. -/
theorem exists_group_of_slotsStep {pre : List RawEvent} {e : RawEvent} (hp : pre ++ [e] <+: evs)
    (h : (slotsStep stages (slotsAfter stages pre) e).2 = some r) :
    ∃ w, w ⊆ evs ∧ Covers RawEvent.stageNo stages w ∧ IsGroup stages w r := by
  obtain ⟨_, w, ⟨⟨hsuf, _⟩, hc, _⟩, hg⟩ :=
    completes_of_slotsStep hr (fun x hx => hlt x (hp.subset hx)) h
  exact ⟨w, fun x hx => hp.subset (List.filter_sublist.subset (hsuf.subset hx)), hc, hg⟩

/-- A completed record holds a covering list of fed events. -/
theorem exists_group_of_keysStep {pre : List RawEvent} {e : RawEvent} (hp : pre ++ [e] <+: evs)
    (h : (keysStep stages (recordsAfter stages pre) e).2 = some r) :
    ∃ w, w ⊆ evs ∧ Covers RawEvent.stageNo stages w ∧ IsGroup stages w r := by
  rw [keysStep_snd hr fun x hx => hlt x (hp.subset hx)] at h
  split at h
  · next hcov =>
    obtain rfl := Option.some.inj h
    refine ⟨_, fun x hx => hp.subset ?_, hcov.2, isGroup_recordOf _ _⟩
    rcases List.mem_append.mp hx with hx | hx
    · have hcut := isCut_cut (c := RawEvent.stageNo) (List.ne_nil_of_mem hcov.1)
        (keyEvents stages e.key pre)
      have hmem : x ∈ keyEvents stages e.key pre := by
        rw [hcut.eq_flatten]
        exact List.mem_append_right _ hx
      exact List.mem_append_left _ (mem_keyEvents hmem).1
    · exact List.mem_append_right _ hx
  · exact absurd h (by simp)

theorem stamped_of_completion {pre : List RawEvent} {e : RawEvent} (hp : pre ++ [e] <+: evs)
    {s : StageSnapshot} (h : completion stages pre e = some s) {t : ℤ} {x : UInt64}
    (hx : s.ts t = some x) : Stamped evs t x := by
  obtain ⟨r, hout, rfl⟩ := Option.map_eq_some_iff.mp h
  obtain ⟨w, hw, hc, hg⟩ := exists_group_of_slotsStep hr hlt hp hout
  rw [snapshotOf_ts] at hx
  split at hx
  · next ht => exact Option.some.inj hx ▸ stamped_of_isGroup hg hc hw ht
  · exact absurd hx (by simp)

end Groups

/-- The deltas that a part drains are genuine. -/
theorem genuine_of_pendingAfter {p : Part} {evs : List RawEvent} (hr : ∀ s ∈ p.stages, InRange s)
    (hlt : ∀ e ∈ evs, e.stage < 64) {d : Delta} (hd : d ∈ p.pendingAfter evs) :
    CsvRow.Genuine evs ⟨d.fromStage, d.toStage, d.valNs, d.tsFrom, d.tsTo, d.tid⟩ := by
  cases p with
  | seq id stages hooks =>
    obtain ⟨⟨e, r⟩, ho, hdr⟩ := List.mem_flatMap.mp hd
    obtain ⟨pre, post, rfl, hout⟩ := (mem_emits _ _).mp ho
    obtain ⟨w, hw, hc, hg⟩ := exists_group_of_slotsStep hr hlt ⟨post, by simp⟩ hout
    exact genuine_of_pairDeltas hg hc hw hdr
  | key id stages =>
    rw [Part.pendingAfter, KeyMatcher.feedAll_new] at hd
    obtain ⟨⟨e, r⟩, ho, hdr⟩ := List.mem_flatMap.mp hd
    obtain ⟨pre, post, rfl, hout⟩ := (mem_emits _ _).mp ho
    obtain ⟨w, hw, hc, hg⟩ := exists_group_of_keysStep hr hlt ⟨post, by simp⟩ hout
    exact genuine_of_pairDeltas hg hc hw hdr

/-- A configuration with all stages in range, queues that hold something and one report a name. -/
structure Config.Sound (cfg : Config) : Prop where
  stages : ∀ mc ∈ cfg.matchers, ∀ s ∈ mc.stages, InRange s
  reports : ∀ r ∈ cfg.reports, InRange r.fromStage ∧ InRange r.toStage
  queues : ∀ mc ∈ cfg.matchers, mc.mode = "fifo" → 1 ≤ mc.queueSize
  names : (cfg.reports.map (·.name)).Nodup

theorem Config.Sound.seqStages {cfg : Config} (h : cfg.Sound) :
    ∀ mc ∈ cfg.matchers, mc.mode = "seq" → ∀ s ∈ mc.stages, InRange s :=
  fun mc hm _ => h.stages mc hm

/-- With unique names a report is the only one of its name. -/
theorem filter_name {reports : List ReportConfig} (hd : (reports.map (·.name)).Nodup)
    {r : ReportConfig} (hr : r ∈ reports) : reports.filter (·.name = r.name) = [r] := by
  obtain ⟨l₁, l₂, he⟩ := List.append_of_mem hr
  rw [he, List.map_append, List.map_cons, List.nodup_append, List.nodup_cons] at hd
  obtain ⟨_, ⟨h₂, _⟩, h₁⟩ := hd
  have hnil₁ : l₁.filter (·.name = r.name) = [] := by
    refine List.filter_eq_nil_iff.mpr fun r' hr' => ?_
    simpa using h₁ _ (List.mem_map_of_mem hr') r.name (by simp)
  have hnil₂ : l₂.filter (·.name = r.name) = [] := by
    refine List.filter_eq_nil_iff.mpr fun r' hr' hn => h₂ ?_
    exact of_decide_eq_true hn ▸ List.mem_map_of_mem hr'
  simp [he, hnil₁, hnil₂]

section Routes

variable {cfg : Config} (h : cfg.Sound) (order : IterationOrder) {evs : List RawEvent}
include h

theorem inRange_part {p : Part} (hp : p ∈ parts cfg order) : ∀ s ∈ p.stages, InRange s := by
  obtain ⟨mc, hm, _, hst⟩ := matcher_of_mem_parts hp
  rw [hst]
  exact h.stages mc hm

variable (hlt : ∀ e ∈ evs, e.stage < 64)
include hlt

theorem stamped_of_mem_calls {call : Call} (hc : call ∈ calls (parts cfg order) evs) {t : ℤ}
    {x : UInt64} (hx : call.2.ts t = some x) : Stamped evs t x := by
  obtain ⟨pre, e, id, stages, hooks, hp, hm, _, hs⟩ := mem_calls hc
  exact stamped_of_completion (inRange_part h order hm) hlt hp hs hx

theorem genuine_of_seqRoute {call : Call} (hc : call ∈ calls (parts cfg order) evs) {x : Sample}
    (hx : x ∈ call.seqSamples (reportKeys cfg.reports)) : x.row.Genuine evs := by
  obtain ⟨k, s⟩ := call
  cases k with
  | pairs =>
    obtain ⟨p, _, hp⟩ := List.mem_filterMap.mp hx
    unfold pairSample at hp
    split at hp
    · next name a b _ ha hb =>
      obtain rfl := Option.some.inj hp
      exact ⟨rfl, stamped_of_mem_calls h order hlt hc ha, stamped_of_mem_calls h order hlt hc hb⟩
    · exact absurd hp (by simp)
  | push r => exact absurd hx List.not_mem_nil
  | pop r => exact absurd hx List.not_mem_nil

theorem genuine_of_drainRoute {x : Sample} (hx : x ∈ drainSamples cfg order evs) :
    x.row.Genuine evs := by
  obtain ⟨d, hd, hs⟩ := List.mem_filterMap.mp hx
  obtain ⟨p, hp, hd⟩ := List.mem_flatMap.mp hd
  obtain ⟨name, _, rfl⟩ := Option.map_eq_some_iff.mp hs
  exact genuine_of_pendingAfter (inRange_part h order hp) hlt hd

omit hlt in
/-- In a run the queue of every connected report behaves as a bounded queue. -/
theorem exists_simulates (csvOpen : Bool) (hlen : evs.length < 2 ^ 31) {r : ReportConfig}
    (hr : r ∈ cfg.reports)
    (hcon : (connection (baseParts cfg.matchers) (seqEntries cfg order) r).isSome) :
    ∃ c, Simulates c r (queueOps r (calls (parts cfg order) evs))
      (run cfg order csvOpen evs).world := by
  obtain ⟨q, hq, hpos⟩ : ∃ q, queueOf cfg order r = some q ∧ 1 ≤ q.capacity := by
    rw [queueOf, if_pos hcon, wire_fifos, if_pos ⟨r, hr, rfl, hcon⟩]
    refine ⟨_, rfl, ?_⟩
    cases hb : (baseWiring cfg.matchers).fifos r.name with
    | none => exact (show (1 : Int32) ≤ 4096 by decide)
    | some q =>
      obtain ⟨mc, hm, hmode, _, _, rfl⟩ := baseWiring_fifos hb
      exact h.queues mc hm hmode
  rw [Int32.le_iff_toInt_le, Int32.toInt_one] at hpos
  obtain ⟨⟨p₁, p₂⟩, hcon⟩ := Option.isSome_iff_exists.mp hcon
  have hlim := (length_pushes_calls (filter_name h.names hr) hcon evs).trans_lt hlen
  exact ⟨q.capacity.toInt.toNat, run_simulates (filter_name h.names hr)
    h.seqStages (h.reports r hr).1 (h.reports r hr).2 (by omega) hq
    (by omega) csvOpen hlim⟩

theorem genuine_of_fifoRoute (csvOpen : Bool) (hlen : evs.length < 2 ^ 31) {x : Sample}
    (hx : x ∈ (run cfg order csvOpen evs).world.samples) (hroute : x.route = .fifo) :
    x.row.Genuine evs := by
  obtain ⟨r, id, stages, hooks, hp, hh, hname⟩ :=
    run_fifo_report h.seqStages order csvOpen evs hx hroute
  obtain ⟨i, hi⟩ := List.mem_iff_getElem?.mp hp
  rcases hook_of_parts hi hh with hbad | ⟨r', hr, p, q, hcon, ⟨hbad, _⟩ | ⟨hpop, _⟩⟩
  · exact Hook.noConfusion hbad
  · exact Hook.noConfusion hbad
  · obtain rfl := Hook.pop.inj hpop
    obtain ⟨c, hsim⟩ := exists_simulates h order csvOpen hlen hr (by simp [hcon])
    have hmem : x ∈ (run cfg order csvOpen evs).world.fifoSamples r.name :=
      List.mem_filter.mpr ⟨hx, by simp [hroute, hname]⟩
    rw [hsim.samples] at hmem
    obtain ⟨⟨tsFrom, tsTo, tid⟩, hpair, rfl⟩ := List.mem_map.mp hmem
    obtain ⟨hpush, hpops⟩ := (mem_of_contents c _).2 _ hpair
    obtain ⟨a, ha, hfrom⟩ := ts_of_mem_pushes hpush
    obtain ⟨b, hb, hto⟩ := ts_of_mem_pops hpops
    exact ⟨rfl, stamped_of_mem_calls h order hlt ha hfrom, stamped_of_mem_calls h order hlt hb hto⟩

omit hlt in
/-- No run reads a timestamp that was never written, overflows a counter, divides by zero or leaves
the bounds of a ring. -/
theorem faults_eq_nil (csvOpen : Bool) (hlen : evs.length < 2 ^ 31) :
    (run cfg order csvOpen evs).world.faults = [] := by
  refine List.eq_nil_iff_forall_not_mem.mpr fun f hf => ?_
  have hrun := hf
  rw [run_world_eq, World.addAll_faults, beforeDrain] at hf
  rcases report_of_mem_faults_foldl _ (fun call hc =>
    assigned_of_mem_calls h.seqStages order evs hc) hf with hf | ⟨call, hc, r, hk, hname⟩
  · exact absurd hf List.not_mem_nil
  · obtain ⟨hr, hcon⟩ := report_of_mem_calls hc hk
    obtain ⟨c, hsim⟩ := exists_simulates h order csvOpen hlen hr hcon
    have hnil := List.filter_eq_nil_iff.mp hsim.faults f hrun
    exact hnil (by simp [hname])

end Routes

/-- Every sample of a run, and with it every histogram and every row of the raw data, spans two
timestamps of fed events of its stages, and nothing undefined is reached. -/
theorem samples_genuine {cfg : Config} (h : cfg.Sound) (order : IterationOrder) (csvOpen : Bool)
    (evs : List RawEvent) (hlt : ∀ e ∈ evs, e.stage < 64) (hlen : evs.length < 2 ^ 31) :
    let w := (run cfg order csvOpen evs).world
    (∀ x ∈ w.samples, x.row.Genuine evs) ∧
      (∀ name, w.hists name =
        World.histOf ((w.samples.filter (·.report = name)).map (·.row.valNs))) ∧
      (∀ rows, w.csv = some rows → rows = w.samples.map (·.row)) ∧ w.faults = [] := by
  intro w
  have hr := h.seqStages
  have hcons := run_consistent hr order csvOpen evs
  refine ⟨fun x hx => ?_, hcons.hists, fun rows hrows => ?_, faults_eq_nil h order csvOpen hlen⟩
  · cases hroute : x.route with
    | seq =>
      have hmem : x ∈ w.samples.filter (·.route = .seq) :=
        List.mem_filter.mpr ⟨hx, by simpa using hroute⟩
      rw [run_seqSamples hr] at hmem
      obtain ⟨call, hc, hx⟩ := List.mem_flatMap.mp hmem
      exact genuine_of_seqRoute h order hlt hc hx
    | fifo => exact genuine_of_fifoRoute h order hlt csvOpen hlen hx hroute
    | drain =>
      have hmem : x ∈ w.samples.filter (·.route = .drain) :=
        List.mem_filter.mpr ⟨hx, by simpa using hroute⟩
      rw [run_drainSamples hr] at hmem
      exact genuine_of_drainRoute h order hlt hmem
  · have hcsv := hcons.csv
    rw [hrows] at hcsv
    split at hcsv
    · exact Option.some.inj hcsv
    · exact absurd hcsv (by simp)

/-- Two threads in one slot; the callback, the queue and the final drain all record. -/
theorem samples_genuine_collision :
    let evs : List RawEvent :=
      [⟨10, 7, 0, 0⟩, ⟨11, 65543, 1, 0⟩, ⟨12, 8, 5, 0⟩, ⟨13, 8, 6, 0⟩]
    let w := (run ⟨"nebulaX", "", [], [⟨"io_flow", [0, 1], "seq", 4096⟩,
      ⟨"send_flow", [5, 6], "seq", 4096⟩, ⟨"ring", [1, 5], "fifo", 1⟩],
      [⟨"dispatch", 0, 1⟩, ⟨"ring", 1, 5⟩]⟩ default false evs).world
    w.samples.map (·.route) = [.seq, .fifo, .drain] ∧ ∀ x ∈ w.samples, x.row.Genuine evs :=
  ⟨by decide, (samples_genuine (show Config.Sound ⟨"nebulaX", "", [],
      [⟨"io_flow", [0, 1], "seq", 4096⟩, ⟨"send_flow", [5, 6], "seq", 4096⟩,
        ⟨"ring", [1, 5], "fifo", 1⟩], [⟨"dispatch", 0, 1⟩, ⟨"ring", 1, 5⟩]⟩
      by constructor <;> decide) default false _ (by decide) (by decide)).1⟩

end LensX
