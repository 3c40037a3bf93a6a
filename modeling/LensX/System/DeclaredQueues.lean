import LensX.System.VisitOrder

/-! # Declared queues

A fifo matcher names two stages and a size, but its queue is entered under the
matcher's id and looked up under the report's name. The declared size is that of
the report's queue exactly when the two names lead to it.
-/

namespace LensX

open Bitmask BoundedQueue

/-- A report between two seq matchers, each of its stages listed by one, and the only fifo matcher
that has the stages of the report. -/
structure Config.Described (cfg : Config) (A B fifo : MatcherConfig) (r : ReportConfig) : Prop where
  seqStages : ∀ mc ∈ cfg.matchers, mc.mode = "seq" → ∀ s ∈ mc.stages, InRange s
  ids : (cfg.matchers.map (·.id)).Nodup
  names : (cfg.reports.map (·.name)).Nodup
  report : r ∈ cfg.reports
  producer : cfg.owners r.fromStage = [A]
  consumer : cfg.owners r.toStage = [B]
  different : A ≠ B
  declared : fifo ∈ cfg.matchers ∧ fifo.mode = "fifo" ∧ fifo.stages = [r.fromStage, r.toStage]
  only : ∀ m ∈ cfg.matchers, m.mode = "fifo" → m.stages = fifo.stages → m = fifo
  size : 1 ≤ fifo.queueSize

/-- The queue entered under a name has the size: a fifo matcher with the name as its id declares
it, or there is none and it is the default. -/
def Config.NamedSize (cfg : Config) (name : String) (size : Int32) : Prop :=
  (∃ m ∈ cfg.matchers, m.mode = "fifo" ∧ 2 ≤ m.stages.length ∧ m.id = name ∧ m.queueSize = size) ∨
    (∀ m ∈ cfg.matchers, m.mode = "fifo" → 2 ≤ m.stages.length → m.id ≠ name) ∧ size = 4096

theorem namedSize_iff {cfg : Config} (hids : (cfg.matchers.map (·.id)).Nodup) {name : String}
    {size : Int32} :
    cfg.NamedSize name size ↔
      (((baseWiring cfg.matchers).fifos name).getD (.new name 4096)).capacity = size := by
  cases hq : (baseWiring cfg.matchers).fifos name with
  | some q =>
    obtain ⟨mc, hm, hmode, hlen, rfl, rfl⟩ := baseWiring_fifos hq
    constructor
    · rintro (⟨m, hm', _, _, hid, rfl⟩ | ⟨hno, _⟩)
      · obtain rfl := List.inj_on_of_nodup_map hids hm' hm hid
        rfl
      · exact absurd rfl (hno mc hm hmode hlen)
    · rintro rfl
      exact Or.inl ⟨mc, hm, hmode, hlen, rfl, rfl⟩
  | none =>
    have hno : ∀ m ∈ cfg.matchers, m.mode = "fifo" → 2 ≤ m.stages.length → m.id ≠ name := by
      rintro m hm hmode hlen rfl
      simp [baseWiring_fifos_of_mem hids hm hmode hlen] at hq
    constructor
    · rintro (⟨m, hm, hmode, hlen, hid, _⟩ | ⟨_, rfl⟩)
      · exact absurd hid (hno m hm hmode hlen)
      · rfl
    · rintro rfl
      exact Or.inr ⟨hno, rfl⟩

/-- A report whose stages have different owners has a queue: that of its name. -/
theorem queueOf_of_owners {cfg : Config}
    (hr : ∀ mc ∈ cfg.matchers, mc.mode = "seq" → ∀ s ∈ mc.stages, InRange s)
    (hids : (cfg.matchers.map (·.id)).Nodup) (order : IterationOrder) {r : ReportConfig}
    (hrep : r ∈ cfg.reports) {A B : MatcherConfig} (hA : cfg.owners r.fromStage = [A])
    (hB : cfg.owners r.toStage = [B]) (hAB : A ≠ B) :
    queueOf cfg order r =
      some (((baseWiring cfg.matchers).fifos r.name).getD (.new r.name 4096)) := by
  obtain ⟨p, q, _, _, hcon⟩ := connection_of_owners hr hids order hA hB
  rw [if_neg hAB] at hcon
  have hsome : (connection (baseParts cfg.matchers) (seqEntries cfg order) r).isSome := by
    rw [hcon]
    rfl
  rw [queueOf, if_pos hsome, wire_fifos, if_pos ⟨r, hrep, rfl, hsome⟩]

/-- The queue of the report has the size that the fifo matcher declares, and in every run the
report's samples are those of a bounded queue of that size, exactly when the size is declared under
the report's name or is the default of a name without a declaration. -/
theorem declared_queue_governs_iff {cfg : Config} {A B fifo : MatcherConfig} {r : ReportConfig}
    (h : cfg.Described A B fifo r) (order : IterationOrder) :
    ((∃ ring, queueOf cfg order r = some ring ∧ ring.capacity = fifo.queueSize) ∧
      ∀ (csvOpen : Bool) (evs : List RawEvent), evs.length < 2 ^ 31 →
        (run cfg order csvOpen evs).world.fifoSamples r.name =
          (paired fifo.queueSize.toInt.toNat (queueOps r (calls (parts cfg order) evs))).map
            (fifoSample r)) ↔
    cfg.NamedSize r.name fifo.queueSize := by
  have hqueue :=
    queueOf_of_owners h.seqStages h.ids order h.report h.producer h.consumer h.different
  rw [namedSize_iff h.ids]
  constructor
  · rintro ⟨⟨ring, hring, hcap⟩, _⟩
    obtain rfl := Option.some.inj (hqueue.symm.trans hring)
    exact hcap
  · intro hcap
    refine ⟨⟨_, hqueue, hcap⟩, fun csvOpen evs hlen => ?_⟩
    have hpos : 1 ≤ fifo.queueSize.toInt := by
      have hsize := Int32.le_iff_toInt_le.mp h.size
      rwa [Int32.toInt_one] at hsize
    obtain ⟨hmA, hmodeA, hfrom⟩ :=
      mem_owners.mp (h.producer ▸ List.mem_singleton_self A : A ∈ cfg.owners r.fromStage)
    obtain ⟨hmB, hmodeB, hto⟩ :=
      mem_owners.mp (h.consumer ▸ List.mem_singleton_self B : B ∈ cfg.owners r.toStage)
    obtain ⟨p, q, _, _, hcon⟩ :=
      connection_of_owners h.seqStages h.ids order h.producer h.consumer
    rw [if_neg h.different] at hcon
    have hone := filter_name h.names h.report
    exact (run_simulates hone h.seqStages (h.seqStages A hmA hmodeA _ hfrom)
      (h.seqStages B hmB hmodeB _ hto) (by omega) hqueue (by rw [hcap]; omega) csvOpen
      ((length_pushes_calls hone hcon evs).trans_lt hlen)).samples

/-- A queue of one is declared for the stages of the report, under another name. -/
theorem declared_queue_ignored :
    ¬ ∀ (cfg : Config) (A B fifo : MatcherConfig) (r : ReportConfig), cfg.Described A B fifo r →
      ∀ (order : IterationOrder) (csvOpen : Bool) (evs : List RawEvent), evs.length < 2 ^ 31 →
        (run cfg order csvOpen evs).world.fifoSamples r.name =
          (paired fifo.queueSize.toInt.toNat (queueOps r (calls (parts cfg order) evs))).map
            (fifoSample r) := by
  intro h
  have hrun := h ⟨"nebulaX", "", [], [⟨"io_flow", [0, 1], "seq", 4096⟩,
      ⟨"send_flow", [5, 6], "seq", 4096⟩, ⟨"ring_queue", [1, 5], "fifo", 1⟩], [⟨"ring", 1, 5⟩]⟩
    ⟨"io_flow", [0, 1], "seq", 4096⟩ ⟨"send_flow", [5, 6], "seq", 4096⟩
    ⟨"ring_queue", [1, 5], "fifo", 1⟩ ⟨"ring", 1, 5⟩
    ⟨by decide, by decide, by decide, by decide, by decide, by decide, by decide, by decide,
      by decide, by decide⟩ default false
    [⟨10, 7, 0, 0⟩, ⟨11, 7, 1, 0⟩, ⟨12, 7, 0, 0⟩, ⟨13, 7, 1, 0⟩, ⟨14, 8, 5, 0⟩, ⟨15, 8, 6, 0⟩,
      ⟨16, 8, 5, 0⟩, ⟨17, 8, 6, 0⟩] (by decide)
  have hlen := congrArg List.length hrun
  revert hlen
  decide

/-- The same queue declared under the name of the report keeps one timestamp only. -/
theorem declared_queue_governs_ring :
    let cfg : Config := ⟨"nebulaX", "", [], [⟨"io_flow", [0, 1], "seq", 4096⟩,
      ⟨"send_flow", [5, 6], "seq", 4096⟩, ⟨"ring", [1, 5], "fifo", 1⟩], [⟨"ring", 1, 5⟩]⟩
    ∃ ring, queueOf cfg default ⟨"ring", 1, 5⟩ = some ring ∧ ring.capacity = 1 := by
  intro cfg
  exact ((@declared_queue_governs_iff cfg ⟨"io_flow", [0, 1], "seq", 4096⟩
    ⟨"send_flow", [5, 6], "seq", 4096⟩ ⟨"ring", [1, 5], "fifo", 1⟩ ⟨"ring", 1, 5⟩
    ⟨by decide, by decide, by decide, by decide, by decide, by decide, by decide, by decide,
      by decide, by decide⟩ default).mpr
    (Or.inl ⟨⟨"ring", [1, 5], "fifo", 1⟩, by decide, rfl, by decide, rfl, rfl⟩)).1

end LensX
