import LensX.Seq.Isolation
import LensX.Key.Segments
import LensX.System.Wiring

/-! # The calls of a run

The matchers do not depend on the state that the callbacks share. A run is
therefore a list of calls, fixed by the parts and the events, which are applied
to the shared state one after the other; the final drain follows.
-/

namespace LensX

open Bitmask Pairs Transducer

/-- A hook and the snapshot it is called with. -/
abbrev Call := Hook × StageSnapshot

def Call.apply (keys : ReportKeys) (w : World) (c : Call) : World := c.1.cb keys c.2 w

/-- The snapshot that a matcher completes with an event after others. -/
def completion (stages : List ℤ) (pre : List RawEvent) (e : RawEvent) : Option StageSnapshot :=
  (slotsStep stages (slotsAfter stages pre) e).2.map (snapshotOf stages)

theorem groups_concat (id : String) (stages : List ℤ) (evs : List RawEvent) (e : RawEvent) :
    groups id stages (evs ++ [e]) =
      groups id stages evs ++ (completion stages evs e).toList.map (e, ·) := by
  rw [groups_eq, groups_eq, emits_concat, List.map_append, completion]
  cases (slotsStep stages (slotsAfter stages evs) e).2 <;> rfl

theorem mem_of_completion {stages : List ℤ} (hr : ∀ s ∈ stages, InRange s) {pre : List RawEvent}
    {e : RawEvent} (hlt : ∀ x ∈ pre ++ [e], x.stage < 64) {s : StageSnapshot}
    (h : completion stages pre e = some s) : e.stageNo ∈ stages := by
  obtain ⟨r, hout, _⟩ := Option.map_eq_some_iff.mp h
  exact (completes_of_slotsStep hr hlt hout).1

/-- A completed snapshot has the stages of the list and a timestamp for each. -/
theorem ts_of_completion {stages : List ℤ} (hr : ∀ s ∈ stages, InRange s) {pre : List RawEvent}
    {e : RawEvent} {s : StageSnapshot} (h : completion stages pre e = some s) {t : ℤ}
    (ht : t ∈ stages) : Has s.stages t ∧ ∃ x, s.ts t = some x := by
  obtain ⟨r, _, rfl⟩ := Option.map_eq_some_iff.mp h
  refine ⟨(has_ofList hr (hr t ht)).mpr ht, r.ts t, ?_⟩
  rw [snapshotOf_ts]
  exact if_pos ht

namespace Part

/-- The calls of a part at an event after others. -/
def callsAt (pre : List RawEvent) (e : RawEvent) : Part → List Call
  | .seq _ stages hooks => (completion stages pre e).toList.flatMap fun s => hooks.map (·, s)
  | .key _ _ => []

/-- The deltas that a part holds after a sequence of events. -/
def pendingAfter (evs : List RawEvent) : Part → List Delta
  | .seq _ stages _ =>
    (emits (slotsStep stages) (fun _ => .zero) evs).flatMap fun o => pairDeltas stages o.2
  | .key id stages => ((KeyMatcher.new id stages).feedAll evs).pending

/-- The matcher of a part after a sequence of events. -/
def matcherAfter (keys : ReportKeys) (evs : List RawEvent) : Part → Matcher World
  | .seq id stages hooks =>
    .seq ⟨id, stages, hooks.map (Hook.cb keys), slotsAfter stages evs,
      pendingAfter evs (.seq id stages hooks)⟩
  | .key id stages => .key ((KeyMatcher.new id stages).feedAll evs)

theorem matcherAfter_nil (keys : ReportKeys) (p : Part) :
    p.matcherAfter keys [] = p.matcher keys := by
  cases p with
  | seq id stages hooks =>
    simp [matcherAfter, matcher, SeqMatcher.withCallbacks_eq, pendingAfter]
  | key id stages => rfl

/-- The deltas of a part are between stages of its list. -/
theorem stages_of_mem_pendingAfter {p : Part} {evs : List RawEvent} {d : Delta}
    (h : d ∈ p.pendingAfter evs) : (d.fromStage, d.toStage) ∈ pairs p.stages := by
  have hpair : ∀ {stages : List ℤ} {l : List (RawEvent × Record)},
      d ∈ l.flatMap (fun o => pairDeltas stages o.2) → (d.fromStage, d.toStage) ∈ pairs stages := by
    intro stages l hd
    obtain ⟨o, _, hd⟩ := List.mem_flatMap.mp hd
    obtain ⟨q, hq, rfl⟩ := List.mem_map.mp hd
    exact hq
  cases p with
  | seq id stages hooks => exact hpair h
  | key id stages =>
    rw [pendingAfter, KeyMatcher.feedAll_new] at h
    exact hpair h

/-- A matcher handles an event in the same way whatever the shared state is. -/
theorem feed_matcherAfter (keys : ReportKeys) (p : Part) (pre : List RawEvent) (e : RawEvent)
    (w : World) :
    (p.matcherAfter keys pre).feed e w =
      (p.matcherAfter keys (pre ++ [e]), (p.callsAt pre e).foldl (Call.apply keys) w) := by
  cases p with
  | seq id stages hooks =>
    simp only [matcherAfter, Matcher.feed, SeqMatcher.feed_eq, slotsAfter, run_concat, pendingAfter,
      emits_concat, List.flatMap_append, callsAt, completion]
    cases (slotsStep stages (Transducer.run (slotsStep stages) (fun _ => .zero) pre) e).2 with
    | none => simp
    | some r =>
      simp [SeqMatcher.complete, List.foldl_map, Call.apply, snapshotOf, SeqMatcher.snapshot,
        SeqMatcher.new, SeqMatcher.stagesMask]
  | key id stages => simp [matcherAfter, Matcher.feed, KeyMatcher.feedAll, callsAt]

theorem drain_matcherAfter (keys : ReportKeys) (p : Part) (evs : List RawEvent) :
    (p.matcherAfter keys evs).drain.1 = p.pendingAfter evs := by
  cases p <;> rfl

end Part

/-- The calls of all parts at an event after others. -/
def callsAt (ps : List Part) (pre : List RawEvent) (e : RawEvent) : List Call :=
  ps.flatMap (Part.callsAt pre e)

/-- The calls of a sequence of events. -/
def calls (ps : List Part) (evs : List RawEvent) : List Call :=
  (prefixes evs).flatMap fun p => callsAt ps p.1 p.2

theorem calls_concat (ps : List Part) (evs : List RawEvent) (e : RawEvent) :
    calls ps (evs ++ [e]) = calls ps evs ++ callsAt ps evs e := by
  simp [calls, prefixes_concat]

theorem feedAll_eq (keys : ReportKeys) (ps : List Part) (pre : List RawEvent) (e : RawEvent)
    (w : World) :
    Tracer.feedAll (ps.map (·.matcherAfter keys pre)) e w =
      (ps.map (·.matcherAfter keys (pre ++ [e])),
        (callsAt ps pre e).foldl (Call.apply keys) w) := by
  induction ps generalizing w with
  | nil => rfl
  | cons p ps ih =>
    rw [List.map_cons, Tracer.feedAll, Part.feed_matcherAfter]
    simp only [ih, callsAt, List.flatMap_cons, List.foldl_append, List.map_cons]

theorem events_eq (keys : ReportKeys) (ps : List Part) (evs : List RawEvent) (w : World) :
    (Tracer.mk (ps.map (·.matcher keys)) w).events evs =
      ⟨ps.map (·.matcherAfter keys evs), (calls ps evs).foldl (Call.apply keys) w⟩ := by
  induction evs using List.reverseRecOn with
  | nil => simp [Tracer.events, calls, Part.matcherAfter_nil]
  | append_singleton evs e ih =>
    rw [Tracer.events, List.foldl_append, List.foldl_cons, List.foldl_nil]
    change Tracer.handleRingEvent ((Tracer.mk (ps.map (·.matcher keys)) w).events evs) e = _
    rw [ih, Tracer.handleRingEvent, feedAll_eq, calls_concat, List.foldl_append]

/-- The deltas of the final drain. -/
def drained (ps : List Part) (evs : List RawEvent) : List Delta :=
  ps.flatMap (Part.pendingAfter evs)

theorem init_eq (cfg : Config) (order : IterationOrder) (csvOpen : Bool) :
    Tracer.init cfg order csvOpen =
      ⟨(parts cfg order).map (·.matcher (reportKeys cfg.reports)),
        (Tracer.init cfg order csvOpen).world⟩ := by
  rw [← wire_matchers]
  rfl

/-- A run applies its calls and records the drained deltas. -/
theorem run_world (cfg : Config) (order : IterationOrder) (csvOpen : Bool) (evs : List RawEvent) :
    (run cfg order csvOpen evs).world =
      (drained (parts cfg order) evs).foldl (Tracer.recordDelta (reportKeys cfg.reports))
        ((calls (parts cfg order) evs).foldl (Call.apply (reportKeys cfg.reports))
          (Tracer.init cfg order csvOpen).world) := by
  rw [run, init_eq, events_eq, Tracer.drainAll]
  simp only [List.foldl_map, Part.drain_matcherAfter, drained]
  rw [List.foldl_flatMap]

end LensX
