import LensX.General.Related
import LensX.Model.Report
import LensX.System.Samples

/-! # The origin of time

The probes read a clock whose origin is arbitrary. When all events are moved by the same
amount, modulo the range of the clock, a run records the same latencies and prints the
same reports.
-/

namespace LensX

open Bitmask Pairs Transducer

/-- The event read from a clock that is ahead. -/
def RawEvent.shift (c : UInt64) (e : RawEvent) : RawEvent := { e with ts := e.ts + c }

def StageSnapshot.shift (c : UInt64) (s : StageSnapshot) : StageSnapshot :=
  { s with ts := fun t => (s.ts t).map (· + c) }

def Delta.shift (c : UInt64) (d : Delta) : Delta :=
  { d with tsFrom := d.tsFrom + c, tsTo := d.tsTo + c }

def CsvRow.shift (c : UInt64) (r : CsvRow) : CsvRow :=
  { r with tsFrom := r.tsFrom + c, tsTo := r.tsTo + c }

def Sample.shift (c : UInt64) (x : Sample) : Sample := { x with row := x.row.shift c }

def FifoQueue.shift (c : UInt64) (q : FifoQueue) : FifoQueue :=
  { q with queue := fun i => (q.queue i).map (· + c) }

/-- The shared state with all timestamps moved; the histograms are the same. -/
def World.shift (c : UInt64) (w : World) : World :=
  { w with
    fifos := fun name => (w.fifos name).map (FifoQueue.shift c)
    csv := w.csv.map (List.map (CsvRow.shift c))
    samples := w.samples.map (Sample.shift c) }

variable {c : UInt64}

theorem add_sub_add (x y : UInt64) : y + c - (x + c) = y - x := by
  rw [← UInt64.toNat_inj]
  have hx := x.toNat_lt
  have hy := y.toNat_lt
  have hc := c.toNat_lt
  simp only [UInt64.toNat_sub, UInt64.toNat_add]
  omega

section Callbacks

variable {w : World}

theorem shift_record (w : World) (route : Route) (name : String) (row : CsvRow) :
    (w.shift c).record route name (row.shift c) = (w.record route name row).shift c := by
  simp [World.record, World.shift, CsvRow.shift, Sample.shift, Function.comp_def]

theorem shift_recordBetween (w : World) (route : Route) (name : String) (a b : ℤ)
    (tsA tsB : Option UInt64) (tid : UInt32) :
    (w.shift c).recordBetween route name a b (tsA.map (· + c)) (tsB.map (· + c)) tid =
      (w.recordBetween route name a b tsA tsB tid).shift c := by
  cases tsA with
  | none => rfl
  | some x =>
    cases tsB with
    | none => rfl
    | some y =>
      change (w.shift c).record route name ⟨a, b, y + c - (x + c), x + c, y + c, tid⟩ = _
      rw [add_sub_add]
      exact shift_record w route name ⟨a, b, y - x, x, y, tid⟩

theorem shift_recordPairs (keys : ReportKeys) (s : StageSnapshot) (w : World) :
    recordPairs keys (s.shift c) (w.shift c) = (recordPairs keys s w).shift c := by
  unfold recordPairs
  change List.foldl _ _ (pairs (((List.range 64).map Int.ofNat).filter (Has s.stages ·))) = _
  generalize pairs (((List.range 64).map Int.ofNat).filter (Has s.stages ·)) = l
  induction l generalizing w with
  | nil => rfl
  | cons p l ih =>
    rw [List.foldl_cons, List.foldl_cons, ← ih]
    congr 1
    dsimp only
    cases keys (p.1, p.2) with
    | none => rfl
    | some name => exact shift_recordBetween w .seq name p.1 p.2 _ _ s.tid

section Queue

variable (q : FifoQueue)

theorem shift_update (slot : UInt32) (ts : UInt64) (head tail : Int32) :
    (⟨q.id, q.capacity, head, tail, Function.update q.queue slot (some ts)⟩ : FifoQueue).shift c =
      ⟨q.id, q.capacity, head, tail,
        Function.update (q.shift c).queue slot (some (ts + c))⟩ := by
  simp only [FifoQueue.shift, FifoQueue.mk.injEq, true_and]
  funext i
  by_cases hi : i = slot
  · subst hi
    simp
  · simp [Function.update_of_ne hi]

theorem shift_push (stage : ℤ) (ts : UInt64) :
    (q.shift c).push stage (ts + c) = (q.push stage ts).map (FifoQueue.shift c) := by
  unfold FifoQueue.push
  change (if q.capacity = 0 then _ else _) = _
  split
  · rfl
  · change (checked (q.tail.toInt + 1) >>= _) = _
    rcases checked (q.tail.toInt + 1) with u | tail
    · rfl
    change (checked (tail.toInt - q.head.toInt) >>= _) = Except.map _ (checked _ >>= _)
    rcases checked (tail.toInt - q.head.toInt) with u | length
    · rfl
    change ((if length > q.capacity then checked (tail.toInt - q.capacity.toInt)
      else .ok q.head : Except Undefined Int32) >>= _) = Except.map _ (Except.bind (.ok _) _)
    change _ = Except.map _ ((if length > q.capacity then checked (tail.toInt - q.capacity.toInt)
      else .ok q.head : Except Undefined Int32) >>= _)
    rcases (if length > q.capacity then checked (tail.toInt - q.capacity.toInt)
      else .ok q.head : Except Undefined Int32) with u | head
    · rfl
    change (if q.InBounds (q.slot q.tail) then _ else _) = _
    split
    · exact congrArg Except.ok (shift_update q _ ts head tail).symm
    · rfl

theorem shift_pop (stage : ℤ) :
    (q.shift c).pop stage none =
      (q.pop stage none).map fun r => (r.1, r.2.1.map (· + c), r.2.2.shift c) := by
  unfold FifoQueue.pop
  change (if q.head ≥ q.tail then _ else if q.capacity = 0 then _ else _) = _
  split
  · rfl
  split
  · rfl
  · change (checked (q.head.toInt + 1) >>= _) = Except.map _ (checked _ >>= _)
    rcases checked (q.head.toInt + 1) with u | head
    · rfl
    change (if q.InBounds (q.slot q.head) then _ else _) = _
    split
    · have hcell : (q.shift c).queue ((q.shift c).slot (q.shift c).head) =
          (q.queue (q.slot q.head)).map (· + c) := rfl
      rw [hcell]
      rcases q.queue (q.slot q.head) with _ | v <;> rfl
    · rfl

end Queue

theorem shift_fifos (w : World) (name : String) (q : FifoQueue) :
    ({ w with fifos := Function.update w.fifos name (some q) } : World).shift c =
      { w.shift c with fifos := Function.update (w.shift c).fifos name (some (q.shift c)) } := by
  simp only [World.shift, World.mk.injEq, and_true]
  funext n
  by_cases hn : n = name
  · subst hn
    simp
  · simp [Function.update_of_ne hn]

theorem shift_pushCb (r : ReportConfig) (s : StageSnapshot) (w : World) :
    pushCb r (s.shift c) (w.shift c) = (pushCb r s w).shift c := by
  have hts : (s.shift c).ts r.fromStage = (s.ts r.fromStage).map (· + c) := rfl
  have hfifo : (w.shift c).fifos r.name = (w.fifos r.name).map (FifoQueue.shift c) := rfl
  rw [pushCb, pushCb, hts, hfifo]
  by_cases h : Has s.stages r.fromStage
  · have h' : Has (s.shift c).stages r.fromStage := h
    rw [if_pos h, if_pos h']
    rcases s.ts r.fromStage with _ | ts
    · rfl
    rcases w.fifos r.name with _ | q
    · rfl
    simp only [Option.map_some, shift_push]
    rcases q.push r.fromStage ts with u | q'
    · rfl
    · exact (shift_fifos w r.name q').symm
  · have h' : ¬ Has (s.shift c).stages r.fromStage := h
    rw [if_neg h, if_neg h']

theorem shift_popCb (r : ReportConfig) (s : StageSnapshot) (w : World) :
    popCb r (s.shift c) (w.shift c) = (popCb r s w).shift c := by
  have hfifo : (w.shift c).fifos r.name = (w.fifos r.name).map (FifoQueue.shift c) := rfl
  rw [popCb, popCb, hfifo]
  by_cases h : Has s.stages r.toStage
  · have h' : Has (s.shift c).stages r.toStage := h
    rw [if_pos h, if_pos h']
    rcases w.fifos r.name with _ | q
    · rfl
    simp only [Option.map_some, shift_pop]
    rcases q.pop r.toStage none with u | ⟨_ | _, ts, q'⟩
    · rfl
    · rfl
    · dsimp only [Except.map]
      rw [← shift_recordBetween, shift_fifos]
      rfl
  · have h' : ¬ Has (s.shift c).stages r.toStage := h
    rw [if_neg h, if_neg h']

theorem shift_cb (keys : ReportKeys) (h : Hook) (s : StageSnapshot) (w : World) :
    h.cb keys (s.shift c) (w.shift c) = (h.cb keys s w).shift c := by
  cases h with
  | pairs => exact shift_recordPairs keys s w
  | push r => exact shift_pushCb r s w
  | pop r => exact shift_popCb r s w

theorem shift_recordDelta (keys : ReportKeys) (w : World) (d : Delta) :
    Tracer.recordDelta keys (w.shift c) (d.shift c) = (Tracer.recordDelta keys w d).shift c := by
  have hkeys : keys ((d.shift c).fromStage, (d.shift c).toStage) =
    keys (d.fromStage, d.toStage) := rfl
  rw [Tracer.recordDelta, Tracer.recordDelta, hkeys]
  cases keys (d.fromStage, d.toStage) with
  | none => rfl
  | some name =>
    exact shift_record w .drain name ⟨d.fromStage, d.toStage, d.valNs, d.tsFrom, d.tsTo, d.tid⟩

end Callbacks

section Groups

variable {stages : List ℤ}

/-- The records of the same group in two runs. Entries that are not filled need not agree. -/
structure Ahead (c : UInt64) (r r' : Record) : Prop where
  filled : r'.filled = r.filled
  tid : r'.tid = r.tid
  ts : ∀ s, InRange s → Has r.filled s → r'.ts s = r.ts s + c

theorem Ahead.refl_zero : Ahead c .zero .zero :=
  ⟨rfl, rfl, fun s _ h => absurd h (not_has_zero s)⟩

theorem Ahead.put {r r' : Record} (h : Ahead c r r') {s : ℤ} (hs : InRange s) (ts : UInt64) :
    Ahead c (r.put s ts) (r'.put s (ts + c)) where
  filled := by simp [Record.put, h.filled]
  tid := h.tid
  ts := by
    intro t ht hfilled
    by_cases hts : t = s
    · subst hts
      simp [Record.put]
    · have hold : Has r.filled t := ((has_or_bit hs ht).mp hfilled).resolve_right (Ne.symm hts)
      simpa [Record.put, Function.update_of_ne hts] using h.ts t ht hold

theorem ahead_slotStore (stages : List ℤ) {r r' : Record} (h : Ahead c r r') {e : RawEvent}
    (he : e.stage < 64) : Ahead c (slotStore stages r e) (slotStore stages r' (e.shift c)) := by
  refine Ahead.put ?_ (RawEvent.inRange_stageNo he) e.ts
  change Ahead c _ (if e.stageNo = minStage stages then _ else r')
  split
  · exact ⟨rfl, rfl, fun s _ hs => absurd hs (not_has_zero s)⟩
  · exact h

theorem ahead_keyStore (stages : List ℤ) {o o' : Option Record}
    (h : Option.Rel (Ahead c) o o') {e : RawEvent} (he : e.stage < 64) :
    Ahead c (keyStore stages o e) (keyStore stages o' (e.shift c)) := by
  refine Ahead.put ?_ (RawEvent.inRange_stageNo he) e.ts
  have hold : Ahead c (o.getD .zero) (o'.getD .zero) := by
    cases h with
    | none => exact .refl_zero
    | some h => exact h
  change Ahead c _ (if e.stageNo = minStage stages then _ else o'.getD .zero)
  split
  · exact ⟨hold.filled, rfl, hold.ts⟩
  · exact hold

/-- Complete records, one ahead of the other. -/
def AheadFull (c : UInt64) (stages : List ℤ) (r r' : Record) : Prop :=
  Ahead c r r' ∧ r.Full (ofList stages)

theorem related_slotStep (c : UInt64) (stages : List ℤ) :
    Related (slotStep stages) (slotStep stages) (·.stage < 64) (RawEvent.shift c) (Ahead c)
      (AheadFull c stages) := by
  intro r r' e he h
  have hstore := ahead_slotStore stages h he
  have hfull : (slotStore stages r' (e.shift c)).Full (ofList stages) ↔
      (slotStore stages r e).Full (ofList stages) := by
    rw [Record.Full, hstore.filled, Record.Full]
  have hstage : (e.shift c).stageNo = e.stageNo := rfl
  rw [slotStep, slotStep, hstage]
  by_cases hmask : ofList stages &&& bit e.stageNo = 0
  · rw [if_pos hmask, if_pos hmask]
    exact ⟨h, .none⟩
  rw [if_neg hmask, if_neg hmask]
  by_cases hf : (slotStore stages r e).Full (ofList stages)
  · rw [if_pos hf, if_pos (hfull.mpr hf)]
    exact ⟨⟨rfl, hstore.tid, fun s _ hs => absurd hs (not_has_zero s)⟩, .some ⟨hstore, hf⟩⟩
  · rw [if_neg hf, if_neg (mt hfull.mp hf)]
    exact ⟨hstore, .none⟩

theorem related_keyStep (c : UInt64) (stages : List ℤ) :
    Related (keyStep stages) (keyStep stages) (·.stage < 64) (RawEvent.shift c)
      (Option.Rel (Ahead c)) (AheadFull c stages) := by
  intro o o' e he h
  have hstore := ahead_keyStore stages h he
  have hfull : (keyStore stages o' (e.shift c)).Full (ofList stages) ↔
      (keyStore stages o e).Full (ofList stages) := by
    rw [Record.Full, hstore.filled, Record.Full]
  have hstage : (e.shift c).stageNo = e.stageNo := rfl
  rw [keyStep, keyStep, hstage]
  by_cases hmask : ofList stages &&& bit e.stageNo = 0
  · rw [if_pos hmask, if_pos hmask]
    exact ⟨h, .none⟩
  rw [if_neg hmask, if_neg hmask]
  by_cases hf : (keyStore stages o e).Full (ofList stages)
  · rw [if_pos hf, if_pos (hfull.mpr hf)]
    exact ⟨.none, .some ⟨hstore, hf⟩⟩
  · rw [if_neg hf, if_neg (mt hfull.mp hf)]
    exact ⟨.some hstore, .none⟩

variable (hr : ∀ s ∈ stages, InRange s)
include hr

theorem AheadFull.ts {r r' : Record} (h : AheadFull c stages r r') {s : ℤ} (hs : s ∈ stages) :
    r'.ts s = r.ts s + c := h.1.ts s (hr s hs) ((Record.full_ofList hr).mp h.2 s hs)

theorem snapshotOf_ahead {r r' : Record} (h : AheadFull c stages r r') :
    snapshotOf stages r' = (snapshotOf stages r).shift c := by
  have hts : (snapshotOf stages r').ts = ((snapshotOf stages r).shift c).ts := by
    funext s
    change _ = ((snapshotOf stages r).ts s).map (· + c)
    rw [snapshotOf_ts, snapshotOf_ts]
    by_cases hs : s ∈ stages
    · rw [if_pos hs, if_pos hs, h.ts hr hs]
      rfl
    · rw [if_neg hs, if_neg hs]
      rfl
  exact StageSnapshot.mk.injEq .. |>.mpr ⟨hts, rfl, h.1.tid⟩

theorem pairDeltas_ahead {r r' : Record} (h : AheadFull c stages r r') :
    pairDeltas stages r' = (pairDeltas stages r).map (Delta.shift c) := by
  rw [pairDeltas, pairDeltas, List.map_map]
  refine List.map_congr_left fun p hp => ?_
  obtain ⟨ha, hb⟩ := mem_of_mem_pairs hp
  simp only [Function.comp_apply, Delta.shift, h.ts hr ha, h.ts hr hb, h.1.tid, add_sub_add]

end Groups

section Runs

theorem shift_completion {stages : List ℤ} (hr : ∀ s ∈ stages, InRange s) {pre : List RawEvent}
    {e : RawEvent} (hlt : ∀ x ∈ pre ++ [e], x.stage < 64) :
    completion stages (pre.map (RawEvent.shift c)) (e.shift c) =
      (completion stages pre e).map (StageSnapshot.shift c) := by
  have hrel := (related_slotStep c stages).keyed (fun e => SeqMatcher.tidHash e.tid) fun _ => rfl
  have hpre : ∀ k, Ahead c (slotsAfter stages pre k)
      (slotsAfter stages (pre.map (RawEvent.shift c)) k) :=
    hrel.run (fun x hx => hlt x (List.mem_append_left _ hx)) fun _ => .refl_zero
  have hout := (hrel _ _ e (hlt e (by simp)) hpre).2
  rw [completion, completion]
  generalize (slotsStep stages (slotsAfter stages pre) e).2 = o at hout
  generalize (slotsStep stages (slotsAfter stages (pre.map (RawEvent.shift c))) (e.shift c)).2 = o'
    at hout
  cases hout with
  | none => rfl
  | some h => exact congrArg some (snapshotOf_ahead hr h)

namespace Part

variable {p : Part} (hr : ∀ s ∈ p.stages, InRange s)
include hr

theorem shift_callsAt {pre : List RawEvent} {e : RawEvent}
    (hlt : ∀ x ∈ pre ++ [e], x.stage < 64) :
    p.callsAt (pre.map (RawEvent.shift c)) (e.shift c) =
      (p.callsAt pre e).map (Prod.map id (StageSnapshot.shift c)) := by
  cases p with
  | seq id stages hooks =>
    have hr' : ∀ s ∈ stages, InRange s := hr
    rw [callsAt, callsAt, shift_completion hr' hlt]
    cases completion stages pre e with
    | none => rfl
    | some s => simp
  | key id stages => rfl

theorem shift_pendingAfter {evs : List RawEvent} (hlt : ∀ x ∈ evs, x.stage < 64) :
    p.pendingAfter (evs.map (RawEvent.shift c)) = (p.pendingAfter evs).map (Delta.shift c) := by
  have hflat : ∀ {stages : List ℤ} {l l' : List (RawEvent × Record)},
      (∀ s ∈ stages, InRange s) →
      List.Forall₂ (fun o o' => o'.1 = o.1.shift c ∧ AheadFull c stages o.2 o'.2) l l' →
        l'.flatMap (fun o => pairDeltas stages o.2) =
          (l.flatMap fun o => pairDeltas stages o.2).map (Delta.shift c) := by
    intro stages l l' hr h
    induction h with
    | nil => rfl
    | cons ho _ ih =>
      rw [List.flatMap_cons, List.flatMap_cons, List.map_append, ih, pairDeltas_ahead hr ho.2]
  cases p with
  | seq id stages hooks =>
    exact hflat hr (((related_slotStep c stages).keyed (fun e => SeqMatcher.tidHash e.tid)
      fun _ => rfl).emits hlt fun _ => .refl_zero)
  | key id stages =>
    rw [pendingAfter, pendingAfter, KeyMatcher.feedAll_new, KeyMatcher.feedAll_new]
    exact hflat hr (((related_keyStep c stages).keyed RawEvent.key fun _ => rfl).emits hlt
      fun _ => .none)

end Part

variable {ps : List Part} (hr : ∀ p ∈ ps, ∀ s ∈ p.stages, InRange s) {evs : List RawEvent}
  (hlt : ∀ e ∈ evs, e.stage < 64)
include hr hlt

theorem shift_calls : calls ps (evs.map (RawEvent.shift c)) =
    (calls ps evs).map (Prod.map id (StageSnapshot.shift c)) := by
  rw [calls, calls, prefixes_map, List.flatMap_map, List.map_flatMap]
  refine List.flatMap_congr fun q hq => ?_
  have hq := (mem_prefixes.mp hq).subset
  rw [callsAt, callsAt, List.map_flatMap]
  exact List.flatMap_congr fun p hp => Part.shift_callsAt (hr p hp) fun x hx => hlt x (hq hx)

theorem shift_drained : drained ps (evs.map (RawEvent.shift c)) =
    (drained ps evs).map (Delta.shift c) := by
  rw [drained, drained, List.map_flatMap]
  exact List.flatMap_congr fun p hp => Part.shift_pendingAfter (hr p hp) hlt

end Runs

/-- The queues are empty at first. -/
theorem shift_init (cfg : Config) (order : IterationOrder) (csvOpen : Bool) :
    (Tracer.init cfg order csvOpen).world.shift c = (Tracer.init cfg order csvOpen).world := by
  have hbase : ∀ name, ((baseWiring cfg.matchers).fifos name).map (FifoQueue.shift c) =
      (baseWiring cfg.matchers).fifos name := by
    intro name
    cases hq : (baseWiring cfg.matchers).fifos name with
    | none => rfl
    | some q =>
      obtain ⟨mc, _, _, _, _, rfl⟩ := baseWiring_fifos hq
      rfl
  have hfifos : (fun name => ((wire cfg order).fifos name).map (FifoQueue.shift c)) =
      (wire cfg order).fifos := by
    funext name
    rw [wire_fifos]
    split
    · have hname := hbase name
      cases hq : (baseWiring cfg.matchers).fifos name with
      | none => rfl
      | some q => rw [hq] at hname; exact hname
    · exact hbase name
  have hcsv : (if cfg.csvPath ≠ "" ∧ csvOpen then some [] else none : Option (List CsvRow)).map
      (List.map (CsvRow.shift c)) = if cfg.csvPath ≠ "" ∧ csvOpen then some [] else none := by
    split <;> rfl
  simp only [Tracer.init, World.shift, hfifos, hcsv, List.map_nil]

theorem shift_foldl {β γ : Type*} {f : World → β → World} {f' : World → γ → World} {g : β → γ}
    (h : ∀ w b, f' (w.shift c) (g b) = (f w b).shift c) (w : World) (l : List β) :
    (l.map g).foldl f' (w.shift c) = (l.foldl f w).shift c := by
  rw [List.foldl_map]
  exact List.foldl_hom (World.shift c) fun w b => h w b

/-- Moving the clock moves the timestamps of the samples, but no latency and no report. -/
theorem run_shift {cfg : Config} (hr : ∀ mc ∈ cfg.matchers, ∀ s ∈ mc.stages, InRange s)
    (order : IterationOrder) (csvOpen : Bool) (c : UInt64) {evs : List RawEvent}
    (hlt : ∀ e ∈ evs, e.stage < 64) :
    let w := (run cfg order csvOpen evs).world
    let w' := (run cfg order csvOpen (evs.map (RawEvent.shift c))).world
    w'.samples = w.samples.map (Sample.shift c) ∧ w'.hists = w.hists ∧ w'.faults = w.faults ∧
      printReports cfg w' = printReports cfg w := by
  intro w w'
  have hparts : ∀ p ∈ parts cfg order, ∀ s ∈ p.stages, InRange s := by
    intro p hp
    obtain ⟨mc, hm, -, hst⟩ := matcher_of_mem_parts hp
    exact hst ▸ hr mc hm
  have hw : w' = w.shift c := by
    simp only [w, w', run_world]
    rw [shift_calls hparts hlt, shift_drained hparts hlt, ← shift_init cfg order csvOpen,
      shift_foldl fun w b => ?_, shift_foldl fun w d => shift_recordDelta _ w d, shift_init]
    exact shift_cb _ b.1 b.2 w
  rw [hw]
  exact ⟨rfl, rfl, rfl, rfl⟩

/-- The clock may pass its end within a group. -/
theorem run_shift_wrap :
    let cfg : Config := ⟨"nebulaX", "", [], [⟨"read_flow", [0, 1], "seq", 4096⟩], [⟨"read", 0, 1⟩]⟩
    printReports cfg
        (run cfg default false [⟨18446744073709551610, 7, 0, 0⟩, ⟨3, 7, 1, 0⟩]).world =
      printReports cfg (run cfg default false [⟨10, 7, 0, 0⟩, ⟨19, 7, 1, 0⟩]).world := by
  intro cfg
  exact (@run_shift cfg (by decide) default false 18446744073709551600
    [⟨10, 7, 0, 0⟩, ⟨19, 7, 1, 0⟩] (by decide)).2.2.2

end LensX
