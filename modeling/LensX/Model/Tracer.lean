import LensX.Model.Config
import LensX.Model.Matcher

/-! # The tracer

The part of `main` in `lensx.cpp` that turns events into samples: the wiring of
matchers, queues and reports, the handling of an event and the final drain.
Undefined operations are collected with the report whose callback reached them.
-/

namespace LensX

open Bitmask Pairs

/-- The counters of a report. -/
structure Hist where
  buckets : ℕ → UInt64
  count : Int32

namespace Hist

def empty : Hist := ⟨fun _ => 0, 0⟩

/-- `HIST_BUCKETS`. -/
def bucketCount : ℕ := 48

/-- The bucket of a value: the position of its leading bit, clamped to the last bucket. -/
def bucket (valNs : UInt64) : ℕ :=
  let idx := 63 - (valNs ||| 1).toBitVec.clz.toNat
  if idx ≥ bucketCount then bucketCount - 1 else idx

def record (h : Hist) (valNs : UInt64) : Hist where
  count := h.count + 1
  buckets := Function.update h.buckets (bucket valNs) (h.buckets (bucket valNs) + 1)

end Hist

/-- A row of the raw data file. -/
structure CsvRow where
  fromStage : ℤ
  toStage : ℤ
  valNs : UInt64
  tsFrom : UInt64
  tsTo : UInt64
  tid : UInt32
  deriving DecidableEq, Repr

/-- The three places of `main` that record samples. -/
inductive Route where
  | seq
  | fifo
  | drain
  deriving DecidableEq, Repr

/-- One call of `Hist::record`. -/
structure Sample where
  route : Route
  report : String
  row : CsvRow
  deriving DecidableEq, Repr

/-- The state shared by the callbacks. The last two fields are history: every recorded sample
and every undefined operation. -/
structure World where
  fifos : String → Option FifoQueue
  hists : String → Option Hist
  csv : Option (List CsvRow)
  samples : List Sample
  faults : List (String × Undefined)

namespace World

/-- `hists[name].record(..)`. -/
def record (w : World) (route : Route) (name : String) (row : CsvRow) : World :=
  { w with
    hists := Function.update w.hists name (some (((w.hists name).getD .empty).record row.valNs))
    csv := w.csv.map (· ++ [row])
    samples := w.samples ++ [⟨route, name, row⟩] }

def fault (w : World) (name : String) (u : Undefined) : World :=
  { w with faults := w.faults ++ [(name, u)] }

/-- Record the latency between two timestamps, either of which may be unassigned. -/
def recordBetween (w : World) (route : Route) (name : String) (a b : ℤ)
    (tsA tsB : Option UInt64) (tid : UInt32) : World :=
  match tsA, tsB with
  | some x, some y => w.record route name ⟨a, b, y - x, x, y, tid⟩
  | _, _ => w.fault name .uninitialised

end World

/-- `report_keys`. -/
abbrev ReportKeys := ℤ × ℤ → Option String

def reportKeys (reports : List ReportConfig) : ReportKeys :=
  reports.foldl (fun keys r => Function.update keys (r.fromStage, r.toStage) (some r.name))
    (fun _ => none)

/-- The callback of every seq matcher: the pairs of completed stages that have a report. -/
def recordPairs (keys : ReportKeys) : Cb World := fun s w =>
  (pairs (((List.range 64).map Int.ofNat).filter (Has s.stages ·))).foldl (fun w (i, j) =>
    match keys (i, j) with
    | some name => w.recordBetween .seq name i j (s.ts i) (s.ts j) s.tid
    | none => w) w

/-- The callback of a report's producer. -/
def pushCb (r : ReportConfig) : Cb World := fun s w =>
  if Has s.stages r.fromStage then
    match s.ts r.fromStage, w.fifos r.name with
    | some ts, some q =>
      match q.push r.fromStage ts with
      | .ok q' => { w with fifos := Function.update w.fifos r.name (some q') }
      | .error u => w.fault r.name u
    | none, _ => w.fault r.name .uninitialised
    | _, none => w
  else w

/-- The callback of a report's consumer; a pop from an empty queue is dropped. -/
def popCb (r : ReportConfig) : Cb World := fun s w =>
  if Has s.stages r.toStage then
    match w.fifos r.name with
    | some q =>
      match q.pop r.toStage none with
      | .ok (true, pushTs, q') =>
        { w with fifos := Function.update w.fifos r.name (some q') }.recordBetween .fifo r.name
          r.fromStage r.toStage pushTs (s.ts r.toStage) s.tid
      | .ok (false, _, _) => w
      | .error u => w.fault r.name u
    | none => w
  else w

/-- The matchers that receive events. -/
inductive Matcher (σ : Type*) where
  | seq (m : SeqMatcher σ)
  | key (m : KeyMatcher)

namespace Matcher

variable {σ : Type*}

def feed (m : Matcher σ) (e : RawEvent) (w : σ) : Matcher σ × σ :=
  match m with
  | .seq m => (.seq (m.feed e w).1, (m.feed e w).2)
  | .key m => (.key (m.feed e), w)

def drain (m : Matcher σ) : List Delta × Matcher σ :=
  match m with
  | .seq m => (m.drain.1, .seq m.drain.2)
  | .key m => (m.drain.1, .key m.drain.2)

def hasStage (m : Matcher σ) (stage : ℤ) : Bool :=
  match m with
  | .seq m => m.hasStage stage
  | .key _ => false

def onComplete (m : Matcher σ) (cb : Cb σ) : Matcher σ :=
  match m with
  | .seq m => .seq (m.onComplete cb)
  | .key m => .key m

end Matcher

/-- An order in which an unordered map visits its entries. -/
structure IterationOrder where
  visit : List (String × ℕ) → List (String × ℕ)
  perm : ∀ l, (visit l).Perm l

instance : Inhabited IterationOrder := ⟨⟨id, List.Perm.refl⟩⟩

/-- The matchers with `seq_map`, whose pointers are positions in the list of matchers, and
`fifo_map`. -/
structure Wiring where
  matchers : List (Matcher World)
  seqMap : List (String × ℕ)
  fifos : String → Option FifoQueue

namespace Wiring

def empty : Wiring := ⟨[], [], fun _ => none⟩

def addMatcher (c : Wiring) (mc : MatcherConfig) : Wiring :=
  if mc.mode = "seq" then
    { c with
      matchers := c.matchers ++ [.seq (.new mc.id mc.stages)]
      seqMap := c.seqMap.filter (·.1 ≠ mc.id) ++ [(mc.id, c.matchers.length)] }
  else if mc.mode = "key" then
    { c with matchers := c.matchers ++ [.key (.new mc.id mc.stages)] }
  else if mc.mode = "fifo" then
    if mc.stages.length < 2 then c
    else { c with fifos := Function.update c.fifos mc.id (some (.new mc.id mc.queueSize)) }
  else c

def onCompleteAt (c : Wiring) (p : ℕ) (cb : Cb World) : Wiring :=
  { c with matchers := c.matchers.modify p (·.onComplete cb) }

/-- The last visited seq matcher that has the stage. -/
def findSeq (c : Wiring) (seqs : List (String × ℕ)) (stage : ℤ) : Option ℕ :=
  seqs.foldl (fun found entry =>
    if (c.matchers[entry.2]?.elim false (·.hasStage stage)) then some entry.2 else found) none

/-- Connect a report whose stages belong to two different seq matchers. -/
def connect (seqs : List (String × ℕ)) (c : Wiring) (r : ReportConfig) : Wiring :=
  match c.findSeq seqs r.fromStage, c.findSeq seqs r.toStage with
  | some pushSeq, some popSeq =>
    if pushSeq = popSeq then c
    else
      let fifos := match c.fifos r.name with
        | some _ => c.fifos
        | none => Function.update c.fifos r.name (some (.new r.name 4096))
      ({ c with fifos := fifos }.onCompleteAt pushSeq (pushCb r)).onCompleteAt popSeq (popCb r)
  | _, _ => c

end Wiring

/-- The wiring built from a configuration before the first event. -/
def wire (cfg : Config) (order : IterationOrder) : Wiring :=
  let c := cfg.matchers.foldl Wiring.addMatcher .empty
  let seqs := order.visit c.seqMap
  let c := seqs.foldl
    (fun c entry => c.onCompleteAt entry.2 (recordPairs (reportKeys cfg.reports))) c
  cfg.reports.foldl (Wiring.connect seqs) c

/-- The state of the event loop. -/
structure Tracer where
  matchers : List (Matcher World)
  world : World

namespace Tracer

/-- The state before the first event; `csvOpen` says whether the raw data file could be opened. -/
def init (cfg : Config) (order : IterationOrder) (csvOpen : Bool) : Tracer where
  matchers := (wire cfg order).matchers
  world :=
    { fifos := (wire cfg order).fifos
      hists := fun _ => none
      csv := if cfg.csvPath ≠ "" ∧ csvOpen then some [] else none
      samples := []
      faults := [] }

/-- Feed an event to every matcher in the order of the list. -/
def feedAll : List (Matcher World) → RawEvent → World → List (Matcher World) × World
  | [], _, w => ([], w)
  | m :: ms, e, w =>
    let (m', w) := m.feed e w
    let (ms', w) := feedAll ms e w
    (m' :: ms', w)

def handleRingEvent (t : Tracer) (e : RawEvent) : Tracer :=
  ⟨(feedAll t.matchers e t.world).1, (feedAll t.matchers e t.world).2⟩

def events (t : Tracer) (evs : List RawEvent) : Tracer := evs.foldl handleRingEvent t

/-- Record a drained delta if its pair of stages has a report. -/
def recordDelta (keys : ReportKeys) (w : World) (d : Delta) : World :=
  match keys (d.fromStage, d.toStage) with
  | some name => w.record .drain name ⟨d.fromStage, d.toStage, d.valNs, d.tsFrom, d.tsTo, d.tid⟩
  | none => w

/-- The final drain of all matchers. -/
def drainAll (keys : ReportKeys) (t : Tracer) : Tracer where
  matchers := t.matchers.map (·.drain.2)
  world := t.matchers.foldl (fun w m => m.drain.1.foldl (recordDelta keys) w) t.world

end Tracer

/-- A whole run: wiring, events and the final drain. -/
def run (cfg : Config) (order : IterationOrder) (csvOpen : Bool) (evs : List RawEvent) : Tracer :=
  ((Tracer.init cfg order csvOpen).events evs).drainAll (reportKeys cfg.reports)

end LensX
