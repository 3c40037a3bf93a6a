import Mathlib.Order.Bounds.Basic
import Mathlib.Logic.Function.Basic
import LensX.General.Bitmask
import LensX.General.Pairs

/-! # Matchers and queues

The events, the two matchers and the queue of `matcher.h` and `matcher.cpp`. A
callback reads and writes state outside the matcher; that state is a type
parameter and a callback is a function on it.
-/

namespace LensX

open Bitmask Pairs

/-- One latency between two stages. -/
structure Delta where
  valNs : UInt64
  fromStage : ℤ
  toStage : ℤ
  tsFrom : UInt64
  tsTo : UInt64
  tid : UInt32
  deriving DecidableEq, Repr

/-- An event as read from the BPF ring buffer. -/
structure RawEvent where
  ts : UInt64
  tid : UInt32
  stage : UInt8
  key : UInt64
  deriving DecidableEq, Repr

/-- `int stage = e.stage`. -/
def RawEvent.stageNo (e : RawEvent) : ℤ := e.stage.toNat

theorem RawEvent.inRange_stageNo {e : RawEvent} (h : e.stage < 64) : InRange e.stageNo := by
  have : e.stage.toNat < 64 := by simpa [UInt8.lt_iff_toNat_lt] using h
  exact ⟨by simp [stageNo], by unfold stageNo; omega⟩

/-- The test at the head of `feed`. -/
def passes (stages : List ℤ) (e : RawEvent) : Bool := ofList stages &&& bit e.stageNo ≠ 0

theorem passes_eq_false_iff {stages : List ℤ} {e : RawEvent} :
    passes stages e = false ↔ ofList stages &&& bit e.stageNo = 0 := by
  simp [passes]

theorem RawEvent.mask_eq_zero_iff {stages : List ℤ} (hr : ∀ s ∈ stages, InRange s) {e : RawEvent}
    (h : e.stage < 64) : ofList stages &&& bit e.stageNo = 0 ↔ e.stageNo ∉ stages := by
  rw [← has_ofList hr (inRange_stageNo h), Has, not_not]

theorem passes_iff {stages : List ℤ} (hr : ∀ s ∈ stages, InRange s) {e : RawEvent}
    (h : e.stage < 64) : passes stages e = true ↔ e.stageNo ∈ stages := by
  rw [← has_ofList hr (RawEvent.inRange_stageNo h)]
  simp [passes, Has]

theorem filter_passes {stages : List ℤ} (hr : ∀ s ∈ stages, InRange s) {evs : List RawEvent}
    (hlt : ∀ e ∈ evs, e.stage < 64) :
    evs.filter (passes stages) = evs.filter (·.stageNo ∈ stages) := by
  apply List.filter_congr
  intro e he
  rw [Bool.eq_iff_iff, passes_iff hr (hlt e he), decide_eq_true_eq]

/-- The timestamps of a completed group; entries that were never assigned are `none`. -/
structure StageSnapshot where
  ts : ℤ → Option UInt64
  stages : UInt64
  tid : UInt32

/-- The partial group of a thread or of a key. -/
structure Record where
  ts : ℤ → UInt64
  filled : UInt64
  tid : UInt32

/-- A zero-initialised record. -/
def Record.zero : Record := ⟨fun _ => 0, 0, 0⟩

/-- Store the timestamp of a stage and set its bit. -/
def Record.put (r : Record) (stage : ℤ) (ts : UInt64) : Record :=
  { r with ts := Function.update r.ts stage ts, filled := r.filled ||| bit stage }

/-- Every stage of the mask is filled. -/
def Record.Full (r : Record) (mask : UInt64) : Prop := r.filled &&& mask = mask

instance (r : Record) (mask : UInt64) : Decidable (r.Full mask) :=
  inferInstanceAs (Decidable (_ = _))

theorem Record.full_ofList {stages : List ℤ} (hr : ∀ s ∈ stages, InRange s) {r : Record} :
    r.Full (ofList stages) ↔ ∀ s ∈ stages, Has r.filled s := ofList_subset_iff hr

/-- The minimum computed by the constructors, which start from 64. -/
def minStage (stages : List ℤ) : ℤ := stages.foldl (fun f s => if s < f then s else f) 64

theorem minStage_foldl (l : List ℤ) (m : ℤ) :
    l.foldl (fun f s => if s < f then s else f) m ≤ m ∧
      (∀ s ∈ l, l.foldl (fun f s => if s < f then s else f) m ≤ s) ∧
      (l.foldl (fun f s => if s < f then s else f) m = m ∨
        l.foldl (fun f s => if s < f then s else f) m ∈ l) := by
  induction l generalizing m with
  | nil => simp
  | cons a l ih =>
    obtain ⟨h₁, h₂, h₃⟩ := ih (if a < m then a else m)
    have ha : (if a < m then a else m) ≤ a ∧ (if a < m then a else m) ≤ m := by split <;> omega
    simp only [List.foldl_cons, List.mem_cons, forall_eq_or_imp]
    refine ⟨h₁.trans ha.2, ⟨h₁.trans ha.1, h₂⟩, ?_⟩
    rcases h₃ with h₃ | h₃
    · rw [h₃]
      split <;> simp
    · exact Or.inr (Or.inr h₃)

theorem minStage_le {stages : List ℤ} {s : ℤ} (hs : s ∈ stages) : minStage stages ≤ s :=
  (minStage_foldl stages 64).2.1 s hs

theorem minStage_mem {stages : List ℤ} (hr : ∀ s ∈ stages, InRange s) {s : ℤ} (hs : s ∈ stages) :
    minStage stages ∈ stages := by
  rcases (minStage_foldl stages 64).2.2 with h | h
  · have h₁ : minStage stages ≤ s := minStage_le hs
    have h₂ : minStage stages = 64 := h
    have := (hr s hs).2
    omega
  · exact h

/-- The constructors find the least stage of a list in range. -/
theorem minStage_eq {stages : List ℤ} (hr : ∀ s ∈ stages, InRange s) {f : ℤ}
    (hf : IsLeast {s | s ∈ stages} f) : minStage stages = f :=
  le_antisymm (minStage_le hf.1) (hf.2 (minStage_mem hr hf.1))

/-- The deltas of a complete record, one for each pair of positions of the stage list. -/
def pairDeltas (stages : List ℤ) (r : Record) : List Delta :=
  (pairs stages).map fun (a, b) => ⟨r.ts b - r.ts a, a, b, r.ts a, r.ts b, r.tid⟩

section Seq

variable {σ : Type*}

/-- A callback for completed groups. -/
abbrev Cb (σ : Type*) := StageSnapshot → σ → σ

/-- Pairing within a thread. The mask and the first stage are functions of the stage list. -/
structure SeqMatcher (σ : Type*) where
  id : String
  stages : List ℤ
  onCompleteCbs : List (Cb σ)
  slots : UInt32 → Record
  pending : List Delta

namespace SeqMatcher

def new (id : String) (stages : List ℤ) : SeqMatcher σ := ⟨id, stages, [], fun _ => .zero, []⟩

def stagesMask (m : SeqMatcher σ) : UInt64 := ofList m.stages

def firstStage (m : SeqMatcher σ) : ℤ := minStage m.stages

def onComplete (m : SeqMatcher σ) (cb : Cb σ) : SeqMatcher σ :=
  { m with onCompleteCbs := m.onCompleteCbs ++ [cb] }

def hasStage (m : SeqMatcher σ) (stage : ℤ) : Bool := m.stagesMask &&& bit stage != 0

/-- `tid % TID_SLOTS`. -/
def tidHash (tid : UInt32) : UInt32 := tid % 65536

/-- The slot of the event's thread with the event stored; the first stage starts a new group. -/
def store (m : SeqMatcher σ) (e : RawEvent) : Record :=
  let slot := m.slots (tidHash e.tid)
  let slot := if e.stageNo = m.firstStage then { slot with filled := 0, tid := e.tid } else slot
  slot.put e.stageNo e.ts

/-- The snapshot handed to the callbacks; only the stages of the list are assigned. -/
def snapshot (m : SeqMatcher σ) (slot : Record) : StageSnapshot where
  ts := m.stages.foldl (fun ts s => Function.update ts s (some (slot.ts s))) (fun _ => none)
  stages := m.stagesMask
  tid := slot.tid

@[simp] theorem snapshot_stages (m : SeqMatcher σ) (slot : Record) :
    (m.snapshot slot).stages = ofList m.stages := rfl

@[simp] theorem snapshot_tid (m : SeqMatcher σ) (slot : Record) :
    (m.snapshot slot).tid = slot.tid := rfl

theorem snapshot_ts (m : SeqMatcher σ) (slot : Record) (s : ℤ) :
    (m.snapshot slot).ts s = if s ∈ m.stages then some (slot.ts s) else none := by
  have h : ∀ (l : List ℤ) (ts : ℤ → Option UInt64),
      l.foldl (fun ts s => Function.update ts s (some (slot.ts s))) ts s =
        if s ∈ l then some (slot.ts s) else ts s := by
    intro l
    induction l with
    | nil => simp
    | cons a l ih =>
      intro ts
      rw [List.foldl_cons, ih]
      by_cases hs : s = a <;> simp [hs]
  exact h m.stages _

def feed (m : SeqMatcher σ) (e : RawEvent) (w : σ) : SeqMatcher σ × σ :=
  if m.stagesMask &&& bit e.stageNo = 0 then (m, w)
  else
    let slot := m.store e
    if slot.Full m.stagesMask then
      ({ m with
          pending := m.pending ++ pairDeltas m.stages slot
          slots := Function.update m.slots (tidHash e.tid) { slot with filled := 0 } },
        m.onCompleteCbs.foldl (fun w cb => cb (m.snapshot slot) w) w)
    else ({ m with slots := Function.update m.slots (tidHash e.tid) slot }, w)

def drain (m : SeqMatcher σ) : List Delta × SeqMatcher σ := (m.pending, { m with pending := [] })

end SeqMatcher

end Seq

/-- Pairing by request key. -/
structure KeyMatcher where
  id : String
  stages : List ℤ
  records : UInt64 → Option Record
  pending : List Delta

namespace KeyMatcher

def new (id : String) (stages : List ℤ) : KeyMatcher := ⟨id, stages, fun _ => none, []⟩

def stagesMask (m : KeyMatcher) : UInt64 := ofList m.stages

def firstStage (m : KeyMatcher) : ℤ := minStage m.stages

/-- The record of the event's key with the event stored; a missing record is created zeroed. -/
def store (m : KeyMatcher) (e : RawEvent) : Record :=
  let rec₀ := (m.records e.key).getD .zero
  let rec₀ := if e.stageNo = m.firstStage then { rec₀ with tid := e.tid } else rec₀
  rec₀.put e.stageNo e.ts

def feed (m : KeyMatcher) (e : RawEvent) : KeyMatcher :=
  if m.stagesMask &&& bit e.stageNo = 0 then m
  else
    let rec₀ := m.store e
    if rec₀.Full m.stagesMask then
      { m with
        pending := m.pending ++ pairDeltas m.stages rec₀
        records := Function.update m.records e.key none }
    else { m with records := Function.update m.records e.key (some rec₀) }

def drain (m : KeyMatcher) : List Delta × KeyMatcher := (m.pending, { m with pending := [] })

end KeyMatcher

/-- Operations that the language leaves undefined. -/
inductive Undefined where
  | divisionByZero
  | overflow
  | indexOutOfRange
  | uninitialised
  deriving DecidableEq, Repr

/-- The result of an operation on signed integers, which has to fit. -/
def checked (n : ℤ) : Except Undefined Int32 :=
  if h : Int32.minValue.toInt ≤ n ∧ n ≤ Int32.maxValue.toInt then .ok (.ofIntLE n h.1 h.2)
  else .error .overflow

theorem checked_spec {n : ℤ} (h₁ : -2147483648 ≤ n) (h₂ : n < 2147483648) :
    ∃ x, checked n = .ok x ∧ x.toInt = n := by
  have h : Int32.minValue.toInt ≤ n ∧ n ≤ Int32.maxValue.toInt :=
    ⟨h₁, Int.lt_add_one_iff.mp h₂⟩
  exact ⟨_, dif_pos h, Int32.toInt_ofIntLE⟩

/-- A ring of timestamps; cells that were never written are `none`. -/
structure FifoQueue where
  id : String
  capacity : Int32
  head : Int32
  tail : Int32
  queue : UInt32 → Option UInt64

namespace FifoQueue

def new (id : String) (capacity : Int32) : FifoQueue := ⟨id, capacity, 0, 0, fun _ => none⟩

/-- The index computed from a counter. -/
def slot (q : FifoQueue) (counter : Int32) : UInt32 := (counter % q.capacity).toUInt32

def InBounds (q : FifoQueue) (slot : UInt32) : Prop := (slot.toNat : ℤ) < q.capacity.toInt

instance (q : FifoQueue) (slot : UInt32) : Decidable (q.InBounds slot) :=
  inferInstanceAs (Decidable (_ < _))

def push (q : FifoQueue) (_stage : ℤ) (ts : UInt64) : Except Undefined FifoQueue :=
  if q.capacity = 0 then .error .divisionByZero
  else do
    let slot := q.slot q.tail
    let tail ← checked (q.tail.toInt + 1)
    let length ← checked (tail.toInt - q.head.toInt)
    let head ← (if length > q.capacity then checked (tail.toInt - q.capacity.toInt)
      else .ok q.head : Except Undefined Int32)
    if q.InBounds slot then
      .ok { q with head := head, tail := tail, queue := Function.update q.queue slot (some ts) }
    else .error .indexOutOfRange

/-- The success flag, the output argument after the call and the queue. -/
def pop (q : FifoQueue) (_stage : ℤ) (ts : Option UInt64) :
    Except Undefined (Bool × Option UInt64 × FifoQueue) :=
  if q.head ≥ q.tail then .ok (false, ts, q)
  else if q.capacity = 0 then .error .divisionByZero
  else do
    let slot := q.slot q.head
    let head ← checked (q.head.toInt + 1)
    if q.InBounds slot then
      match q.queue slot with
      | some v => .ok (true, some v, { q with head := head })
      | none => .error .uninitialised
    else .error .indexOutOfRange

end FifoQueue

end LensX
