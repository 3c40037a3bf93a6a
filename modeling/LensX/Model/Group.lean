import LensX.General.Window
import LensX.Model.Matcher

/-! # Groups of events

What a matcher keeps of a group is the last event of every stage. The deltas
of a group depend on nothing else.
-/

namespace LensX

open Bitmask Pairs Window

/-- The timestamp of the last event of a stage. -/
def lastTs (w : List RawEvent) (s : ℤ) : UInt64 := ((lastOf RawEvent.stageNo s w).map (·.ts)).getD 0

/-- The thread of the last event of a stage. -/
def lastTid (w : List RawEvent) (s : ℤ) : UInt32 :=
  ((lastOf RawEvent.stageNo s w).map (·.tid)).getD 0

/-- The record holds the last occurrence of every stage in a covering list of events. -/
structure IsGroup (stages : List ℤ) (w : List RawEvent) (r : Record) : Prop where
  ts : ∀ s ∈ stages, r.ts s = lastTs w s
  tid : r.tid = lastTid w (minStage stages)

/-- The deltas of a group that consists of the given events. -/
def groupDeltas (stages : List ℤ) (w : List RawEvent) (tid : UInt32) : List Delta :=
  (pairs stages).map fun (a, b) => ⟨lastTs w b - lastTs w a, a, b, lastTs w a, lastTs w b, tid⟩

theorem IsGroup.pairDeltas_eq {stages : List ℤ} {w : List RawEvent} {r : Record}
    (hg : IsGroup stages w r) : pairDeltas stages r = groupDeltas stages w r.tid := by
  apply List.map_congr_left
  rintro ⟨a, b⟩ hp
  obtain ⟨ha, hb⟩ := mem_of_mem_pairs hp
  simp only [hg.ts a ha, hg.ts b hb]

theorem lastTs_of_lastOf {w : List RawEvent} {s : ℤ} {a : RawEvent}
    (h : lastOf RawEvent.stageNo s w = some a) : lastTs w s = a.ts := by simp [lastTs, h]

theorem lastTid_of_lastOf {w : List RawEvent} {s : ℤ} {a : RawEvent}
    (h : lastOf RawEvent.stageNo s w = some a) : lastTid w s = a.tid := by simp [lastTid, h]

theorem lastTs_concat (w : List RawEvent) (e : RawEvent) (s : ℤ) :
    lastTs (w ++ [e]) s = if e.stageNo = s then e.ts else lastTs w s := by
  unfold lastTs
  rw [lastOf_concat]
  split <;> rfl

theorem lastTid_concat (w : List RawEvent) (e : RawEvent) (s : ℤ) :
    lastTid (w ++ [e]) s = if e.stageNo = s then e.tid else lastTid w s := by
  unfold lastTid
  rw [lastOf_concat]
  split <;> rfl

/-- The record that a list of events leaves in a zeroed one. -/
def recordOf (stages : List ℤ) (w : List RawEvent) : Record :=
  ⟨lastTs w, ofList (w.map (·.stageNo)), lastTid w (minStage stages)⟩

@[simp] theorem recordOf_nil (stages : List ℤ) : recordOf stages [] = .zero := rfl

theorem recordOf_concat (stages : List ℤ) (w : List RawEvent) (e : RawEvent) :
    recordOf stages (w ++ [e]) =
      (if e.stageNo = minStage stages then { recordOf stages w with tid := e.tid }
        else recordOf stages w).put e.stageNo e.ts := by
  have hts : lastTs (w ++ [e]) = Function.update (lastTs w) e.stageNo e.ts := by
    ext s
    rw [lastTs_concat, Function.update_apply]
    simp only [eq_comm]
  have hm : ofList ((w ++ [e]).map (·.stageNo)) =
      ofList (w.map (·.stageNo)) ||| bit e.stageNo := by
    simp [ofList]
  unfold recordOf
  rw [hts, hm, lastTid_concat]
  split <;> rfl

theorem recordOf_full_iff {stages : List ℤ} (hr : ∀ s ∈ stages, InRange s) {w : List RawEvent}
    (hw : ∀ e ∈ w, e.stage < 64) :
    (recordOf stages w).Full (ofList stages) ↔ Covers RawEvent.stageNo stages w := by
  rw [Record.full_ofList hr]
  have hw' : ∀ s ∈ w.map (·.stageNo), InRange s := by
    intro s hs
    obtain ⟨e, he, rfl⟩ := List.mem_map.mp hs
    exact RawEvent.inRange_stageNo (hw e he)
  refine forall₂_congr fun s hs => ?_
  simp [recordOf, has_ofList hw' (hr s hs)]

theorem isGroup_recordOf (stages : List ℤ) (w : List RawEvent) :
    IsGroup stages w (recordOf stages w) := ⟨fun _ _ => rfl, rfl⟩

end LensX
