import LensX.General.Transducer
import LensX.Model.Group

/-! # The records of a key matcher

A key matcher is a keyed product of record transducers. The record of a key
holds the unfinished segment of the greedy cut of the key's history, and a
group is emitted at the end of every finished segment.
-/

namespace LensX

open Bitmask Pairs Transducer Window

/-- The record with an event stored; a missing one is created zeroed. -/
def keyStore (stages : List ℤ) (o : Option Record) (e : RawEvent) : Record :=
  (if e.stageNo = minStage stages then { o.getD .zero with tid := e.tid } else o.getD .zero).put
    e.stageNo e.ts

/-- The effect of an event on the record of its key; a completed record is emitted and erased. -/
def keyStep (stages : List ℤ) : Step (Option Record) RawEvent Record := fun o e =>
  if ofList stages &&& bit e.stageNo = 0 then (o, none)
  else if (keyStore stages o e).Full (ofList stages) then (none, some (keyStore stages o e))
  else (some (keyStore stages o e), none)

/-- The records of a matcher and its events form a keyed product. -/
abbrev keysStep (stages : List ℤ) : Step (UInt64 → Option Record) RawEvent Record :=
  keyed RawEvent.key (keyStep stages)

namespace KeyMatcher

theorem feed_eq (m : KeyMatcher) (e : RawEvent) :
    m.feed e =
      { m with
        records := (keysStep m.stages m.records e).1
        pending := m.pending ++
          (keysStep m.stages m.records e).2.elim [] (pairDeltas m.stages) } := by
  unfold feed keysStep keyed keyStep
  change (if ofList m.stages &&& bit e.stageNo = 0 then _ else _) = _
  split
  · simp
  · change (if (keyStore m.stages (m.records e.key) e).Full (ofList m.stages)
      then _ else _) = _
    split
    · rfl
    · simp; rfl

/-- Feed a sequence of events. -/
def feedAll (m : KeyMatcher) (evs : List RawEvent) : KeyMatcher := evs.foldl feed m

/-- The completed records of a run, each with the event that completed it. -/
def completed (m : KeyMatcher) (evs : List RawEvent) : List (RawEvent × Record) :=
  emits (keysStep m.stages) m.records evs

/-- A run of the matcher is a run of its records, whose outputs go to `pending_`. -/
theorem feedAll_eq (m : KeyMatcher) (evs : List RawEvent) :
    m.feedAll evs =
      { m with
        records := Transducer.run (keysStep m.stages) m.records evs
        pending := m.pending ++ (m.completed evs).flatMap fun o => pairDeltas m.stages o.2 } := by
  unfold feedAll completed
  induction evs using List.reverseRecOn with
  | nil => simp
  | append_singleton evs e ih =>
    rw [List.foldl_append, ih, List.foldl_cons, List.foldl_nil, feed_eq]
    simp only [run_concat, emits_concat, List.flatMap_append]
    cases (keysStep m.stages (Transducer.run (keysStep m.stages) m.records evs) e).2 <;> simp

end KeyMatcher

/-- The events of a key that the stage list takes in. -/
def keyEvents (stages : List ℤ) (k : UInt64) (evs : List RawEvent) : List RawEvent :=
  evs.filter fun e => e.stageNo ∈ stages ∧ e.key = k

theorem mem_keyEvents {stages : List ℤ} {evs : List RawEvent} {k : UInt64} {e : RawEvent}
    (he : e ∈ keyEvents stages k evs) : e ∈ evs ∧ e.stageNo ∈ stages := by
  obtain ⟨hm, hp⟩ := List.mem_filter.mp he
  exact ⟨hm, (of_decide_eq_true hp).1⟩

theorem key_of_mem_keyEvents {stages : List ℤ} {evs : List RawEvent} {k : UInt64} {e : RawEvent}
    (he : e ∈ keyEvents stages k evs) : e.key = k :=
  (of_decide_eq_true (List.mem_filter.mp he).2).2

theorem keyEvents_concat {stages : List ℤ} {k : UInt64} {evs : List RawEvent} {e : RawEvent}
    (he : e.stageNo ∈ stages) (hk : e.key = k) :
    keyEvents stages k (evs ++ [e]) = keyEvents stages k evs ++ [e] := by
  simp [keyEvents, he, hk]

/-- The record kept for an unfinished segment. -/
def openRecord (stages : List ℤ) (rest : List RawEvent) : Option Record :=
  if rest = [] then none else some (recordOf stages rest)

theorem openRecord_getD (stages : List ℤ) (rest : List RawEvent) :
    (openRecord stages rest).getD .zero = recordOf stages rest := by
  unfold openRecord
  split
  · next h => rw [h]; rfl
  · rfl

theorem openRecord_concat (stages : List ℤ) (rest : List RawEvent) (e : RawEvent) :
    openRecord stages (rest ++ [e]) = some (recordOf stages (rest ++ [e])) := by
  simp [openRecord]

/-- An event extends the segment in its record. -/
theorem keyStore_openRecord (stages : List ℤ) (rest : List RawEvent) (e : RawEvent) :
    keyStore stages (openRecord stages rest) e = recordOf stages (rest ++ [e]) := by
  rw [keyStore, openRecord_getD, recordOf_concat]

theorem ignores_keyStep (stages : List ℤ) : Ignores (keyStep stages) (passes stages) := by
  intro o e hp
  rw [keyStep, if_pos (passes_eq_false_iff.mp hp)]

section Run

variable {stages : List ℤ} (hr : ∀ s ∈ stages, InRange s)
include hr

theorem keyStep_openRecord {rest : List RawEvent} {e : RawEvent}
    (hlt : ∀ x ∈ rest ++ [e], x.stage < 64) (he : e.stageNo ∈ stages) :
    keyStep stages (openRecord stages rest) e =
      if Covers RawEvent.stageNo stages (rest ++ [e]) then
        (none, some (recordOf stages (rest ++ [e])))
      else (openRecord stages (rest ++ [e]), none) := by
  have hpass : ¬ ofList stages &&& bit e.stageNo = 0 := by
    rw [RawEvent.mask_eq_zero_iff hr (hlt e (by simp))]
    exact not_not.mpr he
  rw [keyStep, if_neg hpass, keyStore_openRecord, openRecord_concat]
  simp only [recordOf_full_iff hr hlt]

/-- The record of a key and its completed groups follow the greedy cut of its history. -/
theorem run_keyStep {h : List RawEvent} (hlt : ∀ e ∈ h, e.stage < 64)
    (hm : ∀ e ∈ h, e.stageNo ∈ stages) :
    Transducer.run (keyStep stages) none h =
        openRecord stages (cut RawEvent.stageNo stages h).2 ∧
      (emits (keyStep stages) none h).map (·.2) =
        (cut RawEvent.stageNo stages h).1.map (recordOf stages) := by
  induction h using List.reverseRecOn with
  | nil => exact ⟨rfl, rfl⟩
  | append_singleton h e ih =>
    obtain ⟨hrun, hout⟩ := ih (fun x hx => hlt x (List.mem_append_left _ hx))
      (fun x hx => hm x (List.mem_append_left _ hx))
    have he := hm e (by simp)
    have hcut := isCut_cut (c := RawEvent.stageNo) (List.ne_nil_of_mem he) h
    have hrest : ∀ x ∈ (cut RawEvent.stageNo stages h).2 ++ [e], x.stage < 64 := by
      intro x hx
      refine hlt x ?_
      rw [hcut.eq_flatten]
      rcases List.mem_append.mp hx with hx | hx <;> simp [hx]
    rw [run_concat, emits_concat, hrun, keyStep_openRecord hr hrest he, List.map_append, hout,
      cut_concat, cutStep]
    split
    · exact ⟨rfl, by simp⟩
    · exact ⟨rfl, by simp⟩

theorem keyEvents_eq {evs : List RawEvent} (hlt : ∀ e ∈ evs, e.stage < 64) (k : UInt64) :
    (evs.filter (·.key = k)).filter (passes stages) = keyEvents stages k evs := by
  rw [filter_passes hr fun e he => hlt e (List.mem_filter.mp he).1, List.filter_filter]
  simp [keyEvents]

/-- The records after a sequence of events. -/
abbrev recordsAfter (stages : List ℤ) (evs : List RawEvent) : UInt64 → Option Record :=
  Transducer.run (keysStep stages) (fun _ => none) evs

/-- The finished segments of a key and the unfinished one. -/
abbrev keyCut (stages : List ℤ) (k : UInt64) (evs : List RawEvent) :
    List (List RawEvent) × List RawEvent :=
  cut RawEvent.stageNo stages (keyEvents stages k evs)

theorem run_keyEvents {evs : List RawEvent} (hlt : ∀ e ∈ evs, e.stage < 64) (k : UInt64) :
    Transducer.run (keyStep stages) none (keyEvents stages k evs) =
        openRecord stages (keyCut stages k evs).2 ∧
      (emits (keyStep stages) none (keyEvents stages k evs)).map (·.2) =
        (keyCut stages k evs).1.map (recordOf stages) :=
  run_keyStep hr (fun e he => hlt e (mem_keyEvents he).1) fun _ he => (mem_keyEvents he).2

theorem recordsAfter_eq {evs : List RawEvent} (hlt : ∀ e ∈ evs, e.stage < 64) (k : UInt64) :
    recordsAfter stages evs k = openRecord stages (keyCut stages k evs).2 := by
  rw [recordsAfter, run_keyed, ← run_filter (ignores_keyStep stages), keyEvents_eq hr hlt,
    (run_keyEvents hr hlt k).1]

/-- The groups that events of a key complete. -/
theorem emits_keysStep {evs : List RawEvent} (hlt : ∀ e ∈ evs, e.stage < 64) (k : UInt64) :
    ((emits (keysStep stages) (fun _ => none) evs).filter (·.1.key = k)).map (·.2) =
      (keyCut stages k evs).1.map (recordOf stages) := by
  rw [emits_keyed, ← emits_filter (ignores_keyStep stages), keyEvents_eq hr hlt,
    (run_keyEvents hr hlt k).2]

/-- An event emits a group exactly when it closes a segment. -/
theorem keysStep_snd {evs : List RawEvent} {e : RawEvent} (hlt : ∀ x ∈ evs ++ [e], x.stage < 64) :
    (keysStep stages (recordsAfter stages evs) e).2 =
      if e.stageNo ∈ stages ∧
          Covers RawEvent.stageNo stages ((keyCut stages e.key evs).2 ++ [e]) then
        some (recordOf stages ((keyCut stages e.key evs).2 ++ [e]))
      else none := by
  have hevs : ∀ x ∈ evs, x.stage < 64 := fun x hx => hlt x (List.mem_append_left _ hx)
  simp only [keysStep, keyed]
  rw [recordsAfter_eq hr hevs]
  by_cases he : e.stageNo ∈ stages
  · have hrest : ∀ x ∈ (keyCut stages e.key evs).2 ++ [e], x.stage < 64 := by
      intro x hx
      rcases List.mem_append.mp hx with hx | hx
      · have hcut := isCut_cut (c := RawEvent.stageNo) (List.ne_nil_of_mem he)
          (keyEvents stages e.key evs)
        have hx : x ∈ keyEvents stages e.key evs := by
          rw [hcut.eq_flatten]
          exact List.mem_append_right _ hx
        exact hevs x (mem_keyEvents hx).1
      · exact hlt x (List.mem_append_right _ hx)
    rw [keyStep_openRecord hr hrest he]
    simp only [he, true_and]
    split <;> rfl
  · have hp := (RawEvent.mask_eq_zero_iff hr (hlt e (by simp))).mpr he
    rw [keyStep, if_pos hp]
    simp [he]

end Run

end LensX
