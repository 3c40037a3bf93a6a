import LensX.Key.Record

/-! # The groups of a key matcher

A key matcher emits the finished segments of the greedy cut of every key's
history, and keeps the unfinished ones.
-/

namespace LensX

open Bitmask Pairs Transducer Window

variable {stages : List ℤ}

theorem KeyMatcher.feedAll_new (id : String) (stages : List ℤ) (evs : List RawEvent) :
    (KeyMatcher.new id stages).feedAll evs =
      ⟨id, stages, recordsAfter stages evs,
        (emits (keysStep stages) (fun _ => none) evs).flatMap fun o => pairDeltas stages o.2⟩ := by
  rw [feedAll_eq]
  simp [new, completed]

theorem pairDeltas_recordOf (stages : List ℤ) (w : List RawEvent) :
    pairDeltas stages (recordOf stages w) = groupDeltas stages w (lastTid w (minStage stages)) :=
  (isGroup_recordOf stages w).pairDeltas_eq

/-- A key matcher emits a group exactly at the last event of each finished segment, with the last
timestamp of every stage in it and the thread of its last first stage. It keeps a record of a key
exactly when the key has an unfinished segment. -/
theorem keyMatcher_emits_segments (id : String) (hr : ∀ s ∈ stages, InRange s) {f : ℤ}
    (hf : IsLeast {s | s ∈ stages} f) (evs : List RawEvent) (hlt : ∀ x ∈ evs, x.stage < 64) :
    let m := (KeyMatcher.new id stages).feedAll evs
    (∀ k, IsCut RawEvent.stageNo stages (keyEvents stages k evs)
        (keyCut stages k evs).1 (keyCut stages k evs).2 ∧
      (m.records k = none ↔ (keyCut stages k evs).2 = []) ∧
      ∀ r, m.records k = some r →
        r.filled = ofList ((keyCut stages k evs).2.map (·.stageNo))) ∧
    ∀ e : RawEvent, e.stage < 64 →
      (e.stageNo ∈ stages → (keyCut stages e.key (evs ++ [e])).2 = [] →
        ∃ w, (keyCut stages e.key (evs ++ [e])).1 = (keyCut stages e.key evs).1 ++ [w] ∧
          w.getLast? = some e ∧
          (m.feed e).pending = m.pending ++ groupDeltas stages w (lastTid w f)) ∧
      ((e.stageNo ∉ stages ∨ (keyCut stages e.key (evs ++ [e])).2 ≠ []) →
        (m.feed e).pending = m.pending) := by
  intro m
  obtain rfl : minStage stages = f := minStage_eq hr hf
  have hm : m = _ := KeyMatcher.feedAll_new id stages evs
  constructor
  · intro k
    refine ⟨isCut_cut (List.ne_nil_of_mem hf.1) _, ?_⟩
    simp only [hm, recordsAfter_eq hr hlt, openRecord]
    split
    · next h => simp [h]
    · next h =>
      refine ⟨by simp [h], ?_⟩
      rintro r hrec
      obtain rfl := Option.some.inj hrec
      rfl
  · intro e he
    have hlt' : ∀ x ∈ evs ++ [e], x.stage < 64 := by
      intro x hx
      rcases List.mem_append.mp hx with hx | hx
      · exact hlt x hx
      · exact List.mem_singleton.mp hx ▸ he
    have hfeed : (m.feed e).pending = m.pending ++
        (keysStep stages (recordsAfter stages evs) e).2.elim [] (pairDeltas stages) := by
      rw [KeyMatcher.feed_eq, hm]
    rw [hfeed, keysStep_snd hr hlt']
    by_cases hs : e.stageNo ∈ stages
    · simp only [keyCut, keyEvents_concat hs, cut_concat, cutStep, hs, true_and]
      split
      · next hc => exact ⟨fun _ _ => ⟨_, rfl, by simp, by simp [pairDeltas_recordOf]⟩, by simp⟩
      · simp
    · simp [hs]

/-- Two interleaved keys; the second event of key 5 closes its segment. -/
theorem keyMatcher_emits_segment_pair :
    (((KeyMatcher.new "by_key" [0, 1]).feedAll [⟨10, 7, 0, 5⟩, ⟨12, 7, 0, 6⟩]).feed
      ⟨19, 8, 1, 5⟩).pending = [⟨9, 0, 1, 10, 19, 7⟩] := by
  obtain ⟨w, hw, _, hp⟩ := ((keyMatcher_emits_segments "by_key"
    (show ∀ s ∈ [0, 1], InRange s by decide) (f := 0) (by constructor <;> simp [lowerBounds])
    [⟨10, 7, 0, 5⟩, ⟨12, 7, 0, 6⟩] (by decide)).2
    ⟨19, 8, 1, 5⟩ (by decide)).1 (by decide) (by decide)
  obtain rfl : w = [⟨10, 7, 0, 5⟩, ⟨19, 8, 1, 5⟩] := by
    have hcut : (keyCut [0, 1] 5 [⟨10, 7, 0, 5⟩, ⟨12, 7, 0, 6⟩, ⟨19, 8, 1, 5⟩]).1 =
        [[⟨10, 7, 0, 5⟩, ⟨19, 8, 1, 5⟩]] := by decide
    exact (List.singleton_inj.mp (hcut.symm.trans hw)).symm
  exact hp

end LensX
