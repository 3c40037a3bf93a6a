import LensX.General.Segments
import LensX.Key.Segments
import LensX.Seq.Groups

/-! # Agreement of the two matchers

On a trace whose keys are its threads and whose threads work through one group
after the other, the slot of a thread and the record of its key hold the same
segment, so both matchers emit the same deltas at the same events.
-/

namespace LensX

open Bitmask Pairs Transducer Window

variable {σ : Type*} {stages : List ℤ}

/-- Every event has its thread as key, and every thread's events of the list are groups that begin
with the only event of the given stage they have; the last group may be unfinished. -/
structure GroupTrace (stages : List ℤ) (f : ℤ) (evs : List RawEvent) : Prop where
  key : ∀ e ∈ evs, e.key = e.tid.toUInt64
  slots : SlotsDistinct evs
  segments : ∀ t, ∃ segs rest,
    Segmented (·.stageNo = f) RawEvent.stageNo stages (threadEvents stages t evs) segs rest

theorem keyEvents_eq_threadEvents {evs : List RawEvent}
    (hk : ∀ e ∈ evs, e.key = e.tid.toUInt64) (t : UInt32) :
    keyEvents stages t.toUInt64 evs = threadEvents stages t evs := by
  refine List.filter_congr fun e he => ?_
  have hinj : e.key = t.toUInt64 ↔ e.tid = t := by
    rw [hk e he, UInt32.toUInt64_inj]
  simp [hinj, and_comm]

section Event

variable {f : ℤ} {evs pre : List RawEvent} {e : RawEvent} (hr : ∀ s ∈ stages, InRange s)
  (hf : IsLeast {s | s ∈ stages} f) (hlt : ∀ x ∈ evs, x.stage < 64)
  (h : GroupTrace stages f evs) (hp : pre ++ [e] <+: evs)
include hr hf hlt h hp

omit hlt in
/-- The open segment of the key, with an event of the thread, is the window of the thread. -/
theorem window_of_groupTrace (he : e.stageNo ∈ stages) :
    IsWindow (Starts stages) (threadEvents stages e.tid (pre ++ [e]))
      ((keyCut stages e.key pre).2 ++ [e]) ∧
      ¬ Covers RawEvent.stageNo stages (keyCut stages e.key pre).2 := by
  obtain rfl : minStage stages = f := minStage_eq hr hf
  obtain ⟨segs, rest, hs⟩ := h.segments e.tid
  have hkey : e.key = e.tid.toUInt64 := h.key e (hp.subset (by simp))
  have hpre : ∀ x ∈ pre, x.key = x.tid.toUInt64 :=
    fun x hx => h.key x (hp.subset (List.mem_append_left _ hx))
  have hconcat : threadEvents stages e.tid (pre ++ [e]) = threadEvents stages e.tid pre ++ [e] := by
    simp [threadEvents, he]
  have hprefix : threadEvents stages e.tid (pre ++ [e]) <+: threadEvents stages e.tid evs :=
    hp.filter _
  rw [hconcat] at hprefix ⊢
  rw [keyCut, hkey, keyEvents_eq_threadEvents hpre]
  exact hs.exists_window hprefix

/-- An event makes both matchers emit the same deltas. -/
theorem deltas_agree :
    (slotsStep stages (slotsAfter stages pre) e).2.elim [] (pairDeltas stages) =
      (keysStep stages (recordsAfter stages pre) e).2.elim [] (pairDeltas stages) := by
  have hlt' : ∀ x ∈ pre ++ [e], x.stage < 64 := fun x hx => hlt x (hp.subset hx)
  have hd : SlotsDistinct (pre ++ [e]) := h.slots.subset hp.subset
  rw [keysStep_snd hr hlt']
  by_cases hc : e.stageNo ∈ stages ∧
      Covers RawEvent.stageNo stages ((keyCut stages e.key pre).2 ++ [e])
  · obtain ⟨hwin, hopen⟩ := window_of_groupTrace hr hf h hp hc.1
    have hw : CompletesGroup stages (threadEvents stages e.tid (pre ++ [e]))
        ((keyCut stages e.key pre).2 ++ [e]) := ⟨hwin, hc.2, by rwa [List.dropLast_concat]⟩
    have hslot : slotHistory stages (SeqMatcher.tidHash e.tid) (pre ++ [e]) =
        threadEvents stages e.tid (pre ++ [e]) := slotHistory_eq_threadEvents hd (by simp)
    obtain ⟨r, hout, hg⟩ := slotsStep_of_completes hr hlt' hc.1 (hslot ▸ hw)
    rw [hout, if_pos hc, Option.elim_some, Option.elim_some, hg.pairDeltas_eq, pairDeltas_recordOf,
      hg.tid]
  · -- a completed window would be the open segment
    have hnone : (slotsStep stages (slotsAfter stages pre) e).2 = none := by
      by_contra hsome
      obtain ⟨r, hout⟩ := Option.ne_none_iff_exists'.mp hsome
      obtain ⟨he, w, hw, _⟩ := completes_of_slotsStep hr hlt' hout
      rw [slotHistory_eq_threadEvents hd (by simp)] at hw
      obtain ⟨hwin, _⟩ := window_of_groupTrace hr hf h hp he
      exact hc ⟨he, hwin.unique hw.1 ▸ hw.2.1⟩
    rw [hnone, if_neg hc]

end Event

/-- Both matchers hold the same deltas, in the same order, after every prefix of the trace. -/
theorem seq_key_pending_eq (id id' : String) (hr : ∀ s ∈ stages, InRange s) {f : ℤ}
    (hf : IsLeast {s | s ∈ stages} f) (cbs : List (Cb σ)) (w₀ : σ) (evs : List RawEvent)
    (hlt : ∀ x ∈ evs, x.stage < 64) (h : GroupTrace stages f evs) :
    ∀ pre, pre <+: evs →
      ((SeqMatcher.withCallbacks id stages cbs).feedAll pre w₀).1.pending =
        ((KeyMatcher.new id' stages).feedAll pre).pending := by
  intro pre
  rw [SeqMatcher.feedAll_eq, SeqMatcher.withCallbacks_eq, KeyMatcher.feedAll_new]
  simp only [SeqMatcher.completed, List.nil_append]
  induction pre using List.reverseRecOn with
  | nil => exact fun _ => rfl
  | append_singleton pre e ih =>
    intro hp
    have hflat : ∀ o : Option Record,
        (o.map (e, ·)).toList.flatMap (fun o => pairDeltas stages o.2) =
          o.elim [] (pairDeltas stages) := by
      intro o
      cases o <;> simp
    rw [emits_concat, emits_concat, List.flatMap_append, List.flatMap_append,
      ih ((List.prefix_append _ _).trans hp), hflat, hflat]
    exact congrArg _ (deltas_agree hr hf hlt h hp)

/-- Two interleaved threads, one of which repeats its second stage. -/
theorem seq_key_pending_eq_pair :
    ((SeqMatcher.withCallbacks "seq_flow" [0, 1, 2] ([] : List (Cb Unit))).feedAll
      [⟨10, 7, 0, 7⟩, ⟨11, 8, 0, 8⟩, ⟨12, 7, 1, 7⟩, ⟨13, 7, 1, 7⟩, ⟨14, 7, 2, 7⟩] ()).1.pending =
    ((KeyMatcher.new "key_flow" [0, 1, 2]).feedAll
      [⟨10, 7, 0, 7⟩, ⟨11, 8, 0, 8⟩, ⟨12, 7, 1, 7⟩, ⟨13, 7, 1, 7⟩, ⟨14, 7, 2, 7⟩]).pending := by
  refine seq_key_pending_eq "seq_flow" "key_flow" (by decide) (f := 0)
    (by constructor <;> simp [lowerBounds]) [] () _ (by decide)
    ⟨by decide, by decide, fun t => ?_⟩ _ List.prefix_rfl
  by_cases h7 : t = 7
  · subst h7
    exact ⟨[[⟨10, 7, 0, 7⟩, ⟨12, 7, 1, 7⟩, ⟨13, 7, 1, 7⟩, ⟨14, 7, 2, 7⟩]], [], by decide,
      by simp [Started, RawEvent.stageNo], by decide, by decide, Or.inl rfl, by decide⟩
  · by_cases h8 : t = 8
    · subst h8
      exact ⟨[], [⟨11, 8, 0, 8⟩], by decide, by simp, by simp, by simp,
        Or.inr ⟨_, _, rfl, by decide, by simp⟩, by decide⟩
    · exact ⟨[], [], by simp [threadEvents, Ne.symm h7, Ne.symm h8], by simp, by simp, by simp,
        Or.inl rfl, by decide⟩

end LensX
