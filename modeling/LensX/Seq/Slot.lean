import LensX.General.Transducer
import LensX.Model.Group

/-! # The slots of a seq matcher

A seq matcher is a keyed product of slot transducers. The invariant of a slot
relates it to the window of its history: the part from the last first-stage
event on. A group is emitted exactly when that window completes.
-/

namespace LensX

open Bitmask Pairs Transducer Window

/-- The slot with an event stored. -/
def slotStore (stages : List ℤ) (r : Record) (e : RawEvent) : Record :=
  (if e.stageNo = minStage stages then { r with filled := 0, tid := e.tid } else r).put
    e.stageNo e.ts

/-- The effect of an event on its slot; a completed group is emitted and its bits are cleared. -/
def slotStep (stages : List ℤ) : Step Record RawEvent Record := fun r e =>
  if ofList stages &&& bit e.stageNo = 0 then (r, none)
  else if (slotStore stages r e).Full (ofList stages) then
    ({ slotStore stages r e with filled := 0 }, some (slotStore stages r e))
  else (slotStore stages r e, none)

/-- The slots of a matcher and its events form a keyed product. -/
abbrev slotsStep (stages : List ℤ) : Step (UInt32 → Record) RawEvent Record :=
  keyed (fun e => SeqMatcher.tidHash e.tid) (slotStep stages)

namespace SeqMatcher

variable {σ : Type*}

/-- Run all callbacks on a completed slot. -/
def complete (m : SeqMatcher σ) (slot : Record) (w : σ) : σ :=
  m.onCompleteCbs.foldl (fun w cb => cb (m.snapshot slot) w) w

theorem feed_eq (m : SeqMatcher σ) (e : RawEvent) (w : σ) :
    m.feed e w =
      ({ m with
          slots := (slotsStep m.stages m.slots e).1
          pending := m.pending ++
            (slotsStep m.stages m.slots e).2.elim [] (pairDeltas m.stages) },
        (slotsStep m.stages m.slots e).2.elim w (fun r => m.complete r w)) := by
  unfold feed slotsStep keyed slotStep
  change (if ofList m.stages &&& bit e.stageNo = 0 then _ else _) = _
  split
  · simp
  · change (if (slotStore m.stages (m.slots (tidHash e.tid)) e).Full (ofList m.stages)
      then _ else _) = _
    split
    · rfl
    · simp; rfl

/-- Feed a sequence of events. -/
def feedAll (m : SeqMatcher σ) (evs : List RawEvent) (w : σ) : SeqMatcher σ × σ :=
  evs.foldl (fun p e => p.1.feed e p.2) (m, w)

/-- The completed slots of a run, each with the event that completed it. -/
def completed (m : SeqMatcher σ) (evs : List RawEvent) : List (RawEvent × Record) :=
  emits (slotsStep m.stages) m.slots evs

/-- A run of the matcher is a run of its slots, whose outputs go to `pending_` and to the
callbacks. -/
theorem feedAll_eq (m : SeqMatcher σ) (evs : List RawEvent) (w : σ) :
    m.feedAll evs w =
      ({ m with
          slots := Transducer.run (slotsStep m.stages) m.slots evs
          pending := m.pending ++ (m.completed evs).flatMap fun o => pairDeltas m.stages o.2 },
        (m.completed evs).foldl (fun w o => m.complete o.2 w) w) := by
  unfold feedAll completed
  induction evs using List.reverseRecOn with
  | nil => simp
  | append_singleton evs e ih =>
    rw [List.foldl_append, ih, List.foldl_cons, List.foldl_nil, feed_eq]
    simp only [run_concat, emits_concat, List.flatMap_append, List.foldl_append]
    cases (slotsStep m.stages (Transducer.run (slotsStep m.stages) m.slots evs) e).2 <;>
      simp [complete, snapshot, stagesMask]

end SeqMatcher

section Invariant

variable {stages : List ℤ}

/-- The events that a slot takes in. -/
def slotHistory (stages : List ℤ) (k : UInt32) (evs : List RawEvent) : List RawEvent :=
  evs.filter fun e => e.stageNo ∈ stages ∧ SeqMatcher.tidHash e.tid = k

theorem slotHistory_concat {k : UInt32} {evs : List RawEvent} {e : RawEvent}
    (he : e.stageNo ∈ stages) (hk : SeqMatcher.tidHash e.tid = k) :
    slotHistory stages k (evs ++ [e]) = slotHistory stages k evs ++ [e] := by
  simp [slotHistory, he, hk]

/-- An event of the first stage starts a new group. -/
abbrev Starts (stages : List ℤ) (e : RawEvent) : Prop := e.stageNo = minStage stages

/-- The window of a history completes a group. -/
abbrev CompletesGroup (stages : List ℤ) (h w : List RawEvent) : Prop :=
  Completes (Starts stages) RawEvent.stageNo stages h w

/-- What a slot stores about its history. -/
structure SlotInv (stages : List ℤ) (h : List RawEvent) (r : Record) : Prop where
  live : Has r.filled (minStage stages) ↔
    ∃ w, IsWindow (Starts stages) h w ∧ ¬ Covers RawEvent.stageNo stages w
  filled : ∀ w, IsWindow (Starts stages) h w → ¬ Covers RawEvent.stageNo stages w →
    ∀ s ∈ stages, Has r.filled s ↔ ∃ a ∈ w, a.stageNo = s
  ts : ∀ s a, lastOf RawEvent.stageNo s h = some a → r.ts s = a.ts
  tid : ∀ a, lastOf RawEvent.stageNo (minStage stages) h = some a → r.tid = a.tid

theorem slotInv_zero : SlotInv stages [] .zero where
  live := by simp [Record.zero, not_isWindow_nil]
  filled := fun _ hw => (not_isWindow_nil hw).elim
  ts := by simp
  tid := by simp

variable {h : List RawEvent} {r : Record} {e : RawEvent}

theorem slotStore_ts (hi : SlotInv stages h r) {s : ℤ} {a : RawEvent}
    (ha : lastOf RawEvent.stageNo s (h ++ [e]) = some a) : (slotStore stages r e).ts s = a.ts := by
  have hts : (slotStore stages r e).ts = Function.update r.ts e.stageNo e.ts := by
    unfold slotStore Record.put
    split <;> rfl
  rw [lastOf_concat] at ha
  split at ha
  · next hs => simp_all
  · next hs => rw [hts, Function.update_of_ne (Ne.symm hs), hi.ts s a ha]

theorem slotStore_tid (hi : SlotInv stages h r) {a : RawEvent}
    (ha : lastOf RawEvent.stageNo (minStage stages) (h ++ [e]) = some a) :
    (slotStore stages r e).tid = a.tid := by
  rw [lastOf_concat] at ha
  unfold slotStore
  split at ha
  · next hs => simp_all [Record.put]
  · next hs => simpa [hs, Record.put] using hi.tid a ha

variable (hr : ∀ s ∈ stages, InRange s)
include hr

theorem slotStore_filled_start (hs : e.stageNo = minStage stages) (he : e.stageNo ∈ stages)
    {t : ℤ} (ht : t ∈ stages) :
    Has (slotStore stages r e).filled t ↔ ∃ a ∈ [e], a.stageNo = t := by
  simp [slotStore, hs, Record.put, has_bit (hr _ (hs ▸ he)) (hr t ht)]

theorem slotStore_filled_live (hi : SlotInv stages h r) (he : e.stageNo ∈ stages)
    (hs : ¬ Starts stages e) {w : List RawEvent} (hw : IsWindow (Starts stages) h w)
    (hc : ¬ Covers RawEvent.stageNo stages w) {t : ℤ} (ht : t ∈ stages) :
    Has (slotStore stages r e).filled t ↔ ∃ a ∈ w ++ [e], a.stageNo = t := by
  have hst : e.stageNo ≠ minStage stages := hs
  simp only [slotStore, if_neg hst, Record.put, has_or_bit (hr _ he) (hr t ht),
    hi.filled w hw hc t ht]
  simp [or_and_right, exists_or]

theorem slotStore_filled_dead (hi : SlotInv stages h r) (he : e.stageNo ∈ stages)
    (hs : ¬ Starts stages e)
    (hd : ∀ w, IsWindow (Starts stages) h w → Covers RawEvent.stageNo stages w) :
    ¬ Has (slotStore stages r e).filled (minStage stages) := by
  have hst : e.stageNo ≠ minStage stages := hs
  have hm := hr _ (minStage_mem hr he)
  simp only [slotStore, if_neg hst, Record.put, has_or_bit (hr _ he) hm, hi.live, not_or]
  exact ⟨fun ⟨w, hw, hc⟩ => hc (hd w hw), hst⟩

/-- The stored slot is full exactly when the window completes with the event. -/
theorem slotStore_full_iff (hi : SlotInv stages h r) (he : e.stageNo ∈ stages) :
    (slotStore stages r e).Full (ofList stages) ↔ ∃ w, CompletesGroup stages (h ++ [e]) w := by
  have hne : stages ≠ [] := List.ne_nil_of_mem he
  rw [Record.full_ofList hr]
  by_cases hs : Starts stages e
  · have hfull : (∀ s ∈ stages, Has (slotStore stages r e).filled s) ↔
        Covers RawEvent.stageNo stages [e] :=
      forall₂_congr fun t ht => slotStore_filled_start hr hs he ht
    rw [hfull]
    constructor
    · exact fun hc => ⟨[e], (isWindow_concat_start hs).mpr rfl, hc, not_covers_nil hne⟩
    · rintro ⟨w, hw, hc, _⟩
      rwa [(isWindow_concat_start hs).mp hw] at hc
  · by_cases hl : ∃ w, IsWindow (Starts stages) h w ∧ ¬ Covers RawEvent.stageNo stages w
    · obtain ⟨w, hw, hc⟩ := hl
      have hfull : (∀ s ∈ stages, Has (slotStore stages r e).filled s) ↔
          Covers RawEvent.stageNo stages (w ++ [e]) :=
        forall₂_congr fun t ht => slotStore_filled_live hr hi he hs hw hc ht
      rw [hfull]
      constructor
      · exact fun hf => ⟨w ++ [e], (isWindow_concat hs).mpr ⟨w, hw, rfl⟩, hf, by simpa using hc⟩
      · rintro ⟨w', hw', hc', _⟩
        obtain ⟨v, hv, rfl⟩ := (isWindow_concat hs).mp hw'
        rwa [hv.unique hw] at hc'
    · have hd : ∀ w, IsWindow (Starts stages) h w → Covers RawEvent.stageNo stages w :=
        fun w hw => not_not.mp fun hc => hl ⟨w, hw, hc⟩
      constructor
      · exact fun hf => absurd (hf _ (minStage_mem hr he)) (slotStore_filled_dead hr hi he hs hd)
      · rintro ⟨w', hw', _, hn⟩
        obtain ⟨v, hv, rfl⟩ := (isWindow_concat hs).mp hw'
        exact absurd (hd v hv) (by simpa using hn)

theorem slotStep_fst (he : e.stageNo ∈ stages) (hlt : e.stage < 64) :
    slotStep stages r e =
      if (slotStore stages r e).Full (ofList stages) then
        ({ slotStore stages r e with filled := 0 }, some (slotStore stages r e))
      else (slotStore stages r e, none) := by
  rw [slotStep, if_neg]
  rw [RawEvent.mask_eq_zero_iff hr hlt]
  exact not_not.mpr he

/-- In an unfinished window the bits of the stored slot are the stages of the window. -/
theorem slotStore_filled (hi : SlotInv stages h r) (he : e.stageNo ∈ stages) {w : List RawEvent}
    (hw : IsWindow (Starts stages) (h ++ [e]) w) (hc : ¬ Covers RawEvent.stageNo stages w)
    {t : ℤ} (ht : t ∈ stages) :
    Has (slotStore stages r e).filled t ↔ ∃ a ∈ w, a.stageNo = t := by
  by_cases hs : Starts stages e
  · rw [(isWindow_concat_start hs).mp hw]
    exact slotStore_filled_start hr hs he ht
  · obtain ⟨v, hv, rfl⟩ := (isWindow_concat hs).mp hw
    have hn : ¬ Covers RawEvent.stageNo stages v :=
      fun hcv => hc (hcv.mono (List.subset_append_left _ _))
    exact slotStore_filled_live hr hi he hs hv hn ht

theorem slotStore_live (hi : SlotInv stages h r) (he : e.stageNo ∈ stages)
    (hf : ¬ (slotStore stages r e).Full (ofList stages)) :
    Has (slotStore stages r e).filled (minStage stages) ↔
      ∃ w, IsWindow (Starts stages) (h ++ [e]) w ∧ ¬ Covers RawEvent.stageNo stages w := by
  constructor
  · intro hmin
    by_cases hs : Starts stages e
    · refine ⟨[e], (isWindow_concat_start hs).mpr rfl, fun hc => hf ?_⟩
      exact (slotStore_full_iff hr hi he).mpr ⟨[e], (isWindow_concat_start hs).mpr rfl, hc,
        not_covers_nil (List.ne_nil_of_mem he)⟩
    · -- a dead slot has no bit for the first stage, so the window is live
      by_contra hno
      refine slotStore_filled_dead hr hi he hs (fun w hw => ?_) hmin
      by_contra hc
      refine hno ⟨w ++ [e], (isWindow_concat hs).mpr ⟨w, hw, rfl⟩, fun hcov => hf ?_⟩
      exact (slotStore_full_iff hr hi he).mpr
        ⟨w ++ [e], (isWindow_concat hs).mpr ⟨w, hw, rfl⟩, hcov, by rwa [List.dropLast_concat]⟩
  · rintro ⟨w, hw, hc⟩
    obtain ⟨_, a, t, rfl, ha, _⟩ := id hw
    exact (slotStore_filled hr hi he hw hc (minStage_mem hr he)).mpr ⟨a, by simp, ha⟩

/-- An event of the matcher keeps the invariant. -/
theorem slotInv_step (hi : SlotInv stages h r) (he : e.stageNo ∈ stages) (hlt : e.stage < 64) :
    SlotInv stages (h ++ [e]) (slotStep stages r e).1 := by
  rw [slotStep_fst hr he hlt]
  split
  · next hf =>
    -- the window is complete, and it is the only one
    obtain ⟨w, hw, hc, _⟩ := (slotStore_full_iff hr hi he).mp hf
    refine ⟨?_, ?_, fun s a ha => slotStore_ts hi ha, fun a ha => slotStore_tid hi ha⟩
    · simp only [not_has_zero, false_iff]
      rintro ⟨v, hv, hn⟩
      exact hn (hv.unique hw ▸ hc)
    · exact fun v hv hn => absurd (hv.unique hw ▸ hc) hn
  · next hf =>
    exact ⟨slotStore_live hr hi he hf, fun w hw hc t ht => slotStore_filled hr hi he hw hc ht,
      fun s a ha => slotStore_ts hi ha, fun a ha => slotStore_tid hi ha⟩

end Invariant

section Run

variable {stages : List ℤ} (hr : ∀ s ∈ stages, InRange s)
include hr

/-- The slots after a sequence of events. -/
abbrev slotsAfter (stages : List ℤ) (evs : List RawEvent) : UInt32 → Record :=
  Transducer.run (slotsStep stages) (fun _ => .zero) evs

theorem slotInv_run {evs : List RawEvent} (hlt : ∀ e ∈ evs, e.stage < 64) (k : UInt32) :
    SlotInv stages (slotHistory stages k evs) (slotsAfter stages evs k) := by
  induction evs using List.reverseRecOn with
  | nil => exact slotInv_zero
  | append_singleton evs e ih =>
    have hi := ih fun x hx => hlt x (List.mem_append_left _ hx)
    have he := hlt e (by simp)
    rw [slotsAfter, run_concat]
    by_cases hk : SeqMatcher.tidHash e.tid = k
    · subst hk
      simp only [slotsStep, keyed, Function.update_self]
      by_cases hm : e.stageNo ∈ stages
      · rw [slotHistory_concat hm rfl]
        exact slotInv_step hr hi hm he
      · rw [slotStep, if_pos ((RawEvent.mask_eq_zero_iff hr he).mpr hm)]
        simpa [slotHistory, hm] using hi
    · simp only [slotsStep, keyed, Function.update_of_ne (Ne.symm hk)]
      simpa [slotHistory, hk] using hi

variable {pre : List RawEvent} {e : RawEvent} (hlt : ∀ x ∈ pre ++ [e], x.stage < 64)
include hlt

theorem isGroup_slotStore (he : e.stageNo ∈ stages) {w : List RawEvent}
    (hw : CompletesGroup stages (slotHistory stages (SeqMatcher.tidHash e.tid) (pre ++ [e])) w) :
    IsGroup stages w
      (slotStore stages (slotsAfter stages pre (SeqMatcher.tidHash e.tid)) e) := by
  have hi := slotInv_run hr (fun x hx => hlt x (List.mem_append_left _ hx))
    (SeqMatcher.tidHash e.tid)
  obtain ⟨⟨⟨p, hp⟩, _⟩, hc, _⟩ := hw
  rw [slotHistory_concat he rfl] at hp
  have hlast : ∀ s ∈ stages, ∃ a, lastOf RawEvent.stageNo s w = some a ∧
      lastOf RawEvent.stageNo s
        (slotHistory stages (SeqMatcher.tidHash e.tid) pre ++ [e]) = some a := by
    intro s hs
    obtain ⟨a, ha⟩ := exists_lastOf hc hs
    exact ⟨a, ha, by rw [← hp, lastOf_append_of_mem (hc s hs), ha]⟩
  constructor
  · intro s hs
    obtain ⟨a, ha, ha'⟩ := hlast s hs
    rw [slotStore_ts hi ha', lastTs_of_lastOf ha]
  · obtain ⟨a, ha, ha'⟩ := hlast _ (minStage_mem hr he)
    rw [slotStore_tid hi ha', lastTid_of_lastOf ha]

/-- An event that completes a window emits the group of the window. -/
theorem slotsStep_of_completes (he : e.stageNo ∈ stages) {w : List RawEvent}
    (hw : CompletesGroup stages (slotHistory stages (SeqMatcher.tidHash e.tid) (pre ++ [e])) w) :
    ∃ r, (slotsStep stages (slotsAfter stages pre) e).2 = some r ∧ IsGroup stages w r := by
  have hi := slotInv_run hr (fun x hx => hlt x (List.mem_append_left _ hx))
    (SeqMatcher.tidHash e.tid)
  have hf := (slotStore_full_iff hr hi he).mpr
    ⟨w, by rwa [← slotHistory_concat he rfl]⟩
  refine ⟨_, ?_, isGroup_slotStore hr hlt he hw⟩
  simp only [slotsStep, keyed]
  rw [slotStep_fst hr he (hlt e (by simp)), if_pos hf]

/-- Only an event that completes a window emits a group. -/
theorem completes_of_slotsStep {r : Record}
    (h : (slotsStep stages (slotsAfter stages pre) e).2 = some r) :
    e.stageNo ∈ stages ∧ ∃ w,
      CompletesGroup stages (slotHistory stages (SeqMatcher.tidHash e.tid) (pre ++ [e])) w ∧
        IsGroup stages w r := by
  have hi := slotInv_run hr (fun x hx => hlt x (List.mem_append_left _ hx))
    (SeqMatcher.tidHash e.tid)
  have hlt' := hlt e (by simp)
  have he : e.stageNo ∈ stages := by
    by_contra hm
    simp [slotsStep, keyed, slotStep, (RawEvent.mask_eq_zero_iff hr hlt').mpr hm] at h
  simp only [slotsStep, keyed] at h
  rw [slotStep_fst hr he hlt'] at h
  split at h
  · next hf =>
    obtain ⟨w, hw⟩ := (slotStore_full_iff hr hi he).mp hf
    rw [← slotHistory_concat he rfl] at hw
    obtain rfl := Option.some.inj h
    exact ⟨he, w, hw, isGroup_slotStore hr hlt he hw⟩
  · exact absurd h (by simp)

end Run

end LensX
