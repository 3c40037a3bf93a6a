import Mathlib.Algebra.Group.Nat.Defs
import LensX.Seq.Slot

/-! # The groups of a seq matcher

When no two threads share a slot, a seq matcher emits exactly the completed
windows of every thread. The first stage of a group precedes the others; two
later stages may come in either order, since a group only asks for one
occurrence of each.
-/

namespace LensX

open Bitmask Pairs Transducer Window

variable {σ : Type*} {stages : List ℤ}

/-- The events of a thread that the stage list takes in. -/
def threadEvents (stages : List ℤ) (t : UInt32) (evs : List RawEvent) : List RawEvent :=
  evs.filter fun e => e.tid = t ∧ e.stageNo ∈ stages

/-- Different threads of the events are kept in different slots. -/
def SlotsDistinct (evs : List RawEvent) : Prop :=
  ∀ x ∈ evs, ∀ y ∈ evs, x.tid ≠ y.tid → x.tid % 65536 ≠ y.tid % 65536

instance (evs : List RawEvent) : Decidable (SlotsDistinct evs) :=
  inferInstanceAs (Decidable (∀ x ∈ evs, ∀ y ∈ evs, _))

theorem SlotsDistinct.subset {evs l : List RawEvent} (hd : SlotsDistinct evs) (hl : l ⊆ evs) :
    SlotsDistinct l := fun x hx y hy => hd x (hl hx) y (hl hy)

/-- A new matcher with its callbacks registered in order. -/
def SeqMatcher.withCallbacks (id : String) (stages : List ℤ) (cbs : List (Cb σ)) : SeqMatcher σ :=
  cbs.foldl SeqMatcher.onComplete (.new id stages)

theorem SeqMatcher.withCallbacks_eq (id : String) (stages : List ℤ) (cbs : List (Cb σ)) :
    SeqMatcher.withCallbacks id stages cbs = ⟨id, stages, cbs, fun _ => .zero, []⟩ := by
  unfold withCallbacks
  induction cbs using List.reverseRecOn with
  | nil => rfl
  | append_singleton cbs cb ih => simp [ih, onComplete]

theorem slotHistory_eq_threadEvents {evs : List RawEvent} (hd : SlotsDistinct evs) {e : RawEvent}
    (he : e ∈ evs) :
    slotHistory stages (SeqMatcher.tidHash e.tid) evs = threadEvents stages e.tid evs := by
  apply List.filter_congr
  intro x hx
  have ht : SeqMatcher.tidHash x.tid = SeqMatcher.tidHash e.tid ↔ x.tid = e.tid :=
    ⟨fun h => by_contra fun hne => hd x hx e he hne h, fun h => h ▸ rfl⟩
  simp [ht, and_comm]

theorem tid_of_mem_threadEvents {t : UInt32} {evs : List RawEvent} {a : RawEvent}
    (h : a ∈ threadEvents stages t evs) : a.tid = t := by
  simpa [threadEvents] using (List.mem_filter.mp h).2 |> of_decide_eq_true |>.1

theorem threadEvents_sublist (stages : List ℤ) (t : UInt32) (evs : List RawEvent) :
    (threadEvents stages t evs).Sublist (evs.filter (·.tid = t)) := by
  have h : threadEvents stages t evs = (evs.filter (·.tid = t)).filter (·.stageNo ∈ stages) := by
    simp only [threadEvents, List.filter_filter, Bool.decide_and, Bool.and_comm]
  exact h ▸ List.filter_sublist

/-- The snapshot of a group assigns the stages of the list and nothing else. -/
theorem SeqMatcher.snapshot_of_isGroup (m : SeqMatcher σ) {w : List RawEvent} {r : Record}
    (hg : IsGroup m.stages w r) {s : ℤ} (hs : s ∈ m.stages) :
    (m.snapshot r).ts s = some (lastTs w s) := by
  rw [snapshot_ts, if_pos hs, hg.ts s hs]

theorem lastTid_window {f : ℤ} {t : UInt32} {w evs : List RawEvent} (hf : f ∈ stages)
    (hc : Completes (·.stageNo = f) RawEvent.stageNo stages (threadEvents stages t evs) w) :
    lastTid w f = t := by
  obtain ⟨a, ha⟩ := exists_lastOf hc.2.1 hf
  rw [lastTid_of_lastOf ha]
  exact tid_of_mem_threadEvents (hc.1.1.subset (mem_of_lastOf ha).1)

/-- An event emits a group exactly when it completes the window of its thread. The group goes
once to every callback, in order, and adds one delta for each pair of positions. -/
theorem seqMatcher_emits_windows (id : String) (hr : ∀ s ∈ stages, InRange s) {f : ℤ}
    (hf : IsLeast {s | s ∈ stages} f) (cbs : List (Cb σ)) (w₀ : σ) (pre : List RawEvent)
    (e : RawEvent) (hlt : ∀ x ∈ pre ++ [e], x.stage < 64) (hd : SlotsDistinct (pre ++ [e])) :
    let before := (SeqMatcher.withCallbacks id stages cbs).feedAll pre w₀
    let after := before.1.feed e before.2
    let es := threadEvents stages e.tid (pre ++ [e])
    (e.stageNo ∈ stages → ∀ w, Completes (·.stageNo = f) RawEvent.stageNo stages es w →
      ∃ snap : StageSnapshot, snap.stages = ofList stages ∧ snap.tid = e.tid ∧
        (∀ s ∈ stages, snap.ts s = some (lastTs w s)) ∧
        after.2 = cbs.foldl (fun v cb => cb snap v) before.2 ∧
        after.1.pending = before.1.pending ++ groupDeltas stages w e.tid) ∧
    ((e.stageNo ∉ stages ∨ ∀ w, ¬ Completes (·.stageNo = f) RawEvent.stageNo stages es w) →
      after.2 = before.2 ∧ after.1.pending = before.1.pending) := by
  intro before after es
  obtain rfl : minStage stages = f := minStage_eq hr hf
  have hes : slotHistory stages (SeqMatcher.tidHash e.tid) (pre ++ [e]) = es :=
    slotHistory_eq_threadEvents hd (by simp)
  have hb : before.1.stages = stages ∧ before.1.onCompleteCbs = cbs ∧
      before.1.slots = slotsAfter stages pre := by
    simp [before, SeqMatcher.feedAll_eq, SeqMatcher.withCallbacks_eq]
  obtain ⟨hst, hcb, hsl⟩ := hb
  have hafter : after = before.1.feed e before.2 := rfl
  rw [SeqMatcher.feed_eq, hst, hsl] at hafter
  constructor
  · intro he w hw
    obtain ⟨r, hout, hg⟩ := slotsStep_of_completes hr hlt he (hes ▸ hw)
    have htid : r.tid = e.tid := hg.tid.trans (lastTid_window hf.1 hw)
    rw [hout] at hafter
    refine ⟨before.1.snapshot r, by simp [hst], by simp [htid],
      fun s hs => before.1.snapshot_of_isGroup (hst ▸ hg) (hst ▸ hs), ?_, ?_⟩
    · simp [hafter, SeqMatcher.complete, hcb]
    · simp [hafter, hg.pairDeltas_eq, htid]
  · intro hno
    have hout : (slotsStep stages (slotsAfter stages pre) e).2 = none := by
      by_contra hsome
      obtain ⟨r, hout⟩ := Option.ne_none_iff_exists'.mp hsome
      obtain ⟨he, w, hw, _⟩ := completes_of_slotsStep hr hlt hout
      rcases hno with hno | hno
      · exact hno he
      · exact hno w (hes ▸ hw)
    simp [hafter, hout]

/-- Two interleaved threads; the last event completes the window of thread 7. -/
theorem seqMatcher_emits_window_pair :
    (((SeqMatcher.withCallbacks "io_flow" [0, 1]
      [fun s (out : List UInt32) => out ++ [s.tid]]).feedAll
      [⟨10, 7, 0, 0⟩, ⟨12, 8, 0, 0⟩] []).1.feed ⟨19, 7, 1, 0⟩ []).2 = [7] := by
  obtain ⟨snap, _, htid, _, hcb, _⟩ := (seqMatcher_emits_windows "io_flow"
    (show ∀ s ∈ [0, 1], InRange s by decide) (f := 0) (by constructor <;> simp [lowerBounds])
    [fun s (out : List UInt32) => out ++ [s.tid]] [] [⟨10, 7, 0, 0⟩, ⟨12, 8, 0, 0⟩]
    ⟨19, 7, 1, 0⟩ (by decide) (by decide)).1 (by decide) [⟨10, 7, 0, 0⟩, ⟨19, 7, 1, 0⟩]
    ⟨⟨⟨[], by decide⟩, _, _, rfl, by decide, by decide⟩, by decide, by decide⟩
  exact hcb.trans (congrArg (fun t => [t]) htid)

/-- Every pending delta belongs to a completed window of a thread. -/
theorem exists_window_of_mem_pending (id : String) (hr : ∀ s ∈ stages, InRange s)
    (cbs : List (Cb σ)) (w₀ : σ) {evs : List RawEvent} (hlt : ∀ x ∈ evs, x.stage < 64)
    (hd : SlotsDistinct evs) {d : Delta}
    (hm : d ∈ ((SeqMatcher.withCallbacks id stages cbs).feedAll evs w₀).1.pending) :
    ∃ pre e w, pre ++ [e] <+: evs ∧
      CompletesGroup stages (threadEvents stages e.tid (pre ++ [e])) w ∧
      d ∈ groupDeltas stages w e.tid := by
  rw [SeqMatcher.feedAll_eq, SeqMatcher.withCallbacks_eq] at hm
  simp only [List.nil_append] at hm
  obtain ⟨⟨e, r⟩, ho, hdr⟩ := List.mem_flatMap.mp hm
  obtain ⟨pre, post, rfl, hout⟩ := (mem_emits _ _).mp ho
  have hpre : pre ++ [e] <+: pre ++ e :: post := ⟨post, by simp⟩
  obtain ⟨he, w, hw, hg⟩ := completes_of_slotsStep hr (fun x hx => hlt x (hpre.subset hx)) hout
  rw [slotHistory_eq_threadEvents (hd.subset hpre.subset) (by simp)] at hw
  have htid : r.tid = e.tid := hg.tid.trans (lastTid_window (minStage_mem hr he) hw)
  exact ⟨pre, e, w, hpre, hw, by rwa [← htid, ← hg.pairDeltas_eq]⟩

/-- A delta spans the elapsed time when its first stage is the least one or when the group's
last event of the first stage comes before that of the second; otherwise it wraps. -/
theorem seqMatcher_deltas_ordered (id : String) (hs : stages.Pairwise (· < ·))
    (hr : ∀ s ∈ stages, InRange s) (cbs : List (Cb σ)) (w₀ : σ) (evs : List RawEvent)
    (hlt : ∀ x ∈ evs, x.stage < 64) (hd : SlotsDistinct evs)
    (hmono : ∀ t, (evs.filter (·.tid = t)).Pairwise (·.ts ≤ ·.ts)) :
    ∀ d ∈ ((SeqMatcher.withCallbacks id stages cbs).feedAll evs w₀).1.pending,
      ∃ pre e w, pre ++ [e] <+: evs ∧
        CompletesGroup stages (threadEvents stages e.tid (pre ++ [e])) w ∧
        d.tsFrom = lastTs w d.fromStage ∧ d.tsTo = lastTs w d.toStage ∧
        ((∀ s ∈ stages, d.fromStage ≤ s) → d.tsFrom ≤ d.tsTo) ∧
        (d.tsFrom ≤ d.tsTo ↔
          Follows RawEvent.stageNo d.fromStage d.toStage w ∨ d.tsFrom = d.tsTo) ∧
        (d.tsFrom ≤ d.tsTo → d.valNs.toNat = d.tsTo.toNat - d.tsFrom.toNat) ∧
        (d.tsTo < d.tsFrom → d.valNs.toNat = 2 ^ 64 - (d.tsFrom.toNat - d.tsTo.toNat)) := by
  intro d hm
  obtain ⟨pre, e, w, hpre, hw, hdw⟩ := exists_window_of_mem_pending id hr cbs w₀ hlt hd hm
  obtain ⟨⟨a, b⟩, hab, rfl⟩ := List.mem_map.mp hdw
  obtain ⟨ha, hb, hlt'⟩ := (mem_pairs_of_sorted hs).mp hab
  obtain ⟨x, hx⟩ := exists_lastOf hw.2.1 ha
  obtain ⟨y, hy⟩ := exists_lastOf hw.2.1 hb
  have hp : w.Pairwise (·.ts ≤ ·.ts) := by
    refine (hmono e.tid).sublist (hw.1.1.sublist.trans ?_)
    exact (threadEvents_sublist _ _ _).trans (hpre.sublist.filter _)
  refine ⟨pre, e, w, hpre, hw, rfl, rfl, ?_⟩
  simp only [lastTs_of_lastOf hx, lastTs_of_lastOf hy]
  refine ⟨fun hleast => ?_, ?_, fun h => UInt64.toNat_sub_of_le _ _ h, fun h => ?_⟩
  · have hmin : minStage stages = a :=
      le_antisymm (minStage_le ha) (hleast _ (minStage_mem hr ha))
    have hfol := hw.1.follows (s := minStage stages) (t := b) (by omega) (hw.2.1 b hb)
    have hxy := rel_of_follows hp (hmin ▸ hfol) hx hy
    exact hxy
  · constructor
    · intro hle
      by_contra hn
      obtain ⟨hf, hne⟩ := not_or.mp hn
      have hyx := rel_of_not_follows hlt'.ne hp hf hx hy
      exact hne (UInt64.le_antisymm hle hyx)
    · rintro (hf | he)
      · have hxy := rel_of_follows hp hf hx hy
        exact hxy
      · exact UInt64.le_of_eq he
  · rw [UInt64.toNat_sub]
    have := UInt64.lt_iff_toNat_lt.mp h
    have := x.ts.toNat_lt
    omega

/-- The middle stage of a group arrives after the last one. -/
theorem seqMatcher_delta_wraps :
    ¬ ∀ (stages : List ℤ) (evs : List RawEvent), stages.Pairwise (· < ·) →
      (∀ s ∈ stages, InRange s) → (∀ x ∈ evs, x.stage < 64) → SlotsDistinct evs →
      (∀ t, (evs.filter (·.tid = t)).Pairwise (·.ts ≤ ·.ts)) →
      ∀ d ∈ ((SeqMatcher.withCallbacks "io_flow" stages ([] : List (Cb Unit))).feedAll
        evs ()).1.pending, d.tsFrom ≤ d.tsTo := by
  intro h
  have hd := h [0, 1, 2] [⟨1, 7, 0, 0⟩, ⟨2, 7, 2, 0⟩, ⟨3, 7, 1, 0⟩] (by decide) (by decide)
    (by decide) (by decide) (fun t => List.Pairwise.filter _ (by decide))
    ⟨2 - 3, 1, 2, 3, 2, 7⟩ (by decide)
  revert hd
  decide

/-- The delta of two stages of which one is the first. -/
theorem seqMatcher_deltas_ordered_pair :
    ∃ d ∈ ((SeqMatcher.withCallbacks "send_flow" [5, 6] ([] : List (Cb Unit))).feedAll
      [⟨10, 7, 5, 0⟩, ⟨19, 7, 6, 0⟩] ()).1.pending,
        d.tsFrom ≤ d.tsTo ∧ d.valNs.toNat = d.tsTo.toNat - d.tsFrom.toNat := by
  have hpend : ⟨9, 5, 6, 10, 19, 7⟩ ∈ ((SeqMatcher.withCallbacks "send_flow" [5, 6]
      ([] : List (Cb Unit))).feedAll [⟨10, 7, 5, 0⟩, ⟨19, 7, 6, 0⟩] ()).1.pending := by decide
  obtain ⟨_, _, _, _, _, _, _, hle, _, hval, _⟩ := seqMatcher_deltas_ordered "send_flow"
    (show ([5, 6] : List ℤ).Pairwise (· < ·) by decide) (by decide) ([] : List (Cb Unit)) ()
    [⟨10, 7, 5, 0⟩, ⟨19, 7, 6, 0⟩] (by decide) (by decide)
    (fun t => List.Pairwise.filter _ (by decide)) _ hpend
  exact ⟨_, hpend, hle (by decide), hval (hle (by decide))⟩

end LensX
