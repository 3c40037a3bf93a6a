import Mathlib.Data.Set.Function
import LensX.Seq.Groups

/-! # Isolation of threads

The slot table is indexed by the thread number modulo its size and only the
first stage stores the thread number. Groups of a thread are independent of the
other threads for every order of events exactly when no two threads share a
slot, or when a group is a single stage.
-/

namespace LensX

open Bitmask Transducer Window

/-- The snapshots that a matcher hands to its callback, each with the event being fed. -/
def emissions : SeqMatcher (List StageSnapshot) → List RawEvent → List (RawEvent × StageSnapshot)
  | _, [] => []
  | m, e :: evs => (m.feed e []).2.map (e, ·) ++ emissions (m.feed e []).1 evs

/-- The groups of a new matcher. -/
def groups (id : String) (stages : List ℤ) (evs : List RawEvent) :
    List (RawEvent × StageSnapshot) :=
  emissions (.withCallbacks id stages [fun s out => out ++ [s]]) evs

/-- The groups completed by events of a thread. -/
def groupsOf (id : String) (stages : List ℤ) (t : UInt32) (evs : List RawEvent) :
    List StageSnapshot :=
  ((groups id stages evs).filter (·.1.tid = t)).map (·.2)

/-- Every thread's groups are those it would have on its own. -/
def Isolated (stages : List ℤ) (evs : List RawEvent) : Prop :=
  ∀ id t, groupsOf id stages t evs = groupsOf id stages t (evs.filter (·.tid = t))

variable {stages : List ℤ}

/-- The snapshot of a completed slot. -/
def snapshotOf (stages : List ℤ) (r : Record) : StageSnapshot :=
  ((SeqMatcher.new "" stages : SeqMatcher Unit)).snapshot r

theorem snapshotOf_ts (r : Record) (s : ℤ) :
    (snapshotOf stages r).ts s = if s ∈ stages then some (r.ts s) else none :=
  SeqMatcher.snapshot_ts _ _ _

/-- A snapshot depends on the stages of the list and the thread only. -/
theorem snapshotOf_congr {r r' : Record} (hts : ∀ s ∈ stages, r.ts s = r'.ts s)
    (htid : r.tid = r'.tid) : snapshotOf stages r = snapshotOf stages r' := by
  have h : (snapshotOf stages r).ts = (snapshotOf stages r').ts := by
    ext1 s
    rw [snapshotOf_ts, snapshotOf_ts]
    split
    · next hs => rw [hts s hs]
    · rfl
  exact StageSnapshot.mk.injEq .. |>.mpr ⟨h, rfl, htid⟩

theorem emissions_eq (m : SeqMatcher (List StageSnapshot)) (evs : List RawEvent)
    (hm : m.onCompleteCbs = [fun s out => out ++ [s]]) :
    emissions m evs =
      (emits (slotsStep m.stages) m.slots evs).map fun o => (o.1, snapshotOf m.stages o.2) := by
  induction evs generalizing m with
  | nil => rfl
  | cons e evs ih =>
    rw [emissions, ih _ (by simp [SeqMatcher.feed_eq, hm]), SeqMatcher.feed_eq, emits_cons]
    cases (slotsStep m.stages m.slots e).2 with
    | none => simp
    | some r => simp [SeqMatcher.complete, hm, snapshotOf, SeqMatcher.snapshot, SeqMatcher.new,
        SeqMatcher.stagesMask]

theorem groups_eq (id : String) (stages : List ℤ) (evs : List RawEvent) :
    groups id stages evs =
      (emits (slotsStep stages) (fun _ => .zero) evs).map
        fun o => (o.1, snapshotOf stages o.2) := by
  unfold groups
  rw [emissions_eq _ _ (by rw [SeqMatcher.withCallbacks_eq]), SeqMatcher.withCallbacks_eq]

theorem groupsOf_eq (id : String) (t : UInt32) (evs : List RawEvent) :
    groupsOf id stages t evs =
      ((emits (slotsStep stages) (fun _ => .zero) evs).filter (·.1.tid = t)).map
        fun o => snapshotOf stages o.2 := by
  simp [groupsOf, groups_eq, List.filter_map, Function.comp_def]

theorem ignores_slotStep : Ignores (slotStep stages) (passes stages) := by
  intro r e hp
  rw [slotStep, if_pos (passes_eq_false_iff.mp hp)]

theorem passes_of_mem_emits {s : UInt32 → Record} {evs : List RawEvent} {o : RawEvent × Record}
    (ho : o ∈ emits (slotsStep stages) s evs) : o.1 ∈ evs ∧ passes stages o.1 = true := by
  obtain ⟨pre, post, rfl, hout⟩ := (mem_emits _ _).mp ho
  refine ⟨by simp, ?_⟩
  by_contra hn
  have hi := ignores_slotStep (Transducer.run (slotsStep stages) s pre
    (SeqMatcher.tidHash o.1.tid)) o.1 (by simpa using hn)
  simp [slotsStep, keyed, hi] at hout

/-- A slot that no two threads of the history share holds the history of one thread. -/
theorem emits_of_thread {evs : List RawEvent} {t : UInt32}
    (hinj : ∀ e ∈ evs, passes stages e = true → e.tid % 65536 = t % 65536 → e.tid = t) :
    (emits (slotsStep stages) (fun _ => .zero) evs).filter (·.1.tid = t) =
      emits (slotStep stages) .zero (evs.filter (·.tid = t)) := by
  have hkey : (emits (slotsStep stages) (fun _ => .zero) evs).filter (·.1.tid = t) =
      (emits (slotsStep stages) (fun _ => .zero) evs).filter
        (SeqMatcher.tidHash ·.1.tid = SeqMatcher.tidHash t) := by
    apply List.filter_congr
    intro o ho
    obtain ⟨hm, hp⟩ := passes_of_mem_emits ho
    have : SeqMatcher.tidHash o.1.tid = SeqMatcher.tidHash t ↔ o.1.tid = t :=
      ⟨hinj o.1 hm hp, fun h => h ▸ rfl⟩
    simp [this]
  have hslot : (emits (slotsStep stages) (fun _ => .zero) evs).filter
      (SeqMatcher.tidHash ·.1.tid = SeqMatcher.tidHash t) =
        emits (slotStep stages) .zero
          (evs.filter (SeqMatcher.tidHash ·.tid = SeqMatcher.tidHash t)) :=
    emits_keyed (fun e : RawEvent => SeqMatcher.tidHash e.tid) _ _ _
  rw [hkey, hslot, ← emits_filter ignores_slotStep _ (evs.filter (·.tid = t)),
    ← emits_filter ignores_slotStep _ (evs.filter (SeqMatcher.tidHash ·.tid = _)),
    List.filter_filter, List.filter_filter]
  congr 1
  apply List.filter_congr
  intro e he
  cases hp : passes stages e with
  | false => simp
  | true =>
    have : SeqMatcher.tidHash e.tid = SeqMatcher.tidHash t ↔ e.tid = t :=
      ⟨hinj e he hp, fun h => h ▸ rfl⟩
    simp [this]

theorem isolated_of_injOn {T : Set UInt32} (hT : Set.InjOn (· % 65536) T) {evs : List RawEvent}
    (hev : ∀ e ∈ evs, passes stages e = true → e.tid ∈ T) : Isolated stages evs := by
  intro id t
  rw [groupsOf_eq, groupsOf_eq]
  by_cases ht : t ∈ T
  · have hinj : ∀ e ∈ evs, passes stages e = true → e.tid % 65536 = t % 65536 → e.tid = t :=
      fun e he hp h => hT (hev e he hp) ht h
    have hinj' : ∀ e ∈ evs.filter (·.tid = t), passes stages e = true →
        e.tid % 65536 = t % 65536 → e.tid = t :=
      fun e he hp h => hinj e (List.mem_filter.mp he).1 hp h
    rw [emits_of_thread hinj, emits_of_thread hinj', List.filter_filter]
    simp
  · have hnil : ∀ l : List RawEvent, (∀ e ∈ l, passes stages e = true → e.tid ∈ T) →
        (emits (slotsStep stages) (fun _ => .zero) l).filter (·.1.tid = t) = [] := by
      intro l hl
      rw [List.filter_eq_nil_iff]
      intro o ho heq
      obtain ⟨hm, hp⟩ := passes_of_mem_emits ho
      exact ht (of_decide_eq_true heq ▸ hl o.1 hm hp)
    rw [hnil evs hev, hnil _ fun e he => hev e (List.mem_filter.mp he).1]

section SingleStage

variable {f : ℤ} (hr : ∀ s ∈ stages, InRange s) (hf : ∀ s ∈ stages, s = f)
include hr hf

/-- With a single stage every event of the mask is a group of its own. -/
theorem snapshots_single {s : UInt32 → Record} {evs : List RawEvent}
    (hlt : ∀ e ∈ evs, e.stage < 64) :
    (emits (slotsStep stages) s evs).map (fun o => (o.1, snapshotOf stages o.2)) =
      (evs.filter (passes stages)).map
        fun e => (e, snapshotOf stages ⟨fun _ => e.ts, 0, e.tid⟩) := by
  induction evs generalizing s with
  | nil => rfl
  | cons e evs ih =>
    have hlt' := hlt e List.mem_cons_self
    rw [emits_cons, List.map_append, ih fun x hx => hlt x (List.mem_cons_of_mem _ hx)]
    cases hp : passes stages e with
    | false =>
      have hi := ignores_slotStep (s (SeqMatcher.tidHash e.tid)) e hp
      simp [slotsStep, keyed, hi, hp]
    | true =>
      have he : e.stageNo ∈ stages := (passes_iff hr hlt').mp hp
      have hmin : e.stageNo = minStage stages := (hf _ he).trans (hf _ (minStage_mem hr he)).symm
      have hfull : (slotStore stages (s (SeqMatcher.tidHash e.tid)) e).Full (ofList stages) := by
        rw [Record.full_ofList hr]
        intro t ht
        rw [slotStore_filled_start hr hmin he ht]
        exact ⟨e, by simp, (hf _ he).trans (hf t ht).symm⟩
      have hsnap : snapshotOf stages (slotStore stages (s (SeqMatcher.tidHash e.tid)) e) =
          snapshotOf stages ⟨fun _ => e.ts, 0, e.tid⟩ := by
        refine snapshotOf_congr (fun t ht => ?_) (by simp [slotStore, hmin, Record.put])
        have : t = e.stageNo := (hf t ht).trans (hf _ he).symm
        simp [slotStore, hmin, Record.put, this]
      simp only [slotsStep, keyed, slotStep_fst hr he hlt', if_pos hfull]
      simp [hp, hsnap]

theorem isolated_of_single {evs : List RawEvent} (hlt : ∀ e ∈ evs, e.stage < 64) :
    Isolated stages evs := by
  intro id t
  have hg : ∀ l : List RawEvent, (∀ e ∈ l, e.stage < 64) → groupsOf id stages t l =
      (l.filter fun e => e.tid = t && passes stages e).map
        fun e => snapshotOf stages ⟨fun _ => e.ts, 0, e.tid⟩ := by
    intro l hl
    rw [groupsOf, groups_eq, snapshots_single hr hf hl, List.filter_map, List.map_map,
      List.filter_filter]
    rfl
  rw [hg evs hlt, hg _ fun e he => hlt e (List.mem_filter.mp he).1, List.filter_filter]
  congr 1
  apply List.filter_congr
  intro e _
  cases h : decide (e.tid = t) <;> simp

end SingleStage

section Collision

variable (hr : ∀ s ∈ stages, InRange s)

/-- An event of a stage. -/
def stageEvent (tid : UInt32) (s : ℤ) : RawEvent := ⟨0, tid, UInt8.ofNat s.toNat, 0⟩

/-- A group whose first stage comes from one thread and whose other stages come from another. -/
def collision (stages : List ℤ) (t t' : UInt32) : List RawEvent :=
  stageEvent t (minStage stages) ::
    (stages.filter (· ≠ minStage stages)).map (stageEvent t')

theorem stageEvent_stage (tid : UInt32) {s : ℤ} (hs : InRange s) :
    (stageEvent tid s).stageNo = s ∧ (stageEvent tid s).stage < 64 := by
  obtain ⟨n, rfl⟩ := Int.eq_ofNat_of_zero_le hs.1
  have hn : n < 64 := by have := hs.2; omega
  have hmod : n % 256 = n := by omega
  constructor
  · simp [stageEvent, RawEvent.stageNo, hmod]
  · simp [stageEvent, UInt8.lt_iff_toNat_lt, hmod, hn]

include hr

theorem mem_collision {t t' : UInt32} {b : ℤ} (hb : b ∈ stages) {e : RawEvent}
    (he : e ∈ collision stages t t') :
    e.stage < 64 ∧ e.stageNo ∈ stages ∧
      (e.stageNo = minStage stages ∧ e.tid = t ∨ e.stageNo ≠ minStage stages ∧ e.tid = t') := by
  have hm := minStage_mem hr hb
  rcases List.mem_cons.mp he with rfl | he
  · obtain ⟨hs, hlt⟩ := stageEvent_stage t (hr _ hm)
    rw [hs]
    exact ⟨hlt, hm, Or.inl ⟨rfl, rfl⟩⟩
  · obtain ⟨s, hs, rfl⟩ := List.mem_map.mp he
    obtain ⟨hs, hne⟩ := List.mem_filter.mp hs
    obtain ⟨hno, hlt⟩ := stageEvent_stage t' (hr s hs)
    rw [hno]
    exact ⟨hlt, hs, Or.inr ⟨of_decide_eq_true hne, rfl⟩⟩

theorem covers_collision {t t' : UInt32} {b : ℤ} (hb : b ∈ stages) :
    Covers RawEvent.stageNo stages (collision stages t t') := by
  intro s hs
  by_cases hmin : s = minStage stages
  · subst hmin
    exact ⟨_, List.mem_cons_self, (stageEvent_stage _ (hr _ (minStage_mem hr hb))).1⟩
  · refine ⟨stageEvent t' s, List.mem_cons_of_mem _ (List.mem_map_of_mem ?_),
      (stageEvent_stage _ (hr s hs)).1⟩
    simp [hs, hmin]

/-- Without a first stage there is no group. -/
theorem groupsOf_eq_nil (id : String) (t : UInt32) {evs : List RawEvent}
    (hlt : ∀ e ∈ evs, e.stage < 64) (hs : ∀ e ∈ evs, ¬ Starts stages e) :
    groupsOf id stages t evs = [] := by
  rw [groupsOf_eq, List.map_eq_nil_iff, List.filter_eq_nil_iff]
  rintro ⟨e, r⟩ ho
  obtain ⟨pre, post, rfl, hout⟩ := (mem_emits _ _).mp ho
  have hpre : pre ++ [e] <+: pre ++ e :: post := ⟨post, by simp⟩
  obtain ⟨_, w, ⟨⟨hsuf, a, v, rfl, ha, _⟩, _⟩, _⟩ :=
    completes_of_slotsStep hr (fun x hx => hlt x (hpre.subset hx)) hout
  exact (hs a (hpre.subset (List.mem_of_mem_filter (hsuf.subset List.mem_cons_self))) ha).elim

/-- A first stage and the other stages after it complete a group in their slot. -/
theorem exists_emit_of_window {k : UInt32} {x : RawEvent} {rest : List RawEvent}
    (hlt : ∀ y ∈ x :: rest, y.stage < 64)
    (hm : ∀ y ∈ x :: rest, y.stageNo ∈ stages ∧ SeqMatcher.tidHash y.tid = k)
    (hx : Starts stages x) (hrest : ∀ y ∈ rest, ¬ Starts stages y)
    (hone : ¬ Covers RawEvent.stageNo stages [x])
    (hc : Covers RawEvent.stageNo stages (x :: rest)) :
    ∃ a ∈ rest, ∃ r, (a, r) ∈ emits (slotsStep stages) (fun _ => .zero) (x :: rest) := by
  have hne : stages ≠ [] := List.ne_nil_of_mem (hm x List.mem_cons_self).1
  obtain ⟨u, a, v, heq, hu, hua⟩ := exists_first_cover (not_covers_nil hne) hc
  cases u with
  | nil =>
    obtain ⟨rfl, -⟩ := List.cons.inj heq
    exact (hone hua).elim
  | cons y u =>
    obtain ⟨rfl, rfl⟩ := List.cons.inj heq
    have hpre : (x :: u) ++ [a] <+: x :: (u ++ a :: v) := ⟨v, by simp⟩
    have hhist : slotHistory stages (SeqMatcher.tidHash a.tid) ((x :: u) ++ [a]) =
        (x :: u) ++ [a] := by
      apply List.filter_eq_self.mpr
      intro y hy
      simp [hm y (hpre.subset hy), hm a (by simp)]
    have hw : CompletesGroup stages
        (slotHistory stages (SeqMatcher.tidHash a.tid) ((x :: u) ++ [a])) ((x :: u) ++ [a]) := by
      rw [hhist]
      refine ⟨⟨List.suffix_rfl, x, u ++ [a], rfl, hx, fun y hy => hrest y ?_⟩, hua, ?_⟩
      · rcases List.mem_append.mp hy with hy | hy <;> simp_all
      · rwa [List.dropLast_concat]
    obtain ⟨r, hout, _⟩ := slotsStep_of_completes hr (fun y hy => hlt y (hpre.subset hy))
      (hm a (by simp)).1 hw
    exact ⟨a, by simp, r, (mem_emits _ _).mpr ⟨x :: u, v, rfl, hout⟩⟩

/-- The second thread completes a group although it has no first stage. -/
theorem not_isolated_of_collision {t t' : UInt32} (hne : t ≠ t') (hcol : t % 65536 = t' % 65536)
    {b : ℤ} (hb : b ∈ stages) (hbm : b ≠ minStage stages) :
    ¬ Isolated stages (collision stages t t') := by
  intro hiso
  have hmem : ∀ e ∈ collision stages t t', _ := fun e he => mem_collision hr hb he
  have halone : groupsOf "" stages t' ((collision stages t t').filter (·.tid = t')) = [] := by
    refine groupsOf_eq_nil hr _ _ (fun e he => (hmem e (List.mem_filter.mp he).1).1) ?_
    intro e he hs
    obtain ⟨he, ht⟩ := List.mem_filter.mp he
    rcases (hmem e he).2.2 with ⟨_, h⟩ | ⟨h, _⟩
    · exact hne (h.symm.trans (of_decide_eq_true ht))
    · exact h hs
  have hfirst := (stageEvent_stage t (hr _ (minStage_mem hr hb))).1
  have hlater : ∀ y ∈ (stages.filter (· ≠ minStage stages)).map (stageEvent t'),
      ¬ Starts stages y ∧ y.tid = t' := by
    intro y hy
    obtain ⟨s, hs, rfl⟩ := List.mem_map.mp hy
    obtain ⟨hs, hsm⟩ := List.mem_filter.mp hs
    refine ⟨?_, rfl⟩
    rw [Starts, (stageEvent_stage _ (hr s hs)).1]
    exact of_decide_eq_true hsm
  have hslot : ∀ y ∈ collision stages t t',
      y.stageNo ∈ stages ∧ SeqMatcher.tidHash y.tid = SeqMatcher.tidHash t' := by
    intro y hy
    obtain ⟨_, hys, ⟨_, ht⟩ | ⟨_, ht⟩⟩ := hmem y hy
    · exact ⟨hys, ht ▸ hcol⟩
    · exact ⟨hys, ht ▸ rfl⟩
  have hone : ¬ Covers RawEvent.stageNo stages [stageEvent t (minStage stages)] := by
    intro hc
    obtain ⟨y, hy, hyb⟩ := hc b hb
    rw [List.mem_singleton.mp hy, hfirst] at hyb
    exact hbm hyb.symm
  obtain ⟨a, ha, r, hout⟩ := exists_emit_of_window hr (fun y hy => (hmem y hy).1) hslot hfirst
    (fun y hy => (hlater y hy).1) hone (covers_collision hr hb)
  have hnil := (hiso "" t').trans halone
  rw [groupsOf_eq, List.map_eq_nil_iff, List.filter_eq_nil_iff] at hnil
  exact hnil _ hout (by simp [(hlater a ha).2])

/-- Threads are isolated in every order of their events exactly when no two of them share a slot
or the stage list has a single stage. -/
theorem seqMatcher_isolated_iff (T : Set UInt32) :
    (∀ evs : List RawEvent, (∀ e ∈ evs, e.stage < 64) →
      (∀ e ∈ evs, e.stageNo ∈ stages → e.tid ∈ T) → Isolated stages evs) ↔
    Set.InjOn (· % 65536) T ∨ ∀ a ∈ stages, ∀ b ∈ stages, a = b := by
  constructor
  · intro h
    by_contra hn
    obtain ⟨hT, hs⟩ := not_or.mp hn
    obtain ⟨t, ht, t', ht', hcol, hne⟩ : ∃ t ∈ T, ∃ t' ∈ T, t % 65536 = t' % 65536 ∧ t ≠ t' := by
      simpa [Set.InjOn] using hT
    obtain ⟨a, ha, b, hb, hab⟩ : ∃ a ∈ stages, ∃ b ∈ stages, a ≠ b := by simpa using hs
    obtain ⟨c, hc, hcm⟩ : ∃ c ∈ stages, c ≠ minStage stages := by
      by_cases hm : a = minStage stages
      · exact ⟨b, hb, fun hbm => hab (hm.trans hbm.symm)⟩
      · exact ⟨a, ha, hm⟩
    refine not_isolated_of_collision hr hne hcol hc hcm (h _ (fun e he => ?_) fun e he _ => ?_)
    · exact (mem_collision hr hc he).1
    · rcases (mem_collision hr hc he).2.2 with ⟨_, h⟩ | ⟨_, h⟩ <;> rw [h] <;> assumption
  · rintro (hT | hs) evs hlt hev
    · refine isolated_of_injOn hT fun e he hp => hev e he ((passes_iff hr (hlt e he)).mp hp)
    · rcases List.eq_nil_or_concat stages with rfl | ⟨l, f, rfl⟩
      · exact isolated_of_single (f := 0) hr (by simp) hlt
      · exact isolated_of_single (f := f) hr (fun s hs' => hs s hs' f (by simp)) hlt

end Collision

/-- The first stage of thread 1 and the second stage of thread 65537 make a group. -/
theorem seqMatcher_mixes_threads :
    ¬ ∀ (stages : List ℤ) (evs : List RawEvent), (∀ s ∈ stages, InRange s) →
      (∀ e ∈ evs, e.stage < 64) → Isolated stages evs := by
  intro h
  have hl := congrArg List.length
    (h [0, 1] [⟨1, 1, 0, 0⟩, ⟨2, 65537, 1, 0⟩] (by decide) (by decide) "io_flow" 65537)
  revert hl
  decide

/-- Threads 1 and 2 have different slots. -/
theorem seqMatcher_isolated_pair :
    Isolated [0, 1] [⟨1, 1, 0, 0⟩, ⟨2, 2, 0, 0⟩, ⟨3, 1, 1, 0⟩, ⟨4, 2, 1, 0⟩] := by
  refine (seqMatcher_isolated_iff (show ∀ s ∈ [0, 1], InRange s by decide) {1, 2}).mpr
    (Or.inl ?_) _ (by decide) ?_
  · simp [Set.InjOn]
  · simp

end LensX
