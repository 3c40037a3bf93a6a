import LensX.Key.Segments

/-! # Independence of the arrival order

When every key has each stage at most once, the history of a key is a single
segment, finished or not. Its group and its record depend on the events of the
key and not on their order.
-/

namespace LensX

open Bitmask Pairs Transducer Window

variable {stages : List ℤ}

/-- Every pair of a key and a stage of the list occurs at most once. -/
def StagesUnique (stages : List ℤ) (evs : List RawEvent) : Prop :=
  ((evs.filter (·.stageNo ∈ stages)).map fun e => (e.key, e.stageNo)).Nodup

instance (stages : List ℤ) (evs : List RawEvent) : Decidable (StagesUnique stages evs) :=
  inferInstanceAs (Decidable (List.Nodup _))

theorem StagesUnique.perm {evs evs' : List RawEvent} (hp : evs.Perm evs')
    (hd : StagesUnique stages evs) : StagesUnique stages evs' :=
  ((hp.filter _).map _).nodup_iff.mp hd

theorem StagesUnique.keyEvents {evs : List RawEvent} (hd : StagesUnique stages evs) (k : UInt64) :
    ((LensX.keyEvents stages k evs).map (·.stageNo)).Nodup := by
  have hs : (LensX.keyEvents stages k evs).Sublist (evs.filter (·.stageNo ∈ stages)) := by
    have h : LensX.keyEvents stages k evs =
        (evs.filter (·.stageNo ∈ stages)).filter (·.key = k) := by
      simp [LensX.keyEvents, List.filter_filter, Bool.and_comm]
    exact h ▸ List.filter_sublist
  have hk : (LensX.keyEvents stages k evs).map (fun e => (e.key, e.stageNo)) =
      ((LensX.keyEvents stages k evs).map (·.stageNo)).map (k, ·) := by
    rw [List.map_map]
    refine List.map_congr_left fun e he => ?_
    simp [key_of_mem_keyEvents he]
  have hn := hd.sublist (hs.map fun e : RawEvent => (e.key, e.stageNo))
  exact (hk ▸ hn).of_map

theorem recordOf_perm {w w' : List RawEvent} (hp : w.Perm w') (hd : (w.map (·.stageNo)).Nodup) :
    recordOf stages w = recordOf stages w' := by
  have hm : ofList (w.map (·.stageNo)) = ofList (w'.map (·.stageNo)) := by
    refine (hp.map _).foldl_eq' (fun x _ y _ z => ?_) 0
    rw [UInt64.or_assoc, UInt64.or_comm (bit x), UInt64.or_assoc]
  have hl : ∀ s, lastOf RawEvent.stageNo s w = lastOf RawEvent.stageNo s w' :=
    fun s => lastOf_perm hp hd
  unfold recordOf lastTid
  rw [hm, hl]
  congr 1
  ext s
  rw [lastTs, lastTs, hl]

theorem keyCut_of_unique {evs : List RawEvent} (hne : stages ≠ []) (hd : StagesUnique stages evs)
    (k : UInt64) :
    keyCut stages k evs =
      if Covers RawEvent.stageNo stages (keyEvents stages k evs) then ([keyEvents stages k evs], [])
      else ([], keyEvents stages k evs) :=
  cut_of_nodup hne (fun _ he => (mem_keyEvents he).2) (hd.keyEvents k)

/-- The groups of a run, each with its key. -/
def keyedGroups (stages : List ℤ) (evs : List RawEvent) : List (UInt64 × Record) :=
  (emits (keysStep stages) (fun _ => none) evs).map fun o => (o.1.key, o.2)

theorem keyedGroups_filter (hr : ∀ s ∈ stages, InRange s) {evs : List RawEvent}
    (hlt : ∀ e ∈ evs, e.stage < 64) (k : UInt64) :
    (keyedGroups stages evs).filter (·.1 = k) =
      (keyCut stages k evs).1.map fun w => (k, recordOf stages w) := by
  have hk : ∀ l : List (RawEvent × Record), (l.map fun o => (o.1.key, o.2)).filter (·.1 = k) =
      ((l.filter (·.1.key = k)).map (·.2)).map (k, ·) := by
    intro l
    rw [List.filter_map, List.map_map]
    refine List.map_congr_left fun o ho => ?_
    have ho : o.1.key = k := by simpa using (List.mem_filter.mp ho).2
    simp [ho]
  rw [keyedGroups, hk, emits_keysStep hr hlt, List.map_map]
  rfl

theorem pending_eq_keyedGroups (id : String) (stages : List ℤ) (evs : List RawEvent) :
    ((KeyMatcher.new id stages).feedAll evs).pending =
      (keyedGroups stages evs).flatMap fun g => pairDeltas stages g.2 := by
  rw [KeyMatcher.feedAll_new, keyedGroups, List.flatMap_map]

/-- A permutation of the events completes the same groups, in some order. -/
theorem keyedGroups_perm (hr : ∀ s ∈ stages, InRange s) (hne : stages ≠ [])
    {evs evs' : List RawEvent} (hp : evs.Perm evs') (hlt : ∀ e ∈ evs, e.stage < 64)
    (hd : StagesUnique stages evs) : (keyedGroups stages evs).Perm (keyedGroups stages evs') := by
  have hlt' : ∀ e ∈ evs', e.stage < 64 := fun e he => hlt e (hp.mem_iff.mpr he)
  have hk : ∀ k, (keyEvents stages k evs).Perm (keyEvents stages k evs') := fun k => hp.filter _
  refine perm_of_keyed Prod.fst fun k => ?_
  rw [keyedGroups_filter hr hlt, keyedGroups_filter hr hlt', keyCut_of_unique hne hd,
    keyCut_of_unique hne (hd.perm hp), if_congr (covers_perm (hk k)) rfl rfl]
  split
  · simp [recordOf_perm (hk k) (hd.keyEvents k)]
  · rfl

theorem openRecord_perm {w w' : List RawEvent} (hp : w.Perm w')
    (hd : (w.map (·.stageNo)).Nodup) : openRecord stages w = openRecord stages w' := by
  have hnil : w = [] ↔ w' = [] := by
    rw [← List.length_eq_zero_iff, hp.length_eq, List.length_eq_zero_iff]
  unfold openRecord
  rw [recordOf_perm hp hd, if_congr hnil rfl rfl]

theorem recordsAfter_perm (hr : ∀ s ∈ stages, InRange s) (hne : stages ≠ [])
    {evs evs' : List RawEvent} (hp : evs.Perm evs') (hlt : ∀ e ∈ evs, e.stage < 64)
    (hd : StagesUnique stages evs) : recordsAfter stages evs = recordsAfter stages evs' := by
  have hlt' : ∀ e ∈ evs', e.stage < 64 := fun e he => hlt e (hp.mem_iff.mpr he)
  ext k : 1
  have hk : (keyEvents stages k evs).Perm (keyEvents stages k evs') := hp.filter _
  rw [recordsAfter_eq hr hlt, recordsAfter_eq hr hlt', keyCut_of_unique hne hd,
    keyCut_of_unique hne (hd.perm hp), if_congr (covers_perm hk) rfl rfl]
  split
  · rfl
  · exact openRecord_perm hk (hd.keyEvents k)

/-- Feeding a permutation of the events yields the same deltas and leaves the same records. -/
theorem keyMatcher_feedAll_perm (id : String) (hr : ∀ s ∈ stages, InRange s) (hne : stages ≠ [])
    {evs evs' : List RawEvent} (hp : evs.Perm evs') (hlt : ∀ e ∈ evs, e.stage < 64)
    (hd : StagesUnique stages evs) :
    let m := (KeyMatcher.new id stages).feedAll evs
    let m' := (KeyMatcher.new id stages).feedAll evs'
    m.drain.1.Perm m'.drain.1 ∧ m.drain.2.records = m'.drain.2.records := by
  intro m m'
  constructor
  · have hpend := (keyedGroups_perm hr hne hp hlt hd).flatMap_right fun g => pairDeltas stages g.2
    rwa [← pending_eq_keyedGroups id, ← pending_eq_keyedGroups id] at hpend
  · simp only [m, m', KeyMatcher.drain, KeyMatcher.feedAll_new]
    exact recordsAfter_perm hr hne hp hlt hd

/-- Two keys whose events arrive in two orders. -/
theorem keyMatcher_feedAll_perm_pair :
    (((KeyMatcher.new "by_request" [0, 1]).feedAll
      [⟨10, 7, 0, 5⟩, ⟨12, 7, 0, 6⟩, ⟨19, 8, 1, 5⟩]).drain.1).Perm
    (((KeyMatcher.new "by_request" [0, 1]).feedAll
      [⟨19, 8, 1, 5⟩, ⟨10, 7, 0, 5⟩, ⟨12, 7, 0, 6⟩]).drain.1) :=
  (keyMatcher_feedAll_perm "by_request" (by decide) (by decide) (by decide) (by decide)
    (by decide)).1

end LensX
