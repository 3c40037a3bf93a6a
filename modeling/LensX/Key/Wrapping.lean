import Mathlib.Algebra.Group.Nat.Defs
import Mathlib.Algebra.Order.Group.Unbundled.Int
import LensX.Key.Permutation

/-! # Latencies that wrap

A key matcher completes a group whatever the order of its events, but subtracts the
timestamps in the order of the stage list. A latency is the elapsed time only if the
stages of the list come in their order.
-/

namespace LensX

open Bitmask Pairs Transducer Window

variable {stages : List ℤ} {evs : List RawEvent}

theorem toNat_sub_eq_abs_iff (x y : UInt64) :
    ((y - x).toNat : ℤ) = |(y.toNat : ℤ) - x.toNat| ↔ x ≤ y ∨ x.toNat = y.toNat + 2 ^ 63 := by
  have hx := x.toNat_lt
  have hy := y.toNat_lt
  rw [UInt64.toNat_sub, UInt64.le_iff_toNat_le]
  rcases Nat.lt_or_ge y.toNat x.toNat with h | h
  · rw [abs_of_nonpos (by omega)]
    omega
  · rw [abs_of_nonneg (by omega)]
    omega

/-- When no stage repeats, a group holds the timestamp of each of its events. -/
theorem lastTs_of_mem {w : List RawEvent} (hd : (w.map (·.stageNo)).Nodup) {x : RawEvent}
    (hx : x ∈ w) : lastTs w x.stageNo = x.ts := by
  have hc : Covers RawEvent.stageNo [x.stageNo] w := by simpa [Covers] using ⟨x, hx, rfl⟩
  obtain ⟨y, hy⟩ := exists_lastOf hc (List.mem_singleton_self _)
  obtain ⟨hm, hs⟩ := mem_of_lastOf hy
  rw [lastTs_of_lastOf hy, List.inj_on_of_nodup_map hd hm hx hs]

/-- The key got an event of every stage. -/
def CompleteKey (stages : List ℤ) (evs : List RawEvent) (k : UInt64) : Prop :=
  ∀ s ∈ stages, ∃ z ∈ evs, z.key = k ∧ z.stageNo = s

theorem covers_keyEvents_iff {k : UInt64} :
    Covers RawEvent.stageNo stages (keyEvents stages k evs) ↔ CompleteKey stages evs k := by
  refine forall₂_congr fun s hs => ?_
  constructor
  · rintro ⟨z, hz, rfl⟩
    exact ⟨z, (mem_keyEvents hz).1, key_of_mem_keyEvents hz, rfl⟩
  · rintro ⟨z, hz, hk, rfl⟩
    exact ⟨z, List.mem_filter.mpr ⟨hz, decide_eq_true ⟨hs, hk⟩⟩, rfl⟩

/-- Every latency is the time between an event of its first and one of its second stage. -/
def NeverWraps (id : String) (stages : List ℤ) (evs : List RawEvent) : Prop :=
  ∀ d ∈ ((KeyMatcher.new id stages).feedAll evs).pending,
    ∃ x ∈ evs, ∃ y ∈ evs, x.key = y.key ∧ x.stageNo = d.fromStage ∧ y.stageNo = d.toStage ∧
      d.tsFrom = x.ts ∧ d.tsTo = y.ts ∧ (d.valNs.toNat : ℤ) = |(y.ts.toNat : ℤ) - x.ts.toNat|

/-- On the complete keys earlier stages have earlier timestamps. The difference `2 ^ 63` is its own
negation. -/
def InListOrder (stages : List ℤ) (evs : List RawEvent) : Prop :=
  ∀ x ∈ evs, ∀ y ∈ evs, x.key = y.key → x.stageNo ∈ stages → y.stageNo ∈ stages →
    x.stageNo < y.stageNo → CompleteKey stages evs x.key →
      x.ts ≤ y.ts ∨ x.ts.toNat = y.ts.toNat + 2 ^ 63

section Run

variable (hr : ∀ s ∈ stages, InRange s) (hne : stages ≠ []) (hlt : ∀ e ∈ evs, e.stage < 64)
  (hd : StagesUnique stages evs)
include hr hne hlt hd

/-- The deltas are those of the complete keys. -/
theorem mem_pending_iff (id : String) {d : Delta} :
    d ∈ ((KeyMatcher.new id stages).feedAll evs).pending ↔
      ∃ k, CompleteKey stages evs k ∧
        d ∈ pairDeltas stages (recordOf stages (keyEvents stages k evs)) := by
  have hkey : ∀ g : UInt64 × Record, g ∈ keyedGroups stages evs ↔
      CompleteKey stages evs g.1 ∧ g.2 = recordOf stages (keyEvents stages g.1 evs) := by
    intro g
    have hself : g ∈ keyedGroups stages evs ↔ g ∈ (keyedGroups stages evs).filter (·.1 = g.1) := by
      simp
    rw [hself, keyedGroups_filter hr hlt, keyCut_of_unique hne hd, ← covers_keyEvents_iff]
    split
    · next h => simp [h, Prod.ext_iff]
    · next h => simp [h]
  rw [pending_eq_keyedGroups, List.mem_flatMap]
  constructor
  · rintro ⟨g, hg, hd⟩
    obtain ⟨hc, hrec⟩ := (hkey g).mp hg
    exact ⟨g.1, hc, hrec ▸ hd⟩
  · rintro ⟨k, hc, hd⟩
    exact ⟨(k, _), (hkey _).mpr ⟨hc, rfl⟩, hd⟩

/-- The delta of two events of a complete key. -/
theorem delta_mem_pending (id : String) {x y : RawEvent} (hx : x ∈ evs) (hy : y ∈ evs)
    (hk : x.key = y.key) (hxy : (x.stageNo, y.stageNo) ∈ pairs stages)
    (hc : CompleteKey stages evs x.key) :
    ∃ tid, ⟨y.ts - x.ts, x.stageNo, y.stageNo, x.ts, y.ts, tid⟩ ∈
      ((KeyMatcher.new id stages).feedAll evs).pending := by
  obtain ⟨hxs, hys⟩ := mem_of_mem_pairs hxy
  have hmx : x ∈ keyEvents stages x.key evs :=
    List.mem_filter.mpr ⟨hx, decide_eq_true ⟨hxs, rfl⟩⟩
  have hmy : y ∈ keyEvents stages x.key evs :=
    List.mem_filter.mpr ⟨hy, decide_eq_true ⟨hys, hk.symm⟩⟩
  refine ⟨lastTid (keyEvents stages x.key evs) (minStage stages), ?_⟩
  rw [mem_pending_iff hr hne hlt hd]
  refine ⟨x.key, hc, List.mem_map.mpr ⟨(x.stageNo, y.stageNo), hxy, ?_⟩⟩
  simp only [recordOf, lastTs_of_mem (hd.keyEvents x.key) hmx,
    lastTs_of_mem (hd.keyEvents x.key) hmy]

/-- A delta comes from two events of a complete key. -/
theorem exists_events_of_mem_pending (id : String) {d : Delta}
    (hm : d ∈ ((KeyMatcher.new id stages).feedAll evs).pending) :
    ∃ x ∈ evs, ∃ y ∈ evs, x.key = y.key ∧ (x.stageNo, y.stageNo) ∈ pairs stages ∧
      CompleteKey stages evs x.key ∧
      ∃ tid, d = ⟨y.ts - x.ts, x.stageNo, y.stageNo, x.ts, y.ts, tid⟩ := by
  obtain ⟨k, hc, hmem⟩ := (mem_pending_iff hr hne hlt hd id).mp hm
  obtain ⟨⟨a, b⟩, hab, rfl⟩ := List.mem_map.mp hmem
  obtain ⟨ha, hb⟩ := mem_of_mem_pairs hab
  obtain ⟨x, hx, rfl, rfl⟩ := hc a ha
  obtain ⟨y, hy, hk, rfl⟩ := hc b hb
  have hmx : x ∈ keyEvents stages x.key evs :=
    List.mem_filter.mpr ⟨hx, decide_eq_true ⟨ha, rfl⟩⟩
  have hmy : y ∈ keyEvents stages x.key evs :=
    List.mem_filter.mpr ⟨hy, decide_eq_true ⟨hb, hk⟩⟩
  refine ⟨x, hx, y, hy, hk.symm, hab, hc,
    lastTid (keyEvents stages x.key evs) (minStage stages), ?_⟩
  simp only [recordOf, lastTs_of_mem (hd.keyEvents x.key) hmx,
    lastTs_of_mem (hd.keyEvents x.key) hmy]

end Run

/-- The latencies are elapsed times if and only if the complete keys go through the stages in the
order of the list. -/
theorem keyMatcher_neverWraps_iff (id : String) (hs : stages.Pairwise (· < ·))
    (hr : ∀ s ∈ stages, InRange s) (hlt : ∀ e ∈ evs, e.stage < 64)
    (hd : StagesUnique stages evs) : NeverWraps id stages evs ↔ InListOrder stages evs := by
  rcases eq_or_ne stages [] with rfl | hne
  · refine iff_of_true ?_ fun x _ y _ _ hx => absurd hx List.not_mem_nil
    rw [NeverWraps, KeyMatcher.feedAll_new]
    simp [pairDeltas, pairs]
  constructor
  · intro h x hx y hy hk hxs hys hxy hc
    obtain ⟨tid, hm⟩ := delta_mem_pending hr hne hlt hd id hx hy hk
      ((mem_pairs_of_sorted hs).mpr ⟨hxs, hys, hxy⟩) hc
    obtain ⟨x', _, y', _, _, _, _, hx', hy', habs⟩ := h _ hm
    rw [← hx', ← hy', toNat_sub_eq_abs_iff] at habs
    exact habs
  · intro h d hm
    obtain ⟨x, hx, y, hy, hk, hab, hc, tid, rfl⟩ :=
      exists_events_of_mem_pending hr hne hlt hd id hm
    obtain ⟨hxs, hys, hxy⟩ := (mem_pairs_of_sorted hs).mp hab
    exact ⟨x, hx, y, hy, hk, rfl, rfl, rfl, rfl,
      (toNat_sub_eq_abs_iff _ _).mpr (h x hx y hy hk hxs hys hxy hc)⟩

/-- The second stage of key 5 arrives last, and key 6 misses it. -/
theorem keyMatcher_neverWraps_pair :
    NeverWraps "by_request" [0, 1] [⟨10, 7, 0, 5⟩, ⟨12, 7, 1, 6⟩, ⟨19, 8, 1, 5⟩] :=
  (keyMatcher_neverWraps_iff "by_request" (by decide) (by decide) (by decide) (by decide)).mpr
    (by unfold InListOrder CompleteKey; decide)

/-- The second stage arrives nine nanoseconds before the first. -/
theorem keyMatcher_wraps :
    ((KeyMatcher.new "by_request" [0, 1]).feedAll [⟨10, 7, 1, 5⟩, ⟨19, 8, 0, 5⟩]).pending =
        [⟨18446744073709551607, 0, 1, 19, 10, 8⟩] ∧
      ¬ NeverWraps "by_request" [0, 1] [⟨10, 7, 1, 5⟩, ⟨19, 8, 0, 5⟩] := by
  have hpend : ((KeyMatcher.new "by_request" [0, 1]).feedAll
      [⟨10, 7, 1, 5⟩, ⟨19, 8, 0, 5⟩]).pending =
        [⟨18446744073709551607, 0, 1, 19, 10, 8⟩] := by decide
  refine ⟨hpend, fun h => ?_⟩
  rw [NeverWraps, hpend] at h
  obtain ⟨x, _, y, _, _, _, _, hx, hy, habs⟩ := h _ (List.mem_singleton_self _)
  rw [← hx, ← hy] at habs
  exact absurd habs (by decide)

end LensX
