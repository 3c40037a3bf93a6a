import LensX.Hist.Buckets

/-! # The reports that a run prints

At the end every report is printed from the histogram of its recorded latencies. The
bars fit into their column, and the rows share out the samples of the report.
-/

namespace LensX

open Bitmask

namespace Hist

theorem le_foldl_max (h : Hist) (l : List ℕ) (m : UInt64) :
    m.toNat ≤ (l.foldl (fun m i => if h.buckets i > m then h.buckets i else m) m).toNat ∧
      ∀ i ∈ l, (h.buckets i).toNat ≤
        (l.foldl (fun m i => if h.buckets i > m then h.buckets i else m) m).toNat := by
  induction l generalizing m with
  | nil => exact ⟨le_rfl, fun i hi => absurd hi List.not_mem_nil⟩
  | cons i l ih =>
    obtain ⟨hm, hl⟩ := ih (if h.buckets i > m then h.buckets i else m)
    have hstep : m.toNat ≤ (if h.buckets i > m then h.buckets i else m).toNat ∧
        (h.buckets i).toNat ≤ (if h.buckets i > m then h.buckets i else m).toNat := by
      split
      · next hlt => exact ⟨(UInt64.lt_iff_toNat_lt.mp hlt).le, le_rfl⟩
      · next hle => exact ⟨le_rfl, Nat.le_of_not_lt fun hlt => hle (UInt64.lt_iff_toNat_lt.mpr hlt)⟩
    refine ⟨hstep.1.trans hm, fun j hj => ?_⟩
    rcases List.mem_cons.mp hj with rfl | hj
    · exact hstep.2.trans hm
    · exact hl j hj

theorem le_maxBucket (h : Hist) {i : ℕ} (hi : i < bucketCount) :
    (h.buckets i).toNat ≤ h.maxBucket.toNat :=
  (le_foldl_max h _ 0).2 i (List.mem_range.mpr hi)

/-- A bar is never empty and never longer than its column. -/
theorem bar_bounds {h : Hist} {i : ℕ} (hi : i < bucketCount) (hne : h.buckets i ≠ 0)
    (hsmall : (h.buckets i).toNat < 2 ^ 31) : 1 ≤ h.bar i ∧ h.bar i ≤ 30 := by
  have hle := le_maxBucket h hi
  have hpos : 0 < (h.buckets i).toNat :=
    Nat.pos_of_ne_zero fun h0 => hne (UInt64.toNat_inj.mp h0)
  have hlen : (30 * h.buckets i / h.maxBucket).toNat ≤ 30 := by
    rw [UInt64.toNat_div, UInt64.toNat_mul, Nat.mod_eq_of_lt (by change 30 * _ < _; omega)]
    exact Nat.div_le_of_le_mul (by change 30 * _ ≤ _; omega)
  have hall : ∀ n ≤ 30, 1 ≤ (if (UInt64.ofNat n).toUInt32.toInt32 < 1 then 1
      else (UInt64.ofNat n).toUInt32.toInt32) ∧ (if (UInt64.ofNat n).toUInt32.toInt32 < 1 then 1
      else (UInt64.ofNat n).toUInt32.toInt32) ≤ 30 := by decide
  have hbar := hall _ hlen
  rwa [UInt64.ofNat_toNat] at hbar

end Hist

section Print

variable {vals : List UInt64} (hn : vals.length < 2 ^ 31)
include hn

theorem count_eq_zero_iff : (vals.foldl Hist.record .empty).count = 0 ↔ vals = [] := by
  rw [← Int32.toInt_inj, Hist.count_foldl_record hn, Int32.toInt_zero, Int.natCast_eq_zero,
    List.length_eq_zero_iff]

/-- A printed report counts its samples, and its rows share them out. -/
theorem print_foldl_record (hne : vals ≠ []) (title : String) :
    ∃ count rows percentiles,
      (vals.foldl Hist.record .empty).print title = .samples title count rows percentiles ∧
        count.toInt = vals.length ∧ (rows.map (·.counter.toNat)).sum = vals.length ∧
        ∀ r ∈ rows, 1 ≤ r.bar ∧ r.bar ≤ 30 := by
  refine ⟨_, _, _, if_neg fun h => hne ((count_eq_zero_iff hn).mp h), Hist.count_foldl_record hn,
    ?_, fun r hr => ?_⟩
  · rw [Hist.sum_rows, Hist.total_foldl_record (hn.trans (by decide))]
  · obtain ⟨i, hi, hrow⟩ := List.mem_filterMap.mp hr
    split at hrow
    · cases hrow
    · next hne =>
      obtain rfl := Option.some.inj hrow
      refine Hist.bar_bounds (List.mem_range.mp hi) hne ?_
      rw [Hist.toNat_buckets hn]
      exact List.countP_le_length.trans_lt hn

end Print

/-- The latencies that were recorded for a report. -/
def World.latencies (w : World) (name : String) : List UInt64 :=
  (w.samples.filter (·.report = name)).map (·.row.valNs)

/-- The reports of a run are printed from the latencies of the run. -/
theorem printReports_run {cfg : Config}
    (hr : ∀ mc ∈ cfg.matchers, mc.mode = "seq" → ∀ s ∈ mc.stages, InRange s)
    (order : IterationOrder) (csvOpen : Bool) (evs : List RawEvent) :
    let w := (run cfg order csvOpen evs).world
    printReports cfg w = cfg.reports.map fun r =>
      if w.latencies r.name = [] then .noSamples r.name
      else ((w.latencies r.name).foldl Hist.record .empty).print r.name := by
  intro w
  refine List.map_congr_left fun r _ => ?_
  rw [(run_consistent hr order csvOpen evs).hists r.name, World.histOf]
  change (Option.map _ (if w.latencies r.name = [] then none else some _)).getD _ = _
  split <;> rfl

end LensX
