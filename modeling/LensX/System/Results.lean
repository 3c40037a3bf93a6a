import LensX.System.RawData
import LensX.System.Reports

/-! # The results of a run

Every sample of a run is counted in what is printed, whatever the configuration and the
events are. Without a declared report there is nothing to print.
-/

namespace LensX

/-- The text of a report that has these latencies. -/
def Printed.Reports (name : String) (vals : List UInt64) : Printed → Prop
  | .noSamples title => title = name ∧ vals = []
  | .samples title count rows _ => title = name ∧ vals ≠ [] ∧ count.toInt = vals.length ∧
    (rows.map (·.counter.toNat)).sum = vals.length ∧ ∀ r ∈ rows, 1 ≤ r.bar ∧ r.bar ≤ 30

theorem reports_print {vals : List UInt64} (hn : vals.length < 2 ^ 31) (name : String) :
    Printed.Reports name vals
      (((World.histOf vals).map fun h => h.print name).getD (.noSamples name)) := by
  by_cases hvals : vals = []
  · subst hvals
    exact ⟨rfl, rfl⟩
  · rw [World.histOf, if_neg hvals, Option.map_some, Option.getD_some]
    obtain ⟨count, rows, percentiles, hprint, hcount, hrows, hbars⟩ :=
      print_foldl_record hn hvals name
    rw [hprint]
    exact ⟨rfl, hvals, hcount, hrows, hbars⟩

theorem length_latencies_le (w : World) (name : String) :
    (w.latencies name).length ≤ w.samples.length := by
  rw [World.latencies, List.length_map]
  exact List.length_filter_le _ _

/-- Under distinct names each sample is a latency of one report. -/
theorem sum_latencies {reports : List ReportConfig} (hnames : (reports.map (·.name)).Nodup)
    {w : World} (hw : ∀ x ∈ w.samples, ∃ r ∈ reports, r.name = x.report) :
    (reports.map fun r => (w.latencies r.name).length).sum = w.samples.length := by
  have hlength : ∀ name, (w.latencies name).length = w.samples.countP (·.report = name) := by
    intro name
    rw [World.latencies, List.length_map, List.countP_eq_length_filter]
  have hmem : ∀ x ∈ w.samples, x.report ∈ (reports.map (·.name)).toFinset := by
    intro x hx
    obtain ⟨r, hr, hname⟩ := hw x hx
    exact List.mem_toFinset.mpr (List.mem_map.mpr ⟨r, hr, hname⟩)
  rw [← sum_countP hmem, List.sum_toFinset _ hnames, List.map_map]
  simp only [hlength]
  rfl

section Results

variable (cfg : Config) (order : IterationOrder) (csvOpen : Bool) (evs : List RawEvent)

theorem run_hists (name : String) : (run cfg order csvOpen evs).world.hists name =
    World.histOf ((run cfg order csvOpen evs).world.latencies name) :=
  (run_kept cfg order csvOpen evs).hists name

/-- No histogram is without a declared report. -/
theorem printResults_eq (names : List String) :
    printResults cfg names (run cfg order csvOpen evs).world =
      printReports cfg (run cfg order csvOpen evs).world := by
  unfold printResults
  split
  · rfl
  · next hnone =>
    rw [not_not] at hnone
    have hsamples : (run cfg order csvOpen evs).world.samples = [] := by
      refine List.eq_nil_iff_forall_not_mem.mpr fun x hx => ?_
      obtain ⟨-, r, hr, -⟩ := run_wellFormed cfg order csvOpen evs x hx
      rw [hnone] at hr
      exact List.not_mem_nil hr
    rw [printReports, hnone, List.map_nil, List.filterMap_eq_nil_iff]
    intro name _
    rw [run_hists, World.latencies, hsamples]
    rfl

/-- What is printed is the text of each declared report with the latencies that were recorded for
it, in the order of the declarations. Under distinct names all samples are in it. -/
theorem printResults_run (names : List String)
    (hn : (run cfg order csvOpen evs).world.samples.length < 2 ^ 31) :
    let w := (run cfg order csvOpen evs).world
    List.Forall₂ (fun r => Printed.Reports r.name (w.latencies r.name)) cfg.reports
      (printResults cfg names w) ∧
      ((cfg.reports.map (·.name)).Nodup →
        (cfg.reports.map fun r => (w.latencies r.name).length).sum = w.samples.length) := by
  intro w
  constructor
  · rw [printResults_eq, printReports, List.forall₂_map_right_iff, List.forall₂_same]
    intro r _
    rw [run_hists]
    exact reports_print ((length_latencies_le w r.name).trans_lt hn) r.name
  · intro hnames
    refine sum_latencies hnames fun x hx => ?_
    obtain ⟨-, r, hr, hname, -⟩ := run_wellFormed cfg order csvOpen evs x hx
    exact ⟨r, hr, hname⟩

end Results

/-- The group is recorded when it is complete and once more at the end. -/
theorem printResults_run_read :
    let cfg : Config := ⟨"nebulaX", "", [], [⟨"read_flow", [0, 1], "seq", 4096⟩],
      [⟨"read", 0, 1⟩, ⟨"write", 2, 3⟩]⟩
    let w := (run cfg default false [⟨10, 7, 0, 0⟩, ⟨19, 7, 1, 0⟩]).world
    (cfg.reports.map fun r => (w.latencies r.name).length).sum = 2 := by
  intro cfg w
  exact ((printResults_run cfg default false _ [] (by decide)).2 (by decide)).trans (by decide)

end LensX
