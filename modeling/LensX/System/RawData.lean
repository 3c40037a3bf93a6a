import LensX.General.Lines
import LensX.Hist.Printed
import LensX.Model.RawData
import LensX.System.Queues

/-! # The raw data and the reports

Everything that a run does to the shared state is to record a sample of a configured
report, to note an undefined operation or to change a queue. The raw data file
therefore determines the printed reports.
-/

namespace LensX

open Pairs Transducer Lines

/-- What happens to the shared state in a run. -/
inductive World.Move (reports : List ReportConfig) : World → World → Prop where
  | record (w : World) (route : Route) {r : ReportConfig} (hr : r ∈ reports) (x y : UInt64)
    (tid : UInt32) :
    Move reports w (w.record route r.name ⟨r.fromStage, r.toStage, y - x, x, y, tid⟩)
  | fault (w : World) (name : String) (u : Undefined) : Move reports w (w.fault name u)
  | queue (w : World) (name : String) (q : FifoQueue) :
    Move reports w { w with fifos := Function.update w.fifos name (some q) }

section Moves

variable {reports : List ReportConfig}

/-- Any number of moves. -/
abbrev World.Moves (reports : List ReportConfig) : World → World → Prop :=
  Relation.ReflTransGen (World.Move reports)

theorem moves_foldl {β : Type*} {f : World → β → World} {l : List β}
    (h : ∀ b ∈ l, ∀ w, World.Moves reports w (f w b)) (w : World) :
    World.Moves reports w (l.foldl f w) := by
  induction l generalizing w with
  | nil => exact .refl
  | cons b l ih =>
    exact (h b List.mem_cons_self w).trans (ih (fun c hc => h c (List.mem_cons_of_mem _ hc)) _)

theorem moves_recordBetween (w : World) (route : Route) {r : ReportConfig} (hr : r ∈ reports)
    (tsA tsB : Option UInt64) (tid : UInt32) :
    World.Moves reports w
      (w.recordBetween route r.name r.fromStage r.toStage tsA tsB tid) := by
  unfold World.recordBetween
  split
  · exact .single (.record w route hr _ _ tid)
  · exact .single (.fault w _ _)

theorem moves_recordPairs (s : StageSnapshot) (w : World) :
    World.Moves reports w (recordPairs (reportKeys reports) s w) := by
  refine moves_foldl (fun p _ w => ?_) w
  dsimp only
  split
  · next name hk =>
    obtain ⟨r, hr, rfl, hp⟩ := exists_of_reportKeys hk
    obtain ⟨hi, hj⟩ := Prod.mk.injEq .. ▸ hp
    rw [← hi, ← hj]
    exact moves_recordBetween w .seq hr _ _ _
  · exact .refl

theorem moves_pushCb (r : ReportConfig) (s : StageSnapshot) (w : World) :
    World.Moves reports w (pushCb r s w) := by
  unfold pushCb
  split
  · split
    · split
      · exact .single (.queue w _ _)
      · exact .single (.fault w _ _)
    · exact .single (.fault w _ _)
    · exact .refl
  · exact .refl

theorem moves_popCb {r : ReportConfig} (hr : r ∈ reports) (s : StageSnapshot) (w : World) :
    World.Moves reports w (popCb r s w) := by
  unfold popCb
  split
  · split
    · split
      · exact (Relation.ReflTransGen.single (.queue w _ _)).trans
          (moves_recordBetween _ .fifo hr _ _ _)
      · exact .refl
      · exact .single (.fault w _ _)
    · exact .refl
  · exact .refl

theorem moves_recordDelta {d : Delta} (hd : d.valNs = d.tsTo - d.tsFrom) (w : World) :
    World.Moves reports w (Tracer.recordDelta (reportKeys reports) w d) := by
  unfold Tracer.recordDelta
  split
  · next name hk =>
    obtain ⟨r, hr, rfl, hp⟩ := exists_of_reportKeys hk
    obtain ⟨hi, hj⟩ := Prod.mk.injEq .. ▸ hp
    rw [← hi, ← hj, hd]
    exact .single (.record w .drain hr _ _ _)
  · exact .refl

/-- A drained latency is the difference of its timestamps. -/
theorem valNs_of_mem_pendingAfter {p : Part} {evs : List RawEvent} {d : Delta}
    (h : d ∈ p.pendingAfter evs) : d.valNs = d.tsTo - d.tsFrom := by
  have hpair : ∀ {stages : List ℤ} {l : List (RawEvent × Record)},
      d ∈ l.flatMap (fun o => pairDeltas stages o.2) → d.valNs = d.tsTo - d.tsFrom := by
    intro stages l hd
    obtain ⟨o, _, hd⟩ := List.mem_flatMap.mp hd
    obtain ⟨q, _, rfl⟩ := List.mem_map.mp hd
    rfl
  cases p with
  | seq id stages hooks => exact hpair h
  | key id stages =>
    rw [Part.pendingAfter, KeyMatcher.feedAll_new] at h
    exact hpair h

variable (cfg : Config) (order : IterationOrder) (csvOpen : Bool) (evs : List RawEvent)

theorem moves_run : World.Moves cfg.reports (Tracer.init cfg order csvOpen).world
    (run cfg order csvOpen evs).world := by
  rw [run_world]
  refine (moves_foldl (fun c hc w => ?_) _).trans (moves_foldl (fun d hd w => ?_) _)
  · obtain ⟨hook, s⟩ := c
    cases hook with
    | pairs => exact moves_recordPairs s w
    | push r => exact moves_pushCb r s w
    | pop r => exact moves_popCb (report_of_mem_calls hc rfl).1 s w
  · obtain ⟨p, _, hd⟩ := List.mem_flatMap.mp hd
    exact moves_recordDelta (valNs_of_mem_pendingAfter hd) w

/-- What is true of the shared state at first and survives every move is true at the end. -/
theorem run_induction {P : World → Prop} (h : P (Tracer.init cfg order csvOpen).world)
    (hmove : ∀ w w', P w → World.Move cfg.reports w w' → P w') :
    P (run cfg order csvOpen evs).world := by
  have hmoves := moves_run cfg order csvOpen evs
  generalize (run cfg order csvOpen evs).world = w at hmoves ⊢
  induction hmoves with
  | refl => exact h
  | tail _ hstep ih => exact hmove _ _ ih hstep

end Moves

section Rows

/-- The row is of a configured report and its latency is the difference of its timestamps. -/
def Sample.WellFormed (reports : List ReportConfig) (x : Sample) : Prop :=
  x.row.valNs = x.row.tsTo - x.row.tsFrom ∧
    ∃ r ∈ reports, r.name = x.report ∧ (r.fromStage, r.toStage) = (x.row.fromStage, x.row.toStage)

variable (cfg : Config) (order : IterationOrder) (csvOpen : Bool) (evs : List RawEvent)

theorem run_wellFormed :
    ∀ x ∈ (run cfg order csvOpen evs).world.samples, x.WellFormed cfg.reports := by
  refine run_induction (P := fun w => ∀ x ∈ w.samples, x.WellFormed cfg.reports) cfg order csvOpen
    evs (by simp [Tracer.init]) fun w w' h hmove => ?_
  cases hmove with
  | record route hr x y tid =>
    intro a ha
    rcases List.mem_append.mp ha with ha | ha
    · exact h a ha
    · obtain rfl := List.mem_singleton.mp ha
      exact ⟨rfl, _, hr, rfl, rfl⟩
  | fault name u => exact h
  | queue name q => exact h

/-- The histograms and the rows are those of the samples, whatever the stages of the matchers
are. -/
theorem run_kept :
    (run cfg order csvOpen evs).world.Consistent (cfg.csvPath ≠ "" ∧ csvOpen) := by
  refine run_induction cfg order csvOpen evs ⟨fun name => rfl, by simp [Tracer.init]⟩
    fun w w' h hmove => ?_
  cases hmove with
  | record route hr x y tid => exact h.add ⟨route, _, _⟩
  | fault name u => exact h.congr rfl rfl rfl
  | queue name q => exact h.congr rfl rfl rfl

end Rows

section Text

/-- The six numbers of a line. -/
def CsvRow.fields (r : CsvRow) : List (List Char) :=
  [(toString r.fromStage).toList, (toString r.toStage).toList, (toString r.valNs.toNat).toList,
    (toString r.tsFrom.toNat).toList, (toString r.tsTo.toNat).toList, (toString r.tid.toNat).toList]

theorem CsvRow.toList_line (r : CsvRow) :
    r.line.toList = [','].intercalate r.fields ++ ['\n'] := by
  simp only [CsvRow.line, CsvRow.fields, String.toList_append, List.intercalate_cons_cons,
    List.intercalate_singleton, List.append_assoc]
  rfl

theorem CsvRow.char_of_mem_fields {r : CsvRow} {l : List Char} (hl : l ∈ r.fields) {c : Char}
    (hc : c ∈ l) : c = '-' ∨ c.isDigit = true := by
  simp only [fields, List.mem_cons, List.not_mem_nil, or_false] at hl
  rcases hl with rfl | rfl | rfl | rfl | rfl | rfl
  · exact mem_toString_int hc
  · exact mem_toString_int hc
  all_goals exact .inr (isDigit_of_mem_nat hc)

theorem CsvRow.comma_notMem (r : CsvRow) : ∀ l ∈ r.fields, ',' ∉ l := by
  intro l hl hc
  rcases char_of_mem_fields hl hc with h | h <;> exact absurd h (by decide)

theorem CsvRow.newline_notMem (r : CsvRow) : '\n' ∉ [','].intercalate r.fields := by
  intro h
  rcases eq_or_mem_of_mem_intercalate h with h | ⟨l, hl, h⟩
  · exact absurd h (by decide)
  · rcases char_of_mem_fields hl h with h | h <;> exact absurd h (by decide)

theorem CsvRow.fields_injective {r r' : CsvRow} (h : r.fields = r'.fields) : r = r' := by
  simp only [fields, List.cons.injEq, and_true] at h
  obtain ⟨h₁, h₂, h₃, h₄, h₅, h₆⟩ := h
  obtain ⟨a, b, v, x, y, t⟩ := r
  obtain ⟨a', b', v', x', y', t'⟩ := r'
  obtain rfl : a = a' := toString_int_inj h₁
  obtain rfl : b = b' := toString_int_inj h₂
  obtain rfl : v = v' := UInt64.toNat_inj.mp (toString_nat_inj h₃)
  obtain rfl : x = x' := UInt64.toNat_inj.mp (toString_nat_inj h₄)
  obtain rfl : y = y' := UInt64.toNat_inj.mp (toString_nat_inj h₅)
  obtain rfl : t = t' := UInt32.toNat_inj.mp (toString_nat_inj h₆)
  rfl

theorem toList_csvText (rows : List CsvRow) : (csvText rows).toList =
    csvHeader.toList ++ unlines '\n' (rows.map fun r => [','].intercalate r.fields) := by
  induction rows using List.reverseRecOn with
  | nil => simp [csvText, unlines]
  | append_singleton rows r ih =>
    rw [csvText, List.foldl_append, List.foldl_cons, List.foldl_nil, ← csvText,
      String.toList_append, ih, r.toList_line]
    simp [unlines]

/-- The text of the file determines its rows. -/
theorem rows_of_csvText {rows rows' : List CsvRow} (h : csvText rows = csvText rows') :
    rows = rows' := by
  have htext := congrArg String.toList h
  rw [toList_csvText, toList_csvText] at htext
  have hno : ∀ rows : List CsvRow,
      ∀ l ∈ rows.map (fun r => [','].intercalate r.fields), '\n' ∉ l := by
    intro rows l hl
    obtain ⟨r, _, rfl⟩ := List.mem_map.mp hl
    exact r.newline_notMem
  have hlines := unlines_injective (hno rows) (hno rows') (List.append_cancel_left htext)
  refine List.map_injective_iff.mpr (fun r r' heq => CsvRow.fields_injective ?_) hlines
  exact intercalate_injective r.comma_notMem r'.comma_notMem (List.cons_ne_nil _ _)
    (List.cons_ne_nil _ _) heq

end Text

/-- When no two reports share their stages, the text of the raw data file determines the reports
that are printed. -/
theorem reports_of_csvText {cfg : Config} (hpath : cfg.csvPath ≠ "")
    (hpairs : (cfg.reports.map fun r => (r.fromStage, r.toStage)).Nodup)
    (order order' : IterationOrder) (evs evs' : List RawEvent)
    (h : (run cfg order true evs).world.csv.map csvText =
      (run cfg order' true evs').world.csv.map csvText) :
    printReports cfg (run cfg order true evs).world =
      printReports cfg (run cfg order' true evs').world := by
  -- the latencies of a report are those of the rows with its stages
  have hlat : ∀ (order : IterationOrder) (evs : List RawEvent) (r : ReportConfig), r ∈ cfg.reports →
      (run cfg order true evs).world.hists r.name = World.histOf
        ((((run cfg order true evs).world.samples.map (·.row)).filter
          fun row => reportKeys cfg.reports (row.fromStage, row.toStage) = some r.name).map
            (·.valNs)) := by
    intro order evs r hr
    rw [(run_kept cfg order true evs).hists, List.filter_map, List.map_map]
    congr 2
    refine List.filter_congr fun x hx => ?_
    obtain ⟨-, r', hr', hname, hstages⟩ := run_wellFormed cfg order true evs x hx
    simp only [Function.comp_apply, ← hstages, reportKeys_of_mem hpairs hr', hname,
      Option.some.injEq]
  have hcsv : ∀ (order : IterationOrder) (evs : List RawEvent),
      (run cfg order true evs).world.csv =
        some ((run cfg order true evs).world.samples.map (·.row)) := by
    intro order evs
    rw [(run_kept cfg order true evs).csv]
    simp [hpath]
  rw [hcsv, hcsv, Option.map_some, Option.map_some, Option.some.injEq] at h
  refine List.map_congr_left fun r hr => ?_
  rw [hlat order evs r hr, hlat order' evs' r hr, rows_of_csvText h]

/-- A group that is never completed is not in the file. -/
theorem reports_of_csvText_read :
    let cfg : Config := ⟨"nebulaX", "read.csv", [], [⟨"read_flow", [0, 1], "seq", 4096⟩],
      [⟨"read", 0, 1⟩]⟩
    let evs : List RawEvent := [⟨10, 7, 0, 0⟩, ⟨19, 7, 1, 0⟩]
    printReports cfg (run cfg default true evs).world =
      printReports cfg (run cfg default true (evs ++ [⟨25, 7, 0, 0⟩])).world := by
  intro cfg evs
  have hcsv : (run cfg default true evs).world.csv =
      (run cfg default true (evs ++ [⟨25, 7, 0, 0⟩])).world.csv := by decide
  exact reports_of_csvText (by decide) (by decide) _ _ _ _ (congrArg _ hcsv)

end LensX
