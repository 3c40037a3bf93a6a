import LensX.Model.Tracer

/-! # The raw data file

The text that `main` and `Hist::record` write into `csv_path`.
-/

namespace LensX

/-- The line of a sample. -/
def CsvRow.line (r : CsvRow) : String :=
  toString r.fromStage ++ "," ++ toString r.toStage ++ "," ++ toString r.valNs.toNat ++ "," ++
    toString r.tsFrom.toNat ++ "," ++ toString r.tsTo.toNat ++ "," ++ toString r.tid.toNat ++ "\n"

def csvHeader : String := "from_stage,to_stage,delta_ns,ts_from,ts_to,tid\n"

/-- The file after some samples. -/
def csvText (rows : List CsvRow) : String := rows.foldl (fun text r => text ++ r.line) csvHeader

end LensX
