import Mathlib.Data.Rat.Floor
import LensX.Model.Tracer

/-! # Printed reports

What `Hist::print` and the end of `main` print. The double arithmetic of the
percentiles is that of the rationals, and the percentage column is left out.
-/

namespace LensX

/-- Both `fmt` and `f`. -/
def fmt (ns : UInt64) : String :=
  if ns ≥ 1000000000 then toString (ns / 1000000000) ++ "s"
  else if ns ≥ 1000000 then toString (ns / 1000000) ++ "ms"
  else if ns ≥ 1000 then toString (ns / 1000) ++ "us"
  else toString ns ++ "ns"

/-- `1ULL << i`. -/
def shl (i : ℕ) : UInt64 := 1 <<< UInt64.ofNat i

/-- A printed row; its label names the two ends of an interval. -/
structure HistRow where
  lo : UInt64
  hi : UInt64
  label : String × String
  bar : Int32
  counter : UInt64
  deriving DecidableEq, Repr

namespace Hist

/-- `max_b`. -/
def maxBucket (h : Hist) : UInt64 :=
  (List.range bucketCount).foldl (fun m i => if h.buckets i > m then h.buckets i else m) 0

/-- The length of a bar, of which `bw` is the largest. -/
def bar (h : Hist) (i : ℕ) : Int32 :=
  let bw := 30
  let bar := (bw * h.buckets i / h.maxBucket).toUInt32.toInt32
  if bar < 1 then 1 else bar

def row (h : Hist) (i : ℕ) : HistRow :=
  let lo := shl i
  let hi := shl (i + 1) - 1
  ⟨lo, hi, (fmt lo, if hi > lo then fmt hi else fmt lo), h.bar i, h.buckets i⟩

@[simp] theorem row_counter (h : Hist) (i : ℕ) : (h.row i).counter = h.buckets i := rfl

/-- The rows of the buckets that are not empty. -/
def rows (h : Hist) : List HistRow :=
  (List.range bucketCount).filterMap fun i => if h.buckets i = 0 then none else some (h.row i)

/-- The target rank, truncated. -/
def target (h : Hist) (p : ℚ) : UInt64 := .ofNat ⌊h.count.toInt * p / 100⌋₊

/-- The index at which the loop of `pct` returns. -/
def scan (h : Hist) (target : UInt64) : List ℕ → UInt64 → Option ℕ
  | [], _ => none
  | i :: is, cum =>
    let cum := cum + h.buckets i
    if cum ≥ target then some i else h.scan target is cum

def pctBucket (h : Hist) (p : ℚ) : Option ℕ := h.scan (h.target p) (List.range bucketCount) 0

def midpoint (i : ℕ) : UInt64 := (shl i + shl (i + 1)) / 2

def pct (h : Hist) (p : ℚ) : UInt64 := (h.pctBucket p).elim 0 midpoint

end Hist

/-- The text of a report. -/
inductive Printed where
  | noSamples (title : String)
  | samples (title : String) (count : Int32) (rows : List HistRow) (percentiles : List String)
  deriving DecidableEq, Repr

def Hist.print (h : Hist) (title : String) : Printed :=
  if h.count = 0 then .noSamples title
  else .samples title h.count h.rows ([50, 90, 99, 999 / 10].map fun p => fmt (h.pct p))

/-- The reports of a configuration that declares some, after the final drain. -/
def printReports (cfg : Config) (w : World) : List Printed :=
  cfg.reports.map fun r => ((w.hists r.name).map (·.print r.name)).getD (.noSamples r.name)

/-- All that is printed below the heading. Without a declared report it is every histogram there is,
in the order of iteration of the map. -/
def printResults (cfg : Config) (names : List String) (w : World) : List Printed :=
  if cfg.reports ≠ [] then printReports cfg w
  else names.filterMap fun name => (w.hists name).map (·.print name)

end LensX
