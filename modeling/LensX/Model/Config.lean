import Mathlib.Data.Int.Notation

/-! # Configurations

The records of `config.h`, as `parse_config` fills them.
-/

namespace LensX

structure ProbeConfig where
  name : String
  type : String
  symbol : String
  event : String
  stage : ℤ
  key : String
  deriving DecidableEq, Repr

structure MatcherConfig where
  id : String
  stages : List ℤ
  mode : String
  queueSize : Int32 := 4096
  deriving DecidableEq, Repr

/-- A report; its stages are called `from` and `to` in a configuration file. -/
structure ReportConfig where
  name : String
  fromStage : ℤ
  toStage : ℤ
  deriving DecidableEq, Repr

structure Config where
  process : String
  csvPath : String
  probes : List ProbeConfig
  matchers : List MatcherConfig
  reports : List ReportConfig
  deriving DecidableEq, Repr

end LensX
