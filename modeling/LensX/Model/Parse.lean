import LensX.Model.Config

/-! # Reading a configuration file

`parse_config` over the operations of yaml-cpp that it uses. What it returns is
what the document says; the checks at its end look at the probes only, and at no
stage number.
-/

namespace LensX

/-- The operations of yaml-cpp, whose exceptions are of type `ε`. -/
structure Yaml (ε Node : Type) where
  loadFile : String → Except ε Node
  get : Node → String → Except ε Node
  isDefined : Node → Bool
  elements : Node → List Node
  asString : Node → Except ε String
  asInt : Node → Except ε Int32

/-- The ways in which `parse_config` does not return. -/
inductive Stop (ε : Type) where
  | thrown (e : ε)
  | exit (message : String)
  deriving DecidableEq, Repr

namespace Yaml

variable {ε Node α : Type} (y : Yaml ε Node)

/-- Read a child if it is defined. -/
def readChild (node : Node) (key : String) (read : Node → Except ε α) (default : α) :
    Except ε α := do
  let child ← y.get node key
  if y.isDefined child then read child else .ok default

/-- Read every element of a child if it is defined. -/
def readAll (node : Node) (key : String) (read : Node → Except ε α) : Except ε (List α) :=
  y.readChild node key (fun child => (y.elements child).mapM read) []

def readProbe (node : Node) : Except ε ProbeConfig := do
  let name ← y.asString (← y.get node "name")
  let type ← y.asString (← y.get node "type")
  let stage ← y.asInt (← y.get node "stage")
  let symbol ← y.readChild node "symbol" y.asString ""
  let event ← y.readChild node "event" y.asString ""
  let key ← y.readChild node "key" y.asString ""
  return ⟨name, type, symbol, event, stage.toInt, key⟩

def readMatcher (node : Node) : Except ε MatcherConfig := do
  let id ← y.asString (← y.get node "id")
  let mode ← y.asString (← y.get node "mode")
  let stages ← (y.elements (← y.get node "stages")).mapM y.asInt
  let queueSize ← y.readChild node "queue_size" y.asInt 4096
  return ⟨id, stages.map (·.toInt), mode, queueSize⟩

def readReport (node : Node) : Except ε ReportConfig := do
  let name ← y.asString (← y.get node "name")
  let fromStage ← y.asInt (← y.get node "from")
  let toStage ← y.asInt (← y.get node "to")
  return ⟨name, fromStage.toInt, toStage.toInt⟩

def readConfig (path : String) : Except ε Config := do
  let root ← y.loadFile path
  let process ← y.readChild root "target" (fun t => y.readChild t "process" y.asString "") ""
  let csvPath ← y.readChild root "output" (fun t => y.readChild t "csv" y.asString "") ""
  let probes ← y.readAll root "probes" y.readProbe
  let matchers ← y.readAll root "matchers" y.readMatcher
  let reports ← y.readAll root "reports" y.readReport
  return ⟨process, csvPath, probes, matchers, reports⟩

end Yaml

/-- The message about a probe, if it is refused. -/
def ProbeConfig.error? (p : ProbeConfig) : Option String :=
  if p.type = "tracepoint" ∧ p.event = "" then
    some ("error: probe '" ++ p.name ++ "' needs 'event'\n")
  else if (p.type = "uprobe" ∨ p.type = "kprobe") ∧ p.symbol = "" then
    some ("error: probe '" ++ p.name ++ "' needs 'symbol'\n")
  else none

/-- The message with which `parse_config` exits. -/
def Config.error? (cfg : Config) : Option String :=
  if cfg.probes = [] then some "error: no probes defined\n" else cfg.probes.findSome? (·.error?)

def parseConfig {ε Node : Type} (y : Yaml ε Node) (path : String) : Except (Stop ε) Config :=
  match y.readConfig path with
  | .error e => .error (.thrown e)
  | .ok cfg =>
    match cfg.error? with
    | some message => .error (.exit message)
    | none => .ok cfg

/-- What `parse_config` checks. -/
structure Config.Checked (cfg : Config) : Prop where
  probes : cfg.probes ≠ []
  event : ∀ p ∈ cfg.probes, p.type = "tracepoint" → p.event ≠ ""
  symbol : ∀ p ∈ cfg.probes, p.type = "uprobe" ∨ p.type = "kprobe" → p.symbol ≠ ""

theorem ProbeConfig.error?_eq_none_iff {p : ProbeConfig} :
    p.error? = none ↔ (p.type = "tracepoint" → p.event ≠ "") ∧
      (p.type = "uprobe" ∨ p.type = "kprobe" → p.symbol ≠ "") := by
  unfold error?
  split
  · next h => simp [h]
  · next h =>
    split
    · next h' => simp [h']
    · next h' => simpa using ⟨by simpa using h, by simpa using h'⟩

theorem Config.error?_eq_none_iff {cfg : Config} : cfg.error? = none ↔ cfg.Checked := by
  unfold error?
  split
  · next h => exact ⟨fun hbad => absurd hbad (by simp), fun hc => absurd h hc.probes⟩
  · next h =>
    simp only [List.findSome?_eq_none_iff, ProbeConfig.error?_eq_none_iff]
    exact ⟨fun hall => ⟨h, fun p hp => (hall p hp).1, fun p hp => (hall p hp).2⟩,
      fun hc p hp => ⟨hc.event p hp, hc.symbol p hp⟩⟩

theorem parseConfig_eq_ok_iff {ε Node : Type} {y : Yaml ε Node} {path : String} {cfg : Config} :
    parseConfig y path = .ok cfg ↔ y.readConfig path = .ok cfg ∧ cfg.Checked := by
  rw [← Config.error?_eq_none_iff, parseConfig]
  cases hread : y.readConfig path with
  | error e => simp
  | ok c =>
    have hok : ∀ o : Option String, (match o with
        | some message => .error (.exit message)
        | none => .ok c : Except (Stop ε) Config) = .ok cfg ↔ c = cfg ∧ o = none := by
      intro o
      cases o <;> simp
    rw [hok, Except.ok.injEq]
    exact and_congr_right fun h => by rw [h]

end LensX
