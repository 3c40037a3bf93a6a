import LensX.Model.Generator

/-! # The attach loop

For each probe `main` looks a program up by a name of its own making and attaches it
by the type of the probe. Whether the kernel returns a link is a parameter.
-/

namespace LensX

/-- A call of one of the attach functions of libbpf. -/
inductive AttachCall where
  | uprobe (symbol : String)
  | kprobe (retprobe : Bool) (symbol : String)
  | tracepoint (category name : String)
  deriving DecidableEq, Repr

/-- The text before the first slash and the text after it; without a slash, twice the whole. -/
def splitEvent (event : String) : String × String :=
  (.ofList (event.toList.takeWhile (· ≠ '/')),
    match event.toList.dropWhile (· ≠ '/') with
    | [] => event
    | _ :: name => .ofList name)

namespace ProbeConfig

/-- `prog_name`. -/
def progName (p : ProbeConfig) : String :=
  (if p.type = "tracepoint" then "tp_"
    else if p.type = "kprobe" ∨ p.type = "kretprobe" then "kp_" else "up_") ++ p.name

/-- The call for a probe; other types are left without a link. -/
def attachCall (p : ProbeConfig) : Option AttachCall :=
  if p.type = "uprobe" then some (.uprobe p.symbol)
  else if p.type = "kprobe" ∨ p.type = "kretprobe" then
    some (.kprobe (p.type = "kretprobe") p.symbol)
  else if p.type = "tracepoint" then
    some (.tracepoint (splitEvent p.event).1 (splitEvent p.event).2)
  else none

end ProbeConfig

/-- `bpf_object__find_program_by_name`. -/
def findProgramByName (obj : List BpfProgram) (name : String) : Option BpfProgram :=
  obj.find? (·.name = name)

structure Link where
  program : BpfProgram
  call : AttachCall
  deriving DecidableEq, Repr

/-- A link or the message that is printed instead. -/
def attachProbe (obj : List BpfProgram) (attach : BpfProgram → AttachCall → Bool)
    (p : ProbeConfig) : Except String Link :=
  match findProgramByName obj p.progName, p.attachCall with
  | none, _ => .error ("  " ++ p.name ++ ": program not found in BPF object\n")
  | some prog, some call =>
    if attach prog call then .ok ⟨prog, call⟩ else .error ("  " ++ p.name ++ ": attach failed\n")
  | some _, none => .error ("  " ++ p.name ++ ": attach failed\n")

/-- What the loop does for each probe. -/
def attachLoop (cfg : Config) (obj : List BpfProgram) (attach : BpfProgram → AttachCall → Bool) :
    List (Except String Link) :=
  cfg.probes.map (attachProbe obj attach)

/-- A uprobe is attached to the target process, the other mechanisms have no process. -/
def AttachCall.scope : AttachCall → Scope
  | .uprobe _ => .target
  | .kprobe _ _ => .system
  | .tracepoint _ _ => .system

theorem ProbeConfig.scope_eq (p : ProbeConfig) : p.scope = p.attachCall.map AttachCall.scope := by
  unfold scope attachCall
  split_ifs <;> rfl

end LensX
