import LensX.Model.Probe

/-! # The generated source

The text that `generate_bpf_source` writes: a preamble with the event record and the
ring buffer, and a program for each probe.
-/

namespace LensX

/-- The types of integers that the event record uses. -/
inductive CType where
  | u8
  | u32
  | u64
  deriving DecidableEq, Repr

/-- A member of a struct; an array has a length. -/
structure CField where
  type : CType
  name : String
  array : Option ℕ := none
  deriving DecidableEq, Repr

def CType.text : CType → String
  | .u8 => "__u8 "
  | .u32 => "__u32"
  | .u64 => "__u64"

def CField.text (f : CField) : String :=
  f.type.text ++ " " ++ f.name ++ (f.array.elim "" fun n => "[" ++ toString n ++ "]") ++ ";"

/-- The members of the generated `struct event`. -/
def eventFields : List CField :=
  [⟨.u64, "ts", none⟩, ⟨.u32, "tid", none⟩, ⟨.u8, "stage", none⟩, ⟨.u8, "pad", some 3⟩,
    ⟨.u64, "key", none⟩]

/-- The type of the context argument. -/
inductive CtxType where
  | untyped
  | traceEvent (event : String)
  | ptRegs
  deriving DecidableEq, Repr

def CtxType.text : CtxType → String
  | .untyped => "void"
  | .traceEvent event => "struct trace_event_raw_" ++ event
  | .ptRegs => "struct pt_regs"

/-- The right-hand side of the assignment to `e.key`. -/
inductive KeyExpr where
  | parm1
  | parm2
  | ctx (text : String)
  | zero
  deriving DecidableEq, Repr

namespace KeyExpr

def text : KeyExpr → String
  | .parm1 => "PT_REGS_PARM1(ctx)"
  | .parm2 => "PT_REGS_PARM2(ctx)"
  | .ctx text => text
  | .zero => "0"

def eval : KeyExpr → Firing → UInt64
  | .parm1, x => x.arg1
  | .parm2, x => x.arg2
  | .ctx text, x => x.ctx text
  | .zero, _ => 0

end KeyExpr

/-- A generated function. -/
structure BpfProgram where
  sec : String
  name : String
  ctx : CtxType
  stage : ℤ
  key : KeyExpr
  deriving DecidableEq, Repr

namespace BpfProgram

def text (pr : BpfProgram) : List String :=
  ["SEC(\"" ++ pr.sec ++ "\")",
    "int " ++ pr.name ++ "(" ++ pr.ctx.text ++ " *ctx) \x7b",
    "    struct event e = \x7b\x7d;",
    "    e.ts    = bpf_ktime_get_ns();",
    "    e.tid   = (__u32)bpf_get_current_pid_tgid();",
    "    e.stage = " ++ toString pr.stage ++ ";",
    "    e.key   = " ++ pr.key.text ++ ";",
    "    bpf_ringbuf_output(&rb, &e, sizeof(e), 0);",
    "    return 0;",
    "\x7d", ""]

/-- The line that assigns `e.key`. -/
def keyLine (text : String) : String := "    e.key   = " ++ text ++ ";"

theorem keyLine_mem_text_iff {pr : BpfProgram} {text : String} :
    keyLine text ∈ pr.text ↔ pr.key.text = text := by
  constructor
  · intro h
    have hstart : ∀ (s : String) (n : ℕ), s.toList.take n ≠ (keyLine text).toList.take n →
        keyLine text ≠ s := by
      rintro s n hne rfl
      exact hne rfl
    simp only [BpfProgram.text, List.mem_cons, List.not_mem_nil, or_false] at h
    rcases h with h | h | h | h | h | h | h | h | h | h | h
    · exact absurd h (hstart _ 1 (by simp [keyLine]))
    · exact absurd h (hstart _ 1 (by simp [keyLine]))
    · exact absurd h (hstart _ 5 (by simp [keyLine]))
    -- the assignments to the other members
    · exact absurd h (hstart _ 7 (by simp [keyLine]))
    · exact absurd h (hstart _ 7 (by simp [keyLine]))
    · exact absurd h (hstart _ 7 (by simp [keyLine]))
    · have hlist := congrArg String.toList h
      exact String.toList_inj.mp (by simpa [keyLine] using hlist.symm)
    · exact absurd h (hstart _ 5 (by simp [keyLine]))
    · exact absurd h (hstart _ 5 (by simp [keyLine]))
    · exact absurd h (hstart _ 1 (by simp [keyLine]))
    · exact absurd h (hstart _ 1 (by simp [keyLine]))
  · rintro rfl
    simp [BpfProgram.text, keyLine]

/-- The event that the function submits when it runs. -/
def submit (pr : BpfProgram) (x : Firing) : RawEvent :=
  ⟨x.ts, x.tid, .ofInt pr.stage, pr.key.eval x⟩

end BpfProgram

/-- The text after the last slash, as `rfind` and `substr` cut it. -/
def afterLastSlash (s : String) : String :=
  .ofList (s.toList.reverse.takeWhile (· ≠ '/')).reverse

namespace ProbeConfig

/-- `p.key.substr(0, 5) == "ctx->"`. -/
abbrev KeyFromCtx (p : ProbeConfig) : Prop := p.key.toList.take 5 = "ctx->".toList

def keyExpr (p : ProbeConfig) : KeyExpr :=
  if p.key = "arg1" then .parm1
  else if p.key = "arg2" then .parm2
  else if p.KeyFromCtx then .ctx p.key
  else .zero

/-- The function that is generated for a probe. -/
def bpfProgram (p : ProbeConfig) : BpfProgram :=
  if p.type = "tracepoint" then
    ⟨"tracepoint/" ++ p.event, "tp_" ++ p.name,
      if p.KeyFromCtx then .traceEvent (afterLastSlash p.event) else .untyped, p.stage, p.keyExpr⟩
  else if p.type = "kprobe" ∨ p.type = "kretprobe" then
    ⟨p.type ++ "/" ++ p.symbol, "kp_" ++ p.name, .ptRegs, p.stage, p.keyExpr⟩
  else ⟨"uprobe", "up_" ++ p.name, .ptRegs, p.stage, p.keyExpr⟩

@[simp] theorem bpfProgram_stage (p : ProbeConfig) : p.bpfProgram.stage = p.stage := by
  unfold bpfProgram
  split_ifs <;> rfl

@[simp] theorem bpfProgram_key (p : ProbeConfig) : p.bpfProgram.key = p.keyExpr := by
  unfold bpfProgram
  split_ifs <;> rfl

theorem keyExpr_eval (p : ProbeConfig) (x : Firing) : p.keyExpr.eval x = p.keyOf x := by
  unfold keyExpr keyOf
  split_ifs <;> rfl

/-- The generated function does what the model of the probe says. -/
theorem submit_bpfProgram (p : ProbeConfig) (x : Firing) : p.bpfProgram.submit x = p.program x := by
  rw [BpfProgram.submit, bpfProgram_stage, bpfProgram_key, keyExpr_eval, program]

end ProbeConfig

/-- The functions of the generated source in the order of the probes. -/
def bpfPrograms (cfg : Config) : List BpfProgram := cfg.probes.map (·.bpfProgram)

/-- `need_tracing_h`. -/
def needTracingH (cfg : Config) : Bool := cfg.probes.any fun p => p.key = "arg1" || p.key = "arg2"

def preamble (cfg : Config) : List String :=
  ["// Auto-generated by LensX V2 — do not edit", "#include \"vmlinux.h\"",
    "#include <bpf_helpers.h>"] ++
  (if needTracingH cfg then ["#include <bpf_tracing.h>"] else []) ++
  ["", "struct event \x7b"] ++ eventFields.map (fun f => "    " ++ f.text) ++ ["\x7d;", "",
    "struct \x7b", "    __uint(type, BPF_MAP_TYPE_RINGBUF);", "    __uint(max_entries, 1 << 20);",
    "\x7d rb SEC(\".maps\");", "", "char _license[] SEC(\"license\") = \"GPL\";", ""]

/-- The lines of the generated file. -/
def generateBpfSource (cfg : Config) : List String :=
  preamble cfg ++ (bpfPrograms cfg).flatMap (·.text)

/-- The header of the argument macros is included if and only if some function uses them. -/
theorem needTracingH_iff {cfg : Config} :
    needTracingH cfg = true ↔ ∃ pr ∈ bpfPrograms cfg, pr.key = .parm1 ∨ pr.key = .parm2 := by
  have hkey : ∀ p : ProbeConfig, p.key = "arg1" ∨ p.key = "arg2" ↔
      p.bpfProgram.key = .parm1 ∨ p.bpfProgram.key = .parm2 := by
    intro p
    rw [ProbeConfig.bpfProgram_key, ProbeConfig.keyExpr]
    split_ifs with h₁ h₂ <;> simp_all
  simp [needTracingH, bpfPrograms, hkey]

end LensX
