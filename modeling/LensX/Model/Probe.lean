import LensX.Model.Config
import LensX.Model.Matcher

/-! # Probes

The programs that `generate_bpf_source` writes, one for each probe, and the
attach loop of `main`, which decides for which processes they run.
-/

namespace LensX

/-- What a program reads when it runs; `ctx` evaluates an expression on its context. -/
structure Firing where
  pid : UInt32
  tid : UInt32
  ts : UInt64
  arg1 : UInt64
  arg2 : UInt64
  ctx : String → UInt64

namespace ProbeConfig

/-- The value assigned to `e.key`. -/
def keyOf (p : ProbeConfig) (x : Firing) : UInt64 :=
  if p.key = "arg1" then x.arg1
  else if p.key = "arg2" then x.arg2
  else if p.key.toList.take 5 = "ctx->".toList then x.ctx p.key
  else 0

/-- The event that the program of a probe submits. The stage is truncated to a byte. -/
def program (p : ProbeConfig) (x : Firing) : RawEvent := ⟨x.ts, x.tid, .ofInt p.stage, p.keyOf x⟩

end ProbeConfig

/-- The processes for which a program runs. -/
inductive Scope where
  | target
  | system
  deriving DecidableEq, Repr

/-- How the attach loop attaches a probe; other types are left without a link. -/
def ProbeConfig.scope (p : ProbeConfig) : Option Scope :=
  if p.type = "uprobe" then some .target
  else if p.type = "kprobe" ∨ p.type = "kretprobe" then some .system
  else if p.type = "tracepoint" then some .system
  else none

/-- A probe point that is reached by some thread. -/
structure Hit where
  probe : ProbeConfig
  firing : Firing

namespace Hit

def event (x : Hit) : RawEvent := x.probe.program x.firing

/-- The kernel runs the program of the probe, if it is attached. -/
def Fires (targetPid : UInt32) (x : Hit) : Prop :=
  x.probe.scope = some .system ∨ x.probe.scope = some .target ∧ x.firing.pid = targetPid

instance (targetPid : UInt32) (x : Hit) : Decidable (x.Fires targetPid) :=
  inferInstanceAs (Decidable (_ ∨ _))

@[simp] theorem event_tid (x : Hit) : x.event.tid = x.firing.tid := rfl

/-- The byte of an event is the stage of its probe modulo 256. -/
theorem stageNo_event (x : Hit) : x.event.stageNo = x.probe.stage % 256 := by
  have hbyte : x.event.stage.toNat = (x.probe.stage % 256).toNat := by
    simp only [event, ProbeConfig.program, UInt8.ofInt, UInt8.toNat_ofNat']
    omega
  rw [RawEvent.stageNo, hbyte]
  omega

theorem stageNo_event_eq_iff {x : Hit} :
    x.event.stageNo = x.probe.stage ↔ 0 ≤ x.probe.stage ∧ x.probe.stage < 256 := by
  rw [stageNo_event]
  omega

/-- The program runs: the probe is configured, it got a link and the kernel fires it. -/
def Delivered (cfg : Config) (targetPid : UInt32) (attached : ProbeConfig → Bool) (x : Hit) :
    Prop :=
  x.probe ∈ cfg.probes ∧ attached x.probe ∧ x.Fires targetPid

instance (cfg : Config) (targetPid : UInt32) (attached : ProbeConfig → Bool) (x : Hit) :
    Decidable (x.Delivered cfg targetPid attached) :=
  inferInstanceAs (Decidable (_ ∧ _))

end Hit

/-- The events of a history of hits; `attached` says which probes got a link. -/
def delivered (cfg : Config) (targetPid : UInt32) (attached : ProbeConfig → Bool)
    (hits : List Hit) : List RawEvent :=
  (hits.filter (·.Delivered cfg targetPid attached)).map Hit.event

end LensX
