import LensX.Model.Generator
import LensX.System.Calls
import LensX.System.Documents

/-! # Where keys come from

A program reads its key from the place that the configuration declares, and submits
zero if none is declared. If all probes that feed a key matcher declare one, its
records and groups are those of single requests.
-/

namespace LensX

open Bitmask Pairs Transducer

namespace ProbeConfig

/-- The configuration declares a place that the generator knows. -/
def Keyed (p : ProbeConfig) : Prop := p.key = "arg1" ∨ p.key = "arg2" ∨ p.KeyFromCtx

instance (p : ProbeConfig) : Decidable p.Keyed := inferInstanceAs (Decidable (_ ∨ _))

/-- The request that a firing belongs to, read at the declared place. -/
def requestId (p : ProbeConfig) (x : Firing) : Option UInt64 :=
  if p.key = "arg1" then some x.arg1
  else if p.key = "arg2" then some x.arg2
  else if p.KeyFromCtx then some (x.ctx p.key)
  else none

/-- The matcher takes in the events of the probe. -/
def Feeds (p : ProbeConfig) (stages : List ℤ) : Prop := ofList stages &&& bit (p.stage % 256) ≠ 0

instance (p : ProbeConfig) (stages : List ℤ) : Decidable (p.Feeds stages) :=
  inferInstanceAs (Decidable (_ ≠ _))

theorem keyExpr_ne_zero_iff {p : ProbeConfig} : p.keyExpr ≠ .zero ↔ p.Keyed := by
  unfold keyExpr Keyed
  split_ifs with h₁ h₂ h₃
  · simp [h₁]
  · simp [h₂]
  · exact iff_of_true (by simp) (Or.inr (Or.inr h₃))
  · exact iff_of_false (by simp) (by simp only [h₁, h₂, h₃, or_self, not_false_eq_true])

/-- The generated text assigns the constant if and only if no place is declared. -/
theorem zeroLine_mem_text_iff {p : ProbeConfig} :
    BpfProgram.keyLine "0" ∈ p.bpfProgram.text ↔ ¬ p.Keyed := by
  rw [BpfProgram.keyLine_mem_text_iff, bpfProgram_key, ← keyExpr_ne_zero_iff, not_not, keyExpr]
  split_ifs with h₁ h₂ h₃
  · simp [KeyExpr.text]
  · simp [KeyExpr.text]
  · refine iff_of_false (fun h => ?_) (by simp)
    have hkey : p.key = "0" := h
    rw [KeyFromCtx, hkey] at h₃
    revert h₃
    decide
  · simp [KeyExpr.text]

theorem eval_keyExpr {p : ProbeConfig} (h : p.Keyed) (x : Firing) :
    p.requestId x = some (p.keyExpr.eval x) := by
  unfold requestId keyExpr
  split_ifs with h₁ h₂ h₃
  · rfl
  · rfl
  · rfl
  · exact absurd h (by simp [Keyed, h₁, h₂, h₃])

theorem requestId_eq_none {p : ProbeConfig} (h : ¬ p.Keyed) (x : Firing) :
    p.requestId x = none := by
  simp only [Keyed, not_or] at h
  simp [requestId, h]

end ProbeConfig

namespace Hit

theorem passes_event {stages : List ℤ} {x : Hit} :
    passes stages x.event = true ↔ x.probe.Feeds stages := by
  rw [passes, stageNo_event, decide_eq_true_eq, ProbeConfig.Feeds]

/-- The key of an event is the request of its hit. -/
theorem requestId_eq_iff {x : Hit} (h : x.probe.Keyed) (k : UInt64) :
    x.probe.requestId x.firing = some k ↔ x.event.key = k := by
  rw [ProbeConfig.eval_keyExpr h, ProbeConfig.keyExpr_eval, Option.some.injEq]
  rfl

end Hit

/-- The events of the hits that belong to a request. -/
def requestEvents (cfg : Config) (targetPid : UInt32) (attached : ProbeConfig → Bool)
    (hits : List Hit) (k : UInt64) : List RawEvent :=
  delivered cfg targetPid attached (hits.filter fun x => x.probe.requestId x.firing = some k)

/-- Under every key the matcher holds and has completed what the events of that request alone
would make it hold and complete. -/
structure Separated (m : KeyMatcher) (evs : List RawEvent) (request : UInt64 → List RawEvent) :
    Prop where
  records : ∀ k, m.records k = ((KeyMatcher.new m.id m.stages).feedAll (request k)).records k
  groups : ∀ k, ((KeyMatcher.new m.id m.stages).completed evs).filter (·.1.key = k) =
    (KeyMatcher.new m.id m.stages).completed (request k)
  pending : m.pending =
    ((KeyMatcher.new m.id m.stages).completed evs).flatMap fun o => pairDeltas m.stages o.2

section Request

variable {cfg : Config} {targetPid : UInt32} {attached : ProbeConfig → Bool} {hits : List Hit}
  {stages : List ℤ}

/-- The taken events with a key are those of the request. -/
theorem filter_requestEvents (h : ∀ p ∈ cfg.probes, p.Feeds stages → p.Keyed) (k : UInt64) :
    ((delivered cfg targetPid attached hits).filter (·.key = k)).filter (passes stages) =
      (requestEvents cfg targetPid attached hits k).filter (passes stages) := by
  simp only [delivered, requestEvents, List.filter_map, List.filter_filter]
  congr 1
  apply List.filter_congr
  intro x _
  by_cases hd : x.Delivered cfg targetPid attached
  · cases hp : passes stages x.event with
    | false => simp [Function.comp_apply, hp]
    | true =>
      have hkeyed := h _ hd.1 (Hit.passes_event.mp hp)
      simp [Function.comp_apply, hp, hd, Hit.requestId_eq_iff hkeyed]
  · simp [hd]

theorem key_of_mem_requestEvents {k : UInt64} {e : RawEvent}
    (he : e ∈ requestEvents cfg targetPid attached hits k) : e.key = k := by
  obtain ⟨x, hx, rfl⟩ := List.mem_map.mp he
  obtain ⟨hx, -⟩ := List.mem_filter.mp hx
  have hid : x.probe.requestId x.firing = some k := of_decide_eq_true (List.mem_filter.mp hx).2
  by_cases hkeyed : x.probe.Keyed
  · exact (Hit.requestId_eq_iff hkeyed k).mp hid
  · rw [ProbeConfig.requestId_eq_none hkeyed] at hid
    cases hid

/-- A key matcher that is fed by probes with keys separates the requests. -/
theorem separated_of_keyed (id : String) (h : ∀ p ∈ cfg.probes, p.Feeds stages → p.Keyed) :
    Separated ((KeyMatcher.new id stages).feedAll (delivered cfg targetPid attached hits))
      (delivered cfg targetPid attached hits) (requestEvents cfg targetPid attached hits) := by
  have hown : ∀ k, (requestEvents cfg targetPid attached hits k).filter (·.key = k) =
      requestEvents cfg targetPid attached hits k := by
    intro k
    exact List.filter_eq_self.mpr fun e he => decide_eq_true (key_of_mem_requestEvents he)
  rw [KeyMatcher.feedAll_new]
  refine ⟨fun k => ?_, fun k => ?_, rfl⟩
  · simp only [KeyMatcher.feedAll_new, recordsAfter, run_keyed, hown]
    rw [← run_filter (ignores_keyStep stages), filter_requestEvents h,
      run_filter (ignores_keyStep stages)]
  · have hself : (emits (keysStep stages) (fun _ => none)
        (requestEvents cfg targetPid attached hits k)).filter (·.1.key = k) =
        emits (keysStep stages) (fun _ => none) (requestEvents cfg targetPid attached hits k) := by
      refine List.filter_eq_self.mpr fun o ho => decide_eq_true ?_
      obtain ⟨pre, post, hevs, -⟩ := (mem_emits _ _).mp ho
      exact key_of_mem_requestEvents (by rw [hevs]; simp)
    change (emits (keysStep stages) (fun _ => none) _).filter (·.1.key = k) =
      emits (keysStep stages) (fun _ => none) _
    rw [← hself, emits_keyed, emits_keyed, hown, ← emits_filter (ignores_keyStep stages),
      filter_requestEvents h, emits_filter (ignores_keyStep stages)]

end Request

theorem exists_key_of_mem_matchers {cfg : Config} {order : IterationOrder} {csvOpen : Bool}
    {evs : List RawEvent} {m : KeyMatcher}
    (hm : .key m ∈ ((Tracer.init cfg order csvOpen).events evs).matchers) :
    ∃ id stages, m = (KeyMatcher.new id stages).feedAll evs := by
  rw [init_eq, events_eq] at hm
  obtain ⟨p, _, hp⟩ := List.mem_map.mp hm
  cases p with
  | seq id stages hooks => cases hp
  | key id stages => exact ⟨id, stages, (Matcher.key.inj hp).symm⟩

end LensX
