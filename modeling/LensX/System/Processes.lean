import LensX.Model.Probe
import LensX.System.Documents
import LensX.System.Samples

/-! # Other processes

Uprobes run for the target process only; the other programs run for every
process. A thread that lacks a stage of a seq matcher never completes a group,
so hits of other processes matter only to key matchers and to seq matchers all
of whose stages come from system-wide probes.
-/

namespace LensX

open Bitmask Pairs Transducer Window

/-- The thread never delivers some stage of the list. -/
def Lacks (stages : List ℤ) (evs : List RawEvent) (t : UInt32) : Prop :=
  ∃ s ∈ stages, ∀ x ∈ evs, x.tid = t → x.stageNo ≠ s

/-- What a matcher shows of a completed slot. -/
def shown (stages : List ℤ) (r : Record) : StageSnapshot × List Delta :=
  (snapshotOf stages r, pairDeltas stages r)

section Seq

variable {stages : List ℤ}

theorem shown_eq_of_isGroup {w : List RawEvent} {r r' : Record} (h : IsGroup stages w r)
    (h' : IsGroup stages w r') : shown stages r = shown stages r' := by
  have hts : ∀ s ∈ stages, r.ts s = r'.ts s := fun s hs => (h.ts s hs).trans (h'.ts s hs).symm
  have htid : r.tid = r'.tid := h.tid.trans h'.tid.symm
  rw [shown, shown, snapshotOf_congr hts htid, h.pairDeltas_eq, h'.pairDeltas_eq, htid]

theorem threadEvents_filter {keep : RawEvent → Bool} {t : UInt32} {l : List RawEvent}
    (h : ∀ x ∈ l, keep x = false → x.tid = t → x.stageNo ∉ stages) :
    threadEvents stages t (l.filter keep) = threadEvents stages t l := by
  rw [threadEvents, threadEvents, List.filter_filter]
  apply List.filter_congr
  intro x hx
  cases hk : keep x with
  | true => simp
  | false => simpa using h x hx hk

theorem pendingAfter_concat (id : String) (hooks : List Hook) (pre : List RawEvent)
    (e : RawEvent) :
    (Part.seq id stages hooks).pendingAfter (pre ++ [e]) =
      (Part.seq id stages hooks).pendingAfter pre ++
        (((slotsStep stages (slotsAfter stages pre) e).2.map (shown stages)).map
          Prod.snd).getD [] := by
  rw [Part.pendingAfter, Part.pendingAfter, emits_concat, List.flatMap_append]
  congr 1
  change (((slotsStep stages (slotsAfter stages pre) e).2.map (e, ·)).toList.flatMap _) = _
  cases (slotsStep stages (slotsAfter stages pre) e).2 <;> simp [shown]

variable (hr : ∀ s ∈ stages, InRange s) {evs : List RawEvent} (hlt : ∀ e ∈ evs, e.stage < 64)
  (hd : SlotsDistinct evs)
include hr hlt hd

/-- A thread that lacks a stage completes nothing. -/
theorem slotsStep_of_lacks {pre : List RawEvent} {e : RawEvent} (hp : pre ++ [e] ⊆ evs)
    (h : Lacks stages evs e.tid) : (slotsStep stages (slotsAfter stages pre) e).2 = none := by
  obtain ⟨s, hs, hno⟩ := h
  by_contra hsome
  obtain ⟨r, hout⟩ := Option.ne_none_iff_exists'.mp hsome
  obtain ⟨_, w, hw, _⟩ := completes_of_slotsStep hr (fun x hx => hlt x (hp hx)) hout
  rw [slotHistory_eq_threadEvents (hd.subset hp) (by simp)] at hw
  obtain ⟨a, ha, has⟩ := hw.2.1 s hs
  have hmem := hw.1.1.subset ha
  exact hno a (hp (List.mem_of_mem_filter hmem)) (tid_of_mem_threadEvents hmem) has

/-- What an event completes depends on the events of its thread only. -/
theorem shown_congr {pre pre' : List RawEvent} {e : RawEvent} (hp : pre ++ [e] ⊆ evs)
    (hp' : pre' ++ [e] ⊆ evs)
    (hes : threadEvents stages e.tid (pre ++ [e]) = threadEvents stages e.tid (pre' ++ [e])) :
    (slotsStep stages (slotsAfter stages pre) e).2.map (shown stages) =
      (slotsStep stages (slotsAfter stages pre') e).2.map (shown stages) := by
  have hstep : ∀ {l l' : List RawEvent}, l ++ [e] ⊆ evs → l' ++ [e] ⊆ evs →
      threadEvents stages e.tid (l ++ [e]) = threadEvents stages e.tid (l' ++ [e]) → ∀ {r},
        (slotsStep stages (slotsAfter stages l) e).2 = some r →
          ∃ r', (slotsStep stages (slotsAfter stages l') e).2 = some r' ∧
            shown stages r = shown stages r' := by
    intro l l' hl hl' heq r hout
    have hhist : ∀ {l : List RawEvent}, l ++ [e] ⊆ evs →
        slotHistory stages (SeqMatcher.tidHash e.tid) (l ++ [e]) =
          threadEvents stages e.tid (l ++ [e]) :=
      fun hl => slotHistory_eq_threadEvents (hd.subset hl) (by simp)
    obtain ⟨he, w, hw, hg⟩ := completes_of_slotsStep hr (fun x hx => hlt x (hl hx)) hout
    rw [hhist hl, heq, ← hhist hl'] at hw
    obtain ⟨r', hout', hg'⟩ := slotsStep_of_completes hr (fun x hx => hlt x (hl' hx)) he hw
    exact ⟨r', hout', shown_eq_of_isGroup hg hg'⟩
  cases hout : (slotsStep stages (slotsAfter stages pre) e).2 with
  | some r =>
    obtain ⟨r', hout', hs⟩ := hstep hp hp' hes hout
    rw [hout', Option.map_some, Option.map_some, hs]
  | none =>
    cases hout' : (slotsStep stages (slotsAfter stages pre') e).2 with
    | none => rfl
    | some r' =>
      obtain ⟨r, hbad, _⟩ := hstep hp' hp hes.symm hout'
      exact absurd (hout.symm.trans hbad) (by simp)

variable {keep : RawEvent → Bool}
  (hkeep : ∀ e ∈ evs, keep e = false → e.stageNo ∈ stages → Lacks stages evs e.tid)
include hkeep

/-- Events of threads that lack a stage may be left out. -/
theorem shown_filter {pre : List RawEvent} {e : RawEvent} (hp : pre ++ [e] <+: evs) :
    (slotsStep stages (slotsAfter stages pre) e).2.map (shown stages) =
      if keep e then
        (slotsStep stages (slotsAfter stages (pre.filter keep)) e).2.map (shown stages)
      else none := by
  have hsub : pre ++ [e] ⊆ evs := hp.subset
  have he : e ∈ evs := hsub (by simp)
  have hsub' : pre.filter keep ++ [e] ⊆ evs :=
    List.Subset.trans (List.filter_sublist.append_right [e]).subset hsub
  split
  · by_cases hl : Lacks stages evs e.tid
    · rw [slotsStep_of_lacks hr hlt hd hsub hl, slotsStep_of_lacks hr hlt hd hsub' hl]
    · refine shown_congr hr hlt hd hsub hsub' ?_
      have hdrop : ∀ x ∈ pre, keep x = false → x.tid = e.tid → x.stageNo ∉ stages := by
        intro x hx hk ht hs
        exact hl (ht ▸ hkeep x (hsub (List.mem_append_left _ hx)) hk hs)
      have hpre : threadEvents stages e.tid (pre.filter keep) = threadEvents stages e.tid pre :=
        threadEvents_filter hdrop
      simp only [threadEvents, List.filter_append] at hpre ⊢
      rw [hpre]
  · next hk =>
    by_cases hs : e.stageNo ∈ stages
    · rw [slotsStep_of_lacks hr hlt hd hsub (hkeep e he (by simpa using hk) hs)]
      rfl
    · rw [Option.map_eq_none_iff]
      by_contra hsome
      obtain ⟨r, hout⟩ := Option.ne_none_iff_exists'.mp hsome
      exact hs (completes_of_slotsStep hr (fun x hx => hlt x (hsub hx)) hout).1

end Seq

/-- The events left out are taken in by no key matcher, and their threads lack a stage of every seq
matcher that takes them in. -/
structure Config.LeavesOut (cfg : Config) (keep : RawEvent → Bool) (evs : List RawEvent) :
    Prop where
  key : ∀ mc ∈ cfg.matchers, mc.mode = "key" → ∀ e ∈ evs, keep e = false → e.stageNo ∉ mc.stages
  seq : ∀ mc ∈ cfg.matchers, mc.mode = "seq" → ∀ e ∈ evs, keep e = false →
    e.stageNo ∈ mc.stages → Lacks mc.stages evs e.tid

section Parts

variable {cfg : Config} (hr : ∀ mc ∈ cfg.matchers, ∀ s ∈ mc.stages, InRange s)
  (order : IterationOrder) {evs : List RawEvent} (hlt : ∀ e ∈ evs, e.stage < 64)
  (hd : SlotsDistinct evs) {keep : RawEvent → Bool} (hkeep : cfg.LeavesOut keep evs)
include hr hlt hd hkeep

theorem shown_part {id : String} {stages : List ℤ} {hooks : List Hook}
    (hm : .seq id stages hooks ∈ parts cfg order) {pre : List RawEvent} {e : RawEvent}
    (hp : pre ++ [e] <+: evs) :
    (slotsStep stages (slotsAfter stages pre) e).2.map (shown stages) =
      if keep e then
        (slotsStep stages (slotsAfter stages (pre.filter keep)) e).2.map (shown stages)
      else none := by
  obtain ⟨mc, hmc, hmode, _, rfl⟩ := mem_parts_seq hm
  exact shown_filter (hr mc hmc) hlt hd (hkeep.seq mc hmc hmode) hp

theorem callsAt_filter {pre : List RawEvent} {e : RawEvent} (hp : pre ++ [e] <+: evs) :
    callsAt (parts cfg order) pre e =
      if keep e then callsAt (parts cfg order) (pre.filter keep) e else [] := by
  have hpart : ∀ p ∈ parts cfg order, p.callsAt pre e =
      if keep e then p.callsAt (pre.filter keep) e else [] := by
    intro p hm
    cases p with
    | key id stages => simp [Part.callsAt]
    | seq id stages hooks =>
      have hfst := congrArg (Option.map Prod.fst) (shown_part hr order hlt hd hkeep hm hp)
      rw [Part.callsAt, Part.callsAt]
      split
      · next hk =>
        rw [if_pos hk, Option.map_map, Option.map_map] at hfst
        have hcompletion : completion stages pre e = completion stages (pre.filter keep) e := hfst
        rw [hcompletion]
      · next hk =>
        rw [if_neg hk, Option.map_map] at hfst
        have hcompletion : completion stages pre e = none := hfst
        rw [hcompletion]
        rfl
  rw [callsAt, callsAt, List.flatMap_congr hpart]
  split
  · rfl
  · simp

theorem calls_filter {pre : List RawEvent} (hp : pre <+: evs) :
    calls (parts cfg order) (pre.filter keep) = calls (parts cfg order) pre := by
  induction pre using List.reverseRecOn with
  | nil => rfl
  | append_singleton pre e ih =>
    have hpre := ih ((List.prefix_append _ _).trans hp)
    rw [calls_concat, callsAt_filter hr order hlt hd hkeep hp, List.filter_append]
    cases hk : keep e with
    | true => simp [hk, calls_concat, hpre]
    | false => simp [hk, hpre]

theorem pendingAfter_filter_seq {id : String} {stages : List ℤ} {hooks : List Hook}
    (hm : .seq id stages hooks ∈ parts cfg order) {pre : List RawEvent} (hp : pre <+: evs) :
    (Part.seq id stages hooks).pendingAfter (pre.filter keep) =
      (Part.seq id stages hooks).pendingAfter pre := by
  induction pre using List.reverseRecOn with
  | nil => rfl
  | append_singleton pre e ih =>
    have hpre := ih ((List.prefix_append _ _).trans hp)
    rw [pendingAfter_concat, shown_part hr order hlt hd hkeep hm hp, List.filter_append]
    cases hk : keep e with
    | true => simp [hk, pendingAfter_concat, hpre]
    | false => simp [hk, hpre]

omit hd in
theorem pendingAfter_filter_key {id : String} {stages : List ℤ}
    (hm : .key id stages ∈ parts cfg order) :
    (Part.key id stages).pendingAfter (evs.filter keep) =
      (Part.key id stages).pendingAfter evs := by
  obtain ⟨mc, hmc, hmode, rfl, rfl⟩ := mem_parts_key.mp hm
  have hq : ∀ e ∈ evs, keep e = false → passes mc.stages e = false := by
    intro e he hk
    rw [← Bool.not_eq_true, passes_iff (hr mc hmc) (hlt e he)]
    exact hkeep.key mc hmc hmode e he hk
  have hemits : emits (keysStep mc.stages) (fun _ => none) (evs.filter keep) =
      emits (keysStep mc.stages) (fun _ => none) evs :=
    emits_filter_of_ignored ((ignores_keyStep mc.stages).keyed _) _ hq
  rw [Part.pendingAfter, Part.pendingAfter, KeyMatcher.feedAll_new, KeyMatcher.feedAll_new, hemits]

/-- A run does not depend on the events left out. -/
theorem run_filter_world (csvOpen : Bool) :
    (run cfg order csvOpen (evs.filter keep)).world = (run cfg order csvOpen evs).world := by
  have hdrained : drained (parts cfg order) (evs.filter keep) = drained (parts cfg order) evs := by
    refine List.flatMap_congr fun p hm => ?_
    cases p with
    | seq id stages hooks => exact pendingAfter_filter_seq hr order hlt hd hkeep hm List.prefix_rfl
    | key id stages => exact pendingAfter_filter_key hr order hlt hkeep hm
  rw [run_world, run_world, hdrained, calls_filter hr order hlt hd hkeep List.prefix_rfl]

end Parts

/-- A history of all processes. A thread belongs to one process, and different threads are kept in
different slots. -/
structure History where
  hits : List Hit
  process : ∀ x ∈ hits, ∀ y ∈ hits, x.firing.tid = y.firing.tid → x.firing.pid = y.firing.pid
  slots : ∀ x ∈ hits, ∀ y ∈ hits, x.firing.tid ≠ y.firing.tid →
    x.firing.tid % 65536 ≠ y.firing.tid % 65536

/-- A probe that runs for every process sends the stage. -/
def Config.SystemWide (cfg : Config) (attached : ProbeConfig → Bool) (stage : ℤ) : Prop :=
  ∃ p ∈ cfg.probes, attached p ∧ p.scope = some .system ∧ p.stage = stage

instance (cfg : Config) (attached : ProbeConfig → Bool) (stage : ℤ) :
    Decidable (cfg.SystemWide attached stage) :=
  inferInstanceAs (Decidable (∃ p ∈ cfg.probes, _))

/-- The stage is of a key matcher, or of a seq matcher all of whose stages are system-wide. -/
def Config.Exposed (cfg : Config) (attached : ProbeConfig → Bool) (stage : ℤ) : Prop :=
  ∃ mc ∈ cfg.matchers, stage ∈ mc.stages ∧
    (mc.mode = "key" ∨ mc.mode = "seq" ∧ ∀ s ∈ mc.stages, cfg.SystemWide attached s)

instance (cfg : Config) (attached : ProbeConfig → Bool) (stage : ℤ) :
    Decidable (cfg.Exposed attached stage) :=
  inferInstanceAs (Decidable (∃ mc ∈ cfg.matchers, _))

/-- The hits of the target process, and those of other processes at exposed stages. -/
def Config.Relevant (cfg : Config) (targetPid : UInt32) (attached : ProbeConfig → Bool) (x : Hit) :
    Prop :=
  x.firing.pid = targetPid ∨
    x.Delivered cfg targetPid attached ∧ cfg.Exposed attached x.probe.stage

instance (cfg : Config) (targetPid : UInt32) (attached : ProbeConfig → Bool) (x : Hit) :
    Decidable (cfg.Relevant targetPid attached x) :=
  inferInstanceAs (Decidable (_ ∨ _))

section History

variable {cfg : Config} (hprobes : ∀ p ∈ cfg.probes, InRange p.stage) {targetPid : UInt32}
  {attached : ProbeConfig → Bool} (H : History)
include hprobes

theorem stageNo_of_delivered {x : Hit} (hx : x.Delivered cfg targetPid attached) :
    x.event.stageNo = x.probe.stage := by
  obtain ⟨h₀, h₁⟩ := hprobes _ hx.1
  exact Hit.stageNo_event_eq_iff.mpr ⟨h₀, by omega⟩

theorem stage_lt_of_mem_delivered {e : RawEvent}
    (he : e ∈ delivered cfg targetPid attached H.hits) : e.stage < 64 := by
  obtain ⟨x, hx, rfl⟩ := List.mem_map.mp he
  have hd : x.Delivered cfg targetPid attached := by simpa using (List.mem_filter.mp hx).2
  have hstage := stageNo_of_delivered hprobes hd
  have hlt := (hprobes _ hd.1).2
  rw [UInt8.lt_iff_toNat_lt]
  have hno : (x.event.stage.toNat : ℤ) < 64 := by
    rw [← hstage] at hlt
    exact hlt
  exact_mod_cast hno

omit hprobes in
theorem slotsDistinct_delivered : SlotsDistinct (delivered cfg targetPid attached H.hits) := by
  intro a ha b hb
  obtain ⟨x, hx, rfl⟩ := List.mem_map.mp ha
  obtain ⟨y, hy, rfl⟩ := List.mem_map.mp hb
  exact H.slots x (List.mem_filter.mp hx).1 y (List.mem_filter.mp hy).1

/-- The events of the relevant hits, told by their thread and their stage. -/
def keeps (cfg : Config) (targetPid : UInt32) (attached : ProbeConfig → Bool) (hits : List Hit)
    (e : RawEvent) : Bool :=
  (∃ x ∈ hits, x.firing.tid = e.tid ∧ x.firing.pid = targetPid) ∨ cfg.Exposed attached e.stageNo

theorem keeps_event_iff {x : Hit} (hx : x ∈ H.hits) (hd : x.Delivered cfg targetPid attached) :
    keeps cfg targetPid attached H.hits x.event = true ↔ cfg.Relevant targetPid attached x := by
  have hpid : (∃ y ∈ H.hits, y.firing.tid = x.event.tid ∧ y.firing.pid = targetPid) ↔
      x.firing.pid = targetPid := by
    constructor
    · rintro ⟨y, hy, htid, hpid⟩
      exact (H.process x hx y hy htid.symm).trans hpid
    · exact fun hpid => ⟨x, hx, rfl, hpid⟩
  rw [keeps, decide_eq_true_eq, hpid, stageNo_of_delivered hprobes hd, Config.Relevant]
  exact or_congr_right (and_iff_right hd).symm

theorem filter_delivered :
    (delivered cfg targetPid attached H.hits).filter (keeps cfg targetPid attached H.hits) =
      delivered cfg targetPid attached (H.hits.filter (cfg.Relevant targetPid attached)) := by
  rw [delivered, delivered, List.filter_map, List.filter_filter, List.filter_filter]
  congr 1
  apply List.filter_congr
  intro x hx
  by_cases hd : x.Delivered cfg targetPid attached
  · have hkeep := keeps_event_iff hprobes H hx hd
    simp [hd, ← hkeep]
  · simp [hd]

/-- Hits of other processes that are not relevant leave a stage of their seq matchers out. -/
theorem leavesOut_keeps : cfg.LeavesOut (keeps cfg targetPid attached H.hits)
    (delivered cfg targetPid attached H.hits) := by
  have hdrop : ∀ e ∈ delivered cfg targetPid attached H.hits,
      keeps cfg targetPid attached H.hits e = false → ∃ x ∈ H.hits,
        x.event = e ∧ x.firing.pid ≠ targetPid ∧ ¬ cfg.Exposed attached e.stageNo := by
    intro e he hk
    obtain ⟨x, hx, rfl⟩ := List.mem_map.mp he
    obtain ⟨hx, hd⟩ := List.mem_filter.mp hx
    rw [keeps, decide_eq_false_iff_not, not_or] at hk
    exact ⟨x, hx, rfl, fun hpid => hk.1 ⟨x, hx, rfl, hpid⟩, hk.2⟩
  constructor
  · intro mc hmc hmode e he hk hs
    obtain ⟨_, _, _, _, hno⟩ := hdrop e he hk
    exact hno ⟨mc, hmc, hs, Or.inl hmode⟩
  · intro mc hmc hmode e he hk hs
    obtain ⟨x, hx, rfl, hpid, hno⟩ := hdrop e he hk
    have hnot : ¬ ∀ s ∈ mc.stages, cfg.SystemWide attached s :=
      fun hall => hno ⟨mc, hmc, hs, Or.inr ⟨hmode, hall⟩⟩
    obtain ⟨s, hms, hs⟩ : ∃ s ∈ mc.stages, ¬ cfg.SystemWide attached s := by simpa using hnot
    refine ⟨s, hms, fun e' he' htid hstage => hs ?_⟩
    obtain ⟨y, hy, rfl⟩ := List.mem_map.mp he'
    obtain ⟨hy, hd⟩ := List.mem_filter.mp hy
    have hd : y.Delivered cfg targetPid attached := by simpa using hd
    rw [stageNo_of_delivered hprobes hd] at hstage
    obtain ⟨hp, hatt, hsys | ⟨_, htarget⟩⟩ := hd
    · exact ⟨y.probe, hp, hatt, hsys, hstage⟩
    · exact absurd ((H.process x hx y hy htid.symm).trans htarget) hpid

/-- The run of a history is that of its relevant hits. -/
theorem run_relevant (hr : ∀ mc ∈ cfg.matchers, ∀ s ∈ mc.stages, InRange s)
    (order : IterationOrder) (csvOpen : Bool) :
    (run cfg order csvOpen (delivered cfg targetPid attached H.hits)).world =
      (run cfg order csvOpen (delivered cfg targetPid attached
        (H.hits.filter (cfg.Relevant targetPid attached)))).world := by
  rw [← filter_delivered hprobes H]
  exact (run_filter_world hr order (fun e he => stage_lt_of_mem_delivered hprobes H he)
    (slotsDistinct_delivered H) (leavesOut_keeps hprobes H) csvOpen).symm

end History

/-- Two histories with the same relevant hits lead to the same samples. -/
theorem samples_of_relevant {cfg : Config} (hprobes : ∀ p ∈ cfg.probes, InRange p.stage)
    (hr : ∀ mc ∈ cfg.matchers, ∀ s ∈ mc.stages, InRange s) (targetPid : UInt32)
    (attached : ProbeConfig → Bool) (H H' : History)
    (h : H.hits.filter (cfg.Relevant targetPid attached) =
      H'.hits.filter (cfg.Relevant targetPid attached))
    (order : IterationOrder) (csvOpen : Bool) :
    (run cfg order csvOpen (delivered cfg targetPid attached H.hits)).world.samples =
      (run cfg order csvOpen (delivered cfg targetPid attached H'.hits)).world.samples := by
  rw [run_relevant hprobes H hr, run_relevant hprobes H' hr, h]

/-- Kernel probes also fire for another process, which then has a sample of its own. -/
theorem foreign_hits_add_samples :
    ¬ ∀ (ε Node : Type) (y : Yaml ε Node) (path : String) (cfg : Config),
      parseConfig y path = .ok cfg → (∀ p ∈ cfg.probes, InRange p.stage) →
        (∀ mc ∈ cfg.matchers, ∀ s ∈ mc.stages, InRange s) →
        (∀ r ∈ cfg.reports, InRange r.fromStage ∧ InRange r.toStage) →
          ∀ (targetPid : UInt32) (attached : ProbeConfig → Bool) (H H' : History),
            H.hits.filter (·.firing.pid = targetPid) = H'.hits.filter (·.firing.pid = targetPid) →
              ∀ (order : IterationOrder) (csvOpen : Bool) (name : String),
                ((run cfg order csvOpen
                  (delivered cfg targetPid attached H.hits)).world.samples.filter
                    (·.report = name)).Perm
                  ((run cfg order csvOpen
                    (delivered cfg targetPid attached H'.hits)).world.samples.filter
                      (·.report = name)) := by
  intro h
  let begin : ProbeConfig := ⟨"read_begin", "kprobe", "vfs_read", "", 0, ""⟩
  let done : ProbeConfig := ⟨"read_end", "kretprobe", "vfs_read", "", 1, ""⟩
  let cfg : Config :=
    ⟨"nebulaX", "", [begin, done], [⟨"read_flow", [0, 1], "seq", 4096⟩], [⟨"read", 0, 1⟩]⟩
  have hparse : parseConfig (Doc.ofConfig cfg).yaml "config.yaml" = .ok cfg := rfl
  have hperm := h String Doc _ _ cfg hparse (by decide) (by decide) (by decide) 100 (fun _ => true)
    ⟨[], by simp, by simp⟩
    ⟨[⟨begin, ⟨200, 201, 10, 0, 0, fun _ => 0⟩⟩, ⟨done, ⟨200, 201, 19, 0, 0, fun _ => 0⟩⟩],
      by decide, by decide⟩ rfl default false "read"
  exact absurd hperm.length_eq (by decide)

/-- A kernel probe of another process within a matcher of a uprobe. -/
theorem samples_of_relevant_flow :
    let io : ProbeConfig := ⟨"io_begin", "uprobe", "io_begin", "", 0, ""⟩
    let read : ProbeConfig := ⟨"read", "kprobe", "vfs_read", "", 1, ""⟩
    let cfg : Config :=
      ⟨"nebulaX", "", [io, read], [⟨"io_flow", [0, 1], "seq", 4096⟩], [⟨"io", 0, 1⟩]⟩
    let own : List Hit :=
      [⟨io, ⟨100, 101, 10, 0, 0, fun _ => 0⟩⟩, ⟨read, ⟨100, 101, 19, 0, 0, fun _ => 0⟩⟩]
    let other : List Hit := [⟨read, ⟨200, 201, 15, 0, 0, fun _ => 0⟩⟩]
    (run cfg default false (delivered cfg 100 (fun _ => true) (other ++ own))).world.samples =
      (run cfg default false (delivered cfg 100 (fun _ => true) own)).world.samples := by
  intro io read cfg own other
  exact samples_of_relevant (by decide) (by decide) 100 (fun _ => true)
    ⟨other ++ own, by decide, by decide⟩ ⟨own, by decide, by decide⟩ rfl default false

end LensX
