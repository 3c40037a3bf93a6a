import LensX.Model.Probe
import LensX.System.Documents
import LensX.System.Queues

/-! # Shifts and array accesses

A shift of a 64-bit word is defined for amounts in `0..63`, which are also the
indices of the arrays of timestamps. The lists below collect the operands that a
run computes from stage numbers. No check of `parse_config` concerns them, so
they are in range exactly when the configuration says so by itself.
-/

namespace LensX

open Bitmask Pairs Transducer

/-- The amount of a shift of a 64-bit word or an index into an array of timestamps. -/
inductive Access where
  | shift (amount : ℤ)
  | index (i : ℤ)
  deriving DecidableEq, Repr

def Access.operand : Access → ℤ
  | .shift amount => amount
  | .index i => i

/-- The deltas of a complete group. -/
def pairAccesses (stages : List ℤ) : List Access :=
  (pairs stages).flatMap fun (a, b) => [.index b, .index a]

/-- The test of an event, its storage and, when the group is complete, the output. -/
def feedAccesses (mask : UInt64) (e : RawEvent) (complete : Bool) (output : List Access) :
    List Access :=
  .shift e.stageNo ::
    if mask &&& bit e.stageNo = 0 then []
    else .index e.stageNo :: .shift e.stageNo :: if complete then output else []

/-- The deltas and the snapshot. -/
def SeqMatcher.feedAccesses {σ : Type*} (m : SeqMatcher σ) (e : RawEvent) : List Access :=
  LensX.feedAccesses m.stagesMask e ((m.store e).Full m.stagesMask)
    (pairAccesses m.stages ++ m.stages.map .index)

def KeyMatcher.feedAccesses (m : KeyMatcher) (e : RawEvent) : List Access :=
  LensX.feedAccesses m.stagesMask e ((m.store e).Full m.stagesMask) (pairAccesses m.stages)

def Matcher.feedAccesses {σ : Type*} (m : Matcher σ) (e : RawEvent) : List Access :=
  match m with
  | .seq m => m.feedAccesses e
  | .key m => m.feedAccesses e

/-- The queue of the report hands out a timestamp. -/
def World.pops (w : World) (r : ReportConfig) : Bool :=
  (w.fifos r.name).any fun q =>
    match q.pop r.toStage none with
    | .ok (popped, _, _) => popped
    | .error _ => false

/-- A callback, called with a snapshot. -/
def Hook.accesses (keys : ReportKeys) (s : StageSnapshot) (w : World) : Hook → List Access
  | .pairs =>
    ((List.range 64).map Int.ofNat).flatMap fun i =>
      .shift i ::
        if Has s.stages i then
          (((List.range 64).map Int.ofNat).filter (i < ·)).flatMap fun j =>
            .shift j ::
              if Has s.stages j ∧ (keys (i, j)).isSome then [.index j, .index i] else []
        else []
  | .push r => .shift r.fromStage :: if Has s.stages r.fromStage then [.index r.fromStage] else []
  | .pop r =>
    .shift r.toStage :: if Has s.stages r.toStage ∧ w.pops r then [.index r.toStage] else []

/-- Calls one after the other. -/
def callAccesses (keys : ReportKeys) : World → List Call → List Access
  | _, [] => []
  | w, c :: cs => c.1.accesses keys c.2 w ++ callAccesses keys (c.apply keys w) cs

/-- The constructors of the matchers and the search for the matchers of the reports. -/
def wireAccesses (cfg : Config) (order : IterationOrder) : List Access :=
  (cfg.matchers.filter fun mc => mc.mode = "seq" ∨ mc.mode = "key").flatMap
      (fun mc => mc.stages.map .shift) ++
    cfg.reports.flatMap fun r =>
      (seqEntries cfg order).flatMap fun _ => [.shift r.fromStage, .shift r.toStage]

/-- The wiring, the feeds and the callbacks of a run. -/
def runAccesses (cfg : Config) (order : IterationOrder) (csvOpen : Bool) (evs : List RawEvent) :
    List Access :=
  wireAccesses cfg order ++
    ((prefixes evs).flatMap fun p =>
      ((Tracer.init cfg order csvOpen).events p.1).matchers.flatMap (·.feedAccesses p.2)) ++
    callAccesses (reportKeys cfg.reports) (Tracer.init cfg order csvOpen).world
      (calls (parts cfg order) evs)

/-- Whatever the hits of the probes are, every operand is in range and every event carries the
stage of its probe. -/
def Config.Safe (cfg : Config) : Prop :=
  ∀ (order : IterationOrder) (csvOpen : Bool) (hits : List Hit),
    (∀ x ∈ hits, x.probe ∈ cfg.probes) →
      (∀ a ∈ runAccesses cfg order csvOpen (hits.map Hit.event), InRange a.operand) ∧
        ∀ x ∈ hits, x.event.stageNo = x.probe.stage

/-- The configuration has a matcher of events. -/
def Config.Matches (cfg : Config) : Prop :=
  ∃ mc ∈ cfg.matchers, mc.mode = "seq" ∨ mc.mode = "key"

/-- The stage numbers that are used are in range. -/
structure Config.StagesInRange (cfg : Config) : Prop where
  matchers : ∀ mc ∈ cfg.matchers, mc.mode = "seq" ∨ mc.mode = "key" → ∀ s ∈ mc.stages, InRange s
  reports : (∃ mc ∈ cfg.matchers, mc.mode = "seq") →
    ∀ r ∈ cfg.reports, InRange r.fromStage ∧ InRange r.toStage
  bytes : ∀ p ∈ cfg.probes, 0 ≤ p.stage ∧ p.stage < 256
  probes : cfg.Matches → ∀ p ∈ cfg.probes, InRange p.stage

/-- A feed uses the stage of its event and the stages of the list. -/
theorem operand_of_mem_feedAccesses (keys : ReportKeys) (pre : List RawEvent) (e : RawEvent)
    (p : Part) {a : Access} (h : a ∈ (p.matcherAfter keys pre).feedAccesses e) :
    a.operand = e.stageNo ∨ a.operand ∈ p.stages := by
  have hpair : ∀ {stages : List ℤ}, a ∈ pairAccesses stages → a.operand ∈ stages := by
    intro stages ha
    obtain ⟨⟨i, j⟩, hij, ha⟩ := List.mem_flatMap.mp ha
    rcases List.mem_pair.mp ha with rfl | rfl
    · exact (mem_of_mem_pairs hij).2
    · exact (mem_of_mem_pairs hij).1
  have hfeed : ∀ {mask : UInt64} {complete : Bool} {output : List Access},
      a ∈ feedAccesses mask e complete output → a.operand = e.stageNo ∨ a ∈ output := by
    intro mask complete output ha
    rw [feedAccesses, List.mem_cons, List.mem_ite_nil_left, List.mem_cons, List.mem_cons,
      List.mem_ite_nil_right] at ha
    rcases ha with rfl | ⟨_, rfl | rfl | ⟨_, ha⟩⟩
    · exact Or.inl rfl
    · exact Or.inl rfl
    · exact Or.inl rfl
    · exact Or.inr ha
  cases p with
  | seq id stages hooks =>
    refine (hfeed h).imp_right fun ha => ?_
    rcases List.mem_append.mp ha with ha | ha
    · exact hpair ha
    · obtain ⟨s, hs, rfl⟩ := List.mem_map.mp ha
      exact hs
  | key id stages =>
    rw [Part.matcherAfter, KeyMatcher.feedAll_new] at h
    exact (hfeed h).imp_right hpair

/-- A callback uses `0..63` or the stages of its report. -/
theorem operand_of_mem_accesses {keys : ReportKeys} {s : StageSnapshot} {w : World} {h : Hook}
    {a : Access} (ha : a ∈ h.accesses keys s w) :
    InRange a.operand ∨
      ∃ r, h.report = some r ∧ (a.operand = r.fromStage ∨ a.operand = r.toStage) := by
  have hindex : ∀ {i : ℤ}, i ∈ (List.range 64).map Int.ofNat → InRange i := by
    intro i hi
    obtain ⟨n, hn, rfl⟩ := List.mem_map.mp hi
    exact ⟨Int.natCast_nonneg n, Int.ofNat_lt.mpr (List.mem_range.mp hn)⟩
  cases h with
  | pairs =>
    refine Or.inl ?_
    obtain ⟨i, hi, ha⟩ := List.mem_flatMap.mp ha
    rw [List.mem_cons, List.mem_ite_nil_right, List.mem_flatMap] at ha
    rcases ha with rfl | ⟨_, j, hj, ha⟩
    · exact hindex hi
    · have hj' := hindex (List.mem_filter.mp hj).1
      rw [List.mem_cons, List.mem_ite_nil_right, List.mem_pair] at ha
      rcases ha with rfl | ⟨_, rfl | rfl⟩
      · exact hj'
      · exact hj'
      · exact hindex hi
  | push r =>
    rw [Hook.accesses, List.mem_cons, List.mem_ite_nil_right, List.mem_singleton] at ha
    refine Or.inr ⟨r, rfl, Or.inl ?_⟩
    rcases ha with rfl | ⟨_, rfl⟩ <;> rfl
  | pop r =>
    rw [Hook.accesses, List.mem_cons, List.mem_ite_nil_right, List.mem_singleton] at ha
    refine Or.inr ⟨r, rfl, Or.inr ?_⟩
    rcases ha with rfl | ⟨_, rfl⟩ <;> rfl

theorem exists_of_mem_callAccesses {keys : ReportKeys} {cs : List Call} {w : World} {a : Access}
    (h : a ∈ callAccesses keys w cs) : ∃ c ∈ cs, ∃ w, a ∈ c.1.accesses keys c.2 w := by
  induction cs generalizing w with
  | nil => exact absurd h List.not_mem_nil
  | cons c cs ih =>
    rcases List.mem_append.mp h with h | h
    · exact ⟨c, List.mem_cons_self, w, h⟩
    · obtain ⟨c', hc, w', ha⟩ := ih h
      exact ⟨c', List.mem_cons_of_mem _ hc, w', ha⟩

theorem baseWiring_seqMap_ne_nil {ms : List MatcherConfig} {mc : MatcherConfig} (hm : mc ∈ ms)
    (hmode : mc.mode = "seq") : (baseWiring ms).seqMap ≠ [] := by
  induction ms using List.reverseRecOn with
  | nil => exact absurd hm List.not_mem_nil
  | append_singleton ms m ih =>
    rw [baseWiring_concat, Wiring.addMatcher]
    split
    · simp
    · next hs =>
      have hold : (baseWiring ms).seqMap ≠ [] := by
        rcases List.mem_append.mp hm with hm | hm
        · exact ih hm
        · obtain rfl := List.mem_singleton.mp hm
          exact absurd hmode hs
      split
      · exact hold
      · split
        · split <;> exact hold
        · exact hold

section Run

variable {cfg : Config} (order : IterationOrder) (csvOpen : Bool)

/-- The matchers of a run after events. -/
theorem mem_matchers_events {evs : List RawEvent} {m : Matcher World} :
    m ∈ ((Tracer.init cfg order csvOpen).events evs).matchers ↔
      ∃ p ∈ parts cfg order, p.matcherAfter (reportKeys cfg.reports) evs = m := by
  rw [init_eq, events_eq, List.mem_map]

theorem exists_part_of_mode {mc : MatcherConfig} (hm : mc ∈ cfg.matchers)
    (hmode : mc.mode = "seq" ∨ mc.mode = "key") : ∃ p, p ∈ parts cfg order := by
  obtain ⟨b, hof⟩ : ∃ b, Part.of mc = some b := by
    rcases hmode with h | h
    · exact ⟨_, part_of_seq h⟩
    · exact ⟨_, part_of_key h⟩
  have hb : b ∈ baseParts cfg.matchers := List.mem_filterMap.mpr ⟨mc, hm, hof⟩
  obtain ⟨i, hi⟩ := List.mem_iff_getElem?.mp hb
  exact ⟨_, List.mem_of_getElem? (by rw [getElem?_parts, hi]; rfl)⟩

/-- With the stages in range every operand of a run is in range. -/
theorem inRange_of_mem_runAccesses (h : cfg.StagesInRange) {evs : List RawEvent}
    (hevs : cfg.Matches → ∀ e ∈ evs, InRange e.stageNo) {a : Access}
    (ha : a ∈ runAccesses cfg order csvOpen evs) : InRange a.operand := by
  rcases List.mem_append.mp ha with ha | ha
  · rcases List.mem_append.mp ha with ha | ha
    · rcases List.mem_append.mp ha with ha | ha
      · obtain ⟨mc, hmc, ha⟩ := List.mem_flatMap.mp ha
        obtain ⟨s, hs, rfl⟩ := List.mem_map.mp ha
        obtain ⟨hm, hmode⟩ := List.mem_filter.mp hmc
        exact h.matchers mc hm (by simpa using hmode) s hs
      · obtain ⟨r, hr, ha⟩ := List.mem_flatMap.mp ha
        obtain ⟨en, hen, ha⟩ := List.mem_flatMap.mp ha
        have hmem := (order.perm _).mem_iff.mp hen
        obtain ⟨mc, hm, hmode, _⟩ := (seqMapInv_baseWiring cfg.matchers).entry en hmem
        obtain ⟨hf, ht⟩ := h.reports ⟨mc, hm, hmode⟩ r hr
        rcases List.mem_pair.mp ha with rfl | rfl
        · exact hf
        · exact ht
    · obtain ⟨⟨pre, e⟩, hp, ha⟩ := List.mem_flatMap.mp ha
      obtain ⟨m, hm, ha⟩ := List.mem_flatMap.mp ha
      obtain ⟨p, hpart, rfl⟩ := (mem_matchers_events order csvOpen).mp hm
      obtain ⟨mc, hmc, hmode, hst⟩ := matcher_of_mem_parts hpart
      rcases operand_of_mem_feedAccesses _ _ _ _ ha with hop | hop
      · rw [hop]
        exact hevs ⟨mc, hmc, hmode⟩ e ((mem_prefixes.mp hp).subset (by simp))
      · exact h.matchers mc hmc hmode _ (hst ▸ hop)
  · obtain ⟨c, hc, w, ha⟩ := exists_of_mem_callAccesses ha
    rcases operand_of_mem_accesses ha with hin | ⟨r, hrep, hop⟩
    · exact hin
    · obtain ⟨_, _, _, _, _, _, hpart, _⟩ := mem_calls hc
      obtain ⟨mc, hmc, hmode, _⟩ := mem_parts_seq hpart
      obtain ⟨hf, ht⟩ := h.reports ⟨mc, hmc, hmode⟩ r (report_of_mem_calls hc hrep).1
      rcases hop with hop | hop
      · rwa [hop]
      · rwa [hop]

end Run

section Safe

variable {cfg : Config} (h : cfg.Safe)
include h

theorem Config.Safe.wire {a : Access} (ha : a ∈ wireAccesses cfg default) : InRange a.operand :=
  (h default false [] (by simp)).1 a (List.mem_append_left _ (List.mem_append_left _ ha))

/-- The first event of a run is fed to every matcher. -/
theorem Config.Safe.inRange_event (hm : cfg.Matches) {x : Hit} (hx : x.probe ∈ cfg.probes) :
    InRange x.event.stageNo := by
  obtain ⟨mc, hmc, hmode⟩ := hm
  obtain ⟨p, hp⟩ := exists_part_of_mode default hmc hmode
  have hmem : p.matcherAfter (reportKeys cfg.reports) [] ∈
      ((Tracer.init cfg default false).events []).matchers :=
    (mem_matchers_events default false).mpr ⟨p, hp, rfl⟩
  have hfeed : .shift x.event.stageNo ∈
      (p.matcherAfter (reportKeys cfg.reports) []).feedAccesses x.event := by
    cases p <;> exact List.mem_cons_self
  refine (h default false [x] (by simpa using hx)).1 (.shift x.event.stageNo)
    (List.mem_append_left _ (List.mem_append_right _ ?_))
  exact List.mem_flatMap.mpr ⟨([], x.event), mem_prefixes.mpr List.prefix_rfl,
    List.mem_flatMap.mpr ⟨_, hmem, hfeed⟩⟩

theorem Config.Safe.stagesInRange : cfg.StagesInRange := by
  have hfire : ∀ p ∈ cfg.probes, ∃ x : Hit, x.probe = p ∧ x.event.stageNo = p.stage := by
    intro p hp
    have hall := h default false [⟨p, ⟨0, 0, 0, 0, 0, fun _ => 0⟩⟩] (by simpa using hp)
    exact ⟨_, rfl, hall.2 _ List.mem_cons_self⟩
  constructor
  · intro mc hm hmode s hs
    refine h.wire (a := .shift s) (List.mem_append_left _ ?_)
    exact List.mem_flatMap.mpr ⟨mc, List.mem_filter.mpr ⟨hm, by simpa using hmode⟩,
      List.mem_map_of_mem hs⟩
  · rintro ⟨mc, hm, hmode⟩ r hr
    obtain ⟨en, hen⟩ := List.exists_mem_of_ne_nil _ (baseWiring_seqMap_ne_nil hm hmode)
    have hstages : ∀ a ∈ [Access.shift r.fromStage, .shift r.toStage], InRange a.operand := by
      intro a ha
      exact h.wire (List.mem_append_right _
        (List.mem_flatMap.mpr ⟨r, hr, List.mem_flatMap.mpr ⟨en, hen, ha⟩⟩))
    exact ⟨hstages (.shift r.fromStage) (by simp), hstages (.shift r.toStage) (by simp)⟩
  · intro p hp
    obtain ⟨x, rfl, hx⟩ := hfire p hp
    exact Hit.stageNo_event_eq_iff.mp hx
  · intro hm p hp
    obtain ⟨x, rfl, hx⟩ := hfire p hp
    exact hx ▸ h.inRange_event hm hp

end Safe

/-- The runs of a configuration use stage numbers in range exactly when its stages are in range. -/
theorem safe_iff {cfg : Config} : cfg.Safe ↔ cfg.StagesInRange := by
  constructor
  · exact fun h => h.stagesInRange
  · intro h order csvOpen hits hprobes
    have hbyte : ∀ x ∈ hits, x.event.stageNo = x.probe.stage :=
      fun x hx => Hit.stageNo_event_eq_iff.mpr (h.bytes _ (hprobes x hx))
    refine ⟨fun a ha => inRange_of_mem_runAccesses order csvOpen h (fun hm e he => ?_) ha, hbyte⟩
    obtain ⟨x, hx, rfl⟩ := List.mem_map.mp he
    rw [hbyte x hx]
    exact h.probes hm _ (hprobes x hx)

/-- A configuration that `parse_config` returns has passed the checks, its stages are values of
`int`, and its runs use stage numbers in range exactly when they are in range themselves. -/
theorem parseConfig_safe_iff {ε Node : Type} {y : Yaml ε Node} {path : String} {cfg : Config}
    (h : parseConfig y path = .ok cfg) :
    cfg.Checked ∧ cfg.Typed ∧ (cfg.Safe ↔ cfg.StagesInRange) := by
  obtain ⟨hread, hchecked⟩ := parseConfig_eq_ok_iff.mp h
  exact ⟨hchecked, typed_of_readConfig hread, safe_iff⟩

/-- A document with a stage of 64 is accepted. -/
theorem parseConfig_unsafe :
    ¬ ∀ (ε Node : Type) (y : Yaml ε Node) (path : String) (cfg : Config),
      parseConfig y path = .ok cfg → cfg.Safe := by
  intro h
  have hsafe := h String Doc (Doc.map [("target", .map [("process", .text "nebulaX")]),
      ("probes", .list [.map [("name", .text "io_begin"), ("type", .text "uprobe"),
        ("symbol", .text "io_begin"), ("stage", .number 64)]]),
      ("matchers", .list [.map [("id", .text "io_flow"), ("stages", .list [.number 0, .number 64]),
        ("mode", .text "seq")]])]).yaml "config.yaml"
    ⟨"nebulaX", "", [⟨"io_begin", "uprobe", "io_begin", "", 64, ""⟩],
      [⟨"io_flow", [0, 64], "seq", 4096⟩], []⟩ rfl
  have hrange : InRange 64 := hsafe.wire (a := .shift 64) (by decide)
  exact absurd hrange (by decide)

/-- The same document with stages in range. -/
theorem parseConfig_safe_flow :
    Config.Safe ⟨"nebulaX", "", [⟨"io_begin", "uprobe", "io_begin", "", 63, ""⟩],
      [⟨"io_flow", [0, 63], "seq", 4096⟩], []⟩ := by
  have hparse : parseConfig (Doc.map [("target", .map [("process", .text "nebulaX")]),
      ("probes", .list [.map [("name", .text "io_begin"), ("type", .text "uprobe"),
        ("symbol", .text "io_begin"), ("stage", .number 63)]]),
      ("matchers", .list [.map [("id", .text "io_flow"), ("stages", .list [.number 0, .number 63]),
        ("mode", .text "seq")]])]).yaml "config.yaml" =
      .ok ⟨"nebulaX", "", [⟨"io_begin", "uprobe", "io_begin", "", 63, ""⟩],
        [⟨"io_flow", [0, 63], "seq", 4096⟩], []⟩ := rfl
  exact (parseConfig_safe_iff hparse).2.2.mpr
    ⟨by decide, by decide, by decide, fun _ => by decide⟩

end LensX
