import LensX.Fifo.Ring
import LensX.General.Blocks
import LensX.System.Samples

/-! # The queue of a report in a run

The calls of a run contain the pushes and the pops of a report, and the ring of
the report simulates a bounded queue on them. Calls for other reports leave the
ring, its samples and its undefined operations alone.
-/

namespace LensX

open Bitmask Transducer Blocks BoundedQueue

namespace World

/-- The samples of a report by the route of its queue. -/
def fifoSamples (w : World) (name : String) : List Sample :=
  w.samples.filter fun x => x.route = .fifo ∧ x.report = name

/-- Two states that agree on everything that concerns the queue of a report. -/
structure SameQueue (name : String) (w w' : World) : Prop where
  fifos : w'.fifos name = w.fifos name
  samples : w'.fifoSamples name = w.fifoSamples name
  faults : w'.faults.filter (·.1 = name) = w.faults.filter (·.1 = name)

variable {name other : String} {w w' : World}

theorem SameQueue.refl (name : String) (w : World) : SameQueue name w w := ⟨rfl, rfl, rfl⟩

theorem sameQueue_addAll {l : List Sample} (h : ∀ x ∈ l, x.route ≠ .fifo) :
    SameQueue name w (w.addAll l) where
  fifos := by rw [addAll_fifos]
  samples := by
    have hnil : l.filter (fun x => x.route = .fifo ∧ x.report = name) = [] :=
      List.filter_eq_nil_iff.mpr fun x hx => by simp [h x hx]
    rw [fifoSamples, addAll_samples, List.filter_append, hnil, List.append_nil, fifoSamples]
  faults := by rw [addAll_faults]

theorem sameQueue_fault (h : other ≠ name) (u : Undefined) :
    SameQueue name w (w.fault other u) := ⟨rfl, rfl, by simp [fault, h]⟩

theorem sameQueue_update (h : other ≠ name) (q : FifoQueue) :
    SameQueue name w { w with fifos := Function.update w.fifos other (some q) } :=
  ⟨Function.update_of_ne (Ne.symm h) _ _, rfl, rfl⟩

theorem sameQueue_recordBetween (h : other ≠ name) (route : Route) (a b : ℤ)
    (x y : Option UInt64) (tid : UInt32) :
    SameQueue name w (w.recordBetween route other a b x y tid) := by
  unfold recordBetween
  split
  · exact ⟨rfl, by simp [fifoSamples, record, h], rfl⟩
  · exact sameQueue_fault h _

theorem SameQueue.trans {w'' : World} (h : SameQueue name w w') (h' : SameQueue name w' w'') :
    SameQueue name w w'' :=
  ⟨h'.fifos.trans h.fifos, h'.samples.trans h.samples, h'.faults.trans h.faults⟩

theorem sameQueue_pushCb {r : ReportConfig} (h : r.name ≠ name) (s : StageSnapshot) :
    SameQueue name w (pushCb r s w) := by
  unfold pushCb
  split
  · split
    · split
      · exact sameQueue_update h _
      · exact sameQueue_fault h _
    · exact sameQueue_fault h _
    · exact .refl _ _
  · exact .refl _ _

theorem sameQueue_popCb {r : ReportConfig} (h : r.name ≠ name) (s : StageSnapshot) :
    SameQueue name w (popCb r s w) := by
  unfold popCb
  split
  · split
    · split
      · exact (sameQueue_update h _).trans (sameQueue_recordBetween h _ _ _ _ _ _)
      · exact .refl _ _
      · exact sameQueue_fault h _
    · exact .refl _ _
  · exact .refl _ _

end World

/-- The reports whose queue a hook uses. -/
def Hook.report : Hook → Option ReportConfig
  | .pairs => none
  | .push r => some r
  | .pop r => some r

/-- What a call does to the queue of a report; a pop carries the consumer's timestamp and thread. -/
def queueOp (r : ReportConfig) (c : Call) : Option (Op UInt64 (UInt64 × UInt32)) :=
  match c.1 with
  | .pairs => none
  | .push r' =>
    if r' = r ∧ Has c.2.stages r.fromStage then (c.2.ts r.fromStage).map .push else none
  | .pop r' =>
    if r' = r ∧ Has c.2.stages r.toStage then
      (c.2.ts r.toStage).map fun y => .pop (y, c.2.tid)
    else none

def queueOps (r : ReportConfig) (cs : List Call) : List (Op UInt64 (UInt64 × UInt32)) :=
  cs.filterMap (queueOp r)

theorem ts_of_mem_pushes {r : ReportConfig} {cs : List Call} {x : UInt64}
    (h : x ∈ pushes (queueOps r cs)) : ∃ call ∈ cs, call.2.ts r.fromStage = some x := by
  obtain ⟨op, hop, hx⟩ := List.mem_filterMap.mp h
  obtain ⟨⟨k, s⟩, hc, hk⟩ := List.mem_filterMap.mp hop
  refine ⟨_, hc, ?_⟩
  cases k with
  | pairs => simp [queueOp] at hk
  | push r' =>
    simp only [queueOp, Option.ite_none_right_eq_some, Option.map_eq_some_iff] at hk
    obtain ⟨_, x', hx', rfl⟩ := hk
    exact hx'.trans hx
  | pop r' =>
    simp only [queueOp, Option.ite_none_right_eq_some, Option.map_eq_some_iff] at hk
    obtain ⟨_, y, _, rfl⟩ := hk
    simp [Op.pushed] at hx

theorem ts_of_mem_pops {r : ReportConfig} {cs : List Call} {y : UInt64 × UInt32}
    (h : y ∈ pops (queueOps r cs)) : ∃ call ∈ cs, call.2.ts r.toStage = some y.1 := by
  obtain ⟨op, hop, hy⟩ := List.mem_filterMap.mp h
  obtain ⟨⟨k, s⟩, hc, hk⟩ := List.mem_filterMap.mp hop
  refine ⟨_, hc, ?_⟩
  cases k with
  | pairs => simp [queueOp] at hk
  | push r' =>
    simp only [queueOp, Option.ite_none_right_eq_some, Option.map_eq_some_iff] at hk
    obtain ⟨_, x, _, rfl⟩ := hk
    simp [Op.popped] at hy
  | pop r' =>
    simp only [queueOp, Option.ite_none_right_eq_some, Option.map_eq_some_iff] at hk
    obtain ⟨_, y', hy', rfl⟩ := hk
    obtain rfl := Option.some.inj hy
    exact hy'

theorem queueOps_append (r : ReportConfig) (cs cs' : List Call) :
    queueOps r (cs ++ cs') = queueOps r cs ++ queueOps r cs' := by
  simp only [queueOps, List.filterMap_append]

theorem queueOps_calls_concat (r : ReportConfig) (ps : List Part) (evs : List RawEvent)
    (e : RawEvent) :
    queueOps r (calls ps (evs ++ [e])) =
      queueOps r (calls ps evs) ++ queueOps r (callsAt ps evs e) := by
  rw [calls_concat, queueOps_append]

theorem queueOps_callsAt_eq (r : ReportConfig) (ps : List Part) (pre : List RawEvent)
    (e : RawEvent) :
    queueOps r (callsAt ps pre e) = ps.flatMap fun part => queueOps r (part.callsAt pre e) := by
  simp only [queueOps, callsAt, List.filterMap_flatMap]

/-- The sample of a pushed timestamp and the pop that returns it. -/
def fifoSample (r : ReportConfig) (p : UInt64 × UInt64 × UInt32) : Sample :=
  ⟨.fifo, r.name, ⟨r.fromStage, r.toStage, p.2.1 - p.1, p.1, p.2.1, p.2.2⟩⟩

/-- The ring of a report represents the bounded queue after some operations, the samples of the
report are the pairs that these emitted, and nothing undefined has happened. -/
structure Simulates (c : ℕ) (r : ReportConfig) (ops : List (Op UInt64 (UInt64 × UInt32)))
    (w : World) : Prop where
  ring : ∃ q n, w.fifos r.name = some q ∧ Represents c q n (contents c ops) ∧
    n + (contents c ops).items.length = (pushes ops).length
  samples : w.fifoSamples r.name = (paired c ops).map (fifoSample r)
  faults : w.faults.filter (·.1 = r.name) = []

section Simulation

variable {c : ℕ} {r : ReportConfig} {ops : List (Op UInt64 (UInt64 × UInt32))} {w w' : World}

theorem Simulates.congr (h : Simulates c r ops w) (hs : w.SameQueue r.name w') :
    Simulates c r ops w' where
  ring := by
    obtain ⟨q, n, hq, h⟩ := h.ring
    exact ⟨q, n, hs.fifos.trans hq, h⟩
  samples := hs.samples.trans h.samples
  faults := hs.faults.trans h.faults

theorem Simulates.push (hc : 0 < c) (h : Simulates c r ops w)
    (hlim : (pushes ops).length + 1 < 2 ^ 31) {s : StageSnapshot} {x : UInt64}
    (hs : Has s.stages r.fromStage) (hx : s.ts r.fromStage = some x) :
    Simulates c r (ops ++ [.push x]) (pushCb r s w) := by
  obtain ⟨q, n, hq, hrep, hlen⟩ := h.ring
  obtain ⟨q', n', hpush, hrep', hlen'⟩ := push_spec hc hrep (by omega) r.fromStage x
  have hw : pushCb r s w = { w with fifos := Function.update w.fifos r.name (some q') } := by
    simp [pushCb, hs, hx, hq, hpush]
  rw [hw]
  refine ⟨⟨q', n', Function.update_self .., ?_, ?_⟩, ?_, h.faults⟩
  · rwa [contents_concat_push]
  · rw [contents_concat_push, pushes_concat_push, List.length_append, List.length_singleton, ← hlen]
    exact hlen'
  · rw [paired_concat_push, ← h.samples]
    rfl

theorem Simulates.pop (hc : 0 < c) (h : Simulates c r ops w) {s : StageSnapshot} {y : UInt64}
    (hs : Has s.stages r.toStage) (hy : s.ts r.toStage = some y) :
    Simulates c r (ops ++ [.pop (y, s.tid)]) (popCb r s w) := by
  obtain ⟨q, n, hq, hrep, hlen⟩ := h.ring
  cases hp : (contents c ops).pop with
  | none =>
    have hw : popCb r s w = w := by simp [popCb, hs, hq, pop_spec_none hrep hp]
    obtain ⟨hcont, hout⟩ := concat_pop_none (y := (y, s.tid)) hp
    rw [hw]
    refine ⟨⟨q, n, hq, hcont ▸ hrep, by rw [hcont, pushes_concat_pop, hlen]⟩, ?_, h.faults⟩
    rw [hout, h.samples]
  | some xa =>
    obtain ⟨x, a⟩ := xa
    obtain ⟨q', hpop, hrep'⟩ := pop_spec_some hc hrep hp r.toStage none
    have hw : popCb r s w =
        { w with fifos := Function.update w.fifos r.name (some q') }.add
          (fifoSample r (x, y, s.tid)) := by
      simp [popCb, hs, hy, hq, hpop, World.recordBetween, World.add, fifoSample]
    have hitems := congrArg List.length (Queue.items_of_pop hp)
    rw [List.length_cons] at hitems
    obtain ⟨rfl, hout⟩ := concat_pop_some (y := (y, s.tid)) hp
    rw [hw]
    refine ⟨⟨q', n + 1, Function.update_self .., hrep', ?_⟩, ?_, h.faults⟩
    · rw [pushes_concat_pop]
      omega
    · rw [hout, List.map_append, ← h.samples, World.fifoSamples, World.add_samples,
        List.filter_append]
      simp [World.fifoSamples, fifoSample]

variable (keys : ReportKeys) {call : Call} (ha : call.2.Assigned)
  (hn : ∀ r', call.1.report = some r' → r'.name = r.name → r' = r)
include ha hn

/-- A call without an operation leaves the queue of a report alone. -/
theorem sameQueue_apply (hf : InRange r.fromStage) (ht : InRange r.toStage)
    (ho : queueOp r call = none) : w.SameQueue r.name (call.apply keys w) := by
  obtain ⟨k, s⟩ := call
  cases k with
  | pairs =>
    change w.SameQueue r.name (recordPairs keys s w)
    rw [recordPairs_eq keys ha]
    exact World.sameQueue_addAll fun x hx => by simp [route_of_mem_pairSamples hx]
  | push r' =>
    by_cases hr : r' = r
    · subst hr
      by_cases hs : Has s.stages r'.fromStage
      · obtain ⟨x, hx⟩ := ha _ hf hs
        have hx : s.ts r'.fromStage = some x := hx
        simp [queueOp, hs, hx] at ho
      · have hw : Call.apply keys w (.push r', s) = w := if_neg hs
        exact hw.symm ▸ .refl _ _
    · exact World.sameQueue_pushCb (fun he => hr (hn r' rfl he)) s
  | pop r' =>
    by_cases hr : r' = r
    · subst hr
      by_cases hs : Has s.stages r'.toStage
      · obtain ⟨y, hy⟩ := ha _ ht hs
        have hy : s.ts r'.toStage = some y := hy
        simp [queueOp, hs, hy] at ho
      · have hw : Call.apply keys w (.pop r', s) = w := if_neg hs
        exact hw.symm ▸ .refl _ _
    · exact World.sameQueue_popCb (fun he => hr (hn r' rfl he)) s

/-- One call keeps the simulation. -/
theorem Simulates.apply (hc : 0 < c) (hf : InRange r.fromStage) (ht : InRange r.toStage)
    (h : Simulates c r ops w) (hlim : (pushes (ops ++ queueOps r [call])).length < 2 ^ 31) :
    Simulates c r (ops ++ queueOps r [call]) (call.apply keys w) := by
  obtain ⟨k, s⟩ := call
  cases ho : queueOp r (k, s) with
  | none =>
    simp only [queueOps, List.filterMap_cons, ho, List.filterMap_nil, List.append_nil]
    exact h.congr (sameQueue_apply keys ha hn hf ht ho)
  | some op =>
    simp only [queueOps, List.filterMap_cons, ho, List.filterMap_nil] at hlim ⊢
    cases k with
    | pairs => simp [queueOp] at ho
    | push r' =>
      simp only [queueOp, Option.ite_none_right_eq_some, Option.map_eq_some_iff] at ho
      obtain ⟨⟨rfl, hs⟩, x, hx, rfl⟩ := ho
      rw [pushes_concat_push, List.length_append, List.length_singleton] at hlim
      exact h.push hc hlim hs hx
    | pop r' =>
      simp only [queueOp, Option.ite_none_right_eq_some, Option.map_eq_some_iff] at ho
      obtain ⟨⟨rfl, hs⟩, y, hy, rfl⟩ := ho
      exact h.pop hc hs hy

end Simulation

/-- Only the callbacks of a report's queue run into undefined operations. -/
theorem report_of_mem_faults (keys : ReportKeys) {call : Call} (ha : call.2.Assigned) {w : World}
    {f : String × Undefined} (hf : f ∈ (call.apply keys w).faults) :
    f ∈ w.faults ∨ ∃ r, call.1.report = some r ∧ f.1 = r.name := by
  obtain ⟨k, s⟩ := call
  by_contra hn
  obtain ⟨hold, hname⟩ := not_or.mp hn
  have hfilter : f ∈ (Call.apply keys w (k, s)).faults.filter (·.1 = f.1) :=
    List.mem_filter.mpr ⟨hf, by simp⟩
  have hsame : (Call.apply keys w (k, s)).faults.filter (·.1 = f.1) =
      w.faults.filter (·.1 = f.1) := by
    cases k with
    | pairs =>
      change (recordPairs keys s w).faults.filter _ = _
      rw [recordPairs_eq keys ha, World.addAll_faults]
    | push r => exact (World.sameQueue_pushCb (fun he => hname ⟨r, rfl, he.symm⟩) s).faults
    | pop r => exact (World.sameQueue_popCb (fun he => hname ⟨r, rfl, he.symm⟩) s).faults
  rw [hsame] at hfilter
  exact hold (List.mem_filter.mp hfilter).1

theorem report_of_mem_faults_foldl (keys : ReportKeys) {cs : List Call}
    (ha : ∀ call ∈ cs, call.2.Assigned) {w : World} {f : String × Undefined}
    (hf : f ∈ (cs.foldl (Call.apply keys) w).faults) :
    f ∈ w.faults ∨ ∃ call ∈ cs, ∃ r, call.1.report = some r ∧ f.1 = r.name := by
  induction cs using List.reverseRecOn with
  | nil => exact Or.inl hf
  | append_singleton cs call ih =>
    rw [List.foldl_append, List.foldl_cons, List.foldl_nil] at hf
    rcases report_of_mem_faults keys (ha call (by simp)) hf with hf | hr
    · refine (ih (fun c hc => ha c (List.mem_append_left _ hc)) hf).imp_right ?_
      rintro ⟨c, hc, h⟩
      exact ⟨c, List.mem_append_left _ hc, h⟩
    · exact Or.inr ⟨call, by simp, hr⟩

/-- Calls keep the simulation as long as the counters of the ring do not overflow. -/
theorem simulates_foldl {c : ℕ} (hc : 0 < c) {r : ReportConfig} (hf : InRange r.fromStage)
    (ht : InRange r.toStage) (keys : ReportKeys) {cs : List Call}
    (ha : ∀ call ∈ cs, call.2.Assigned)
    (hn : ∀ call ∈ cs, ∀ r', call.1.report = some r' → r'.name = r.name → r' = r) {w : World}
    (h : Simulates c r [] w) (hlim : (pushes (queueOps r cs)).length < 2 ^ 31) :
    Simulates c r (queueOps r cs) (cs.foldl (Call.apply keys) w) := by
  induction cs using List.reverseRecOn with
  | nil => exact h
  | append_singleton cs call ih =>
    have hle : (pushes (queueOps r cs)).length ≤ (pushes (queueOps r (cs ++ [call]))).length := by
      rw [queueOps_append, pushes_append, List.length_append]
      omega
    have hcs := ih (fun x hx => ha x (List.mem_append_left _ hx))
      (fun x hx => hn x (List.mem_append_left _ hx)) (by omega)
    rw [queueOps_append] at hlim ⊢
    rw [List.foldl_append, List.foldl_cons, List.foldl_nil]
    exact hcs.apply keys (ha call (by simp)) (hn call (by simp)) hc hf ht hlim

section Run

variable {cfg : Config} {order : IterationOrder} {r : ReportConfig}

/-- The queue through which the wiring connects a report. -/
def queueOf (cfg : Config) (order : IterationOrder) (r : ReportConfig) : Option FifoQueue :=
  if (connection (baseParts cfg.matchers) (seqEntries cfg order) r).isSome then
    (wire cfg order).fifos r.name
  else none

theorem queueOf_eq_new (hr : r ∈ cfg.reports) {q : FifoQueue} (hq : queueOf cfg order r = some q) :
    (wire cfg order).fifos r.name = some q ∧ ∃ id, q = .new id q.capacity := by
  unfold queueOf at hq
  split at hq
  · next hcon =>
    refine ⟨hq, ?_⟩
    rw [wire_fifos, if_pos ⟨r, hr, rfl, hcon⟩] at hq
    cases hb : (baseWiring cfg.matchers).fifos r.name with
    | none =>
      rw [hb] at hq
      obtain rfl := Option.some.inj hq
      exact ⟨_, rfl⟩
    | some q' =>
      rw [hb] at hq
      obtain rfl := Option.some.inj hq
      obtain ⟨mc, _, _, _, _, rfl⟩ := baseWiring_fifos hb
      exact ⟨_, rfl⟩
  · exact absurd hq (by simp)

theorem simulates_init {c : ℕ} (hr : r ∈ cfg.reports) {q : FifoQueue}
    (hq : queueOf cfg order r = some q) (hcap : q.capacity.toInt = c) (csvOpen : Bool) :
    Simulates c r [] (Tracer.init cfg order csvOpen).world := by
  obtain ⟨hw, id, hnew⟩ := queueOf_eq_new hr hq
  refine ⟨⟨q, 0, hw, ?_, rfl⟩, rfl, rfl⟩
  rw [hnew]
  exact .new id hcap

/-- A call for a report belongs to a report of the configuration that is connected. -/
theorem report_of_mem_calls {evs : List RawEvent} {call : Call}
    (h : call ∈ calls (parts cfg order) evs) {r' : ReportConfig}
    (hk : call.1.report = some r') :
    r' ∈ cfg.reports ∧
      (connection (baseParts cfg.matchers) (seqEntries cfg order) r').isSome := by
  obtain ⟨_, _, id, stages, hooks, _, hp, hh, _⟩ := mem_calls h
  obtain ⟨i, hi⟩ := List.mem_iff_getElem?.mp hp
  rcases hook_of_parts hi hh with hpairs | ⟨r, hr, p, q, hcon, ⟨hpush, _⟩ | ⟨hpop, _⟩⟩
  · simp [hpairs, Hook.report] at hk
  · obtain rfl : r = r' := by simpa [hpush, Hook.report] using hk
    exact ⟨hr, by simp [hcon]⟩
  · obtain rfl : r = r' := by simpa [hpop, Hook.report] using hk
    exact ⟨hr, by simp [hcon]⟩

theorem filterMap_hooksAt {β : Type*} (f : Hook → Option β) (regs : List (ℕ × Hook)) (i : ℕ) :
    (hooksAt regs i).filterMap f = regs.filterMap fun g => if g.1 = i then f g.2 else none := by
  rw [hooksAt, List.filterMap_map, List.filterMap_filter]
  simp

theorem queueOp_of_ne {k : Hook} (s : StageSnapshot) (h : k.report ≠ some r) :
    queueOp r (k, s) = none := by
  cases k with
  | pairs => rfl
  | push r' => exact if_neg fun he => h (congrArg some he.1)
  | pop r' => exact if_neg fun he => h (congrArg some he.1)

theorem queueOp_push (r : ReportConfig) (s : StageSnapshot) :
    queueOp r (.push r, s) =
      if Has s.stages r.fromStage then (s.ts r.fromStage).map .push else none := by
  simp [queueOp]

theorem queueOp_pop (r : ReportConfig) (s : StageSnapshot) :
    queueOp r (.pop r, s) =
      if Has s.stages r.toStage then (s.ts r.toStage).map fun y => .pop (y, s.tid) else none := by
  simp [queueOp]

variable (cfg order) in
/-- The hooks of another report do not act on the queue. -/
theorem filterMap_connectHooks {r' : ReportConfig} (hn : r'.name ≠ r.name) (s : StageSnapshot)
    (i : ℕ) : (connectHooks (baseParts cfg.matchers) (seqEntries cfg order) r').filterMap
      (fun g => if g.1 = i then queueOp r (g.2, s) else none) = [] := by
  have hne : r' ≠ r := fun he => hn (congrArg ReportConfig.name he)
  rw [List.filterMap_eq_nil_iff]
  intro g hg
  unfold connectHooks at hg
  split at hg
  · have hrep : g.2.report = some r' := by
      rcases List.mem_cons.mp hg with rfl | hg
      · rfl
      · exact (List.mem_singleton.mp hg) ▸ rfl
    rw [queueOp_of_ne s (by simpa [hrep] using hne), ite_self]
  · exact absurd hg List.not_mem_nil

variable (hone : cfg.reports.filter (·.name = r.name) = [r])
include hone

theorem mem_reports : r ∈ cfg.reports := by
  have h : r ∈ cfg.reports.filter (·.name = r.name) := hone ▸ List.mem_singleton_self r
  exact (List.mem_filter.mp h).1

theorem report_unique {r' : ReportConfig} (hr : r' ∈ cfg.reports) (hn : r'.name = r.name) :
    r' = r := by
  have h : r' ∈ cfg.reports.filter (·.name = r.name) := List.mem_filter.mpr ⟨hr, by simpa using hn⟩
  rw [hone] at h
  exact List.mem_singleton.mp h

/-- Among the hooks of a part only those of the report itself act on its queue. -/
theorem filterMap_queueOp {p q : ℕ}
    (hcon : connection (baseParts cfg.matchers) (seqEntries cfg order) r = some (p, q))
    (s : StageSnapshot) (i : ℕ) :
    (hooksAt (registrations cfg order) i).filterMap (fun k => queueOp r (k, s)) =
      (if p = i then (queueOp r (.push r, s)).toList else []) ++
        (if q = i then (queueOp r (.pop r, s)).toList else []) := by
  obtain ⟨l₁, l₂, hl, h₁, _, h₂⟩ := List.filter_eq_cons_iff.mp hone
  rw [List.filter_eq_nil_iff] at h₂
  have hnil₁ := List.flatMap_eq_nil_iff.mpr fun r' hr' =>
    filterMap_connectHooks cfg order (by simpa using h₁ r' hr') s i
  have hnil₂ := List.flatMap_eq_nil_iff.mpr fun r' hr' =>
    filterMap_connectHooks cfg order (by simpa using h₂ r' hr') s i
  have hpairs : ((seqEntries cfg order).map fun en => (en.2, Hook.pairs)).filterMap
      (fun g => if g.1 = i then queueOp r (g.2, s) else none) = [] := by
    rw [List.filterMap_eq_nil_iff]
    intro g hg
    obtain ⟨en, _, rfl⟩ := List.mem_map.mp hg
    rw [queueOp_of_ne s (by simp [Hook.report]), ite_self]
  rw [filterMap_hooksAt, registrations, List.filterMap_append, hpairs, List.nil_append, hl,
    List.flatMap_append, List.flatMap_cons, List.filterMap_append, List.filterMap_append,
    List.filterMap_flatMap, List.filterMap_flatMap, hnil₁, hnil₂, connectHooks, hcon]
  cases hpush : queueOp r (.push r, s) <;> cases hpop : queueOp r (.pop r, s) <;>
    by_cases hp : p = i <;> by_cases hq : q = i <;> simp [hpush, hpop, hp, hq]

section Event

variable {p q : ℕ}
  (hcon : connection (baseParts cfg.matchers) (seqEntries cfg order) r = some (p, q))
include hcon

/-- The operations of a part at an event. -/
theorem queueOps_part {i : ℕ} {id : String} {stages : List ℤ} {hooks : List Hook}
    (hi : (parts cfg order)[i]? = some (.seq id stages hooks)) (pre : List RawEvent)
    (e : RawEvent) :
    queueOps r ((Part.seq id stages hooks).callsAt pre e) =
      (completion stages pre e).toList.flatMap fun s =>
        (if p = i then (queueOp r (.push r, s)).toList else []) ++
          (if q = i then (queueOp r (.pop r, s)).toList else []) := by
  rw [queueOps, Part.callsAt, List.filterMap_flatMap]
  refine List.flatMap_congr fun s _ => ?_
  rw [List.filterMap_map, (parts_seq hi).1, ← filterMap_queueOp hone hcon]
  rfl

theorem length_pushes_part {i : ℕ} {part : Part} (hi : (parts cfg order)[i]? = some part)
    (pre : List RawEvent) (e : RawEvent) :
    (pushes (queueOps r (part.callsAt pre e))).length ≤ if p = i then 1 else 0 := by
  cases part with
  | key id stages => exact Nat.zero_le _
  | seq id stages hooks =>
    rw [queueOps_part hone hcon hi]
    cases completion stages pre e with
    | none => exact Nat.zero_le _
    | some s =>
      have hpush : (pushes (queueOp r (.push r, s)).toList).length ≤ 1 :=
        (List.length_filterMap_le _ _).trans Option.length_toList_le
      have hpop : pushes (queueOp r (.pop r, s)).toList = [] := by
        rw [queueOp_pop]
        split
        · cases s.ts r.toStage <;> rfl
        · rfl
      by_cases hp : p = i
      · by_cases hq : q = i <;> simpa [hp, hq, hpop] using hpush
      · by_cases hq : q = i <;> simp [hp, hq, hpop]

theorem length_pushes_callsAt (pre : List RawEvent) (e : RawEvent) :
    (pushes (queueOps r (callsAt (parts cfg order) pre e))).length ≤ 1 := by
  rw [queueOps_callsAt_eq, pushes_flatMap]
  cases hp : (parts cfg order)[p]? with
  | none =>
    rw [List.flatMap_eq_nil_iff.mpr]
    · simp
    · intro part hpart
      obtain ⟨j, hj⟩ := List.mem_iff_getElem?.mp hpart
      have hle := length_pushes_part hone hcon hj pre e
      rw [if_neg (by rintro rfl; simp [hp] at hj)] at hle
      exact List.length_eq_zero_iff.mp (by omega)
  | some part =>
    rw [flatMap_eq_getElem? hp]
    · simpa using length_pushes_part hone hcon hp pre e
    · intro j part' hj hne
      have hle := length_pushes_part hone hcon hj pre e
      rw [if_neg (Ne.symm hne)] at hle
      exact List.length_eq_zero_iff.mp (by omega)

/-- A report is pushed at most once for every event. -/
theorem length_pushes_calls (evs : List RawEvent) :
    (pushes (queueOps r (calls (parts cfg order) evs))).length ≤ evs.length := by
  induction evs using List.reverseRecOn with
  | nil => simp [calls, queueOps, pushes]
  | append_singleton evs e ih =>
    have hle := length_pushes_callsAt hone hcon evs e
    rw [queueOps_calls_concat, pushes_append, List.length_append, List.length_append,
      List.length_singleton]
    exact Nat.add_le_add ih hle

end Event

/-- In a run the queue of a connected report behaves as a bounded queue, as long as fewer than
`2^31` timestamps are pushed. -/
theorem run_simulates (hr : ∀ mc ∈ cfg.matchers, mc.mode = "seq" → ∀ s ∈ mc.stages, InRange s)
    (hf : InRange r.fromStage) (ht : InRange r.toStage) {c : ℕ} (hc : 0 < c) {q : FifoQueue}
    (hq : queueOf cfg order r = some q) (hcap : q.capacity.toInt = c) (csvOpen : Bool)
    {evs : List RawEvent}
    (hlim : (pushes (queueOps r (calls (parts cfg order) evs))).length < 2 ^ 31) :
    Simulates c r (queueOps r (calls (parts cfg order) evs)) (run cfg order csvOpen evs).world := by
  have hinit := simulates_init (mem_reports hone) hq hcap csvOpen
  have hbefore := simulates_foldl hc hf ht (reportKeys cfg.reports)
    (fun call hm => assigned_of_mem_calls hr order evs hm)
    (fun call hm r' hk hn => report_unique hone (report_of_mem_calls hm hk).1 hn) hinit hlim
  rw [run_world_eq]
  refine hbefore.congr (World.sameQueue_addAll fun x hx => ?_)
  rw [route_of_mem_drainSamples hx]
  simp

end Run

end LensX
