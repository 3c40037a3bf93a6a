import Mathlib.Data.List.Infix
import LensX.System.Queues

/-! # Pairing of two seq matchers through a queue

A report from a stage of one seq matcher to a stage of another one is fed by
the completions of both. While the completions of the consumer neither overtake
those of the producer nor fall behind by more than the capacity, the samples
join the completions in order, whatever the interleaving of the events is.
-/

namespace LensX

open Bitmask Transducer Blocks BoundedQueue

/-- A report between two seq matchers that is connected through a queue of some capacity. No other
seq matcher has its stages and no other report has its name. -/
structure Config.Channel (cfg : Config) (order : IterationOrder) (A B : MatcherConfig)
    (r : ReportConfig) (c : ℕ) : Prop where
  inRange : ∀ mc ∈ cfg.matchers, mc.mode = "seq" → ∀ s ∈ mc.stages, InRange s
  producer : A ∈ cfg.matchers ∧ A.mode = "seq" ∧ r.fromStage ∈ A.stages
  consumer : B ∈ cfg.matchers ∧ B.mode = "seq" ∧ r.toStage ∈ B.stages
  disjoint : ∀ s ∈ A.stages, s ∉ B.stages
  owner : ∀ mc ∈ cfg.matchers, mc.mode = "seq" →
    (r.fromStage ∈ mc.stages → mc = A) ∧ (r.toStage ∈ mc.stages → mc = B)
  report : cfg.reports.filter (·.name = r.name) = [r]
  queue : ∃ q, queueOf cfg order r = some q ∧ q.capacity.toInt = c
  capacity_pos : 1 ≤ c

section Channel

variable {cfg : Config} {order : IterationOrder} {A B : MatcherConfig} {r : ReportConfig} {c : ℕ}

theorem exists_findPart (order : IterationOrder)
    (hr : ∀ mc ∈ cfg.matchers, mc.mode = "seq" → ∀ s ∈ mc.stages, InRange s)
    (hids : ((cfg.matchers.filter (·.mode = "seq")).map (·.id)).Nodup) {mc : MatcherConfig}
    (hm : mc ∈ cfg.matchers) (hmode : mc.mode = "seq") {stage : ℤ} (hs : stage ∈ mc.stages) :
    ∃ p, findPart (baseParts cfg.matchers) (seqEntries cfg order) stage = some p := by
  have hpart : .seq mc.id mc.stages [] ∈ baseParts cfg.matchers :=
    List.mem_filterMap.mpr ⟨mc, hm, part_of_seq hmode⟩
  obtain ⟨i, hi⟩ := List.mem_iff_getElem?.mp hpart
  have hentry : (mc.id, i) ∈ seqEntries cfg order :=
    (order.perm _).mem_iff.mpr ((seqMapInv_baseWiring cfg.matchers).total hids i _ _ _ hi)
  exact findPart_isSome hentry hi
    ((Part.hasStage_seq_iff (hr mc hm hmode) (hr mc hm hmode stage hs)).mpr hs)

variable (h : cfg.Channel order A B r c)
include h

theorem inRange_producer : ∀ s ∈ A.stages, InRange s :=
  h.inRange A h.producer.1 h.producer.2.1

theorem inRange_consumer : ∀ s ∈ B.stages, InRange s :=
  h.inRange B h.consumer.1 h.consumer.2.1

/-- The report connects the two matchers. -/
theorem exists_connection : ∃ p q,
    connection (baseParts cfg.matchers) (seqEntries cfg order) r = some (p, q) ∧ p ≠ q ∧
      (baseParts cfg.matchers)[p]? = some (.seq A.id A.stages []) ∧
      (baseParts cfg.matchers)[q]? = some (.seq B.id B.stages []) := by
  obtain ⟨ring, hq, _⟩ := h.queue
  have hcon : (connection (baseParts cfg.matchers) (seqEntries cfg order) r).isSome := by
    by_contra hno
    simp [queueOf, hno] at hq
  obtain ⟨⟨p, q⟩, hcon⟩ := Option.isSome_iff_exists.mp hcon
  obtain ⟨hp, hq, hne⟩ := connection_eq_some_iff.mp hcon
  obtain ⟨a, ha, hmode, hfrom, hpa⟩ :=
    exists_owner h.inRange (inRange_producer h _ h.producer.2.2) hp
  obtain ⟨b, hb, hmode', hto, hqb⟩ :=
    exists_owner h.inRange (inRange_consumer h _ h.consumer.2.2) hq
  obtain rfl := (h.owner a ha hmode).1 hfrom
  obtain rfl := (h.owner b hb hmode').2 hto
  exact ⟨p, q, hcon, hne, hpa, hqb⟩

/-- The parts of the two matchers; no other part acts on the queue. -/
theorem exists_parts : ∃ p q hooksA hooksB,
    connection (baseParts cfg.matchers) (seqEntries cfg order) r = some (p, q) ∧ p ≠ q ∧
      (parts cfg order)[p]? = some (.seq A.id A.stages hooksA) ∧
      (parts cfg order)[q]? = some (.seq B.id B.stages hooksB) := by
  obtain ⟨p, q, hcon, hpq, hp, hq⟩ := exists_connection h
  have hA := getElem?_parts cfg order p
  have hB := getElem?_parts cfg order q
  rw [hp] at hA
  rw [hq] at hB
  exact ⟨p, q, _, _, hcon, hpq, hA, hB⟩

omit h in
theorem queueOps_part_other (hone : cfg.reports.filter (·.name = r.name) = [r]) {p q : ℕ}
    (hcon : connection (baseParts cfg.matchers) (seqEntries cfg order) r = some (p, q))
    {j : ℕ} {part : Part} (hj : (parts cfg order)[j]? = some part) (hpj : p ≠ j) (hqj : q ≠ j)
    (pre : List RawEvent) (e : RawEvent) : queueOps r (part.callsAt pre e) = [] := by
  cases part with
  | key id stages => rfl
  | seq id stages hooks =>
    rw [queueOps_part hone hcon hj]
    simp [hpj, hqj]

section Event

variable {pre : List RawEvent} {e : RawEvent}

theorem queueOps_of_producer {s : StageSnapshot} (ha : completion A.stages pre e = some s)
    (hb : completion B.stages pre e = none) :
    ∃ x, s.ts r.fromStage = some x ∧
      queueOps r (callsAt (parts cfg order) pre e) = [.push x] := by
  obtain ⟨p, q, hooksA, hooksB, hcon, hpq, hA, hB⟩ := exists_parts h
  obtain ⟨hhas, x, hx⟩ := ts_of_completion (inRange_producer h) ha h.producer.2.2
  refine ⟨x, hx, ?_⟩
  rw [queueOps_callsAt_eq, flatMap_eq_getElem? hA, queueOps_part h.report hcon hA, ha]
  · simp [queueOp_push, hhas, hx, hpq.symm]
  · intro j part hj hne
    by_cases hqj : q = j
    · subst hqj
      obtain rfl := Option.some.inj (hB.symm.trans hj)
      rw [queueOps_part h.report hcon hB, hb]
      rfl
    · exact queueOps_part_other h.report hcon hj hne.symm hqj pre e

theorem queueOps_of_no_producer (ha : completion A.stages pre e = none) :
    (completion B.stages pre e = none ∧ queueOps r (callsAt (parts cfg order) pre e) = []) ∨
      ∃ s y, completion B.stages pre e = some s ∧ s.ts r.toStage = some y ∧
        queueOps r (callsAt (parts cfg order) pre e) = [.pop (y, s.tid)] := by
  obtain ⟨p, q, hooksA, hooksB, hcon, hpq, hA, hB⟩ := exists_parts h
  have hrest : ∀ (j : ℕ) part, (parts cfg order)[j]? = some part → j ≠ q →
      queueOps r (part.callsAt pre e) = [] := by
    intro j part hj hne
    by_cases hpj : p = j
    · subst hpj
      obtain rfl := Option.some.inj (hA.symm.trans hj)
      rw [queueOps_part h.report hcon hA, ha]
      rfl
    · exact queueOps_part_other h.report hcon hj hpj hne.symm pre e
  rw [queueOps_callsAt_eq, flatMap_eq_getElem? hB hrest, queueOps_part h.report hcon hB]
  cases hb : completion B.stages pre e with
  | none => exact Or.inl ⟨rfl, rfl⟩
  | some s =>
    obtain ⟨hhas, y, hy⟩ := ts_of_completion (inRange_consumer h) hb h.consumer.2.2
    refine Or.inr ⟨s, y, rfl, hy, ?_⟩
    simp [queueOp_pop, hhas, hy, hpq]

/-- What an event does to the queue: nothing, or a completion of the producer pushes, or a
completion of the consumer pops. -/
theorem queueOps_callsAt (hlt : ∀ x ∈ pre ++ [e], x.stage < 64) :
    (completion A.stages pre e = none ∧ completion B.stages pre e = none ∧
      queueOps r (callsAt (parts cfg order) pre e) = []) ∨
    (∃ s x, completion A.stages pre e = some s ∧ completion B.stages pre e = none ∧
      s.ts r.fromStage = some x ∧ queueOps r (callsAt (parts cfg order) pre e) = [.push x]) ∨
    ∃ s y, completion A.stages pre e = none ∧ completion B.stages pre e = some s ∧
      s.ts r.toStage = some y ∧
      queueOps r (callsAt (parts cfg order) pre e) = [.pop (y, s.tid)] := by
  cases ha : completion A.stages pre e with
  | some s =>
    -- the event has a stage of the producer, so it is none of the consumer's
    have hb : completion B.stages pre e = none := by
      by_contra hn
      obtain ⟨s', hs'⟩ := Option.ne_none_iff_exists'.mp hn
      exact h.disjoint _ (mem_of_completion (inRange_producer h) hlt ha)
        (mem_of_completion (inRange_consumer h) hlt hs')
    obtain ⟨x, hx, ho⟩ := queueOps_of_producer h ha hb
    exact Or.inr (Or.inl ⟨s, x, rfl, hb, hx, ho⟩)
  | none =>
    rcases queueOps_of_no_producer h ha with ⟨hb, ho⟩ | ⟨s, y, hb, hy, ho⟩
    · exact Or.inl ⟨rfl, hb, ho⟩
    · exact Or.inr (Or.inr ⟨s, y, rfl, hb, hy, ho⟩)

end Event

/-- The pushes are those of the producer's groups and the pops those of the consumer's. -/
theorem histories {evs : List RawEvent} (hlt : ∀ x ∈ evs, x.stage < 64) :
    (pushes (queueOps r (calls (parts cfg order) evs))).map some =
        (groups A.id A.stages evs).map (·.2.ts r.fromStage) ∧
      (pops (queueOps r (calls (parts cfg order) evs))).map (fun y => (some y.1, y.2)) =
        (groups B.id B.stages evs).map fun g => (g.2.ts r.toStage, g.2.tid) := by
  induction evs using List.reverseRecOn with
  | nil => exact ⟨rfl, rfl⟩
  | append_singleton evs e ih =>
    obtain ⟨hA, hB⟩ := ih fun x hx => hlt x (List.mem_append_left _ hx)
    rw [queueOps_calls_concat, groups_concat, groups_concat]
    rcases queueOps_callsAt h hlt with
      ⟨ha, hb, ho⟩ | ⟨s, x, ha, hb, hx, ho⟩ | ⟨s, y, ha, hb, hy, ho⟩
    · simp [ho, ha, hb, hA, hB]
    · simp [ho, ha, hb, hx, hA, hB]
    · simp [ho, ha, hb, hy, hA, hB]

theorem length_histories {evs : List RawEvent} (hlt : ∀ x ∈ evs, x.stage < 64) :
    (pushes (queueOps r (calls (parts cfg order) evs))).length =
        (groups A.id A.stages evs).length ∧
      (pops (queueOps r (calls (parts cfg order) evs))).length =
        (groups B.id B.stages evs).length := by
  obtain ⟨hA, hB⟩ := histories h hlt
  exact ⟨by simpa using congrArg List.length hA, by simpa using congrArg List.length hB⟩

/-- The operations are balanced when the completions are so after every prefix of the events. -/
theorem balanced_queueOps {evs : List RawEvent} (hlt : ∀ x ∈ evs, x.stage < 64)
    (hbal : ∀ pre, pre <+: evs →
      (groups B.id B.stages pre).length ≤ (groups A.id A.stages pre).length ∧
        (groups A.id A.stages pre).length ≤ (groups B.id B.stages pre).length + c) :
    Balanced c (queueOps r (calls (parts cfg order) evs)) := by
  induction evs using List.reverseRecOn with
  | nil =>
    intro pre hp
    rw [List.prefix_nil.mp hp]
    exact ⟨Nat.zero_le _, Nat.zero_le _⟩
  | append_singleton evs e ih =>
    have hold := ih (fun x hx => hlt x (List.mem_append_left _ hx))
      fun pre hp => hbal pre (hp.trans (List.prefix_append _ _))
    have hcount := hbal _ List.prefix_rfl
    rw [← (length_histories h hlt).1, ← (length_histories h hlt).2, queueOps_calls_concat] at hcount
    rw [queueOps_calls_concat]
    rcases queueOps_callsAt h hlt with ⟨_, _, ho⟩ | ⟨_, x, _, _, _, ho⟩ | ⟨s, y, _, _, _, ho⟩
    · rwa [ho, List.append_nil]
    · rw [ho] at hcount ⊢
      exact hold.concat hcount
    · rw [ho] at hcount ⊢
      exact hold.concat hcount

section Balanced

variable {evs : List RawEvent} (hlt : ∀ e ∈ evs, e.stage < 64)
include hlt

omit hlt in
theorem length_pushes_lt (hlen : evs.length < 2 ^ 31) :
    (pushes (queueOps r (calls (parts cfg order) evs))).length < 2 ^ 31 := by
  obtain ⟨_, _, hcon, _⟩ := exists_connection h
  exact (length_pushes_calls h.report hcon evs).trans_lt hlen

variable (csvOpen : Bool)
  (hlim : (pushes (queueOps r (calls (parts cfg order) evs))).length < 2 ^ 31)
include hlim

omit hlt in
theorem fifoSamples_eq : (run cfg order csvOpen evs).world.fifoSamples r.name =
    (paired c (queueOps r (calls (parts cfg order) evs))).map (fifoSample r) := by
  obtain ⟨q, hq, hcap⟩ := h.queue
  exact (run_simulates h.report h.inRange (inRange_producer h _ h.producer.2.2)
    (inRange_consumer h _ h.consumer.2.2) h.capacity_pos hq hcap csvOpen hlim).samples

variable (hbal : ∀ pre, pre <+: evs →
    (groups B.id B.stages pre).length ≤ (groups A.id A.stages pre).length ∧
      (groups A.id A.stages pre).length ≤ (groups B.id B.stages pre).length + c)
include hbal

theorem length_fifoSamples :
    ((run cfg order csvOpen evs).world.fifoSamples r.name).length =
      (groups B.id B.stages evs).length := by
  rw [fifoSamples_eq h csvOpen hlim, List.length_map,
    length_paired (balanced_queueOps h hlt hbal), (length_histories h hlt).2]

/-- A sample joins the groups of both matchers that have its number. -/
theorem getElem?_fifoSamples {n : ℕ} {x : Sample}
    (hx : ((run cfg order csvOpen evs).world.fifoSamples r.name)[n]? = some x) :
    ∃ tsFrom tsTo tid, x = fifoSample r (tsFrom, tsTo, tid) ∧
      ((groups A.id A.stages evs).map (·.2.ts r.fromStage))[n]? = some (some tsFrom) ∧
      ((groups B.id B.stages evs).map fun g => (g.2.ts r.toStage, g.2.tid))[n]? =
        some (some tsTo, tid) := by
  rw [fifoSamples_eq h csvOpen hlim, List.getElem?_map] at hx
  obtain ⟨⟨tsFrom, tsTo, tid⟩, hp, rfl⟩ := Option.map_eq_some_iff.mp hx
  obtain ⟨hpush, hpop⟩ := (getElem?_paired (balanced_queueOps h hlt hbal) n _ _).mp hp
  obtain ⟨hA, hB⟩ := histories h hlt
  refine ⟨tsFrom, tsTo, tid, rfl, ?_, ?_⟩
  · rw [← hA, List.getElem?_map, hpush]
    rfl
  · rw [← hB, List.getElem?_map, hpop]
    rfl

end Balanced

end Channel

/-- While the completions of the consumer follow those of the producer within the capacity, there
is one sample for each completion of the consumer, and the `n`-th one joins the `n`-th
completions of both. -/
theorem fifo_pairs_groups {cfg : Config} {order : IterationOrder} {A B : MatcherConfig}
    {r : ReportConfig} {c : ℕ} (h : cfg.Channel order A B r c) (csvOpen : Bool)
    (evs : List RawEvent) (hlt : ∀ e ∈ evs, e.stage < 64) (hlen : evs.length < 2 ^ 31)
    (hbal : ∀ pre, pre <+: evs →
      (groups B.id B.stages pre).length ≤ (groups A.id A.stages pre).length ∧
        (groups A.id A.stages pre).length ≤ (groups B.id B.stages pre).length + c) :
    let out := (run cfg order csvOpen evs).world.fifoSamples r.name
    out.length = (groups B.id B.stages evs).length ∧
      ∀ (n : ℕ) x, out[n]? = some x → ∃ a b tsFrom tsTo,
        (groups A.id A.stages evs)[n]? = some a ∧ (groups B.id B.stages evs)[n]? = some b ∧
        a.2.ts r.fromStage = some tsFrom ∧ b.2.ts r.toStage = some tsTo ∧
        x.row = ⟨r.fromStage, r.toStage, tsTo - tsFrom, tsFrom, tsTo, b.2.tid⟩ := by
  have hlim := length_pushes_lt h hlen
  refine ⟨length_fifoSamples h hlt csvOpen hlim hbal, fun n x hx => ?_⟩
  obtain ⟨tsFrom, tsTo, tid, rfl, hA, hB⟩ := getElem?_fifoSamples h hlt csvOpen hlim hbal hx
  rw [List.getElem?_map] at hA hB
  obtain ⟨a, ha, hfrom⟩ := Option.map_eq_some_iff.mp hA
  obtain ⟨b, hb, hpair⟩ := Option.map_eq_some_iff.mp hB
  obtain ⟨hto, rfl⟩ := Prod.mk.inj hpair
  exact ⟨a, b, tsFrom, tsTo, ha, hb, hfrom, hto, rfl⟩

/-- Two groups of each thread; the consumer takes the first one while the producer is at work. -/
theorem fifo_pairs_groups_ring :
    ((run ⟨"nebulaX", "", [], [⟨"io_flow", [0, 1], "seq", 4096⟩, ⟨"send_flow", [5, 6], "seq", 4096⟩,
        ⟨"ring", [1, 5], "fifo", 1⟩], [⟨"ring", 1, 5⟩]⟩ default false
      [⟨10, 7, 0, 0⟩, ⟨11, 7, 1, 0⟩, ⟨12, 8, 5, 0⟩, ⟨13, 7, 0, 0⟩, ⟨14, 8, 6, 0⟩, ⟨15, 7, 1, 0⟩,
        ⟨16, 8, 5, 0⟩, ⟨17, 8, 6, 0⟩]).world.fifoSamples "ring").length = 2 :=
  (fifo_pairs_groups (show Config.Channel ⟨"nebulaX", "", [], [⟨"io_flow", [0, 1], "seq", 4096⟩,
      ⟨"send_flow", [5, 6], "seq", 4096⟩, ⟨"ring", [1, 5], "fifo", 1⟩], [⟨"ring", 1, 5⟩]⟩ default
      ⟨"io_flow", [0, 1], "seq", 4096⟩ ⟨"send_flow", [5, 6], "seq", 4096⟩ ⟨"ring", 1, 5⟩ 1 from
    ⟨by decide, by decide, by decide, by decide, by decide, by decide, ⟨_, rfl, rfl⟩, by decide⟩)
    false _ (by decide) (by decide) fun pre hp =>
      (show ∀ p ∈ List.inits _, (groups "send_flow" [5, 6] p).length ≤
          (groups "io_flow" [0, 1] p).length ∧ (groups "io_flow" [0, 1] p).length ≤
            (groups "send_flow" [5, 6] p).length + 1 by decide) pre ((List.mem_inits _ _).mpr hp)).1

end LensX
