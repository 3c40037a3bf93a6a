import LensX.General.Matching
import LensX.System.Pairing

/-! # What the queue of a report pairs

In any run, with lost, repeated and surplus groups on either side, the samples
of a queue join groups of the producer and of the consumer in increasing order,
and no other pairing within the capacity would record more of them.
-/

namespace LensX

open Bitmask Transducer Blocks BoundedQueue

/-- The `i`-th group of the producer is among the last `c` ones that are complete when the consumer
completes its `j`-th group. -/
def InReach (A B : MatcherConfig) (c : ℕ) (evs : List RawEvent) (i j : ℕ) : Prop :=
  ∃ pre e, pre ++ [e] <+: evs ∧ (completion B.stages pre e).isSome ∧
    (groups B.id B.stages pre).length = j ∧ i < (groups A.id A.stages pre).length ∧
    (groups A.id A.stages pre).length ≤ i + c

/-- A sample from the stage of the one group to the stage of the other. -/
def JoinsGroups (A B : MatcherConfig) (r : ReportConfig) (evs : List RawEvent) (x : Sample)
    (p : ℕ × ℕ) : Prop :=
  ∃ a b tsFrom tsTo,
    (groups A.id A.stages evs)[p.1]? = some a ∧ (groups B.id B.stages evs)[p.2]? = some b ∧
    a.2.ts r.fromStage = some tsFrom ∧ b.2.ts r.toStage = some tsTo ∧
    x.row = ⟨r.fromStage, r.toStage, tsTo - tsFrom, tsFrom, tsTo, b.2.tid⟩

variable {cfg : Config} {order : IterationOrder} {A B : MatcherConfig} {r : ReportConfig} {c : ℕ}
  {evs : List RawEvent}

theorem inReach_concat {e : RawEvent} {i j : ℕ} : InReach A B c (evs ++ [e]) i j ↔
    InReach A B c evs i j ∨ (completion B.stages evs e).isSome ∧
      (groups B.id B.stages evs).length = j ∧ i < (groups A.id A.stages evs).length ∧
      (groups A.id A.stages evs).length ≤ i + c := by
  constructor
  · rintro ⟨pre, e', hp, h⟩
    rcases List.prefix_concat_iff.mp hp with heq | hp
    · obtain ⟨rfl, hsingle⟩ := List.append_inj' heq rfl
      obtain rfl := List.singleton_inj.mp hsingle
      exact Or.inr h
    · exact Or.inl ⟨pre, e', hp, h⟩
  · rintro (⟨pre, e', hp, h⟩ | h)
    · exact ⟨pre, e', hp.trans (List.prefix_append _ _), h⟩
    · exact ⟨evs, e, List.prefix_rfl, h⟩

section Channel

variable (h : cfg.Channel order A B r c) (hlt : ∀ e ∈ evs, e.stage < 64)
include h hlt

/-- A group is in reach of another one when its push is offered to the other's pop. -/
theorem offers_queueOps_iff {i j : ℕ} :
    Offers c (queueOps r (calls (parts cfg order) evs)) i j ↔ InReach A B c evs i j := by
  induction evs using List.reverseRecOn with
  | nil =>
    constructor
    · rintro ⟨pre, y, hp, -⟩
      exact absurd (List.prefix_nil.mp hp) (by simp)
    · rintro ⟨pre, e, hp, -⟩
      exact absurd (List.prefix_nil.mp hp) (by simp)
  | append_singleton evs e ih =>
    have hold := ih fun x hx => hlt x (List.mem_append_left _ hx)
    obtain ⟨hpushes, hpops⟩ := length_histories h fun x hx => hlt x (List.mem_append_left _ hx)
    rw [inReach_concat, queueOps_calls_concat, ← hpushes, ← hpops]
    rcases queueOps_callsAt h hlt with
      ⟨-, hb, ho⟩ | ⟨s, x, -, hb, -, ho⟩ | ⟨s, y, -, hb, -, ho⟩
    · simp [ho, hb, hold]
    · simp [ho, hb, hold, offers_concat_push]
    · simp [ho, hb, hold, offers_concat_pop, eq_comm]

theorem joinsGroups_of_joins {p : UInt64 × UInt64 × UInt32} {ij : ℕ × ℕ}
    (hj : Joins (queueOps r (calls (parts cfg order) evs)) p ij) :
    JoinsGroups A B r evs (fifoSample r p) ij := by
  obtain ⟨tsFrom, tsTo, tid⟩ := p
  obtain ⟨hpush, hpop⟩ := hj
  obtain ⟨hA, hB⟩ := histories h hlt
  have hfrom : ((groups A.id A.stages evs).map (·.2.ts r.fromStage))[ij.1]? =
      some (some tsFrom) := by
    rw [← hA, List.getElem?_map, hpush]
    rfl
  have hto : ((groups B.id B.stages evs).map fun g => (g.2.ts r.toStage, g.2.tid))[ij.2]? =
      some (some tsTo, tid) := by
    rw [← hB, List.getElem?_map, hpop]
    rfl
  rw [List.getElem?_map, Option.map_eq_some_iff] at hfrom hto
  obtain ⟨a, ha, hfrom⟩ := hfrom
  obtain ⟨b, hb, hpair⟩ := hto
  obtain ⟨hts, rfl⟩ := Prod.mk.inj hpair
  exact ⟨a, b, tsFrom, tsTo, ha, hb, hfrom, hts, rfl⟩

end Channel

/-- The samples join groups of the two matchers in increasing order, every group at most once and
only groups that are in reach of each other. -/
theorem fifo_joins (h : cfg.Channel order A B r c) (csvOpen : Bool) (evs : List RawEvent)
    (hlt : ∀ e ∈ evs, e.stage < 64) (hlen : evs.length < 2 ^ 31) :
    ∃ m : List (ℕ × ℕ), m.Pairwise (fun p q => p.1 < q.1 ∧ p.2 < q.2) ∧
      (∀ p ∈ m, InReach A B c evs p.1 p.2) ∧
      List.Forall₂ (JoinsGroups A B r evs)
        ((run cfg order csvOpen evs).world.fifoSamples r.name) m := by
  obtain ⟨m, hsorted, hoffers, hjoins⟩ :=
    exists_joins c (queueOps r (calls (parts cfg order) evs))
  refine ⟨m, hsorted, fun p hp => (offers_queueOps_iff h hlt).mp (hoffers p hp), ?_⟩
  rw [fifoSamples_eq h csvOpen (length_pushes_lt h hlen), List.forall₂_map_left_iff]
  exact hjoins.imp fun p ij hj => joinsGroups_of_joins h hlt hj

/-- The producer completes two groups before the consumer takes one from a queue for one, so the
first of them is lost and a second pop finds nothing. -/
theorem fifo_joins_ring :
    ∃ m : List (ℕ × ℕ), m.Pairwise (fun p q => p.1 < q.1 ∧ p.2 < q.2) ∧
      (∀ p ∈ m, InReach ⟨"io_flow", [0, 1], "seq", 4096⟩ ⟨"send_flow", [5, 6], "seq", 4096⟩ 1
        [⟨10, 7, 0, 0⟩, ⟨11, 7, 1, 0⟩, ⟨12, 7, 0, 0⟩, ⟨13, 7, 1, 0⟩, ⟨14, 8, 5, 0⟩, ⟨15, 8, 6, 0⟩,
          ⟨16, 8, 5, 0⟩, ⟨17, 8, 6, 0⟩] p.1 p.2) ∧ m.length = 1 := by
  obtain ⟨m, hsorted, hreach, hjoins⟩ := fifo_joins (show Config.Channel ⟨"nebulaX", "", [],
      [⟨"io_flow", [0, 1], "seq", 4096⟩, ⟨"send_flow", [5, 6], "seq", 4096⟩,
        ⟨"ring", [1, 5], "fifo", 1⟩], [⟨"ring", 1, 5⟩]⟩ default
      ⟨"io_flow", [0, 1], "seq", 4096⟩ ⟨"send_flow", [5, 6], "seq", 4096⟩ ⟨"ring", 1, 5⟩ 1 from
    ⟨by decide, by decide, by decide, by decide, by decide, by decide, ⟨_, rfl, rfl⟩, by decide⟩)
    false [⟨10, 7, 0, 0⟩, ⟨11, 7, 1, 0⟩, ⟨12, 7, 0, 0⟩, ⟨13, 7, 1, 0⟩, ⟨14, 8, 5, 0⟩,
      ⟨15, 8, 6, 0⟩, ⟨16, 8, 5, 0⟩, ⟨17, 8, 6, 0⟩] (by decide) (by decide)
  exact ⟨m, hsorted, hreach, hjoins.length_eq.symm.trans (by decide)⟩

/-- No pairing of groups that are in reach of each other has more pairs than there are samples. -/
theorem fifo_maximum (h : cfg.Channel order A B r c) (csvOpen : Bool) (evs : List RawEvent)
    (hlt : ∀ e ∈ evs, e.stage < 64) (hlen : evs.length < 2 ^ 31) {M : Finset (ℕ × ℕ)}
    (hM : IsMatching (InReach A B c evs) M) :
    M.card ≤ ((run cfg order csvOpen evs).world.fifoSamples r.name).length := by
  have hoffers : IsMatching (Offers c (queueOps r (calls (parts cfg order) evs))) M :=
    hM.mono subset_rfl fun p _ hp => (offers_queueOps_iff h hlt).mpr hp
  rw [fifoSamples_eq h csvOpen (length_pushes_lt h hlen), List.length_map]
  exact card_le_length_paired hoffers

/-- The second group of the producer is in reach of the first one of the consumer. -/
theorem fifo_maximum_ring :
    1 ≤ ((run ⟨"nebulaX", "", [], [⟨"io_flow", [0, 1], "seq", 4096⟩,
        ⟨"send_flow", [5, 6], "seq", 4096⟩, ⟨"ring", [1, 5], "fifo", 1⟩], [⟨"ring", 1, 5⟩]⟩ default
      false [⟨10, 7, 0, 0⟩, ⟨11, 7, 1, 0⟩, ⟨12, 7, 0, 0⟩, ⟨13, 7, 1, 0⟩, ⟨14, 8, 5, 0⟩,
        ⟨15, 8, 6, 0⟩]).world.fifoSamples "ring").length :=
  fifo_maximum (show Config.Channel ⟨"nebulaX", "", [], [⟨"io_flow", [0, 1], "seq", 4096⟩,
      ⟨"send_flow", [5, 6], "seq", 4096⟩, ⟨"ring", [1, 5], "fifo", 1⟩], [⟨"ring", 1, 5⟩]⟩ default
      ⟨"io_flow", [0, 1], "seq", 4096⟩ ⟨"send_flow", [5, 6], "seq", 4096⟩ ⟨"ring", 1, 5⟩ 1 from
    ⟨by decide, by decide, by decide, by decide, by decide, by decide, ⟨_, rfl, rfl⟩, by decide⟩)
    false _ (by decide) (by decide) (M := {(1, 0)})
    ⟨by simp, by simp, by
      rintro p hp
      obtain rfl := Finset.mem_singleton.mp hp
      exact ⟨[⟨10, 7, 0, 0⟩, ⟨11, 7, 1, 0⟩, ⟨12, 7, 0, 0⟩, ⟨13, 7, 1, 0⟩, ⟨14, 8, 5, 0⟩],
        ⟨15, 8, 6, 0⟩, by decide, by decide, by decide, by decide, by decide⟩⟩

end LensX
