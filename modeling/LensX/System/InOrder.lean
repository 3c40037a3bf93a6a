import LensX.General.Rounds
import LensX.System.Pairing

/-! # Producers and consumers that work in order

A thread whose events run through the stages of its matcher again and again
completes a group at every event of the last stage. Completions push and pop,
so the samples of a queue pair the groups in order as long as the last stages
of both matchers keep the order; the order of the reported stages is not enough.
-/

namespace LensX

open Bitmask Transducer Window Rounds

section Matcher

variable {stages : List ℤ} (hs : stages.Pairwise (· < ·)) (hr : ∀ s ∈ stages, InRange s)

include hs hr in
theorem head_of_increasing (hne : stages ≠ []) : stages.head? = some (minStage stages) := by
  obtain ⟨f, T, rfl⟩ := List.exists_cons_of_ne_nil hne
  have hleast : IsLeast {s | s ∈ f :: T} f := by
    refine ⟨List.mem_cons_self, fun s hmem => ?_⟩
    rcases List.mem_cons.mp hmem with rfl | hmem
    · exact le_rfl
    · exact (List.rel_of_pairwise_cons hs hmem).le
  rw [minStage_eq hr hleast]
  rfl

/-- The events of the matcher's stages share a slot and go in rounds. -/
structure WorksInOrder (stages : List ℤ) (evs : List RawEvent) : Prop where
  slot : ∃ k, ∀ e ∈ evs, e.stageNo ∈ stages → SeqMatcher.tidHash e.tid = k
  rounds : InRounds RawEvent.stageNo stages (evs.filter (·.stageNo ∈ stages))

theorem WorksInOrder.of_prefix {pre evs : List RawEvent} (h : WorksInOrder stages evs)
    (hp : pre <+: evs) : WorksInOrder stages pre where
  slot := h.slot.imp fun _ hk e he => hk e (hp.subset he)
  rounds := h.rounds.of_prefix (hp.filter _)

theorem slotHistory_of_worksInOrder {evs : List RawEvent} {e : RawEvent}
    (h : WorksInOrder stages (evs ++ [e])) (he : e.stageNo ∈ stages) :
    slotHistory stages (SeqMatcher.tidHash e.tid) (evs ++ [e]) =
      evs.filter (·.stageNo ∈ stages) ++ [e] := by
  obtain ⟨k, hk⟩ := h.slot
  rw [slotHistory_concat he rfl, slotHistory, hk e (by simp) he]
  congr 1
  apply List.filter_congr
  intro x hx
  have := hk x (List.mem_append_left _ hx)
  simpa using this

theorem filter_stage {x : ℤ} (hx : x ∈ stages) (evs : List RawEvent) :
    (evs.filter (·.stageNo ∈ stages)).filter (·.stageNo = x) = evs.filter (·.stageNo = x) := by
  rw [List.filter_filter]
  apply List.filter_congr
  intro e _
  by_cases he : e.stageNo = x <;> simp [he, hx]

variable {l : ℤ} (hl : stages.getLast? = some l) {evs : List RawEvent}
include hs hl

theorem countP_last_le (h : WorksInOrder stages evs) {x : ℤ} (hx : x ∈ stages) :
    evs.countP (·.stageNo = l) ≤ (evs.filter (·.stageNo = x)).length := by
  have hle := h.rounds.countP_last_le (hs.imp ne_of_lt) hl hx
  rwa [List.countP_eq_length_filter, List.countP_eq_length_filter,
    filter_stage (List.mem_of_getLast? hl), filter_stage hx, ← List.countP_eq_length_filter] at hle

include hr

theorem completion_of_ne_last {e : RawEvent} (hlt : ∀ x ∈ evs ++ [e], x.stage < 64)
    (h : WorksInOrder stages (evs ++ [e])) (he : e.stageNo ≠ l) :
    completion stages evs e = none := by
  by_contra hn
  obtain ⟨s, hsome⟩ := Option.ne_none_iff_exists'.mp hn
  obtain ⟨r, hout, _⟩ := Option.map_eq_some_iff.mp hsome
  obtain ⟨hmem, w, hw, _⟩ := completes_of_slotsStep hr hlt hout
  rw [slotHistory_of_worksInOrder h hmem] at hw
  have hrounds : InRounds RawEvent.stageNo stages (evs.filter (·.stageNo ∈ stages) ++ [e]) := by
    simpa [hmem] using h.rounds
  have hlast := hrounds.last_of_completes (hs.imp ne_of_lt)
    (head_of_increasing hs hr (List.ne_nil_of_mem hmem)) hw
  exact he (Option.some.inj (hlast.symm.trans hl))

/-- An event of the last stage completes a group of the next events of all stages. -/
theorem completion_of_last {e : RawEvent} (hlt : ∀ x ∈ evs ++ [e], x.stage < 64)
    (h : WorksInOrder stages (evs ++ [e])) (he : e.stageNo = l) :
    ∃ s, completion stages evs e = some s ∧ ∀ x ∈ stages, ∃ b, s.ts x = some b.ts ∧
      (evs ++ [e]).filter (·.stageNo = x) =
        (evs.filter (·.stageNo = x)).take (evs.countP (·.stageNo = l)) ++ [b] := by
  subst he
  have hmem : e.stageNo ∈ stages := List.mem_of_getLast? hl
  have hrounds : InRounds RawEvent.stageNo stages (evs.filter (·.stageNo ∈ stages) ++ [e]) := by
    simpa [hmem] using h.rounds
  obtain ⟨w, hw, hnext⟩ := hrounds.completes (hs.imp ne_of_lt)
    (head_of_increasing hs hr (List.ne_nil_of_mem hmem)) hl
  have hwin : CompletesGroup stages
      (slotHistory stages (SeqMatcher.tidHash e.tid) (evs ++ [e])) w := by
    rwa [slotHistory_of_worksInOrder h hmem]
  obtain ⟨r, hout, hg⟩ := slotsStep_of_completes hr hlt hmem hwin
  refine ⟨snapshotOf stages r, by rw [completion, hout]; rfl, fun x hx => ?_⟩
  obtain ⟨b, hb, hfil⟩ := hnext x hx
  refine ⟨b, ?_, ?_⟩
  · rw [snapshotOf_ts, ← lastTs_of_lastOf hb, ← hg.ts x hx]
    exact if_pos hx
  · have hhist : evs.filter (·.stageNo ∈ stages) ++ [e] =
        (evs ++ [e]).filter (·.stageNo ∈ stages) := by simp [hmem]
    rwa [hhist, filter_stage hx, filter_stage hx, List.countP_eq_length_filter,
      filter_stage hmem, ← List.countP_eq_length_filter] at hfil

/-- The groups take the events of a stage in order, one for every event of the last stage. -/
theorem groups_of_worksInOrder (id : String) (hlt : ∀ e ∈ evs, e.stage < 64)
    (h : WorksInOrder stages evs) {x : ℤ} (hx : x ∈ stages) :
    (groups id stages evs).map (·.2.ts x) =
      ((evs.filter (·.stageNo = x)).take (evs.countP (·.stageNo = l))).map (some ·.ts) := by
  induction evs using List.reverseRecOn with
  | nil => rfl
  | append_singleton evs e ih =>
    have hold := h.of_prefix (List.prefix_append evs [e])
    rw [groups_concat, List.map_append, ih (fun y hy => hlt y (List.mem_append_left _ hy)) hold]
    have hle := countP_last_le hs hl hold hx
    by_cases he : e.stageNo = l
    · obtain ⟨s, hcomp, hnext⟩ := completion_of_last hs hr hl hlt h he
      obtain ⟨b, hb, hfil⟩ := hnext x hx
      have hcount : (evs ++ [e]).countP (·.stageNo = l) = evs.countP (·.stageNo = l) + 1 := by
        simp [he]
      have htake : ((evs ++ [e]).filter (·.stageNo = x)).take (evs.countP (·.stageNo = l) + 1) =
          (evs ++ [e]).filter (·.stageNo = x) := by
        refine List.take_of_length_le ?_
        rw [hfil, List.length_append, List.length_take, List.length_singleton, min_eq_left hle]
      rw [hcomp, hcount, htake, hfil]
      simp [hb]
    · have hcount : (evs ++ [e]).countP (·.stageNo = l) = evs.countP (·.stageNo = l) := by
        simp [he]
      rw [completion_of_ne_last hs hr hl hlt h he, hcount, List.filter_append,
        List.take_append_of_le_length hle]
      simp

theorem length_groups_of_worksInOrder (id : String) (hlt : ∀ e ∈ evs, e.stage < 64)
    (h : WorksInOrder stages evs) :
    (groups id stages evs).length = evs.countP (·.stageNo = l) := by
  have hg := congrArg List.length
    (groups_of_worksInOrder hs hr hl id hlt h (List.mem_of_getLast? hl))
  have hle := countP_last_le hs hl h (List.mem_of_getLast? hl)
  rwa [List.length_map, List.length_map, List.length_take, min_eq_left hle] at hg

/-- The `n`-th group has the `n`-th event of every stage. -/
theorem getElem?_groups (id : String) (hlt : ∀ e ∈ evs, e.stage < 64)
    (h : WorksInOrder stages evs) {x : ℤ} (hx : x ∈ stages) {n : ℕ} {v : UInt64}
    (hv : ((groups id stages evs).map (·.2.ts x))[n]? = some (some v)) :
    ∃ e, (evs.filter (·.stageNo = x))[n]? = some e ∧ e.ts = v := by
  rw [groups_of_worksInOrder hs hr hl id hlt h hx, List.getElem?_map] at hv
  obtain ⟨e, he, hts⟩ := Option.map_eq_some_iff.mp hv
  rw [List.getElem?_take, Option.ite_none_right_eq_some] at he
  exact ⟨e, he.2, Option.some.inj hts⟩

end Matcher

/-- After every prefix the events of the second stage are at most those of the first one, and at
most `c` behind. -/
def Trails (a b : ℤ) (c : ℕ) (evs : List RawEvent) : Prop :=
  ∀ pre, pre <+: evs → pre.countP (·.stageNo = b) ≤ pre.countP (·.stageNo = a) ∧
    pre.countP (·.stageNo = a) ≤ pre.countP (·.stageNo = b) + c

instance (a b : ℤ) (c : ℕ) (evs : List RawEvent) : Decidable (Trails a b c evs) :=
  decidable_of_iff (∀ pre ∈ evs.inits, pre.countP (·.stageNo = b) ≤ pre.countP (·.stageNo = a) ∧
    pre.countP (·.stageNo = a) ≤ pre.countP (·.stageNo = b) + c)
    (by simp only [List.mem_inits, Trails])

/-- The sample joins the events of two stages with the same number. -/
def JoinsNth (a b : ℤ) (evs : List RawEvent) (n : ℕ) (s : Sample) : Prop :=
  ∃ x y, (evs.filter (·.stageNo = a))[n]? = some x ∧ (evs.filter (·.stageNo = b))[n]? = some y ∧
    s.row.tsFrom = x.ts ∧ s.row.tsTo = y.ts ∧ s.row.valNs = y.ts - x.ts

/-- A thread that goes through the stages of a matcher works in order for it when the other events
have none of these stages. -/
theorem worksInOrder_of_thread {stages : List ℤ} {p : UInt32} {evs : List RawEvent}
    (hrounds : InRounds RawEvent.stageNo stages (evs.filter (·.tid = p)))
    (hother : ∀ e ∈ evs, e.stageNo ∈ stages → e.tid = p) : WorksInOrder stages evs where
  slot := ⟨SeqMatcher.tidHash p, fun e he hmem => congrArg _ (hother e he hmem)⟩
  rounds := by
    have heq : evs.filter (·.stageNo ∈ stages) = evs.filter (·.tid = p) := by
      apply List.filter_congr
      intro e he
      rw [decide_eq_decide]
      exact ⟨hother e he, fun ht => hrounds.mem (List.mem_filter.mpr ⟨he, by simpa using ht⟩)⟩
    rwa [heq]

/-- When two threads go through the groups of their matchers and the last stages of these keep the
order within the capacity, the `n`-th sample of the queue joins the `n`-th groups. -/
theorem fifo_pairs_threads {cfg : Config} {order : IterationOrder} {A B : MatcherConfig}
    {r : ReportConfig} {c : ℕ} (h : cfg.Channel order A B r c) (hA : A.stages.Pairwise (· < ·))
    (hB : B.stages.Pairwise (· < ·)) {lA lB : ℤ} (hlA : A.stages.getLast? = some lA)
    (hlB : B.stages.getLast? = some lB) (csvOpen : Bool) {p q : UInt32} (evs : List RawEvent)
    (hlt : ∀ e ∈ evs, e.stage < 64) (hlim : evs.countP (·.stageNo = lA) < 2 ^ 31)
    (htid : ∀ e ∈ evs, e.tid = p ∨ e.tid = q)
    (hp : InRounds RawEvent.stageNo A.stages (evs.filter (·.tid = p)))
    (hq : InRounds RawEvent.stageNo B.stages (evs.filter (·.tid = q)))
    (htrail : Trails lA lB c evs) :
    let out := (run cfg order csvOpen evs).world.fifoSamples r.name
    out.length = evs.countP (·.stageNo = lB) ∧
      ∀ (n : ℕ) s, out[n]? = some s → JoinsNth r.fromStage r.toStage evs n s := by
  have hwA : WorksInOrder A.stages evs := by
    refine worksInOrder_of_thread hp fun e he hmem => (htid e he).resolve_right fun ht => ?_
    exact h.disjoint _ hmem (hq.mem (List.mem_filter.mpr ⟨he, by simpa using ht⟩))
  have hwB : WorksInOrder B.stages evs := by
    refine worksInOrder_of_thread hq fun e he hmem => (htid e he).resolve_left fun ht => ?_
    exact h.disjoint _ (hp.mem (List.mem_filter.mpr ⟨he, by simpa using ht⟩)) hmem
  have hlenA : ∀ pre, pre <+: evs →
      (groups A.id A.stages pre).length = pre.countP (·.stageNo = lA) := fun pre hpre =>
    length_groups_of_worksInOrder hA (inRange_producer h) hlA A.id
      (fun e he => hlt e (hpre.subset he)) (hwA.of_prefix hpre)
  have hlenB : ∀ pre, pre <+: evs →
      (groups B.id B.stages pre).length = pre.countP (·.stageNo = lB) := fun pre hpre =>
    length_groups_of_worksInOrder hB (inRange_consumer h) hlB B.id
      (fun e he => hlt e (hpre.subset he)) (hwB.of_prefix hpre)
  have hbal : ∀ pre, pre <+: evs →
      (groups B.id B.stages pre).length ≤ (groups A.id A.stages pre).length ∧
        (groups A.id A.stages pre).length ≤ (groups B.id B.stages pre).length + c := by
    intro pre hpre
    rw [hlenA pre hpre, hlenB pre hpre]
    exact htrail pre hpre
  rw [← hlenA evs List.prefix_rfl, ← (length_histories h hlt).1] at hlim
  refine ⟨?_, fun n s hs => ?_⟩
  · rw [length_fifoSamples h hlt csvOpen hlim hbal, hlenB evs List.prefix_rfl]
  · obtain ⟨tsFrom, tsTo, tid, rfl, hfrom, hto⟩ := getElem?_fifoSamples h hlt csvOpen hlim hbal hs
    have hto := congrArg (Option.map Prod.fst) hto
    rw [← List.getElem?_map, List.map_map] at hto
    obtain ⟨x, hx, rfl⟩ :=
      getElem?_groups hA (inRange_producer h) hlA A.id hlt hwA h.producer.2.2 hfrom
    obtain ⟨y, hy, rfl⟩ :=
      getElem?_groups hB (inRange_consumer h) hlB B.id hlt hwB h.consumer.2.2 hto
    exact ⟨x, y, hx, hy, rfl, rfl, rfl⟩

/-- The consumer completes a group between the first event and the last one of the producer's first
group: its pop finds the queue empty, and its second group takes the first push. -/
theorem fifo_pairing_slips :
    ¬ ∀ (cfg : Config) (order : IterationOrder) (A B : MatcherConfig) (r : ReportConfig) (c : ℕ)
      (csvOpen : Bool) (p q : UInt32) (evs : List RawEvent), cfg.Channel order A B r c →
      A.stages.Pairwise (· < ·) → B.stages.Pairwise (· < ·) → p % 65536 ≠ q % 65536 →
      (∀ e ∈ evs, e.stage < 64) → (∀ e ∈ evs, e.tid = p ∨ e.tid = q) →
      (∃ m, (evs.filter (·.tid = p)).map (·.stageNo) = (List.replicate m A.stages).flatten) →
      (∃ m, (evs.filter (·.tid = q)).map (·.stageNo) = (List.replicate m B.stages).flatten) →
      Trails r.fromStage r.toStage c evs →
      ∀ s ∈ (run cfg order csvOpen evs).world.fifoSamples r.name,
        ∃ n, JoinsNth r.fromStage r.toStage evs n s := by
  intro h
  obtain ⟨n, x, y, hx, hy, hfrom, hto, _⟩ := h
    ⟨"nebulaX", "", [], [⟨"io_flow", [0, 1], "seq", 4096⟩, ⟨"send_flow", [5, 6], "seq", 4096⟩,
      ⟨"e2e", [0, 5], "fifo", 4096⟩], [⟨"e2e", 0, 5⟩]⟩ default
    ⟨"io_flow", [0, 1], "seq", 4096⟩ ⟨"send_flow", [5, 6], "seq", 4096⟩ ⟨"e2e", 0, 5⟩ 4096 false 7 8
    [⟨1, 7, 0, 0⟩, ⟨2, 8, 5, 0⟩, ⟨3, 8, 6, 0⟩, ⟨4, 7, 1, 0⟩, ⟨5, 7, 0, 0⟩, ⟨6, 8, 5, 0⟩,
      ⟨7, 8, 6, 0⟩, ⟨8, 7, 1, 0⟩]
    ⟨by decide, by decide, by decide, by decide, by decide, by decide, ⟨_, rfl, by decide⟩,
      by decide⟩
    (by decide) (by decide) (by decide) (by decide) (by decide) ⟨2, by decide⟩ ⟨2, by decide⟩
    (by decide)
    ⟨.fifo, "e2e", ⟨0, 5, 5, 1, 6, 8⟩⟩ (by decide)
  match n with
  | 0 =>
    obtain rfl := Option.some.inj hy
    exact absurd hto (by decide)
  | 1 =>
    obtain rfl := Option.some.inj hx
    exact absurd hfrom (by decide)
  | n + 2 => exact absurd hx (by simp [RawEvent.stageNo])

/-- Two rounds of each thread; the consumer takes the first item while the producer is at work. -/
theorem fifo_pairs_threads_ring :
    ((run ⟨"nebulaX", "", [], [⟨"io_flow", [0, 1], "seq", 4096⟩,
        ⟨"send_flow", [5, 6], "seq", 4096⟩], [⟨"ring", 1, 5⟩]⟩ default false
      [⟨10, 7, 0, 0⟩, ⟨11, 7, 1, 0⟩, ⟨12, 8, 5, 0⟩, ⟨13, 7, 0, 0⟩, ⟨14, 8, 6, 0⟩, ⟨15, 7, 1, 0⟩,
        ⟨16, 8, 5, 0⟩, ⟨17, 8, 6, 0⟩]).world.fifoSamples "ring").length = 2 :=
  (fifo_pairs_threads (show Config.Channel ⟨"nebulaX", "", [], [⟨"io_flow", [0, 1], "seq", 4096⟩,
      ⟨"send_flow", [5, 6], "seq", 4096⟩], [⟨"ring", 1, 5⟩]⟩ default
      ⟨"io_flow", [0, 1], "seq", 4096⟩ ⟨"send_flow", [5, 6], "seq", 4096⟩ ⟨"ring", 1, 5⟩ 4096 from
    ⟨by decide, by decide, by decide, by decide, by decide, by decide, ⟨_, rfl, by decide⟩,
      by decide⟩)
    (by decide) (by decide) rfl rfl false (p := 7) (q := 8) _ (by decide) (by decide) (by decide)
    ⟨2, by decide⟩ ⟨2, by decide⟩ (by decide)).1

end LensX
