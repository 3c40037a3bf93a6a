import Mathlib.Algebra.Order.Group.Abs
import Mathlib.Algebra.Order.Group.Int
import Mathlib.Data.List.Flatten
import LensX.General.Losses
import LensX.Key.Permutation
import LensX.System.Processes

/-! # Lost events

A hit that finds no room in the ring is lost, and so are those before the
tracer is attached. However many are, every lost event makes or unmakes at most
one group of each matcher. If no first stage of a seq matcher is lost after the
first event and no stage is repeated within a group, the samples of a run with
losses are among those of the run without them.
-/

namespace LensX

open Bitmask Pairs Transducer Window

section Count

variable {stages : List ℤ} (hr : ∀ s ∈ stages, InRange s)

/-- The stages of the list that the first record has filled are filled in the second one, unless the
first one is waiting for a first stage. -/
def Record.Within (stages : List ℤ) (r r' : Record) : Prop :=
  Has r.filled (minStage stages) → ∀ s ∈ stages, Has r.filled s → Has r'.filled s

theorem slotStore_filled_eq (stages : List ℤ) (r : Record) (e : RawEvent) :
    (slotStore stages r e).filled =
      (if Starts stages e then 0 else r.filled) ||| bit e.stageNo := by
  unfold slotStore Record.put Starts
  split <;> rfl

theorem keyStore_filled_eq (stages : List ℤ) (o : Option Record) (e : RawEvent) :
    (keyStore stages o e).filled = (o.getD .zero).filled ||| bit e.stageNo := by
  unfold keyStore Record.put
  split <;> rfl

include hr

theorem within_slotStore {r r' : Record} (h : r.Within stages r') {e : RawEvent}
    (he : e.stageNo ∈ stages) : (slotStore stages r e).Within stages (slotStore stages r' e) := by
  intro hmin s hs hfilled
  rw [slotStore_filled_eq] at hmin hfilled ⊢
  by_cases hst : Starts stages e
  · rwa [if_pos hst] at hfilled ⊢
  · rw [if_neg hst, has_or_bit (hr _ he) (hr s hs)] at hfilled ⊢
    rw [if_neg hst, has_or_bit (hr _ he) (hr _ (minStage_mem hr he))] at hmin
    exact hfilled.imp_left (h (hmin.resolve_right hst) s hs)

theorem within_or_within_slotStore (r : Record) {e : RawEvent} (he : e.stageNo ∈ stages) :
    (slotStore stages r e).Within stages r ∨ r.Within stages (slotStore stages r e) := by
  have hst : ∀ s ∈ stages, Has (slotStore stages r e).filled s ↔
      (¬ Starts stages e ∧ Has r.filled s) ∨ e.stageNo = s := by
    intro s hs
    rw [slotStore_filled_eq, has_or_bit (hr _ he) (hr s hs)]
    by_cases hst : Starts stages e
    · rw [if_pos hst]
      simp [hst]
    · rw [if_neg hst]
      simp [hst]
  by_cases hs : Starts stages e
  · by_cases hmin : Has r.filled (minStage stages)
    · left
      intro _ s hmem hfilled
      obtain rfl : e.stageNo = s := ((hst s hmem).mp hfilled).resolve_left fun h => h.1 hs
      exact hs.symm ▸ hmin
    · exact Or.inr fun h => absurd h hmin
  · exact Or.inr fun _ s hmem hfilled => (hst s hmem).mpr (Or.inl ⟨hs, hfilled⟩)

/-- A slot that is ahead of another one completes its group first and then waits for a first
stage. -/
theorem leapfrog_slotStep :
    Leapfrog (slotStep stages) (fun e => e.stage < 64) (Record.Within stages) where
  step := by
    intro r r' e hlt h
    by_cases he : e.stageNo ∈ stages
    · have hstore := within_slotStore hr h he
      rw [slotStep_fst hr he hlt, slotStep_fst hr he hlt]
      by_cases hf : (slotStore stages r e).Full (ofList stages)
      · have hall := (Record.full_ofList hr).mp hf
        have hf' : (slotStore stages r' e).Full (ofList stages) :=
          (Record.full_ofList hr).mpr fun s hs =>
            hstore (hall _ (minStage_mem hr he)) s hs (hall s hs)
        rw [if_pos hf, if_pos hf']
        exact Or.inl ⟨rfl, fun hmin => absurd hmin (not_has_zero _)⟩
      · rw [if_neg hf]
        split
        · exact Or.inr ⟨rfl, rfl, fun hmin => absurd hmin (not_has_zero _)⟩
        · exact Or.inl ⟨rfl, hstore⟩
    · have hmask := (RawEvent.mask_eq_zero_iff hr hlt).mpr he
      rw [slotStep, slotStep, if_pos hmask, if_pos hmask]
      exact Or.inl ⟨rfl, h⟩
  lose := by
    intro r e hlt
    by_cases he : e.stageNo ∈ stages
    · rw [slotStep_fst hr he hlt]
      split
      · exact Or.inl fun hmin => absurd hmin (not_has_zero _)
      · exact (within_or_within_slotStore hr r he).imp_right fun h => ⟨rfl, h⟩
    · rw [slotStep, if_pos ((RawEvent.mask_eq_zero_iff hr hlt).mpr he)]
      exact Or.inl fun _ _ _ h => h

/-- A record that is ahead of another one completes its group first and is then erased. -/
theorem leapfrog_keyStep :
    Leapfrog (keyStep stages) (fun e => e.stage < 64) fun o o' =>
      ∀ s ∈ stages, Has (o.getD .zero).filled s → Has (o'.getD .zero).filled s where
  step := by
    intro o o' e hlt h
    by_cases he : e.stageNo ∈ stages
    · have hmask : ¬ ofList stages &&& bit e.stageNo = 0 := by
        rw [RawEvent.mask_eq_zero_iff hr hlt]
        exact not_not.mpr he
      have hstore : ∀ s ∈ stages, Has (keyStore stages o e).filled s →
          Has (keyStore stages o' e).filled s := by
        intro s hs hfilled
        rw [keyStore_filled_eq, has_or_bit (hr _ he) (hr s hs)] at hfilled ⊢
        exact hfilled.imp_left (h s hs)
      rw [keyStep, keyStep, if_neg hmask, if_neg hmask]
      by_cases hf : (keyStore stages o e).Full (ofList stages)
      · have hf' : (keyStore stages o' e).Full (ofList stages) :=
          (Record.full_ofList hr).mpr fun s hs => hstore s hs ((Record.full_ofList hr).mp hf s hs)
        rw [if_pos hf, if_pos hf']
        exact Or.inl ⟨rfl, fun _ _ h => h⟩
      · rw [if_neg hf]
        split
        · exact Or.inr ⟨rfl, rfl, fun s _ hfilled => absurd hfilled (not_has_zero s)⟩
        · exact Or.inl ⟨rfl, hstore⟩
    · have hmask := (RawEvent.mask_eq_zero_iff hr hlt).mpr he
      rw [keyStep, keyStep, if_pos hmask, if_pos hmask]
      exact Or.inl ⟨rfl, h⟩
  lose := by
    intro o e hlt
    by_cases he : e.stageNo ∈ stages
    · rw [keyStep, if_neg fun h => (RawEvent.mask_eq_zero_iff hr hlt).mp h he]
      split
      · exact Or.inl fun s _ hfilled => absurd hfilled (not_has_zero s)
      · refine Or.inr ⟨rfl, fun s hs hfilled => ?_⟩
        change Has (keyStore stages o e).filled s
        rw [keyStore_filled_eq, has_or_bit (hr _ he) (hr s hs)]
        exact Or.inl hfilled
    · rw [keyStep, if_pos ((RawEvent.mask_eq_zero_iff hr hlt).mpr he)]
      exact Or.inl fun _ _ h => h

/-- Lost events change the number of groups of a seq matcher, and of a key matcher, by at most their
own number, also when threads share slots and when first stages are lost. -/
theorem groups_lost (id : String) {evs evs' : List RawEvent} (hs : evs'.Sublist evs)
    (hlt : ∀ e ∈ evs, e.stage < 64) :
    |((groups id stages evs).length : ℤ) - (groups id stages evs').length| ≤
        evs.length - evs'.length ∧
      |((keyedGroups stages evs).length : ℤ) - (keyedGroups stages evs').length| ≤
        evs.length - evs'.length := by
  have hseq : Leapfrog (slotsStep stages) (fun e => e.stage < 64) _ :=
    (leapfrog_slotStep hr).keyed fun e => SeqMatcher.tidHash e.tid
  have hkey : Leapfrog (keysStep stages) (fun e => e.stage < 64) _ :=
    (leapfrog_keyStep hr).keyed RawEvent.key
  have hlen := hs.length_le
  obtain ⟨hseq, hseq'⟩ := hseq.length_emits_sublist hs hlt fun _ => .zero
  obtain ⟨hkey, hkey'⟩ := hkey.length_emits_sublist hs hlt fun _ => none
  rw [groups_eq, groups_eq, keyedGroups, keyedGroups, List.length_map, List.length_map,
    List.length_map, List.length_map]
  constructor
  · rw [abs_le]
    omega
  · rw [abs_le]
    omega

end Count

/-- The lost event is the last one of a group. -/
theorem groups_lost_pair :
    |((groups "io_flow" [0, 1] [⟨10, 7, 0, 0⟩, ⟨19, 7, 1, 0⟩]).length : ℤ) -
      (groups "io_flow" [0, 1] [⟨10, 7, 0, 0⟩]).length| ≤ 1 :=
  (groups_lost (by decide) "io_flow" (by decide) (by decide)).1

section Event

variable {stages : List ℤ}

/-- No stage comes twice between two first stages of a thread. -/
def RoundsDistinct (stages : List ℤ) (evs : List RawEvent) : Prop :=
  ∀ pre e, pre ++ [e] <+: evs → ∀ w,
    IsWindow (Starts stages) (threadEvents stages e.tid (pre ++ [e])) w →
      (w.map RawEvent.stageNo).Nodup

instance (stages : List ℤ) (evs : List RawEvent) : Decidable (RoundsDistinct stages evs) :=
  decidable_of_iff (∀ p ∈ prefixes evs, ∀ w ∈ (threadEvents stages p.2.tid (p.1 ++ [p.2])).tails,
      IsWindow (Starts stages) (threadEvents stages p.2.tid (p.1 ++ [p.2])) w →
        (w.map RawEvent.stageNo).Nodup)
    ⟨fun h pre e hp w hw => h (pre, e) (mem_prefixes.mpr hp) w ((List.mem_tails _ _).mpr hw.1) hw,
      fun h p hp w _ hw => h p.1 p.2 (mem_prefixes.mp hp) w hw⟩

variable (hr : ∀ s ∈ stages, InRange s) {pre pre' : List RawEvent} {e : RawEvent}
  (hlt : ∀ x ∈ pre ++ [e], x.stage < 64)
include hr hlt

/-- What an event completes after losses it completes without them. -/
theorem shown_of_thinned (hd : SlotsDistinct (pre ++ [e])) (hw : RoundsDistinct stages (pre ++ [e]))
    (ht : Thinned (Starts stages) pre pre') :
    ((slotsStep stages (slotsAfter stages pre') e).2.map (shown stages)).toList.Sublist
      ((slotsStep stages (slotsAfter stages pre) e).2.map (shown stages)).toList := by
  cases hout : (slotsStep stages (slotsAfter stages pre') e).2 with
  | none => exact List.nil_sublist _
  | some r' =>
    have hsub : pre' ++ [e] ⊆ pre ++ [e] := (ht.sublist.append_right [e]).subset
    have hhist : ∀ {l : List RawEvent}, l ++ [e] ⊆ pre ++ [e] →
        slotHistory stages (SeqMatcher.tidHash e.tid) (l ++ [e]) =
          threadEvents stages e.tid (l ++ [e]) :=
      fun hl => slotHistory_eq_threadEvents (hd.subset hl) (by simp)
    obtain ⟨he, w, hc, hg'⟩ := completes_of_slotsStep hr (fun x hx => hlt x (hsub hx)) hout
    rw [hhist hsub] at hc
    -- the window has lost nothing, so both runs complete the same group
    have hc' : CompletesGroup stages (threadEvents stages e.tid (pre ++ [e])) w := by
      refine ((ht.keep e).filter _).completes (hw pre e List.prefix_rfl) (fun x hx => ?_) hc
      exact (of_decide_eq_true (List.mem_filter.mp hx).2).2
    rw [← hhist (List.Subset.refl _)] at hc'
    obtain ⟨r, hout', hg⟩ := slotsStep_of_completes hr hlt he hc'
    rw [hout', Option.map_some, Option.map_some, shown_eq_of_isGroup hg' hg]

omit hr hlt in
/-- A key whose stages are unique has its whole history in its open record. -/
theorem keyCut_snd_of_unique (hd : StagesUnique stages (pre ++ [e])) (he : e.stageNo ∈ stages) :
    (keyCut stages e.key pre).2 = keyEvents stages e.key pre := by
  have hn := hd.keyEvents e.key
  rw [keyEvents_concat he rfl, List.map_append, List.nodup_append] at hn
  have hpre : StagesUnique stages pre :=
    hd.sublist (((List.sublist_append_left pre [e]).filter _).map _)
  rw [keyCut_of_unique (List.ne_nil_of_mem he) hpre, if_neg]
  intro hc
  obtain ⟨x, hx, hxe⟩ := hc _ he
  exact hn.2.2 _ (List.mem_map_of_mem hx) _ (by simp) hxe

/-- What an event completes after losses it completes without them. -/
theorem keysStep_of_sublist (hd : StagesUnique stages (pre ++ [e])) (hs : pre'.Sublist pre) :
    (keysStep stages (recordsAfter stages pre') e).2.toList.Sublist
      (keysStep stages (recordsAfter stages pre) e).2.toList := by
  have hsub : (pre' ++ [e]).Sublist (pre ++ [e]) := hs.append_right [e]
  have hd' : StagesUnique stages (pre' ++ [e]) := hd.sublist ((hsub.filter _).map _)
  have hlt' : ∀ x ∈ pre' ++ [e], x.stage < 64 := fun x hx => hlt x (hsub.subset hx)
  rw [keysStep_snd hr hlt, keysStep_snd hr hlt']
  by_cases he : e.stageNo ∈ stages
  · rw [keyCut_snd_of_unique hd he, keyCut_snd_of_unique hd' he,
      ← keyEvents_concat he rfl, ← keyEvents_concat he rfl]
    split
    · next h =>
      have heq : keyEvents stages e.key (pre' ++ [e]) = keyEvents stages e.key (pre ++ [e]) :=
        eq_of_sublist_of_covers (hsub.filter _) (hd.keyEvents e.key)
          (fun x hx => (mem_keyEvents hx).2) h.2
      rw [← heq, if_pos h]
    · exact List.nil_sublist _
  · simp [he]

end Event

/-- The deltas that an event adds to a part. -/
def Part.deltasAt (pre : List RawEvent) (e : RawEvent) : Part → List Delta
  | .seq _ stages _ =>
    (slotsStep stages (slotsAfter stages pre) e).2.toList.flatMap (pairDeltas stages)
  | .key _ stages =>
    (keysStep stages (recordsAfter stages pre) e).2.toList.flatMap (pairDeltas stages)

theorem Part.pendingAfter_append (p : Part) (pre : List RawEvent) (e : RawEvent) :
    p.pendingAfter (pre ++ [e]) = p.pendingAfter pre ++ p.deltasAt pre e := by
  cases p with
  | seq id stages hooks =>
    rw [pendingAfter, pendingAfter, deltasAt, emits_concat, List.flatMap_append, Option.toList_map,
      List.flatMap_map]
  | key id stages =>
    rw [pendingAfter, pendingAfter, deltasAt, KeyMatcher.feedAll_new, KeyMatcher.feedAll_new,
      emits_concat, List.flatMap_append, Option.toList_map, List.flatMap_map]

/-- A first stage of a seq matcher. -/
def Config.FirstStage (cfg : Config) (e : RawEvent) : Prop :=
  ∃ mc ∈ cfg.matchers, mc.mode = "seq" ∧ Starts mc.stages e

instance (cfg : Config) (e : RawEvent) : Decidable (cfg.FirstStage e) :=
  inferInstanceAs (Decidable (∃ mc ∈ cfg.matchers, _))

/-- Every group has each stage at most once: between two first stages of a thread, or for a key. -/
structure Config.StagesOnce (cfg : Config) (evs : List RawEvent) : Prop where
  seq : ∀ mc ∈ cfg.matchers, mc.mode = "seq" → RoundsDistinct mc.stages evs
  key : ∀ mc ∈ cfg.matchers, mc.mode = "key" → StagesUnique mc.stages evs

theorem Config.StagesOnce.of_prefix {cfg : Config} {pre evs : List RawEvent}
    (h : cfg.StagesOnce evs) (hp : pre <+: evs) : cfg.StagesOnce pre where
  seq mc hmc hmode pre' e hp' := h.seq mc hmc hmode pre' e (hp'.trans hp)
  key mc hmc hmode := (h.key mc hmc hmode).sublist ((hp.sublist.filter _).map _)

section Run

variable {cfg : Config} (hr : ∀ mc ∈ cfg.matchers, ∀ s ∈ mc.stages, InRange s)
  (order : IterationOrder) (csvOpen : Bool) {evs evs' : List RawEvent}
  (hlt : ∀ e ∈ evs, e.stage < 64) (hd : SlotsDistinct evs) (h : cfg.StagesOnce evs)
  (ht : Thinned cfg.FirstStage evs evs')
include hr

/-- The samples that do not come through a queue. -/
theorem run_directSamples : (run cfg order csvOpen evs).world.samples.filter (·.route ≠ .fifo) =
    (calls (parts cfg order) evs).flatMap (Call.seqSamples (reportKeys cfg.reports)) ++
      drainSamples cfg order evs := by
  obtain ⟨l, hl, hseq, hroute⟩ := foldl_samples
    (fun c hc => assigned_of_mem_calls (fun mc hm _ => hr mc hm) order evs hc)
    (reportKeys cfg.reports) (Tracer.init cfg order csvOpen).world
  have hcalls : l.filter (·.route ≠ .fifo) = l.filter (·.route = .seq) := by
    apply List.filter_congr
    intro x hx
    rcases hroute x hx with hx | ⟨hx, -⟩ <;> simp [hx]
  have hdrain : (drainSamples cfg order evs).filter (·.route ≠ .fifo) =
      drainSamples cfg order evs :=
    List.filter_eq_self.mpr fun x hx => by simp [route_of_mem_drainSamples hx]
  rw [run_world_eq, World.addAll_samples, List.filter_append, hdrain, beforeDrain, hl,
    List.filter_append, hcalls, hseq]
  rfl

include hlt hd h ht

theorem calls_of_thinned :
    (calls (parts cfg order) evs').Sublist (calls (parts cfg order) evs) := by
  induction ht with
  | late l => exact List.nil_sublist _
  | @keep pre pre' e ht ih =>
    have hpre := ih (fun x hx => hlt x (List.mem_append_left _ hx))
      (hd.subset (List.subset_append_left _ _)) (h.of_prefix (List.prefix_append _ _))
    rw [calls_concat, calls_concat]
    refine hpre.append (List.Sublist.flatMap_right _ fun p hp => ?_)
    cases p with
    | key id stages => exact List.Sublist.refl _
    | seq id stages hooks =>
      obtain ⟨mc, hmc, hmode, -, rfl⟩ := mem_parts_seq hp
      have hs := shown_of_thinned (hr mc hmc) hlt hd (h.seq mc hmc hmode)
        (ht.mono fun a ha => ⟨mc, hmc, hmode, ha⟩)
      have hfst := hs.map Prod.fst
      simp only [← Option.toList_map, Option.map_map] at hfst
      exact hfst.flatMap _
  | @lose pre pre' e he ht ih =>
    have hpre := ih (fun x hx => hlt x (List.mem_append_left _ hx))
      (hd.subset (List.subset_append_left _ _)) (h.of_prefix (List.prefix_append _ _))
    rw [calls_concat]
    exact hpre.trans (List.sublist_append_left _ _)

theorem pendingAfter_of_thinned {p : Part} (hp : p ∈ parts cfg order) :
    (p.pendingAfter evs').Sublist (p.pendingAfter evs) := by
  induction ht with
  | late l => cases p <;> exact List.nil_sublist _
  | @keep pre pre' e ht ih =>
    have hpre := ih (fun x hx => hlt x (List.mem_append_left _ hx))
      (hd.subset (List.subset_append_left _ _)) (h.of_prefix (List.prefix_append _ _))
    rw [Part.pendingAfter_append, Part.pendingAfter_append]
    refine hpre.append ?_
    cases p with
    | key id stages =>
      obtain ⟨mc, hmc, hmode, -, rfl⟩ := mem_parts_key.mp hp
      exact (keysStep_of_sublist (hr mc hmc) hlt (h.key mc hmc hmode) ht.sublist).flatMap _
    | seq id stages hooks =>
      obtain ⟨mc, hmc, hmode, -, rfl⟩ := mem_parts_seq hp
      have hs := shown_of_thinned (hr mc hmc) hlt hd (h.seq mc hmc hmode)
        (ht.mono fun a ha => ⟨mc, hmc, hmode, ha⟩)
      have hsnd := hs.flatMap Prod.snd
      rwa [Option.toList_map, Option.toList_map, List.flatMap_map, List.flatMap_map] at hsnd
  | @lose pre pre' e he ht ih =>
    have hpre := ih (fun x hx => hlt x (List.mem_append_left _ hx))
      (hd.subset (List.subset_append_left _ _)) (h.of_prefix (List.prefix_append _ _))
    rw [Part.pendingAfter_append]
    exact hpre.trans (List.sublist_append_left _ _)

/-- When no first stage of a seq matcher is lost after the first event and every group has each
stage at most once, a run with losses records some of the samples of the run without them, in the
same order, and nothing else. -/
theorem samples_of_thinned :
    ((run cfg order csvOpen evs').world.samples.filter (·.route ≠ .fifo)).Sublist
      ((run cfg order csvOpen evs).world.samples.filter (·.route ≠ .fifo)) := by
  rw [run_directSamples hr, run_directSamples hr]
  refine ((calls_of_thinned hr order hlt hd h ht).flatMap _).append ?_
  refine List.Sublist.filterMap _ (List.Sublist.flatMap_right _ fun p hp => ?_)
  exact pendingAfter_of_thinned hr order hlt hd h ht hp

end Run

/-- The tracer misses the first stage of one group and the last one of the next. -/
theorem samples_of_thinned_pair :
    ((run ⟨"nebulaX", "", [], [⟨"io_flow", [0, 1], "seq", 4096⟩], [⟨"dispatch", 0, 1⟩]⟩ default
        false [⟨9, 7, 1, 0⟩, ⟨10, 7, 0, 0⟩, ⟨12, 7, 0, 0⟩, ⟨13, 7, 1, 0⟩]).world.samples.filter
          (·.route ≠ .fifo)).Sublist
      ((run ⟨"nebulaX", "", [], [⟨"io_flow", [0, 1], "seq", 4096⟩], [⟨"dispatch", 0, 1⟩]⟩ default
        false [⟨8, 7, 0, 0⟩, ⟨9, 7, 1, 0⟩, ⟨10, 7, 0, 0⟩, ⟨11, 7, 1, 0⟩, ⟨12, 7, 0, 0⟩,
          ⟨13, 7, 1, 0⟩]).world.samples.filter (·.route ≠ .fifo)) :=
  samples_of_thinned (by decide) default false (by decide) (by decide) ⟨by decide, by decide⟩
    (.keep _ (.keep _ (.lose (by decide) (.keep _ (.keep _ (.late [(⟨8, 7, 0, 0⟩ : RawEvent)]))))))

end LensX
