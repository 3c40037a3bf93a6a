import LensX.System.DeclaredQueues
import LensX.System.MatcherOrder

/-! # The thread of a sample

A delta carries the thread of its first event. For the groups of a seq matcher
this is the thread of the slot. A key matcher keeps the thread of the first
stage only, and a queue hands over timestamps without their thread, so there
the samples are right exactly when the groups that meet are of one thread.
-/

namespace LensX

open Bitmask Pairs Transducer Window BoundedQueue

/-- The row carries the thread of the fed event that its first timestamp is of. -/
def CsvRow.Attributed (evs : List RawEvent) (row : CsvRow) : Prop :=
  ∃ e ∈ evs, e.ts = row.tsFrom ∧ e.tid = row.tid

/-- The event completes a group of its thread. -/
def Closes (stages : List ℤ) (pre : List RawEvent) (e : RawEvent) : Prop :=
  e.stageNo ∈ stages ∧ ∃ w, CompletesGroup stages (threadEvents stages e.tid (pre ++ [e])) w

instance (stages : List ℤ) (pre : List RawEvent) (e : RawEvent) : Decidable (Closes stages pre e) :=
  inferInstanceAs (Decidable (_ ∧ _))

/-- A queue of threads: each group of the first stage list enters its thread, and each group of the
second one takes a thread out, to be compared with its own. -/
def threadOps (A B : List ℤ) (evs : List RawEvent) : List (Op UInt32 UInt32) :=
  (prefixes evs).flatMap fun p =>
    if Closes A p.1 p.2 then [.push p.2.tid]
    else if Closes B p.1 p.2 then [.pop p.2.tid]
    else []

/-- In every finished segment of a key matcher, the last event of a reported first stage is of the
thread of the last event of the least stage. -/
def Config.KeysLocal (cfg : Config) (evs : List RawEvent) : Prop :=
  ∀ mc ∈ cfg.matchers, mc.mode = "key" → ∀ r ∈ cfg.reports,
    [r.fromStage, r.toStage].Sublist mc.stages →
      ∀ k, ∀ w ∈ (keyCut mc.stages k evs).1,
        lastTid w r.fromStage = lastTid w (minStage mc.stages)

/-- For every report between two seq matchers, the queue of its size gives every group of the
second matcher the thread that the group itself is of. -/
def Config.QueuesLocal (cfg : Config) (evs : List RawEvent) : Prop :=
  ∀ r ∈ cfg.reports, ∀ A B, cfg.owners r.fromStage = [A] → cfg.owners r.toStage = [B] → A ≠ B →
    ∀ size, cfg.NamedSize r.name size →
      ∀ p ∈ paired size.toInt.toNat (threadOps A.stages B.stages evs), p.1 = p.2

theorem threadOps_concat (A B : List ℤ) (evs : List RawEvent) (e : RawEvent) :
    threadOps A B (evs ++ [e]) = threadOps A B evs ++
      if Closes A evs e then [.push e.tid] else if Closes B evs e then [.pop e.tid] else [] := by
  simp [threadOps, prefixes_concat]

section Events

variable {evs : List RawEvent} (hts : (evs.map (·.ts)).Nodup)
include hts

/-- With distinct timestamps a row is attributed when the event of its first timestamp is of its
thread. -/
theorem attributed_iff_of_event {a : RawEvent} (ha : a ∈ evs) {row : CsvRow}
    (hrow : a.ts = row.tsFrom) : row.Attributed evs ↔ a.tid = row.tid := by
  constructor
  · rintro ⟨e, he, hets, htid⟩
    obtain rfl := List.inj_on_of_nodup_map hts he ha (hets.trans hrow.symm)
    exact htid
  · exact fun htid => ⟨a, ha, hrow, htid⟩

omit hts in
/-- The thread of the event of a timestamp. -/
def tidOf (evs : List RawEvent) (ts : UInt64) : UInt32 :=
  ((evs.find? (·.ts = ts)).map (·.tid)).getD 0

theorem tidOf_eq {a : RawEvent} (ha : a ∈ evs) : tidOf evs a.ts = a.tid := by
  cases hf : evs.find? (·.ts = a.ts) with
  | none =>
    have hno := List.find?_eq_none.mp hf a ha
    simp at hno
  | some e =>
    have hets : e.ts = a.ts := by simpa using List.find?_some hf
    obtain rfl := List.inj_on_of_nodup_map hts (List.mem_of_find?_eq_some hf) ha hets
    rw [tidOf, hf]
    rfl

end Events

section SeqGroups

variable {stages : List ℤ} (hr : ∀ s ∈ stages, InRange s) {evs : List RawEvent}
  (hlt : ∀ e ∈ evs, e.stage < 64) (hd : SlotsDistinct evs) {pre : List RawEvent} {e : RawEvent}
  (hp : pre ++ [e] <+: evs)
include hr hlt hd hp

/-- A completed slot holds events of one thread. -/
theorem thread_of_slotsStep {r : Record}
    (h : (slotsStep stages (slotsAfter stages pre) e).2 = some r) :
    Closes stages pre e ∧ r.tid = e.tid ∧
      ∀ t ∈ stages, ∃ a ∈ evs, a.ts = r.ts t ∧ a.tid = e.tid := by
  have hd' : SlotsDistinct (pre ++ [e]) := hd.subset hp.subset
  obtain ⟨he, w, hw, hg⟩ := completes_of_slotsStep hr (fun x hx => hlt x (hp.subset hx)) h
  rw [slotHistory_eq_threadEvents hd' (by simp)] at hw
  refine ⟨⟨he, w, hw⟩, hg.tid.trans (lastTid_window (minStage_mem hr he) hw), fun t ht => ?_⟩
  obtain ⟨a, ha⟩ := exists_lastOf hw.2.1 ht
  have hmem := hw.1.1.subset (mem_of_lastOf ha).1
  refine ⟨a, hp.subset (List.filter_sublist.subset hmem), ?_, tid_of_mem_threadEvents hmem⟩
  rw [hg.ts t ht, lastTs_of_lastOf ha]

/-- A group is completed exactly when the event closes one. -/
theorem completion_isSome_iff : (completion stages pre e).isSome ↔ Closes stages pre e := by
  have hd' : SlotsDistinct (pre ++ [e]) := hd.subset hp.subset
  rw [completion, Option.isSome_map]
  constructor
  · intro hsome
    obtain ⟨r, hout⟩ := Option.isSome_iff_exists.mp hsome
    exact (thread_of_slotsStep hr hlt hd hp hout).1
  · rintro ⟨he, w, hw⟩
    rw [← slotHistory_eq_threadEvents hd' (by simp)] at hw
    obtain ⟨r, hout, _⟩ := slotsStep_of_completes hr (fun x hx => hlt x (hp.subset hx)) he hw
    rw [hout]
    rfl

/-- A completed snapshot is of one thread. -/
theorem thread_of_completion {s : StageSnapshot} (h : completion stages pre e = some s) :
    s.tid = e.tid ∧ ∀ t x, s.ts t = some x → ∃ a ∈ evs, a.ts = x ∧ a.tid = e.tid := by
  obtain ⟨r, hout, rfl⟩ := Option.map_eq_some_iff.mp h
  obtain ⟨_, htid, hevent⟩ := thread_of_slotsStep hr hlt hd hp hout
  refine ⟨htid, fun t x hx => ?_⟩
  rw [snapshotOf_ts] at hx
  split at hx
  · next ht => exact Option.some.inj hx ▸ hevent t ht
  · exact absurd hx (by simp)

end SeqGroups

section KeyGroups

variable {stages : List ℤ} {evs : List RawEvent}

/-- A finished segment of a key covers the list with fed events. -/
theorem exists_event_of_segment {k : UInt64} {w : List RawEvent}
    (hw : w ∈ (keyCut stages k evs).1) {t : ℤ} (ht : t ∈ stages) :
    ∃ a ∈ evs, a.ts = lastTs w t ∧ a.tid = lastTid w t := by
  have hcut := isCut_cut (c := RawEvent.stageNo) (List.ne_nil_of_mem ht) (keyEvents stages k evs)
  obtain ⟨a, ha⟩ := exists_lastOf (hcut.covers w hw) ht
  refine ⟨a, ?_, (lastTs_of_lastOf ha).symm, (lastTid_of_lastOf ha).symm⟩
  have hmem : a ∈ keyEvents stages k evs := by
    rw [hcut.eq_flatten]
    exact List.mem_append_left _ (List.mem_flatten.mpr ⟨w, hw, (mem_of_lastOf ha).1⟩)
  exact (mem_keyEvents hmem).1

/-- The deltas of a key matcher are those of the finished segments of its keys. -/
theorem mem_pendingAfter_key (id : String) (hr : ∀ s ∈ stages, InRange s)
    (hlt : ∀ e ∈ evs, e.stage < 64) {d : Delta} :
    d ∈ (Part.key id stages).pendingAfter evs ↔
      ∃ k, ∃ w ∈ (keyCut stages k evs).1,
        d ∈ groupDeltas stages w (lastTid w (minStage stages)) := by
  rw [Part.pendingAfter, KeyMatcher.feedAll_new, List.mem_flatMap]
  constructor
  · rintro ⟨⟨e, r⟩, ho, hdr⟩
    have hr' : r ∈ ((emits (keysStep stages) (fun _ => none) evs).filter
        (·.1.key = e.key)).map (·.2) :=
      List.mem_map.mpr ⟨(e, r), List.mem_filter.mpr ⟨ho, by simp⟩, rfl⟩
    rw [emits_keysStep hr hlt] at hr'
    obtain ⟨w, hw, rfl⟩ := List.mem_map.mp hr'
    exact ⟨e.key, w, hw, by rwa [← pairDeltas_recordOf]⟩
  · rintro ⟨k, w, hw, hdw⟩
    have hr' : recordOf stages w ∈ (keyCut stages k evs).1.map (recordOf stages) :=
      List.mem_map_of_mem hw
    rw [← emits_keysStep hr hlt] at hr'
    obtain ⟨o, ho, ho'⟩ := List.mem_map.mp hr'
    exact ⟨o, (List.mem_filter.mp ho).1, by rwa [ho', pairDeltas_recordOf]⟩

end KeyGroups

section Routes

variable {cfg : Config} (h : cfg.Unshared) (order : IterationOrder) {evs : List RawEvent}
  (hlt : ∀ e ∈ evs, e.stage < 64)
include h hlt

section Seq

variable (hd : SlotsDistinct evs)
include hd

/-- A callback of the pairs records attributed samples. -/
theorem attributed_of_seqRoute {call : Call} (hc : call ∈ calls (parts cfg order) evs) {x : Sample}
    (hx : x ∈ call.seqSamples (reportKeys cfg.reports)) : x.row.Attributed evs := by
  obtain ⟨pre, e, id, stages, hooks, hp, hm, _, hs⟩ := mem_calls hc
  obtain ⟨htid, hevent⟩ :=
    thread_of_completion (inRange_part h.sound order hm) hlt hd hp hs
  obtain ⟨k, s⟩ := call
  cases k with
  | pairs =>
    obtain ⟨p, _, hpx⟩ := List.mem_filterMap.mp hx
    unfold pairSample at hpx
    split at hpx
    · next name y z _ hy _ =>
      obtain rfl := Option.some.inj hpx
      obtain ⟨a, ha, hts, hat⟩ := hevent _ _ hy
      exact ⟨a, ha, hts, hat.trans htid.symm⟩
    · exact absurd hpx (by simp)
  | push r => exact absurd hx List.not_mem_nil
  | pop r => exact absurd hx List.not_mem_nil

/-- A seq matcher drains attributed deltas. -/
theorem attributed_of_seqPart {id : String} {stages : List ℤ} {hooks : List Hook}
    (hm : .seq id stages hooks ∈ parts cfg order) {d : Delta}
    (hmem : d ∈ (Part.seq id stages hooks).pendingAfter evs) :
    CsvRow.Attributed evs ⟨d.fromStage, d.toStage, d.valNs, d.tsFrom, d.tsTo, d.tid⟩ := by
  obtain ⟨⟨e, r⟩, ho, hdr⟩ := List.mem_flatMap.mp hmem
  obtain ⟨⟨a, b⟩, hab, rfl⟩ := List.mem_map.mp hdr
  obtain ⟨pre, post, rfl, hout⟩ := (mem_emits _ _).mp ho
  obtain ⟨_, htid, hevent⟩ := thread_of_slotsStep (inRange_part h.sound order hm) hlt hd
    ⟨post, by simp⟩ hout
  obtain ⟨x, hx, hts, hxt⟩ := hevent a (mem_of_mem_pairs hab).1
  exact ⟨x, hx, hts, hxt.trans htid.symm⟩

end Seq

section Key

variable (hts : (evs.map (·.ts)).Nodup)
include hts

omit h hlt in
theorem attributed_segment_iff {stages : List ℤ} {k : UInt64} {w : List RawEvent}
    (hw : w ∈ (keyCut stages k evs).1) {row : CsvRow} (hfrom : row.fromStage ∈ stages)
    (hrow : row.tsFrom = lastTs w row.fromStage) (htid : row.tid = lastTid w (minStage stages)) :
    row.Attributed evs ↔ lastTid w row.fromStage = lastTid w (minStage stages) := by
  obtain ⟨a, ha, hats, hatid⟩ := exists_event_of_segment hw hfrom
  rw [attributed_iff_of_event hts ha (hats.trans hrow.symm), hatid, htid]

/-- The samples drained from key matchers are attributed exactly when their segments are of one
thread where it matters. -/
theorem keysLocal_iff (hpairs : (cfg.reports.map fun r => (r.fromStage, r.toStage)).Nodup) :
    cfg.KeysLocal evs ↔ ∀ id stages, .key id stages ∈ parts cfg order →
      ∀ d ∈ (Part.key id stages).pendingAfter evs, ∀ x ∈ drainSample (reportKeys cfg.reports) d,
        x.row.Attributed evs := by
  constructor
  · intro hlocal id stages hm d hmem x hx
    obtain ⟨mc, hmc, hmode, rfl, rfl⟩ := mem_parts_key.mp hm
    obtain ⟨k, w, hw, hdw⟩ := (mem_pendingAfter_key _ (h.sound.stages mc hmc) hlt).mp hmem
    obtain ⟨⟨a, b⟩, hab, rfl⟩ := List.mem_map.mp hdw
    obtain ⟨name, hk, rfl⟩ := Option.map_eq_some_iff.mp (Option.mem_def.mp hx)
    obtain ⟨r, hr, _, hpair⟩ := exists_of_reportKeys hk
    obtain ⟨rfl, rfl⟩ := Prod.mk.inj hpair
    rw [attributed_segment_iff hts hw (mem_of_mem_pairs hab).1 rfl rfl]
    exact hlocal mc hmc hmode r hr (mem_pairs.mp hab) k w hw
  · intro hall mc hmc hmode r hr hsub k w hw
    have hab := mem_pairs.mpr hsub
    have hdw : (⟨lastTs w r.toStage - lastTs w r.fromStage, r.fromStage, r.toStage,
        lastTs w r.fromStage, lastTs w r.toStage, lastTid w (minStage mc.stages)⟩ : Delta) ∈
        groupDeltas mc.stages w (lastTid w (minStage mc.stages)) :=
      List.mem_map.mpr ⟨_, hab, rfl⟩
    have hattr := hall mc.id mc.stages (mem_parts_key.mpr ⟨mc, hmc, hmode, rfl, rfl⟩) _
      ((mem_pendingAfter_key _ (h.sound.stages mc hmc) hlt).mpr ⟨k, w, hw, hdw⟩) _
      (Option.mem_def.mpr (by rw [drainSample, reportKeys_of_mem hpairs hr]; rfl))
    exact (attributed_segment_iff hts hw (mem_of_mem_pairs hab).1 rfl rfl).mp hattr

end Key

end Routes

section Queue

variable {cfg : Config} {order : IterationOrder} {A B : MatcherConfig} {r : ReportConfig}

theorem Config.NamedSize.pos (h : cfg.Sound) {name : String} {size : Int32}
    (hsize : cfg.NamedSize name size) : 1 ≤ size := by
  rcases hsize with ⟨m, hm, hmode, _, _, rfl⟩ | ⟨_, rfl⟩
  · exact h.queues m hm hmode
  · decide

/-- A report between two seq matchers is a channel with the size of its name. -/
theorem channel_of_owners (h : cfg.Unshared) (order : IterationOrder) (hr : r ∈ cfg.reports)
    (hA : cfg.owners r.fromStage = [A]) (hB : cfg.owners r.toStage = [B]) (hAB : A ≠ B)
    {size : Int32} (hsize : cfg.NamedSize r.name size) :
    cfg.Channel order A B r size.toInt.toNat := by
  have hpos : 1 ≤ size.toInt := by
    have hle := Int32.le_iff_toInt_le.mp (hsize.pos h.sound)
    rwa [Int32.toInt_one] at hle
  have hmA := mem_owners.mp (hA ▸ List.mem_singleton_self A)
  have hmB := mem_owners.mp (hB ▸ List.mem_singleton_self B)
  constructor
  · exact h.sound.seqStages
  · exact hmA
  · exact hmB
  · have : Std.Symm (fun a b : MatcherConfig =>
        a.mode = "seq" → b.mode = "seq" → ∀ s ∈ a.stages, s ∉ b.stages) :=
      ⟨fun a b hab hb ha s hs hsa => hab ha hb s hsa hs⟩
    exact h.disjoint.forall hmA.1 hmB.1 hAB hmA.2.1 hmB.2.1
  · intro mc hm hmode
    constructor
    · intro hs
      simpa [hA] using mem_owners.mpr ⟨hm, hmode, hs⟩
    · intro hs
      simpa [hB] using mem_owners.mpr ⟨hm, hmode, hs⟩
  · exact filter_name h.sound.names hr
  · refine ⟨_, queueOf_of_owners h.sound.seqStages h.ids order hr hA hB hAB, ?_⟩
    rw [(namedSize_iff h.ids).mp hsize]
    omega
  · omega

variable {c : ℕ} (hch : cfg.Channel order A B r c) {evs : List RawEvent}
  (hlt : ∀ e ∈ evs, e.stage < 64) (hd : SlotsDistinct evs) (hts : (evs.map (·.ts)).Nodup)
include hch hlt hd hts

/-- The queue of threads does what the queue of timestamps does. -/
theorem threadOps_eq {pre : List RawEvent} (hp : pre <+: evs) :
    threadOps A.stages B.stages pre =
      (queueOps r (calls (parts cfg order) pre)).map (Op.map (tidOf evs) Prod.snd) := by
  induction pre using List.reverseRecOn with
  | nil => rfl
  | append_singleton pre e ih =>
    have hA := completion_isSome_iff (inRange_producer hch) hlt hd hp
    have hB := completion_isSome_iff (inRange_consumer hch) hlt hd hp
    rw [threadOps_concat, queueOps_calls_concat, List.map_append,
      ih ((List.prefix_append _ _).trans hp)]
    congr 1
    rcases queueOps_callsAt hch (fun x hx => hlt x (hp.subset hx)) with
      ⟨ha, hb, ho⟩ | ⟨s, x, ha, hb, hx, ho⟩ | ⟨s, y, ha, hb, hy, ho⟩
    · simp [← hA, ← hB, ha, hb, ho]
    · obtain ⟨_, hevent⟩ := thread_of_completion (inRange_producer hch) hlt hd hp ha
      obtain ⟨a, hmem, rfl, htid⟩ := hevent _ _ hx
      simp [← hA, ha, ho, Op.map, tidOf_eq hts hmem, htid]
    · obtain ⟨htid, _⟩ := thread_of_completion (inRange_consumer hch) hlt hd hp hb
      simp [← hA, ← hB, ha, hb, ho, Op.map, htid]

/-- The samples of a queue are attributed exactly when it joins groups of one thread. -/
theorem fifo_attributed_iff (csvOpen : Bool) (hlen : evs.length < 2 ^ 31) :
    (∀ p ∈ paired c (threadOps A.stages B.stages evs), p.1 = p.2) ↔
      ∀ x ∈ (run cfg order csvOpen evs).world.fifoSamples r.name, x.row.Attributed evs := by
  have hattr : ∀ q ∈ paired c (queueOps r (calls (parts cfg order) evs)),
      ((fifoSample r q).row.Attributed evs ↔ tidOf evs q.1 = q.2.2) := by
    intro q hq
    obtain ⟨call, hc, hfrom⟩ := ts_of_mem_pushes ((mem_of_contents c _).2 q hq).1
    obtain ⟨pre, e, id, stages, hooks, hp, hm, _, hs⟩ := mem_calls hc
    obtain ⟨mc, hmc, hmode, _, rfl⟩ := mem_parts_seq hm
    obtain ⟨_, hevent⟩ := thread_of_completion (hch.inRange mc hmc hmode) hlt hd hp hs
    obtain ⟨a, ha, hats, _⟩ := hevent _ _ hfrom
    rw [attributed_iff_of_event hts ha hats, ← hats, tidOf_eq hts ha]
    rfl
  rw [fifoSamples_eq hch csvOpen (length_pushes_lt hch hlen),
    threadOps_eq hch hlt hd hts List.prefix_rfl, (contents_map (tidOf evs) Prod.snd c _).2]
  simp only [List.mem_map, forall_exists_index, and_imp, forall_apply_eq_imp_iff₂]
  exact forall₂_congr fun q hq => (hattr q hq).symm

end Queue

section Samples

variable {cfg : Config} (h : cfg.Unshared) (order : IterationOrder) (csvOpen : Bool)
  {evs : List RawEvent} (hlt : ∀ e ∈ evs, e.stage < 64) (hd : SlotsDistinct evs)
  (hts : (evs.map (·.ts)).Nodup)
include h hlt hd hts

/-- The queues are local exactly when the samples that pass through them are attributed. -/
theorem queuesLocal_iff (hlen : evs.length < 2 ^ 31) :
    cfg.QueuesLocal evs ↔ ∀ x ∈ (run cfg order csvOpen evs).world.samples, x.route = .fifo →
      x.row.Attributed evs := by
  constructor
  · intro hqueues x hx hroute
    obtain ⟨r, id, stages, hooks, hp, hh, hname⟩ :=
      run_fifo_report h.sound.seqStages order csvOpen evs hx hroute
    obtain ⟨i, hi⟩ := List.mem_iff_getElem?.mp hp
    rcases hook_of_parts hi hh with hbad | ⟨r', hrep, p, q, hcon, ⟨hbad, _⟩ | ⟨hpop, _⟩⟩
    · exact Hook.noConfusion hbad
    · exact Hook.noConfusion hbad
    · obtain rfl := Hook.pop.inj hpop
      rcases connection_cases h order hrep with ⟨A, B, _, _, hA, hB, hAB, _⟩ | ⟨hnone, _⟩
      · have hsize : cfg.NamedSize r.name _ := (namedSize_iff h.ids).mpr rfl
        have hfifo := (fifo_attributed_iff (channel_of_owners h order hrep hA hB hAB hsize) hlt hd
          hts csvOpen hlen).mp (hqueues r hrep A B hA hB hAB _ hsize)
        exact hfifo x (List.mem_filter.mpr ⟨hx, by simp [hroute, hname]⟩)
      · exact absurd (hcon.symm.trans hnone) (by simp)
  · intro hall r hrep A B hA hB hAB size hsize
    rw [fifo_attributed_iff (channel_of_owners h order hrep hA hB hAB hsize) hlt hd hts csvOpen
      hlen]
    intro x hx
    obtain ⟨hx, hroute⟩ := List.mem_filter.mp hx
    exact hall x hx (of_decide_eq_true hroute).1

/-- The key matchers are local exactly when the samples of the final drain are attributed. -/
theorem keysLocal_iff_drain (hpairs : (cfg.reports.map fun r => (r.fromStage, r.toStage)).Nodup) :
    cfg.KeysLocal evs ↔ ∀ x ∈ drainSamples cfg order evs, x.row.Attributed evs := by
  rw [keysLocal_iff h order hlt hts hpairs]
  constructor
  · intro hkeys x hx
    obtain ⟨d, hdm, hxd⟩ := List.mem_filterMap.mp hx
    obtain ⟨p, hp, hdp⟩ := List.mem_flatMap.mp hdm
    cases p with
    | seq id stages hooks =>
      obtain ⟨name, _, rfl⟩ := Option.map_eq_some_iff.mp hxd
      exact attributed_of_seqPart h order hlt hd hp hdp
    | key id stages => exact hkeys id stages hp d hdp x hxd
  · intro hall id stages hm d hmem x hx
    exact hall x (List.mem_filterMap.mpr ⟨d, List.mem_flatMap.mpr ⟨_, hm, hmem⟩, hx⟩)

end Samples

/-- When no stage belongs to two seq matchers, every sample of a run carries the thread of the event
that its first timestamp is of exactly when the segments of the key matchers and the pairs of the
queues are of one thread. -/
theorem samples_attributed_iff {cfg : Config} (h : cfg.Unshared)
    (hpairs : (cfg.reports.map fun r => (r.fromStage, r.toStage)).Nodup) (order : IterationOrder)
    (csvOpen : Bool) (evs : List RawEvent) (hlt : ∀ e ∈ evs, e.stage < 64)
    (hlen : evs.length < 2 ^ 31) (hd : SlotsDistinct evs) (hts : (evs.map (·.ts)).Nodup) :
    (∀ x ∈ (run cfg order csvOpen evs).world.samples, x.row.Attributed evs) ↔
      cfg.KeysLocal evs ∧ cfg.QueuesLocal evs := by
  have hr := h.sound.seqStages
  rw [keysLocal_iff_drain h order hlt hd hts hpairs,
    queuesLocal_iff h order csvOpen hlt hd hts hlen, ← run_drainSamples hr order csvOpen evs]
  constructor
  · exact fun hall => ⟨fun x hx => hall x (List.mem_filter.mp hx).1, fun x hx _ => hall x hx⟩
  · rintro ⟨hdrain, hfifo⟩ x hx
    cases hroute : x.route with
    | seq =>
      have hmem : x ∈ (run cfg order csvOpen evs).world.samples.filter (·.route = .seq) :=
        List.mem_filter.mpr ⟨hx, by simpa using hroute⟩
      rw [run_seqSamples hr] at hmem
      obtain ⟨call, hc, hxc⟩ := List.mem_flatMap.mp hmem
      exact attributed_of_seqRoute h order hlt hd hc hxc
    | drain => exact hdrain x (List.mem_filter.mpr ⟨hx, by simpa using hroute⟩)
    | fifo => exact hfifo x hx hroute

/-- A request changes threads before the stage that its report begins with. -/
theorem sample_misattributed :
    ¬ ∀ (cfg : Config), cfg.Unshared → (cfg.reports.map fun r => (r.fromStage, r.toStage)).Nodup →
      ∀ (order : IterationOrder) (csvOpen : Bool) (evs : List RawEvent),
        (∀ e ∈ evs, e.stage < 64) → evs.length < 2 ^ 31 → SlotsDistinct evs →
          (evs.map (·.ts)).Nodup →
            ∀ x ∈ (run cfg order csvOpen evs).world.samples, x.row.Attributed evs := by
  intro h
  have hrow := h ⟨"nebulaX", "", [], [⟨"request", [0, 1, 2], "key", 4096⟩], [⟨"reply", 1, 2⟩]⟩
    ⟨⟨by decide, by decide, by decide, by decide⟩, by decide, by decide⟩ (by decide) default false
    [⟨10, 7, 0, 5⟩, ⟨20, 8, 1, 5⟩, ⟨30, 8, 2, 5⟩] (by decide) (by decide) (by decide) (by decide)
    ⟨.drain, "reply", 1, 2, 10, 20, 30, 7⟩ (by decide)
  revert hrow
  unfold CsvRow.Attributed
  decide

/-- Served by one thread, the request and the ring meet the condition. -/
theorem samples_attributed_thread :
    let cfg : Config := ⟨"nebulaX", "", [], [⟨"request", [0, 1, 2], "key", 4096⟩,
      ⟨"io_flow", [3, 4], "seq", 4096⟩, ⟨"send_flow", [5, 6], "seq", 4096⟩],
      [⟨"reply", 1, 2⟩, ⟨"ring", 4, 5⟩]⟩
    let evs : List RawEvent := [⟨10, 7, 0, 5⟩, ⟨20, 7, 1, 5⟩, ⟨30, 7, 2, 5⟩, ⟨40, 7, 3, 0⟩,
      ⟨50, 7, 4, 0⟩, ⟨60, 7, 5, 0⟩, ⟨70, 7, 6, 0⟩, ⟨80, 7, 0, 5⟩]
    cfg.KeysLocal evs ∧ cfg.QueuesLocal evs := by
  intro cfg evs
  refine (@samples_attributed_iff cfg ⟨⟨by decide, by decide, by decide, by decide⟩,
    by decide, by decide⟩ (by decide) default false evs (by decide) (by decide) (by decide)
    (by decide)).mp ?_
  unfold CsvRow.Attributed
  decide

end LensX
