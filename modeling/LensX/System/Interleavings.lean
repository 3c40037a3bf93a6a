import LensX.System.Losses

/-! # The interleaving of the threads

Two histories may interleave the events of their threads in any way. As long as
every thread shows each seq matcher the same events in the same order, and
every key each key matcher, the samples that do not come through a queue are
the same up to their order.
-/

namespace LensX

open Bitmask Pairs Transducer

/-- The histories differ only in how the events of different threads, or of different keys for a key
matcher, are interleaved, and in events that no matcher takes in. -/
structure Config.SameOrders (cfg : Config) (evs evs' : List RawEvent) : Prop where
  seq : ∀ mc ∈ cfg.matchers, mc.mode = "seq" → ∀ t,
    threadEvents mc.stages t evs = threadEvents mc.stages t evs'
  key : ∀ mc ∈ cfg.matchers, mc.mode = "key" → ∀ k,
    keyEvents mc.stages k evs = keyEvents mc.stages k evs'

/-- Only the threads and the keys that occur have to be compared. -/
theorem Config.sameOrders_iff {cfg : Config} {evs evs' : List RawEvent} :
    cfg.SameOrders evs evs' ↔
      (∀ mc ∈ cfg.matchers, mc.mode = "seq" → ∀ e ∈ evs ++ evs',
        threadEvents mc.stages e.tid evs = threadEvents mc.stages e.tid evs') ∧
      ∀ mc ∈ cfg.matchers, mc.mode = "key" → ∀ e ∈ evs ++ evs',
        keyEvents mc.stages e.key evs = keyEvents mc.stages e.key evs' := by
  constructor
  · rintro ⟨hseq, hkey⟩
    exact ⟨fun mc hmc hmode e _ => hseq mc hmc hmode e.tid,
      fun mc hmc hmode e _ => hkey mc hmc hmode e.key⟩
  · rintro ⟨hseq, hkey⟩
    constructor
    · intro mc hmc hmode t
      by_cases ht : ∃ e ∈ evs ++ evs', e.tid = t
      · obtain ⟨e, he, rfl⟩ := ht
        exact hseq mc hmc hmode e he
      · have hnil : ∀ l ⊆ evs ++ evs', threadEvents mc.stages t l = [] := fun l hl =>
          List.filter_eq_nil_iff.mpr fun e he hp => ht ⟨e, hl he, (of_decide_eq_true hp).1⟩
        rw [hnil evs (List.subset_append_left _ _), hnil evs' (List.subset_append_right _ _)]
    · intro mc hmc hmode k
      by_cases hk : ∃ e ∈ evs ++ evs', e.key = k
      · obtain ⟨e, he, rfl⟩ := hk
        exact hkey mc hmc hmode e he
      · have hnil : ∀ l ⊆ evs ++ evs', keyEvents mc.stages k l = [] := fun l hl =>
          List.filter_eq_nil_iff.mpr fun e he hp => hk ⟨e, hl he, (of_decide_eq_true hp).2⟩
        rw [hnil evs (List.subset_append_left _ _), hnil evs' (List.subset_append_right _ _)]

instance (cfg : Config) (evs evs' : List RawEvent) : Decidable (cfg.SameOrders evs evs') :=
  decidable_of_iff' _ Config.sameOrders_iff

section Matcher

variable {stages : List ℤ} (hr : ∀ s ∈ stages, InRange s) {evs evs' : List RawEvent}
  (hlt : ∀ e ∈ evs, e.stage < 64) (hlt' : ∀ e ∈ evs', e.stage < 64)
include hr hlt hlt'

omit hlt' in
/-- The groups of a thread are made of its own events. -/
theorem emits_threadEvents {t : UInt32}
    (hinj : ∀ e ∈ evs, passes stages e = true → e.tid % 65536 = t % 65536 → e.tid = t) :
    (emits (slotsStep stages) (fun _ => .zero) evs).filter (·.1.tid = t) =
      emits (slotStep stages) .zero (threadEvents stages t evs) := by
  have hes : (evs.filter (·.tid = t)).filter (passes stages) = threadEvents stages t evs := by
    rw [filter_passes hr fun e he => hlt e (List.mem_filter.mp he).1, List.filter_filter]
    simp [threadEvents, Bool.and_comm]
  rw [emits_of_thread hinj, ← emits_filter ignores_slotStep, hes]

theorem emits_slotsStep_perm (hd : SlotsDistinct evs)
    (h : ∀ t, threadEvents stages t evs = threadEvents stages t evs') :
    (emits (slotsStep stages) (fun _ => .zero) evs).Perm
      (emits (slotsStep stages) (fun _ => .zero) evs') := by
  -- what the matcher takes in of the second history is part of the first one
  have hmem : ∀ e ∈ evs', passes stages e = true → e ∈ evs := by
    intro e he hp
    have hthread : e ∈ threadEvents stages e.tid evs' :=
      List.mem_filter.mpr ⟨he, by simpa using (passes_iff hr (hlt' e he)).mp hp⟩
    rw [← h] at hthread
    exact List.mem_of_mem_filter hthread
  refine perm_of_keyed (·.1.tid) fun t => ?_
  by_cases ht : ∃ x ∈ evs, x.tid = t
  · obtain ⟨x, hx, rfl⟩ := ht
    have hinj : ∀ e ∈ evs, e.tid % 65536 = x.tid % 65536 → e.tid = x.tid :=
      fun e he heq => by_contra fun hne => hd e he x hx hne heq
    rw [emits_threadEvents hr hlt fun e he _ => hinj e he,
      emits_threadEvents hr hlt' fun e he hp => hinj e (hmem e he hp), h]
  · have hnil : ∀ l : List RawEvent, (∀ e ∈ l, passes stages e = true → e ∈ evs) →
        (emits (slotsStep stages) (fun _ => .zero) l).filter (·.1.tid = t) = [] := by
      intro l hl
      rw [List.filter_eq_nil_iff]
      rintro o ho heq
      obtain ⟨ho, hp⟩ := passes_of_mem_emits ho
      exact ht ⟨o.1, hl o.1 ho hp, of_decide_eq_true heq⟩
    rw [hnil evs fun e he _ => he, hnil evs' hmem]

theorem emits_keysStep_perm (h : ∀ k, keyEvents stages k evs = keyEvents stages k evs') :
    (emits (keysStep stages) (fun _ => none) evs).Perm
      (emits (keysStep stages) (fun _ => none) evs') := by
  refine perm_of_keyed (·.1.key) fun k => ?_
  rw [emits_keyed, emits_keyed, ← emits_filter (ignores_keyStep stages), keyEvents_eq hr hlt, h,
    ← keyEvents_eq hr hlt', emits_filter (ignores_keyStep stages)]

end Matcher

/-- All calls of a part. -/
def Part.callsOf (evs : List RawEvent) : Part → List Call
  | .seq id stages hooks => (groups id stages evs).flatMap fun g => hooks.map (·, g.2)
  | .key _ _ => []

theorem Part.callsOf_concat (p : Part) (evs : List RawEvent) (e : RawEvent) :
    p.callsOf (evs ++ [e]) = p.callsOf evs ++ p.callsAt evs e := by
  cases p with
  | key id stages => rfl
  | seq id stages hooks =>
    rw [callsOf, callsOf, callsAt, groups_concat, List.flatMap_append, List.flatMap_map]

theorem calls_perm_parts (ps : List Part) (evs : List RawEvent) :
    (calls ps evs).Perm (ps.flatMap (Part.callsOf evs)) := by
  induction evs using List.reverseRecOn with
  | nil =>
    have hnil : ps.flatMap (Part.callsOf []) = [] :=
      List.flatMap_eq_nil_iff.mpr fun p _ => by cases p <;> rfl
    rw [hnil]
    rfl
  | append_singleton evs e ih =>
    rw [calls_concat, callsAt]
    refine (ih.append_right _).trans ((List.flatMap_append_perm _ _ _).trans ?_)
    exact List.Perm.flatMap_left _ fun p _ => by rw [Part.callsOf_concat]

section Run

variable {cfg : Config} (hr : ∀ mc ∈ cfg.matchers, ∀ s ∈ mc.stages, InRange s)
  (order : IterationOrder) (csvOpen : Bool) {evs evs' : List RawEvent}
  (hlt : ∀ e ∈ evs, e.stage < 64) (hlt' : ∀ e ∈ evs', e.stage < 64) (hd : SlotsDistinct evs)
  (h : cfg.SameOrders evs evs')
include hr hlt hlt' hd h

theorem callsOf_perm {p : Part} (hp : p ∈ parts cfg order) :
    (p.callsOf evs).Perm (p.callsOf evs') := by
  cases p with
  | key id stages => rfl
  | seq id stages hooks =>
    obtain ⟨mc, hmc, hmode, -, rfl⟩ := mem_parts_seq hp
    rw [Part.callsOf, Part.callsOf, groups_eq, groups_eq]
    have hgroups := emits_slotsStep_perm (hr mc hmc) hlt hlt' hd (h.seq mc hmc hmode)
    exact (hgroups.map _).flatMap_right _

theorem pendingAfter_perm {p : Part} (hp : p ∈ parts cfg order) :
    (p.pendingAfter evs).Perm (p.pendingAfter evs') := by
  cases p with
  | key id stages =>
    obtain ⟨mc, hmc, hmode, -, rfl⟩ := mem_parts_key.mp hp
    rw [Part.pendingAfter, Part.pendingAfter, KeyMatcher.feedAll_new, KeyMatcher.feedAll_new]
    exact (emits_keysStep_perm (hr mc hmc) hlt hlt' (h.key mc hmc hmode)).flatMap_right _
  | seq id stages hooks =>
    obtain ⟨mc, hmc, hmode, -, rfl⟩ := mem_parts_seq hp
    exact (emits_slotsStep_perm (hr mc hmc) hlt hlt' hd (h.seq mc hmc hmode)).flatMap_right _

/-- The interleaving of the threads does not matter to the samples that do not come through a
queue. -/
theorem samples_of_interleavings :
    ((run cfg order csvOpen evs).world.samples.filter (·.route ≠ .fifo)).Perm
      ((run cfg order csvOpen evs').world.samples.filter (·.route ≠ .fifo)) := by
  have hcalls : (calls (parts cfg order) evs).Perm (calls (parts cfg order) evs') := by
    refine (calls_perm_parts _ evs).trans (List.Perm.trans ?_ (calls_perm_parts _ evs').symm)
    exact List.Perm.flatMap_left _ fun p hp => callsOf_perm hr order hlt hlt' hd h hp
  rw [run_directSamples hr, run_directSamples hr]
  refine (hcalls.flatMap_right _).append (List.Perm.filterMap _ ?_)
  exact List.Perm.flatMap_left _ fun p hp => pendingAfter_perm hr order hlt hlt' hd h hp

end Run

/-- The groups of two threads, one after the other and at the same time. -/
theorem samples_of_interleavings_pair :
    ((run ⟨"nebulaX", "", [], [⟨"io_flow", [0, 1], "seq", 4096⟩], [⟨"dispatch", 0, 1⟩]⟩ default
        false [⟨10, 7, 0, 0⟩, ⟨13, 7, 1, 0⟩, ⟨12, 8, 0, 0⟩, ⟨14, 8, 1, 0⟩]).world.samples.filter
          (·.route ≠ .fifo)).Perm
      ((run ⟨"nebulaX", "", [], [⟨"io_flow", [0, 1], "seq", 4096⟩], [⟨"dispatch", 0, 1⟩]⟩ default
        false [⟨10, 7, 0, 0⟩, ⟨12, 8, 0, 0⟩, ⟨13, 7, 1, 0⟩, ⟨14, 8, 1, 0⟩]).world.samples.filter
          (·.route ≠ .fifo)) :=
  samples_of_interleavings (by decide) default false (by decide) (by decide) (by decide) (by decide)

end LensX
