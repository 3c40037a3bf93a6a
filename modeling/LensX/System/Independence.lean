import LensX.System.Interleavings

/-! # One matcher at a time

The matchers of a configuration work on the same events without regard to each
other. Apart from the samples of the queues, a run records what the runs with
each single matcher record, whatever stages the matchers share.
-/

namespace LensX

open Bitmask

/-- The configuration with one of its matchers alone. -/
def Config.only (cfg : Config) (mc : MatcherConfig) : Config := { cfg with matchers := [mc] }

/-- The samples of a part that do not come through a queue. -/
def Part.samplesOf (keys : ReportKeys) (evs : List RawEvent) (p : Part) : List Sample :=
  (p.callsOf evs).flatMap (Call.seqSamples keys) ++
    (p.pendingAfter evs).filterMap (drainSample keys)

/-- The hooks of the queues add nothing to the samples outside them. -/
theorem Part.samplesOf_addHooks (keys : ReportKeys) (evs : List RawEvent) (p : Part)
    {hooks : List Hook} (hh : ∀ k ∈ hooks, k ≠ .pairs) :
    (p.addHooks (.pairs :: hooks)).samplesOf keys evs =
      (p.addHooks [.pairs]).samplesOf keys evs := by
  cases p with
  | key id stages => rfl
  | seq id stages hooks' =>
    have hnil : ∀ s, hooks.flatMap (fun k => Call.seqSamples keys (k, s)) = [] := by
      intro s
      rw [List.flatMap_eq_nil_iff]
      intro k hk
      cases k with
      | pairs => exact absurd rfl (hh _ hk)
      | push r => rfl
      | pop r => rfl
    rw [samplesOf, samplesOf, addHooks, addHooks, callsOf, callsOf, List.flatMap_assoc,
      List.flatMap_assoc]
    congr 1
    refine List.flatMap_congr fun g _ => ?_
    rw [List.flatMap_map, List.flatMap_map, List.append_cons, List.flatMap_append, hnil,
      List.append_nil]

/-- Every seq part has the callback of the pairs once. -/
theorem flatMap_samplesOf_parts {cfg : Config} (order : IterationOrder)
    (hids : ((cfg.matchers.filter (·.mode = "seq")).map (·.id)).Nodup) (keys : ReportKeys)
    (evs : List RawEvent) :
    (parts cfg order).flatMap (Part.samplesOf keys evs) =
      (baseParts cfg.matchers).flatMap fun p => (p.addHooks [.pairs]).samplesOf keys evs := by
  have hmap : (parts cfg order).map (Part.samplesOf keys evs) =
      (baseParts cfg.matchers).map fun p => (p.addHooks [.pairs]).samplesOf keys evs := by
    apply List.ext_getElem?
    intro i
    rw [List.getElem?_map, List.getElem?_map, getElem?_parts]
    cases hi : (baseParts cfg.matchers)[i]? with
    | none => rfl
    | some p =>
      simp only [Option.map_some]
      cases p with
      | key id stages => rfl
      | seq id stages hooks =>
        have hinv := seqMapInv_baseWiring cfg.matchers
        have hperm : ((seqEntries cfg order).map (·.2)).Perm
            ((baseWiring cfg.matchers).seqMap.map (·.2)) := (order.perm _).map _
        have hpairs := hooksAt_pairs (hperm.nodup_iff.mpr hinv.nodup)
          (hperm.mem_iff.mpr (List.mem_map.mpr ⟨_, hinv.total hids i _ _ _ hi, rfl⟩))
        rw [registrations, hooksAt_append, hpairs, List.singleton_append,
          Part.samplesOf_addHooks]
        intro k hk
        obtain ⟨r, _, p, q, _, ⟨rfl, _⟩ | ⟨rfl, _⟩⟩ := mem_hooksAt_connect hk <;> simp
  rw [List.flatMap, hmap, ← List.flatMap]

/-- A single matcher has nothing to be connected to. -/
theorem connection_single {mc : MatcherConfig} {seqs : List (String × ℕ)} {r : ReportConfig}
    {p q : ℕ} : connection (baseParts [mc]) seqs r ≠ some (p, q) := by
  intro h
  obtain ⟨hp, hq, hne⟩ := connection_eq_some_iff.mp h
  have hzero : ∀ {t : ℤ} {i : ℕ}, findPart (baseParts [mc]) seqs t = some i → i = 0 := by
    intro t i hi
    obtain ⟨_, _, _, part, hpart, _⟩ := exists_of_findPart hi
    have hlt := (List.getElem?_eq_some_iff.mp hpart).1
    have hlen : (baseParts [mc]).length ≤ 1 := List.length_filterMap_le _ _
    omega
  exact hne ((hzero hp).trans (hzero hq).symm)

section Run

variable {cfg : Config} (hr : ∀ mc ∈ cfg.matchers, ∀ s ∈ mc.stages, InRange s)
  (order : IterationOrder) (csvOpen : Bool) (evs : List RawEvent)
include hr

theorem run_samplesOf_parts :
    ((run cfg order csvOpen evs).world.samples.filter (·.route ≠ .fifo)).Perm
      ((parts cfg order).flatMap (Part.samplesOf (reportKeys cfg.reports) evs)) := by
  rw [run_directSamples hr, drainSamples, drained, List.filterMap_flatMap]
  refine (((calls_perm_parts _ evs).flatMap_right _).append_right _).trans ?_
  rw [List.flatMap_assoc]
  exact List.flatMap_append_perm _ _ _

/-- A configuration with a single matcher records nothing through a queue. -/
theorem route_ne_fifo_of_single {mc : MatcherConfig} (hmc : cfg.matchers = [mc]) {x : Sample}
    (hx : x ∈ (run cfg order csvOpen evs).world.samples) : x.route ≠ .fifo := by
  intro hroute
  obtain ⟨r, id, stages, hooks, hp, hh, _⟩ :=
    run_fifo_report (fun mc hm _ => hr mc hm) order csvOpen evs hx hroute
  obtain ⟨i, hi⟩ := List.mem_iff_getElem?.mp hp
  rcases hook_of_parts hi hh with hbad | ⟨r', _, p, q, hcon, _⟩
  · exact Hook.noConfusion hbad
  · rw [hmc] at hcon
    exact connection_single hcon

/-- The samples that do not come through a queue are those of the runs with one matcher each. -/
theorem samples_of_matchers
    (hids : ((cfg.matchers.filter (·.mode = "seq")).map (·.id)).Nodup) :
    ((run cfg order csvOpen evs).world.samples.filter (·.route ≠ .fifo)).Perm
      (cfg.matchers.flatMap fun mc => (run (cfg.only mc) order csvOpen evs).world.samples) := by
  refine (run_samplesOf_parts hr order csvOpen evs).trans ?_
  rw [flatMap_samplesOf_parts order hids, baseParts, List.filterMap_eq_flatMap_toList,
    List.flatMap_assoc]
  refine List.Perm.flatMap_left _ fun mc hmc => ?_
  have hone : ∀ mc' ∈ (cfg.only mc).matchers, ∀ s ∈ mc'.stages, InRange s := by
    intro mc' hmc'
    obtain rfl := List.mem_singleton.mp hmc'
    exact hr mc' hmc
  have hid : (((cfg.only mc).matchers.filter (·.mode = "seq")).map (·.id)).Nodup :=
    (List.nodup_singleton mc.id).sublist (List.filter_sublist.map _)
  have hbase : baseParts (cfg.only mc).matchers = (Part.of mc).toList := baseParts_concat [] mc
  have hall := List.filter_eq_self.mpr fun x hx => decide_eq_true
    (route_ne_fifo_of_single hone order csvOpen evs rfl (x := x) hx)
  have hrun := run_samplesOf_parts hone order csvOpen evs
  rw [hall, flatMap_samplesOf_parts order hid, hbase] at hrun
  exact hrun.symm

end Run

/-- Two seq matchers that are connected by a queue, and a key matcher that shares their stages. -/
theorem samples_of_matchers_shared :
    ((run ⟨"nebulaX", "", [], [⟨"io_flow", [0, 1], "seq", 4096⟩, ⟨"dev_flow", [1, 2], "seq", 4096⟩,
        ⟨"by_key", [0, 2], "key", 4096⟩], [⟨"dispatch", 0, 1⟩, ⟨"total", 0, 2⟩]⟩ default false
        [⟨10, 7, 0, 5⟩, ⟨13, 7, 1, 5⟩, ⟨17, 7, 2, 5⟩]).world.samples.filter
          (·.route ≠ .fifo)).Perm
      ([⟨"io_flow", [0, 1], "seq", 4096⟩, ⟨"dev_flow", [1, 2], "seq", 4096⟩,
        ⟨"by_key", [0, 2], "key", 4096⟩].flatMap fun mc : MatcherConfig =>
          (run ⟨"nebulaX", "", [], [mc], [⟨"dispatch", 0, 1⟩, ⟨"total", 0, 2⟩]⟩ default false
            [⟨10, 7, 0, 5⟩, ⟨13, 7, 1, 5⟩, ⟨17, 7, 2, 5⟩]).world.samples) :=
  samples_of_matchers (by decide) default false _ (by decide)

end LensX
