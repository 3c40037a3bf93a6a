import LensX.System.Pairing
import LensX.System.Provenance

/-! # The order of `seq_map`

The loops over the unordered `seq_map` register the callbacks of the pairs and
look for the two matchers of a report. The last matcher visited wins, so the
wiring is the same for all orders exactly when no report has a choice.
-/

namespace LensX

open Bitmask

/-- The seq matchers that list a stage. -/
def Config.owners (cfg : Config) (stage : ℤ) : List MatcherConfig :=
  cfg.matchers.filter fun mc => mc.mode = "seq" ∧ stage ∈ mc.stages

/-- The order of the search does not matter for a report: one of its stages has no owner, both have
the same owners, or both have exactly one. -/
def Config.Settled (cfg : Config) (r : ReportConfig) : Prop :=
  cfg.owners r.fromStage = [] ∨ cfg.owners r.toStage = [] ∨
    cfg.owners r.fromStage = cfg.owners r.toStage ∨
    (cfg.owners r.fromStage).length = 1 ∧ (cfg.owners r.toStage).length = 1

instance (cfg : Config) (r : ReportConfig) : Decidable (cfg.Settled r) :=
  inferInstanceAs (Decidable (_ ∨ _))

theorem mem_owners {cfg : Config} {stage : ℤ} {mc : MatcherConfig} :
    mc ∈ cfg.owners stage ↔ mc ∈ cfg.matchers ∧ mc.mode = "seq" ∧ stage ∈ mc.stages := by
  simp [Config.owners]

/-- The order that visits an entry last. -/
def IterationOrder.visitLast (en : String × ℕ) : IterationOrder where
  visit l := if en ∈ l then l.erase en ++ [en] else l
  perm l := by
    split
    · next h => exact (List.perm_append_singleton _ _).trans (List.perm_cons_erase h).symm
    · exact .refl l

section Positions

variable {cfg : Config} (hids : (cfg.matchers.map (·.id)).Nodup)
include hids

/-- A seq matcher has one position, which `seq_map` holds under its id. -/
theorem exists_entry {mc : MatcherConfig} (hm : mc ∈ cfg.matchers) (hmode : mc.mode = "seq") :
    ∃ i : ℕ, (baseParts cfg.matchers)[i]? = some (.seq mc.id mc.stages []) ∧
      (mc.id, i) ∈ (baseWiring cfg.matchers).seqMap ∧
      ∀ (j : ℕ) (mc' : MatcherConfig), mc' ∈ cfg.matchers →
        (baseParts cfg.matchers)[j]? = some (.seq mc'.id mc'.stages []) → (j = i ↔ mc' = mc) := by
  obtain ⟨i, hi, hothers⟩ := exists_position (List.pairwise_map.mp hids) hm (part_of_seq hmode)
  have hentry := (seqMapInv_baseWiring cfg.matchers).total
    (hids.sublist (List.filter_sublist.map _)) i _ _ _ hi
  refine ⟨i, hi, hentry, fun j mc' hm' hj => ⟨?_, ?_⟩⟩
  · rintro rfl
    obtain ⟨hid, _⟩ := Part.seq.inj (Option.some.inj (hj.symm.trans hi))
    exact List.inj_on_of_nodup_map hids hm' hm hid
  · rintro rfl
    by_contra hne
    obtain ⟨mc'', _, hof, hR⟩ := hothers j _ hj hne
    obtain ⟨_, hid, _⟩ := part_of_eq_seq hof
    rcases hR with hR | hR
    · exact hR hid.symm
    · exact hR hid

end Positions

section Orders

variable {cfg : Config} (hr : ∀ mc ∈ cfg.matchers, mc.mode = "seq" → ∀ s ∈ mc.stages, InRange s)
  (hids : (cfg.matchers.map (·.id)).Nodup) {order order' : IterationOrder}
include hr

/-- Whether an entry has a stage depends on its matcher. -/
theorem hasStage_entry {en : String × ℕ}
    (hen : en ∈ (baseWiring cfg.matchers).seqMap) :
    ∃ mc ∈ cfg.matchers, mc.mode = "seq" ∧ mc.id = en.1 ∧
      (baseParts cfg.matchers)[en.2]? = some (.seq mc.id mc.stages []) ∧
      ∀ stage, InRange stage →
        ((baseParts cfg.matchers)[en.2]?.elim false (Part.hasStage stage) = true ↔
          mc ∈ cfg.owners stage) := by
  obtain ⟨mc, hm, hmode, hid, hp⟩ := (seqMapInv_baseWiring cfg.matchers).entry en hen
  refine ⟨mc, hm, hmode, hid, hp, fun stage hs => ?_⟩
  rw [hp, Option.elim_some, Part.hasStage_seq_iff (hr mc hm hmode) hs, mem_owners]
  simp [hm, hmode]

theorem findPart_eq_none {stage : ℤ} (hs : InRange stage) (hno : cfg.owners stage = []) :
    findPart (baseParts cfg.matchers) (seqEntries cfg order) stage = none := by
  by_contra hf
  obtain ⟨p, hp⟩ := Option.ne_none_iff_exists'.mp hf
  obtain ⟨mc, hm, hmode, hmem, _⟩ := exists_owner hr hs hp
  exact absurd (mem_owners.mpr ⟨hm, hmode, hmem⟩) (by simp [hno])

/-- Stages with the same owners are found at the same position. -/
theorem findPart_congr {s t : ℤ} (hs : InRange s) (ht : InRange t)
    (hst : cfg.owners s = cfg.owners t) :
    findPart (baseParts cfg.matchers) (seqEntries cfg order) s =
      findPart (baseParts cfg.matchers) (seqEntries cfg order) t := by
  have hmem : ∀ en ∈ seqEntries cfg order, en ∈ (baseWiring cfg.matchers).seqMap :=
    fun en hen => (order.perm _).mem_iff.mp hen
  generalize seqEntries cfg order = seqs at hmem
  induction seqs using List.reverseRecOn with
  | nil => rfl
  | append_singleton seqs en ih =>
    obtain ⟨mc, _, _, _, _, hhas⟩ := hasStage_entry hr (hmem en (by simp))
    have heq := (hhas s hs).trans (hst ▸ (hhas t ht).symm)
    rw [findPart_concat, findPart_concat, ih fun en' hen' => hmem en' (List.mem_append_left _ hen')]
    simp only [heq]

include hids

/-- A stage with an owner is found, in every order, at the position of an owner. -/
theorem exists_findPart_owner (order : IterationOrder) {stage : ℤ} (hne : cfg.owners stage ≠ []) :
    ∃ mc ∈ cfg.owners stage, ∃ p,
      findPart (baseParts cfg.matchers) (seqEntries cfg order) stage = some p ∧
        (baseParts cfg.matchers)[p]? = some (.seq mc.id mc.stages []) := by
  obtain ⟨mc, hmc⟩ := List.exists_mem_of_ne_nil _ hne
  obtain ⟨hm, hmode, hs⟩ := mem_owners.mp hmc
  obtain ⟨p, hp⟩ := exists_findPart order hr (hids.sublist (List.filter_sublist.map _)) hm hmode hs
  obtain ⟨mc', hm', hmode', hs', hpart⟩ := exists_owner hr (hr mc hm hmode stage hs) hp
  exact ⟨mc', mem_owners.mpr ⟨hm', hmode', hs'⟩, p, hp, hpart⟩

/-- A stage with one owner is found at the same position in all orders. -/
theorem findPart_eq_of_single (order order' : IterationOrder) {stage : ℤ}
    (hone : (cfg.owners stage).length = 1) :
    findPart (baseParts cfg.matchers) (seqEntries cfg order) stage =
      findPart (baseParts cfg.matchers) (seqEntries cfg order') stage := by
  obtain ⟨A, hA⟩ := List.length_eq_one_iff.mp hone
  have hne : cfg.owners stage ≠ [] := by simp [hA]
  obtain ⟨mc, hmc, p, hp, hpart⟩ := exists_findPart_owner hr hids order hne
  obtain ⟨mc', hmc', p', hp', hpart'⟩ := exists_findPart_owner hr hids order' hne
  obtain rfl : mc = A := by simpa [hA] using hmc
  obtain rfl : mc' = mc := by simpa [hA] using hmc'
  obtain ⟨hm, hmode, _⟩ := mem_owners.mp hmc'
  obtain ⟨i, _, _, hpos⟩ := exists_entry hids hm hmode
  rw [hp, hp', (hpos p _ hm hpart).mpr rfl, (hpos p' _ hm hpart').mpr rfl]

/-- The connection of a settled report is the same in all orders. -/
theorem connection_eq_of_settled {r : ReportConfig} (hf : InRange r.fromStage)
    (ht : InRange r.toStage) (hset : cfg.Settled r) :
    connection (baseParts cfg.matchers) (seqEntries cfg order) r =
      connection (baseParts cfg.matchers) (seqEntries cfg order') r := by
  unfold connection
  rcases hset with hnone | hnone | hsame | ⟨hone, hone'⟩
  · rw [findPart_eq_none hr hf hnone, findPart_eq_none hr hf hnone]
  · rw [findPart_eq_none hr ht hnone, findPart_eq_none hr ht hnone]
    cases findPart (baseParts cfg.matchers) (seqEntries cfg order) r.fromStage <;>
      cases findPart (baseParts cfg.matchers) (seqEntries cfg order') r.fromStage <;> rfl
  · -- both stages are found at one position, wherever that is
    rw [findPart_congr hr hf ht hsame, findPart_congr hr hf ht hsame]
    cases findPart (baseParts cfg.matchers) (seqEntries cfg order) r.toStage <;>
      cases findPart (baseParts cfg.matchers) (seqEntries cfg order') r.toStage <;> simp
  · rw [findPart_eq_of_single hr hids order order' hone,
      findPart_eq_of_single hr hids order order' hone']

/-- A matcher that is visited last is found for all its stages. -/
theorem findPart_visitLast {mc : MatcherConfig} (hm : mc ∈ cfg.matchers) (hmode : mc.mode = "seq") :
    ∃ en : String × ℕ, (baseParts cfg.matchers)[en.2]? = some (.seq mc.id mc.stages []) ∧
      ∀ stage, mc ∈ cfg.owners stage →
        findPart (baseParts cfg.matchers) (seqEntries cfg (.visitLast en)) stage = some en.2 := by
  obtain ⟨i, hi, hentry, _⟩ := exists_entry hids hm hmode
  refine ⟨(mc.id, i), hi, fun stage hmc => ?_⟩
  obtain ⟨_, _, hs⟩ := mem_owners.mp hmc
  have hhas : (Part.seq mc.id mc.stages []).hasStage stage = true :=
    (Part.hasStage_seq_iff (hr mc hm hmode) (hr mc hm hmode stage hs)).mpr hs
  have hvisit : seqEntries cfg (.visitLast (mc.id, i)) =
      (baseWiring cfg.matchers).seqMap.erase (mc.id, i) ++ [(mc.id, i)] := if_pos hentry
  rw [hvisit, findPart_concat, hi, Option.elim_some, if_pos hhas]

omit hr in
/-- Two seq matchers at one position are the same. -/
theorem eq_of_position {p : ℕ} {mc mc' : MatcherConfig} (hm : mc ∈ cfg.matchers)
    (hm' : mc' ∈ cfg.matchers)
    (hp : (baseParts cfg.matchers)[p]? = some (.seq mc.id mc.stages []))
    (hp' : (baseParts cfg.matchers)[p]? = some (.seq mc'.id mc'.stages [])) : mc = mc' := by
  obtain ⟨hid, _⟩ := Part.seq.inj (Option.some.inj (hp.symm.trans hp'))
  exact List.inj_on_of_nodup_map hids hm hm' hid

/-- A report whose stages have one owner each is connected unless the two are the same. -/
theorem connection_of_owners (order : IterationOrder) {r : ReportConfig} {A B : MatcherConfig}
    (hA : cfg.owners r.fromStage = [A]) (hB : cfg.owners r.toStage = [B]) :
    ∃ p q, (baseParts cfg.matchers)[p]? = some (.seq A.id A.stages []) ∧
      (baseParts cfg.matchers)[q]? = some (.seq B.id B.stages []) ∧
      connection (baseParts cfg.matchers) (seqEntries cfg order) r =
        if A = B then none else some (p, q) := by
  have hneA : cfg.owners r.fromStage ≠ [] := by simp [hA]
  have hneB : cfg.owners r.toStage ≠ [] := by simp [hB]
  obtain ⟨A', hA', p, hp, hpA⟩ := exists_findPart_owner hr hids order hneA
  obtain ⟨B', hB', q, hq, hqB⟩ := exists_findPart_owner hr hids order hneB
  obtain rfl : A' = A := by simpa [hA] using hA'
  obtain rfl : B' = B := by simpa [hB] using hB'
  obtain ⟨hmA, hmode, _⟩ := mem_owners.mp hA'
  obtain ⟨hmB, _⟩ := mem_owners.mp hB'
  obtain ⟨i, _, _, hpos⟩ := exists_entry hids hmA hmode
  have hpq : p = q ↔ A' = B' := by
    rw [(hpos p _ hmA hpA).mpr rfl, eq_comm, hpos q _ hmB hqB, eq_comm]
  refine ⟨p, q, hpA, hqB, ?_⟩
  rw [connection, hp, hq]
  simp only [hpq]

section Choice

variable {r : ReportConfig} {mc : MatcherConfig}

/-- An order that visits a common owner last leaves the report unconnected. -/
theorem exists_unconnected (hfrom : mc ∈ cfg.owners r.fromStage) (hto : mc ∈ cfg.owners r.toStage) :
    ∃ order, connection (baseParts cfg.matchers) (seqEntries cfg order) r = none := by
  obtain ⟨hm, hmode, _⟩ := mem_owners.mp hfrom
  obtain ⟨en, _, hfound⟩ := findPart_visitLast hr hids hm hmode
  exact ⟨.visitLast en, by simp [connection, hfound _ hfrom, hfound _ hto]⟩

/-- An order that visits an owner of the first stage alone last makes it the producer. -/
theorem exists_producer (hfrom : mc ∈ cfg.owners r.fromStage) (hto : mc ∉ cfg.owners r.toStage)
    (hne : cfg.owners r.toStage ≠ []) :
    ∃ order p q, connection (baseParts cfg.matchers) (seqEntries cfg order) r = some (p, q) ∧
      (baseParts cfg.matchers)[p]? = some (.seq mc.id mc.stages []) := by
  obtain ⟨hm, hmode, _⟩ := mem_owners.mp hfrom
  obtain ⟨en, hen, hfound⟩ := findPart_visitLast hr hids hm hmode
  obtain ⟨mc', hmc', q, hq, hpart⟩ := exists_findPart_owner hr hids (.visitLast en) hne
  have hpq : en.2 ≠ q := by
    rintro rfl
    have he := eq_of_position hids hm (mem_owners.mp hmc').1 hen hpart
    exact hto (he ▸ hmc')
  exact ⟨.visitLast en, en.2, q, connection_eq_some_iff.mpr ⟨hfound _ hfrom, hq, hpq⟩, hen⟩

/-- An order that visits an owner of the second stage alone last makes it the consumer. -/
theorem exists_consumer (hfrom : mc ∉ cfg.owners r.fromStage) (hto : mc ∈ cfg.owners r.toStage)
    (hne : cfg.owners r.fromStage ≠ []) :
    ∃ order p q, connection (baseParts cfg.matchers) (seqEntries cfg order) r = some (p, q) ∧
      (baseParts cfg.matchers)[q]? = some (.seq mc.id mc.stages []) := by
  obtain ⟨hm, hmode, _⟩ := mem_owners.mp hto
  obtain ⟨en, hen, hfound⟩ := findPart_visitLast hr hids hm hmode
  obtain ⟨mc', hmc', p, hp, hpart⟩ := exists_findPart_owner hr hids (.visitLast en) hne
  have hpq : p ≠ en.2 := by
    rintro rfl
    have he := eq_of_position hids hm (mem_owners.mp hmc').1 hen hpart
    exact hfrom (he ▸ hmc')
  exact ⟨.visitLast en, p, en.2, connection_eq_some_iff.mpr ⟨hp, hfound _ hto, hpq⟩, hen⟩

omit hr in
theorem exists_ne_owner {stage : ℤ} (hne : cfg.owners stage ≠ [])
    (hlen : (cfg.owners stage).length ≠ 1) :
    ∃ a ∈ cfg.owners stage, ∃ b ∈ cfg.owners stage, a ≠ b := by
  have hd : (cfg.owners stage).Nodup := (hids.of_map _).filter _
  obtain ⟨a, ha⟩ := List.exists_mem_of_ne_nil _ hne
  have hsingle : cfg.owners stage ≠ [a] := fun he => hlen (by simp [he])
  obtain ⟨b, hb, hba⟩ := ((hd.ne_singleton_iff a).mp hsingle).resolve_left hne
  exact ⟨a, ha, b, hb, hba.symm⟩

/-- A report that every order connects in the same way is settled. -/
theorem settled_of_connection_eq
    (hall : ∀ order order', connection (baseParts cfg.matchers) (seqEntries cfg order) r =
      connection (baseParts cfg.matchers) (seqEntries cfg order') r) : cfg.Settled r := by
  by_contra hno
  simp only [Config.Settled, not_or, not_and] at hno
  obtain ⟨hf, ht, hdiff, hlen⟩ := hno
  by_cases hshared : ∃ x, x ∈ cfg.owners r.fromStage ∧ x ∈ cfg.owners r.toStage
  · obtain ⟨x, hxf, hxt⟩ := hshared
    obtain ⟨order, hnone⟩ := exists_unconnected hr hids hxf hxt
    have hiff : ∀ y, y ∈ cfg.owners r.fromStage ↔ y ∈ cfg.owners r.toStage := by
      intro y
      constructor
      · intro hyf
        by_contra hyt
        obtain ⟨order', p, q, hcon, _⟩ := exists_producer hr hids hyf hyt ht
        exact absurd ((hall order order').symm.trans hnone) (by simp [hcon])
      · intro hyt
        by_contra hyf
        obtain ⟨order', p, q, hcon, _⟩ := exists_consumer hr hids hyf hyt hf
        exact absurd ((hall order order').symm.trans hnone) (by simp [hcon])
    refine hdiff (List.filter_congr fun y hy => decide_eq_decide.mpr ?_)
    simpa only [mem_owners, hy, true_and] using hiff y
  · have hprivate : ∀ x ∈ cfg.owners r.fromStage, x ∉ cfg.owners r.toStage :=
      fun x hxf hxt => hshared ⟨x, hxf, hxt⟩
    by_cases hone : (cfg.owners r.fromStage).length = 1
    · obtain ⟨a, ha, b, hb, hab⟩ := exists_ne_owner hids ht (hlen hone)
      obtain ⟨order, p, q, hcon, hq⟩ := exists_consumer hr hids (fun hx => hprivate a hx ha) ha hf
      obtain ⟨order', p', q', hcon', hq'⟩ :=
        exists_consumer hr hids (fun hx => hprivate b hx hb) hb hf
      rw [hall order order', hcon', Option.some.injEq, Prod.mk.injEq] at hcon
      exact hab (eq_of_position hids (mem_owners.mp ha).1 (mem_owners.mp hb).1 hq (hcon.2 ▸ hq'))
    · obtain ⟨a, ha, b, hb, hab⟩ := exists_ne_owner hids hf hone
      obtain ⟨order, p, q, hcon, hp⟩ := exists_producer hr hids ha (hprivate a ha) ht
      obtain ⟨order', p', q', hcon', hp'⟩ := exists_producer hr hids hb (hprivate b hb) ht
      rw [hall order order', hcon', Option.some.injEq, Prod.mk.injEq] at hcon
      exact hab (eq_of_position hids (mem_owners.mp ha).1 (mem_owners.mp hb).1 hp (hcon.1 ▸ hp'))

end Choice

omit hr hids in
/-- The callbacks of the pairs at a position do not depend on the order. -/
theorem hooksAt_pairs_perm {seqs seqs' : List (String × ℕ)} (hp : seqs.Perm seqs') (i : ℕ) :
    hooksAt (seqs.map fun en => (en.2, .pairs)) i =
      hooksAt (seqs'.map fun en => (en.2, .pairs)) i := by
  have hrep : ∀ l : List (String × ℕ), hooksAt (l.map fun en => (en.2, .pairs)) i =
      List.replicate (l.countP (·.2 = i)) .pairs := by
    intro l
    rw [List.eq_replicate_iff]
    constructor
    · rw [hooksAt, List.length_map, List.filter_map, List.length_map, List.countP_eq_length_filter]
      rfl
    · exact fun k hk => mem_hooksAt_pairs hk
  rw [hrep, hrep, hp.countP_eq]

omit hr hids in
theorem parts_eq_of_connection_eq
    (hcon : ∀ r ∈ cfg.reports, connection (baseParts cfg.matchers) (seqEntries cfg order) r =
      connection (baseParts cfg.matchers) (seqEntries cfg order') r) :
    parts cfg order = parts cfg order' := by
  have hhooks : cfg.reports.flatMap (connectHooks (baseParts cfg.matchers) (seqEntries cfg order)) =
      cfg.reports.flatMap (connectHooks (baseParts cfg.matchers) (seqEntries cfg order')) := by
    refine List.flatMap_congr fun r hr => ?_
    rw [connectHooks, connectHooks, hcon r hr]
  have hperm : (seqEntries cfg order).Perm (seqEntries cfg order') :=
    (order.perm _).trans (order'.perm _).symm
  apply List.ext_getElem?
  intro i
  rw [getElem?_parts, getElem?_parts, registrations, registrations, hooksAt_append, hooksAt_append,
    hhooks, hooksAt_pairs_perm hperm]

omit hr hids in
/-- Runs with the same parts and the same connections are the same. -/
theorem run_congr
    (hcon : ∀ r ∈ cfg.reports, connection (baseParts cfg.matchers) (seqEntries cfg order) r =
      connection (baseParts cfg.matchers) (seqEntries cfg order') r) (csvOpen : Bool)
    (evs : List RawEvent) : run cfg order csvOpen evs = run cfg order' csvOpen evs := by
  have hfifos : (wire cfg order).fifos = (wire cfg order').fifos := by
    ext1 name
    rw [wire_fifos, wire_fifos]
    congr 1
    refine propext (exists_congr fun r => and_congr_right fun hr => ?_)
    rw [hcon r hr]
  have hinit : Tracer.init cfg order csvOpen = Tracer.init cfg order' csvOpen := by
    rw [Tracer.init, Tracer.init, hfifos, wire_matchers, wire_matchers,
      parts_eq_of_connection_eq hcon]
  rw [run, run, hinit]

omit hids in
/-- The hooks of a report stand at the positions that it connects. -/
theorem exists_hooks {r : ReportConfig} (hf : InRange r.fromStage) (ht : InRange r.toStage)
    (hmem : r ∈ cfg.reports) {p q : ℕ}
    (hcon : connection (baseParts cfg.matchers) (seqEntries cfg order) r = some (p, q)) :
    (∃ id stages hooks, (parts cfg order)[p]? = some (.seq id stages hooks) ∧ .push r ∈ hooks) ∧
      ∃ id stages hooks, (parts cfg order)[q]? = some (.seq id stages hooks) ∧ .pop r ∈ hooks := by
  have hhooks : ∀ g ∈ connectHooks (baseParts cfg.matchers) (seqEntries cfg order) r,
      g.2 ∈ hooksAt (registrations cfg order) g.1 := by
    intro g hg
    refine List.mem_map.mpr ⟨g, List.mem_filter.mpr ⟨?_, by simp⟩, rfl⟩
    exact List.mem_append_right _ (List.mem_flatMap.mpr ⟨r, hmem, hg⟩)
  have hpart : ∀ (i : ℕ) (stage : ℤ), InRange stage →
      findPart (baseParts cfg.matchers) (seqEntries cfg order) stage = some i →
      ∃ id stages, (parts cfg order)[i]? =
        some (.seq id stages (hooksAt (registrations cfg order) i)) := by
    intro i stage hs hi
    obtain ⟨mc, _, _, _, hb⟩ := exists_owner hr hs hi
    exact ⟨mc.id, mc.stages, by rw [getElem?_parts, hb]; rfl⟩
  rw [connectHooks, hcon] at hhooks
  obtain ⟨hp, hq, -⟩ := connection_eq_some_iff.mp hcon
  obtain ⟨id, stages, hp⟩ := hpart _ _ hf hp
  obtain ⟨id', stages', hq⟩ := hpart _ _ ht hq
  exact ⟨⟨id, stages, _, hp, hhooks (p, .push r) (by simp)⟩,
    ⟨id', stages', _, hq, hhooks (q, .pop r) (by simp)⟩⟩

omit hids in
/-- The hooks of a report tell which parts it connects. -/
theorem connection_of_parts_eq (hparts : parts cfg order = parts cfg order') {r : ReportConfig}
    (hf : InRange r.fromStage) (ht : InRange r.toStage) (hmem : r ∈ cfg.reports) {p q : ℕ}
    (hcon : connection (baseParts cfg.matchers) (seqEntries cfg order) r = some (p, q)) :
    connection (baseParts cfg.matchers) (seqEntries cfg order') r = some (p, q) := by
  obtain ⟨⟨_, _, _, hp, hpush⟩, ⟨_, _, _, hq, hpop⟩⟩ := exists_hooks hr hf ht hmem hcon
  rw [hparts] at hp hq
  have hp' : ∃ q',
      connection (baseParts cfg.matchers) (seqEntries cfg order') r = some (p, q') := by
    rcases hook_of_parts hp hpush with hbad | ⟨r', _, p', q', hc, ⟨he, rfl⟩ | ⟨hbad, _⟩⟩
    · exact Hook.noConfusion hbad
    · obtain rfl := Hook.push.inj he
      exact ⟨q', hc⟩
    · exact Hook.noConfusion hbad
  have hq' : ∃ p',
      connection (baseParts cfg.matchers) (seqEntries cfg order') r = some (p', q) := by
    rcases hook_of_parts hq hpop with hbad | ⟨r', _, p', q', hc, ⟨hbad, _⟩ | ⟨he, rfl⟩⟩
    · exact Hook.noConfusion hbad
    · exact Hook.noConfusion hbad
    · obtain rfl := Hook.pop.inj he
      exact ⟨p', hc⟩
  obtain ⟨q', hp'⟩ := hp'
  obtain ⟨p', hq'⟩ := hq'
  obtain ⟨rfl, rfl⟩ := Prod.mk.inj (Option.some.inj (hp'.symm.trans hq'))
  exact hp'

end Orders

/-- All orders build the same wiring exactly when every report is settled, and then all runs on the
same events are the same. -/
theorem wiring_order_free_iff {cfg : Config} (h : cfg.Sound)
    (hids : (cfg.matchers.map (·.id)).Nodup) :
    ((∀ order order', parts cfg order = parts cfg order') ↔ ∀ r ∈ cfg.reports, cfg.Settled r) ∧
      ((∀ r ∈ cfg.reports, cfg.Settled r) → ∀ order order' csvOpen evs,
        run cfg order csvOpen evs = run cfg order' csvOpen evs) := by
  have hconnect : (∀ r ∈ cfg.reports, cfg.Settled r) → ∀ (order order' : IterationOrder),
      ∀ r ∈ cfg.reports, connection (baseParts cfg.matchers) (seqEntries cfg order) r =
        connection (baseParts cfg.matchers) (seqEntries cfg order') r := by
    intro hset order order' r hr
    obtain ⟨hf, ht⟩ := h.reports r hr
    exact connection_eq_of_settled h.seqStages hids hf ht (hset r hr)
  refine ⟨⟨fun hparts r hr => ?_, fun hset order order' => ?_⟩, fun hset order order' => ?_⟩
  · refine settled_of_connection_eq h.seqStages hids fun order order' => Option.ext fun c => ?_
    obtain ⟨hf, ht⟩ := h.reports r hr
    constructor
    · exact connection_of_parts_eq h.seqStages (hparts order order') hf ht hr
    · exact connection_of_parts_eq h.seqStages (hparts order' order) hf ht hr
  · exact parts_eq_of_connection_eq (hconnect hset order order')
  · exact run_congr (hconnect hset order order')

/-- Stage 0 has two owners, and the report is paired through a queue in one order only. -/
theorem order_changes_samples :
    ¬ ∀ cfg : Config, cfg.Sound → (cfg.matchers.map (·.id)).Nodup →
      (cfg.reports.map fun r => (r.fromStage, r.toStage)).Nodup →
      ∀ evs : List RawEvent, (∀ e ∈ evs, e.stage < 64) → evs.length < 2 ^ 31 →
        ∀ (order order' : IterationOrder) (csvOpen : Bool), ∀ r ∈ cfg.reports,
          ((run cfg order csvOpen evs).world.samples.filter (·.report = r.name)).Perm
            ((run cfg order' csvOpen evs).world.samples.filter (·.report = r.name)) := by
  intro h
  have hrun := h ⟨"nebulaX", "", [], [⟨"io_flow", [0, 1], "seq", 4096⟩,
      ⟨"send_flow", [0, 2], "seq", 4096⟩], [⟨"dispatch", 0, 1⟩]⟩
    (by constructor <;> decide) (by decide) (by decide)
    [⟨10, 7, 0, 0⟩, ⟨11, 7, 2, 0⟩, ⟨12, 7, 1, 0⟩] (by decide) (by decide)
    (.visitLast ("io_flow", 0)) (.visitLast ("send_flow", 1)) false _ (List.mem_singleton_self _)
  have hlen := hrun.length_eq
  revert hlen
  decide

/-- Two reports between matchers that share no stage, visited in both orders. -/
theorem wiring_order_free_pair :
    let cfg : Config := ⟨"nebulaX", "", [], [⟨"io_flow", [0, 1], "seq", 4096⟩,
      ⟨"send_flow", [5, 6], "seq", 4096⟩], [⟨"dispatch", 0, 1⟩, ⟨"ring", 1, 5⟩]⟩
    ∀ evs, run cfg (.visitLast ("io_flow", 0)) false evs =
      run cfg (.visitLast ("send_flow", 1)) false evs := by
  intro cfg
  exact (wiring_order_free_iff (show cfg.Sound by constructor <;> decide) (by decide)).2
    (by decide) _ _ false

end LensX
