import LensX.Model.Tracer
import LensX.Seq.Groups

/-! # The wiring of matchers and reports

A part is a matcher of a configuration with the callbacks that were registered
with it, by name. The wiring of a configuration is a list of parts, and which
parts a report connects does not depend on the callbacks registered so far.
-/

namespace LensX

open Bitmask

/-- The callbacks that `main` registers. -/
inductive Hook where
  | pairs
  | push (r : ReportConfig)
  | pop (r : ReportConfig)
  deriving DecidableEq, Repr

def Hook.cb (keys : ReportKeys) : Hook → Cb World
  | .pairs => recordPairs keys
  | .push r => pushCb r
  | .pop r => popCb r

/-- A matcher with the hooks registered with it. -/
inductive Part where
  | seq (id : String) (stages : List ℤ) (hooks : List Hook)
  | key (id : String) (stages : List ℤ)
  deriving DecidableEq, Repr

namespace Part

/-- The part for an entry of the configuration. -/
def of (mc : MatcherConfig) : Option Part :=
  if mc.mode = "seq" then some (.seq mc.id mc.stages [])
  else if mc.mode = "key" then some (.key mc.id mc.stages)
  else none

def stages : Part → List ℤ
  | .seq _ stages _ => stages
  | .key _ stages => stages

def addHooks (hs : List Hook) : Part → Part
  | .seq id stages hooks => .seq id stages (hooks ++ hs)
  | .key id stages => .key id stages

def matcher (keys : ReportKeys) : Part → Matcher World
  | .seq id stages hooks => .seq (.withCallbacks id stages (hooks.map (Hook.cb keys)))
  | .key id stages => .key (.new id stages)

def hasStage (stage : ℤ) : Part → Bool
  | .seq _ stages _ => ofList stages &&& bit stage != 0
  | .key _ _ => false

@[simp] theorem addHooks_nil (p : Part) : p.addHooks [] = p := by
  cases p <;> simp [addHooks]

theorem addHooks_addHooks (hs hs' : List Hook) (p : Part) :
    (p.addHooks hs).addHooks hs' = p.addHooks (hs ++ hs') := by
  cases p <;> simp [addHooks]

@[simp] theorem hasStage_addHooks (hs : List Hook) (p : Part) (stage : ℤ) :
    (p.addHooks hs).hasStage stage = p.hasStage stage := by
  cases p <;> rfl

theorem hasStage_seq_iff {id : String} {stages : List ℤ} {hooks : List Hook} {t : ℤ}
    (hr : ∀ s ∈ stages, InRange s) (ht : InRange t) :
    (Part.seq id stages hooks).hasStage t = true ↔ t ∈ stages := by
  rw [← has_ofList hr ht]
  exact bne_iff_ne

theorem matcher_addHooks (keys : ReportKeys) (h : Hook) (p : Part) :
    (p.addHooks [h]).matcher keys = (p.matcher keys).onComplete (h.cb keys) := by
  cases p with
  | seq id stages hooks =>
    simp [addHooks, matcher, Matcher.onComplete, SeqMatcher.withCallbacks]
  | key id stages => rfl

theorem matcher_hasStage (keys : ReportKeys) (p : Part) (stage : ℤ) :
    (p.matcher keys).hasStage stage = p.hasStage stage := by
  cases p with
  | seq id stages hooks =>
    simp only [matcher, Matcher.hasStage, SeqMatcher.withCallbacks_eq]
    rfl
  | key id stages => rfl

end Part

/-- Register hooks with the parts at their positions. -/
def register (regs : List (ℕ × Hook)) (ps : List Part) : List Part :=
  regs.foldl (fun ps g => ps.modify g.1 (·.addHooks [g.2])) ps

/-- The hooks registered at a position. -/
def hooksAt (regs : List (ℕ × Hook)) (i : ℕ) : List Hook := (regs.filter (·.1 = i)).map (·.2)

theorem register_append (regs regs' : List (ℕ × Hook)) (ps : List Part) :
    register (regs ++ regs') ps = register regs' (register regs ps) := by
  simp [register]

theorem getElem?_register (regs : List (ℕ × Hook)) (ps : List Part) (i : ℕ) :
    (register regs ps)[i]? = ps[i]?.map (·.addHooks (hooksAt regs i)) := by
  induction regs using List.reverseRecOn with
  | nil => simp [register, hooksAt]
  | append_singleton regs g ih =>
    rw [register_append]
    simp only [register, List.foldl_cons, List.foldl_nil, List.getElem?_modify] at ih ⊢
    rw [ih]
    by_cases h : g.1 = i
    · simp [h, hooksAt, Option.map_map, Function.comp_def, Part.addHooks_addHooks]
    · simp [h, hooksAt]

/-- The part that `findSeq` finds. -/
def findPart (ps : List Part) (seqs : List (String × ℕ)) (stage : ℤ) : Option ℕ :=
  seqs.foldl (fun found entry =>
    if ps[entry.2]?.elim false (Part.hasStage stage) then some entry.2 else found) none

/-- The positions of the producer and of the consumer of a report. -/
def connection (ps : List Part) (seqs : List (String × ℕ)) (r : ReportConfig) : Option (ℕ × ℕ) :=
  match findPart ps seqs r.fromStage, findPart ps seqs r.toStage with
  | some p, some q => if p = q then none else some (p, q)
  | _, _ => none

theorem connection_eq_some_iff {ps : List Part} {seqs : List (String × ℕ)} {r : ReportConfig}
    {p q : ℕ} : connection ps seqs r = some (p, q) ↔
      findPart ps seqs r.fromStage = some p ∧ findPart ps seqs r.toStage = some q ∧ p ≠ q := by
  unfold connection
  cases findPart ps seqs r.fromStage with
  | none => simp
  | some p' =>
    cases findPart ps seqs r.toStage with
    | none => simp
    | some q' =>
      simp only [Option.ite_none_left_eq_some, Option.some.injEq, Prod.mk.injEq]
      constructor
      · rintro ⟨hne, rfl, rfl⟩
        exact ⟨rfl, rfl, hne⟩
      · rintro ⟨rfl, rfl, hne⟩
        exact ⟨hne, rfl, rfl⟩

/-- The registrations for a report. -/
def connectHooks (ps : List Part) (seqs : List (String × ℕ)) (r : ReportConfig) :
    List (ℕ × Hook) :=
  match connection ps seqs r with
  | some (p, q) => [(p, .push r), (q, .pop r)]
  | none => []

theorem findPart_register (regs : List (ℕ × Hook)) (ps : List Part) (seqs : List (String × ℕ))
    (stage : ℤ) : findPart (register regs ps) seqs stage = findPart ps seqs stage := by
  have h : ∀ i : ℕ, (register regs ps)[i]?.elim false (Part.hasStage stage) =
      ps[i]?.elim false (Part.hasStage stage) := by
    intro i
    rw [getElem?_register]
    cases ps[i]? <;> simp
  simp only [findPart, h]

theorem connection_register (regs : List (ℕ × Hook)) (ps : List Part) (seqs : List (String × ℕ))
    (r : ReportConfig) : connection (register regs ps) seqs r = connection ps seqs r := by
  simp only [connection, findPart_register]

theorem findPart_concat (ps : List Part) (seqs : List (String × ℕ)) (en : String × ℕ) (stage : ℤ) :
    findPart ps (seqs ++ [en]) stage =
      if ps[en.2]?.elim false (Part.hasStage stage) then some en.2 else findPart ps seqs stage := by
  simp [findPart]

theorem exists_of_findPart {ps : List Part} {seqs : List (String × ℕ)} {stage : ℤ} {p : ℕ}
    (h : findPart ps seqs stage = some p) :
    ∃ en ∈ seqs, en.2 = p ∧ ∃ part, ps[p]? = some part ∧ part.hasStage stage = true := by
  induction seqs using List.reverseRecOn with
  | nil => simp [findPart] at h
  | append_singleton seqs en ih =>
    rw [findPart_concat] at h
    split at h
    · next hs =>
      obtain rfl := Option.some.inj h
      refine ⟨en, by simp, rfl, ?_⟩
      cases hp : ps[en.2]? with
      | none => simp [hp] at hs
      | some part => exact ⟨part, rfl, by simpa [hp] using hs⟩
    · obtain ⟨en', hen, h⟩ := ih h
      exact ⟨en', List.mem_append_left _ hen, h⟩

theorem findPart_isSome {ps : List Part} {seqs : List (String × ℕ)} {stage : ℤ} {en : String × ℕ}
    (hen : en ∈ seqs) {part : Part} (hp : ps[en.2]? = some part) (hs : part.hasStage stage = true) :
    ∃ p, findPart ps seqs stage = some p := by
  induction seqs using List.reverseRecOn with
  | nil => simp at hen
  | append_singleton seqs en' ih =>
    rw [findPart_concat]
    split
    · exact ⟨_, rfl⟩
    · next hn =>
      rcases List.mem_append.mp hen with hen | hen
      · exact ih hen
      · obtain rfl := List.mem_singleton.mp hen
        simp [hp, hs] at hn

section Wire

variable (keys : ReportKeys) {ps : List Part} {c : Wiring}

theorem map_modify {α β : Type*} (g : α → β) {f : α → α} {f' : β → β} (h : ∀ a, g (f a) = f' (g a))
    (l : List α) (i : ℕ) : (l.map g).modify i f' = (l.modify i f).map g := by
  apply List.ext_getElem?
  intro j
  rw [List.getElem?_modify, List.getElem?_map, List.getElem?_map, List.getElem?_modify]
  cases l[j]? with
  | none => rfl
  | some a => by_cases hi : i = j <;> simp [hi, h]

theorem onCompleteAt_matchers (hc : c.matchers = ps.map (·.matcher keys)) (p : ℕ) (h : Hook) :
    (c.onCompleteAt p (h.cb keys)).matchers = (register [(p, h)] ps).map (·.matcher keys) := by
  simp only [Wiring.onCompleteAt, hc, register, List.foldl_cons, List.foldl_nil]
  exact map_modify _ (Part.matcher_addHooks keys h) ps p

theorem findSeq_eq (hc : c.matchers = ps.map (·.matcher keys)) (seqs : List (String × ℕ))
    (stage : ℤ) : c.findSeq seqs stage = findPart ps seqs stage := by
  have h : ∀ i : ℕ, c.matchers[i]?.elim false (Matcher.hasStage · stage) =
      ps[i]?.elim false (Part.hasStage stage) := by
    intro i
    rw [hc, List.getElem?_map]
    cases ps[i]? <;> simp [Part.matcher_hasStage]
  simp only [Wiring.findSeq, findPart, h]

/-- The queues after a report was connected. -/
def ensureQueue (fifos : String → Option FifoQueue) (name : String) : String → Option FifoQueue :=
  match fifos name with
  | some _ => fifos
  | none => Function.update fifos name (some (.new name 4096))

theorem ensureQueue_apply (fifos : String → Option FifoQueue) (name n : String) :
    ensureQueue fifos name n =
      if name = n then some ((fifos n).getD (.new n 4096)) else fifos n := by
  unfold ensureQueue
  by_cases h : name = n
  · subst h
    cases hf : fifos name <;> simp [hf]
  · cases fifos name <;> simp [h, Function.update_of_ne (Ne.symm h)]

theorem connect_eq (hc : c.matchers = ps.map (·.matcher keys)) (seqs : List (String × ℕ))
    (r : ReportConfig) :
    (c.connect seqs r).matchers = (register (connectHooks ps seqs r) ps).map (·.matcher keys) ∧
      (c.connect seqs r).fifos =
        if (connection ps seqs r).isSome then ensureQueue c.fifos r.name else c.fifos := by
  unfold Wiring.connect connectHooks connection
  rw [findSeq_eq keys hc, findSeq_eq keys hc]
  cases findPart ps seqs r.fromStage with
  | none => exact ⟨hc, rfl⟩
  | some p =>
    cases findPart ps seqs r.toStage with
    | none => exact ⟨hc, rfl⟩
    | some q =>
      by_cases hpq : p = q
      · simpa [hpq, register] using hc
      · simp only [if_neg hpq]
        refine ⟨?_, rfl⟩
        have hpush := onCompleteAt_matchers keys
          (c := { c with fifos := ensureQueue c.fifos r.name }) hc p (.push r)
        have hpop := onCompleteAt_matchers keys hpush q (.pop r)
        rwa [← register_append] at hpop

theorem connectAll_eq (reports : List ReportConfig) (hc : c.matchers = ps.map (·.matcher keys))
    (seqs : List (String × ℕ)) :
    (reports.foldl (Wiring.connect seqs) c).matchers =
      (register (reports.flatMap (connectHooks ps seqs)) ps).map (·.matcher keys) := by
  induction reports using List.reverseRecOn with
  | nil => exact hc
  | append_singleton reports r ih =>
    rw [List.foldl_append, List.foldl_cons, List.foldl_nil, (connect_eq keys ih seqs r).1,
      List.flatMap_append, register_append]
    simp [connectHooks, connection_register]

theorem onCompleteAll_eq (seqs : List (String × ℕ)) (hc : c.matchers = ps.map (·.matcher keys)) :
    (seqs.foldl (fun c entry => c.onCompleteAt entry.2 (recordPairs keys)) c).matchers =
        (register (seqs.map fun en => (en.2, .pairs)) ps).map (·.matcher keys) ∧
      (seqs.foldl (fun c entry => c.onCompleteAt entry.2 (recordPairs keys)) c).fifos =
        c.fifos := by
  induction seqs using List.reverseRecOn with
  | nil => exact ⟨hc, rfl⟩
  | append_singleton seqs en ih =>
    rw [List.foldl_append, List.foldl_cons, List.foldl_nil, List.map_append, register_append]
    exact ⟨onCompleteAt_matchers keys ih.1 en.2 .pairs, ih.2⟩

theorem connectAll_fifos (reports : List ReportConfig) (hc : c.matchers = ps.map (·.matcher keys))
    (seqs : List (String × ℕ)) (name : String) :
    (reports.foldl (Wiring.connect seqs) c).fifos name =
      if ∃ r ∈ reports, r.name = name ∧ (connection ps seqs r).isSome then
        some ((c.fifos name).getD (.new name 4096))
      else c.fifos name := by
  induction reports using List.reverseRecOn with
  | nil => simp
  | append_singleton reports r ih =>
    have hps := connectAll_eq keys reports hc seqs
    rw [List.foldl_append, List.foldl_cons, List.foldl_nil, (connect_eq keys hps seqs r).2,
      connection_register]
    by_cases hr : (connection ps seqs r).isSome
    · rw [if_pos hr, ensureQueue_apply, ih]
      by_cases hn : r.name = name
      · have hex : ∃ r' ∈ reports ++ [r], r'.name = name ∧ (connection ps seqs r').isSome :=
          ⟨r, by simp, hn, hr⟩
        rw [if_pos hn, if_pos hex]
        split <;> simp
      · simp [hn]
    · rw [if_neg hr, ih]
      simp [hr]

end Wire

/-- The matchers of a configuration before any callback is registered. -/
def baseParts (ms : List MatcherConfig) : List Part := ms.filterMap Part.of

def baseWiring (ms : List MatcherConfig) : Wiring := ms.foldl Wiring.addMatcher .empty

theorem baseWiring_concat (ms : List MatcherConfig) (mc : MatcherConfig) :
    baseWiring (ms ++ [mc]) = (baseWiring ms).addMatcher mc := by
  simp [baseWiring]

theorem baseParts_concat (ms : List MatcherConfig) (mc : MatcherConfig) :
    baseParts (ms ++ [mc]) = baseParts ms ++ (Part.of mc).toList := by
  cases h : Part.of mc <;> simp [baseParts, h]

theorem baseWiring_matchers (keys : ReportKeys) (ms : List MatcherConfig) :
    (baseWiring ms).matchers = (baseParts ms).map (·.matcher keys) := by
  induction ms using List.reverseRecOn with
  | nil => rfl
  | append_singleton ms mc ih =>
    rw [baseWiring_concat, baseParts_concat, List.map_append, ← ih, Wiring.addMatcher, Part.of]
    by_cases hs : mc.mode = "seq"
    · simp [hs, Part.matcher, SeqMatcher.withCallbacks]
    · by_cases hk : mc.mode = "key"
      · simp [hk, Part.matcher]
      · simp only [if_neg hs, if_neg hk]
        split
        · split <;> simp
        · simp

theorem part_of_seq {mc : MatcherConfig} (h : mc.mode = "seq") :
    Part.of mc = some (.seq mc.id mc.stages []) := by
  rw [Part.of, if_pos h]

theorem part_of_key {mc : MatcherConfig} (h : mc.mode = "key") :
    Part.of mc = some (.key mc.id mc.stages) := by
  simp [Part.of, h]

theorem part_of_eq_seq {mc : MatcherConfig} {id : String} {stages : List ℤ} {hooks : List Hook}
    (h : Part.of mc = some (.seq id stages hooks)) :
    mc.mode = "seq" ∧ mc.id = id ∧ mc.stages = stages ∧ hooks = [] := by
  unfold Part.of at h
  split at h
  · next hm =>
    obtain ⟨rfl, rfl, rfl⟩ := Part.seq.inj (Option.some.inj h)
    exact ⟨hm, rfl, rfl, rfl⟩
  · split at h
    · exact Part.noConfusion (Option.some.inj h)
    · exact absurd h (by simp)

theorem part_of_eq_key {mc : MatcherConfig} {id : String} {stages : List ℤ}
    (h : Part.of mc = some (.key id stages)) :
    mc.mode = "key" ∧ mc.id = id ∧ mc.stages = stages := by
  unfold Part.of at h
  split at h
  · exact Part.noConfusion (Option.some.inj h)
  · split at h
    · next hm =>
      obtain ⟨rfl, rfl⟩ := Part.key.inj (Option.some.inj h)
      exact ⟨hm, rfl, rfl⟩
    · exact absurd h (by simp)

theorem part_of_stages {mc : MatcherConfig} {p : Part} (h : Part.of mc = some p) :
    (mc.mode = "seq" ∨ mc.mode = "key") ∧ p.stages = mc.stages := by
  unfold Part.of at h
  split at h
  · next hm => exact ⟨Or.inl hm, (Option.some.inj h) ▸ rfl⟩
  · split at h
    · next hm => exact ⟨Or.inr hm, (Option.some.inj h) ▸ rfl⟩
    · exact absurd h (by simp)

theorem exists_of_mem_baseParts {ms : List MatcherConfig} {p : Part} (h : p ∈ baseParts ms) :
    ∃ mc ∈ ms, Part.of mc = some p := List.mem_filterMap.mp h

/-- A matcher has a position, and it is related to the matchers of all other positions. -/
theorem exists_position {ms : List MatcherConfig} {R : MatcherConfig → MatcherConfig → Prop}
    (hR : ms.Pairwise R) {mc : MatcherConfig} (hmc : mc ∈ ms) {p : Part}
    (hof : Part.of mc = some p) :
    ∃ i : ℕ, (baseParts ms)[i]? = some p ∧
      ∀ (j : ℕ) q, (baseParts ms)[j]? = some q → j ≠ i →
        ∃ mc' ∈ ms, Part.of mc' = some q ∧ (R mc mc' ∨ R mc' mc) := by
  obtain ⟨m₁, m₂, rfl⟩ := List.append_of_mem hmc
  rw [List.pairwise_append, List.pairwise_cons] at hR
  obtain ⟨_, ⟨hR₂, _⟩, hR₁⟩ := hR
  have hbase : baseParts (m₁ ++ mc :: m₂) = baseParts m₁ ++ p :: baseParts m₂ := by
    simp [baseParts, hof]
  refine ⟨(baseParts m₁).length, by simp [hbase], fun j q hq hj => ?_⟩
  rw [hbase] at hq
  rcases Nat.lt_or_gt_of_ne hj with hlt | hgt
  · rw [List.getElem?_append_left hlt] at hq
    obtain ⟨mc', hm', hof'⟩ := exists_of_mem_baseParts (List.mem_of_getElem? hq)
    exact ⟨mc', by simp [hm'], hof', Or.inr (hR₁ mc' hm' mc (by simp))⟩
  · rw [List.getElem?_append_right hgt.le] at hq
    obtain ⟨k, hk⟩ := Nat.exists_eq_succ_of_ne_zero (Nat.sub_ne_zero_of_lt hgt)
    rw [hk, List.getElem?_cons_succ] at hq
    obtain ⟨mc', hm', hof'⟩ := exists_of_mem_baseParts (List.mem_of_getElem? hq)
    exact ⟨mc', by simp [hm'], hof', Or.inl (hR₂ mc' hm')⟩

/-- The entries of `seq_map` are seq parts at different positions. -/
structure SeqMapInv (ms : List MatcherConfig) (seqMap : List (String × ℕ)) : Prop where
  entry : ∀ en ∈ seqMap, ∃ mc ∈ ms, mc.mode = "seq" ∧ mc.id = en.1 ∧
    (baseParts ms)[en.2]? = some (.seq mc.id mc.stages [])
  nodup : (seqMap.map (·.2)).Nodup
  total : ((ms.filter (·.mode = "seq")).map (·.id)).Nodup → ∀ i id stages hooks,
    (baseParts ms)[i]? = some (.seq id stages hooks) → (id, i) ∈ seqMap

section SeqMap

variable {ms : List MatcherConfig} {seqMap : List (String × ℕ)} {mc : MatcherConfig}

theorem SeqMapInv.entry_concat (hi : SeqMapInv ms seqMap) {en : String × ℕ} (hen : en ∈ seqMap) :
    ∃ mc' ∈ ms ++ [mc], mc'.mode = "seq" ∧ mc'.id = en.1 ∧
      (baseParts (ms ++ [mc]))[en.2]? = some (.seq mc'.id mc'.stages []) := by
  obtain ⟨mc', hm, hs, hid, hp⟩ := hi.entry en hen
  refine ⟨mc', List.mem_append_left _ hm, hs, hid, ?_⟩
  rw [baseParts_concat, List.getElem?_append_left (List.getElem?_eq_some_iff.mp hp).1, hp]

theorem SeqMapInv.lt_length (hi : SeqMapInv ms seqMap) {en : String × ℕ} (hen : en ∈ seqMap) :
    en.2 < (baseParts ms).length := by
  obtain ⟨_, _, _, _, hp⟩ := hi.entry en hen
  exact (List.getElem?_eq_some_iff.mp hp).1

/-- A seq matcher is entered under its id; an earlier entry of the id is lost. -/
theorem SeqMapInv.concat_seq (hi : SeqMapInv ms seqMap) (hs : mc.mode = "seq") :
    SeqMapInv (ms ++ [mc])
      (seqMap.filter (·.1 ≠ mc.id) ++ [(mc.id, (baseParts ms).length)]) where
  entry := by
    intro en hen
    rcases List.mem_append.mp hen with hen | hen
    · exact hi.entry_concat (List.mem_filter.mp hen).1
    · obtain rfl := List.mem_singleton.mp hen
      exact ⟨mc, by simp, hs, rfl, by simp [baseParts_concat, part_of_seq hs]⟩
  nodup := by
    rw [List.map_append, List.nodup_append]
    refine ⟨hi.nodup.sublist (List.filter_sublist.map _), by simp, ?_⟩
    intro i hi' j hj
    obtain ⟨en, hen, rfl⟩ := List.mem_map.mp hi'
    obtain rfl := List.mem_singleton.mp hj
    exact (hi.lt_length (List.mem_filter.mp hen).1).ne
  total := by
    intro hd i id stages hooks hp
    have hfil : (ms ++ [mc]).filter (·.mode = "seq") = ms.filter (·.mode = "seq") ++ [mc] := by
      simp [hs]
    rw [hfil, List.map_append, List.nodup_append] at hd
    rw [baseParts_concat, part_of_seq hs] at hp
    rcases Nat.lt_or_ge i (baseParts ms).length with hlt | hge
    · rw [List.getElem?_append_left hlt] at hp
      obtain ⟨mc', hm', hof⟩ := exists_of_mem_baseParts (List.mem_of_getElem? hp)
      obtain ⟨hs', rfl, _⟩ := part_of_eq_seq hof
      have hne : mc'.id ≠ mc.id :=
        hd.2.2 _ (List.mem_map_of_mem (List.mem_filter.mpr ⟨hm', by simpa using hs'⟩)) _ (by simp)
      have := hi.total hd.1 i _ _ _ hp
      simp [this, hne]
    · rw [List.getElem?_append_right hge] at hp
      have h0 : i - (baseParts ms).length = 0 := by
        have := (List.getElem?_eq_some_iff.mp hp).1
        simp at this
        omega
      rw [h0] at hp
      obtain ⟨rfl, _⟩ := Part.seq.inj (Option.some.inj hp)
      have : i = (baseParts ms).length := by omega
      simp [this]

theorem SeqMapInv.concat_other (hi : SeqMapInv ms seqMap) (hs : mc.mode ≠ "seq") :
    SeqMapInv (ms ++ [mc]) seqMap where
  entry := fun _ hen => hi.entry_concat hen
  nodup := hi.nodup
  total := by
    intro hd i id stages hooks hp
    have hfil : (ms ++ [mc]).filter (·.mode = "seq") = ms.filter (·.mode = "seq") := by
      simp [hs]
    rw [hfil] at hd
    rw [baseParts_concat] at hp
    rcases Nat.lt_or_ge i (baseParts ms).length with hlt | hge
    · rw [List.getElem?_append_left hlt] at hp
      exact hi.total hd i _ _ _ hp
    · rw [List.getElem?_append_right hge] at hp
      have hof := Option.mem_toList.mp (List.mem_of_getElem? hp)
      exact absurd (part_of_eq_seq hof).1 hs

theorem seqMapInv_baseWiring (ms : List MatcherConfig) :
    SeqMapInv ms (baseWiring ms).seqMap := by
  induction ms using List.reverseRecOn with
  | nil => exact ⟨by simp [baseWiring, Wiring.empty], by simp [baseWiring, Wiring.empty],
      by simp [baseParts]⟩
  | append_singleton ms mc ih =>
    have hlen : (baseWiring ms).matchers.length = (baseParts ms).length := by
      rw [baseWiring_matchers fun _ => none, List.length_map]
    rw [baseWiring_concat, Wiring.addMatcher]
    by_cases hs : mc.mode = "seq"
    · rw [if_pos hs, hlen]
      exact ih.concat_seq hs
    · have ho := ih.concat_other hs
      rw [if_neg hs]
      split
      · exact ho
      · split
        · split <;> exact ho
        · exact ho

end SeqMap

theorem addMatcher_fifos (c : Wiring) (mc : MatcherConfig) (name : String) :
    (c.addMatcher mc).fifos name =
      if mc.mode = "fifo" ∧ 2 ≤ mc.stages.length ∧ mc.id = name then
        some (.new mc.id mc.queueSize)
      else c.fifos name := by
  unfold Wiring.addMatcher
  split
  · next hs => simp [hs]
  · split
    · next hk => simp [hk]
    · split
      · next hf =>
        split
        · next hlen => simp [hf, Nat.not_le.mpr hlen]
        · next hlen => simp [hf, Nat.not_lt.mp hlen, Function.update_apply, eq_comm]
      · next hf => simp [hf]

/-- A queue of the configuration is new and has the configured size. -/
theorem baseWiring_fifos {ms : List MatcherConfig} {name : String} {q : FifoQueue}
    (h : (baseWiring ms).fifos name = some q) :
    ∃ mc ∈ ms, mc.mode = "fifo" ∧ 2 ≤ mc.stages.length ∧ mc.id = name ∧
      q = .new mc.id mc.queueSize := by
  induction ms using List.reverseRecOn with
  | nil => simp [baseWiring, Wiring.empty] at h
  | append_singleton ms mc ih =>
    rw [baseWiring_concat, addMatcher_fifos] at h
    split at h
    · next hmc => exact ⟨mc, by simp, hmc.1, hmc.2.1, hmc.2.2, (Option.some.inj h).symm⟩
    · obtain ⟨mc', hm, hq⟩ := ih h
      exact ⟨mc', List.mem_append_left _ hm, hq⟩

/-- With unique ids every fifo matcher has its queue. -/
theorem baseWiring_fifos_of_mem {ms : List MatcherConfig} (hids : (ms.map (·.id)).Nodup)
    {mc : MatcherConfig} (hm : mc ∈ ms) (hmode : mc.mode = "fifo") (hlen : 2 ≤ mc.stages.length) :
    (baseWiring ms).fifos mc.id = some (.new mc.id mc.queueSize) := by
  induction ms using List.reverseRecOn with
  | nil => exact absurd hm List.not_mem_nil
  | append_singleton ms mc' ih =>
    rw [List.map_append, List.nodup_append] at hids
    rw [baseWiring_concat, addMatcher_fifos]
    rcases List.mem_append.mp hm with hm | hm
    · have hne : mc'.id ≠ mc.id := Ne.symm (hids.2.2 _ (List.mem_map_of_mem hm) _ (by simp))
      rw [if_neg fun hmc => hne hmc.2.2, ih hids.1 hm]
    · obtain rfl := List.mem_singleton.mp hm
      rw [if_pos ⟨hmode, hlen, rfl⟩]

/-- With unique ids the queues do not depend on the order of the matchers. -/
theorem baseWiring_fifos_perm {ms ms' : List MatcherConfig} (hids : (ms.map (·.id)).Nodup)
    (hp : ms'.Perm ms) : (baseWiring ms').fifos = (baseWiring ms).fifos := by
  have hids' : (ms'.map (·.id)).Nodup := (hp.map _).nodup_iff.mpr hids
  ext1 name
  refine Option.ext fun q => ⟨fun hq => ?_, fun hq => ?_⟩
  · obtain ⟨mc, hm, hmode, hlen, rfl, rfl⟩ := baseWiring_fifos hq
    exact baseWiring_fifos_of_mem hids (hp.mem_iff.mp hm) hmode hlen
  · obtain ⟨mc, hm, hmode, hlen, rfl, rfl⟩ := baseWiring_fifos hq
    exact baseWiring_fifos_of_mem hids' (hp.mem_iff.mpr hm) hmode hlen

/-- The entries of `seq_map` in the order of the loops over it. -/
def seqEntries (cfg : Config) (order : IterationOrder) : List (String × ℕ) :=
  order.visit (baseWiring cfg.matchers).seqMap

/-- All registrations of a configuration. -/
def registrations (cfg : Config) (order : IterationOrder) : List (ℕ × Hook) :=
  (seqEntries cfg order).map (fun en => (en.2, .pairs)) ++
    cfg.reports.flatMap (connectHooks (baseParts cfg.matchers) (seqEntries cfg order))

/-- A position that is found for a stage belongs to a seq matcher with the stage. -/
theorem exists_owner {cfg : Config} {order : IterationOrder} {stage : ℤ}
    (hr : ∀ mc ∈ cfg.matchers, mc.mode = "seq" → ∀ s ∈ mc.stages, InRange s)
    (ht : InRange stage) {p : ℕ}
    (h : findPart (baseParts cfg.matchers) (seqEntries cfg order) stage = some p) :
    ∃ mc ∈ cfg.matchers, mc.mode = "seq" ∧ stage ∈ mc.stages ∧
      (baseParts cfg.matchers)[p]? = some (.seq mc.id mc.stages []) := by
  obtain ⟨_, _, _, part, hp, hstage⟩ := exists_of_findPart h
  obtain ⟨mc, hm, hof⟩ := exists_of_mem_baseParts (List.mem_of_getElem? hp)
  cases part with
  | key id stages => exact absurd hstage (by simp [Part.hasStage])
  | seq id stages hooks =>
    obtain ⟨hmode, rfl, rfl, rfl⟩ := part_of_eq_seq hof
    exact ⟨mc, hm, hmode, (Part.hasStage_seq_iff (hr mc hm hmode) ht).mp hstage, hp⟩

/-- The parts of a configuration. -/
def parts (cfg : Config) (order : IterationOrder) : List Part :=
  register (registrations cfg order) (baseParts cfg.matchers)

theorem wire_matchers (cfg : Config) (order : IterationOrder) :
    (wire cfg order).matchers = (parts cfg order).map (·.matcher (reportKeys cfg.reports)) := by
  have hbase := baseWiring_matchers (reportKeys cfg.reports) cfg.matchers
  have hall := onCompleteAll_eq _ (seqEntries cfg order) hbase
  have hcon := connectAll_eq _ cfg.reports hall.1 (seqEntries cfg order)
  have hhooks : connectHooks (register ((seqEntries cfg order).map fun en => (en.2, .pairs))
      (baseParts cfg.matchers)) (seqEntries cfg order) =
      connectHooks (baseParts cfg.matchers) (seqEntries cfg order) := by
    ext1 r
    simp only [connectHooks, connection_register]
  rw [parts, registrations, register_append, ← hhooks]
  exact hcon

theorem wire_fifos (cfg : Config) (order : IterationOrder) (name : String) :
    (wire cfg order).fifos name =
      if ∃ r ∈ cfg.reports, r.name = name ∧
          (connection (baseParts cfg.matchers) (seqEntries cfg order) r).isSome then
        some (((baseWiring cfg.matchers).fifos name).getD (.new name 4096))
      else (baseWiring cfg.matchers).fifos name := by
  have hbase := baseWiring_matchers (reportKeys cfg.reports) cfg.matchers
  have hall := onCompleteAll_eq _ (seqEntries cfg order) hbase
  have hcon := connectAll_fifos _ cfg.reports hall.1 (seqEntries cfg order) name
  simp only [connection_register, hall.2] at hcon
  exact hcon

theorem getElem?_parts (cfg : Config) (order : IterationOrder) (i : ℕ) :
    (parts cfg order)[i]? =
      (baseParts cfg.matchers)[i]?.map (·.addHooks (hooksAt (registrations cfg order) i)) := by
  rw [parts, getElem?_register]

theorem parts_seq {cfg : Config} {order : IterationOrder} {i : ℕ} {id : String} {stages : List ℤ}
    {hooks : List Hook} (h : (parts cfg order)[i]? = some (.seq id stages hooks)) :
    hooks = hooksAt (registrations cfg order) i ∧
      (baseParts cfg.matchers)[i]? = some (.seq id stages []) := by
  rw [getElem?_parts] at h
  obtain ⟨b, hb, he⟩ := Option.map_eq_some_iff.mp h
  obtain ⟨mc, _, hof⟩ := exists_of_mem_baseParts (List.mem_of_getElem? hb)
  cases b with
  | seq id' stages' hooks' =>
    obtain ⟨_, _, _, rfl⟩ := part_of_eq_seq hof
    obtain ⟨rfl, rfl, rfl⟩ := Part.seq.inj he
    exact ⟨rfl, hb⟩
  | key id' stages' => exact Part.noConfusion he

theorem hooksAt_append (regs regs' : List (ℕ × Hook)) (i : ℕ) :
    hooksAt (regs ++ regs') i = hooksAt regs i ++ hooksAt regs' i := by
  simp [hooksAt]

/-- A queue hook at a position was registered for a report that the position is connected to. -/
theorem mem_hooksAt_connect {ps : List Part} {seqs : List (String × ℕ)}
    {reports : List ReportConfig} {i : ℕ} {h : Hook}
    (hh : h ∈ hooksAt (reports.flatMap (connectHooks ps seqs)) i) :
    ∃ r ∈ reports, ∃ p q, connection ps seqs r = some (p, q) ∧
      (h = .push r ∧ i = p ∨ h = .pop r ∧ i = q) := by
  obtain ⟨g, hgf, rfl⟩ := List.mem_map.mp hh
  obtain ⟨hgm, hgi⟩ := List.mem_filter.mp hgf
  obtain ⟨r, hr, hgc⟩ := List.mem_flatMap.mp hgm
  have hi : g.1 = i := of_decide_eq_true hgi
  unfold connectHooks at hgc
  split at hgc
  · next p q hc =>
    refine ⟨r, hr, p, q, hc, ?_⟩
    rcases List.mem_cons.mp hgc with rfl | hgc
    · exact Or.inl ⟨rfl, hi.symm⟩
    · obtain rfl := List.mem_singleton.mp hgc
      exact Or.inr ⟨rfl, hi.symm⟩
  · exact absurd hgc List.not_mem_nil

theorem mem_hooksAt_pairs {seqs : List (String × ℕ)} {i : ℕ} {h : Hook}
    (hh : h ∈ hooksAt (seqs.map fun en => (en.2, .pairs)) i) : h = .pairs := by
  obtain ⟨g, hg, rfl⟩ := List.mem_map.mp hh
  obtain ⟨en, _, rfl⟩ := List.mem_map.mp (List.mem_filter.mp hg).1
  rfl

/-- A position that is entered once gets the callback of the pairs once. -/
theorem hooksAt_pairs {seqs : List (String × ℕ)} {i : ℕ} (hd : (seqs.map (·.2)).Nodup)
    (hi : i ∈ seqs.map (·.2)) : hooksAt (seqs.map fun en => (en.2, .pairs)) i = [.pairs] := by
  have hlen : (hooksAt (seqs.map fun en => (en.2, Hook.pairs)) i).length = 1 := by
    rw [hooksAt, List.length_map, List.filter_map, List.length_map, ← List.countP_eq_length_filter]
    have hc := List.count_eq_one_of_mem hd hi
    rw [List.count, List.countP_map] at hc
    rw [← hc]
    apply List.countP_congr
    intro en _
    simp
  obtain ⟨h, hh⟩ := List.length_eq_one_iff.mp hlen
  have hpairs : h = .pairs := mem_hooksAt_pairs (hh ▸ List.mem_singleton_self h)
  rw [hh, hpairs]

/-- The queue hooks of a part belong to reports of the configuration. -/
theorem hook_of_parts {cfg : Config} {order : IterationOrder} {i : ℕ} {id : String}
    {stages : List ℤ} {hooks : List Hook}
    (hp : (parts cfg order)[i]? = some (.seq id stages hooks)) {h : Hook} (hh : h ∈ hooks) :
    h = .pairs ∨ ∃ r ∈ cfg.reports, ∃ p q,
      connection (baseParts cfg.matchers) (seqEntries cfg order) r = some (p, q) ∧
        (h = .push r ∧ i = p ∨ h = .pop r ∧ i = q) := by
  rw [(parts_seq hp).1, registrations, hooksAt_append] at hh
  rcases List.mem_append.mp hh with hh | hh
  · exact Or.inl (mem_hooksAt_pairs hh)
  · exact Or.inr (mem_hooksAt_connect hh)

end LensX
