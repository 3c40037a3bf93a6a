import LensX.General.Blocks
import LensX.Key.Segments

/-! # Requests that reuse a key

A record is not reset by a first stage, so what an incomplete request leaves
in it can complete a group together with a later request. The groups are those
of single requests exactly when no such completion is possible.
-/

namespace LensX

open Bitmask Pairs Transducer Window Blocks

variable {stages : List ℤ}

/-- The group for which `feed` adds deltas. -/
def KeyMatcher.emitted (m : KeyMatcher) (e : RawEvent) : Option Record :=
  if m.stagesMask &&& bit e.stageNo = 0 then none
  else if (m.store e).Full m.stagesMask then some (m.store e) else none

theorem KeyMatcher.emitted_eq (m : KeyMatcher) (e : RawEvent) :
    m.emitted e = (keysStep m.stages m.records e).2 := by
  unfold emitted keysStep keyed keyStep
  change (if ofList m.stages &&& bit e.stageNo = 0 then _ else
    if (keyStore m.stages (m.records e.key) e).Full (ofList m.stages) then _ else _) = _
  split
  · rfl
  · split <;> rfl

/-- The events of every key are requests that follow one another. A request starts with its first
stage and has no stage twice; its other stages may be missing. -/
structure Requests (stages : List ℤ) (evs : List RawEvent) (reqs : UInt64 → List (List RawEvent)) :
    Prop where
  flatten : ∀ k, keyEvents stages k evs = (reqs k).flatten
  first : ∀ k, ∀ R ∈ reqs k, ∃ e t, R = e :: t ∧ e.stageNo = minStage stages
  distinct : ∀ k, ∀ R ∈ reqs k, (R.map (·.stageNo)).Nodup

/-- The timestamps and the thread of a group are those of events of a request. -/
def FromRequest (stages : List ℤ) (R : List RawEvent) (r : Record) : Prop :=
  (∀ s ∈ stages, ∃ x ∈ R, x.stageNo = s ∧ r.ts s = x.ts) ∧
    ∃ x ∈ R, x.stageNo = minStage stages ∧ r.tid = x.tid

/-- What incomplete requests leave never completes a group together with the next request, unless
that request completes it alone. -/
def NoCarryOver (stages : List ℤ) (rs : List (List RawEvent)) : Prop :=
  ∀ I R, (I ++ [R]) <:+: rs → (∀ Q ∈ I, ¬ Covers RawEvent.stageNo stages Q) →
    ∀ p, p <+: R → Covers RawEvent.stageNo stages (I.flatten ++ p) →
      Covers RawEvent.stageNo stages p

theorem fromRequest_recordOf (hne : stages ≠ []) (hr : ∀ s ∈ stages, InRange s)
    {w p : List RawEvent} (hc : Covers RawEvent.stageNo stages p) :
    FromRequest stages p (recordOf stages (w ++ p)) := by
  have hlast : ∀ s ∈ stages, ∃ x ∈ p, x.stageNo = s ∧
      lastOf RawEvent.stageNo s (w ++ p) = some x := by
    intro s hs
    obtain ⟨x, hx⟩ := exists_lastOf hc hs
    obtain ⟨hm, hsx⟩ := mem_of_lastOf hx
    exact ⟨x, hm, hsx, by rw [lastOf_append_of_mem (hc s hs), hx]⟩
  constructor
  · intro s hs
    obtain ⟨x, hm, hsx, hx⟩ := hlast s hs
    exact ⟨x, hm, hsx, lastTs_of_lastOf hx⟩
  · obtain ⟨s, hs⟩ := List.exists_mem_of_ne_nil _ hne
    obtain ⟨x, hm, hsx, hx⟩ := hlast _ (minStage_mem hr hs)
    exact ⟨x, hm, hsx, lastTid_of_lastOf hx⟩

/-- A proper prefix of a request is incomplete. -/
theorem not_covers_prefix {p v : List RawEvent} {e : RawEvent} (he : e.stageNo ∈ stages)
    (hd : ((p ++ e :: v).map (·.stageNo)).Nodup) : ¬ Covers RawEvent.stageNo stages p := by
  intro hc
  obtain ⟨x, hx, hxe⟩ := hc _ he
  rw [List.map_append, List.nodup_append] at hd
  exact hd.2.2 _ (List.mem_map_of_mem hx) _ (by simp) hxe

section NoCarryOver

variable {rs : List (List RawEvent)} (hn : NoCarryOver stages rs)
  (hd : ∀ R ∈ rs, (R.map (·.stageNo)).Nodup) (hm : ∀ R ∈ rs, ∀ e ∈ R, e.stageNo ∈ stages)
include hn hd hm

/-- Inside a request the unfinished segment does not cover. -/
theorem not_covers_inside {I : List (List RawEvent)} {R p v : List RawEvent} {e : RawEvent}
    (hI : (I ++ [R]) <:+: rs) (hinc : ∀ Q ∈ I, ¬ Covers RawEvent.stageNo stages Q)
    (hR : R = p ++ e :: v) : ¬ Covers RawEvent.stageNo stages (I.flatten ++ p) := by
  intro hc
  have hmem : R ∈ rs := hI.subset (by simp)
  have hp : p <+: R := ⟨e :: v, hR.symm⟩
  have hnd := hd R hmem
  rw [hR] at hnd
  exact not_covers_prefix (hm R hmem e (by simp [hR])) hnd (hn I R hI hinc p hp hc)

/-- After whole requests the unfinished segment consists of the last, incomplete ones. -/
theorem cut_requests (hne : stages ≠ []) {L : List (List RawEvent)} (hL : L <+: rs) :
    ∃ I, I <:+ L ∧ (∀ Q ∈ I, ¬ Covers RawEvent.stageNo stages Q) ∧
      (cut RawEvent.stageNo stages L.flatten).2 = I.flatten := by
  induction L using List.reverseRecOn with
  | nil => exact ⟨[], List.suffix_rfl, by simp, rfl⟩
  | append_singleton L R ih =>
    obtain ⟨I, ⟨A, rfl⟩, hinc, hrest⟩ := ih ((List.prefix_append _ _).trans hL)
    have hI : (I ++ [R]) <:+: rs := by
      obtain ⟨B, hB⟩ := hL
      exact ⟨A, B, by rw [← hB, List.append_assoc A I [R]]⟩
    rw [List.flatten_append, List.flatten_singleton]
    by_cases hc : Covers RawEvent.stageNo stages (I.flatten ++ R)
    · refine ⟨[], List.nil_suffix, by simp, ?_⟩
      rcases List.eq_nil_or_concat R with rfl | ⟨p, e, rfl⟩
      · rw [List.append_nil] at hc
        have hcut := isCut_cut (c := RawEvent.stageNo) hne (A ++ I).flatten
        exact (hcut.unfinished (hrest ▸ hc)).elim
      · rw [List.concat_eq_append] at hc hI ⊢
        have hnot := not_covers_inside hn hd hm hI hinc rfl
        rw [← List.append_assoc, cut_concat,
          cut_append_of_not_covers (by rwa [hrest]), hrest, cutStep,
          if_pos (by simpa using hc), List.flatten_nil]
    · refine ⟨I ++ [R], ⟨A, by simp⟩, fun Q hQ => ?_, ?_⟩
      · rcases List.mem_append.mp hQ with hQ | hQ
        · exact hinc Q hQ
        · obtain rfl := List.mem_singleton.mp hQ
          exact fun hcQ => hc (hcQ.mono (List.subset_append_right _ _))
      · rw [cut_append_of_not_covers (by rwa [hrest]), hrest]
        simp

end NoCarryOver

section TwoStages

variable
  (h2 : ∀ s ∈ stages, ∀ t ∈ stages, s ≠ minStage stages → t ≠ minStage stages → s = t)
include h2

/-- With one stage besides the first, a request that has it is complete. -/
theorem covers_of_later {e x : RawEvent} {t : List RawEvent} (he : e.stageNo = minStage stages)
    (hx : x ∈ e :: t) (hxs : x.stageNo ∈ stages) (hxf : x.stageNo ≠ minStage stages) :
    Covers RawEvent.stageNo stages (e :: t) := by
  intro s hs
  by_cases hsf : s = minStage stages
  · exact ⟨e, by simp, he.trans hsf.symm⟩
  · exact ⟨x, hx, h2 _ hxs _ hs hxf hsf⟩

/-- With one stage besides the first nothing is carried over. -/
theorem noCarryOver_of_two {rs : List (List RawEvent)}
    (hfirst : ∀ R ∈ rs, ∃ e t, R = e :: t ∧ e.stageNo = minStage stages) :
    NoCarryOver stages rs := by
  intro I R hI hinc p hp hc
  have hhead : ∀ Q ∈ I ++ [R], ∃ e t, Q = e :: t ∧ e.stageNo = minStage stages :=
    fun Q hQ => hfirst Q (hI.subset hQ)
  have hlater : ∀ Q ∈ I, ∀ x ∈ Q, x.stageNo ∈ stages → x.stageNo = minStage stages := by
    intro Q hQ x hx hxs
    by_contra hxf
    obtain ⟨e, t, rfl, he⟩ := hhead Q (by simp [hQ])
    exact hinc _ hQ (covers_of_later h2 he hx hxs hxf)
  intro s hs
  obtain ⟨a, ha, rfl⟩ := hc s hs
  rcases List.mem_append.mp ha with ha | ha
  · obtain ⟨Q, hQ, haQ⟩ := List.mem_flatten.mp ha
    obtain ⟨t, ht, htQ⟩ : ∃ t ∈ stages, ∀ x ∈ Q, x.stageNo ≠ t := by
      simpa [Covers] using hinc Q hQ
    have htf : t ≠ minStage stages := by
      obtain ⟨e, v, rfl, he⟩ := hhead Q (by simp [hQ])
      exact fun h => htQ e (by simp) (he.trans h.symm)
    obtain ⟨b, hb, rfl⟩ := hc t ht
    rcases List.mem_append.mp hb with hb | hb
    · obtain ⟨Q', hQ', hbQ'⟩ := List.mem_flatten.mp hb
      exact absurd (hlater Q' hQ' b hbQ' ht) htf
    · obtain ⟨e, v, rfl, he⟩ := hhead R (by simp)
      cases p with
      | nil => exact absurd hb List.not_mem_nil
      | cons e' p =>
        obtain ⟨rfl, _⟩ := List.cons_prefix_cons.mp hp
        exact ⟨e', by simp, he.trans (hlater Q hQ a haQ hs).symm⟩
  · exact ⟨a, ha, rfl⟩

end TwoStages

theorem split_keyEvents {evs l v : List RawEvent} {k : UInt64} {a : RawEvent}
    (h : keyEvents stages k evs = l ++ a :: v) :
    ∃ pre post, evs = pre ++ a :: post ∧ keyEvents stages k pre = l ∧ a.key = k ∧
      a.stageNo ∈ stages := by
  obtain ⟨pre, post, rfl, hpre, ha⟩ := split_filter h
  obtain ⟨hs, hk⟩ := of_decide_eq_true ha
  exact ⟨pre, post, rfl, hpre, hk, hs⟩

theorem stage_lt_of_split {evs pre post : List RawEvent} {e : RawEvent}
    (hlt : ∀ x ∈ evs, x.stage < 64) (h : evs = pre ++ e :: post) :
    ∀ x ∈ pre ++ [e], x.stage < 64 := by
  intro x hx
  have hpre : pre ++ [e] <+: evs := ⟨post, by simp [h]⟩
  exact hlt x (hpre.subset hx)

theorem Requests.stage_mem {evs : List RawEvent} {reqs : UInt64 → List (List RawEvent)}
    (hq : Requests stages evs reqs) {k : UInt64} : ∀ R ∈ reqs k, ∀ e ∈ R, e.stageNo ∈ stages := by
  intro R hR e he
  have hk : e ∈ keyEvents stages k evs := by
    rw [hq.flatten]
    exact List.mem_flatten.mpr ⟨R, hR, he⟩
  exact (mem_keyEvents hk).2

/-- An event of the list stands at a place of a request, after the whole requests before it. -/
theorem Requests.exists_place {evs pre post : List RawEvent} {e : RawEvent}
    {reqs : UInt64 → List (List RawEvent)} (hq : Requests stages evs reqs)
    (hevs : evs = pre ++ e :: post) (he : e.stageNo ∈ stages) :
    ∃ L R M p v, reqs e.key = L ++ R :: M ∧ R = p ++ e :: v ∧
      keyEvents stages e.key pre = L.flatten ++ p := by
  have hprefix : keyEvents stages e.key (pre ++ [e]) <+: (reqs e.key).flatten := by
    rw [← hq.flatten, hevs]
    exact ⟨keyEvents stages e.key post, by simp [keyEvents, ← List.filter_append]⟩
  rw [keyEvents_concat he rfl] at hprefix
  obtain ⟨L, R, M, p, hLR, ⟨v, hv⟩, hpn, hhist⟩ := exists_block hprefix (by simp)
  rcases List.eq_nil_or_concat p with rfl | ⟨p₀, e', rfl⟩
  · exact absurd rfl hpn
  · rw [List.concat_eq_append, ← List.append_assoc] at hhist
    obtain ⟨hpre, he'⟩ := List.append_inj' hhist rfl
    obtain rfl : e = e' := by simpa using he'
    exact ⟨L, R, M, p₀, v, hLR, by simpa using hv.symm, hpre⟩

/-- An event emits the unfinished segment that it closes. -/
theorem KeyMatcher.emitted_feedAll (id : String) (hr : ∀ s ∈ stages, InRange s)
    {pre : List RawEvent} {e : RawEvent} (hlt : ∀ x ∈ pre ++ [e], x.stage < 64) :
    ((KeyMatcher.new id stages).feedAll pre).emitted e =
      if e.stageNo ∈ stages ∧
          Covers RawEvent.stageNo stages ((keyCut stages e.key pre).2 ++ [e]) then
        some (recordOf stages ((keyCut stages e.key pre).2 ++ [e]))
      else none := by
  rw [emitted_eq, feedAll_new, keysStep_snd hr hlt]

/-- Every group of a run is made of events of the request in progress. -/
def SingleRequests (id : String) (stages : List ℤ) (evs : List RawEvent)
    (reqs : UInt64 → List (List RawEvent)) : Prop :=
  ∀ pre e post r, evs = pre ++ e :: post →
    ((KeyMatcher.new id stages).feedAll pre).emitted e = some r →
    ∃ L R M p, reqs e.key = L ++ R :: M ∧ p <+: R ∧ p ≠ [] ∧
      keyEvents stages e.key (pre ++ [e]) = L.flatten ++ p ∧ FromRequest stages p r

section Run

variable {id : String} (hr : ∀ s ∈ stages, InRange s) (hne : stages ≠ []) {evs : List RawEvent}
  (hlt : ∀ e ∈ evs, e.stage < 64) {reqs : UInt64 → List (List RawEvent)}
  (hq : Requests stages evs reqs)
include hr hne hlt hq

theorem noCarryOver_of_singleRequests (hall : SingleRequests id stages evs reqs) (k : UInt64) :
    NoCarryOver stages (reqs k) := by
  rintro I R ⟨A, B, hAB⟩ hinc p ⟨p', rfl⟩ hc
  have hcut := isCut_cut (c := RawEvent.stageNo) hne A.flatten
  obtain ⟨u, a, v, hu, hnot, hcov⟩ :=
    exists_first_cover hcut.unfinished (hc.mono (List.subset_append_right _ (I.flatten ++ p)))
  have hflat : keyEvents stages k evs =
      (A.flatten ++ u) ++ a :: (v ++ (p' ++ B.flatten)) := by
    have hsplit : (A.flatten ++ u) ++ a :: (v ++ (p' ++ B.flatten)) =
        A.flatten ++ (u ++ a :: v) ++ (p' ++ B.flatten) := by simp
    rw [hq.flatten, ← hAB, hsplit, ← hu]
    simp
  obtain ⟨pre, post, hevs, hpre, rfl, ha⟩ := split_keyEvents hflat
  have hopen : (keyCut stages a.key pre).2 =
      (cut RawEvent.stageNo stages A.flatten).2 ++ u := by
    rw [keyCut, hpre, cut_append_of_not_covers hnot]
  have hout := KeyMatcher.emitted_feedAll id hr (stage_lt_of_split hlt hevs)
  rw [hopen, if_pos ⟨ha, hcov⟩] at hout
  obtain ⟨L, R, M, q, hLR, hqR, hqn, hhist, hfrom, _⟩ := hall pre a post _ hevs hout
  have hqc : Covers RawEvent.stageNo stages q := by
    intro s hs
    obtain ⟨x, hx, hxs, _⟩ := hfrom s hs
    exact ⟨x, hx, hxs⟩
  -- the event lies in one of the incomplete requests or in the part of the next one
  have hua : u ++ [a] <+: (I ++ [p]).flatten := ⟨v, by simp [hu]⟩
  obtain ⟨L₂, Q, M₂, q', hIp, hq'Q, hq'n, hq'⟩ := exists_block hua (by simp)
  rw [keyEvents_concat ha rfl, hpre, List.append_assoc, hq', ← List.append_assoc,
    ← List.flatten_append] at hhist
  rcases List.eq_nil_or_concat M₂ with rfl | ⟨M₃, p₂, rfl⟩
  · obtain ⟨rfl, hpQ⟩ := List.append_inj' hIp rfl
    obtain rfl : p = Q := by simpa using hpQ
    have hs : L ++ R :: M = (A ++ I) ++ (p ++ p') :: B := by rw [← hLR, ← hAB]; simp
    obtain ⟨_, _, rfl⟩ := block_unique hs hqR (hq'Q.trans (List.prefix_append _ _)) hqn hq'n
      hhist.symm
    exact hqc.mono hq'Q.subset
  · rw [List.concat_eq_append, ← List.cons_append, ← List.append_assoc] at hIp
    obtain ⟨rfl, _⟩ := List.append_inj' hIp rfl
    have hs : L ++ R :: M = (A ++ L₂) ++ Q :: (M₃ ++ (p ++ p') :: B) := by
      rw [← hLR, ← hAB]; simp
    obtain ⟨_, _, rfl⟩ := block_unique hs hqR hq'Q hqn hq'n hhist.symm
    exact absurd (hqc.mono hq'Q.subset) (hinc Q (by simp))

theorem singleRequests_of_noCarryOver (hN : ∀ k, NoCarryOver stages (reqs k)) :
    SingleRequests id stages evs reqs := by
  intro pre e post r hevs hout
  rw [KeyMatcher.emitted_feedAll id hr (stage_lt_of_split hlt hevs)] at hout
  split at hout
  · next hcond =>
    obtain ⟨he, hcov⟩ := hcond
    obtain rfl := Option.some.inj hout
    obtain ⟨L, R, M, p, v, hLR, hR, hpre⟩ := hq.exists_place hevs he
    obtain ⟨I, ⟨A, rfl⟩, hinc, hrest⟩ :=
      cut_requests (hN e.key) (hq.distinct e.key) hq.stage_mem hne ⟨R :: M, hLR.symm⟩
    have hI : (I ++ [R]) <:+: reqs e.key := ⟨A, M, by simp [hLR]⟩
    have hnot := not_covers_inside (hN e.key) (hq.distinct e.key) hq.stage_mem hI hinc hR
    have hopen : (keyCut stages e.key pre).2 = I.flatten ++ p := by
      rw [keyCut, hpre, cut_append_of_not_covers (by rwa [hrest]), hrest]
    rw [hopen, List.append_assoc] at hcov ⊢
    have hcp : Covers RawEvent.stageNo stages (p ++ [e]) :=
      hN e.key I R hI hinc _ ⟨v, by simp [hR]⟩ hcov
    refine ⟨A ++ I, R, M, p ++ [e], hLR, ⟨v, by simp [hR]⟩, by simp, ?_,
      fromRequest_recordOf hne hr hcp⟩
    rw [keyEvents_concat he rfl, hpre, List.append_assoc]
  · exact absurd hout (by simp)

end Run

/-- Every group is made of events of the request in progress exactly when no key carries stages
over from incomplete requests. -/
theorem keyMatcher_single_request_iff (id : String) (hr : ∀ s ∈ stages, InRange s)
    {evs : List RawEvent} (hlt : ∀ e ∈ evs, e.stage < 64)
    {reqs : UInt64 → List (List RawEvent)} (hq : Requests stages evs reqs) :
    SingleRequests id stages evs reqs ↔ ∀ k, NoCarryOver stages (reqs k) := by
  rcases eq_or_ne stages [] with rfl | hne
  · refine iff_of_true (fun pre e post r hevs hout => ?_) fun k I R _ _ p _ _ s hs => ?_
    · simp [KeyMatcher.emitted_feedAll id hr (stage_lt_of_split hlt hevs)] at hout
    · exact absurd hs List.not_mem_nil
  · exact ⟨noCarryOver_of_singleRequests hr hne hlt hq,
      singleRequests_of_noCarryOver hr hne hlt hq⟩

/-- Two incomplete requests on one key; the second one completes the group of the first. -/
theorem keyMatcher_mixes_requests :
    ¬ ∀ (stages : List ℤ) (evs : List RawEvent) (reqs : UInt64 → List (List RawEvent)),
      stages.Pairwise (· < ·) → (∀ s ∈ stages, InRange s) → (∀ e ∈ evs, e.stage < 64) →
      evs.Pairwise (·.ts ≤ ·.ts) → Requests stages evs reqs →
      ∀ pre e post r, evs = pre ++ e :: post →
        ((KeyMatcher.new "by_key" stages).feedAll pre).emitted e = some r →
        ∃ R ∈ reqs e.key, FromRequest stages R r := by
  intro h
  have hq : Requests [0, 1, 2] [⟨1, 7, 0, 9⟩, ⟨2, 7, 1, 9⟩, ⟨3, 7, 0, 9⟩, ⟨4, 7, 2, 9⟩]
      (fun k => if k = 9 then [[⟨1, 7, 0, 9⟩, ⟨2, 7, 1, 9⟩], [⟨3, 7, 0, 9⟩, ⟨4, 7, 2, 9⟩]]
        else []) := by
    constructor <;> intro k <;> by_cases hk : k = 9
    · subst hk
      decide
    · simp [keyEvents, hk, Ne.symm hk]
    all_goals simp [hk]
    all_goals decide
  obtain ⟨R, hR, hts, _⟩ := h _ _ _ (by decide) (by decide) (by decide) (by decide) hq
    [⟨1, 7, 0, 9⟩, ⟨2, 7, 1, 9⟩, ⟨3, 7, 0, 9⟩] ⟨4, 7, 2, 9⟩ [] _ rfl rfl
  revert R
  decide

/-- A request whose second stage was lost, and a complete one after it. -/
theorem keyMatcher_single_request_two :
    SingleRequests "uring_flow" [0, 1] [⟨1, 7, 0, 9⟩, ⟨3, 7, 0, 9⟩, ⟨4, 8, 1, 9⟩]
      (fun k => if k = 9 then [[⟨1, 7, 0, 9⟩], [⟨3, 7, 0, 9⟩, ⟨4, 8, 1, 9⟩]] else []) := by
  have hq : Requests [0, 1] [⟨1, 7, 0, 9⟩, ⟨3, 7, 0, 9⟩, ⟨4, 8, 1, 9⟩]
      (fun k => if k = 9 then [[⟨1, 7, 0, 9⟩], [⟨3, 7, 0, 9⟩, ⟨4, 8, 1, 9⟩]] else []) := by
    constructor <;> intro k <;> by_cases hk : k = 9
    · subst hk
      decide
    · simp [keyEvents, hk, Ne.symm hk]
    all_goals simp [hk]
    all_goals decide
  exact (keyMatcher_single_request_iff "uring_flow" (by decide) (by decide) hq).mpr
    fun k => noCarryOver_of_two (by decide) (hq.first k)

end LensX
