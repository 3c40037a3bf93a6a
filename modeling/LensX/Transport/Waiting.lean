import LensX.General.Countdown
import LensX.Transport.Progress

/-! # Bounded waiting

The producers may go on between any two steps of the consumer. A finished record whose
predecessors are finished is handed out nevertheless, after at most six steps of the
consumer for every record up to it that still waits.
-/

namespace LensX

open CommitLog Countdown

variable {α σ : Type*} {bytes : α → List UInt8} {allowed : α → Prop}
  {cb : σ → List UInt8 → σ × Int32} {s s' : RingState α σ} {init : σ}

/-- The number of steps until the next record is handed out, if it is finished. -/
def Pc.toNext : Pc → ℕ
  | .sample _ _ _ _ _ => 1
  | .inner consPos prodPos gotNewData _ =>
    if consPos < prodPos then 2 else if gotNewData then 4 else 6
  | .outer _ _ => 3
  | .idle => 4
  | .returned _ => 5
  | .release _ _ _ _ => 6

theorem Pc.toNext_bounds (pc : Pc) : 0 < pc.toNext ∧ pc.toNext ≤ 6 := by
  cases pc
  case inner =>
    rw [toNext]
    split_ifs <;> decide
  all_goals exact ⟨Nat.succ_pos _, Nat.le_of_ble_eq_true rfl⟩

theorem Pc.toNext_inner_le (consPos prodPos : UInt64) (cnt : ℤ) :
    (Pc.inner consPos prodPos true cnt).toNext ≤ 4 := by
  rw [toNext, if_pos rfl]
  split_ifs <;> decide

theorem RingState.process_records (cb : σ → List UInt8 → σ × Int32) (s : RingState α σ) :
    (s.process cb).records = s.records := by
  fun_cases process cb s <;> rfl

namespace Delivering

variable {released consumed : ℕ}

/-- A step hands out the next record or brings it nearer. -/
theorem toNext_process (h : Delivering bytes allowed cb init s released consumed) {e : Entry α}
    (he : s.records[consumed]? = some e) (ht : e.status.Finished) :
    (s.process cb).pc.toNext < s.pc.toNext + 6 * s.pc.handsOut := by
  have hknows := h.knows
  cases hpc : s.pc with
  | idle =>
    rw [RingState.process, hpc]
    exact Nat.lt_succ_self 3
  | outer consPos cnt =>
    rw [hpc] at hknows
    obtain ⟨rfl, rfl⟩ := hknows
    rw [RingState.process, hpc]
    change (if s.ring.consumerPos < s.ring.producerPos then 2 else 6) < 3
    rw [if_pos (h.backed.lt_producerPos he)]
    exact Nat.lt_succ_self 2
  | inner consPos prodPos gotNewData cnt =>
    rw [hpc] at hknows
    obtain ⟨rfl, hpos, -⟩ := hknows
    change _ < (if consPos < prodPos then 2 else if gotNewData then 4 else 6)
    by_cases hlt : consPos < prodPos
    · rw [process_inner cb hpc hpos hlt h.backed he, if_pos ht, if_pos hlt]
      exact Nat.lt_succ_self 1
    · rw [RingState.process, hpc, if_neg hlt]
      simp only [if_neg hlt]
      cases gotNewData
      · exact Nat.lt_succ_self 5
      · exact Nat.lt_succ_self 3
  | sample start consPos prodPos len cnt =>
    exact Nat.lt_succ_of_le (Pc.toNext_bounds _).2
  | release consPos prodPos err cnt =>
    rw [RingState.process, hpc]
    cases err with
    | none =>
      change (Pc.inner consPos prodPos true cnt).toNext < 6
      have hle := Pc.toNext_inner_le consPos prodPos cnt
      omega
    | some err => exact Nat.lt_succ_self 5
  | returned res =>
    rw [RingState.process, hpc]
    exact Nat.lt_succ_self 4

end Delivering

/-- The first records are handed out after so many steps. -/
def Due (bytes : α → List UInt8) (allowed : α → Prop) (cb : σ → List UInt8 → σ × Int32) (init : σ)
    (l : List (Entry α)) (k : ℕ) (s : RingState α σ) : Prop :=
  ∃ released consumed, Delivering bytes allowed cb init s released consumed ∧ l <+: s.records ∧
    (consumed < l.length → 6 * (l.length - consumed) + s.pc.toNext ≤ k + 6)

section Due

variable {l : List (Entry α)} (hfin : ∀ e ∈ l, e.status.Finished) {k : ℕ}
include hfin

/-- Finished records stay. -/
theorem KernelFrame.prefix_records (h : KernelFrame s s') (hl : l <+: s.records) :
    l <+: s'.records := by
  rw [List.prefix_iff_getElem?] at hl ⊢
  exact fun i hi => h.finished i _ (hl i hi) (hfin _ (List.getElem_mem hi))

theorem Due.kernel (h : Due bytes allowed cb init l k s) (hs : KernelStep bytes allowed s s') :
    Due bytes allowed cb init l k s' := by
  obtain ⟨released, consumed, hd, hl, hk⟩ := h
  exact ⟨released, consumed, hd.kernel hs, hs.frame.prefix_records hfin hl, hs.frame.pc ▸ hk⟩

omit hfin in
theorem Due.process_zero (h : Due bytes allowed cb init l 0 s) :
    Due bytes allowed cb init l 0 (s.process cb) := by
  obtain ⟨released, consumed, hd, hl, hk⟩ := h
  obtain ⟨released', hd', -⟩ := hd.process
  refine ⟨released', _, hd', (s.process_records cb).symm ▸ hl, fun hlt => ?_⟩
  have hpos := s.pc.toNext_bounds.1
  have hle := hk (by omega)
  omega

theorem Due.process (h : Due bytes allowed cb init l (k + 1) s) :
    Due bytes allowed cb init l k (s.process cb) := by
  obtain ⟨released, consumed, hd, hl, hk⟩ := h
  obtain ⟨released', hd', -⟩ := hd.process
  refine ⟨released', _, hd', (s.process_records cb).symm ▸ hl, fun hlt => ?_⟩
  have hconsumed : consumed < l.length := by omega
  have hnext := hd.toNext_process (List.prefix_iff_getElem?.mp hl consumed hconsumed)
    (hfin _ (List.getElem_mem hconsumed))
  have hle := hk hconsumed
  omega

end Due

/-- A position belongs to one number of records. -/
theorem Backed.eq_of_position {released m : ℕ} (h : Backed bytes allowed s released)
    (hle : m ≤ s.records.length)
    (hm : s.ring.consumerPos.toNat = position bytes s.records m) : m = released := by
  have hlt : ∀ i j, i < j → j ≤ s.records.length →
      position bytes s.records i < position bytes s.records j := by
    intro i j hij hj
    have he := List.getElem?_eq_getElem (l := s.records) (Nat.lt_of_lt_of_le hij hj)
    have hspace := length_add_le_space (h.length _ (List.mem_of_getElem? he))
    have hmono := position_mono bytes s.records (Nat.succ_le_of_lt hij)
    rw [Nat.succ_eq_add_one, position_succ he] at hmono
    omega
  rw [h.consumerPos] at hm
  rcases Nat.lt_trichotomy m released with h' | h' | h'
  · exact absurd hm (hlt _ _ h' h.le).ne'
  · exact h'
  · exact absurd hm (hlt _ _ h' hle).ne

/-- In any run that goes on from a reachable state, the first records are handed out after six steps
of the consumer for each of them that was not released before, provided that they were finished. -/
theorem delivered_within {s₀ : RingState α σ} (h₀ : s₀.Fresh)
    (hs : Relation.ReflTransGen (RingStep bytes allowed cb) s₀ s) {l : List (Entry α)}
    (hl : l <+: s.records) (hfin : ∀ e ∈ l, e.status.Finished) {m : ℕ}
    (hle : m ≤ s.records.length) (hm : s.ring.consumerPos.toNat = position bytes s.records m)
    {n : ℕ} (hrun : Run (KernelStep bytes allowed) (RingState.process cb) n s s')
    (hn : 6 * (l.length - m) ≤ n) :
    ∃ c ≤ s'.records.length, l <+: s'.records.take c ∧
      s'.ctx = callAll bytes cb s₀.ctx (submitted (s'.records.take c)) := by
  obtain ⟨released, consumed, hd⟩ := exists_delivering h₀ hs
  obtain rfl := hd.backed.eq_of_position hle hm
  have hdue : Due bytes allowed cb s₀.ctx l (6 * (l.length - m)) s := by
    refine ⟨m, consumed, hd, hl, fun hlt => ?_⟩
    have hbound := s.pc.toNext_bounds.2
    have hconsumed := hd.le_consumed
    omega
  have hend := hrun.countdown (fun _ => Due.process_zero) (fun _ _ => Due.process hfin)
    (fun _ _ _ => Due.kernel hfin) hdue
  rw [Nat.sub_eq_zero_of_le hn] at hend
  obtain ⟨released', consumed', hd', hl', hzero⟩ := hend
  refine ⟨consumed', hd'.valid.le, ?_, hd'.ctx⟩
  have hpos := s'.pc.toNext_bounds.1
  rw [List.prefix_take_iff]
  refine ⟨hl', ?_⟩
  by_contra hlt
  have hbound := hzero (Nat.lt_of_not_le hlt)
  omega

/-- One record is handed out by the sixth step. -/
theorem delivered_within_byte :
    ∃ s : RingState UInt8 (List (List UInt8)), s.records = [⟨7, .submitted⟩] ∧
      ((RingState.process fun l data => (l ++ [data], 0))^[6] s).ctx = [[7]] := by
  obtain ⟨s₀, s, hfresh, hempty, hs, hrecords, -⟩ := exists_byte
  obtain ⟨released, consumed, hd⟩ := exists_delivering hfresh hs
  have hfin : ∀ e ∈ s.records, e.status.Finished := by
    rw [hrecords]
    exact List.forall_mem_singleton.mpr (.inl rfl)
  have hn : 6 * (s.records.length - released) ≤ 6 := by
    rw [hrecords]
    exact Nat.mul_le_mul_left 6 (Nat.sub_le 1 released)
  obtain ⟨c, -, hl, hctx⟩ := delivered_within hfresh hs (List.prefix_refl _) hfin hd.backed.le
    hd.backed.consumerPos (.own (.own (.own (.own (.own (.own (.refl s))))))) hn
  simp only [RingState.process_records, hrecords, hempty] at hl hctx
  refine ⟨s, hrecords, hctx.trans ?_⟩
  cases c with
  | zero => exact absurd (List.prefix_nil.mp hl) (List.cons_ne_nil _ _)
  | succ c =>
    rw [List.take_succ_cons, List.take_nil]
    rfl

end LensX
