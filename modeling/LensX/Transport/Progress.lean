import LensX.Transport.Delivery
import Mathlib.Data.List.TakeWhile

/-! # Progress

A call that is not interrupted delivers what is finished up to the first record that is
not, and returns how many samples that were.
-/

namespace LensX

open CommitLog

variable {α σ : Type*} {bytes : α → List UInt8} {allowed : α → Prop}
  {cb : σ → List UInt8 → σ × Int32} {s : RingState α σ} {init : σ}

/-- The records that the next call can consume. -/
def ready (records : List (Entry α)) (released : ℕ) : List (Entry α) :=
  (records.drop released).takeWhile fun e => decide e.status.Finished

section Ready

variable {l : List (Entry α)} {i : ℕ} {e : Entry α}

theorem ready_of_finished (he : l[i]? = some e) (ht : e.status.Finished) :
    ready l i = e :: ready l (i + 1) := by
  obtain ⟨hi, rfl⟩ := List.getElem?_eq_some_iff.mp he
  rw [ready, ready, List.drop_eq_getElem_cons hi, List.takeWhile_cons_of_pos (by simpa using ht)]

theorem ready_of_open (he : l[i]? = some e) (ht : ¬ e.status.Finished) : ready l i = [] := by
  obtain ⟨hi, rfl⟩ := List.getElem?_eq_some_iff.mp he
  rw [ready, List.drop_eq_getElem_cons hi, List.takeWhile_cons_of_neg (by simpa using ht)]

theorem ready_length : ready l l.length = [] := by simp [ready]

theorem take_add_length_ready : l.take (i + (ready l i).length) = l.take i ++ ready l i := by
  rw [List.take_add, ready]
  congr 1
  exact (List.prefix_iff_eq_take.mp (List.takeWhile_prefix _)).symm

/-- All of them are ready when all records are finished. -/
theorem ready_eq_drop (h : ∀ e ∈ l, e.status.Finished) : ready l i = l.drop i :=
  List.takeWhile_eq_self_iff.mpr fun e he => decide_eq_true (h e (List.mem_of_mem_drop he))

end Ready

/-- Where a call ends that began with some records released. -/
structure Drained (bytes : α → List UInt8) (allowed : α → Prop)
    (cb : σ → List UInt8 → σ × Int32) (init : σ) (s s' : RingState α σ) (released : ℕ) (cnt : ℤ) :
    Prop where
  records : s'.records = s.records
  pc : s'.pc = .returned (cnt + (submitted (ready s.records released)).length)
  delivering : Delivering bytes allowed cb init s' (released + (ready s.records released).length)
    (released + (ready s.records released).length)

theorem Drained.of_nil {s' : RingState α σ} {released : ℕ} {cnt : ℤ}
    (hready : ready s.records released = []) (hrecords : s'.records = s.records)
    (hpc : s'.pc = .returned cnt) (h : Delivering bytes allowed cb init s' released released) :
    Drained bytes allowed cb init s s' released cnt := by
  refine ⟨hrecords, ?_, ?_⟩ <;> rw [hready]
  · simpa [submitted] using hpc
  · exact h

theorem Backed.lt_producerPos {released : ℕ} {e : Entry α} (h : Backed bytes allowed s released)
    (he : s.records[released]? = some e) : s.ring.consumerPos < s.ring.producerPos := by
  have hend := h.end_le he
  have hspace := length_add_le_space (h.length e (List.mem_of_getElem? he))
  rw [← h.consumerPos] at hend
  exact UInt64.lt_iff_toNat_lt.mpr (by omega)

/-- One round of the inner loop. -/
theorem Delivering.round (hcb : ∀ ctx a, allowed a → 0 ≤ (cb ctx (bytes a)).2) {released : ℕ}
    (h : Delivering bytes allowed cb init s released released) {gotNewData : Bool} {cnt : ℤ}
    (hpc : s.pc = .inner s.ring.consumerPos s.ring.producerPos gotNewData cnt) {e : Entry α}
    (he : s.records[released]? = some e) (ht : e.status.Finished) :
    ∃ s', (RingState.process cb)^[3] s = s' ∧ s'.records = s.records ∧
      Delivering bytes allowed cb init s' (released + 1) (released + 1) ∧
      s'.pc = .inner s'.ring.consumerPos s'.ring.producerPos true
        (cnt + (submitted [e]).length) := by
  have hlt := h.backed.lt_producerPos he
  have hnext := h.backed.toNat_next he ht
  have herr := hcb s.ctx e.value (h.backed.allowed e (List.mem_of_getElem? he))
  set next := s.ring.consumerPos + (roundupLen (lenWord bytes e.value e.status)).toUInt64
  have hsample := process_inner cb hpc rfl hlt h.backed he
  rw [if_pos ht] at hsample
  have hrelease := process_sample cb
    (s := { s with
      pc := .sample s.ring.consumerPos next s.ring.producerPos (lenWord bytes e.value e.status)
        cnt })
    rfl rfl rfl (h.backed.with_pc _ _) he ht
  simp only [if_neg (Int32.not_lt.mpr herr)] at hrelease
  refine ⟨_, rfl, ?_⟩
  simp only [Function.iterate_succ, Function.iterate_zero, Function.comp_apply, id_eq, hsample]
  rw [hrelease]
  by_cases hs : e.status = .submitted
  · rw [if_pos hs]
    have hconsume := h.consume he ht none (cnt + 1) le_rfl hnext (if_pos hs).symm
    refine ⟨rfl, ⟨hconsume.backed.release he hnext, hconsume.valid, ⟨rfl, rfl, le_rfl⟩,
      hconsume.ctx⟩, ?_⟩
    simp [RingState.process, submitted, hs]
  · rw [if_neg hs]
    have hconsume := h.consume he ht none cnt le_rfl hnext (if_neg hs).symm
    refine ⟨rfl, ⟨hconsume.backed.release he hnext, hconsume.valid, ⟨rfl, rfl, le_rfl⟩,
      hconsume.ctx⟩, ?_⟩
    simp [RingState.process, submitted, hs]

/-- The inner loop ends when everything is released. -/
theorem exists_drained_of_length {released : ℕ}
    (h : Delivering bytes allowed cb init s released released) {gotNewData : Bool} {cnt : ℤ}
    (hpc : s.pc = .inner s.ring.consumerPos s.ring.producerPos gotNewData cnt)
    (hlen : s.records.length = released) :
    ∃ n, Drained bytes allowed cb init s ((RingState.process cb)^[n] s) released cnt := by
  have hready : ready s.records released = [] := hlen ▸ ready_length
  have hge : ¬ s.ring.consumerPos < s.ring.producerPos := by
    rw [UInt64.lt_iff_toNat_lt, h.backed.consumerPos, h.backed.producerPos, hlen]
    exact lt_irrefl _
  have hend : ∀ pc, pc = .returned cnt → Delivering bytes allowed cb init { s with pc := pc }
      released released := by
    rintro pc rfl
    exact ⟨h.backed.with_pc _ _, h.valid, rfl, h.ctx⟩
  cases gotNewData
  · have hprocess : s.process cb = { s with pc := .returned cnt } := by
      rw [RingState.process, hpc]
      simp only [if_neg hge, Bool.false_eq_true, if_false]
    exact ⟨1, .of_nil hready (by rw [Function.iterate_one, hprocess])
      (by rw [Function.iterate_one, hprocess])
      (by rw [Function.iterate_one, hprocess]; exact hend _ rfl)⟩
  · -- one more round finds nothing
    have hprocess : (RingState.process cb)^[3] s = { s with pc := .returned cnt } := by
      simp only [Function.iterate_succ, Function.iterate_zero, Function.comp_apply, id_eq,
        RingState.process, hpc, if_neg hge, if_true, Bool.false_eq_true, if_false]
    exact ⟨3, .of_nil hready (by rw [hprocess]) (by rw [hprocess]) (hprocess ▸ hend _ rfl)⟩

/-- The inner loop and everything after it, when the producer is not active. -/
theorem exists_drained_inner (hcb : ∀ ctx a, allowed a → 0 ≤ (cb ctx (bytes a)).2) {released : ℕ}
    (h : Delivering bytes allowed cb init s released released) {gotNewData : Bool} {cnt : ℤ}
    (hpc : s.pc = .inner s.ring.consumerPos s.ring.producerPos gotNewData cnt) :
    ∃ n, Drained bytes allowed cb init s ((RingState.process cb)^[n] s) released cnt := by
  -- each round of the loop releases one record
  induction hm : s.records.length - released generalizing s released gotNewData cnt with
  | zero => exact exists_drained_of_length h hpc (Nat.le_antisymm (by omega) h.backed.le)
  | succ m ih =>
    obtain ⟨e, he⟩ : ∃ e, s.records[released]? = some e :=
      ⟨_, List.getElem?_eq_getElem (by omega)⟩
    by_cases ht : e.status.Finished
    · obtain ⟨s', hprocess, hrecords, hs', hpc'⟩ := h.round hcb hpc he ht
      obtain ⟨n, hn⟩ := ih hs' hpc' (by rw [hrecords]; omega)
      refine ⟨n + 3, ?_⟩
      rw [Function.iterate_add_apply, hprocess]
      have hready := ready_of_finished he ht
      have hcount : submitted (ready s.records released) =
          submitted [e] ++ submitted (ready s.records (released + 1)) := by
        rw [hready, ← submitted_append, List.singleton_append]
      obtain ⟨hrecords', hreturned, hdelivering⟩ := hn
      rw [hrecords] at hreturned hdelivering
      refine ⟨hrecords'.trans hrecords, ?_, ?_⟩
      · rw [hreturned, hcount, List.length_append, Nat.cast_add, add_assoc]
      · rw [hready, List.length_cons, Nat.add_comm _ 1, ← Nat.add_assoc]
        exact hdelivering
    · have hprocess := process_inner cb hpc rfl (h.backed.lt_producerPos he) h.backed he
      rw [if_neg ht] at hprocess
      exact ⟨1, .of_nil (ready_of_open he ht) (by rw [Function.iterate_one, hprocess])
        (by rw [Function.iterate_one, hprocess])
        (by rw [Function.iterate_one, hprocess]; exact ⟨h.backed.with_pc _ _, h.valid, rfl, h.ctx⟩)⟩

/-- A whole call. -/
theorem exists_drained (hcb : ∀ ctx a, allowed a → 0 ≤ (cb ctx (bytes a)).2)
    {released consumed : ℕ} (h : Delivering bytes allowed cb init s released consumed)
    (hpc : s.pc = .idle) :
    ∃ n, Drained bytes allowed cb init s ((RingState.process cb)^[n] s) released 0 := by
  have hknows := h.knows
  rw [hpc] at hknows
  obtain rfl : consumed = released := hknows
  have hprocess : (RingState.process cb)^[2] s =
      { s with pc := .inner s.ring.consumerPos s.ring.producerPos false 0 } := by
    simp only [Function.iterate_succ, Function.iterate_zero, Function.comp_apply, id_eq,
      RingState.process, hpc]
  obtain ⟨n, hn⟩ := exists_drained_inner hcb
    (s := { s with pc := .inner s.ring.consumerPos s.ring.producerPos false 0 })
    ⟨h.backed.with_pc _ _, h.valid, ⟨rfl, rfl, le_rfl⟩, h.ctx⟩ rfl
  refine ⟨n + 2, ?_⟩
  rw [Function.iterate_add_apply, hprocess]
  exact ⟨hn.records, hn.pc, hn.delivering⟩

theorem callAll_append (ctx : σ) (l l' : List α) :
    callAll bytes cb ctx (l ++ l') = callAll bytes cb (callAll bytes cb ctx l) l' :=
  List.foldl_append

/-- From whatever state a call begins in, it returns, unless the callback fails. It has then
released the records up to the first open one and has called the callback for the submitted
ones. -/
theorem call_consumes_ready {s₀ : RingState α σ}
    (hcb : ∀ ctx a, allowed a → 0 ≤ (cb ctx (bytes a)).2) (h₀ : s₀.Fresh)
    (hs : Relation.ReflTransGen (RingStep bytes allowed cb) s₀ s) (hpc : s.pc = .idle) :
    ∃ n s' released, (RingState.process cb)^[n] s = s' ∧ s'.records = s.records ∧
      s.ring.consumerPos.toNat = position bytes s.records released ∧
      s'.pc = .returned (submitted (ready s.records released)).length ∧
      s'.ctx = callAll bytes cb s.ctx (submitted (ready s.records released)) ∧
      s'.ring.consumerPos.toNat =
        position bytes s.records (released + (ready s.records released).length) := by
  obtain ⟨released, consumed, h⟩ := exists_delivering h₀ hs
  have hknows := h.knows
  rw [hpc] at hknows
  obtain rfl : consumed = released := hknows
  obtain ⟨n, hrecords, hreturned, hd⟩ := exists_drained hcb h hpc
  refine ⟨n, _, consumed, rfl, hrecords, h.backed.consumerPos, ?_, ?_, ?_⟩
  · rw [hreturned, zero_add]
  · rw [hd.ctx, hrecords, take_add_length_ready, submitted_append, callAll_append, ← h.ctx]
  · rw [hd.backed.consumerPos, hrecords]

theorem call_consumes_ready_byte :
    ∃ n, ∃ s s' : RingState UInt8 (List (List UInt8)),
      (RingState.process fun l data => (l ++ [data], 0))^[n] s = s' ∧
        s'.records = [⟨7, .submitted⟩] := by
  obtain ⟨s₀, s, hfresh, -, hs, hrecords, hpc⟩ := exists_byte
  obtain ⟨n, s', released, hn, hrecords', -⟩ :=
    call_consumes_ready (fun _ _ _ => Int32.le_refl 0) hfresh hs hpc
  exact ⟨n, s, s', hn, hrecords'.trans hrecords⟩

end LensX
