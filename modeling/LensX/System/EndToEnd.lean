import LensX.Model.Report
import LensX.Transport.Progress

/-! # From the probes to the reports

The event loop reads the records of the generated programs out of the ring while other
threads go on hitting probes. What it prints in the end is what a sequential run prints
for the hits whose records it has consumed.
-/

namespace LensX

open CommitLog

/-- The record that the program of a probe submits. -/
def Hit.record (x : Hit) : List UInt8 := x.probe.bpfProgram.output x.firing

/-- The callback that `main` passes to `ring_buffer__new`. -/
def Tracer.sampleCb (t : Tracer) (data : List UInt8) : Tracer × Int32 := (t.handleRecord data, 0)

/-- A step of the traced system: a program makes progress with its record, or the event loop
reads. -/
abbrev LiveStep (cfg : Config) (targetPid : UInt32) (attached : ProbeConfig → Bool) :
    RingState Hit Tracer → RingState Hit Tracer → Prop :=
  RingStep Hit.record (·.Delivered cfg targetPid attached) Tracer.sampleCb

section EndToEnd

variable {cfg : Config} {targetPid : UInt32} {attached : ProbeConfig → Bool}
  {order : IterationOrder} {csvOpen : Bool}

theorem callAll_sampleCb (t : Tracer) (hits : List Hit) :
    callAll Hit.record Tracer.sampleCb t hits = t.events (hits.map Hit.event) := by
  rw [← Tracer.handleRecords_eq, List.foldl_map]
  simp only [callAll, Tracer.sampleCb, Hit.record]

theorem delivered_eq_map {hits : List Hit} (h : ∀ x ∈ hits, x.Delivered cfg targetPid attached) :
    delivered cfg targetPid attached hits = hits.map Hit.event := by
  rw [delivered, List.filter_eq_self.mpr fun x hx => decide_eq_true (h x hx)]

theorem drainAll_callAll {hits : List Hit} (h : ∀ x ∈ hits, x.Delivered cfg targetPid attached) :
    (callAll Hit.record Tracer.sampleCb (Tracer.init cfg order csvOpen) hits).drainAll
      (reportKeys cfg.reports) = run cfg order csvOpen (delivered cfg targetPid attached hits) := by
  rw [callAll_sampleCb, delivered_eq_map h, run]

theorem Backed.delivered_of_mem {s : RingState Hit Tracer} {released : ℕ}
    (h : Backed Hit.record (·.Delivered cfg targetPid attached) s released) {l : List (Entry Hit)}
    (hl : l ⊆ s.records) : ∀ x ∈ submitted l, x.Delivered cfg targetPid attached := by
  intro x hx
  obtain ⟨e, he, rfl⟩ := List.mem_map.mp hx
  exact h.allowed e (hl (List.mem_filter.mp he).1)

theorem length_record (x : Hit) : x.record.length = 24 := by
  rw [Hit.record, BpfProgram.output, length_eventBytes]
  rfl

theorem space_record (x : Hit) : space Hit.record x = 32 := by
  rw [space_eq (by rw [length_record]; decide), length_record]

variable {s₀ s : RingState Hit Tracer}

/-- Whenever the event loop stops, it prints what a run over some hits prints: the submitted ones
among the first reservations, in that order. -/
theorem stopped_eq_run (h₀ : s₀.Fresh) (hinit : s₀.ctx = Tracer.init cfg order csvOpen)
    (hs : Relation.ReflTransGen (LiveStep cfg targetPid attached) s₀ s) :
    ∃ n ≤ s.records.length, (∀ e ∈ s.records.take n, e.status.Finished) ∧
      s.ctx.drainAll (reportKeys cfg.reports) = run cfg order csvOpen
        (delivered cfg targetPid attached (submitted (s.records.take n))) := by
  obtain ⟨released, n, h⟩ := exists_delivering h₀ hs
  refine ⟨n, h.valid.le, h.valid.finished, ?_⟩
  rw [h.ctx, hinit, drainAll_callAll (h.backed.delivered_of_mem (List.take_subset _ _))]

theorem stopped_eq_run_read :
    let read : ProbeConfig := ⟨"read", "kprobe", "vfs_read", "", 0, ""⟩
    let cfg : Config := ⟨"nebulaX", "", [read], [⟨"read_flow", [0], "seq", 4096⟩], []⟩
    let x : Hit := ⟨read, ⟨100, 101, 10, 0, 0, fun _ => 0⟩⟩
    ∃ s : RingState Hit Tracer, s.records = [⟨x, .submitted⟩] ∧ ∃ n ≤ s.records.length,
      s.ctx.drainAll (reportKeys cfg.reports) =
        run cfg default false
          (delivered cfg 100 (fun _ => true) (submitted (s.records.take n))) := by
  intro read cfg x
  have hfresh : RingState.Fresh (⟨⟨4095, fun _ => 0, 0, 0⟩, [], .idle, .init cfg default false⟩ :
      RingState Hit Tracer) := ⟨⟨12, by decide⟩, rfl, rfl, rfl, rfl⟩
  have hx : x.Delivered cfg 100 fun _ => true := ⟨List.mem_singleton_self _, rfl, .inl rfl⟩
  obtain ⟨s, hs, hrecords, -⟩ := exists_submitted Hit.record
    (·.Delivered cfg 100 fun _ => true) Tracer.sampleCb hfresh x hx (by rw [length_record]; decide)
    (by rw [space_record]; decide)
  obtain ⟨n, hn, -, heq⟩ := stopped_eq_run hfresh rfl hs
  exact ⟨s, hrecords, n, hn, heq⟩

/-- When all programs are done, one more call is enough for nothing to be lost. -/
theorem drained_eq_run (h₀ : s₀.Fresh) (hinit : s₀.ctx = Tracer.init cfg order csvOpen)
    (hs : Relation.ReflTransGen (LiveStep cfg targetPid attached) s₀ s) (hpc : s.pc = .idle)
    (hdone : ∀ e ∈ s.records, e.status.Finished) :
    ∃ k s' res, (RingState.process Tracer.sampleCb)^[k] s = s' ∧ s'.pc = .returned res ∧
      s'.ring.consumerPos = s'.ring.producerPos ∧
      s'.ctx.drainAll (reportKeys cfg.reports) = run cfg order csvOpen
        (delivered cfg targetPid attached (submitted s.records)) := by
  obtain ⟨released, consumed, h⟩ := exists_delivering h₀ hs
  obtain ⟨k, hrecords, hreturned, hd⟩ := exists_drained (fun _ _ _ => Int32.le_refl 0) h hpc
  -- nothing is left behind the records that are ready
  have hend : released + (ready s.records released).length = s.records.length := by
    rw [ready_eq_drop hdone, List.length_drop]
    have hle := h.backed.le
    omega
  rw [hend] at hd
  refine ⟨k, _, _, rfl, hreturned, ?_, ?_⟩
  · rw [← UInt64.toNat_inj, hd.backed.consumerPos, hd.backed.producerPos, hrecords]
  · rw [hd.ctx, hinit, hrecords, List.take_length,
      drainAll_callAll (h.backed.delivered_of_mem (List.Subset.refl _))]

theorem drained_eq_run_read :
    let read : ProbeConfig := ⟨"read", "kprobe", "vfs_read", "", 0, ""⟩
    let cfg : Config := ⟨"nebulaX", "", [read], [⟨"read_flow", [0], "seq", 4096⟩], []⟩
    let x : Hit := ⟨read, ⟨100, 101, 10, 0, 0, fun _ => 0⟩⟩
    ∃ s : RingState Hit Tracer,
      s.ctx.drainAll (reportKeys cfg.reports) =
        run cfg default false (delivered cfg 100 (fun _ => true) [x]) := by
  intro read cfg x
  have hfresh : RingState.Fresh (⟨⟨4095, fun _ => 0, 0, 0⟩, [], .idle, .init cfg default false⟩ :
      RingState Hit Tracer) := ⟨⟨12, by decide⟩, rfl, rfl, rfl, rfl⟩
  have hx : x.Delivered cfg 100 fun _ => true := ⟨List.mem_singleton_self _, rfl, .inl rfl⟩
  obtain ⟨s, hs, hrecords, hpc⟩ := exists_submitted Hit.record
    (·.Delivered cfg 100 fun _ => true) Tracer.sampleCb hfresh x hx (by rw [length_record]; decide)
    (by rw [space_record]; decide)
  obtain ⟨k, s', res, -, -, -, heq⟩ := drained_eq_run hfresh rfl hs hpc
    (by rw [hrecords]; intro e he; obtain rfl := List.mem_singleton.mp he; exact .inl rfl)
  exact ⟨s', by simpa [hrecords, submitted] using heq⟩

end EndToEnd

end LensX
