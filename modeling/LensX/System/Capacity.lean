import LensX.System.EndToEnd

/-! # The capacity of the ring

All records of the generated programs take the same space. A hit is lost if and only if
as many records as the generated ring can hold are waiting for the event loop.
-/

namespace LensX

open CommitLog

section Mask

variable {α σ : Type*} {bytes : α → List UInt8} {allowed : α → Prop}
  {cb : σ → List UInt8 → σ × Int32}

theorem RingState.process_mask (s : RingState α σ) : (s.process cb).ring.mask = s.ring.mask := by
  fun_cases process cb s <;> rfl

/-- The size of a ring does not change. -/
theorem size_of_steps {s s' : RingState α σ}
    (h : Relation.ReflTransGen (RingStep bytes allowed cb) s s') : s'.ring.size = s.ring.size := by
  induction h with
  | refl => rfl
  | @tail t u _ hstep ih =>
    rw [← ih, Ring.size, Ring.size]
    cases hstep with
    | kernel h => rw [h.frame.mask]
    | consumer => rw [t.process_mask]

end Mask

/-- The `max_entries` of the generated ring. -/
def maxEntries : ℕ := 1 <<< 20

/-- The program that is hit finds room for its record. -/
def Reserves (cfg : Config) (targetPid : UInt32) (attached : ProbeConfig → Bool)
    (s : RingState Hit Tracer) (x : Hit) : Prop :=
  ∃ s', KernelStep Hit.record (·.Delivered cfg targetPid attached) s s' ∧
    s'.records = s.records ++ [⟨x, .reserved⟩]

section Capacity

variable {cfg : Config} {targetPid : UInt32} {attached : ProbeConfig → Bool}
  {s₀ s : RingState Hit Tracer}

theorem position_record {l : List (Entry Hit)} {i : ℕ} (hi : i ≤ l.length) :
    position Hit.record l i = 32 * i := by
  rw [position, List.map_congr_left fun e _ => space_record e.value, List.map_const',
    List.length_take_of_le hi, List.sum_replicate, smul_eq_mul, Nat.mul_comm]

theorem reserves_iff_room {x : Hit} (hx : x.Delivered cfg targetPid attached)
    (hpos : s.ring.producerPos.toNat + 32 < 2 ^ 64) :
    Reserves cfg targetPid attached s x ↔
      s.ring.producerPos.toNat + 32 ≤ s.ring.consumerPos.toNat + s.ring.size := by
  constructor
  · rintro ⟨s', hstep, hrecords⟩
    cases hstep with
    | reserve a pgOff hallowed hpg hlen hroom hpos => exact space_record a ▸ hroom
    | change he ht =>
      have hlength := congrArg List.length hrecords
      rw [List.length_set, List.length_append] at hlength
      exact absurd hlength (by simp)
  · intro hroom
    rw [← space_record x] at hroom hpos
    exact ⟨_, .reserve s x [0, 0, 0, 0] hx rfl (by rw [length_record]; decide) hroom hpos, rfl⟩

/-- At any moment the first records are released, and at most 32768 are not. A hit finds no room if
and only if there are that many. -/
theorem reserves_iff (h₀ : s₀.Fresh) (hsize : s₀.ring.size = maxEntries)
    (hs : Relation.ReflTransGen (LiveStep cfg targetPid attached) s₀ s) :
    ∃ n ≤ s.records.length, s.ring.consumerPos.toNat = 32 * n ∧
      (∀ e ∈ s.records.take n, e.status.Finished) ∧ s.records.length ≤ n + 32768 ∧
      ∀ x : Hit, x.Delivered cfg targetPid attached → 32 * (s.records.length + 1) < 2 ^ 64 →
        (Reserves cfg targetPid attached s x ↔ s.records.length ≠ n + 32768) := by
  obtain ⟨released, consumed, h⟩ := exists_delivering h₀ hs
  have hcons := h.backed.consumerPos
  have hprod := h.backed.producerPos
  have hwindow := h.backed.window
  rw [position_record h.backed.le] at hcons
  rw [position_record le_rfl] at hprod
  have hring : s.ring.size = 32 * 32768 := (size_of_steps hs).trans hsize
  refine ⟨released, h.backed.le, hcons, fun e he => ?_, by omega, fun x hx hpos => ?_⟩
  · exact h.valid.finished e (List.take_subset_take_left _ h.le_consumed he)
  · rw [reserves_iff_room hx (by omega)]
    omega

/-- A fresh ring has room. -/
theorem reserves_iff_fresh :
    let read : ProbeConfig := ⟨"read", "kprobe", "vfs_read", "", 0, ""⟩
    let cfg : Config := ⟨"nebulaX", "", [read], [⟨"read_flow", [0], "seq", 4096⟩], []⟩
    let s : RingState Hit Tracer :=
      ⟨⟨0xfffff, fun _ => 0, 0, 0⟩, [], .idle, .init cfg default false⟩
    Reserves cfg 100 (fun _ => true) s ⟨read, ⟨100, 101, 10, 0, 0, fun _ => 0⟩⟩ := by
  intro read cfg s
  have hsize : s.ring.size = 1 <<< 20 := by decide
  have hfresh : s.Fresh := ⟨⟨20, hsize⟩, rfl, rfl, rfl, rfl⟩
  obtain ⟨n, -, -, -, -, h⟩ := reserves_iff hfresh hsize .refl
  refine (h _ ⟨List.mem_singleton_self _, rfl, .inl rfl⟩ (by decide)).mpr ?_
  change 0 ≠ n + 32768
  omega

end Capacity

end LensX
