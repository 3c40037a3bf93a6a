import Mathlib.Data.Nat.ModEq
import LensX.General.BoundedQueue
import LensX.Model.Matcher

/-! # The ring buffer refines a bounded queue

The counters of a ring only grow. While they stay below `2^31` no operation
is undefined, and the cells between them hold the elements of the queue.
-/

namespace LensX

open BoundedQueue

/-- The cell of a position. -/
def cell (c n : ℕ) : UInt32 := UInt32.ofNat (n % c)

/-- A ring whose head is at a position represents a queue. -/
structure Represents (c : ℕ) (q : FifoQueue) (n : ℕ) (a : Queue UInt64 c) : Prop where
  capacity : q.capacity.toInt = c
  head : q.head.toInt = n
  tail : q.tail.toInt = n + a.items.length
  cells : ∀ i x, a.items[i]? = some x → q.queue (cell c (n + i)) = some x

theorem Represents.new (id : String) {c : ℕ} {cap : Int32} (hc : cap.toInt = c) :
    Represents c (.new id cap) 0 .empty where
  capacity := hc
  head := Int32.toInt_zero
  tail := Int32.toInt_zero
  cells := by simp

section Slot

variable {c : ℕ} {q : FifoQueue} {counter : Int32} {n : ℕ}

theorem toNat_cell (h : c < 2 ^ 32) (hc : 0 < c) : (cell c n).toNat = n % c := by
  have := Nat.mod_lt n hc
  rw [cell, UInt32.toNat_ofNat_of_lt']
  exact this.trans h

theorem slot_eq (hcap : q.capacity.toInt = c) (hn : counter.toInt = n) :
    q.slot counter = cell c n := by
  have hmod : (counter % q.capacity).toInt = (n % c : ℕ) := by
    rw [Int32.toInt_mod, hcap, hn, ← Int.ofNat_tmod]
  have hnonneg : 0 ≤ counter % q.capacity := by
    rw [Int32.le_iff_toInt_le, Int32.toInt_zero, hmod]
    exact Int.natCast_nonneg _
  have hnat : (counter % q.capacity).toNatClampNeg = n % c := by
    rw [← Int32.toNat_toInt, hmod, Int.toNat_natCast]
  apply UInt32.toNat_inj.mp
  rw [FifoQueue.slot, Int32.toNat_toUInt32_of_le hnonneg, hnat]
  have hlt := (counter % q.capacity).toNatClampNeg_lt
  rw [hnat] at hlt
  rw [cell, UInt32.toNat_ofNat_of_lt']
  exact hlt.trans (by decide)

theorem inBounds_cell (hcap : q.capacity.toInt = c) (hc : 0 < c) : q.InBounds (cell c n) := by
  have hlt := q.capacity.toInt_lt
  have hmod := Nat.mod_lt n hc
  unfold FifoQueue.InBounds
  rw [toNat_cell (by omega) hc, hcap]
  omega

end Slot

section Refinement

variable {c : ℕ} {q : FifoQueue} {n : ℕ} {a : Queue UInt64 c}

theorem capacity_ne_zero (hc : 0 < c) (h : Represents c q n a) : q.capacity ≠ 0 := by
  intro h₀
  have := h.capacity
  rw [h₀, Int32.toInt_zero] at this
  omega

/-- Different positions of a window of the ring's size have different cells. -/
theorem cell_ne {i j : ℕ} (hc : c < 2 ^ 32) (hij : i < j) (hj : j < i + c) :
    cell c i ≠ cell c j := by
  intro he
  have he := congrArg UInt32.toNat he
  rw [toNat_cell hc (by omega), toNat_cell hc (by omega)] at he
  have hd : c ∣ j - i := (Nat.modEq_iff_dvd' hij.le).mp he
  have := Nat.le_of_dvd (by omega) hd
  omega

/-- The ring after a push at the new tail. -/
theorem Represents.pushed (hc : 0 < c) (h : Represents c q n a) (ts : UInt64) {head tail : Int32}
    (htail : tail.toInt = n + a.items.length + 1)
    (hhead : head.toInt = (n + (a.items.length + 1 - c) : ℕ)) :
    Represents c { q with
      head := head
      tail := tail
      queue := Function.update q.queue (cell c (n + a.items.length)) (some ts) }
      (n + (a.items.length + 1 - c)) (a.push ts) where
  capacity := h.capacity
  head := hhead
  tail := by
    simp only [htail, Queue.push_items, List.length_drop, List.length_append,
      List.length_singleton]
    omega
  cells := by
    have hcap := h.capacity
    have hclt := q.capacity.toInt_lt
    intro i x hx
    rw [Queue.push_items, List.getElem?_drop] at hx
    have hlt := (List.getElem?_eq_some_iff.mp hx).1
    rw [List.length_append, List.length_singleton] at hlt
    rw [Nat.add_assoc]
    rcases Nat.lt_succ_iff_lt_or_eq.mp hlt with hi | hi
    · rw [List.getElem?_append_left hi] at hx
      have hlen := a.length_le
      have hne : cell c (n + (a.items.length + 1 - c + i)) ≠ cell c (n + a.items.length) :=
        cell_ne (by omega) (by omega) (by omega)
      exact (Function.update_of_ne hne _ _).trans (h.cells _ x hx)
    · rw [hi] at hx ⊢
      simpa using hx

/-- A push below the counter limit pushes to the represented queue. -/
theorem push_spec (hc : 0 < c) (h : Represents c q n a) (hlim : n + a.items.length + 1 < 2 ^ 31)
    (stage : ℤ) (ts : UInt64) :
    ∃ q' n', q.push stage ts = .ok q' ∧ Represents c q' n' (a.push ts) ∧
      n' + (a.push ts).items.length = n + a.items.length + 1 := by
  have hcap := h.capacity
  have hhead := h.head
  have htail := h.tail
  have hlen := a.length_le
  have hclt := q.capacity.toInt_lt
  obtain ⟨tail, htailok, htail'⟩ := checked_spec (n := q.tail.toInt + 1) (by omega) (by omega)
  obtain ⟨length, hlengthok, hlength⟩ :=
    checked_spec (n := tail.toInt - q.head.toInt) (by omega) (by omega)
  obtain ⟨head, hheadok, hhead'⟩ : ∃ head,
      (if length > q.capacity then checked (tail.toInt - q.capacity.toInt) else .ok q.head) =
        .ok head ∧ head.toInt = (n + (a.items.length + 1 - c) : ℕ) := by
    have hover : length > q.capacity ↔ c < a.items.length + 1 := by
      rw [gt_iff_lt, Int32.lt_iff_toInt_lt, hlength, hcap]
      omega
    by_cases ho : length > q.capacity
    · obtain ⟨head, hok, hval⟩ :=
        checked_spec (n := tail.toInt - q.capacity.toInt) (by omega) (by omega)
      have := hover.mp ho
      exact ⟨head, by rw [if_pos ho, hok], by omega⟩
    · have := mt hover.mpr ho
      exact ⟨q.head, by rw [if_neg ho], by omega⟩
  have hslot : q.slot q.tail = cell c (n + a.items.length) := slot_eq hcap (by rw [htail]; simp)
  have htail : tail.toInt = n + a.items.length + 1 := by omega
  refine ⟨_, _, ?_, h.pushed hc ts htail hhead', ?_⟩
  · rw [FifoQueue.push, if_neg (capacity_ne_zero hc h), htailok]
    simp only [bind, Except.bind, hlengthok, hheadok, hslot, if_pos (inBounds_cell hcap hc)]
  · simp only [Queue.push_items, List.length_drop, List.length_append, List.length_singleton]
    omega

theorem head_ge_tail_iff (h : Represents c q n a) : q.head ≥ q.tail ↔ a.items = [] := by
  rw [ge_iff_le, Int32.le_iff_toInt_le, h.head, h.tail, ← List.length_eq_zero_iff]
  omega

/-- A pop from an empty queue leaves the ring and the output argument alone. -/
theorem pop_spec_none (h : Represents c q n a) (hp : a.pop = none) (stage : ℤ)
    (ts : Option UInt64) : q.pop stage ts = .ok (false, ts, q) := by
  rw [FifoQueue.pop, if_pos ((head_ge_tail_iff h).mpr (Queue.pop_eq_none_iff.mp hp))]

/-- A pop returns the oldest element of the represented queue. -/
theorem pop_spec_some (hc : 0 < c) (h : Represents c q n a) {x : UInt64} {a' : Queue UInt64 c}
    (hp : a.pop = some (x, a')) (stage : ℤ) (ts : Option UInt64) :
    ∃ q', q.pop stage ts = .ok (true, some x, q') ∧ Represents c q' (n + 1) a' := by
  have hitems := Queue.items_of_pop hp
  have htail := h.tail
  have hlt := q.tail.toInt_lt
  have hne : ¬ q.head ≥ q.tail := by rw [head_ge_tail_iff h, hitems]; simp
  have hslot : q.slot q.head = cell c n := slot_eq h.capacity h.head
  have hcell : q.queue (cell c n) = some x := h.cells 0 x (by simp [hitems])
  rw [hitems, List.length_cons] at htail
  obtain ⟨head, hheadok, hhead'⟩ := checked_spec (n := q.head.toInt + 1)
    (by rw [h.head]; omega) (by rw [h.head]; omega)
  refine ⟨{ q with head := head }, ?_, h.capacity, ?_, ?_, ?_⟩
  · rw [FifoQueue.pop, if_neg hne, if_neg (capacity_ne_zero hc h), hheadok]
    simp only [bind, Except.bind, hslot, if_pos (inBounds_cell h.capacity hc), hcell]
  · rw [hhead', h.head]
    omega
  · rw [htail]
    omega
  · intro i y hy
    have := h.cells (i + 1) y (by simpa [hitems] using hy)
    rwa [← Nat.add_assoc, Nat.add_right_comm] at this

end Refinement

end LensX
