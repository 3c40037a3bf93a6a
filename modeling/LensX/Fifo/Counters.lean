import LensX.Fifo.Calls

/-! # The counters of a ring buffer

The tail counter of a ring numbers the pushes and is never reduced. The run is
defined exactly as long as the counter fits, and then every cell lies in the ring.
-/

namespace LensX

open BoundedQueue

/-- The cell that a call reads or writes, if it does. -/
def FifoQueue.access (q : FifoQueue) : FifoCall → Option UInt32
  | .push _ _ => some (q.slot q.tail)
  | .pop _ _ => if q.head ≥ q.tail then none else some (q.slot q.head)

/-- No call is undefined and every cell that is read or written lies in the ring. -/
structure CountersSafe (id : String) (cap : Int32) (cs : List FifoCall) : Prop where
  defined : ∃ out q, (FifoQueue.new id cap).calls cs = .ok (out, q)
  inBounds : ∀ pre call post, cs = pre ++ call :: post → ∀ out q,
    (FifoQueue.new id cap).calls pre = .ok (out, q) →
      ∀ slot ∈ q.access call, 0 ≤ (slot.toNat : ℤ) ∧ (slot.toNat : ℤ) ≤ cap.toInt - 1

theorem FifoQueue.calls_append_of_error {q : FifoQueue} {cs : List FifoCall} {u : Undefined}
    (h : q.calls cs = .error u) (cs' : List FifoCall) : q.calls (cs ++ cs') = .error u := by
  induction cs' using List.reverseRecOn with
  | nil => rw [List.append_nil, h]
  | append_singleton cs' call ih =>
    rw [← List.append_assoc, FifoQueue.calls_concat, ih]
    rfl

theorem checked_eq_error {n : ℤ} (h : 2147483648 ≤ n) : checked n = .error .overflow := by
  rw [checked, dif_neg]
  rintro ⟨-, hle⟩
  have hmax : n ≤ 2147483647 := hle
  omega

section Run

variable {id : String} {c : ℕ} {cap : Int32} (hc : 0 < c) (hcap : cap.toInt = c)
include hc hcap

/-- The `2^31`-st push increments a counter that is already the largest integer. -/
theorem calls_push_eq_error {pre : List FifoCall} (hlen : (pushedBy pre).length = 2 ^ 31 - 1)
    (stage : ℤ) (ts : UInt64) :
    (FifoQueue.new id cap).calls (pre ++ [.push stage ts]) = .error .overflow := by
  have hlim : (pushedBy pre).length < 2 ^ 31 := by omega
  obtain ⟨q, n, a, hok, h⟩ := exists_callsInv id hc hcap hlim
  have hcount := h.count
  have htail : q.tail.toInt + 1 = 2147483648 := by
    rw [h.ring.tail]
    omega
  rw [FifoQueue.calls_concat, hok]
  simp only [Except.bind, FifoQueue.call, FifoQueue.push,
    if_neg (capacity_ne_zero hc h.ring), checked_eq_error htail.ge, bind, Except.map]

theorem calls_eq_error {cs : List FifoCall} (hlen : 2 ^ 31 ≤ (pushedBy cs).length) :
    (FifoQueue.new id cap).calls cs = .error .overflow := by
  obtain ⟨l, x, l', hsplit, hl⟩ :
      ∃ l x l', pushedBy cs = l ++ x :: l' ∧ l.length = 2 ^ 31 - 1 := by
    have hlt : 2 ^ 31 - 1 < (pushedBy cs).length := by omega
    refine ⟨(pushedBy cs).take (2 ^ 31 - 1), (pushedBy cs)[2 ^ 31 - 1],
      (pushedBy cs).drop (2 ^ 31 - 1 + 1), ?_, List.length_take_of_le hlt.le⟩
    rw [← List.drop_eq_getElem_cons hlt, List.take_append_drop]
  obtain ⟨pre, stage, post, rfl, rfl, -⟩ := split_pushedBy hsplit
  have herr : (FifoQueue.new id cap).calls (pre ++ [.push stage x]) = .error .overflow :=
    calls_push_eq_error hc hcap hl stage x
  have hrest := FifoQueue.calls_append_of_error herr post
  rwa [List.append_assoc] at hrest

theorem access_inBounds {pre : List FifoCall} (hlim : (pushedBy pre).length < 2 ^ 31)
    {out : List PopResult} {q : FifoQueue} (hok : (FifoQueue.new id cap).calls pre = .ok (out, q))
    {call : FifoCall} {slot : UInt32} (hslot : slot ∈ q.access call) :
    (slot.toNat : ℤ) < cap.toInt := by
  obtain ⟨_, n, a, hok', h⟩ := exists_callsInv id hc hcap hlim
  obtain ⟨_, rfl⟩ := Prod.mk.inj (Except.ok.inj (hok.symm.trans hok'))
  have hcell : ∃ i, slot = cell c i := by
    cases call with
    | push stage ts =>
      obtain rfl := Option.mem_some.mp hslot
      exact ⟨_, slot_eq h.ring.capacity (n := n + a.items.length) (by rw [h.ring.tail]; simp)⟩
    | pop stage ts =>
      rw [FifoQueue.access, Option.mem_def, Option.ite_none_left_eq_some] at hslot
      exact ⟨n, by rw [← Option.some.inj hslot.2, slot_eq h.ring.capacity h.ring.head]⟩
  obtain ⟨i, rfl⟩ := hcell
  have := inBounds_cell (n := i) h.ring.capacity hc
  rw [FifoQueue.InBounds, h.ring.capacity] at this
  rwa [hcap]

end Run

/-- A ring works as long as it is pushed to fewer than `2^31` times. -/
theorem countersSafe_iff (id : String) {c : ℕ} {cap : Int32} (hc : 1 ≤ c) (hcap : cap.toInt = c)
    (cs : List FifoCall) : CountersSafe id cap cs ↔ (pushedBy cs).length < 2 ^ 31 := by
  constructor
  · intro h
    by_contra hge
    obtain ⟨out, q, hok⟩ := h.defined
    rw [calls_eq_error hc hcap (Nat.le_of_not_lt hge)] at hok
    cases hok
  · intro hlim
    obtain ⟨q, n, a, hok, -⟩ := exists_callsInv id hc hcap hlim
    refine ⟨⟨_, q, hok⟩, ?_⟩
    rintro pre call post rfl out q hpre slot hslot
    rw [pushedBy_append, List.length_append] at hlim
    have hlt := access_inBounds hc hcap (by omega) hpre hslot
    exact ⟨Int.natCast_nonneg _, by omega⟩

/-- Two pushes into a ring with one cell and a pop. -/
theorem countersSafe_iff_one_cell :
    CountersSafe "ring" 1 [.push 0 10, .push 0 11, .pop 1 none] :=
  (countersSafe_iff "ring" (c := 1) (by decide) (by decide) _).mpr (by decide)

/-- The default capacity of the reports' rings and one push too many. -/
theorem not_countersSafe :
    ¬ CountersSafe "ring" 4096 (List.replicate (2 ^ 31) (.push 0 0)) ∧
      (FifoQueue.new "ring" 4096).calls (List.replicate (2 ^ 31) (.push 0 0)) =
        .error .overflow := by
  have herr : (FifoQueue.new "ring" 4096).calls (List.replicate (2 ^ 31) (.push 0 0)) =
      .error .overflow := by
    apply calls_eq_error (c := 4096) (by decide) (by decide)
    have hpushed : FifoCall.pushed (.push 0 0) = some 0 := rfl
    rw [pushedBy, List.filterMap_replicate_of_some hpushed, List.length_replicate]
  refine ⟨?_, herr⟩
  rintro ⟨⟨out, q, hok⟩, -⟩
  rw [herr] at hok
  cases hok

end LensX
