import LensX.Fifo.Ring

/-! # The calls of a ring buffer

Any sequence of calls of a ring returns what a list returns that drops its oldest
element beyond the capacity. The tail counter numbers the pushes, so a pop reads
the cell of a push that no later push has overwritten.
-/

namespace LensX

open BoundedQueue

/-- A call with its arguments; the output argument of a pop may be unassigned. -/
inductive FifoCall where
  | push (stage : ℤ) (ts : UInt64)
  | pop (stage : ℤ) (ts : Option UInt64)
  deriving DecidableEq, Repr

def FifoCall.pushed : FifoCall → Option UInt64
  | .push _ ts => some ts
  | .pop _ _ => none

/-- The timestamps that some calls push. -/
def pushedBy (cs : List FifoCall) : List UInt64 := cs.filterMap FifoCall.pushed

/-- The success flag of a pop and its output argument after the call. -/
abbrev PopResult := Bool × Option UInt64

/-- The ring after a call, with the result of a pop. -/
def FifoQueue.call (q : FifoQueue) : FifoCall → Except Undefined (Option PopResult × FifoQueue)
  | .push stage ts => (q.push stage ts).map fun q => (none, q)
  | .pop stage ts => (q.pop stage ts).map fun out => (some (out.1, out.2.1), out.2.2)

/-- The ring after some calls, with the results of the pops in order. -/
def FifoQueue.calls (q : FifoQueue) (cs : List FifoCall) :
    Except Undefined (List PopResult × FifoQueue) :=
  cs.foldlM (fun s c => (s.2.call c).map fun out => (s.1 ++ out.1.toList, out.2)) ([], q)

/-- The abstract queue: a push appends and then drops the oldest element if there are more than the
capacity; a pop takes the oldest one, and leaves its argument alone if there is none. -/
def listCall (c : ℕ) (l : List UInt64) : FifoCall → Option PopResult × List UInt64
  | .push _ ts => (none, if (l ++ [ts]).length > c then (l ++ [ts]).tail else l ++ [ts])
  | .pop _ ts =>
    match l with
    | [] => (some (false, ts), [])
    | x :: l => (some (true, some x), l)

def listCalls (c : ℕ) (cs : List FifoCall) : List PopResult × List UInt64 :=
  cs.foldl (fun s call => (s.1 ++ (listCall c s.2 call).1.toList, (listCall c s.2 call).2)) ([], [])

theorem FifoQueue.calls_concat (q : FifoQueue) (cs : List FifoCall) (call : FifoCall) :
    q.calls (cs ++ [call]) =
      (q.calls cs).bind fun s => (s.2.call call).map fun out => (s.1 ++ out.1.toList, out.2) := by
  rw [FifoQueue.calls, List.foldlM_append]
  simp only [List.foldlM_cons, List.foldlM_nil, bind_pure]
  rfl

theorem listCalls_concat (c : ℕ) (cs : List FifoCall) (call : FifoCall) :
    listCalls c (cs ++ [call]) =
      ((listCalls c cs).1 ++ (listCall c (listCalls c cs).2 call).1.toList,
        (listCall c (listCalls c cs).2 call).2) := by
  simp [listCalls]

theorem pushedBy_append (cs cs' : List FifoCall) :
    pushedBy (cs ++ cs') = pushedBy cs ++ pushedBy cs' := by
  simp [pushedBy]

theorem pushedBy_concat_push (cs : List FifoCall) (stage : ℤ) (ts : UInt64) :
    pushedBy (cs ++ [.push stage ts]) = pushedBy cs ++ [ts] := pushedBy_append cs _

theorem pushedBy_concat_pop (cs : List FifoCall) (stage : ℤ) (ts : Option UInt64) :
    pushedBy (cs ++ [.pop stage ts]) = pushedBy cs := by
  rw [pushedBy_append]
  exact List.append_nil _

theorem pushedBy_cons_push (cs cs' : List FifoCall) (stage : ℤ) (ts : UInt64) :
    pushedBy (cs ++ .push stage ts :: cs') = pushedBy cs ++ ts :: pushedBy cs' := by
  rw [pushedBy_append]
  rfl

/-- What a ring holds after some calls: the elements of the abstract queue, which are the last
pushes from the position of the head on. -/
structure CallsInv (c : ℕ) (cs : List FifoCall) (q : FifoQueue) (n : ℕ) (a : Queue UInt64 c) :
    Prop where
  ring : Represents c q n a
  items : a.items = (listCalls c cs).2
  pushed : a.items = (pushedBy cs).drop n
  count : n + a.items.length = (pushedBy cs).length

theorem listCall_push {c : ℕ} (a : Queue UInt64 c) (stage : ℤ) (ts : UInt64) :
    listCall c a.items (.push stage ts) = (none, (a.push ts).items) := by
  have hlen := a.length_le
  rw [listCall, Queue.push_items, List.length_append, List.length_singleton]
  split
  · next h =>
    obtain hone : a.items.length + 1 - c = 1 := by omega
    rw [hone, List.drop_one]
  · next h => rw [Nat.sub_eq_zero_of_le (Nat.le_of_not_lt h), List.drop_zero]

section Invariant

variable {c : ℕ} {cs : List FifoCall} {q : FifoQueue} {n : ℕ} {a : Queue UInt64 c} (hc : 0 < c)
  (h : CallsInv c cs q n a)
include hc h

theorem CallsInv.push (stage : ℤ) (ts : UInt64)
    (hlim : (pushedBy (cs ++ [.push stage ts])).length < 2 ^ 31) :
    ∃ q' n',
      q.call (.push stage ts) = .ok ((listCall c (listCalls c cs).2 (.push stage ts)).1, q') ∧
      CallsInv c (cs ++ [.push stage ts]) q' n' (a.push ts) := by
  have hcount := h.count
  rw [pushedBy_concat_push, List.length_append, List.length_singleton] at hlim
  obtain ⟨q', n', hok, hring, hn'⟩ := push_spec hc h.ring (by omega) stage ts
  have hcall := listCall_push a stage ts
  rw [h.items] at hcall
  refine ⟨q', n', by rw [FifoQueue.call, hok, hcall]; rfl, hring, ?_, ?_, ?_⟩
  · rw [listCalls_concat, hcall]
  · -- the head skips what the push drops
    have hdrop : n' = n + (a.items.length + 1 - c) := by
      rw [Queue.push_items, List.length_drop, List.length_append, List.length_singleton] at hn'
      omega
    rw [pushedBy_concat_push, hdrop, ← List.drop_drop,
      List.drop_append_of_le_length (by omega), ← h.pushed, Queue.push_items]
  · rw [hn', pushedBy_concat_push, List.length_append, List.length_singleton, ← hcount]

theorem CallsInv.pop (stage : ℤ) (ts : Option UInt64) :
    ∃ q' n' a', q.call (.pop stage ts) =
        .ok ((listCall c (listCalls c cs).2 (.pop stage ts)).1, q') ∧
      CallsInv c (cs ++ [.pop stage ts]) q' n' a' := by
  have hitems := h.items
  cases hp : a.pop with
  | none =>
    rw [Queue.pop_eq_none_iff.mp hp] at hitems
    refine ⟨q, n, a, ?_, h.ring, ?_, ?_, ?_⟩
    · rw [FifoQueue.call, pop_spec_none h.ring hp, ← hitems]
      rfl
    · rw [listCalls_concat, ← hitems, Queue.pop_eq_none_iff.mp hp]
      rfl
    · rw [pushedBy_concat_pop, h.pushed]
    · rw [pushedBy_concat_pop, h.count]
  | some xa =>
    obtain ⟨x, a'⟩ := xa
    have hold := Queue.items_of_pop hp
    have hcount := h.count
    obtain ⟨q', hok, hring⟩ := pop_spec_some hc h.ring hp stage ts
    rw [hold] at hitems
    refine ⟨q', n + 1, a', ?_, hring, ?_, ?_, ?_⟩
    · rw [FifoQueue.call, hok, ← hitems]
      rfl
    · rw [listCalls_concat, ← hitems]
      rfl
    · have hpushed := congrArg List.tail h.pushed
      rw [hold, List.tail_drop] at hpushed
      rw [pushedBy_concat_pop]
      exact hpushed
    · rw [hold, List.length_cons] at hcount
      rw [pushedBy_concat_pop, ← hcount]
      omega

end Invariant

/-- A new ring goes through any calls that push fewer than `2^31` times. -/
theorem exists_callsInv (id : String) {c : ℕ} {cap : Int32} (hc : 0 < c) (hcap : cap.toInt = c)
    {cs : List FifoCall} (hlim : (pushedBy cs).length < 2 ^ 31) :
    ∃ q n a, (FifoQueue.new id cap).calls cs = .ok ((listCalls c cs).1, q) ∧
      CallsInv c cs q n a := by
  induction cs using List.reverseRecOn with
  | nil => exact ⟨_, 0, .empty, rfl, .new id hcap, rfl, rfl, rfl⟩
  | append_singleton cs call ih =>
    have hlim' : (pushedBy cs).length < 2 ^ 31 := by
      rw [pushedBy_append, List.length_append] at hlim
      omega
    obtain ⟨q, n, a, hcs, h⟩ := ih hlim'
    cases call with
    | push stage ts =>
      obtain ⟨q', n', hok, h'⟩ := h.push hc stage ts hlim
      refine ⟨q', n', _, ?_, h'⟩
      rw [FifoQueue.calls_concat, hcs, listCalls_concat]
      simp only [Except.bind, hok, Except.map]
    | pop stage ts =>
      obtain ⟨q', n', a', hok, h'⟩ := h.pop hc stage ts
      refine ⟨q', n', a', ?_, h'⟩
      rw [FifoQueue.calls_concat, hcs, listCalls_concat]
      simp only [Except.bind, hok, Except.map]

/-- A push after some calls of a new ring would write the cell. -/
def PushesTo (id : String) (cap : Int32) (cs : List FifoCall) (slot : UInt32) : Prop :=
  ∃ out q, (FifoQueue.new id cap).calls cs = .ok (out, q) ∧ q.slot q.tail = slot

theorem pushesTo_cell (id : String) {c : ℕ} {cap : Int32} (hc : 0 < c) (hcap : cap.toInt = c)
    {cs : List FifoCall} (hlim : (pushedBy cs).length < 2 ^ 31) :
    PushesTo id cap cs (cell c (pushedBy cs).length) := by
  obtain ⟨q, n, a, hcs, h⟩ := exists_callsInv id hc hcap hlim
  refine ⟨_, q, hcs, slot_eq h.ring.capacity ?_⟩
  rw [h.ring.tail, ← h.count]
  simp

theorem split_pushedBy {cs : List FifoCall} {l l' : List UInt64} {x : UInt64}
    (h : pushedBy cs = l ++ x :: l') :
    ∃ pre stage post,
      cs = pre ++ .push stage x :: post ∧ pushedBy pre = l ∧ pushedBy post = l' := by
  obtain ⟨e₁, e₂, rfl, hl, hr⟩ := List.filterMap_eq_append_iff.mp h
  obtain ⟨f₁, call, f₂, rfl, hf, hcall, hr'⟩ := List.filterMap_eq_cons_iff.mp hr
  cases call with
  | pop stage ts => exact absurd hcall (by simp [FifoCall.pushed])
  | push stage ts =>
    obtain rfl := Option.some.inj hcall
    refine ⟨e₁ ++ f₁, stage, f₂, by simp, ?_, hr'⟩
    rw [pushedBy_append, pushedBy, hl, pushedBy, List.filterMap_eq_nil_iff.mpr hf, List.append_nil]

/-- The cell that a pop reads was written by a push, and by no push after that one. -/
theorem exists_push_of_pop (id : String) {c : ℕ} {cap : Int32} (hc : 0 < c) (hcap : cap.toInt = c)
    {pre : List FifoCall} (hlim : (pushedBy pre).length < 2 ^ 31) {stage : ℤ} {ts x : Option UInt64}
    {out : List PopResult} {q q' : FifoQueue}
    (hcalls : (FifoQueue.new id cap).calls pre = .ok (out, q))
    (hpop : q.pop stage ts = .ok (true, x, q')) :
    ∃ pre₁ stage' v pre₂, pre = pre₁ ++ .push stage' v :: pre₂ ∧ x = some v ∧
      PushesTo id cap pre₁ (q.slot q.head) ∧
      ∀ l stage'' y l', pre₂ = l ++ .push stage'' y :: l' →
        ∃ slot, PushesTo id cap (pre₁ ++ .push stage' v :: l) slot ∧ slot ≠ q.slot q.head := by
  obtain ⟨_, n, a, hok, h⟩ := exists_callsInv id hc hcap hlim
  obtain ⟨_, rfl⟩ := Prod.mk.inj (Except.ok.inj (hcalls.symm.trans hok))
  have hslot : q.slot q.head = cell c n := slot_eq h.ring.capacity h.ring.head
  have hcap' := cap.toInt_lt
  have hlen := a.length_le
  cases hp : a.pop with
  | none =>
    rw [pop_spec_none h.ring hp] at hpop
    exact absurd (Prod.mk.inj (Except.ok.inj hpop)).1 (by simp)
  | some va =>
    obtain ⟨v, a'⟩ := va
    obtain ⟨_, hok, _⟩ := pop_spec_some hc h.ring hp stage ts
    obtain ⟨_, hx⟩ := Prod.mk.inj (Except.ok.inj (hpop.symm.trans hok))
    obtain ⟨rfl, _⟩ := Prod.mk.inj hx
    have hcount := h.count
    have hpushed := h.pushed
    rw [Queue.items_of_pop hp] at hpushed hcount hlen
    rw [List.length_cons] at hcount hlen
    have hsplit := (List.take_append_drop n (pushedBy pre)).symm
    rw [← hpushed] at hsplit
    obtain ⟨pre₁, stage', pre₂, rfl, hpre₁, hpre₂⟩ := split_pushedBy hsplit
    have hn : (pushedBy pre₁).length = n := by
      rw [hpre₁, List.length_take]
      omega
    refine ⟨pre₁, stage', v, pre₂, rfl, rfl, ?_, ?_⟩
    · rw [hslot, ← hn]
      exact pushesTo_cell id hc hcap (by omega)
    · rintro l stage'' y l' rfl
      -- a later push is number `n + 1` up to `n + c - 1`, so its cell is another one
      have hbetween : (pushedBy (pre₁ ++ .push stage' v :: l)).length =
          n + 1 + (pushedBy l).length := by
        rw [pushedBy_cons_push, List.length_append, List.length_cons, hn]
        omega
      have hrest := congrArg List.length hpre₂
      rw [pushedBy_cons_push, List.length_append, List.length_cons] at hrest
      refine ⟨_, pushesTo_cell id hc hcap (by omega), ?_⟩
      rw [hslot, hbetween]
      exact (cell_ne (by omega) (by omega) (by omega)).symm

/-- The pops return what the abstract queue returns, and each reads the cell of a push that no later
push has overwritten. -/
theorem fifoQueue_refines (id : String) {c : ℕ} {cap : Int32} (hc : 1 ≤ c) (hcap : cap.toInt = c)
    (cs : List FifoCall) (hlim : (pushedBy cs).length < 2 ^ 31) :
    (∃ q, (FifoQueue.new id cap).calls cs = .ok ((listCalls c cs).1, q)) ∧
      ∀ pre stage ts post, cs = pre ++ .pop stage ts :: post → ∀ out q x q',
        (FifoQueue.new id cap).calls pre = .ok (out, q) →
        q.pop stage ts = .ok (true, x, q') →
        ∃ pre₁ stage' v pre₂, pre = pre₁ ++ .push stage' v :: pre₂ ∧ x = some v ∧
          PushesTo id cap pre₁ (q.slot q.head) ∧
          ∀ l stage'' y l', pre₂ = l ++ .push stage'' y :: l' →
            ∃ slot, PushesTo id cap (pre₁ ++ .push stage' v :: l) slot ∧ slot ≠ q.slot q.head := by
  constructor
  · obtain ⟨q, _, _, hok, _⟩ := exists_callsInv id hc hcap hlim
    exact ⟨q, hok⟩
  · rintro pre stage ts post rfl out q x q' hcalls hpop
    rw [pushedBy_append, List.length_append] at hlim
    exact exists_push_of_pop id hc hcap (by omega) hcalls hpop

/-- An overflow and a pop from an empty ring. -/
theorem fifoQueue_refines_overflow :
    ∃ q, (FifoQueue.new "ring" 2).calls [.push 0 10, .push 0 11, .push 0 12, .pop 1 none,
      .pop 1 none, .pop 1 (some 7)] =
      .ok ([(true, some 11), (true, some 12), (false, some 7)], q) :=
  (fifoQueue_refines "ring" (c := 2) (by decide) (by decide) [.push 0 10, .push 0 11, .push 0 12,
    .pop 1 none, .pop 1 none, .pop 1 (some 7)] (by decide)).1

end LensX
