import LensX.General.Transducer

/-! # Bounded queues that drop their oldest element

A push to a full queue drops the oldest element, a pop from an empty queue does
nothing. As long as the pops neither overtake the pushes nor fall behind by
more than the capacity, the `n`-th pop returns the `n`-th push.
-/

namespace BoundedQueue

open Transducer

variable {α β : Type*} {c : ℕ}

/-- The elements of a queue, the oldest one first. -/
structure Queue (α : Type*) (c : ℕ) where
  items : List α
  length_le : items.length ≤ c

namespace Queue

def empty : Queue α c := ⟨[], Nat.zero_le c⟩

def push (q : Queue α c) (x : α) : Queue α c where
  items := (q.items ++ [x]).drop (q.items.length + 1 - c)
  length_le := by simp; omega

def pop (q : Queue α c) : Option (α × Queue α c) :=
  match q with
  | ⟨[], _⟩ => none
  | ⟨x :: l, h⟩ => some (x, ⟨l, Nat.le_of_succ_le h⟩)

@[simp] theorem empty_items : (empty : Queue α c).items = [] := rfl

theorem push_items (q : Queue α c) (x : α) :
    (q.push x).items = (q.items ++ [x]).drop (q.items.length + 1 - c) := rfl

theorem push_items_of_lt {q : Queue α c} (x : α) (h : q.items.length < c) :
    (q.push x).items = q.items ++ [x] := by
  rw [push_items, Nat.sub_eq_zero_of_le h, List.drop_zero]

theorem mem_push_items {q : Queue α c} {x y : α} (h : y ∈ (q.push x).items) :
    y ∈ q.items ∨ y = x := by
  simpa using List.mem_of_mem_drop h

theorem pop_eq_none_iff {q : Queue α c} : q.pop = none ↔ q.items = [] := by
  rcases q with ⟨_ | ⟨x, l⟩, h⟩ <;> simp [pop]

theorem items_of_pop {q q' : Queue α c} {x : α} (h : q.pop = some (x, q')) :
    q.items = x :: q'.items := by
  rcases q with ⟨_ | ⟨y, l⟩, hl⟩
  · simp [pop] at h
  · obtain ⟨rfl, rfl⟩ := Prod.mk.inj (Option.some.inj h)
    rfl

theorem pop_of_items {q : Queue α c} {x : α} {l : List α} (h : q.items = x :: l) :
    ∃ q', q.pop = some (x, q') := by
  rcases q with ⟨_ | ⟨y, l'⟩, hl⟩
  · exact absurd h (by simp)
  · obtain ⟨rfl, _⟩ := List.cons.inj h
    exact ⟨_, rfl⟩

end Queue

/-- An operation; a pop carries what is paired with the popped element. -/
inductive Op (α β : Type*) where
  | push (x : α)
  | pop (y : β)

/-- A pop emits the pair of the popped element and its own argument. -/
def step : Step (Queue α c) (Op α β) (α × β) := fun q op =>
  match op with
  | .push x => (q.push x, none)
  | .pop y =>
    match q.pop with
    | none => (q, none)
    | some (x, q') => (q', some (x, y))

/-- The queue after some operations on an empty one. -/
def contents (c : ℕ) (ops : List (Op α β)) : Queue α c := run step .empty ops

/-- The pairs emitted from an empty queue. -/
def paired (c : ℕ) (ops : List (Op α β)) : List (α × β) :=
  (emits step (Queue.empty : Queue α c) ops).map (·.2)

def Op.pushed : Op α β → Option α
  | .push x => some x
  | .pop _ => none

def Op.popped : Op α β → Option β
  | .push _ => none
  | .pop y => some y

def pushes (ops : List (Op α β)) : List α := ops.filterMap Op.pushed

def pops (ops : List (Op α β)) : List β := ops.filterMap Op.popped

/-- After every prefix the pops are at most the pushes and at most the capacity behind. -/
def Balanced (c : ℕ) (ops : List (Op α β)) : Prop :=
  ∀ pre, pre <+: ops → (pops pre).length ≤ (pushes pre).length ∧
    (pushes pre).length ≤ (pops pre).length + c

variable {ops : List (Op α β)}

theorem Balanced.of_prefix {pre : List (Op α β)} (h : Balanced c ops) (hp : pre <+: ops) :
    Balanced c pre := fun p hpp => h p (hpp.trans hp)

theorem Balanced.concat {op : Op α β} (h : Balanced c ops)
    (hcount : (pops (ops ++ [op])).length ≤ (pushes (ops ++ [op])).length ∧
      (pushes (ops ++ [op])).length ≤ (pops (ops ++ [op])).length + c) :
    Balanced c (ops ++ [op]) := by
  intro pre hp
  rcases List.prefix_concat_iff.mp hp with rfl | hp
  · exact hcount
  · exact h pre hp

@[simp] theorem pushes_nil : pushes ([] : List (Op α β)) = [] := rfl

@[simp] theorem pops_nil : pops ([] : List (Op α β)) = [] := rfl

@[simp] theorem pushes_push (x : α) : pushes [(.push x : Op α β)] = [x] := rfl

@[simp] theorem pushes_pop (y : β) : pushes [(.pop y : Op α β)] = [] := rfl

@[simp] theorem pops_push (x : α) : pops [(.push x : Op α β)] = [] := rfl

@[simp] theorem pops_pop (y : β) : pops [(.pop y : Op α β)] = [y] := rfl

@[simp] theorem pushes_append (ops ops' : List (Op α β)) :
    pushes (ops ++ ops') = pushes ops ++ pushes ops' := by simp [pushes]

theorem pushes_flatMap {γ : Type*} (l : List γ) (f : γ → List (Op α β)) :
    pushes (l.flatMap f) = l.flatMap fun x => pushes (f x) := by
  simp only [pushes, List.filterMap_flatMap]

@[simp] theorem pops_append (ops ops' : List (Op α β)) :
    pops (ops ++ ops') = pops ops ++ pops ops' := by simp [pops]

theorem pushes_concat_push (ops : List (Op α β)) (x : α) :
    pushes (ops ++ [.push x]) = pushes ops ++ [x] := by simp

theorem pushes_concat_pop (ops : List (Op α β)) (y : β) :
    pushes (ops ++ [.pop y]) = pushes ops := by simp

theorem pops_concat_push (ops : List (Op α β)) (x : α) :
    pops (ops ++ [.push x]) = pops ops := by simp

theorem pops_concat_pop (ops : List (Op α β)) (y : β) :
    pops (ops ++ [.pop y]) = pops ops ++ [y] := by simp

section Concat

@[simp] theorem contents_nil : contents c ([] : List (Op α β)) = .empty := rfl

@[simp] theorem paired_nil : paired c ([] : List (Op α β)) = [] := rfl

@[simp] theorem contents_concat_push (ops : List (Op α β)) (x : α) :
    contents c (ops ++ [.push x]) = (contents c ops).push x := by simp [contents, step]

@[simp] theorem paired_concat_push (ops : List (Op α β)) (x : α) :
    paired c (ops ++ [.push x]) = paired c ops := by simp [paired, emits_concat, step]

theorem concat_pop_none {y : β} (h : (contents c ops).pop = none) :
    contents c (ops ++ [.pop y]) = contents c ops ∧
      paired c (ops ++ [.pop y]) = paired c ops := by
  unfold contents at h ⊢
  simp [paired, emits_concat, step, h]

theorem concat_pop_some {x : α} {y : β} {q : Queue α c} (h : (contents c ops).pop = some (x, q)) :
    contents c (ops ++ [.pop y]) = q ∧ paired c (ops ++ [.pop y]) = paired c ops ++ [(x, y)] := by
  unfold contents at h ⊢
  simp [paired, emits_concat, step, h]

end Concat

section Map

variable {α' β' : Type*} (f : α → α') (g : β → β')

/-- An operation with other contents. -/
def Op.map : Op α β → Op α' β'
  | .push x => .push (f x)
  | .pop y => .pop (g y)

/-- A queue does not look at its contents. -/
theorem contents_map (c : ℕ) (ops : List (Op α β)) :
    (contents c (ops.map (Op.map f g))).items = (contents c ops).items.map f ∧
      paired c (ops.map (Op.map f g)) = (paired c ops).map (Prod.map f g) := by
  induction ops using List.reverseRecOn with
  | nil => exact ⟨rfl, rfl⟩
  | append_singleton ops op ih =>
    obtain ⟨hitems, hpairs⟩ := ih
    rw [List.map_append, List.map_singleton]
    cases op with
    | push x =>
      rw [Op.map, contents_concat_push, contents_concat_push, paired_concat_push,
        paired_concat_push, Queue.push_items, Queue.push_items, hitems, hpairs]
      simp
    | pop y =>
      rw [Op.map]
      cases hp : (contents c ops).pop with
      | none =>
        have hp' : (contents c (ops.map (Op.map f g))).pop = none := by
          rw [Queue.pop_eq_none_iff] at hp ⊢
          rw [hitems, hp, List.map_nil]
        obtain ⟨hq, hout⟩ := concat_pop_none (y := y) hp
        obtain ⟨hq', hout'⟩ := concat_pop_none (y := g y) hp'
        rw [hq, hout, hq', hout']
        exact ⟨hitems, hpairs⟩
      | some xq =>
        obtain ⟨x, q⟩ := xq
        have hold := Queue.items_of_pop hp
        obtain ⟨q', hp'⟩ : ∃ q', (contents c (ops.map (Op.map f g))).pop = some (f x, q') :=
          Queue.pop_of_items (by rw [hitems, hold, List.map_cons])
        have hold' := Queue.items_of_pop hp'
        obtain ⟨hq, hout⟩ := concat_pop_some (y := y) hp
        obtain ⟨hq', hout'⟩ := concat_pop_some (y := g y) hp'
        rw [hq, hout, hq', hout', hpairs]
        rw [hitems, hold, List.map_cons] at hold'
        exact ⟨(List.cons.inj hold').2.symm, by simp⟩

end Map

/-- A queue holds pushed elements, and a pair joins a pushed and a popped one. -/
theorem mem_of_contents (c : ℕ) (ops : List (Op α β)) :
    (∀ x ∈ (contents c ops).items, x ∈ pushes ops) ∧
      ∀ p ∈ paired c ops, p.1 ∈ pushes ops ∧ p.2 ∈ pops ops := by
  induction ops using List.reverseRecOn with
  | nil => simp
  | append_singleton ops op ih =>
    obtain ⟨hitems, hpairs⟩ := ih
    cases op with
    | push x =>
      simp only [contents_concat_push, pushes_concat_push, pops_concat_push, paired_concat_push]
      refine ⟨fun y hy => ?_, fun p hp => (hpairs p hp).imp_left (List.mem_append_left _)⟩
      rcases Queue.mem_push_items hy with hy | rfl
      · exact List.mem_append_left _ (hitems y hy)
      · simp
    | pop y =>
      rw [pushes_concat_pop, pops_concat_pop]
      cases hp : (contents c ops).pop with
      | none =>
        obtain ⟨hq, hout⟩ := concat_pop_none (y := y) hp
        rw [hq, hout]
        exact ⟨hitems, fun p hp => (hpairs p hp).imp_right (List.mem_append_left _)⟩
      | some xq =>
        obtain ⟨x, q⟩ := xq
        have hold := Queue.items_of_pop hp
        obtain ⟨rfl, hout⟩ := concat_pop_some (y := y) hp
        rw [hout]
        refine ⟨fun z hz => hitems z (by simp [hold, hz]), fun p hp => ?_⟩
        rcases List.mem_append.mp hp with hp | hp
        · exact (hpairs p hp).imp_right (List.mem_append_left _)
        · obtain rfl := List.mem_singleton.mp hp
          exact ⟨hitems x (by simp [hold]), by simp⟩

/-- The queue holds the pushes that were not popped yet, and the pairs join the pushes and the pops
in order. -/
def JoinsInOrder (c : ℕ) (ops : List (Op α β)) : Prop :=
  (contents c ops).items = (pushes ops).drop (pops ops).length ∧
    paired c ops = ((pushes ops).take (pops ops).length).zip (pops ops)

theorem JoinsInOrder.concat_push (h : JoinsInOrder c ops)
    (hle : (pops ops).length ≤ (pushes ops).length)
    (hcap : (pushes ops).length < (pops ops).length + c) (x : α) :
    JoinsInOrder c (ops ++ [.push x]) := by
  obtain ⟨hitems, hout⟩ := h
  have hlen := congrArg List.length hitems
  rw [List.length_drop] at hlen
  have hlt : (contents c ops).items.length < c := by omega
  rw [JoinsInOrder, pushes_concat_push, pops_concat_push, contents_concat_push, paired_concat_push,
    hout, Queue.push_items_of_lt x hlt, hitems, List.drop_append_of_le_length hle,
    List.take_append_of_le_length hle]
  exact ⟨rfl, rfl⟩

theorem JoinsInOrder.concat_pop (h : JoinsInOrder c ops)
    (hlt : (pops ops).length < (pushes ops).length) (y : β) :
    JoinsInOrder c (ops ++ [.pop y]) := by
  obtain ⟨hitems, hout⟩ := h
  cases hp : (contents c ops).pop with
  | none =>
    rw [Queue.pop_eq_none_iff, hitems, List.drop_eq_nil_iff] at hp
    omega
  | some xq =>
    obtain ⟨x, q⟩ := xq
    have hold := Queue.items_of_pop hp
    rw [hitems, List.drop_eq_getElem_cons hlt] at hold
    obtain ⟨rfl, hq⟩ := List.cons.inj hold
    obtain ⟨rfl, hout'⟩ := concat_pop_some (y := y) hp
    rw [JoinsInOrder, pushes_concat_pop, pops_concat_pop, List.length_append, List.length_singleton]
    refine ⟨hq.symm, ?_⟩
    rw [hout', hout, List.take_add_one, List.getElem?_eq_getElem hlt,
      List.zip_append (by simp; omega)]
    simp

theorem joinsInOrder_of_balanced (h : Balanced c ops) : JoinsInOrder c ops := by
  induction ops using List.reverseRecOn with
  | nil => exact ⟨rfl, rfl⟩
  | append_singleton ops op ih =>
    have hops := ih (h.of_prefix (List.prefix_append _ _))
    obtain ⟨hle, _⟩ := h ops (List.prefix_append _ _)
    obtain ⟨hle', hcap⟩ := h _ List.prefix_rfl
    cases op with
    | push x =>
      rw [pushes_concat_push, pops_concat_push, List.length_append, List.length_singleton] at hcap
      exact hops.concat_push hle (by omega) x
    | pop y =>
      rw [pushes_concat_pop, pops_concat_pop, List.length_append, List.length_singleton] at hle'
      exact hops.concat_pop hle' y

/-- The `n`-th pair joins the `n`-th push and the `n`-th pop. -/
theorem getElem?_paired (h : Balanced c ops) (n : ℕ) (x : α) (y : β) :
    (paired c ops)[n]? = some (x, y) ↔
      (pushes ops)[n]? = some x ∧ (pops ops)[n]? = some y := by
  rw [(joinsInOrder_of_balanced h).2, List.getElem?_zip_eq_some]
  refine and_congr_left fun hy => ?_
  rw [List.getElem?_take_of_lt (List.getElem?_eq_some_iff.mp hy).1]

theorem length_paired (h : Balanced c ops) : (paired c ops).length = (pops ops).length := by
  rw [(joinsInOrder_of_balanced h).2, List.length_zip, List.length_take]
  have := (h ops List.prefix_rfl).1
  omega

end BoundedQueue
