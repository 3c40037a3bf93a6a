import Mathlib.Algebra.Order.Floor.Div
import Mathlib.Data.List.Pairwise

/-! # Record layouts

Members are placed one after another, each at a multiple of its alignment. Different
members do not overlap, so a record keeps the value of every member that was stored,
and padding that is declared as a member moves no other member.
-/

namespace Layout

/-- The first multiple of an alignment from an offset on. -/
def roundUp (a n : ℕ) : ℕ := a * (n ⌈/⌉ a)

theorem le_roundUp {a : ℕ} (ha : 0 < a) (n : ℕ) : n ≤ roundUp a n := le_smul_ceilDiv ha

theorem roundUp_roundUp {a : ℕ} (ha : 0 < a) (n : ℕ) : roundUp a (roundUp a n) = roundUp a n :=
  congrArg (a * ·) (smul_ceilDiv ha (n ⌈/⌉ a))

theorem roundUp_one (n : ℕ) : roundUp 1 n = n := by
  rw [roundUp, Nat.ceilDiv_eq_add_pred_div, Nat.add_sub_cancel, Nat.div_one, Nat.one_mul]

section Placement

variable {ι : Type*} (size align : ι → ℕ)

/-- The members with their offsets, placed from an offset on. -/
def place : ℕ → List ι → List (ℕ × ι)
  | _, [] => []
  | n, m :: ms => (roundUp (align m) n, m) :: place (roundUp (align m) n + size m) ms

/-- The end of the last member. -/
def extent : ℕ → List ι → ℕ
  | n, [] => n
  | n, m :: ms => extent (roundUp (align m) n + size m) ms

/-- A record is aligned like its most aligned member. -/
def alignOf (ms : List ι) : ℕ := ms.foldr (fun m a => max (align m) a) 1

/-- The size of a record, with the padding at its end. -/
def recordSize (ms : List ι) : ℕ := roundUp (alignOf align ms) (extent size align 0 ms)

theorem place_append (n : ℕ) (ms ms' : List ι) :
    place size align n (ms ++ ms') =
      place size align n ms ++ place size align (extent size align n ms) ms' := by
  induction ms generalizing n with
  | nil => rfl
  | cons m ms ih => rw [List.cons_append, place, place, extent, ih, List.cons_append]

variable {size align} (hpos : ∀ m, 0 < align m)

include hpos

theorem extent_le_recordSize (ms : List ι) : extent size align 0 ms ≤ recordSize size align ms := by
  refine le_roundUp ?_ _
  cases ms with
  | nil => exact Nat.one_pos
  | cons m ms => exact lt_of_lt_of_le (hpos m) (le_max_left _ _)

theorem le_extent (n : ℕ) (ms : List ι) : n ≤ extent size align n ms := by
  induction ms generalizing n with
  | nil => exact le_rfl
  | cons m ms ih =>
    calc n ≤ roundUp (align m) n := le_roundUp (hpos m) n
      _ ≤ roundUp (align m) n + size m := Nat.le_add_right _ _
      _ ≤ _ := ih _

theorem le_of_mem_place {n : ℕ} {ms : List ι} {p : ℕ × ι} (hp : p ∈ place size align n ms) :
    n ≤ p.1 := by
  induction ms generalizing n with
  | nil => cases hp
  | cons m ms ih =>
    have hle := le_roundUp (hpos m) n
    rcases List.mem_cons.mp hp with rfl | hp
    · exact hle
    · exact hle.trans ((Nat.le_add_right _ _).trans (ih hp))

theorem end_le_extent {n : ℕ} {ms : List ι} {p : ℕ × ι} (hp : p ∈ place size align n ms) :
    p.1 + size p.2 ≤ extent size align n ms := by
  induction ms generalizing n with
  | nil => cases hp
  | cons m ms ih =>
    rcases List.mem_cons.mp hp with rfl | hp
    · exact le_extent hpos _ ms
    · exact ih hp

theorem end_le_recordSize {ms : List ι} {p : ℕ × ι} (hp : p ∈ place size align 0 ms) :
    p.1 + size p.2 ≤ recordSize size align ms :=
  (end_le_extent hpos hp).trans (extent_le_recordSize hpos ms)

theorem pairwise_place (n : ℕ) (ms : List ι) :
    (place size align n ms).Pairwise fun p q => p.1 + size p.2 ≤ q.1 := by
  induction ms generalizing n with
  | nil => exact .nil
  | cons m ms ih => exact .cons (fun q hq => le_of_mem_place hpos hq) (ih _)

/-- Bytes that fill the gap before a member leave it where it is. -/
theorem place_padding {n : ℕ} {p m : ι} (ms : List ι) (halign : align p = 1)
    (hsize : size p = roundUp (align m) n - n) :
    place size align n (p :: m :: ms) = (n, p) :: place size align n (m :: ms) := by
  have hgap : n + size p = roundUp (align m) n := by
    have := le_roundUp (hpos m) n
    omega
  rw [place, halign, roundUp_one, hgap, place, place, roundUp_roundUp (hpos m)]

end Placement

section Regions

variable {α : Type*}

def load (buf : List α) (o n : ℕ) : List α := (buf.drop o).take n

def store (buf : List α) (o : ℕ) (vs : List α) : List α :=
  buf.take o ++ (vs ++ buf.drop (o + vs.length))

/-- Stores one after another. -/
def storeAll (buf : List α) (l : List (ℕ × List α)) : List α :=
  l.foldl (fun buf s => store buf s.1 s.2) buf

/-- Two regions, given by offset and length, do not overlap. -/
def Apart (r s : ℕ × ℕ) : Prop := r.1 + r.2 ≤ s.1 ∨ s.1 + s.2 ≤ r.1

theorem apart_of_mem_place {ι : Type*} {size align : ι → ℕ} (hpos : ∀ m, 0 < align m) {n : ℕ}
    {ms : List ι} {p q : ℕ × ι} (hp : p ∈ place size align n ms)
    (hq : q ∈ place size align n ms) (hne : p ≠ q) : Apart (p.1, size p.2) (q.1, size q.2) := by
  let R (p q : ℕ × ι) : Prop := Apart (p.1, size p.2) (q.1, size q.2)
  have hsymm : Std.Symm R := ⟨fun _ _ => Or.symm⟩
  have hall : (place size align n ms).Pairwise R := (pairwise_place hpos n ms).imp Or.inl
  exact hall.forall hp hq hne

variable {buf vs : List α} {o n : ℕ}

theorem load_append (h : o + n ≤ buf.length) (tail : List α) :
    load (buf ++ tail) o n = load buf o n := by
  rw [load, load, List.drop_append_of_le_length (by omega), List.take_append_of_le_length]
  rw [List.length_drop]
  omega

theorem length_store (h : o + vs.length ≤ buf.length) : (store buf o vs).length = buf.length := by
  simp only [store, List.length_append, List.length_take, List.length_drop]
  omega

theorem load_store (h : o + vs.length ≤ buf.length) : load (store buf o vs) o vs.length = vs := by
  have hlen : (buf.take o).length = o := by
    rw [List.length_take]
    omega
  rw [load, store, List.drop_left' hlen, List.take_left' rfl]

theorem getElem?_store (h : o + vs.length ≤ buf.length) {i : ℕ}
    (hi : i < o ∨ o + vs.length ≤ i) : (store buf o vs)[i]? = buf[i]? := by
  have hlen : (buf.take o).length = o := by
    rw [List.length_take]
    omega
  rcases hi with hi | hi
  · rw [store, List.getElem?_append_left (by omega), List.getElem?_take_of_lt hi]
  · rw [store, List.getElem?_append_right (by omega), List.getElem?_append_right (by omega),
      List.getElem?_drop]
    congr 1
    omega

theorem load_store_of_apart (h : o + vs.length ≤ buf.length) {o' : ℕ}
    (hapart : Apart (o, vs.length) (o', n)) : load (store buf o vs) o' n = load buf o' n := by
  unfold Apart at hapart
  ext i : 1
  by_cases hi : i < n
  · rw [load, load, List.getElem?_take_of_lt hi, List.getElem?_take_of_lt hi, List.getElem?_drop,
      List.getElem?_drop, getElem?_store h (by omega)]
  · rw [load, load, List.getElem?_take_eq_none (by omega), List.getElem?_take_eq_none (by omega)]

theorem length_storeAll {l : List (ℕ × List α)}
    (hfit : ∀ s ∈ l, s.1 + s.2.length ≤ buf.length) : (storeAll buf l).length = buf.length := by
  induction l generalizing buf with
  | nil => rfl
  | cons s l ih =>
    have hlen := length_store (hfit s List.mem_cons_self)
    rw [storeAll, List.foldl_cons, ← hlen]
    exact ih fun t ht => hlen ▸ hfit t (List.mem_cons_of_mem s ht)

/-- A region that no store overlaps keeps its content. -/
theorem load_storeAll_of_apart {l : List (ℕ × List α)}
    (hfit : ∀ s ∈ l, s.1 + s.2.length ≤ buf.length)
    (hapart : ∀ s ∈ l, Apart (s.1, s.2.length) (o, n)) :
    load (storeAll buf l) o n = load buf o n := by
  induction l generalizing buf with
  | nil => rfl
  | cons s l ih =>
    have hs := hfit s List.mem_cons_self
    rw [storeAll, List.foldl_cons, ← load_store_of_apart hs (hapart s List.mem_cons_self)]
    exact ih (fun t ht => (length_store hs).symm ▸ hfit t (List.mem_cons_of_mem s ht))
      fun t ht => hapart t (List.mem_cons_of_mem s ht)

/-- Stores that do not overlap can all be read back. -/
theorem load_storeAll {l : List (ℕ × List α)}
    (hfit : ∀ s ∈ l, s.1 + s.2.length ≤ buf.length)
    (hapart : l.Pairwise fun s t => Apart (s.1, s.2.length) (t.1, t.2.length))
    {s : ℕ × List α} (hs : s ∈ l) : load (storeAll buf l) s.1 s.2.length = s.2 := by
  induction l generalizing buf with
  | nil => cases hs
  | cons t l ih =>
    obtain ⟨hhead, htail⟩ := List.pairwise_cons.mp hapart
    have ht := hfit t List.mem_cons_self
    have hfit' : ∀ s ∈ l, s.1 + s.2.length ≤ (store buf t.1 t.2).length :=
      fun s hs => (length_store ht).symm ▸ hfit s (List.mem_cons_of_mem t hs)
    rcases List.mem_cons.mp hs with rfl | hs
    · have hkeep := load_storeAll_of_apart hfit' fun u hu => (hhead u hu).symm
      exact hkeep.trans (load_store ht)
    · exact ih hfit' htail hs

end Regions

end Layout
