import Mathlib.Data.Nat.ModEq
import Mathlib.Logic.Function.Basic

/-! # Circular memory

Cells are addressed by positions that grow without bound and are reduced modulo the
size of the memory. Within a window that is not longer than the memory, positions
are as good as addresses.
-/

namespace Circular

variable {α : Type*}

/-- The cells from a position on. -/
def load (size : ℕ) (mem : ℕ → α) (p n : ℕ) : List α :=
  (List.range n).map fun i => mem ((p + i) % size)

/-- Write a list from a position on. -/
def store (size : ℕ) (mem : ℕ → α) (p : ℕ) : List α → ℕ → α
  | [] => mem
  | v :: vs => store size (Function.update mem (p % size) v) (p + 1) vs

theorem mod_ne_of_lt {size p q : ℕ} (h : p < q) (hw : q < p + size) : p % size ≠ q % size := by
  intro he
  have hdvd : size ∣ q - p := (Nat.modEq_iff_dvd' h.le).mp he
  have hle := Nat.le_of_dvd (Nat.sub_pos_of_lt h) hdvd
  omega

section Load

variable {size : ℕ} {mem mem' : ℕ → α} {p n : ℕ}

@[simp] theorem length_load : (load size mem p n).length = n := by simp [load]

/-- Positions may be reduced before. -/
theorem load_mod_add (mem : ℕ → α) (p d n : ℕ) :
    load size mem (p % size + d) n = load size mem (p + d) n := by
  simp [load, Nat.add_assoc]

theorem load_congr (h : ∀ i < n, mem ((p + i) % size) = mem' ((p + i) % size)) :
    load size mem p n = load size mem' p n :=
  List.map_congr_left fun i hi => h i (List.mem_range.mp hi)

end Load

section Store

variable {size : ℕ} {mem : ℕ → α} {p : ℕ} {vs : List α}

theorem store_apply_of_ne {j : ℕ} (h : ∀ i < vs.length, (p + i) % size ≠ j) :
    store size mem p vs j = mem j := by
  induction vs generalizing mem p with
  | nil => rfl
  | cons v vs ih =>
    have hhead : j ≠ p % size := Ne.symm (h 0 (Nat.zero_lt_succ _))
    rw [store, ih, Function.update_of_ne hhead]
    intro i hi
    rw [Nat.add_assoc, Nat.add_comm 1]
    exact h (i + 1) (Nat.succ_lt_succ hi)

theorem store_apply (hsize : vs.length ≤ size) {i : ℕ} (hi : i < vs.length) :
    store size mem p vs ((p + i) % size) = vs[i] := by
  induction vs generalizing mem p i with
  | nil => exact absurd hi (Nat.not_lt_zero i)
  | cons v vs ih =>
    rw [List.length_cons] at hsize hi
    cases i with
    | zero =>
      -- the later cells do not come back to the first one
      rw [store, store_apply_of_ne, Nat.add_zero, Function.update_self, List.getElem_cons_zero]
      intro k hk
      exact (mod_ne_of_lt (by omega) (by omega)).symm
    | succ i =>
      rw [List.getElem_cons_succ, ← ih (by omega) (Nat.lt_of_succ_lt_succ hi), store,
        Nat.add_assoc p 1, Nat.add_comm 1]

/-- What was written is read back. -/
theorem load_store (mem : ℕ → α) (p : ℕ) (hsize : vs.length ≤ size) :
    load size (store size mem p vs) p vs.length = vs := by
  refine List.ext_getElem length_load fun i hi hi' => ?_
  simp only [load, List.getElem_map, List.getElem_range]
  exact store_apply hsize hi'

theorem load_store_append (mem : ℕ → α) (p : ℕ) {ws : List α} (hsize : (vs ++ ws).length ≤ size) :
    load size (store size mem p (vs ++ ws)) p vs.length = vs := by
  have htake : load size (store size mem p (vs ++ ws)) p vs.length =
      (load size (store size mem p (vs ++ ws)) p (vs ++ ws).length).take vs.length := by
    simp [load, ← List.map_take, List.take_range]
  rw [htake, load_store mem p hsize, List.take_left]

/-- Regions of one window that do not overlap do not interfere. -/
theorem load_store_of_apart {a q n : ℕ} (hp : a ≤ p) (hp' : p + vs.length ≤ a + size)
    (hq : a ≤ q) (hq' : q + n ≤ a + size) (h : p + vs.length ≤ q ∨ q + n ≤ p) :
    load size (store size mem p vs) q n = load size mem q n := by
  refine load_congr fun i hi => store_apply_of_ne fun k hk => ?_
  rcases h with h | h
  · exact mod_ne_of_lt (by omega) (by omega)
  · exact (mod_ne_of_lt (by omega) (by omega)).symm

end Store

end Circular
