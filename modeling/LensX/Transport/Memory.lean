import LensX.Transport.Words

/-! # The memory of the ring

Records lie behind one another from the first position on. From the position of the
consumer on, each of them is intact: the header word tells its length and its status,
and what was written into it is still there.
-/

namespace LensX

open Circular CommitLog

section Positions

variable {α : Type*} {bytes : α → List UInt8} {l l' : List (Entry α)} {i j : ℕ} {e : Entry α}

theorem position_eq_values (l : List (Entry α)) (i : ℕ) :
    position bytes l i = (((l.map Entry.value).take i).map (space bytes)).sum := by
  rw [position, ← List.map_take, List.map_map]
  rfl

/-- The status of a record does not matter. -/
theorem position_congr (h : l.map Entry.value = l'.map Entry.value) (i : ℕ) :
    position bytes l i = position bytes l' i := by
  rw [position_eq_values, position_eq_values, h]

theorem position_append_of_le (h : i ≤ l.length) :
    position bytes (l ++ l') i = position bytes l i := by
  rw [position, List.take_append_of_le_length h, position]

theorem position_succ (h : l[i]? = some e) :
    position bytes l (i + 1) = position bytes l i + space bytes e.value := by
  obtain ⟨hi, rfl⟩ := List.getElem?_eq_some_iff.mp h
  rw [position, List.take_succ_eq_append_getElem hi, List.map_append, List.sum_append]
  simp [position]

theorem position_mono (bytes : α → List UInt8) (l : List (Entry α)) (h : i ≤ j) :
    position bytes l i ≤ position bytes l j := by
  rw [position, position, ← Nat.add_sub_cancel' h, List.take_add, List.map_append, List.sum_append]
  exact Nat.le_add_right _ _

theorem position_le_length (l : List (Entry α)) (i : ℕ) :
    position bytes l i ≤ position bytes l l.length := by
  rcases Nat.le_total i l.length with h | h
  · exact position_mono _ _ h
  · rw [position, List.take_of_length_le h, position, List.take_length]

end Positions

section Records

variable {α σ : Type*} (bytes : α → List UInt8)

/-- The record at a position is intact. -/
structure Ring.Holds (r : Ring) (p : ℕ) (e : Entry α) : Prop where
  word : r.bytes p 4 = littleEndian 4 (lenWord bytes e.value e.status).toNat
  sample (h : e.status = .written ∨ e.status = .submitted) :
    r.bytes (p + hdrSz.toNat) (bytes e.value).length = bytes e.value

/-- The first records are released; the others are intact and fit into the ring. -/
structure Backed (allowed : α → Prop) (s : RingState α σ) (released : ℕ) : Prop where
  size : ∃ k, s.ring.size = 2 ^ k
  producerPos : s.ring.producerPos.toNat = position bytes s.records s.records.length
  consumerPos : s.ring.consumerPos.toNat = position bytes s.records released
  le : released ≤ s.records.length
  window : s.ring.producerPos.toNat ≤ s.ring.consumerPos.toNat + s.ring.size
  length : ∀ e ∈ s.records, (bytes e.value).length < 2 ^ 30
  allowed : ∀ e ∈ s.records, allowed e.value
  holds : ∀ i e, released ≤ i → s.records[i]? = some e →
    s.ring.Holds bytes (position bytes s.records i) e

variable {bytes} {allowed : α → Prop}

theorem backed_of_fresh {s : RingState α σ} (h : s.Fresh) : Backed bytes allowed s 0 where
  size := h.size
  producerPos := by simp [h.producerPos, h.records, position]
  consumerPos := by simp [h.consumerPos, position]
  le := Nat.zero_le _
  window := by simp [h.producerPos]
  length := by simp [h.records]
  allowed := by simp [h.records]
  holds := by simp [h.records]

/-- Parts of a record that lie before or behind a region outside of which nothing changes. -/
theorem Ring.Holds.of_store {r r' : Ring} {e : Entry α} {p q : ℕ} {vs : List UInt8}
    (h : r.Holds bytes p e) (hlen : (bytes e.value).length < 2 ^ 30) (a : ℕ)
    (hmask : r'.mask = r.mask) (hdata : r'.data = store r.size r.data q vs) (hp : a ≤ p)
    (hp' : p + space bytes e.value ≤ a + r.size) (hq : a ≤ q) (hq' : q + vs.length ≤ a + r.size)
    (hapart : q + vs.length ≤ p ∨ p + space bytes e.value ≤ q) : r'.Holds bytes p e := by
  have hspace := length_add_le_space hlen
  have hsize : r'.size = r.size := by rw [Ring.size, hmask, Ring.size]
  have hkeep : ∀ d n, d + n ≤ space bytes e.value → r'.bytes (p + d) n = r.bytes (p + d) n := by
    intro d n hd
    rw [Ring.bytes, hsize, hdata]
    exact load_store_of_apart hq hq' (by omega) (by omega) (by omega)
  exact ⟨(hkeep 0 4 (by omega)).trans h.word, fun hs => (hkeep 8 _ hspace).trans (h.sample hs)⟩

section Kernel

variable {s : RingState α σ} {released : ℕ}

theorem Backed.end_le {i : ℕ} {e : Entry α} (h : Backed bytes allowed s released)
    (he : s.records[i]? = some e) :
    position bytes s.records i + space bytes e.value ≤ s.ring.producerPos.toNat := by
  rw [h.producerPos, ← position_succ he]
  exact position_le_length _ _

theorem Backed.consumerPos_le {i : ℕ} (h : Backed bytes allowed s released) (hi : released ≤ i) :
    s.ring.consumerPos.toNat ≤ position bytes s.records i := h.consumerPos ▸ position_mono _ _ hi

theorem Backed.le_producerPos (h : Backed bytes allowed s released) :
    s.ring.consumerPos.toNat ≤ s.ring.producerPos.toNat := h.producerPos ▸ h.consumerPos_le h.le

theorem Backed.reserve (h : Backed bytes allowed s released) {a : α} {pgOff : List UInt8}
    (hallowed : allowed a) (hpg : pgOff.length = 4) (hlen : (bytes a).length < 2 ^ 30)
    (hroom : s.ring.producerPos.toNat + space bytes a ≤ s.ring.consumerPos.toNat + s.ring.size)
    (hpos : s.ring.producerPos.toNat + space bytes a < 2 ^ 64) :
    Backed bytes allowed { s with
      ring := { s.ring with
        data := store s.ring.size s.ring.data s.ring.producerPos.toNat
          (littleEndian 4 (lenWord bytes a .reserved).toNat ++ pgOff)
        producerPos := s.ring.producerPos + .ofNat (space bytes a) }
      records := s.records ++ [⟨a, .reserved⟩] } released := by
  have hword : (littleEndian 4 (lenWord bytes a .reserved).toNat).length = 4 :=
    length_littleEndian (UInt32.toNat_lt _)
  have hspace := length_add_le_space hlen
  have hle := h.le_producerPos
  have hend : position bytes (s.records ++ [⟨a, .reserved⟩]) s.records.length =
      s.ring.producerPos.toNat := by
    rw [position_append_of_le (Nat.le_refl _), h.producerPos]
  have hprod : (s.ring.producerPos + .ofNat (space bytes a)).toNat =
      s.ring.producerPos.toNat + space bytes a := by
    rw [UInt64.toNat_add, UInt64.toNat_ofNat_of_lt' (Nat.lt_of_add_left_lt hpos),
      Nat.mod_eq_of_lt hpos]
  refine ⟨h.size, ?_, ?_, ?_, hprod.trans_le hroom, ?_, ?_, ?_⟩
  · rw [hprod, List.length_append, List.length_singleton, position_succ List.getElem?_concat_length,
      hend]
  · rw [position_append_of_le h.le, h.consumerPos]
  · exact h.le.trans (by simp)
  · simpa [or_imp, forall_and] using ⟨h.length, hlen⟩
  · simpa [or_imp, forall_and] using ⟨h.allowed, hallowed⟩
  · intro i e hi he
    rcases Nat.lt_or_ge i s.records.length with hlt | hge
    · -- the header of the new record lies behind the older ones
      rw [List.getElem?_append_left hlt] at he
      rw [position_append_of_le hlt.le]
      have hcons := h.consumerPos_le hi
      have hi_end := h.end_le he
      refine (h.holds i e hi he).of_store (h.length e (List.mem_of_getElem? he))
        s.ring.consumerPos.toNat rfl rfl hcons (by omega) hle ?_ (.inr hi_end)
      rw [List.length_append, hword, hpg]
      omega
    · obtain rfl : i = s.records.length := by
        obtain ⟨hi', -⟩ := List.getElem?_eq_some_iff.mp he
        rw [List.length_append, List.length_singleton] at hi'
        omega
      obtain rfl : ⟨a, .reserved⟩ = e := by simpa using he
      rw [hend]
      refine ⟨?_, fun hs => by rcases hs with hs | hs <;> cases hs⟩
      have hfits : (littleEndian 4 (lenWord bytes a .reserved).toNat ++ pgOff).length ≤
          s.ring.size := by
        rw [List.length_append, hword, hpg]
        omega
      have hload := load_store_append s.ring.data s.ring.producerPos.toNat hfits
      rwa [hword] at hload

/-- A change of one record writes only into that record. -/
theorem Ring.exists_change (r : Ring) {a : α} {u t : Status} (ht : u.Next t) (p : ℕ)
    (hlen : (bytes a).length < 2 ^ 30) :
    ∃ q vs, r.change bytes p a t = store r.size r.data q vs ∧ p ≤ q ∧
      q + vs.length ≤ p + space bytes a := by
  have hspace := length_add_le_space hlen
  have hhdr : hdrSz.toNat = 8 := rfl
  have hword : ∀ w : UInt32, (littleEndian 4 w.toNat).length = 4 :=
    fun w => length_littleEndian w.toNat_lt
  cases ht with
  | write => exact ⟨p + hdrSz.toNat, bytes a, rfl, by omega, by omega⟩
  | submit => exact ⟨p, _, rfl, le_rfl, by rw [hword]; omega⟩
  | drop => exact ⟨p, _, rfl, le_rfl, by rw [hword]; omega⟩
  | discard => exact ⟨p, _, rfl, le_rfl, by rw [hword]; omega⟩

theorem Ring.Holds.change {r : Ring} {a : α} {p : ℕ} {u t : Status} (h : r.Holds bytes p ⟨a, u⟩)
    (ht : u.Next t) (hlen : (bytes a).length < 2 ^ 30) (hsize : space bytes a ≤ r.size) :
    { r with data := r.change bytes p a t }.Holds bytes p ⟨a, t⟩ := by
  have hspace := length_add_le_space hlen
  have hhdr : hdrSz.toNat = 8 := rfl
  have hword : ∀ w : UInt32, (littleEndian 4 w.toNat).length = 4 :=
    fun w => length_littleEndian w.toNat_lt
  have hstore : ∀ w : UInt32,
      load r.size (store r.size r.data p (littleEndian 4 w.toNat)) p 4 =
        littleEndian 4 w.toNat := by
    intro w
    have hfits : (littleEndian 4 w.toNat).length ≤ r.size := by
      rw [hword]
      omega
    have hload := load_store r.data p hfits
    rwa [hword] at hload
  cases ht with
  | write =>
    -- the flags of the header are not touched
    have hkeep : load r.size (store r.size r.data (p + hdrSz.toNat) (bytes a)) p 4 =
        load r.size r.data p 4 :=
      load_store_of_apart (Nat.le_add_right p _) (by omega) le_rfl (by omega) (.inr (by omega))
    have hload : load r.size (store r.size r.data (p + hdrSz.toNat) (bytes a)) (p + hdrSz.toNat)
        (bytes a).length = bytes a := load_store r.data _ (by omega)
    exact ⟨hkeep.trans h.word, fun _ => hload⟩
  | submit =>
    -- nor is the sample when it is submitted
    have hkeep : load r.size
        (store r.size r.data p (littleEndian 4 (lenWord bytes a .submitted).toNat))
        (p + hdrSz.toNat) (bytes a).length =
          load r.size r.data (p + hdrSz.toNat) (bytes a).length :=
      load_store_of_apart le_rfl (by rw [hword]; omega) (Nat.le_add_right p _) (by omega)
        (.inl (by rw [hword]; omega))
    exact ⟨hstore _, fun _ => hkeep.trans (h.sample (.inl rfl))⟩
  | drop => exact ⟨hstore _, fun hs => by rcases hs with hs | hs <;> cases hs⟩
  | discard => exact ⟨hstore _, fun hs => by rcases hs with hs | hs <;> cases hs⟩

theorem Backed.change (h : Backed bytes allowed s released) {i : ℕ} {e : Entry α} {t : Status}
    (hi : released ≤ i) (he : s.records[i]? = some e) (ht : e.status.Next t) :
    Backed bytes allowed { s with
      ring := { s.ring with data := s.ring.change bytes (position bytes s.records i) e.value t }
      records := s.records.set i ⟨e.value, t⟩ } released := by
  have hvalues := Log.map_value_set he t
  have hmem := List.mem_of_getElem? he
  have hlen := h.length e hmem
  have hpos : ∀ j, position bytes (s.records.set i ⟨e.value, t⟩) j = position bytes s.records j :=
    position_congr hvalues
  have hcons := h.consumerPos_le hi
  have hend := h.end_le he
  have hwindow := h.window
  have hforall : ∀ P : α → Prop, (∀ e ∈ s.records, P e.value) →
      ∀ e' ∈ s.records.set i ⟨e.value, t⟩, P e'.value := by
    intro P hP e' he'
    rcases List.mem_or_eq_of_mem_set he' with he' | rfl
    · exact hP e' he'
    · exact hP e hmem
  refine ⟨h.size, ?_, ?_, by simpa using h.le, hwindow,
    hforall (fun a => (bytes a).length < 2 ^ 30) h.length, hforall allowed h.allowed, ?_⟩
  · rw [hpos, List.length_set, h.producerPos]
  · rw [hpos, h.consumerPos]
  · intro j e' hj he'
    rw [hpos]
    by_cases hij : i = j
    · subst hij
      obtain ⟨hlt, -⟩ := List.getElem?_eq_some_iff.mp he
      obtain rfl : ⟨e.value, t⟩ = e' := by simpa [List.getElem?_set_self hlt] using he'
      exact (h.holds i e hi he).change ht hlen (by omega)
    · rw [List.getElem?_set_ne hij] at he'
      obtain ⟨q, vs, hdata, hq, hq'⟩ := s.ring.exists_change ht (position bytes s.records i) hlen
      have hend' := h.end_le he'
      have hcons' := h.consumerPos_le hj
      refine (h.holds j e' hj he').of_store (h.length e' (List.mem_of_getElem? he'))
        s.ring.consumerPos.toNat rfl hdata hcons' (by omega) (by omega) (by omega) ?_
      rcases Nat.lt_or_gt_of_ne hij with hlt | hgt
      · left
        have hmono := position_mono bytes s.records (Nat.succ_le_of_lt hlt)
        rw [Nat.succ_eq_add_one, position_succ he] at hmono
        omega
      · right
        have hmono := position_mono bytes s.records (Nat.succ_le_of_lt hgt)
        rw [Nat.succ_eq_add_one, position_succ he'] at hmono
        omega

end Kernel

section Consumer

variable {s : RingState α σ} {released : ℕ} {e : Entry α}

theorem Ring.toNat_and_mask {r : Ring} {k : ℕ} (h : r.size = 2 ^ k) (pos : UInt64) :
    (pos &&& r.mask).toNat = pos.toNat % r.size := by
  have hmask : r.mask.toNat = 2 ^ k - 1 := by
    rw [← h, Ring.size, Nat.add_sub_cancel]
  rw [UInt64.toNat_and, hmask, Nat.and_two_pow_sub_one_eq_mod, h]

/-- The consumer reads the word of the first record that is not released. -/
theorem Backed.lenAt_eq (h : Backed bytes allowed s released)
    (he : s.records[released]? = some e) :
    s.ring.lenAt s.ring.consumerPos = lenWord bytes e.value e.status := by
  obtain ⟨k, hk⟩ := h.size
  have hload : load s.ring.size s.ring.data (s.ring.consumerPos.toNat % s.ring.size + 0) 4 =
      load s.ring.size s.ring.data (s.ring.consumerPos.toNat + 0) 4 := load_mod_add _ _ 0 4
  rw [Ring.lenAt, Ring.bytes, Ring.toNat_and_mask hk]
  rw [Nat.add_zero, Nat.add_zero, h.consumerPos] at hload
  rw [h.consumerPos, hload, ← Ring.bytes, (h.holds released e (Nat.le_refl _) he).word,
    ofLittleEndian_littleEndian (UInt32.toNat_lt _), UInt32.ofNat_toNat]

/-- Of a submitted record it reads the sample. -/
theorem Backed.sampleAt_eq (h : Backed bytes allowed s released)
    (he : s.records[released]? = some e) (hs : e.status = .submitted) :
    s.ring.sampleAt s.ring.consumerPos (lenWord bytes e.value e.status) = bytes e.value := by
  obtain ⟨k, hk⟩ := h.size
  have hlen := toNat_ofNat_len (h.length e (List.mem_of_getElem? he))
  rw [Ring.sampleAt, Ring.bytes, Ring.toNat_and_mask hk, load_mod_add, h.consumerPos, hs, lenWord,
    sampleLen, hlen]
  exact (h.holds released e (Nat.le_refl _) he).sample (.inr hs)

/-- The position behind a record does not overflow. -/
theorem Backed.toNat_next (h : Backed bytes allowed s released)
    (he : s.records[released]? = some e) (ht : e.status.Finished) :
    (s.ring.consumerPos + (roundupLen (lenWord bytes e.value e.status)).toUInt64).toNat =
      position bytes s.records (released + 1) := by
  have hlt := s.ring.producerPos.toNat_lt
  have hend := h.end_le he
  have hspace := roundupLen_lenWord (h.length e (List.mem_of_getElem? he)) ht
  rw [UInt64.toNat_add, UInt32.toNat_toUInt64, hspace, h.consumerPos, position_succ he]
  exact Nat.mod_eq_of_lt (hend.trans_lt hlt)

/-- There is a record if and only if the producer is ahead. -/
theorem Backed.exists_record (h : Backed bytes allowed s released)
    (hlt : s.ring.consumerPos.toNat < s.ring.producerPos.toNat) :
    ∃ e, s.records[released]? = some e := by
  rcases Nat.lt_or_ge released s.records.length with hr | hr
  · exact ⟨_, List.getElem?_eq_getElem hr⟩
  · rw [h.producerPos, h.consumerPos, Nat.le_antisymm h.le hr] at hlt
    exact absurd hlt (lt_irrefl _)

/-- The store of the new consumer position gives the space of one record back. -/
theorem Backed.release (h : Backed bytes allowed s released) {pos : UInt64} {pc : Pc} {ctx : σ}
    (he : s.records[released]? = some e)
    (hpos : pos.toNat = position bytes s.records (released + 1)) :
    Backed bytes allowed { s with
      ring := { s.ring with consumerPos := pos }
      pc := pc, ctx := ctx } (released + 1) := by
  have hlt : released < s.records.length := (List.getElem?_eq_some_iff.mp he).1
  have hmono := position_mono bytes s.records (Nat.le_succ released)
  refine ⟨h.size, h.producerPos, hpos, hlt, ?_, h.length, h.allowed, fun i e hi he => ?_⟩
  · exact h.window.trans (Nat.add_le_add_right (by rw [h.consumerPos, hpos]; exact hmono) _)
  · obtain ⟨hword, hsample⟩ := h.holds i e (Nat.le_of_succ_le hi) he
    exact ⟨hword, hsample⟩

theorem Backed.with_pc (h : Backed bytes allowed s released) (pc : Pc) (ctx : σ) :
    Backed bytes allowed { s with pc := pc, ctx := ctx } released :=
  ⟨h.size, h.producerPos, h.consumerPos, h.le, h.window, h.length, h.allowed, h.holds⟩

end Consumer

end Records

end LensX
