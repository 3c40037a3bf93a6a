import LensX.Transport.Memory

/-! # Delivery

However the kernel and the consumer interleave, the callback sees the samples of the
records that were submitted, each once, in the order in which they were reserved.
-/

namespace LensX

open CommitLog

variable {α σ : Type*} {bytes : α → List UInt8} {allowed : α → Prop}
  {cb : σ → List UInt8 → σ × Int32} {s s' : RingState α σ}

/-- What all kernel steps have in common. -/
structure KernelFrame (s s' : RingState α σ) : Prop where
  pc : s'.pc = s.pc
  ctx : s'.ctx = s.ctx
  mask : s'.ring.mask = s.ring.mask
  consumerPos : s'.ring.consumerPos = s.ring.consumerPos
  producerPos : s.ring.producerPos.toNat ≤ s'.ring.producerPos.toNat
  log (n : ℕ) : Log.Step ⟨s.records, n⟩ ⟨s'.records, n⟩
  finished (i : ℕ) (e : Entry α) : s.records[i]? = some e → e.status.Finished →
    s'.records[i]? = some e

theorem KernelStep.frame (h : KernelStep bytes allowed s s') : KernelFrame s s' := by
  cases h with
  | reserve a pgOff hallowed hpg hlen hroom hpos =>
    refine ⟨rfl, rfl, rfl, rfl, ?_, fun n => .reserve _ a, fun i e he _ => ?_⟩
    · have hspace : space bytes a < 2 ^ 64 := by omega
      simp only [UInt64.toNat_add, UInt64.toNat_ofNat_of_lt' hspace, Nat.mod_eq_of_lt hpos]
      exact Nat.le_add_right _ _
    · rw [List.getElem?_append_left (List.getElem?_eq_some_iff.mp he).1]
      exact he
  | change he ht =>
    refine ⟨rfl, rfl, rfl, rfl, le_rfl, fun n => .change _ he ht, fun j e' he' hf => ?_⟩
    rw [List.getElem?_set_ne, he']
    rintro rfl
    obtain rfl := Option.some.inj (he.symm.trans he')
    exact ht.not_finished hf

theorem KernelFrame.position_eq (h : KernelFrame s s') {i : ℕ} (hi : i ≤ s.records.length) :
    position bytes s'.records i = position bytes s.records i := by
  obtain ⟨t, ht⟩ : s.records.map Entry.value <+: s'.records.map Entry.value := by
    have hstep := h.log 0
    exact (hstep.valid_extends ⟨Nat.zero_le _, by simp⟩).2.values
  rw [position_eq_values, position_eq_values, ← ht,
    List.take_append_of_le_length (by simpa using hi)]

/-- What the consumer knows at each place of its program. The first records are released, and the
callback has seen the consumed ones. -/
def Pc.Knows (bytes : α → List UInt8) (s : RingState α σ) (released consumed : ℕ) : Pc → Prop
  | .idle | .returned _ => consumed = released
  | .outer consPos _ => consumed = released ∧ consPos = s.ring.consumerPos
  | .inner consPos prodPos _ _ => consumed = released ∧ consPos = s.ring.consumerPos ∧
    prodPos.toNat ≤ s.ring.producerPos.toNat
  | .sample start consPos prodPos len _ => consumed = released ∧ start = s.ring.consumerPos ∧
    prodPos.toNat ≤ s.ring.producerPos.toNat ∧
    consPos.toNat = position bytes s.records (released + 1) ∧
    ∃ e, s.records[released]? = some e ∧ e.status.Finished ∧
      len = lenWord bytes e.value e.status
  | .release consPos prodPos _ _ => consumed = released + 1 ∧
    prodPos.toNat ≤ s.ring.producerPos.toNat ∧
    consPos.toNat = position bytes s.records (released + 1)

/-- How many records the next step hands out. -/
def Pc.handsOut : Pc → ℕ
  | .sample _ _ _ _ _ => 1
  | .idle | .outer _ _ | .inner _ _ _ _ | .release _ _ _ _ | .returned _ => 0

/-- What the callback makes of some values. -/
def callAll (bytes : α → List UInt8) (cb : σ → List UInt8 → σ × Int32) (ctx : σ) (l : List α) : σ :=
  l.foldl (fun ctx a => (cb ctx (bytes a)).1) ctx

/-- The invariant of the transport. -/
structure Delivering (bytes : α → List UInt8) (allowed : α → Prop)
    (cb : σ → List UInt8 → σ × Int32) (init : σ) (s : RingState α σ) (released consumed : ℕ) :
    Prop where
  backed : Backed bytes allowed s released
  valid : (⟨s.records, consumed⟩ : Log α).Valid
  knows : s.pc.Knows bytes s released consumed
  ctx : s.ctx = callAll bytes cb init (submitted (s.records.take consumed))

theorem delivering_of_fresh (h : s.Fresh) : Delivering bytes allowed cb s.ctx s 0 0 where
  backed := backed_of_fresh h
  valid := ⟨Nat.zero_le _, by simp⟩
  knows := by rw [h.pc]; rfl
  ctx := by rw [List.take_zero]; rfl

namespace Delivering

variable {init : σ} {released consumed : ℕ}

theorem le_consumed (h : Delivering bytes allowed cb init s released consumed) :
    released ≤ consumed := by
  have hknows := h.knows
  cases hpc : s.pc <;> rw [hpc] at hknows
  case idle | returned => exact hknows.ge
  case outer | inner | sample => exact hknows.1.ge
  case release => rw [hknows.1]; exact Nat.le_succ _

theorem kernel (h : Delivering bytes allowed cb init s released consumed)
    (hs : KernelStep bytes allowed s s') :
    Delivering bytes allowed cb init s' released consumed := by
  have hframe := hs.frame
  obtain ⟨hvalid, hextends⟩ := (hframe.log consumed).valid_extends h.valid
  have htake : s.records.take consumed = s'.records.take consumed := by
    refine hextends.consumed.eq_of_length ?_
    rw [List.length_take_of_le h.valid.le, List.length_take_of_le hvalid.le]
  refine ⟨?_, hvalid, ?_, by rw [hframe.ctx, h.ctx, htake]⟩
  · cases hs with
    | reserve a pgOff hallowed hpg hlen hroom hpos =>
      exact h.backed.reserve hallowed hpg hlen hroom hpos
    | @change i e t he ht =>
      -- a consumed record does not change any more
      refine h.backed.change (h.le_consumed.trans ?_) he ht
      by_contra hlt
      exact ht.not_finished (h.valid.finished_of_lt (Nat.lt_of_not_le hlt) he)
  · have hknows := h.knows
    have hprod := hframe.producerPos
    rw [hframe.pc]
    cases hpc : s.pc <;> rw [hpc] at hknows
    case idle | returned => exact hknows
    case outer => exact ⟨hknows.1, hframe.consumerPos ▸ hknows.2⟩
    case inner =>
      obtain ⟨hc, hpos, hp⟩ := hknows
      exact ⟨hc, hframe.consumerPos ▸ hpos, hp.trans hprod⟩
    case sample =>
      obtain ⟨hc, hpos, hp, hnext, e, he, hf, hlen⟩ := hknows
      have hlt := (List.getElem?_eq_some_iff.mp he).1
      refine ⟨hc, hframe.consumerPos ▸ hpos, hp.trans hprod, ?_, e, hframe.finished _ e he hf, hf,
        hlen⟩
      rw [hnext, hframe.position_eq hlt]
    case release =>
      obtain ⟨hc, hp, hnext⟩ := hknows
      refine ⟨hc, hp.trans hprod, ?_⟩
      rw [hnext, hframe.position_eq (hc ▸ h.valid.le)]

end Delivering

section Consumer

variable {released : ℕ}

theorem process_inner (cb : σ → List UInt8 → σ × Int32) {consPos prodPos : UInt64}
    {gotNewData : Bool} {cnt : ℤ} {e : Entry α}
    (hpc : s.pc = .inner consPos prodPos gotNewData cnt) (hpos : consPos = s.ring.consumerPos)
    (hlt : consPos < prodPos) (h : Backed bytes allowed s released)
    (he : s.records[released]? = some e) :
    s.process cb =
      if e.status.Finished then
        { s with
          pc := .sample consPos
            (consPos + (roundupLen (lenWord bytes e.value e.status)).toUInt64) prodPos
            (lenWord bytes e.value e.status) cnt }
      else { s with pc := .returned cnt } := by
  have hbusy := lenWord_and_busyBit (h.length e (List.mem_of_getElem? he)) e.status
  subst hpos
  rw [RingState.process, hpc]
  simp only [if_pos hlt, h.lenAt_eq he, ne_eq, hbusy, ite_not]

theorem process_sample (cb : σ → List UInt8 → σ × Int32) {start consPos prodPos : UInt64}
    {len : UInt32} {cnt : ℤ} {e : Entry α}
    (hpc : s.pc = .sample start consPos prodPos len cnt) (hstart : start = s.ring.consumerPos)
    (hlen : len = lenWord bytes e.value e.status) (h : Backed bytes allowed s released)
    (he : s.records[released]? = some e) (ht : e.status.Finished) :
    s.process cb =
      if e.status = .submitted then
        if (cb s.ctx (bytes e.value)).2 < 0 then
          { s with
            pc := .release consPos prodPos (some (cb s.ctx (bytes e.value)).2) cnt
            ctx := (cb s.ctx (bytes e.value)).1 }
        else
          { s with
            pc := .release consPos prodPos none (cnt + 1)
            ctx := (cb s.ctx (bytes e.value)).1 }
      else { s with pc := .release consPos prodPos none cnt } := by
  have hdiscard := lenWord_and_discardBit (h.length e (List.mem_of_getElem? he)) ht
  rw [RingState.process, hpc]
  simp only [hlen, hdiscard]
  by_cases hs : e.status = .submitted
  · rw [if_pos hs, if_pos hs, hstart, h.sampleAt_eq he hs]
  · rw [if_neg hs, if_neg hs]

end Consumer

namespace Delivering

variable {init : σ} {released consumed : ℕ}

theorem exists_record (h : Delivering bytes allowed cb init s released consumed)
    {consPos prodPos : UInt64} (hpos : consPos = s.ring.consumerPos)
    (hprod : prodPos.toNat ≤ s.ring.producerPos.toNat) (hlt : consPos < prodPos) :
    ∃ e, s.records[released]? = some e :=
  h.backed.exists_record (hpos ▸ Nat.lt_of_lt_of_le hlt hprod)

/-- The callback gets the next sample. -/
theorem consume (h : Delivering bytes allowed cb init s released released) {e : Entry α}
    (he : s.records[released]? = some e) (ht : e.status.Finished) (err : Option Int32) (cnt : ℤ)
    {consPos prodPos : UInt64} {ctx : σ} (hprod : prodPos.toNat ≤ s.ring.producerPos.toNat)
    (hnext : consPos.toNat = position bytes s.records (released + 1))
    (hctx : ctx = if e.status = .submitted then (cb s.ctx (bytes e.value)).1 else s.ctx) :
    Delivering bytes allowed cb init
      { s with pc := .release consPos prodPos err cnt, ctx := ctx } released (released + 1) where
  backed := h.backed.with_pc _ _
  valid := ((Log.Step.consume ⟨s.records, released⟩ he ht).valid_extends h.valid).1
  knows := ⟨rfl, hprod, hnext⟩
  ctx := by
    obtain ⟨hlt, rfl⟩ := List.getElem?_eq_some_iff.mp he
    have hinit : List.foldl (fun ctx a => (cb ctx (bytes a)).1) init
        (submitted (s.records.take released)) = s.ctx := h.ctx.symm
    rw [List.take_succ_eq_append_getElem hlt, submitted_append, callAll, List.foldl_append, hinit]
    change ctx = _
    rw [hctx]
    by_cases hs : s.records[released].status = .submitted <;> simp [submitted, hs]

theorem process (h : Delivering bytes allowed cb init s released consumed) :
    ∃ released', Delivering bytes allowed cb init (s.process cb) released'
      (consumed + s.pc.handsOut) ∧ Relation.ReflGen Log.Step ⟨s.records, consumed⟩
        ⟨(s.process cb).records, consumed + s.pc.handsOut⟩ := by
  have hknows := h.knows
  cases hpc : s.pc with
  | idle =>
    rw [hpc] at hknows
    rw [RingState.process, hpc]
    exact ⟨released, ⟨h.backed.with_pc _ _, h.valid, ⟨hknows, rfl⟩, h.ctx⟩, .refl⟩
  | outer consPos cnt =>
    rw [hpc] at hknows
    obtain ⟨hc, hpos⟩ := hknows
    rw [RingState.process, hpc]
    exact ⟨released, ⟨h.backed.with_pc _ _, h.valid, ⟨hc, hpos, le_rfl⟩, h.ctx⟩, .refl⟩
  | inner consPos prodPos gotNewData cnt =>
    rw [hpc] at hknows
    obtain ⟨rfl, hpos, hprod⟩ := hknows
    by_cases hlt : consPos < prodPos
    · obtain ⟨e, he⟩ := h.exists_record hpos hprod hlt
      rw [process_inner cb hpc hpos hlt h.backed he]
      by_cases ht : e.status.Finished
      · rw [if_pos ht]
        refine ⟨consumed, ⟨h.backed.with_pc _ _, h.valid, ?_, h.ctx⟩, .refl⟩
        refine ⟨rfl, hpos, hprod, ?_, e, he, ht, rfl⟩
        exact hpos ▸ h.backed.toNat_next he ht
      · rw [if_neg ht]
        exact ⟨consumed, ⟨h.backed.with_pc _ _, h.valid, rfl, h.ctx⟩, .refl⟩
    · rw [RingState.process, hpc]
      simp only [if_neg hlt]
      cases gotNewData
      · exact ⟨consumed, ⟨h.backed.with_pc _ _, h.valid, rfl, h.ctx⟩, .refl⟩
      · exact ⟨consumed, ⟨h.backed.with_pc _ _, h.valid, ⟨rfl, hpos⟩, h.ctx⟩, .refl⟩
  | sample start consPos prodPos len cnt =>
    rw [hpc] at hknows
    obtain ⟨rfl, hstart, hprod, hnext, e, he, ht, hlen⟩ := hknows
    have hstep := Relation.ReflGen.single (Log.Step.consume ⟨s.records, consumed⟩ he ht)
    rw [process_sample cb hpc hstart hlen h.backed he ht]
    by_cases hs : e.status = .submitted
    · rw [if_pos hs]
      split
      all_goals exact ⟨consumed, h.consume he ht _ _ hprod hnext (if_pos hs).symm, hstep⟩
    · rw [if_neg hs]
      exact ⟨consumed, h.consume he ht _ _ hprod hnext (if_neg hs).symm, hstep⟩
  | release consPos prodPos err cnt =>
    rw [hpc] at hknows
    obtain ⟨rfl, hprod, hnext⟩ := hknows
    obtain ⟨e, he⟩ : ∃ e, s.records[released]? = some e :=
      ⟨_, List.getElem?_eq_getElem h.valid.le⟩
    rw [RingState.process, hpc]
    refine ⟨released + 1, ⟨h.backed.release he hnext, h.valid, ?_, h.ctx⟩, .refl⟩
    cases err
    · exact ⟨rfl, rfl, hprod⟩
    · rfl
  | returned res =>
    rw [hpc] at hknows
    rw [RingState.process, hpc]
    exact ⟨released, ⟨h.backed.with_pc _ _, h.valid, hknows, h.ctx⟩, .refl⟩

/-- Whatever the two parties do, the records go through the log. -/
theorem steps (h : Delivering bytes allowed cb init s released consumed)
    (hs : Relation.ReflTransGen (RingStep bytes allowed cb) s s') :
    ∃ released' consumed', Delivering bytes allowed cb init s' released' consumed' ∧
      Relation.ReflTransGen Log.Step ⟨s.records, consumed⟩ ⟨s'.records, consumed'⟩ := by
  induction hs with
  | refl => exact ⟨released, consumed, h, .refl⟩
  | tail _ hstep ih =>
    obtain ⟨r, c, hr, hlog⟩ := ih
    cases hstep with
    | kernel hk => exact ⟨r, c, hr.kernel hk, hlog.tail (hk.frame.log c)⟩
    | consumer =>
      obtain ⟨r', hr', hstep⟩ := hr.process
      exact ⟨r', _, hr', hlog.trans hstep.to_reflTransGen⟩

end Delivering

section Runs

variable {s₀ : RingState α σ}

theorem exists_delivering (h₀ : s₀.Fresh)
    (hs : Relation.ReflTransGen (RingStep bytes allowed cb) s₀ s) :
    ∃ released consumed, Delivering bytes allowed cb s₀.ctx s released consumed :=
  let ⟨released, consumed, h, _⟩ := (delivering_of_fresh h₀).steps hs
  ⟨released, consumed, h⟩

theorem Delivering.consumed_le {init : σ} {released consumed : ℕ}
    (h : Delivering bytes allowed cb init s released consumed) : consumed ≤ released + 1 := by
  have hknows := h.knows
  cases hpc : s.pc <;> rw [hpc] at hknows
  case idle | returned => exact hknows.le.trans (Nat.le_succ _)
  case outer | inner | sample => exact hknows.1.le.trans (Nat.le_succ _)
  case release => exact hknows.1.le

/-- An empty ring has room for a record, which can be submitted at once. -/
theorem exists_submitted (bytes : α → List UInt8) (allowed : α → Prop)
    (cb : σ → List UInt8 → σ × Int32) (h₀ : s₀.Fresh) (a : α) (ha : allowed a)
    (hlen : (bytes a).length < 2 ^ 30) (hroom : space bytes a ≤ s₀.ring.size) :
    ∃ s, Relation.ReflTransGen (RingStep bytes allowed cb) s₀ s ∧
      s.records = [⟨a, .submitted⟩] ∧ s.pc = .idle := by
  have hprod : s₀.ring.producerPos.toNat = 0 := by rw [h₀.producerPos]; rfl
  have hcons : s₀.ring.consumerPos.toNat = 0 := by rw [h₀.consumerPos]; rfl
  have hspace : space bytes a < 2 ^ 64 :=
    (UInt32.toNat_lt _).trans (by decide)
  obtain ⟨s₁, h₁, hrecords₁, hpc₁⟩ : ∃ s₁, KernelStep bytes allowed s₀ s₁ ∧
      s₁.records = [⟨a, .reserved⟩] ∧ s₁.pc = s₀.pc :=
    ⟨_, .reserve s₀ a [0, 0, 0, 0] ha rfl hlen (by omega) (by omega), by simp [h₀.records], rfl⟩
  have hchange : ∀ {s : RingState α σ} {u t : Status}, s.records = [⟨a, u⟩] → u.Next t →
      ∃ s', KernelStep bytes allowed s s' ∧ s'.records = [⟨a, t⟩] ∧ s'.pc = s.pc :=
    fun {s u t} hrecords ht =>
      ⟨_, .change s (i := 0) (e := ⟨a, u⟩) (by rw [hrecords]; rfl) ht, by rw [hrecords]; rfl, rfl⟩
  obtain ⟨s₂, h₂, hrecords₂, hpc₂⟩ := hchange hrecords₁ .write
  obtain ⟨s₃, h₃, hrecords₃, hpc₃⟩ := hchange hrecords₂ .submit
  refine ⟨s₃, ((Relation.ReflTransGen.single (.kernel h₁)).tail (.kernel h₂)).tail (.kernel h₃),
    hrecords₃, ?_⟩
  rw [hpc₃, hpc₂, hpc₁, h₀.pc]

/-- A ring of 64 bytes in which one byte was submitted; the callback collects the samples. -/
theorem exists_byte : ∃ s₀ s : RingState UInt8 (List (List UInt8)), s₀.Fresh ∧ s₀.ctx = [] ∧
    Relation.ReflTransGen
      (RingStep (fun b => [b]) (fun _ => True) fun l data => (l ++ [data], 0)) s₀ s ∧
    s.records = [⟨7, .submitted⟩] ∧ s.pc = .idle := by
  have hfresh : RingState.Fresh (⟨⟨63, fun _ => 0, 0, 0⟩, [], .idle, []⟩ :
      RingState UInt8 (List (List UInt8))) := ⟨⟨6, rfl⟩, rfl, rfl, rfl, rfl⟩
  obtain ⟨s, hs, hrecords, hpc⟩ := exists_submitted (fun b => [b]) (fun _ => True)
    (fun l data => (l ++ [data], 0)) hfresh 7 trivial (by decide) (by decide)
  exact ⟨_, s, hfresh, rfl, hs, hrecords, hpc⟩

/-- At any two moments of a run, the callback has seen the submitted records among the first ones,
none of which is still open. Between the moments their number only grows, and the space of a
record is given back only after the callback has seen it. -/
theorem callback_sees_submitted (h₀ : s₀.Fresh)
    (hs : Relation.ReflTransGen (RingStep bytes allowed cb) s₀ s)
    (hs' : Relation.ReflTransGen (RingStep bytes allowed cb) s s') :
    ∃ n n', s.ctx = callAll bytes cb s₀.ctx (submitted (s.records.take n)) ∧
      s'.ctx = callAll bytes cb s₀.ctx (submitted (s'.records.take n')) ∧
      s.records.take n <+: s'.records.take n' ∧ n ≤ s.records.length ∧ n' ≤ s'.records.length ∧
      (∀ e ∈ s'.records.take n', e.status.Finished) ∧
      ∃ m ≤ n', n' ≤ m + 1 ∧ s'.ring.consumerPos.toNat = position bytes s'.records m := by
  obtain ⟨r, n, h⟩ := exists_delivering h₀ hs
  obtain ⟨m, n', h', hlog⟩ := h.steps hs'
  have hextends := (Log.valid_extends_of_steps h.valid hlog).2
  exact ⟨n, n', h.ctx, h'.ctx, hextends.consumed, h.valid.le, h'.valid.le, h'.valid.finished,
    m, h'.le_consumed, h'.consumed_le, h'.backed.consumerPos⟩

theorem callback_sees_submitted_byte :
    ∃ s s' : RingState UInt8 (List (List UInt8)), s.records = [⟨7, .submitted⟩] ∧
      ∃ n n', s.records.take n <+: s'.records.take n' ∧
        s'.ctx = callAll (fun b => [b]) (fun l data => (l ++ [data], 0)) []
          (submitted (s'.records.take n')) := by
  obtain ⟨s₀, s, hfresh, hempty, hs, hrecords, -⟩ := exists_byte
  obtain ⟨n, n', -, hctx, hprefix, -⟩ := callback_sees_submitted hfresh hs
    ((Relation.ReflTransGen.single (.consumer s)).tail (.consumer _))
  exact ⟨s, _, hrecords, n, n', hprefix, hempty ▸ hctx⟩

/-- Where the next step of the consumer stops reading in the data pages. -/
def RingState.readEnd (s : RingState α σ) : ℕ :=
  match s.pc with
  | .inner consPos prodPos _ _ =>
    if consPos < prodPos then (consPos &&& s.ring.mask).toNat + 4 else 0
  | .sample start _ _ len _ =>
    if len &&& discardBit = 0 then (start &&& s.ring.mask).toNat + hdrSz.toNat + len.toNat else 0
  | _ => 0

theorem Backed.space_le {released : ℕ} {e : Entry α} (h : Backed bytes allowed s released)
    (he : s.records[released]? = some e) : space bytes e.value ≤ s.ring.size := by
  have hend := h.end_le he
  have hwindow := h.window
  rw [← h.consumerPos] at hend
  omega

theorem Delivering.readEnd_le {init : σ} {released consumed : ℕ}
    (h : Delivering bytes allowed cb init s released consumed) : s.readEnd ≤ 2 * s.ring.size := by
  have hknows := h.knows
  have hmod : ∀ pos : UInt64, (pos &&& s.ring.mask).toNat < s.ring.size := by
    obtain ⟨k, hk⟩ := h.backed.size
    intro pos
    rw [Ring.toNat_and_mask hk]
    exact Nat.mod_lt _ (Nat.succ_pos _)
  rw [RingState.readEnd]
  cases hpc : s.pc with
  | inner consPos prodPos gotNewData cnt =>
    rw [hpc] at hknows
    obtain ⟨-, hpos, hprod⟩ := hknows
    dsimp only
    split
    next hlt =>
      obtain ⟨e, he⟩ := h.exists_record hpos hprod hlt
      have hle := h.backed.space_le he
      have hspace := length_add_le_space (h.backed.length e (List.mem_of_getElem? he))
      have hm := hmod consPos
      omega
    next => exact Nat.zero_le _
  | sample start consPos prodPos len cnt =>
    rw [hpc] at hknows
    obtain ⟨-, -, -, -, e, he, ht, rfl⟩ := hknows
    have hlen := h.backed.length e (List.mem_of_getElem? he)
    dsimp only
    split
    next hs =>
      rw [lenWord_and_discardBit hlen ht] at hs
      have hle := h.backed.space_le he
      have hspace := length_add_le_space hlen
      have hm := hmod start
      have hhdr : hdrSz.toNat = 8 := rfl
      rw [hs, lenWord, sampleLen, toNat_ofNat_len hlen]
      omega
    next => exact Nat.zero_le _
  | idle | outer | release | returned => exact Nat.zero_le _

/-- The consumer stays within the two mappings of the data pages, and no record that lies at its
position or behind it is overwritten. -/
theorem reads_within_mappings (h₀ : s₀.Fresh)
    (hs : Relation.ReflTransGen (RingStep bytes allowed cb) s₀ s) :
    s.readEnd ≤ 2 * s.ring.size ∧
      ∀ i e, s.records[i]? = some e → s.ring.consumerPos.toNat ≤ position bytes s.records i →
        s.ring.Holds bytes (position bytes s.records i) e := by
  obtain ⟨released, consumed, h⟩ := exists_delivering h₀ hs
  refine ⟨h.readEnd_le, fun i e he hle => h.backed.holds i e ?_ he⟩
  -- earlier records end at the position of the consumer
  by_contra hlt
  have hmono := position_mono bytes s.records (Nat.lt_of_not_le hlt)
  have hspace := length_add_le_space (h.backed.length e (List.mem_of_getElem? he))
  rw [Nat.succ_eq_add_one, position_succ he, ← h.backed.consumerPos] at hmono
  omega

theorem reads_within_mappings_byte :
    ∃ s : RingState UInt8 (List (List UInt8)), s.records = [⟨7, .submitted⟩] ∧
      s.readEnd ≤ 2 * s.ring.size := by
  obtain ⟨s₀, s, hfresh, -, hs, hrecords, -⟩ := exists_byte
  exact ⟨s, hrecords, (reads_within_mappings hfresh hs).1⟩

end Runs

end LensX
