import LensX.Model.Record

/-! # Submitted and decoded events

The padding that `struct event` declares is the gap that the compiler leaves in
`RawEvent`. Every member therefore has the same place in both structs, and decoding a
record gives back the members that were stored in it.
-/

namespace LensX

open Layout

theorem CField.align_pos (f : CField) : 0 < f.align := by
  rw [align]
  cases f.type <;> decide

section Numbers

variable {n value : ℕ}

theorem length_littleEndian (h : value < 256 ^ n) : (littleEndian n value).length = n := by
  rw [littleEndian, List.length_map]
  exact Nat.length_digitsAppend (by decide) n h

theorem ofLittleEndian_littleEndian (h : value < 256 ^ n) :
    ofLittleEndian (littleEndian n value) = value := by
  have hbytes : (littleEndian n value).map (·.toNat) = Nat.digitsAppend 256 n value := by
    rw [littleEndian, List.map_map]
    refine (List.map_congr_left fun d hd => ?_).trans (List.map_id _)
    exact UInt8.toNat_ofNat_of_lt' (Nat.lt_of_mem_digitsAppend (by decide) n d hd)
  rw [ofLittleEndian, hbytes]
  exact (Nat.setInvOn_digitsAppend_ofDigits (by decide) n).2 h

end Numbers

section Members

variable {fields : List CField} {name : String} {l : List (String × ℕ)} {e : List UInt8}

theorem mem_place_of_memberAt {p : ℕ × CField} (h : memberAt fields name = some p) :
    p ∈ place CField.size CField.align 0 fields ∧ p.2.name = name :=
  ⟨List.mem_of_find?_eq_some h, by simpa using List.find?_some h⟩

theorem end_le_sizeofStruct {p : ℕ × CField} (h : memberAt fields name = some p) :
    p.1 + p.2.size ≤ sizeofStruct fields :=
  end_le_recordSize CField.align_pos (mem_place_of_memberAt h).1

/-- The value fits into the member of the name. -/
def FitsMember (fields : List CField) (a : String × ℕ) : Prop :=
  ∃ p, memberAt fields a.1 = some p ∧ a.2 < 256 ^ p.2.size

/-- What an assignment stores. -/
def region (fields : List CField) (a : String × ℕ) : ℕ × List UInt8 :=
  match memberAt fields a.1 with
  | some (offset, f) => (offset, littleEndian f.size a.2)
  | none => (0, [])

theorem region_eq {a : String × ℕ} {p : ℕ × CField} (h : memberAt fields a.1 = some p) :
    region fields a = (p.1, littleEndian p.2.size a.2) := by
  rw [region, h]

theorem assignAll_eq (h : ∀ a ∈ l, FitsMember fields a) :
    assignAll fields e l = storeAll e (l.map (region fields)) := by
  rw [assignAll, storeAll, List.foldl_map]
  refine List.foldl_ext _ _ e fun e a ha => ?_
  obtain ⟨p, hp, -⟩ := h a ha
  rw [assign, region_eq hp, hp]

theorem region_fits (he : sizeofStruct fields ≤ e.length) (h : ∀ a ∈ l, FitsMember fields a) :
    ∀ s ∈ l.map (region fields), s.1 + s.2.length ≤ e.length := by
  intro s hs
  obtain ⟨a, ha, rfl⟩ := List.mem_map.mp hs
  obtain ⟨p, hp, hlt⟩ := h a ha
  rw [region_eq hp, length_littleEndian hlt]
  exact (end_le_sizeofStruct hp).trans he

theorem region_apart (h : ∀ a ∈ l, FitsMember fields a) (hnodup : (l.map Prod.fst).Nodup) :
    (l.map (region fields)).Pairwise fun s t => Apart (s.1, s.2.length) (t.1, t.2.length) := by
  refine List.pairwise_map.mpr ((List.pairwise_map.mp hnodup).imp_of_mem ?_)
  intro a b ha hb hne
  obtain ⟨p, hp, hpa⟩ := h a ha
  obtain ⟨q, hq, hqb⟩ := h b hb
  obtain ⟨hp', hpname⟩ := mem_place_of_memberAt hp
  obtain ⟨hq', hqname⟩ := mem_place_of_memberAt hq
  rw [region_eq hp, region_eq hq, length_littleEndian hpa, length_littleEndian hqb]
  refine apart_of_mem_place CField.align_pos hp' hq' ?_
  rintro rfl
  exact hne (hpname.symm.trans hqname)

/-- The members of a struct keep what was assigned to them. -/
theorem member_assignAll (he : sizeofStruct fields ≤ e.length) (h : ∀ a ∈ l, FitsMember fields a)
    (hnodup : (l.map Prod.fst).Nodup) {a : String × ℕ} (ha : a ∈ l) (tail : List UInt8) :
    member fields (assignAll fields e l ++ tail) a.1 = a.2 := by
  obtain ⟨p, hp, hlt⟩ := h a ha
  have hfits := region_fits he h
  have hload : load (assignAll fields e l) p.1 p.2.size = littleEndian p.2.size a.2 := by
    have hall := load_storeAll hfits (region_apart h hnodup) (List.mem_map_of_mem ha)
    rwa [region_eq hp, length_littleEndian hlt, ← assignAll_eq h] at hall
  have hend : p.1 + p.2.size ≤ (assignAll fields e l).length := by
    rw [assignAll_eq h, length_storeAll hfits]
    exact (end_le_sizeofStruct hp).trans he
  rw [member, hp]
  change ofLittleEndian (load _ p.1 p.2.size) = a.2
  rw [load_append hend, hload, ofLittleEndian_littleEndian hlt]

theorem length_assignAll (he : sizeofStruct fields ≤ e.length) (h : ∀ a ∈ l, FitsMember fields a) :
    (assignAll fields e l).length = e.length := by
  rw [assignAll_eq h, length_storeAll (region_fits he h)]

end Members

section Structs

/-- Both structs have every other member at the same place. -/
theorem memberAt_eventFields {name : String} (h : name ≠ "pad") :
    memberAt eventFields name = memberAt rawEventFields name := by
  have hevent : eventFields =
      rawEventFields.take 3 ++ ⟨.u8, "pad", some 3⟩ :: rawEventFields.drop 3 := rfl
  -- the declared padding ends where the key is aligned
  have hpad : place CField.size CField.align 13 (⟨.u8, "pad", some 3⟩ :: rawEventFields.drop 3) =
      (13, ⟨.u8, "pad", some 3⟩) :: place CField.size CField.align 13 (rawEventFields.drop 3) :=
    place_padding CField.align_pos [] rfl rfl
  have hraw : rawEventFields = rawEventFields.take 3 ++ rawEventFields.drop 3 := rfl
  have hend : extent CField.size CField.align 0 (rawEventFields.take 3) = 13 := rfl
  have hskip : ∀ places : List (ℕ × CField),
      ((13, (⟨.u8, "pad", some 3⟩ : CField)) :: places).find? (·.2.name = name) =
        places.find? (·.2.name = name) :=
    fun _ => List.find?_cons_of_neg (by simpa using h.symm)
  rw [memberAt, memberAt, hevent, place_append, hend, hpad, List.find?_append, hskip,
    ← List.find?_append, ← hend, ← place_append, ← hraw]

example : (place CField.size CField.align 0 rawEventFields).map Prod.fst = [0, 8, 12, 16] := rfl

theorem sizeofStruct_eventFields : sizeofStruct eventFields = sizeofStruct rawEventFields := rfl

variable (ts : UInt64) (tid : UInt32) (stage : UInt8) (key : UInt64)

theorem fits_eventFields : ∀ a ∈ [("ts", ts.toNat), ("tid", tid.toNat), ("stage", stage.toNat),
    ("key", key.toNat)], FitsMember eventFields a := by
  intro a ha
  simp only [List.mem_cons, List.not_mem_nil, or_false] at ha
  rcases ha with rfl | rfl | rfl | rfl
  · exact ⟨(0, ⟨.u64, "ts", none⟩), rfl, ts.toNat_lt⟩
  · exact ⟨(8, ⟨.u32, "tid", none⟩), rfl, tid.toNat_lt⟩
  · exact ⟨(12, ⟨.u8, "stage", none⟩), rfl, stage.toNat_lt⟩
  · exact ⟨(16, ⟨.u64, "key", none⟩), rfl, key.toNat_lt⟩

theorem length_eventBytes : (eventBytes ts tid stage key).length = sizeofStruct rawEventFields := by
  rw [eventBytes, length_assignAll (by simp) (fits_eventFields ts tid stage key),
    List.length_replicate, sizeofStruct_eventFields]

theorem ofBytes_eventBytes (tail : List UInt8) :
    RawEvent.ofBytes (eventBytes ts tid stage key ++ tail) = ⟨ts, tid, stage, key⟩ := by
  have hmember : ∀ name value, name ≠ "pad" → (name, value) ∈ [("ts", ts.toNat),
      ("tid", tid.toNat), ("stage", stage.toNat), ("key", key.toNat)] →
      member rawEventFields (eventBytes ts tid stage key ++ tail) name = value := by
    intro name value hname hmem
    rw [member, ← memberAt_eventFields hname]
    exact member_assignAll (by simp) (fits_eventFields ts tid stage key) (by simp) hmem tail
  rw [RawEvent.ofBytes, hmember "ts" ts.toNat (by decide) (by simp),
    hmember "tid" tid.toNat (by decide) (by simp),
    hmember "stage" stage.toNat (by decide) (by simp),
    hmember "key" key.toNat (by decide) (by simp), UInt64.ofNat_toNat, UInt32.ofNat_toNat,
    UInt8.ofNat_toNat, UInt64.ofNat_toNat]

end Structs

/-- Every matcher is fed the event once, in the world that the matchers before it left. -/
inductive Fed (e : RawEvent) :
    List (Matcher World) → World → List (Matcher World) → World → Prop
  | nil (w : World) : Fed e [] w [] w
  | cons {m : Matcher World} {ms ms' : List (Matcher World)} {w w' : World}
      (h : Fed e ms (m.feed e w).2 ms' w') : Fed e (m :: ms) w ((m.feed e w).1 :: ms') w'

theorem fed_feedAll (e : RawEvent) (ms : List (Matcher World)) (w : World) :
    Fed e ms w (Tracer.feedAll ms e w).1 (Tracer.feedAll ms e w).2 := by
  induction ms generalizing w with
  | nil => exact .nil w
  | cons m ms ih => exact .cons (ih _)

namespace Tracer

theorem handleRecord_of_lt (t : Tracer) {data : List UInt8}
    (h : data.length < sizeofStruct rawEventFields) : t.handleRecord data = t := if_pos h

theorem handleRecord_append (t : Tracer) (ts : UInt64) (tid : UInt32) (stage : UInt8)
    (key : UInt64) (tail : List UInt8) :
    t.handleRecord (eventBytes ts tid stage key ++ tail) =
      t.handleRingEvent ⟨ts, tid, stage, key⟩ := by
  have hlen : ¬ (eventBytes ts tid stage key ++ tail).length < sizeofStruct rawEventFields := by
    rw [List.length_append, length_eventBytes]
    omega
  rw [handleRecord, if_neg hlen, ofBytes_eventBytes]

/-- The records of the generated programs are handled like the events of the probes. -/
theorem handleRecords_eq (t : Tracer) (hits : List Hit) :
    (hits.map fun x => x.probe.bpfProgram.output x.firing).foldl handleRecord t =
      t.events (hits.map Hit.event) := by
  induction hits generalizing t with
  | nil => rfl
  | cons x hits ih =>
    have hone : t.handleRecord (x.probe.bpfProgram.output x.firing) =
        t.handleRingEvent x.event := by
      rw [BpfProgram.output, ProbeConfig.submit_bpfProgram, ← List.append_nil (eventBytes _ _ _ _),
        handleRecord_append]
      rfl
    rw [List.map_cons, List.foldl_cons, hone, ih]
    rfl

end Tracer

/-- A submitted event is decoded to itself, whatever follows it, and fed once to every matcher; a
shorter record changes nothing. -/
theorem decoder_agrees (t : Tracer) :
    (∀ ts tid stage key tail,
      RawEvent.ofBytes (eventBytes ts tid stage key ++ tail) = ⟨ts, tid, stage, key⟩ ∧
      Fed ⟨ts, tid, stage, key⟩ t.matchers t.world
        (t.handleRecord (eventBytes ts tid stage key ++ tail)).matchers
        (t.handleRecord (eventBytes ts tid stage key ++ tail)).world) ∧
    ∀ data : List UInt8, data.length < sizeofStruct rawEventFields → t.handleRecord data = t := by
  refine ⟨fun ts tid stage key tail => ⟨ofBytes_eventBytes ts tid stage key tail, ?_⟩,
    fun data => t.handleRecord_of_lt⟩
  rw [t.handleRecord_append]
  exact fed_feedAll _ t.matchers t.world

theorem decoder_agrees_two :
    RawEvent.ofBytes (eventBytes 1000 7 3 42 ++ [255]) = ⟨1000, 7, 3, 42⟩ ∧
      (Tracer.mk [.seq (.new "io" [0, 1]), .key (.new "req" [1, 2])]
          ⟨fun _ => none, fun _ => none, none, [], []⟩).handleRecord (.replicate 23 0) =
        ⟨[.seq (.new "io" [0, 1]), .key (.new "req" [1, 2])],
          ⟨fun _ => none, fun _ => none, none, [], []⟩⟩ :=
  have h := decoder_agrees ⟨[.seq (.new "io" [0, 1]), .key (.new "req" [1, 2])],
    ⟨fun _ => none, fun _ => none, none, [], []⟩⟩
  ⟨(h.1 1000 7 3 42 [255]).1, h.2 (.replicate 23 0) (by decide)⟩

end LensX
