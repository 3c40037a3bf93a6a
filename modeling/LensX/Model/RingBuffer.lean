import LensX.General.Circular
import LensX.General.CommitLog
import LensX.Model.Record

/-! # The ring buffer

`ringbuf_process_ring` of the library that `main` polls, one access to the shared
memory at a time, and what the kernel may do to the memory between two accesses:
any number of producers reserve, write and finish records in any order.
-/

namespace LensX

open Circular CommitLog

/-- `BPF_RINGBUF_BUSY_BIT`. -/
def busyBit : UInt32 := 0x80000000

/-- `BPF_RINGBUF_DISCARD_BIT`. -/
def discardBit : UInt32 := 0x40000000

/-- `BPF_RINGBUF_HDR_SZ`. -/
def hdrSz : UInt32 := 8

def roundupLen (len : UInt32) : UInt32 := (len <<< 2 >>> 2 + hdrSz + 7) / 8 * 8

/-- The memory that is shared with the kernel. -/
structure Ring where
  mask : UInt64
  data : ℕ → UInt8
  consumerPos : UInt64
  producerPos : UInt64

namespace Ring

/-- `max_entries`. -/
def size (r : Ring) : ℕ := r.mask.toNat + 1

/-- Bytes at an offset into the data pages, which are mapped twice in a row. -/
def bytes (r : Ring) (offset n : ℕ) : List UInt8 := load r.size r.data offset n

/-- `*len_ptr`. -/
def lenAt (r : Ring) (pos : UInt64) : UInt32 :=
  .ofNat (ofLittleEndian (r.bytes (pos &&& r.mask).toNat 4))

def sampleAt (r : Ring) (pos : UInt64) (len : UInt32) : List UInt8 :=
  r.bytes ((pos &&& r.mask).toNat + hdrSz.toNat) len.toNat

end Ring

/-- Where the consumer stands: before the load of the producer position, at the test of the inner
loop, before the call for the sample at `start`, before the store of its own position. -/
inductive Pc where
  | idle
  | outer (consPos : UInt64) (cnt : ℤ)
  | inner (consPos prodPos : UInt64) (gotNewData : Bool) (cnt : ℤ)
  | sample (start consPos prodPos : UInt64) (len : UInt32) (cnt : ℤ)
  | release (consPos prodPos : UInt64) (err : Option Int32) (cnt : ℤ)
  | returned (res : ℤ)
  deriving DecidableEq, Repr

/-- A record is reserved for a value of `α`; the list of records is history. -/
structure RingState (α σ : Type*) where
  ring : Ring
  records : List (Entry α)
  pc : Pc
  ctx : σ

namespace RingState

variable {α σ : Type*}

/-- The next step of `ringbuf_process_ring` with a callback. -/
def process (cb : σ → List UInt8 → σ × Int32) (s : RingState α σ) : RingState α σ :=
  match s.pc with
  | .idle => { s with pc := .outer s.ring.consumerPos 0 }
  | .outer consPos cnt => { s with pc := .inner consPos s.ring.producerPos false cnt }
  | .inner consPos prodPos gotNewData cnt =>
    if consPos < prodPos then
      let len := s.ring.lenAt consPos
      -- sample not committed yet
      if len &&& busyBit ≠ 0 then { s with pc := .returned cnt }
      else
        let next := consPos + (roundupLen len).toUInt64
        { s with pc := .sample consPos next prodPos len cnt }
    else if gotNewData then { s with pc := .outer consPos cnt }
    else { s with pc := .returned cnt }
  | .sample start consPos prodPos len cnt =>
    if len &&& discardBit = 0 then
      let (ctx, err) := cb s.ctx (s.ring.sampleAt start len)
      if err < 0 then { s with pc := .release consPos prodPos (some err) cnt, ctx := ctx }
      else { s with pc := .release consPos prodPos none (cnt + 1), ctx := ctx }
    else { s with pc := .release consPos prodPos none cnt }
  | .release consPos prodPos err cnt =>
    { s with
      ring := { s.ring with consumerPos := consPos }
      pc := err.elim (.inner consPos prodPos true cnt) fun err => .returned err.toInt }
  | .returned _ => { s with pc := .idle }

end RingState

section Kernel

variable {α σ : Type*} (bytes : α → List UInt8)

/-- The length of a sample, without flags. -/
def sampleLen (a : α) : UInt32 := .ofNat (bytes a).length

/-- The space of a record with its header. -/
def space (a : α) : ℕ := (roundupLen (sampleLen bytes a)).toNat

/-- The position at which a record begins. -/
def position (records : List (Entry α)) (i : ℕ) : ℕ :=
  ((records.take i).map fun e => space bytes e.value).sum

/-- The first word of a record. -/
def lenWord (a : α) : Status → UInt32
  | .reserved | .written => sampleLen bytes a ||| busyBit
  | .submitted => sampleLen bytes a
  | .discarded => sampleLen bytes a ||| discardBit

/-- The data after a record at a position has changed its status. -/
def Ring.change (r : Ring) (p : ℕ) (a : α) : Status → ℕ → UInt8
  | .reserved => r.data
  | .written => store r.size r.data (p + hdrSz.toNat) (bytes a)
  | .submitted => store r.size r.data p (littleEndian 4 (lenWord bytes a .submitted).toNat)
  | .discarded => store r.size r.data p (littleEndian 4 (lenWord bytes a .discarded).toNat)

/-- What the kernel does for the programs. A record is reserved only if it fits behind the others;
`pgOff` is the second word of its header. -/
inductive KernelStep (allowed : α → Prop) : RingState α σ → RingState α σ → Prop where
  | reserve (s : RingState α σ) (a : α) (pgOff : List UInt8) (hallowed : allowed a)
    (hpg : pgOff.length = 4) (hlen : (bytes a).length < 2 ^ 30)
    (hroom : s.ring.producerPos.toNat + space bytes a ≤ s.ring.consumerPos.toNat + s.ring.size)
    (hpos : s.ring.producerPos.toNat + space bytes a < 2 ^ 64) :
    KernelStep allowed s { s with
      ring := { s.ring with
        data := store s.ring.size s.ring.data s.ring.producerPos.toNat
          (littleEndian 4 (lenWord bytes a .reserved).toNat ++ pgOff)
        producerPos := s.ring.producerPos + .ofNat (space bytes a) }
      records := s.records ++ [⟨a, .reserved⟩] }
  | change (s : RingState α σ) {i : ℕ} {e : Entry α} {t : Status} (he : s.records[i]? = some e)
    (ht : e.status.Next t) :
    KernelStep allowed s { s with
      ring := { s.ring with data := s.ring.change bytes (position bytes s.records i) e.value t }
      records := s.records.set i ⟨e.value, t⟩ }

/-- One party moves. -/
inductive RingStep (allowed : α → Prop) (cb : σ → List UInt8 → σ × Int32) :
    RingState α σ → RingState α σ → Prop where
  | kernel {s s' : RingState α σ} (h : KernelStep bytes allowed s s') : RingStep allowed cb s s'
  | consumer (s : RingState α σ) : RingStep allowed cb s (s.process cb)

/-- A fresh ring of a size that is a power of two. -/
structure RingState.Fresh (s : RingState α σ) : Prop where
  size : ∃ k, s.ring.size = 2 ^ k
  consumerPos : s.ring.consumerPos = 0
  producerPos : s.ring.producerPos = 0
  records : s.records = []
  pc : s.pc = .idle

end Kernel

end LensX
