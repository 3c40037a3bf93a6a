import Mathlib.Data.Nat.Digits.Lemmas
import LensX.General.Layout
import LensX.Model.Generator
import LensX.Model.Tracer

/-! # Records of the ring buffer

The bytes that a generated function submits and what `handle_ring_event` makes of them.
Both structs are laid out with natural alignment, and numbers are little-endian.
-/

namespace LensX

open Layout

def CType.size : CType → ℕ
  | .u8 => 1
  | .u32 => 4
  | .u64 => 8

namespace CField

def size (f : CField) : ℕ := f.array.getD 1 * f.type.size

/-- An array is aligned like its elements. -/
def align (f : CField) : ℕ := f.type.size

end CField

/-- The members of `RawEvent`. -/
def rawEventFields : List CField :=
  [⟨.u64, "ts", none⟩, ⟨.u32, "tid", none⟩, ⟨.u8, "stage", none⟩, ⟨.u64, "key", none⟩]

/-- `sizeof` of a struct. -/
def sizeofStruct (fields : List CField) : ℕ := recordSize CField.size CField.align fields

/-- The member of a name, with its offset. -/
def memberAt (fields : List CField) (name : String) : Option (ℕ × CField) :=
  (place CField.size CField.align 0 fields).find? (·.2.name = name)

def littleEndian (n value : ℕ) : List UInt8 := (Nat.digitsAppend 256 n value).map .ofNat

def ofLittleEndian (bytes : List UInt8) : ℕ := Nat.ofDigits 256 (bytes.map (·.toNat))

/-- `e.name = value`. Without such a member the source does not compile. -/
def assign (fields : List CField) (e : List UInt8) (name : String) (value : ℕ) : List UInt8 :=
  match memberAt fields name with
  | some (offset, f) => store e offset (littleEndian f.size value)
  | none => e

/-- `e->name`. -/
def member (fields : List CField) (e : List UInt8) (name : String) : ℕ :=
  match memberAt fields name with
  | some (offset, f) => ofLittleEndian (load e offset f.size)
  | none => 0

/-- Assignments to members one after another. -/
def assignAll (fields : List CField) (e : List UInt8) (l : List (String × ℕ)) : List UInt8 :=
  l.foldl (fun e a => assign fields e a.1 a.2) e

/-- The generated `struct event` after `= {}` and the assignments to its members. -/
def eventBytes (ts : UInt64) (tid : UInt32) (stage : UInt8) (key : UInt64) : List UInt8 :=
  assignAll eventFields (.replicate (sizeofStruct eventFields) 0)
    [("ts", ts.toNat), ("tid", tid.toNat), ("stage", stage.toNat), ("key", key.toNat)]

/-- The record that a generated function submits when it runs. -/
def BpfProgram.output (pr : BpfProgram) (x : Firing) : List UInt8 :=
  eventBytes (pr.submit x).ts (pr.submit x).tid (pr.submit x).stage (pr.submit x).key

/-- The cast of the data and the copy of the members. -/
def RawEvent.ofBytes (data : List UInt8) : RawEvent where
  ts := .ofNat (member rawEventFields data "ts")
  tid := .ofNat (member rawEventFields data "tid")
  stage := .ofNat (member rawEventFields data "stage")
  key := .ofNat (member rawEventFields data "key")

/-- `handle_ring_event` on the bytes of a record. -/
def Tracer.handleRecord (t : Tracer) (data : List UInt8) : Tracer :=
  if data.length < sizeofStruct rawEventFields then t else t.handleRingEvent (.ofBytes data)

end LensX
