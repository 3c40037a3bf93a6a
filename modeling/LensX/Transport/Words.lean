import LensX.Model.RingBuffer
import LensX.System.Decode
import Mathlib.Data.Nat.Bitwise

/-! # Header words

The two flags lie above the length of a sample. The consumer finds them and the length
in the word that the kernel has stored.
-/

namespace LensX

open CommitLog

theorem toNat_roundupLen (w : UInt32) : (roundupLen w).toNat = (w.toNat % 2 ^ 30 + 15) / 8 * 8 := by
  have hlt : w.toNat % 2 ^ 30 < 2 ^ 30 := Nat.mod_lt _ (by decide)
  have hmask : (w <<< 2 >>> 2).toNat = w.toNat % 2 ^ 30 := by
    simp only [UInt32.toNat_shiftRight, UInt32.toNat_shiftLeft, UInt32.reduceToNat, Nat.reduceMod,
      Nat.shiftLeft_eq, Nat.shiftRight_eq_div_pow]
    omega
  simp only [roundupLen, hdrSz, UInt32.toNat_mul, UInt32.toNat_div, UInt32.toNat_add, hmask,
    UInt32.reduceToNat]
  omega

section Flags

variable {n : ℕ} (hn : n < 2 ^ 30)
include hn

theorem toNat_ofNat_len : (UInt32.ofNat n).toNat = n :=
  UInt32.toNat_ofNat_of_lt' (hn.trans (by decide))

theorem toNat_or_busyBit : (UInt32.ofNat n ||| busyBit).toNat = 2 ^ 31 + n := by
  rw [UInt32.toNat_or, toNat_ofNat_len hn, Nat.or_comm]
  exact (Nat.two_pow_add_eq_or_of_lt (i := 31) (hn.trans (by decide)) 1).symm

theorem toNat_or_discardBit : (UInt32.ofNat n ||| discardBit).toNat = 2 ^ 30 + n := by
  rw [UInt32.toNat_or, toNat_ofNat_len hn, Nat.or_comm]
  exact (Nat.two_pow_add_eq_or_of_lt hn 1).symm

end Flags

/-- A word below the next bit has a bit if and only if it reaches it. -/
theorem and_eq_zero_iff_lt {w bit : UInt32} {i : ℕ} (hbit : bit.toNat = 2 ^ i)
    (hw : w.toNat < 2 ^ (i + 1)) : w &&& bit = 0 ↔ w.toNat < 2 ^ i := by
  rw [← UInt32.toNat_inj, UInt32.toNat_and, hbit, UInt32.toNat_zero, Nat.and_two_pow]
  rcases Nat.lt_or_ge w.toNat (2 ^ i) with hlt | hge
  · simp [Nat.testBit_lt_two_pow hlt, hlt]
  · simp [Nat.testBit_of_two_pow_le_and_two_pow_add_one_gt hge hw, hge]

section Words

variable {α : Type*} {bytes : α → List UInt8} {a : α} (hlen : (bytes a).length < 2 ^ 30)
include hlen

theorem toNat_lenWord (t : Status) : (lenWord bytes a t).toNat = (bytes a).length +
    (if t.Finished then 0 else 2 ^ 31) + (if t = .discarded then 2 ^ 30 else 0) := by
  cases t <;> rw [lenWord, sampleLen]
  case reserved | written => rw [toNat_or_busyBit hlen, Nat.add_comm]; rfl
  case submitted => rw [toNat_ofNat_len hlen]; rfl
  case discarded => rw [toNat_or_discardBit hlen, Nat.add_comm]; rfl

theorem lenWord_and_busyBit (t : Status) : lenWord bytes a t &&& busyBit = 0 ↔ t.Finished := by
  rw [and_eq_zero_iff_lt (i := 31) rfl (lenWord bytes a t).toNat_lt, toNat_lenWord hlen]
  cases t <;> simp only [Status.Finished] <;> simp <;> omega

theorem lenWord_and_discardBit {t : Status} (ht : t.Finished) :
    lenWord bytes a t &&& discardBit = 0 ↔ t = .submitted := by
  have hword := toNat_lenWord hlen t
  rw [if_pos ht, Nat.add_zero] at hword
  rw [and_eq_zero_iff_lt (i := 30) rfl (by split at hword <;> omega), hword]
  rcases ht with rfl | rfl
  · simpa using hlen
  · simp

theorem roundupLen_lenWord {t : Status} (ht : t.Finished) :
    (roundupLen (lenWord bytes a t)).toNat = space bytes a := by
  rcases ht with rfl | rfl
  · rfl
  · simp only [space, toNat_roundupLen, lenWord, sampleLen, toNat_or_discardBit hlen,
      toNat_ofNat_len hlen]
    omega

theorem space_eq : space bytes a = ((bytes a).length + 15) / 8 * 8 := by
  rw [space, toNat_roundupLen, sampleLen, toNat_ofNat_len hlen, Nat.mod_eq_of_lt hlen]

theorem length_add_le_space : 8 + (bytes a).length ≤ space bytes a := by
  rw [space_eq hlen]
  omega

end Words

end LensX
