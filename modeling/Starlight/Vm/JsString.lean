import Starlight.Lib.Text
import Starlight.Vm.IntegerConversion
import Starlight.Vm.IntegerValues

/-!
# Strings of the engine

A string is UTF-8, and its length is the number of its bytes, a `u32`. The functions of its prototype
convert their positions to `i32` and count in characters or in units of UTF-16, each in its own way. The
arithmetic is that of a release build, which wraps around.
-/

namespace Starlight

structure JsString where
  string : List Char
  fits : utf8Length string < 2 ^ 32

namespace JsString

def len (s : JsString) : ℕ := utf8Length s.string

theorem length_le_len (s : JsString) : s.string.length ≤ s.len := length_le_utf8Length s.string

theorem length_lt (s : JsString) : s.string.length < 2 ^ 32 := s.length_le_len.trans_lt s.fits

end JsString

/-- `x as usize` of an `i32`, or of the difference of two lengths. -/
def asUsize (x : ℤ) : ℕ := (IntType.u64.cast x).toNat

/-- `to_int32` of an integer. -/
def toI32 (p : ℤ) : ℤ := (F64.ofInt p).toI32.toInt

def newPosition (n : ℕ) : Boxed := .new .u32 (IntType.u32.cast n)

/-- An integer within `0`, …, `n`. -/
def clampTo (p : ℤ) (n : ℕ) : ℕ := (min (max p 0) n).toNat

section

variable {x p : ℤ} {n : ℕ}

theorem toI32_eq (p : ℤ) : toI32 p = max (-2 ^ 31) (min p (2 ^ 31 - 1)) := by
  rw [toI32, F64.ofInt, F64.toI32, F64.truncRat_intCast, BitVec.toInt_ofInt, Int.bmod_def]
  omega

theorem asUsize_of_nonneg (h : 0 ≤ x) (hlt : x < 2 ^ 64) : asUsize x = x.toNat := by
  unfold asUsize IntType.cast
  simp only [IntType.signed, IntType.bits, Bool.false_eq_true, if_false]
  omega

theorem asUsize_of_neg (h : x < 0) (hle : -2 ^ 32 ≤ x) : (asUsize x : ℤ) = 2 ^ 64 + x := by
  unfold asUsize IntType.cast
  simp only [IntType.signed, IntType.bits, Bool.false_eq_true, if_false]
  omega

theorem i32_cast_of_range (hlow : -2 ^ 31 ≤ x) (hhigh : x < 2 ^ 31) : IntType.i32.cast x = x := by
  unfold IntType.cast
  simp only [IntType.signed, IntType.bits, if_true, Int.bmod_def]
  omega

theorem i32_cast (n : ℕ) (h : n < 2 ^ 32) :
    IntType.i32.cast n = if n < 2 ^ 31 then (n : ℤ) else n - 2 ^ 32 := by
  unfold IntType.cast
  simp only [IntType.signed, IntType.bits, if_true, Int.bmod_def]
  split <;> omega

theorem toI32_range (p : ℤ) : -2 ^ 31 ≤ toI32 p ∧ toI32 p < 2 ^ 31 := by
  rw [toI32_eq]
  omega

theorem bmod_asUsize {x : ℤ} (hlow : -2 ^ 31 ≤ x) (hhigh : x < 2 ^ 31) :
    (asUsize x : ℤ).bmod (2 ^ 32) = x := by
  rw [Int.bmod_def]
  rcases lt_or_ge x 0 with h | h
  · rw [asUsize_of_neg h (by omega)]
    omega
  · rw [asUsize_of_nonneg h (by omega)]
    omega

theorem isNumberOf_newPosition_iff {y : ℤ} :
    (newPosition n).IsNumberOf y ↔ (n : ℤ).bmod (2 ^ 32) = y := by
  have hrange := IntType.u32.inRange_cast n
  rw [newPosition, isNumberOf_new_iff_bmod (by decide) hrange]
  have hmod : (IntType.u32.cast n).bmod (2 ^ 32) = (n : ℤ).bmod (2 ^ 32) :=
    Int.emod_bmod (n : ℤ) (2 ^ 32)
  rw [hmod]

end

end Starlight
