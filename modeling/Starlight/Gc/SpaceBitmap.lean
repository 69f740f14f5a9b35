import Mathlib.Data.Nat.Bitwise

/-!
# The bitmaps of the small-object space

The collector keeps two bitmaps over the block space, one bit for every 16 bytes: the live bitmap
says which cells are allocated and the mark bitmap which ones the current collection has reached.
The bitmap itself is an array of 64-bit words. The words at and beyond `size` lie outside the
array: nothing is known about them, and only `test` can be made to read one. Addresses are natural
numbers.
-/

namespace Starlight.Gc

def wrappingSub (a b : ℕ) : ℕ := (a + 2 ^ 64 - b) % 2 ^ 64

theorem wrappingSub_of_le {a b : ℕ} (h : b ≤ a) (ha : a < 2 ^ 64) : wrappingSub a b = a - b := by
  rw [wrappingSub, show a + 2 ^ 64 - b = a - b + 2 ^ 64 by omega, Nat.add_mod_right,
    Nat.mod_eq_of_lt (by omega)]

/-- `round_down` of the collector: it clears the bits of `n`, not those below `n`. -/
def roundDown (x n : ℕ) : ℕ := x - (x &&& n)

def roundUp (x n : ℕ) : ℕ := roundDown (x + n - 1) n

/-- `SpaceBitmap`: the range it covers starts at `heapBegin`, and `size` counts its words. -/
structure SpaceBitmap where
  heapBegin : ℕ
  size : ℕ
  word : ℕ → BitVec 64

namespace SpaceBitmap

/-- `ALIGN`: the number of bytes that share a bit. -/
def ALIGN : ℕ := 16

def BITS_PER_INTPTR : ℕ := 64

def offsetToIndex (offset : ℕ) : ℕ := offset / ALIGN / BITS_PER_INTPTR

def offsetBitIndex (offset : ℕ) : ℕ := offset / ALIGN % BITS_PER_INTPTR

def offsetToMask (offset : ℕ) : BitVec 64 := BitVec.twoPow 64 (offsetBitIndex offset)

def computeBitmapSize (capacity : ℕ) : ℕ :=
  roundUp capacity (ALIGN * BITS_PER_INTPTR) / (ALIGN * BITS_PER_INTPTR)

/-- `create`: an anonymous mapping, all zero in the bitmap. -/
def create (heapBegin capacity : ℕ) (beyond : ℕ → BitVec 64) : SpaceBitmap where
  heapBegin := heapBegin
  size := computeBitmapSize capacity
  word i := if i < computeBitmapSize capacity then 0#64 else beyond i

variable (b : SpaceBitmap) (obj : ℕ)

/-- The offset of an object from the start of the covered range. -/
def offset : ℕ := wrappingSub obj b.heapBegin

def hasAddress : Bool := decide (offsetToIndex (b.offset obj) < b.size)

def test : Bool :=
  decide (b.word (offsetToIndex (b.offset obj)) &&& offsetToMask (b.offset obj) ≠ 0#64)

/-- `modify`: the word is loaded, and stored with the bit of the object set or cleared. The result
says whether the bit was set before. -/
def modify (b : SpaceBitmap) (setBit : Bool) (obj : ℕ) : Bool × SpaceBitmap :=
  let index := offsetToIndex (b.offset obj)
  let mask := offsetToMask (b.offset obj)
  let oldWord := b.word index
  let newWord := if setBit then oldWord ||| mask else oldWord &&& ~~~mask
  (decide (oldWord &&& mask ≠ 0#64), { b with word := Function.update b.word index newWord })

def set : SpaceBitmap := (b.modify true obj).2

def clear : Bool × SpaceBitmap := b.modify false obj

/-! ### Bits and granules -/

/-- The 16 bytes an object starts in, counted from the start of the covered range. -/
def granule : ℕ := b.offset obj / ALIGN

def bit (g : ℕ) : Bool := (b.word (g / BITS_PER_INTPTR)).getLsbD (g % BITS_PER_INTPTR)

variable {b obj}

@[simp] theorem size_set : (b.set obj).size = b.size := rfl

@[simp] theorem granule_set (a : ℕ) : (b.set obj).granule a = b.granule a := rfl

@[simp] theorem hasAddress_set (a : ℕ) : (b.set obj).hasAddress a = b.hasAddress a := rfl

theorem and_twoPow_ne_zero (w : BitVec 64) {k : ℕ} (hk : k < 64) :
    w &&& BitVec.twoPow 64 k ≠ 0#64 ↔ w.getLsbD k = true := by
  rw [BitVec.and_twoPow]
  cases w.getLsbD k with
  | false => simp
  | true =>
    simp only [if_true, iff_true]
    intro h
    have hbit : (BitVec.twoPow 64 k).getLsbD k = false := by rw [h]; simp
    simp [hk] at hbit

theorem offsetBitIndex_lt (o : ℕ) : offsetBitIndex o < 64 := Nat.mod_lt _ (by decide)

theorem test_eq_bit (b : SpaceBitmap) (obj : ℕ) : b.test obj = b.bit (b.granule obj) := by
  rw [Bool.eq_iff_iff, test, decide_eq_true_iff, offsetToMask,
    and_twoPow_ne_zero _ (offsetBitIndex_lt _)]
  rfl

theorem clear_fst (b : SpaceBitmap) (obj : ℕ) : (b.clear obj).1 = b.test obj := rfl

theorem bit_modify (b : SpaceBitmap) (v : Bool) (obj : ℕ) (g : ℕ) :
    (b.modify v obj).2.bit g = if g = b.granule obj then v else b.bit g := by
  have hidx : offsetToIndex (b.offset obj) = b.granule obj / 64 := rfl
  have hmask : offsetToMask (b.offset obj) = BitVec.twoPow 64 (b.granule obj % 64) := rfl
  have hlt : g % 64 < 64 := Nat.mod_lt _ (by decide)
  simp only [bit, modify, BITS_PER_INTPTR, hidx, hmask]
  by_cases hword : g / 64 = b.granule obj / 64
  · rw [← hword, Function.update_self]
    by_cases hg : g = b.granule obj
    · subst hg
      cases v <;> simp [hlt]
    · have hbit : g % 64 ≠ b.granule obj % 64 := fun h => hg (by omega)
      cases v <;> simp [hlt, hbit, hg]
  · have hg : g ≠ b.granule obj := fun h => hword (by rw [h])
    rw [Function.update_of_ne hword, if_neg hg]

theorem bit_set (b : SpaceBitmap) (obj : ℕ) (g : ℕ) :
    (b.set obj).bit g = (decide (g = b.granule obj) || b.bit g) := by
  rw [set, bit_modify]
  split <;> simp [*]

theorem bit_clear (b : SpaceBitmap) (obj : ℕ) (g : ℕ) :
    (b.clear obj).2.bit g = (!decide (g = b.granule obj) && b.bit g) := by
  rw [clear, bit_modify]
  split <;> simp [*]

theorem hasAddress_iff (b : SpaceBitmap) (obj : ℕ) :
    b.hasAddress obj = true ↔ b.granule obj / 64 < b.size := decide_eq_true_iff

theorem word_modify_of_not_index {i : ℕ} (v : Bool) (h : i ≠ b.granule obj / 64) :
    (b.modify v obj).2.word i = b.word i :=
  Function.update_of_ne h _ _

/-! ### The covered range -/

theorem granule_of_le (h : b.heapBegin ≤ obj) (hlt : obj < 2 ^ 64) :
    b.granule obj = (obj - b.heapBegin) / 16 := by
  rw [granule, offset, wrappingSub_of_le h hlt]
  rfl

theorem hasAddress_of_lt (h : b.heapBegin ≤ obj) (hlt : obj < 2 ^ 64)
    (hsize : obj - b.heapBegin < 1024 * b.size) : b.hasAddress obj = true := by
  rw [hasAddress_iff, granule_of_le h hlt]
  omega

theorem granule_ne {a c : ℕ} (ha : b.heapBegin ≤ a) (hac : a + 16 ≤ c) (hc : c < 2 ^ 64) :
    b.granule a ≠ b.granule c := by
  rw [granule_of_le ha (by omega), granule_of_le (by omega) hc]
  omega

theorem roundDown_1024 (x : ℕ) : roundDown x 1024 = x - x / 1024 % 2 * 1024 := by
  have hand : x &&& 2 ^ 10 = (x.testBit 10).toNat * 2 ^ 10 := Nat.and_two_pow x 10
  have hbit : (x.testBit 10).toNat = x / 1024 % 2 := by
    rw [Nat.toNat_testBit]
  have hle : x &&& 1024 = x / 1024 % 2 * 1024 := by rw [← hbit]; exact hand
  rw [roundDown, hle]

theorem le_computeBitmapSize {capacity n : ℕ} (h : 4096 * n ≤ capacity) :
    4096 * n ≤ 1024 * computeBitmapSize capacity := by
  have hsize : computeBitmapSize capacity = roundDown (capacity + 1023) 1024 / 1024 := rfl
  rw [hsize, roundDown_1024]
  omega

end SpaceBitmap

end Starlight.Gc
