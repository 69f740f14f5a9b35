import Mathlib.Tactic.IntervalCases
import Starlight.Lib.BinaryFloat
import Starlight.Vm.Value

/-!
# Doubles

The numbers of `F64` that a machine has are those of `binary64`. `ofBits` and `toBits` go between them and
the 64 bits of memory, `ofRat` rounds an exact result, and the arithmetic of the machine is the exact
operation followed by `ofRat`, with the rules of the standard for zeros, infinities and NaNs.
-/

namespace Starlight

/-- `f64`. -/
def binary64 : BinaryFormat := ⟨52, 11, -1074⟩

namespace F64

/-! ### Bits -/

def ofBits (bits : BitVec 64) : F64 :=
  let M := bits.toNat % 2 ^ 63
  if binary64.infinity < M then .nan
  else if M = binary64.infinity then if bits.msb then .negInf else .posInf
  else if bits.msb then if M = 0 then .negZero else .fin (-binary64.value M)
  else .fin (binary64.value M)

/-- `to_bits`. There are many NaNs in memory; this is `pure_nan`. -/
def toBits : F64 → BitVec 64
  | .nan => 0x7ff8000000000000#64
  | .posInf => 0x7ff0000000000000#64
  | .negInf => 0xfff0000000000000#64
  | .negZero => 0x8000000000000000#64
  | .fin q => BitVec.ofNat 64 ((if q < 0 then 2 ^ 63 else 0) + binary64.encode |q|)

/-- The bits are those of a NaN: `x != x`. -/
def isNanBits (bits : BitVec 64) : Bool := (ofBits bits).isNan

/-- The double is one that a machine has. -/
def IsDouble (x : F64) : Prop := ∀ q, x = .fin q → binary64.Representable q

theorem infinity_binary64 : binary64.infinity = 0x7ff0000000000000 := by
  decide

theorem isNanBits_iff (bits : BitVec 64) :
    isNanBits bits = true ↔ 0x7ff0000000000000 < bits.toNat % 2 ^ 63 := by
  unfold isNanBits ofBits
  rw [infinity_binary64]
  dsimp only
  split
  · next h => exact iff_of_true rfl h
  next h =>
    refine iff_of_false ?_ h
    split
    · split <;> exact Bool.false_ne_true
    · split
      · split <;> exact Bool.false_ne_true
      · exact Bool.false_ne_true

theorem ofBits_toBits {q : ℚ} (h : binary64.Representable q) :
    isNanBits (toBits (.fin q)) = false ∧ ofBits (toBits (.fin q)) = .fin q := by
  obtain ⟨hlt, hval⟩ := h.value_encode
  set M := binary64.encode |q|
  have hinf := infinity_binary64
  have hbits : (toBits (.fin q)).toNat = (if q < 0 then 2 ^ 63 else 0) + M := by
    change (BitVec.ofNat 64 _).toNat = _
    rw [BitVec.toNat_ofNat]
    split <;> omega
  have hmod : (toBits (.fin q)).toNat % 2 ^ 63 = M := by
    rw [hbits]
    split <;> omega
  have hmsb : (toBits (.fin q)).msb = decide (q < 0) := by
    rw [BitVec.msb_eq_decide, hbits]
    by_cases hq : q < 0
    · rw [if_pos hq, decide_eq_true hq]
      exact decide_eq_true (by omega)
    · rw [if_neg hq, decide_eq_false hq]
      exact decide_eq_false (by omega)
  constructor
  · rw [← Bool.not_eq_true, isNanBits_iff, hmod]
    omega
  unfold ofBits
  rw [hmod, hmsb]
  dsimp only
  rw [if_neg (by omega), if_neg (by omega)]
  by_cases hq : q < 0
  · -- the magnitude of a negative number is not zero
    have hM : M ≠ 0 := by
      intro hM
      rw [hM, BinaryFormat.value_zero] at hval
      exact hq.ne (abs_eq_zero.mp hval.symm)
    rw [decide_eq_true hq, if_pos rfl, if_neg hM, hval, abs_of_neg hq, neg_neg]
  · rw [decide_eq_false hq, if_neg Bool.false_ne_true, hval, abs_of_nonneg (not_lt.mp hq)]

/-! ### Rounding -/

/-- The double nearest to an exact result. A result too small for the format keeps its sign. -/
def ofRat (q : ℚ) : F64 :=
  let M := binary64.encode |q|
  if binary64.infinity ≤ M then if q < 0 then .negInf else .posInf
  else if M = 0 then if q < 0 then .negZero else .fin 0
  else .fin (if q < 0 then -binary64.value M else binary64.value M)

theorem ofRat_of_representable {q : ℚ} (h : binary64.Representable q) : ofRat q = .fin q := by
  obtain ⟨hlt, hval⟩ := h.value_encode
  unfold ofRat
  dsimp only
  rw [if_neg (not_le.mpr hlt), hval]
  split
  · next hz =>
    rw [hz, BinaryFormat.value_zero] at hval
    obtain rfl := abs_eq_zero.mp hval.symm
    rw [if_neg (lt_irrefl _)]
  · split
    · next hneg => rw [abs_of_neg hneg, neg_neg]
    · next hpos => rw [abs_of_nonneg (not_lt.mp hpos)]

theorem representable_intCast {i : ℤ} (h : i.natAbs < 2 ^ 53) : binary64.Representable i := by
  obtain ⟨M, hM, hval⟩ : binary64.Representable i.natAbs :=
    BinaryFormat.representable_natCast h (by decide) (by decide)
  refine ⟨M, hM, ?_⟩
  rw [hval, Nat.abs_cast, Nat.cast_natAbs, Int.cast_abs]

theorem ofRat_intCast {i : ℤ} (h : i.natAbs < 2 ^ 53) : ofRat i = ofInt i :=
  ofRat_of_representable (representable_intCast h)

theorem isDouble_ofRat (q : ℚ) : (ofRat q).IsDouble := by
  intro v hv
  unfold ofRat at hv
  dsimp only at hv
  split at hv
  · split at hv <;> cases hv
  next hlt =>
  have hnonneg : 0 ≤ binary64.value (binary64.encode |q|) := BinaryFormat.value_nonneg _
  split at hv
  · split at hv
    · cases hv
    · cases hv
      exact ⟨0, by decide, by rw [BinaryFormat.value_zero, abs_zero]⟩
  · cases hv
    refine ⟨binary64.encode |q|, not_le.mp hlt, ?_⟩
    split
    · rw [abs_neg, abs_of_nonneg hnonneg]
    · rw [abs_of_nonneg hnonneg]

theorem ofRat_le {q b : ℚ} (hq : 0 ≤ q) (hb : binary64.Representable b) (h : q ≤ b) :
    ∃ v, ofRat q = .fin v ∧ 0 ≤ v ∧ v ≤ b := by
  obtain ⟨hlt, hval⟩ := hb.value_encode
  rw [abs_of_nonneg (hq.trans h)] at hlt hval
  have hle : binary64.encode q ≤ binary64.encode b := BinaryFormat.encode_mono h
  refine ⟨binary64.value (binary64.encode q), ?_, BinaryFormat.value_nonneg _,
    (BinaryFormat.value_mono hle).trans hval.le⟩
  unfold ofRat
  dsimp only
  rw [abs_of_nonneg hq, if_neg (not_le.mpr (hle.trans_lt hlt)), if_neg (not_lt.mpr hq), if_neg (not_lt.mpr hq)]
  split
  · next hz => rw [hz, BinaryFormat.value_zero]
  · rfl

theorem le_ofRat {a q : ℚ} (ha : binary64.Representable a) (hpos : 0 ≤ a) (h : a ≤ q) :
    ofRat q = .posInf ∨ ∃ v, ofRat q = .fin v ∧ a ≤ v := by
  obtain ⟨-, hval⟩ := ha.value_encode
  rw [abs_of_nonneg hpos] at hval
  have hq : ¬ q < 0 := not_lt.mpr (hpos.trans h)
  have hle : a ≤ binary64.value (binary64.encode q) :=
    hval.symm.le.trans (BinaryFormat.value_mono (BinaryFormat.encode_mono h))
  unfold ofRat
  dsimp only
  rw [abs_of_nonneg (hpos.trans h), if_neg hq, if_neg hq, if_neg hq]
  split
  · exact Or.inl rfl
  · refine Or.inr ⟨_, ?_, hle⟩
    split
    · next hz => rw [hz, BinaryFormat.value_zero]
    · rfl

theorem ofRat_neg {q : ℚ} (hq : 0 < q) :
    ofRat (-q) = match ofRat q with
      | .posInf => .negInf
      | .fin v => if v = 0 then .negZero else .fin (-v)
      | x => x := by
  unfold ofRat
  dsimp only
  rw [abs_neg, abs_of_pos hq, if_pos (neg_neg_of_pos hq), if_pos (neg_neg_of_pos hq), if_pos (neg_neg_of_pos hq),
    if_neg hq.not_gt, if_neg hq.not_gt, if_neg hq.not_gt]
  by_cases hinf : binary64.infinity ≤ binary64.encode q
  · rw [if_pos hinf, if_pos hinf]
  rw [if_neg hinf, if_neg hinf]
  by_cases hz : binary64.encode q = 0
  · rw [if_pos hz, if_pos hz]
    rfl
  · rw [if_neg hz, if_neg hz]
    exact (if_neg (BinaryFormat.value_pos (Nat.pos_of_ne_zero hz)).ne').symm

/-! ### Arithmetic -/

/-- The sign bit. -/
def isNeg : F64 → Bool
  | .negInf | .negZero => true
  | .fin q => q < 0
  | _ => false

def zero (neg : Bool) : F64 := if neg then .negZero else .fin 0

/-- An infinity with a sign. -/
def inf (neg : Bool) : F64 := if neg then .negInf else .posInf

/-- The exact value, zero for what has none. -/
def toRat : F64 → ℚ
  | .fin q => q
  | _ => 0

def isInfinite : F64 → Bool
  | .posInf | .negInf => true
  | _ => false

/-- The number is a zero of either sign: `x == 0.0`. -/
def isZero : F64 → Bool
  | .negZero => true
  | .fin q => q = 0
  | _ => false

/-- `-x`. -/
def neg : F64 → F64
  | .nan => .nan
  | .posInf => .negInf
  | .negInf => .posInf
  | .negZero => .fin 0
  | .fin q => if q = 0 then .negZero else .fin (-q)

/-- `x + y`. A zero sum is positive, but for the sum of two negative zeros. -/
def add (x y : F64) : F64 :=
  if x.isNan || y.isNan then .nan
  else if x.isInfinite then if y.isInfinite && x.isNeg != y.isNeg then .nan else x
  else if y.isInfinite then y
  else if x = .negZero && y = .negZero then .negZero
  else ofRat (x.toRat + y.toRat)

def sub (x y : F64) : F64 := x.add y.neg

def mul (x y : F64) : F64 :=
  let sign := x.isNeg != y.isNeg
  if x.isNan || y.isNan then .nan
  else if x.isInfinite || y.isInfinite then if x.isZero || y.isZero then .nan else inf sign
  else if x.isZero || y.isZero then zero sign
  else ofRat (x.toRat * y.toRat)

def div (x y : F64) : F64 :=
  let sign := x.isNeg != y.isNeg
  if x.isNan || y.isNan then .nan
  else if x.isInfinite then if y.isInfinite then .nan else inf sign
  else if y.isInfinite then zero sign
  else if y.isZero then if x.isZero then .nan else inf sign
  else if x.isZero then zero sign
  else ofRat (x.toRat / y.toRat)

/-- The integer part of a rational. -/
def truncRat (q : ℚ) : ℤ := q.num.tdiv q.den

/-- `x % y`, with the sign of `x`. The exact remainder is a double. -/
def rem (x y : F64) : F64 :=
  if x.isNan || y.isNan || x.isInfinite || y.isZero then .nan
  else if y.isInfinite || x.isZero then x
  else
    let r := x.toRat - y.toRat * truncRat (x.toRat / y.toRat)
    if r = 0 then zero x.isNeg else .fin r

section Fin

variable {p q : ℚ}

theorem isZero_fin (h : q ≠ 0) : (F64.fin q).isZero = false := decide_eq_false h

theorem mul_fin (hp : p ≠ 0) (hq : q ≠ 0) : (F64.fin p).mul (.fin q) = ofRat (p * q) := by
  unfold mul
  dsimp only
  rw [isZero_fin hp, isZero_fin hq]
  rfl

theorem div_fin (hp : p ≠ 0) (hq : q ≠ 0) : (F64.fin p).div (.fin q) = ofRat (p / q) := by
  unfold div
  dsimp only
  rw [isZero_fin hp, isZero_fin hq]
  rfl

theorem rem_fin (hp : p ≠ 0) (hq : q ≠ 0) : (F64.fin p).rem (.fin q) =
    if p - q * truncRat (p / q) = 0 then zero (p < 0) else .fin (p - q * truncRat (p / q)) := by
  unfold rem
  dsimp only
  rw [isZero_fin hp, isZero_fin hq]
  rfl

end Fin

/-! ### Comparison and integers -/

def lt (x y : F64) : Bool :=
  match x, y with
  | .nan, _ | _, .nan => false
  | .posInf, _ | _, .negInf => false
  | .negInf, _ | _, .posInf => true
  | x, y => x.toRat < y.toRat

def le (x y : F64) : Bool := x.lt y || x.eq y

def abs : F64 → F64
  | .negInf => .posInf
  | .negZero => .fin 0
  | .fin q => .fin |q|
  | x => x

def maxNum (x y : F64) : F64 :=
  if x.isNan then y else if y.isNan then x else if x.lt y then y else x

def floor : F64 → F64
  | .fin q => .fin ⌊q⌋
  | x => x

/-- The saturating conversion `x as i32`. -/
def toI32 : F64 → BitVec 32
  | .nan | .negZero => 0
  | .posInf => BitVec.ofInt 32 (2 ^ 31 - 1)
  | .negInf => BitVec.ofInt 32 (-2 ^ 31)
  | .fin q => BitVec.ofInt 32 (max (-2 ^ 31) (min (truncRat q) (2 ^ 31 - 1)))

/-- The saturating conversion `x as i64`. -/
def toI64 : F64 → ℤ
  | .nan | .negZero => 0
  | .posInf => 2 ^ 63 - 1
  | .negInf => -2 ^ 63
  | .fin q => max (-2 ^ 63) (min (truncRat q) (2 ^ 63 - 1))

end F64

theorem toU32_ofInt {i : ℕ} (h : i < 2 ^ 32) : (F64.ofInt i).toU32 = i := by
  have hfloor : (F64.ofInt i).toU32 = min (⌊((i : ℤ) : ℚ)⌋).toNat (2 ^ 32 - 1) := rfl
  rw [hfloor, Int.floor_intCast, Int.toNat_natCast]
  omega

end Starlight
