import Starlight.Vm.Conversions

/-!
# Integers for the bitwise operators

`to_int32` and `to_uint32` round a double down and then convert with saturation, `OP_NOT` converts without
rounding down. The language asks for truncation toward zero and reduction modulo `2 ^ 32` in all three.
They agree on an int32, on NaN, on zeros and on the doubles from `0` below `2 ^ 31`; for every other double
at least one of them is wrong.
-/

namespace Starlight

namespace F64

/-- ToInt32 and ToUint32, as bits: the integer part modulo `2 ^ 32`, zero for what has none. -/
def wrap : F64 → BitVec 32
  | .fin q => BitVec.ofInt 32 (truncRat q)
  | _ => 0

/-- The doubles that all conversions agree on. -/
def Direct : F64 → Prop
  | .nan | .negZero => True
  | .fin q => 0 ≤ q ∧ q < 2 ^ 31
  | _ => False

theorem truncRat_intCast (i : ℤ) : truncRat i = i := by
  rw [truncRat, Rat.num_intCast, Rat.den_intCast, Nat.cast_one, Int.tdiv_one]

theorem truncRat_of_nonneg {q : ℚ} (h : 0 ≤ q) : truncRat q = ⌊q⌋ := by
  rw [truncRat, Int.tdiv_eq_ediv_of_nonneg (Rat.num_nonneg.mpr h), ← Rat.floor_def]
  rfl

theorem truncRat_neg (q : ℚ) : truncRat (-q) = -truncRat q := by
  rw [truncRat, Rat.neg_num, Rat.neg_den, Int.neg_tdiv, truncRat]

theorem truncRat_div (i : ℤ) (d : ℕ) : truncRat (i / d) = i.tdiv d := by
  rcases le_total 0 i with hi | hi
  · rw [truncRat_of_nonneg (div_nonneg (Int.cast_nonneg hi) (Nat.cast_nonneg d)), Rat.floor_intCast_div_natCast,
      Int.tdiv_eq_ediv_of_nonneg hi]
  · have hneg : (0 : ℚ) ≤ (-i : ℤ) / (d : ℚ) :=
      div_nonneg (Int.cast_nonneg (Int.neg_nonneg_of_nonpos hi)) (Nat.cast_nonneg d)
    have hrat : (i : ℚ) / d = -(((-i : ℤ) : ℚ) / d) := by
      push_cast
      ring
    rw [hrat, truncRat_neg, truncRat_of_nonneg hneg, Rat.floor_intCast_div_natCast,
      ← Int.tdiv_eq_ediv_of_nonneg (Int.neg_nonneg_of_nonpos hi), Int.neg_tdiv, neg_neg]

end F64

namespace JsValue

variable (c : Conversions) (v lhs rhs : JsValue)

def toInt32 : Except Failure (BitVec 32) :=
  if v.isInt32 then .ok v.getInt32
  else do
    let number ← c.toNumber v
    if number.isNan || number.isInfinite then return 0
    return number.floor.toI32

def toUint32 : Except Failure (BitVec 32) :=
  if v.isInt32 then .ok v.getInt32
  else do
    let number ← c.toNumber v
    if number.isNan || number.isInfinite then return 0
    return BitVec.ofNat 32 number.floor.toU32

def opShl : Except Failure JsValue := do
  let left ← toInt32 c lhs
  let right ← toUint32 c rhs
  return double (F64.ofInt (left <<< (right &&& 0x1f#32)).toInt)

def opShr : Except Failure JsValue := do
  let left ← toInt32 c lhs
  let right ← toUint32 c rhs
  return double (F64.ofInt (left.sshiftRight' (right &&& 0x1f#32)).toInt)

def opUshr : Except Failure JsValue := do
  let left ← toUint32 c lhs
  let right ← toUint32 c rhs
  return double (F64.ofInt (left >>> (right &&& 0x1f#32)).toNat)

def opBits (op : BitVec 32 → BitVec 32 → BitVec 32) : Except Failure JsValue := do
  let lhs ← toInt32 c lhs
  let rhs ← toInt32 c rhs
  return int32 (op lhs rhs)

def opAnd : Except Failure JsValue := opBits c lhs rhs (· &&& ·)

def opOr : Except Failure JsValue := opBits c lhs rhs (· ||| ·)

def opXor : Except Failure JsValue := opBits c lhs rhs (· ^^^ ·)

def opNot : Except Failure JsValue :=
  if v.isNumber then .ok (int32 (~~~v.getNumber.toI32))
  else do
    let n ← c.toNumber v
    return int32 (~~~n.toI32)

variable {c} {v w : JsValue}

/-- The number is an int32, or one of the doubles that all conversions agree on. -/
def Direct (v : JsValue) : Prop := v.isInt32 = true ∨ v.getNumber.Direct

/-! ### The conversions of a number -/

theorem toInt32_fin (q : ℚ) :
    toInt32 c (double (.fin q)) = .ok (BitVec.ofInt 32 (max (-2 ^ 31) (min ⌊q⌋ (2 ^ 31 - 1)))) := by
  have h : toInt32 c (double (.fin q)) = .ok (F64.fin ⌊q⌋).toI32 := rfl
  rw [h, F64.toI32, F64.truncRat_intCast]

theorem toUint32_fin (q : ℚ) :
    toUint32 c (double (.fin q)) = .ok (BitVec.ofNat 32 (min ⌊q⌋.toNat (2 ^ 32 - 1))) := by
  have h : toUint32 c (double (.fin q)) = .ok (BitVec.ofNat 32 (F64.fin ⌊q⌋).toU32) := rfl
  have hfloor : (F64.fin ⌊q⌋).toU32 = min ⌊((⌊q⌋ : ℤ) : ℚ)⌋.toNat (2 ^ 32 - 1) := rfl
  rw [h, hfloor, Int.floor_intCast]

/-- What the conversions of one operand should give. -/
structure ConversionExact (c : Conversions) (v : JsValue) : Prop where
  int32 : toInt32 c v = .ok v.getNumber.wrap
  uint32 : toUint32 c v = .ok v.getNumber.wrap
  not : opNot c v = .ok (.int32 (~~~v.getNumber.wrap))
  not_not : (opNot c v).bind (opNot c) = .ok (.int32 v.getNumber.wrap)

theorem wrap_ofInt (i : BitVec 32) : (F64.ofInt i.toInt).wrap = i := by
  rw [F64.ofInt, F64.wrap, F64.truncRat_intCast, BitVec.ofInt_toInt]

theorem toI32_ofInt (i : BitVec 32) : (F64.ofInt i.toInt).toI32 = i := by
  have hlow := BitVec.le_toInt i
  have hhigh := BitVec.toInt_lt (x := i)
  rw [F64.ofInt, F64.toI32, F64.truncRat_intCast]
  have hclamp : max (-2 ^ 31) (min i.toInt (2 ^ 31 - 1)) = i.toInt := by omega
  rw [hclamp, BitVec.ofInt_toInt]

theorem opNot_number (hv : v.isNumber = true) :
    opNot c v = .ok (int32 (~~~v.getNumber.toI32)) := if_pos hv

theorem conversionExact_of (hv : v.isNumber = true) (hi : toInt32 c v = .ok v.getNumber.wrap)
    (hu : toUint32 c v = .ok v.getNumber.wrap) (ht : v.getNumber.toI32 = v.getNumber.wrap) :
    ConversionExact c v where
  int32 := hi
  uint32 := hu
  not := by rw [opNot_number hv, ht]
  not_not := by
    rw [opNot_number hv, ht]
    change opNot c (.int32 _) = _
    rw [opNot_number rfl]
    change Except.ok (JsValue.int32 (~~~(F64.ofInt _).toI32)) = _
    rw [toI32_ofInt, BitVec.not_not]

theorem conversionExact_int32 (i : BitVec 32) : ConversionExact c (int32 i) := by
  have hwrap : (int32 i).getNumber.wrap = i := wrap_ofInt i
  refine conversionExact_of rfl ?_ ?_ ?_
  · rw [hwrap]
    rfl
  · rw [hwrap]
    rfl
  · rw [hwrap]
    exact toI32_ofInt i

theorem conversionExact_fin {q : ℚ} (h : 0 ≤ q) (hlt : q < 2 ^ 31) :
    ConversionExact c (double (.fin q)) := by
  have hlow : 0 ≤ ⌊q⌋ := Int.floor_nonneg.mpr h
  have hhigh : ⌊q⌋ < 2 ^ 31 := Int.floor_lt.mpr (by exact_mod_cast hlt)
  have hwrap : (double (.fin q)).getNumber.wrap = BitVec.ofInt 32 ⌊q⌋ := by
    change BitVec.ofInt 32 (F64.truncRat q) = _
    rw [F64.truncRat_of_nonneg h]
  have hclamp : max (-2 ^ 31) (min ⌊q⌋ (2 ^ 31 - 1)) = ⌊q⌋ := by omega
  refine conversionExact_of rfl ?_ ?_ ?_
  · rw [toInt32_fin, hwrap, hclamp]
  · have hmin : min ⌊q⌋.toNat (2 ^ 32 - 1) = ⌊q⌋.toNat := by omega
    rw [toUint32_fin, hwrap, hmin, ← BitVec.ofInt_natCast, Int.toNat_of_nonneg hlow]
  · rw [hwrap]
    change BitVec.ofInt 32 (max (-2 ^ 31) (min (F64.truncRat q) (2 ^ 31 - 1))) = _
    rw [F64.truncRat_of_nonneg h, hclamp]

theorem not_conversionExact_fin {q : ℚ} (h : ¬ (0 ≤ q ∧ q < 2 ^ 31)) :
    ¬ ConversionExact c (double (.fin q)) := by
  intro hexact
  have hbits := Except.ok.inj ((toInt32_fin q).symm.trans
    (hexact.int32.trans (hexact.uint32.symm.trans (toUint32_fin q))))
  have hbits := congrArg BitVec.toNat hbits
  rw [BitVec.toNat_ofInt, BitVec.toNat_ofNat] at hbits
  rcases lt_or_ge q 0 with hneg | hnonneg
  · have hfloor : ⌊q⌋ < 0 := Int.floor_lt.mpr (by exact_mod_cast hneg)
    omega
  · have hge : 2 ^ 31 ≤ q := not_lt.mp fun hlt => h ⟨hnonneg, hlt⟩
    have hfloor : 2 ^ 31 ≤ ⌊q⌋ := Int.le_floor.mpr (by exact_mod_cast hge)
    omega

/-- **Conversions.** All of them are right on just the direct numbers. -/
theorem conversionExact_iff (hv : v.isNumber = true) : ConversionExact c v ↔ v.Direct := by
  cases v with
  | int32 i => exact iff_of_true (conversionExact_int32 i) (.inl rfl)
  | double d =>
    have hdirect : (double d).Direct ↔ d.Direct := or_iff_right Bool.false_ne_true
    rw [hdirect]
    cases d with
    | nan | negZero => exact iff_of_true (conversionExact_of rfl rfl rfl rfl) trivial
    | posInf | negInf =>
      refine iff_of_false (fun h => ?_) id
      have hbits := int32.inj (Except.ok.inj ((opNot_number rfl).symm.trans h.not))
      exact absurd hbits (by decide)
    | fin q =>
      by_cases h : 0 ≤ q ∧ q < 2 ^ 31
      · exact iff_of_true (conversionExact_fin h.1 h.2) h
      · exact iff_of_false (not_conversionExact_fin h) h
  | _ => cases hv

/-- The conversions of both operands and all bitwise operators are right. -/
structure BitwiseExact (c : Conversions) (v w : JsValue) : Prop where
  left : ConversionExact c v
  right : ConversionExact c w
  and : opAnd c v w = .ok (int32 (v.getNumber.wrap &&& w.getNumber.wrap))
  or : opOr c v w = .ok (int32 (v.getNumber.wrap ||| w.getNumber.wrap))
  xor : opXor c v w = .ok (int32 (v.getNumber.wrap ^^^ w.getNumber.wrap))
  shl : opShl c v w =
    .ok (double (F64.ofInt (v.getNumber.wrap <<< (w.getNumber.wrap.toNat % 32)).toInt))
  shr : opShr c v w =
    .ok (double (F64.ofInt (v.getNumber.wrap.sshiftRight (w.getNumber.wrap.toNat % 32)).toInt))
  ushr : opUshr c v w =
    .ok (double (F64.ofInt (v.getNumber.wrap >>> (w.getNumber.wrap.toNat % 32)).toNat))

theorem toNat_and_shift (i : BitVec 32) : (i &&& 0x1f#32).toNat = i.toNat % 32 := by
  rw [BitVec.toNat_and]
  exact Nat.and_two_pow_sub_one_eq_mod _ 5

/-- **Bitwise operators.** The conversions of two numbers and the operators on them give what the language
says just when both numbers are int32, NaN, a zero, or a double from `0` below `2 ^ 31`. -/
theorem bitwiseExact_iff (c : Conversions) (hv : v.isNumber = true) (hw : w.isNumber = true) :
    BitwiseExact c v w ↔ v.Direct ∧ w.Direct := by
  rw [← conversionExact_iff (c := c) hv, ← conversionExact_iff (c := c) hw]
  refine ⟨fun h => ⟨h.left, h.right⟩, fun ⟨hl, hr⟩ => ?_⟩
  have hbits : ∀ op, opBits c v w op = .ok (int32 (op v.getNumber.wrap w.getNumber.wrap)) := by
    intro op
    rw [opBits, hl.int32, hr.int32]
    rfl
  refine ⟨hl, hr, hbits _, hbits _, hbits _, ?_, ?_, ?_⟩
  · rw [opShl, hl.int32, hr.uint32, ← toNat_and_shift]
    rfl
  · rw [opShr, hl.int32, hr.uint32, ← toNat_and_shift]
    rfl
  · rw [opUshr, hl.uint32, hr.uint32, ← toNat_and_shift]
    rfl

/-- The operands `-1`, an int32, and `2.5`. -/
theorem bitwiseExact_neg_one :
    BitwiseExact ⟨fun _ _ _ => .ok none⟩ (int32 (-1)) (double (.fin (5 / 2))) ↔
      (int32 (-1)).Direct ∧ (double (.fin (5 / 2))).Direct :=
  bitwiseExact_iff _ rfl rfl

/-- `-1.5` is rounded down by `to_int32`, `-1` as a double becomes `0` as a `u32`, and `~2147483648` is
what `~2147483647` is. -/
theorem toInt32_neg_fraction :
    toInt32 ⟨fun _ _ _ => .ok none⟩ (double (.fin (-3 / 2))) = .ok (-2) ∧
      (F64.fin (-3 / 2)).wrap = -1 ∧
      toUint32 ⟨fun _ _ _ => .ok none⟩ (double (.fin (-1))) = .ok 0 ∧ (F64.fin (-1)).wrap = -1 ∧
      opNot ⟨fun _ _ _ => .ok none⟩ (double (.fin 2147483648)) = .ok (int32 (-2147483648)) ∧
      (F64.fin 2147483648).wrap = 2147483648 := by
  decide +kernel

end JsValue

end Starlight
