import Starlight.Vm.Double

/-!
# Boxed values

On 64-bit machines a value is one word. Numbers have at least one of the upper fifteen bits: all of them
for an int32, and `2 ^ 49` added to the bits of a double. A pointer is stored as it is, and the other
values are words that no pointer has, because bit 1 is set.

`Unboxed` is a value before it is encoded. What an encoder is promised is part of the type: a double has no
NaN but the pure one, and a pointer is not null, a multiple of 8 and below `2 ^ 48`.
-/

namespace Starlight

/-- `EncodedValueDescriptor`: a value in memory. -/
@[ext]
structure Boxed where
  asInt64 : BitVec 64
deriving DecidableEq

namespace Boxed

def doubleEncodeOffset : BitVec 64 := 1#64 <<< 49
def numberTag : BitVec 64 := 0xfffe000000000000#64
def otherTag : BitVec 64 := 0x2#64
def boolTag : BitVec 64 := 0x4#64
def undefinedTag : BitVec 64 := 0x8#64
def native32Tag : BitVec 64 := 0x12#64
def native32Mask : BitVec 64 := numberTag ||| native32Tag

def valueFalse : BitVec 64 := otherTag ||| boolTag ||| 0#64
def valueTrue : BitVec 64 := otherTag ||| boolTag ||| 1#64
def valueUndefined : BitVec 64 := otherTag ||| undefinedTag
def valueNull : BitVec 64 := otherTag
def notCellMask : BitVec 64 := numberTag ||| otherTag
def valueEmpty : BitVec 64 := 0#64

/-! ### Encoders -/

def encodeEmptyValue : Boxed := ⟨valueEmpty⟩

def encodeObjectValue (ptr : BitVec 64) : Boxed := ⟨ptr⟩

def encodeUndefinedValue : Boxed := ⟨valueUndefined⟩

def encodeNullValue : Boxed := ⟨valueNull⟩

def encodeBoolValue (x : Bool) : Boxed := if x then ⟨valueTrue⟩ else ⟨valueFalse⟩

def encodeF64Value (x : BitVec 64) : Boxed := ⟨x + doubleEncodeOffset⟩

def pureNan : BitVec 64 := 0x7ff8000000000000#64

def purifyNan (x : BitVec 64) : BitVec 64 := if F64.isNanBits x then pureNan else x

def encodeUntrustedF64Value (x : BitVec 64) : Boxed := encodeF64Value (purifyNan x)

def encodeInt32 (x : BitVec 32) : Boxed := ⟨numberTag ||| x.setWidth 64⟩

def encodeNativeU32 (x : BitVec 32) : Boxed := ⟨x.setWidth 64 <<< 16 ||| native32Tag⟩

/-! ### Predicates and decoders -/

def isEmpty (w : Boxed) : Bool := w.asInt64 = valueEmpty

def isUndefined (w : Boxed) : Bool := w = encodeUndefinedValue

def isNull (w : Boxed) : Bool := w = encodeNullValue

def isBool (w : Boxed) : Bool := w.asInt64 &&& ~~~1#64 = valueFalse

def isPointer (w : Boxed) : Bool := w.asInt64 &&& notCellMask = 0#64

def isInt32 (w : Boxed) : Bool := w.asInt64 &&& numberTag = numberTag

def isNumber (w : Boxed) : Bool := w.asInt64 &&& numberTag ≠ 0#64

def isObject (w : Boxed) : Bool := w.isPointer && !w.isEmpty

def isDouble (w : Boxed) : Bool := w.isNumber && !w.isInt32

def isNativeValue (w : Boxed) : Bool := w.asInt64 &&& native32Mask = native32Tag

def getObject (w : Boxed) : Option (BitVec 64) := if w.isObject then some w.asInt64 else none

def getInt32 (w : Boxed) : BitVec 32 := w.asInt64.setWidth 32

def getDouble (w : Boxed) : Option (BitVec 64) :=
  if w.isDouble then some (w.asInt64 - doubleEncodeOffset) else none

def getNumber (w : Boxed) : Option F64 :=
  if w.isInt32 then some (F64.ofInt w.getInt32.toInt) else w.getDouble.map F64.ofBits

def getNativeU32 (w : Boxed) : BitVec 32 := (w.asInt64.sshiftRight 16).setWidth 32

def getBool (w : Boxed) : Option Bool := if w.isBool then some (w = encodeBoolValue true) else none

end Boxed

/-! ### Values before they are encoded -/

/-- The bits of a double without any NaN but the pure one. -/
structure PureDouble where
  bits : BitVec 64
  pure : F64.isNanBits bits = true → bits = Boxed.pureNan

/-- An address that an allocator returns. -/
structure CellPointer where
  address : BitVec 64
  ne_null : address ≠ 0#64
  aligned : address.toNat % 8 = 0
  lt : address.toNat < 2 ^ 48

/-- A value of any kind. -/
inductive Unboxed where
  | empty
  | undefined
  | null
  | bool (b : Bool)
  | int32 (i : BitVec 32)
  | native (n : BitVec 32)
  | double (d : PureDouble)
  | object (p : CellPointer)

/-- The kinds of values, one for each type predicate. -/
inductive Kind where
  | empty | undefined | null | bool | int32 | native | double | object
deriving DecidableEq

namespace Boxed

/-- The type predicate of a kind. -/
def is (w : Boxed) : Kind → Bool
  | .empty => w.isEmpty
  | .undefined => w.isUndefined
  | .null => w.isNull
  | .bool => w.isBool
  | .int32 => w.isInt32
  | .native => w.isNativeValue
  | .double => w.isDouble
  | .object => w.isObject

end Boxed

namespace PureDouble

/-- A double as an encoder that does not trust it takes it. -/
def purify (x : BitVec 64) : PureDouble where
  bits := Boxed.purifyNan x
  pure h := by
    unfold Boxed.purifyNan at h ⊢
    split
    · rfl
    · next hn =>
      rw [if_neg hn] at h
      exact absurd h hn

end PureDouble

namespace Unboxed

def kind : Unboxed → Kind
  | empty => .empty
  | undefined => .undefined
  | null => .null
  | bool _ => .bool
  | int32 _ => .int32
  | native _ => .native
  | double _ => .double
  | object _ => .object

/-- The encoder of the kind. -/
def encode : Unboxed → Boxed
  | empty => Boxed.encodeEmptyValue
  | undefined => Boxed.encodeUndefinedValue
  | null => Boxed.encodeNullValue
  | bool b => Boxed.encodeBoolValue b
  | int32 i => Boxed.encodeInt32 i
  | native n => Boxed.encodeNativeU32 n
  | double d => Boxed.encodeF64Value d.bits
  | object p => Boxed.encodeObjectValue p.address

/-- The decoder of the kind gives the value back. -/
def DecodedBy : Unboxed → Boxed → Prop
  | empty, w => w.isEmpty = true
  | undefined, w => w.isUndefined = true
  | null, w => w.isNull = true
  | bool b, w => w.getBool = some b
  | int32 i, w => w.getInt32 = i
  | native n, w => w.getNativeU32 = n
  | double d, w => w.getDouble = some d.bits
  | object p, w => w.getObject = some p.address

end Unboxed

namespace Boxed

variable {w : Boxed}

/-! ### The predicates as bounds -/

theorem and_allOnes_shiftLeft (x : BitVec 64) (k : ℕ) :
    x &&& BitVec.allOnes 64 <<< k = x >>> k <<< k := by
  refine BitVec.eq_of_getLsbD_eq fun i hi => ?_
  rw [BitVec.getLsbD_and, BitVec.getLsbD_shiftLeft, BitVec.getLsbD_shiftLeft, BitVec.getLsbD_allOnes,
    BitVec.getLsbD_ushiftRight, decide_eq_true hi, decide_eq_true (show i - k < 64 by omega)]
  by_cases h : i < k
  · rw [decide_eq_true h]
    simp
  · rw [decide_eq_false h, Nat.add_sub_cancel' (Nat.le_of_not_lt h)]
    simp

theorem toNat_and_numberTag (x : BitVec 64) :
    (x &&& numberTag).toNat = x.toNat / 2 ^ 49 * 2 ^ 49 := by
  have hlt := x.isLt
  have htag : numberTag = BitVec.allOnes 64 <<< 49 := by decide
  rw [htag, and_allOnes_shiftLeft, BitVec.toNat_shiftLeft, BitVec.toNat_ushiftRight, Nat.shiftLeft_eq,
    Nat.shiftRight_eq_div_pow]
  omega

theorem and_numberTag_eq_zero_iff (x : BitVec 64) : x &&& numberTag = 0#64 ↔ x.toNat < 2 ^ 49 := by
  rw [← BitVec.toNat_inj, toNat_and_numberTag]
  change x.toNat / 2 ^ 49 * 2 ^ 49 = 0 ↔ _
  omega

theorem isInt32_iff : w.isInt32 = true ↔ 0xfffe000000000000 ≤ w.asInt64.toNat := by
  have hlt := w.asInt64.isLt
  rw [isInt32, decide_eq_true_iff, ← BitVec.toNat_inj, toNat_and_numberTag]
  change w.asInt64.toNat / 2 ^ 49 * 2 ^ 49 = 0xfffe000000000000 ↔ _
  omega

theorem isNumber_iff : w.isNumber = true ↔ 2 ^ 49 ≤ w.asInt64.toNat := by
  rw [isNumber, decide_eq_true_iff, ne_eq, and_numberTag_eq_zero_iff, not_lt]

theorem isDouble_iff :
    w.isDouble = true ↔ 2 ^ 49 ≤ w.asInt64.toNat ∧ w.asInt64.toNat < 0xfffe000000000000 := by
  rw [isDouble, Bool.and_eq_true, isNumber_iff, Bool.not_eq_true', ← Bool.not_eq_true, isInt32_iff,
    not_le]

theorem getLsbD_eq_decide (x : BitVec 64) (i : ℕ) :
    x.getLsbD i = decide (x.toNat / 2 ^ i % 2 = 1) := by
  rw [← BitVec.testBit_toNat, Nat.testBit_eq_decide_div_mod_eq]

theorem and_otherTag_eq_zero_iff (x : BitVec 64) : x &&& otherTag = 0#64 ↔ x.toNat / 2 % 2 = 0 := by
  have htag : ∀ i < 64, otherTag.getLsbD i = decide (i = 1) := by decide
  have hbit := getLsbD_eq_decide x 1
  constructor
  · intro h
    have hone := congrArg (fun y : BitVec 64 => y.getLsbD 1) h
    rw [BitVec.getLsbD_and, htag 1 (by decide), hbit] at hone
    simpa using hone
  · intro h
    refine BitVec.eq_of_getLsbD_eq fun i hi => ?_
    rw [BitVec.getLsbD_and, htag i hi, BitVec.getLsbD_zero]
    by_cases hi' : i = 1
    · subst hi'
      rw [hbit, decide_eq_false (by omega), Bool.false_and]
    · rw [decide_eq_false hi', Bool.and_false]

theorem isPointer_iff :
    w.isPointer = true ↔ w.asInt64.toNat < 2 ^ 49 ∧ w.asInt64.toNat / 2 % 2 = 0 := by
  rw [isPointer, decide_eq_true_iff, notCellMask, BitVec.and_or_distrib_left, BitVec.or_eq_zero_iff,
    and_numberTag_eq_zero_iff, and_otherTag_eq_zero_iff]

theorem isNativeValue_iff : w.isNativeValue = true ↔
    w.asInt64.toNat < 2 ^ 49 ∧ w.asInt64.toNat / 2 % 2 = 1 ∧ w.asInt64.toNat / 16 % 2 = 1 := by
  have hmask : ∀ i < 64, native32Mask.getLsbD i = decide (i = 1 ∨ i = 4 ∨ 49 ≤ i) := by decide
  have htag : ∀ i < 64, native32Tag.getLsbD i = decide (i = 1 ∨ i = 4) := by decide
  have hupper : ∀ i < 64, numberTag.getLsbD i = decide (49 ≤ i) := by decide
  have hone : w.asInt64.getLsbD 1 = decide (w.asInt64.toNat / 2 % 2 = 1) := getLsbD_eq_decide _ 1
  have hfour : w.asInt64.getLsbD 4 = decide (w.asInt64.toNat / 16 % 2 = 1) := getLsbD_eq_decide _ 4
  rw [isNativeValue, decide_eq_true_iff, ← and_numberTag_eq_zero_iff]
  constructor
  · intro h
    have hbit : ∀ i < 64, (w.asInt64.getLsbD i && decide (i = 1 ∨ i = 4 ∨ 49 ≤ i)) =
        decide (i = 1 ∨ i = 4) := by
      intro i hi
      rw [← hmask i hi, ← htag i hi, ← BitVec.getLsbD_and, h]
    refine ⟨BitVec.eq_of_getLsbD_eq fun i hi => ?_, ?_, ?_⟩
    · rw [BitVec.getLsbD_and, hupper i hi, BitVec.getLsbD_zero]
      by_cases hi' : 49 ≤ i
      · have := hbit i hi
        rw [decide_eq_true (.inr (.inr hi')), decide_eq_false (by omega), Bool.and_true] at this
        rw [this, Bool.false_and]
      · rw [decide_eq_false hi', Bool.and_false]
    · have := hbit 1 (by decide)
      rw [hone] at this
      simpa using this
    · have := hbit 4 (by decide)
      rw [hfour] at this
      simpa using this
  · rintro ⟨h, h₁, h₄⟩
    -- the bits of the tag are set, and of all other bits of the mask none is
    refine BitVec.eq_of_getLsbD_eq fun i hi => ?_
    rw [BitVec.getLsbD_and, hmask i hi, htag i hi]
    by_cases hi' : i = 1 ∨ i = 4
    · rw [decide_eq_true hi', decide_eq_true (hi'.imp_right .inl), Bool.and_true]
      rcases hi' with rfl | rfl
      · rw [hone, decide_eq_true h₁]
      · rw [hfour, decide_eq_true h₄]
    · rw [decide_eq_false hi']
      by_cases hu : 49 ≤ i
      · have hzero := congrArg (fun y : BitVec 64 => y.getLsbD i) h
        rw [BitVec.getLsbD_and, hupper i hi, decide_eq_true hu, Bool.and_true, BitVec.getLsbD_zero]
          at hzero
        rw [hzero, Bool.false_and]
      · rw [decide_eq_false (by omega), Bool.and_false]

theorem isBool_iff : w.isBool = true ↔ w.asInt64.toNat / 2 = 3 := by
  have hlt := w.asInt64.isLt
  have htag : ~~~1#64 = BitVec.allOnes 64 <<< 1 := by decide
  rw [isBool, decide_eq_true_iff, htag, and_allOnes_shiftLeft, ← BitVec.toNat_inj,
    BitVec.toNat_shiftLeft, BitVec.toNat_ushiftRight, Nat.shiftLeft_eq, Nat.shiftRight_eq_div_pow]
  change w.asInt64.toNat / 2 ^ 1 * 2 ^ 1 % 2 ^ 64 = 6 ↔ _
  omega

theorem isEmpty_iff : w.isEmpty = true ↔ w.asInt64.toNat = 0 := by
  rw [isEmpty, decide_eq_true_iff, ← BitVec.toNat_inj]
  rfl

theorem isUndefined_iff : w.isUndefined = true ↔ w.asInt64.toNat = 10 := by
  rw [isUndefined, decide_eq_true_iff, encodeUndefinedValue, Boxed.ext_iff, ← BitVec.toNat_inj]
  rfl

theorem isNull_iff : w.isNull = true ↔ w.asInt64.toNat = 2 := by
  rw [isNull, decide_eq_true_iff, encodeNullValue, Boxed.ext_iff, ← BitVec.toNat_inj]
  rfl

theorem isObject_iff : w.isObject = true ↔ w.asInt64.toNat ≠ 0 ∧ w.asInt64.toNat < 2 ^ 49 ∧
    w.asInt64.toNat / 2 % 2 = 0 := by
  rw [isObject, Bool.and_eq_true, isPointer_iff, Bool.not_eq_true', ← Bool.not_eq_true, isEmpty_iff,
    and_comm]

end Boxed

def Kind.Words : Kind → ℕ → Prop
  | .empty, n => n = 0
  | .undefined, n => n = 10
  | .null, n => n = 2
  | .bool, n => n / 2 = 3
  | .int32, n => 0xfffe000000000000 ≤ n
  | .native, n => n < 2 ^ 49 ∧ n / 2 % 2 = 1 ∧ n / 16 % 2 = 1
  | .double, n => 2 ^ 49 ≤ n ∧ n < 0xfffe000000000000
  | .object, n => n ≠ 0 ∧ n < 2 ^ 49 ∧ n / 2 % 2 = 0

theorem Boxed.is_iff {w : Boxed} {k : Kind} : w.is k = true ↔ k.Words w.asInt64.toNat := by
  cases k with
  | empty => exact isEmpty_iff
  | undefined => exact isUndefined_iff
  | null => exact isNull_iff
  | bool => exact isBool_iff
  | int32 => exact isInt32_iff
  | native => exact isNativeValue_iff
  | double => exact isDouble_iff
  | object => exact isObject_iff

theorem Kind.eq_of_words {k k' : Kind} {n : ℕ} (h : k.Words n) (h' : k'.Words n) : k = k' := by
  cases k <;> cases k' <;> first | rfl | (unfold Kind.Words at h h'; dsimp only at h h'; omega)

/-! ### The encoded words -/

theorem PureDouble.toNat_le (d : PureDouble) : d.bits.toNat ≤ 0xfff0000000000000 := by
  cases hn : F64.isNanBits d.bits with
  | true =>
    rw [d.pure hn]
    decide
  | false =>
    have hle : ¬ 0x7ff0000000000000 < d.bits.toNat % 2 ^ 63 := by
      rw [← F64.isNanBits_iff, hn]
      exact Bool.false_ne_true
    have hlt := d.bits.isLt
    omega

theorem PureDouble.no_overflow (d : PureDouble) :
    (d.bits + Boxed.doubleEncodeOffset).toInt = d.bits.toInt + 2 ^ 49 := by
  have hle := d.toNat_le
  have hoff : Boxed.doubleEncodeOffset.toNat = 2 ^ 49 := rfl
  have hsum : (d.bits + Boxed.doubleEncodeOffset).toNat = d.bits.toNat + 2 ^ 49 := by
    rw [BitVec.toNat_add, hoff]
    omega
  -- a positive double is at most the canonical NaN
  have hpos : d.bits.toNat < 2 ^ 63 → d.bits.toNat ≤ 0x7ff8000000000000 := by
    intro hlt
    cases hn : F64.isNanBits d.bits with
    | true => rw [d.pure hn]; decide
    | false =>
      have hle : ¬ 0x7ff0000000000000 < d.bits.toNat % 2 ^ 63 := by
        rw [← F64.isNanBits_iff, hn]
        exact Bool.false_ne_true
      omega
  rw [BitVec.toInt_eq_toNat_cond, BitVec.toInt_eq_toNat_cond, hsum]
  split <;> split <;> omega

namespace Unboxed

/-- The word of a value, as a number. -/
def word : Unboxed → ℕ
  | empty => 0
  | undefined => 10
  | null => 2
  | bool b => if b then 7 else 6
  | int32 i => 0xfffe000000000000 + i.toNat
  | native n => n.toNat * 2 ^ 16 + 18
  | double d => d.bits.toNat + 2 ^ 49
  | object p => p.address.toNat

theorem toNat_encode (v : Unboxed) : v.encode.asInt64.toNat = v.word := by
  cases v with
  | empty => rfl
  | undefined => rfl
  | null => rfl
  | bool b => cases b <;> rfl
  | int32 i =>
    have hi := i.isLt
    change (Boxed.numberTag ||| i.setWidth 64).toNat = _
    -- the tag and the payload have no bit in common
    have hadd : Boxed.numberTag ||| i.setWidth 64 = Boxed.numberTag + i.setWidth 64 := by
      refine (BitVec.add_eq_or_of_and_eq_zero _ _ ?_).symm
      rw [BitVec.and_comm, Boxed.and_numberTag_eq_zero_iff, BitVec.toNat_setWidth]
      omega
    have htag : Boxed.numberTag.toNat = 0xfffe000000000000 := rfl
    rw [hadd, BitVec.toNat_add, htag, BitVec.toNat_setWidth, word]
    omega
  | native n =>
    have hn := n.isLt
    change (n.setWidth 64 <<< 16 ||| Boxed.native32Tag).toNat = _
    have hadd : n.setWidth 64 <<< 16 ||| Boxed.native32Tag = n.setWidth 64 <<< 16 + Boxed.native32Tag := by
      refine (BitVec.add_eq_or_of_and_eq_zero _ _ (BitVec.eq_of_getLsbD_eq fun i hi => ?_)).symm
      have htag : ∀ i < 64, Boxed.native32Tag.getLsbD i = decide (i = 1 ∨ i = 4) := by decide
      rw [BitVec.getLsbD_and, htag i hi, BitVec.getLsbD_shiftLeft, BitVec.getLsbD_zero]
      by_cases h : i = 1 ∨ i = 4
      · rw [decide_eq_true (show i < 16 by omega)]
        simp
      · rw [decide_eq_false h, Bool.and_false]
    have htag : Boxed.native32Tag.toNat = 18 := rfl
    rw [hadd, BitVec.toNat_add, htag, BitVec.toNat_shiftLeft, BitVec.toNat_setWidth, Nat.shiftLeft_eq,
      word]
    omega
  | double d =>
    have hle := d.toNat_le
    have hoff : Boxed.doubleEncodeOffset.toNat = 2 ^ 49 := rfl
    change (d.bits + Boxed.doubleEncodeOffset).toNat = _
    rw [BitVec.toNat_add, hoff, word]
    omega
  | object p => rfl

theorem words_word (v : Unboxed) : v.kind.Words v.word := by
  cases v with
  | empty => rfl
  | undefined => rfl
  | null => rfl
  | bool b => cases b <;> rfl
  | int32 i => exact Nat.le_add_right _ _
  | native n =>
    have hn := n.isLt
    change n.toNat * 2 ^ 16 + 18 < 2 ^ 49 ∧ _ ∧ _
    refine ⟨by omega, ?_, ?_⟩
    · change (n.toNat * 2 ^ 16 + 18) / 2 % 2 = 1
      omega
    · change (n.toNat * 2 ^ 16 + 18) / 16 % 2 = 1
      omega
  | double d =>
    have hle := d.toNat_le
    change 2 ^ 49 ≤ d.bits.toNat + 2 ^ 49 ∧ d.bits.toNat + 2 ^ 49 < 0xfffe000000000000
    omega
  | object p =>
    have hmod := p.aligned
    have hlt := p.lt
    have hne : p.address.toNat ≠ 0 := fun h => p.ne_null (BitVec.eq_of_toNat_eq h)
    change p.address.toNat ≠ 0 ∧ p.address.toNat < 2 ^ 49 ∧ p.address.toNat / 2 % 2 = 0
    omega

theorem is_encode (v : Unboxed) (k : Kind) : v.encode.is k = true ↔ k = v.kind := by
  rw [Boxed.is_iff, toNat_encode]
  exact ⟨fun h => Kind.eq_of_words h v.words_word, fun h => h ▸ v.words_word⟩

theorem is_encode_self (v : Unboxed) : v.encode.is v.kind = true := (v.is_encode _).mpr rfl

theorem decodedBy_encode (v : Unboxed) : v.DecodedBy v.encode := by
  have hself := v.is_encode_self
  cases v with
  | empty | undefined | null => exact hself
  | bool b => cases b <;> rfl
  | int32 i =>
    refine BitVec.eq_of_toNat_eq ?_
    have hi := i.isLt
    rw [Boxed.getInt32, BitVec.toNat_setWidth, toNat_encode, word]
    omega
  | native n =>
    refine BitVec.eq_of_toNat_eq ?_
    have hn := n.isLt
    have hword := (native n).toNat_encode
    -- the arithmetic shift of a word without sign is a division
    have hpos : (native n).encode.asInt64.msb = false := by
      rw [BitVec.msb_eq_decide, hword, word]
      exact decide_eq_false (by omega)
    rw [Boxed.getNativeU32, BitVec.sshiftRight_eq_of_msb_false hpos, BitVec.toNat_setWidth,
      BitVec.toNat_ushiftRight, hword, word, Nat.shiftRight_eq_div_pow]
    omega
  | double d =>
    change Boxed.getDouble _ = _
    rw [Boxed.getDouble, if_pos (show (double d).encode.isDouble = true from hself)]
    change some (d.bits + Boxed.doubleEncodeOffset - Boxed.doubleEncodeOffset) = _
    rw [BitVec.add_sub_cancel]
  | object p =>
    change Boxed.getObject _ = _
    rw [Boxed.getObject, if_pos (show (object p).encode.isObject = true from hself)]
    rfl

theorem eq_of_decodedBy {v v' : Unboxed} {w : Boxed} (hk : v.kind = v'.kind) (h : v.DecodedBy w)
    (h' : v'.DecodedBy w) : v = v' := by
  cases v <;> cases v' <;> first | rfl | cases hk
  case bool.bool b b' => rw [Option.some.inj (h.symm.trans h')]
  case int32.int32 i i' => rw [show i = i' from h.symm.trans h']
  case native.native n n' => rw [show n = n' from h.symm.trans h']
  case double.double d d' =>
    obtain ⟨bits, hd⟩ := d
    obtain ⟨bits', hd'⟩ := d'
    obtain rfl : bits = bits' := Option.some.inj (h.symm.trans h')
    rfl
  case object.object p p' =>
    obtain ⟨address, hp₁, hp₂, hp₃⟩ := p
    obtain ⟨address', hp₁', hp₂', hp₃'⟩ := p'
    obtain rfl : address = address' := Option.some.inj (h.symm.trans h')
    rfl

theorem encode_injective : Function.Injective encode := fun v v' h => by
  have hkind : v.kind = v'.kind := (v'.is_encode _).mp (h ▸ v.is_encode_self)
  exact eq_of_decodedBy hkind v.decodedBy_encode (h ▸ v'.decodedBy_encode)

end Unboxed

/-! ### The words of the model's values -/

/-- Where the cells of the model lie. -/
structure CellAddresses where
  string : ℕ → CellPointer
  symbol : ℕ → CellPointer
  object : ℕ → CellPointer
  accessor : ℕ → CellPointer

namespace JsValue

/-- The value before it is encoded. -/
def unboxed (a : CellAddresses) : JsValue → Unboxed
  | empty => .empty
  | undefined => .undefined
  | null => .null
  | bool b => .bool b
  | int32 i => .int32 i
  | double d => .double (.purify d.toBits)
  | string c _ => .object (a.string c)
  | symbol c => .object (a.symbol c)
  | object o => .object (a.object o)
  | accessor c => .object (a.accessor c)

def boxed (a : CellAddresses) (v : JsValue) : Boxed := (v.unboxed a).encode

end JsValue

/-- **The encoding of values is faithful.** The decoder of its kind gives a value back, exactly the
predicate of its kind is true of its word, and no two values have the same word. The addition that encodes
a double and the subtraction that decodes it do not overflow; an untrusted double is encoded as a pure
one. -/
theorem nan_boxing (v : Unboxed) :
    v.DecodedBy v.encode ∧ (∀ k, v.encode.is k = true ↔ k = v.kind) ∧
      (∀ v' : Unboxed, v.encode = v'.encode → v = v') ∧
      (∀ d : PureDouble, v = .double d → v.encode.asInt64.toInt = d.bits.toInt + 2 ^ 49) ∧
      ∀ x, Boxed.encodeUntrustedF64Value x = (Unboxed.double (.purify x)).encode := by
  refine ⟨v.decodedBy_encode, v.is_encode, fun _ h => Unboxed.encode_injective h, ?_, fun _ => rfl⟩
  rintro d rfl
  exact d.no_overflow

end Starlight
