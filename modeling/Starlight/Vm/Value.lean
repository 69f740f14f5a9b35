import Mathlib.Data.Rat.Cast.Order

/-!
# JavaScript values and property names

`JsValue` is the engine's NaN-boxed word, one constructor for each tag. Heap cells are named by
natural numbers. A string cell carries its text, since strings are immutable; an accessor cell (the
getter/setter pair behind an accessor property) has its own constructor because the engine stores it
in the same slots as ordinary values, and a cell of that kind is not a value a program should see.

`F64` keeps what comparisons and integer conversions of doubles depend on: the special values, the
sign of zero, and the numeric value of a finite double. No rounding arithmetic is modelled.
-/

namespace Starlight

/-- A double, up to what `==`, `to_number` and `as u32` can tell apart. The finite case holds the
numeric value; `fin 0` is positive zero. -/
inductive F64 where
  | nan
  | posInf
  | negInf
  | negZero
  | fin (q : ℚ)
deriving DecidableEq

namespace F64

/-- `x as f64` for an integer that a double holds exactly. -/
def ofInt (i : ℤ) : F64 := .fin i

def isNan : F64 → Bool
  | .nan => true
  | _ => false

/-- The IEEE comparison `==`: zeros of either sign are equal and a NaN equals nothing. -/
def eq : F64 → F64 → Bool
  | .nan, _ => false
  | _, .nan => false
  | .negZero, .fin q => q = 0
  | .fin q, .negZero => q = 0
  | x, y => x = y

protected theorem eq_comm (x y : F64) : x.eq y = y.eq x := by
  cases x <;> cases y <;> simp [F64.eq, eq_comm]

/-- The saturating conversion `x as u32`. -/
def toU32 : F64 → ℕ
  | .nan => 0
  | .posInf => 2 ^ 32 - 1
  | .negInf => 0
  | .negZero => 0
  | .fin q => min q.floor.toNat (2 ^ 32 - 1)

end F64

/-- A property name. Interned strings stand for their text; `index` is an array index that fits
in a `u32`. -/
inductive Symbol where
  | key (text : String)
  | priv (id : ℕ)
  | index (i : ℕ)
deriving DecidableEq

namespace Symbol

def length : Symbol := .key "length"

/-- The interned name `"prototype"`. -/
def prototype : Symbol := .key "prototype"

end Symbol

/-- A JavaScript value, or one of the engine's internal words that share its representation: the
`empty` marker and accessor cells. -/
inductive JsValue where
  | empty
  | undefined
  | null
  | bool (b : Bool)
  | int32 (i : BitVec 32)
  | double (d : F64)
  | string (cell : ℕ) (text : String)
  | symbol (cell : ℕ)
  | object (o : ℕ)
  | accessor (c : ℕ)
deriving DecidableEq

instance : Inhabited JsValue := ⟨.empty⟩

namespace JsValue

/-- `is_object`: the word carries the object tag, i.e. points to any heap cell. -/
def isObject : JsValue → Bool
  | .string .. | .symbol _ | .object _ | .accessor _ => true
  | _ => false

def isPointer (v : JsValue) : Bool := v.isObject

def isEmpty : JsValue → Bool
  | .empty => true
  | _ => false

def isNumber : JsValue → Bool
  | .int32 _ | .double _ => true
  | _ => false

def getNumber : JsValue → F64
  | .int32 i => F64.ofInt i.toInt
  | .double d => d
  | _ => .nan

/-- `JsValue::new(x)` for a `u32`. The test `x as i32 as u32 == x` of `from_primitive!` holds for
every `u32`, so the word always gets the int32 tag. -/
def newU32 (x : ℕ) : JsValue := .int32 (BitVec.ofNat 32 x)

def newF64 (x : ℕ) : JsValue := .double (F64.ofInt x)

/-- `same_value`, as the engine computes it: numbers by `==` (so the zeros are not told apart),
strings by text, everything else by its word. -/
def sameValue (lhs rhs : JsValue) : Bool :=
  if lhs.isNumber then
    if !rhs.isNumber then false
    else if lhs.getNumber.eq rhs.getNumber then true
    else lhs.getNumber.isNan && rhs.getNumber.isNan
  else if !lhs.isObject || !rhs.isObject then lhs = rhs
  else match lhs, rhs with
    | .string _ s, .string _ t => s = t
    | _, _ => lhs = rhs

/-- The word is an accessor cell, which is never the value of a JavaScript expression. -/
def isAccessorCell : JsValue → Bool
  | .accessor _ => true
  | _ => false

/-- What a JavaScript program can tell about a value: the numeric value whatever its encoding, the
text of a string whatever its cell. -/
inductive Denotation where
  | word (v : JsValue)
  | number (d : F64)
  | text (s : String)
deriving DecidableEq

def denote : JsValue → Denotation
  | .int32 i => .number (F64.ofInt i.toInt)
  | .double d => .number d
  | .string _ s => .text s
  | v => .word v

/-- The word is a zero of either sign. -/
def isZero (v : JsValue) : Bool := v.denote = .number .negZero || v.denote = .number (.fin 0)

theorem sameValue_self (v : JsValue) : sameValue v v = true := by
  cases v with
  | int32 i => simp [sameValue, isNumber, getNumber, F64.eq, F64.ofInt]
  | double d => cases d <;> simp [sameValue, isNumber, getNumber, F64.eq, F64.isNan]
  | _ => simp [sameValue, isNumber, isObject]

theorem sameValue_comm (v w : JsValue) : sameValue v w = sameValue w v := by
  cases v <;> cases w <;>
    simp only [sameValue, isNumber, isObject, getNumber, F64.eq_comm, Bool.and_comm, eq_comm] <;> rfl

theorem denote_eq_of_sameValue {v w : JsValue} (h : sameValue v w = true)
    (hz : ¬ (v.isZero = true ∧ w.isZero = true)) : v.denote = w.denote := by
  by_cases hv : v.isNumber = true
  · have hw : w.isNumber = true := by
      by_contra hw
      simp [sameValue, hv, hw] at h
    have hnum : ∀ u : JsValue, u.isNumber = true → u.denote = .number u.getNumber := by
      intro u hu
      cases u <;> simp_all [isNumber, denote, getNumber]
    rw [hnum v hv, hnum w hw] at *
    simp only [sameValue, hv, hw, Bool.not_true, if_true, if_false, Bool.false_eq_true] at h
    simp only [isZero, hnum v hv, hnum w hw] at hz
    generalize v.getNumber = x at *
    generalize w.getNumber = y at *
    cases x <;> cases y <;> simp_all [F64.eq, F64.isNan]
  · have hv' : v.isNumber = false := by simpa using hv
    simp only [sameValue, hv', Bool.false_eq_true, if_false] at h
    split at h
    · rw [of_decide_eq_true h]
    · split at h
      · simp only [denote, of_decide_eq_true h]
      · rw [of_decide_eq_true h]

end JsValue

theorem JsValue.denote_newU32 {n : ℕ} (h : n < 2 ^ 31) :
    (JsValue.newU32 n).denote = (JsValue.newF64 n).denote := by
  have : (BitVec.ofNat 32 n).toInt = n := by
    have hmod : (BitVec.ofNat 32 n).toNat = n := by
      rw [BitVec.toNat_ofNat, Nat.mod_eq_of_lt (by omega)]
    rw [BitVec.toInt_eq_toNat_of_lt (by rw [hmod]; omega), hmod]
  simp [newU32, newF64, denote, this]

end Starlight
