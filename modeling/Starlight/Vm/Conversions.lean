import Starlight.Vm.Double

/-!
# Conversions of values

`to_primitive` and `to_number`. What an object converts to is decided by its methods. Here they have no
effects: `Conversions` says of each object what reading one of the methods gives and what calling it
returns.

A string is a number when Rust can read it as an `i32` or as an `f64`.
-/

namespace Starlight

inductive JsHint where
  | string | number | none
deriving DecidableEq

/-- Why a conversion gives no value: an exception that a method threw, an error of the engine, or code
that should not be reached. -/
inductive Failure where
  | exception (v : JsValue)
  | typeError (message : String)
  | unreachable
deriving DecidableEq

/-! ### Strings as numbers -/

/-- A sign, if there is one, and what follows it. -/
def takeSign : List Char → Bool × List Char
  | '-' :: cs => (true, cs)
  | '+' :: cs => (false, cs)
  | cs => (false, cs)

/-- A nonempty sequence of digits. -/
def parseDigits (cs : List Char) : Option ℕ :=
  if cs ≠ [] ∧ cs.all Char.isDigit then some (Nat.ofDigitChars 10 cs 0) else none

/-- An integer with an optional sign. -/
def parseInt (cs : List Char) : Option ℤ :=
  let (neg, cs) := takeSign cs
  (parseDigits cs).map fun n => if neg then -n else n

def parseI32 (s : String) : Option ℤ :=
  (parseInt s.toList).filter fun i => -2 ^ 31 ≤ i ∧ i < 2 ^ 31

/-- The exponent that may end a number. -/
def parseExponent : List Char → Option ℤ
  | [] => some 0
  | c :: cs => if c = 'e' ∨ c = 'E' then parseInt cs else none

/-- A decimal number without a sign. -/
def parseDecimal (cs : List Char) : Option ℚ :=
  let (whole, cs) := cs.span Char.isDigit
  let (fraction, cs) := match cs with
    | '.' :: cs => cs.span Char.isDigit
    | cs => ([], cs)
  if whole = [] ∧ fraction = [] then none
  else (parseExponent cs).map fun e : ℤ =>
    (Nat.ofDigitChars 10 (whole ++ fraction) 0 : ℚ) * 10 ^ (e - fraction.length)

/-- `parse::<f64>`: the words for infinity and NaN in any case, and decimal numbers, which are rounded. -/
def parseF64 (s : String) : Option F64 :=
  let (neg, cs) := takeSign s.toList
  let word := cs.map Char.toLower
  if word = "inf".toList ∨ word = "infinity".toList then some (F64.inf neg)
  else if word = "nan".toList then some .nan
  else (parseDecimal cs).map fun q =>
    if q = 0 then F64.zero neg else F64.ofRat (if neg then -q else q)

def stringToNumber (s : String) : F64 :=
  match parseI32 s with
  | some i => F64.ofInt i
  | none => (parseF64 s).getD .nan

/-! ### Numbers as strings -/

/-- A decimal: its digits, as a number, and the power of ten of the last one. -/
structure Decimal where
  digits : ℕ
  exponent : ℤ

namespace Decimal

def value (d : Decimal) : ℚ := d.digits * 10 ^ d.exponent

/-- The decimal in full, without an exponent. -/
def text (d : Decimal) : String :=
  if 0 ≤ d.exponent then Nat.repr (d.digits * 10 ^ d.exponent.toNat)
  else
    let cs := Nat.toDigits 10 d.digits
    let places := d.exponent.natAbs
    let cs := List.replicate (places + 1 - cs.length) '0' ++ cs
    String.ofList (cs.take (cs.length - places) ++ '.' :: cs.drop (cs.length - places))

/-- `n` digits that may have been rounded up to one more. -/
def ofDigits (n digits : ℕ) (exponent : ℤ) : Decimal :=
  if digits = 10 ^ n then ⟨10 ^ (n - 1), exponent + 1⟩ else ⟨digits, exponent⟩

/-- The nearest decimal of `n` digits that is read back as the number. -/
def nearest (q : ℚ) (n : ℕ) : Option Decimal :=
  let e := Int.log 10 q + 1 - n
  let x := q / 10 ^ e
  let m := ⌊x⌋.toNat
  let candidates := if x - m < 1 / 2 then [m, m + 1] else [m + 1, m]
  (candidates.map (ofDigits n · e)).find? fun d => F64.ofRat d.value = .fin q

/-- The shortest decimal that is read back as the number. Seventeen digits are always enough for a
double. -/
def shortest (q : ℚ) : Decimal :=
  ((List.range 17).findSome? fun n => nearest q (n + 1)).getD ⟨⌊q * 10 ^ 1074⌋.toNat, -1074⟩

end Decimal

def numberToString : F64 → String
  | .nan => "NaN"
  | .posInf => "inf"
  | .negInf => "-inf"
  | .negZero => "-0"
  | .fin q =>
    if q = 0 then "0"
    else if q < 0 then "-" ++ (Decimal.shortest (-q)).text
    else (Decimal.shortest q).text

theorem isDigit_of_mem_repr {n : ℕ} {c : Char} (h : c ∈ (Nat.repr n).toList) : c.isDigit = true :=
  Nat.isDigit_of_mem_toDigits (by decide) (by decide) (Nat.toList_repr ▸ h)

theorem repr_injective {m n : ℕ} (h : Nat.repr m = Nat.repr n) : m = n := by
  have hdigits := congrArg (fun s => Nat.ofDigitChars 10 s.toList 0) h
  simpa only [Nat.toList_repr, Nat.ofDigitChars_ten_toDigits] using hdigits

theorem Decimal.value_of_text {d : Decimal} {n : ℕ} (h : d.text = Nat.repr n) : d.value = n := by
  unfold text at h
  by_cases he : 0 ≤ d.exponent
  · rw [if_pos he] at h
    rw [value, ← repr_injective h]
    obtain ⟨k, hk⟩ := Int.eq_ofNat_of_zero_le he
    rw [hk, Int.toNat_natCast, zpow_natCast]
    push_cast
    rfl
  · rw [if_neg he] at h
    have hmem : '.' ∈ (Nat.repr n).toList := by
      rw [← h, String.toList_ofList]
      exact List.mem_append_right _ (.head _)
    exact absurd (isDigit_of_mem_repr hmem) (by decide)

theorem Decimal.eq_of_shortest {q : ℚ} {n : ℕ} (h : (shortest q).text = Nat.repr n) :
    F64.ofRat n = .fin q := by
  rw [← Decimal.value_of_text h]
  unfold shortest at h ⊢
  cases hs : (List.range 17).findSome? fun n => nearest q (n + 1) with
  | some d =>
    obtain ⟨k, -, hk⟩ := List.exists_of_findSome?_eq_some hs
    have hreads := List.find?_some (p := fun d : Decimal => F64.ofRat d.value = .fin q) hk
    exact of_decide_eq_true hreads
  | none =>
    rw [hs, Option.getD_none, text, if_neg (show ¬ (0 : ℤ) ≤ -1074 by decide)] at h
    have hmem : '.' ∈ (Nat.repr n).toList := by
      rw [← h, String.toList_ofList]
      exact List.mem_append_right _ (.head _)
    exact absurd (isDigit_of_mem_repr hmem) (by decide)

theorem eq_of_numberToString {d : F64} {n : ℕ} (hn : n < 2 ^ 53) (h : numberToString d = Nat.repr n) :
    d = F64.ofInt n := by
  -- a decimal has only digits, so that none of the other texts is one
  have hfirst : ∀ {c : Char}, c.isDigit = false → c ∉ (numberToString d).toList := fun hc hmem =>
    absurd ((isDigit_of_mem_repr (h ▸ hmem)).symm.trans hc) (by decide)
  cases d with
  | nan => exact absurd (.head _) (hfirst (c := 'N') rfl)
  | posInf => exact absurd (.head _) (hfirst (c := 'i') rfl)
  | negInf | negZero => exact absurd (.head _) (hfirst (c := '-') rfl)
  | fin q =>
    rw [numberToString] at h hfirst
    split at h
    · next hq =>
      rw [hq, ← repr_injective (show Nat.repr 0 = Nat.repr n from h)]
      rfl
    next hq =>
    split at h
    · next hneg =>
      simp only [if_neg hq, if_pos hneg, String.toList_append] at hfirst
      exact absurd (List.mem_append_left _ (.head _)) (hfirst (c := '-') rfl)
    · have hread := Decimal.eq_of_shortest h
      rw [← hread, ← F64.ofRat_intCast (by omega), Int.cast_natCast]

/-! ### Values -/

namespace JsValue

def isInt32 : JsValue → Bool
  | int32 _ => true
  | _ => false

def getInt32 : JsValue → BitVec 32
  | int32 i => i
  | _ => 0

def isString : JsValue → Bool
  | string .. => true
  | _ => false

def getText : JsValue → String
  | string _ s => s
  | _ => ""

def isSymbol : JsValue → Bool
  | symbol _ => true
  | _ => false

def isJsObject : JsValue → Bool
  | object _ => true
  | _ => false

def isBool : JsValue → Bool
  | bool _ => true
  | _ => false

def isUndefinedOrNull : JsValue → Bool
  | undefined | null => true
  | _ => false

def isPrimitive (v : JsValue) : Bool := v.isNumber || v.isBool || v.isString || v.isSymbol

end JsValue

/-- The methods of the objects. Reading a method may throw, and may find that there is no function; calling
it with the given arguments returns a value or throws. -/
structure Conversions where
  method : ℕ → Symbol → List String → Except Failure (Option (Except Failure JsValue))

namespace Conversions

variable (c : Conversions)

/-- One of the methods that `DefaultValueMethod` tries. A result that is an object does not count. -/
def tryMethod (o : ℕ) (name : String) : Except Failure (Option JsValue) := do
  match ← c.method o (.key name) [] with
  | none => return none
  | some call =>
    let res ← call
    return if res.isPrimitive || res.isUndefinedOrNull then some res else none

def defaultValue (o : ℕ) (hint : JsHint) : Except Failure JsValue := do
  let (first, second) := if hint = .string then ("toString", "valueOf") else ("valueOf", "toString")
  match ← c.tryMethod o first with
  | some v => return v
  | none =>
    match ← c.tryMethod o second with
    | some v => return v
    | none => throw (.typeError "invalid default value")

def objectToPrimitive (o : ℕ) (hint : JsHint) : Except Failure JsValue :=
  match c.method o (.key "toPrimitive") [if hint = .string then "string" else "number"] with
  | .ok (some call) => call
  | _ => c.defaultValue o hint

def toPrimitive (hint : JsHint) : JsValue → Except Failure JsValue
  | .object o => c.objectToPrimitive o hint
  | v => .ok v

/-- `to_number` of what is not an object. -/
def primitiveToNumber : JsValue → Except Failure F64
  | .double d => .ok d
  | .int32 i => .ok (F64.ofInt i.toInt)
  | .string _ s => .ok (stringToNumber s)
  | .bool b => .ok (F64.ofInt b.toNat)
  | .null => .ok (.fin 0)
  | .undefined => .ok .nan
  | .symbol _ => .error (.typeError "Cannot convectx Symbol to number")
  | _ => .error .unreachable

def toNumber : JsValue → Except Failure F64
  | .object o => do primitiveToNumber (← c.defaultValue o .number)
  | v => primitiveToNumber v

/-- `to_string` of what is not an object. -/
def primitiveToString : JsValue → Except Failure String
  | .int32 i => .ok (numberToString (F64.ofInt i.toInt))
  | .double d => .ok (numberToString d)
  | .null => .ok "null"
  | .undefined => .ok "undefined"
  | .bool b => .ok (if b then "true" else "false")
  | .string _ s => .ok s
  | .symbol _ => .error (.typeError "Cannot perform ToString on Symbol")
  | _ => .error .unreachable

def toString : ℕ → JsValue → Option (Except Failure String)
  | 0, .object _ => none
  | conversions + 1, .object o =>
    match c.objectToPrimitive o .string with
    | .ok val => toString conversions val
    | .error e => some (.error e)
  | _, v => some (primitiveToString v)

end Conversions

end Starlight
