import Mathlib.Data.List.TakeWhile
import Starlight.Vm.RadixInteger

/-!
# parseInt

`parse_int` takes off white space, a sign and a prefix, and reads digits up to the first character that is
none. Up to 64 bits the value is converted to the nearest double; beyond them it is parsed by a crate, which
is a parameter, as is the printing of a double in the radix ten.
-/

namespace Starlight

open Numeral

/-! ### The functions -/

def isTrimmableWhitespace (c : Char) : Bool :=
  c.toNat ∈ [0x9, 0xb, 0xc, 0x20, 0xa0, 0xfeff, 0x1680, 0x202f, 0x205f, 0x3000, 0xa, 0xd, 0x2028, 0x2029] ||
    (0x2000 ≤ c.toNat && c.toNat ≤ 0x200a)

/-- `u64::from_str_radix` of a text of digits; `none` when they do not fit. -/
def u64FromStrRadix (z : List Char) (radix : ℕ) : Option ℕ :=
  (z.mapM fun c => toDigit c radix).bind fun ds =>
    if ofDigits radix ds < 2 ^ 64 then some (ofDigits radix ds) else none

/-- The radix with its prefix taken off: `0x` sets it to sixteen when it is sixteen or not given. -/
def takePrefix (varR : ℤ) (s : List Char) : ℕ × List Char :=
  if (varR = 0 ∨ varR = 16) ∧ (s.take 2 = ['0', 'x'] ∨ s.take 2 = ['0', 'X']) then (16, s.drop 2)
  else (if varR = 0 then 10 else varR.toNat, s)

/-- The steps 15 and 16: a zero with the sign, or the product with it. -/
def withSign (neg : Bool) (mathInt : F64) : F64 :=
  if mathInt.isZero then F64.zero neg else (F64.ofInt (if neg then -1 else 1)).mul mathInt

/-- `parse_int` of a string, with the radix as `to_int32` gives it. `fromStrRadix` is the parser of the crate for
floats; its error is a panic. -/
def globalParseInt (fromStrRadix : List Char → ℕ → Option F64) (str : List Char) (varR : ℤ) : Option F64 :=
  if varR ≠ 0 ∧ ¬ (2 ≤ varR ∧ varR ≤ 36) then some .nan
  else
    let signed := takeSign (str.dropWhile isTrimmableWhitespace)
    let prefixed := takePrefix varR signed.2
    let varZ := prefixed.2.takeWhile fun c => (toDigit c prefixed.1).isSome
    if varZ.isEmpty then some .nan
    else
      (match u64FromStrRadix varZ prefixed.1 with
        | some i => some (F64.ofRat i)
        | none => fromStrRadix varZ prefixed.1).map (withSign signed.1)

/-- `number_to_string` with a radix, of a number; an illegal radix throws. `display` prints a double in decimal. -/
def numberToRadixString (display : F64 → List Char) (fuel : ℕ) (num : F64) (radix : ℤ) :
    Option (Except String (List Char)) :=
  if radix = 10 then some (.ok (display num))
  else if 2 ≤ radix ∧ radix ≤ 36 then
    match num with
    | .nan => some (.ok "NaN".toList)
    | .posInf => some (.ok "Infinity".toList)
    | .negInf => some (.ok "-Infinity".toList)
    | num => (toNativeStringRadix fuel num radix.toNat).map .ok
  else some (.error "Illegal radix")

/-! ### What is consumed -/

/-- The parts of a string: white space, a sign, a prefix where one is allowed, and digits of the radix, each as
long as it can be. -/
structure IntegerText (varR : ℤ) (str ws sgn pre z rest : List Char) (radix : ℕ) : Prop where
  split : str = ws ++ (sgn ++ (pre ++ (z ++ rest)))
  space : ∀ c ∈ ws, isTrimmableWhitespace c = true
  space_end : ∀ c ∈ (sgn ++ (pre ++ (z ++ rest))).head?, isTrimmableWhitespace c = false
  sign : sgn = ['-'] ∨ sgn = ['+'] ∨ sgn = [] ∧ ∀ c ∈ (pre ++ (z ++ rest)).head?, c ≠ '-' ∧ c ≠ '+'
  radixPrefix : (varR = 0 ∨ varR = 16) ∧ (pre = ['0', 'x'] ∨ pre = ['0', 'X']) ∧ radix = 16 ∨
    ¬ ((varR = 0 ∨ varR = 16) ∧ ((z ++ rest).take 2 = ['0', 'x'] ∨ (z ++ rest).take 2 = ['0', 'X'])) ∧
      pre = [] ∧ radix = if varR = 0 then 10 else varR.toNat
  digits : ∀ c ∈ z, (toDigit c radix).isSome = true
  digits_end : ∀ c ∈ rest.head?, (toDigit c radix).isSome = false

/-- The double nearest to a number with a sign, which a zero keeps. -/
def nearestSigned (neg : Bool) (v : ℕ) : F64 :=
  if v = 0 then F64.zero neg else F64.ofRat (if neg then -v else v)

/-- `parse_int` returns a number: NaN for an illegal radix and for no digits, and the double nearest to what is
consumed when that fits into 64 bits. -/
def ParseIntLaw (fromStrRadix : List Char → ℕ → Option F64) (str : List Char) (varR : ℤ) : Prop :=
  (varR ≠ 0 ∧ ¬ (2 ≤ varR ∧ varR ≤ 36) → globalParseInt fromStrRadix str varR = some .nan) ∧
  (varR = 0 ∨ 2 ≤ varR ∧ varR ≤ 36 → ∃ ws sgn pre z rest radix, IntegerText varR str ws sgn pre z rest radix ∧
    (z = [] → globalParseInt fromStrRadix str varR = some .nan) ∧
    (z ≠ [] → (globalParseInt fromStrRadix str varR).isSome = true ∧
      ∃ ds, (z.mapM fun c => toDigit c radix) = some ds ∧ (ofDigits radix ds < 2 ^ 64 →
        globalParseInt fromStrRadix str varR =
          some (nearestSigned (decide (sgn = ['-'])) (ofDigits radix ds)))))

section Parse

variable {fromStrRadix : List Char → ℕ → Option F64} {str z : List Char} {varR : ℤ} {radix : ℕ}

theorem takeSign_cases (s : List Char) :
    ∃ sgn, s = sgn ++ (takeSign s).2 ∧ (takeSign s).1 = decide (sgn = ['-']) ∧
      (sgn = ['-'] ∨ sgn = ['+'] ∨ sgn = [] ∧ ∀ c ∈ s.head?, c ≠ '-' ∧ c ≠ '+') := by
  unfold takeSign
  split
  · exact ⟨['-'], rfl, rfl, Or.inl rfl⟩
  · exact ⟨['+'], rfl, rfl, Or.inr (Or.inl rfl)⟩
  · next hminus hplus =>
    refine ⟨[], rfl, rfl, Or.inr (Or.inr ⟨rfl, ?_⟩)⟩
    intro c hc
    obtain ⟨cs, rfl⟩ := List.head?_eq_some_iff.mp hc
    exact ⟨fun h => hminus cs (by rw [h]), fun h => hplus cs (by rw [h])⟩

theorem takePrefix_cases (varR : ℤ) (s : List Char) :
    ∃ pre, s = pre ++ (takePrefix varR s).2 ∧
      ((varR = 0 ∨ varR = 16) ∧ (pre = ['0', 'x'] ∨ pre = ['0', 'X']) ∧ (takePrefix varR s).1 = 16 ∨
        ¬ ((varR = 0 ∨ varR = 16) ∧ (s.take 2 = ['0', 'x'] ∨ s.take 2 = ['0', 'X'])) ∧
          pre = [] ∧ (takePrefix varR s).1 = if varR = 0 then 10 else varR.toNat) := by
  unfold takePrefix
  split
  · next h => exact ⟨s.take 2, (List.take_append_drop 2 s).symm, Or.inl ⟨h.1, h.2, rfl⟩⟩
  · next h => exact ⟨[], rfl, Or.inr ⟨h, rfl, rfl⟩⟩

theorem exists_mapM_toDigit (hz : ∀ c ∈ z, (toDigit c radix).isSome = true) :
    ∃ ds, (z.mapM fun c => toDigit c radix) = some ds := by
  induction z with
  | nil => exact ⟨[], rfl⟩
  | cons c z ih =>
    rw [List.forall_mem_cons] at hz
    obtain ⟨d, hd⟩ := Option.isSome_iff_exists.mp hz.1
    obtain ⟨ds, hds⟩ := ih hz.2
    exact ⟨d :: ds, by rw [List.mapM_cons, hd, hds]; rfl⟩

theorem exists_ofRat_natCast {v : ℕ} (hpos : 0 < v) (hlt : v < 2 ^ 64) :
    ∃ q : ℚ, F64.ofRat v = .fin q ∧ 1 ≤ q ∧ binary64.Representable q := by
  have hbound : binary64.Representable (((1 : ℕ) : ℚ) * 2 ^ (64 : ℤ)) :=
    BinaryFormat.representable_mul_zpow (by decide) (by decide) (by decide)
  have hle : (v : ℚ) ≤ ((1 : ℕ) : ℚ) * 2 ^ (64 : ℤ) := by
    have : (v : ℚ) ≤ ((2 ^ 64 : ℕ) : ℚ) := by exact_mod_cast hlt.le
    exact this.trans (by norm_num)
  obtain ⟨q, hq, -, -⟩ := F64.ofRat_le (Nat.cast_nonneg v) hbound hle
  have hone : ((1 : ℤ) : ℚ) ≤ v := by exact_mod_cast hpos
  refine ⟨q, hq, ?_, F64.isDouble_ofRat _ q hq⟩
  rcases F64.le_ofRat (F64.representable_intCast (i := 1) (by decide)) (by norm_num) hone with hinf | ⟨q', hq', hle'⟩
  · rw [hq] at hinf
    cases hinf
  · rw [hq] at hq'
    cases hq'
    exact_mod_cast hle'

theorem withSign_ofRat (neg : Bool) {v : ℕ} (hlt : v < 2 ^ 64) :
    withSign neg (F64.ofRat v) = nearestSigned neg v := by
  rcases Nat.eq_zero_or_pos v with rfl | hpos
  · have hzero : F64.ofRat ((0 : ℕ) : ℚ) = .fin 0 := by decide +kernel
    rw [hzero, nearestSigned, if_pos rfl]
    rfl
  · obtain ⟨q, hq, hone, hrep⟩ := exists_ofRat_natCast hpos hlt
    have hne : q ≠ 0 := (zero_lt_one.trans_le hone).ne'
    rw [hq, withSign, F64.isZero_fin hne, if_neg Bool.false_ne_true, nearestSigned, if_neg hpos.ne']
    cases neg with
    | true =>
      have hv : (0 : ℚ) < v := Nat.cast_pos.mpr hpos
      rw [if_pos rfl, if_pos rfl, F64.ofInt, F64.mul_fin (by norm_num) hne, F64.ofRat_neg hv, hq]
      dsimp only
      rw [if_neg hne, Int.cast_neg, Int.cast_one, neg_one_mul]
      exact F64.ofRat_of_representable (by
        obtain ⟨M, hM, hval⟩ := hrep
        exact ⟨M, hM, by rw [hval, abs_neg]⟩)
    | false =>
      rw [if_neg Bool.false_ne_true, if_neg Bool.false_ne_true, F64.ofInt, F64.mul_fin (by norm_num) hne, hq,
        Int.cast_one, one_mul]
      exact F64.ofRat_of_representable hrep

theorem exists_integerText (str : List Char) (varR : ℤ) :
    ∃ ws sgn pre rest, IntegerText varR str ws sgn pre
      ((takePrefix varR (takeSign (str.dropWhile isTrimmableWhitespace)).2).2.takeWhile fun c =>
        (toDigit c (takePrefix varR (takeSign (str.dropWhile isTrimmableWhitespace)).2).1).isSome) rest
      (takePrefix varR (takeSign (str.dropWhile isTrimmableWhitespace)).2).1 ∧
      (takeSign (str.dropWhile isTrimmableWhitespace)).1 = decide (sgn = ['-']) := by
  obtain ⟨sgn, hsgn, hneg, hsign⟩ := takeSign_cases (str.dropWhile isTrimmableWhitespace)
  obtain ⟨pre, hpre, hradix⟩ := takePrefix_cases varR (takeSign (str.dropWhile isTrimmableWhitespace)).2
  set signed := takeSign (str.dropWhile isTrimmableWhitespace)
  set prefixed := takePrefix varR signed.2
  set isDigit : Char → Bool := fun c => (toDigit c prefixed.1).isSome
  have hz : prefixed.2.takeWhile isDigit ++ prefixed.2.dropWhile isDigit = prefixed.2 :=
    List.takeWhile_append_dropWhile
  refine ⟨str.takeWhile isTrimmableWhitespace, sgn, pre, prefixed.2.dropWhile isDigit, ⟨?_, ?_, ?_, ?_, ?_, ?_, ?_⟩,
    hneg⟩
  · rw [hz, ← hpre, ← hsgn, List.takeWhile_append_dropWhile]
  · exact fun c hc => List.mem_takeWhile_imp hc
  · rw [hz, ← hpre, ← hsgn]
    intro c hc
    have hnot := List.head?_dropWhile_not isTrimmableWhitespace str
    rw [Option.mem_def.mp hc] at hnot
    exact hnot
  · rw [hz, ← hpre]
    rcases hsign with h | h | ⟨rfl, h⟩
    · exact Or.inl h
    · exact Or.inr (Or.inl h)
    · rw [hsgn] at h
      exact Or.inr (Or.inr ⟨rfl, h⟩)
  · rw [hz]
    rcases hradix with h | ⟨hno, rfl, h⟩
    · exact Or.inl h
    · rw [hpre] at hno
      exact Or.inr ⟨hno, rfl, h⟩
  · exact fun c hc => List.mem_takeWhile_imp (p := isDigit) hc
  · intro c hc
    have hnot := List.head?_dropWhile_not isDigit prefixed.2
    rw [Option.mem_def.mp hc] at hnot
    exact hnot

theorem IntegerText.radix_bounds {ws sgn pre rest : List Char} (h : IntegerText varR str ws sgn pre z rest radix)
    (hgood : varR = 0 ∨ 2 ≤ varR ∧ varR ≤ 36) : 2 ≤ radix ∧ radix ≤ 36 := by
  obtain ⟨-, -, hr⟩ | ⟨-, -, hr⟩ := h.radixPrefix
  · omega
  · split at hr <;> omega

theorem globalParseInt_of_digits (hgood : ¬ (varR ≠ 0 ∧ ¬ (2 ≤ varR ∧ varR ≤ 36)))
    (hz : ((takePrefix varR (takeSign (str.dropWhile isTrimmableWhitespace)).2).2.takeWhile fun c =>
      (toDigit c (takePrefix varR (takeSign (str.dropWhile isTrimmableWhitespace)).2).1).isSome) ≠ []) :
    globalParseInt fromStrRadix str varR =
      (match u64FromStrRadix ((takePrefix varR (takeSign (str.dropWhile isTrimmableWhitespace)).2).2.takeWhile
          fun c => (toDigit c (takePrefix varR (takeSign (str.dropWhile isTrimmableWhitespace)).2).1).isSome)
          (takePrefix varR (takeSign (str.dropWhile isTrimmableWhitespace)).2).1 with
        | some i => some (F64.ofRat i)
        | none => fromStrRadix ((takePrefix varR (takeSign (str.dropWhile isTrimmableWhitespace)).2).2.takeWhile
            fun c => (toDigit c (takePrefix varR (takeSign (str.dropWhile isTrimmableWhitespace)).2).1).isSome)
            (takePrefix varR (takeSign (str.dropWhile isTrimmableWhitespace)).2).1).map
        (withSign (takeSign (str.dropWhile isTrimmableWhitespace)).1) := by
  rw [globalParseInt, if_neg hgood]
  dsimp only
  rw [List.isEmpty_eq_false_iff.mpr hz, if_neg Bool.false_ne_true]

theorem parseIntLaw (hfloat : ∀ z r, 2 ≤ r → r ≤ 36 → z ≠ [] → (∀ c ∈ z, (toDigit c r).isSome = true) →
      (fromStrRadix z r).isSome = true) (str : List Char) (varR : ℤ) :
    ParseIntLaw fromStrRadix str varR := by
  refine ⟨fun hbad => by rw [globalParseInt, if_pos hbad], fun hgood => ?_⟩
  have hgood' : ¬ (varR ≠ 0 ∧ ¬ (2 ≤ varR ∧ varR ≤ 36)) := by tauto
  obtain ⟨ws, sgn, pre, rest, htext, hneg⟩ := exists_integerText str varR
  refine ⟨ws, sgn, pre, _, rest, _, htext, fun hz => ?_, fun hz => ?_⟩
  · rw [globalParseInt, if_neg hgood']
    dsimp only
    rw [hz]
    rfl
  · obtain ⟨ds, hds⟩ := exists_mapM_toDigit htext.digits
    have hunfold := @globalParseInt_of_digits fromStrRadix _ _ hgood' hz
    rw [hunfold, u64FromStrRadix, hds]
    refine ⟨?_, ds, rfl, fun hlt => ?_⟩
    · rw [Option.isSome_map]
      rw [Option.bind_some]
      split
      · rfl
      · have hradix := htext.radix_bounds hgood
        exact hfloat _ _ hradix.1 hradix.2 hz htext.digits
    · rw [Option.bind_some, if_pos hlt]
      change some (withSign _ _) = _
      rw [withSign_ofRat _ hlt, hneg]

end Parse

/-! ### The round trip -/

section RoundTrip

variable {fromStrRadix : List Char → ℕ → Option F64} {radix : ℕ}

theorem digitChar_plain {d : ℕ} (hd : d < 36) : isTrimmableWhitespace (digitChar d) = false ∧
    digitChar d ≠ '-' ∧ digitChar d ≠ '+' ∧ digitChar d ≠ 'X' ∧ (digitChar d = 'x' → 16 ≤ d) := by
  interval_cases d <;> decide

theorem takeSign_digits {ds : List ℕ} (hds : ∀ d ∈ ds, d < 36) :
    takeSign (ds.map digitChar) = (false, ds.map digitChar) := by
  cases ds with
  | nil => rfl
  | cons d ds =>
    obtain ⟨-, hminus, hplus, -⟩ := digitChar_plain (hds d List.mem_cons_self)
    rw [List.map_cons, takeSign]
    · exact fun cs h => hminus (List.cons.inj h).1
    · exact fun cs h => hplus (List.cons.inj h).1

theorem takeSign_integerString (hradix : 2 ≤ radix) (hle : radix ≤ 36) (i : ℤ) :
    takeSign ((integerString radix i).dropWhile isTrimmableWhitespace) =
      (decide (i < 0), (digits radix i.natAbs).map digitChar) := by
  have hds : ∀ d ∈ digits radix i.natAbs, d < 36 := fun d hd => (digits_lt (by omega) d hd).trans_le hle
  unfold integerString
  by_cases h : i < 0
  · rw [if_pos h, List.singleton_append, List.dropWhile_cons_of_neg (by decide), decide_eq_true h]
    rfl
  · rw [if_neg h, List.nil_append, decide_eq_false h, ← takeSign_digits hds]
    obtain ⟨d, ds, hcons⟩ := List.exists_cons_of_ne_nil (digits_ne_nil radix i.natAbs)
    rw [hcons] at hds ⊢
    obtain ⟨hspace, -⟩ := digitChar_plain (hds d List.mem_cons_self)
    rw [List.map_cons, List.dropWhile_cons_of_neg (by rw [hspace]; decide)]

theorem takePrefix_digits (hradix : 2 ≤ radix) {ds : List ℕ} (hds : ∀ d ∈ ds, d < radix) :
    takePrefix radix (ds.map digitChar) = (radix, ds.map digitChar) := by
  have hno : ¬ (((radix : ℤ) = 0 ∨ (radix : ℤ) = 16) ∧
      ((ds.map digitChar).take 2 = ['0', 'x'] ∨ (ds.map digitChar).take 2 = ['0', 'X'])) := by
    rintro ⟨hr, htake⟩
    have hsixteen : radix = 16 := by omega
    match ds, hds, htake with
    | [], _, htake => simp at htake
    | [d], _, htake => simp at htake
    | d :: e :: ds, hds, htake =>
      have he : e < radix := hds e (by simp)
      obtain ⟨-, -, -, hcapital, hsmall⟩ := digitChar_plain (d := e) (by omega)
      rcases htake with h | h
      · have hx : digitChar e = 'x' := by simpa using (List.cons.inj (List.cons.inj h).2).1
        have := hsmall hx
        omega
      · exact hcapital (by simpa using (List.cons.inj (List.cons.inj h).2).1)
  rw [takePrefix, if_neg hno, if_neg (by omega), Int.toNat_natCast]

theorem mapM_toDigit_digits (hle : radix ≤ 36) {ds : List ℕ} (hds : ∀ d ∈ ds, d < radix) :
    ((ds.map digitChar).mapM fun c => toDigit c radix) = some ds := by
  induction ds with
  | nil => rfl
  | cons d ds ih =>
    rw [List.forall_mem_cons] at hds
    rw [List.map_cons, List.mapM_cons, toDigit_digitChar (hds.1.trans_le hle), if_pos hds.1, ih hds.2]
    rfl

theorem globalParseInt_integerString (hradix : 2 ≤ radix) (hle : radix ≤ 36) {i : ℤ} (hi : i.natAbs < 2 ^ 53) :
    globalParseInt fromStrRadix (integerString radix i) radix = some (.ofInt i) := by
  have hds : ∀ d ∈ digits radix i.natAbs, d < radix := digits_lt (by omega)
  have hread : ∀ c ∈ (digits radix i.natAbs).map digitChar, (toDigit c radix).isSome = true := by
    intro c hc
    obtain ⟨d, hd, rfl⟩ := List.mem_map.mp hc
    rw [toDigit_digitChar ((hds d hd).trans_le hle), if_pos (hds d hd)]
    rfl
  have hvalue : u64FromStrRadix ((digits radix i.natAbs).map digitChar) radix = some i.natAbs := by
    rw [u64FromStrRadix, mapM_toDigit_digits hle hds, Option.bind_some, ofDigits_digits, if_pos (by omega)]
  rw [globalParseInt, if_neg (by omega)]
  dsimp only
  rw [takeSign_integerString hradix hle, takePrefix_digits hradix hds]
  dsimp only
  rw [List.takeWhile_eq_self_iff.mpr hread, hvalue, if_neg (by simp [digits_ne_nil]), Option.map_some,
    withSign_ofRat _ (by omega), nearestSigned]
  congr 1
  by_cases hz : i = 0
  · rw [hz]
    rfl
  rw [if_neg (by omega), ← F64.ofRat_intCast hi]
  congr 1
  by_cases h : i < 0
  · rw [if_pos (decide_eq_true h), ← Int.cast_natCast, ← Int.cast_neg, show -(i.natAbs : ℤ) = i by omega]
  · rw [if_neg (by simpa using h), ← Int.cast_natCast, show (i.natAbs : ℤ) = i by omega]

theorem numberToRadixString_intCast {display : F64 → List Char}
    (hdisplay : ∀ i : ℤ, i.natAbs < 2 ^ 53 → display (.ofInt i) = integerString 10 i) {fuel : ℕ} (hfuel : 53 < fuel)
    (hradix : 2 ≤ radix) (hle : radix ≤ 36) {i : ℤ} (hi : i.natAbs < 2 ^ 53) :
    numberToRadixString display fuel (.ofInt i) radix = some (.ok (integerString radix i)) := by
  unfold numberToRadixString
  split
  · next h =>
    obtain rfl : radix = 10 := by omega
    rw [hdisplay i hi]
  · rw [if_pos (by omega)]
    change (toNativeStringRadix fuel (.ofInt i) (radix : ℤ).toNat).map _ = _
    rw [Int.toNat_natCast, toNativeStringRadix_intCast hradix hle hfuel hi]
    rfl

end RoundTrip

/-- **Integers are read back from their texts** in every radix, and `parse_int` reads what it should, its value
rounded to a double. -/
theorem parseInt_reads {display : F64 → List Char} {fromStrRadix : List Char → ℕ → Option F64}
    (hdisplay : ∀ i : ℤ, i.natAbs < 2 ^ 53 → display (.ofInt i) = integerString 10 i)
    (hfloat : ∀ z r, 2 ≤ r → r ≤ 36 → z ≠ [] → (∀ c ∈ z, (toDigit c r).isSome = true) →
      (fromStrRadix z r).isSome = true) :
    (∀ n : ℤ, n.natAbs < 2 ^ 53 → ∀ radix : ℕ, 2 ≤ radix → radix ≤ 36 → ∃ least, ∀ fuel, least ≤ fuel →
      ∃ text, numberToRadixString display fuel (.ofInt n) radix = some (.ok text) ∧
        globalParseInt fromStrRadix text radix = some (.ofInt n)) ∧
    ∀ str varR, ParseIntLaw fromStrRadix str varR :=
  ⟨fun n hn radix hradix hle => ⟨54, fun _ hfuel => ⟨integerString radix n,
    numberToRadixString_intCast hdisplay hfuel hradix hle hn, globalParseInt_integerString hradix hle hn⟩⟩,
    parseIntLaw hfloat⟩

theorem parseInt_reads_ff :
    (∃ least, ∀ fuel, least ≤ fuel → ∃ text,
      numberToRadixString (fun x => integerString 10 ⌊x.toRat⌋) fuel (.ofInt (-255)) 16 = some (.ok text) ∧
        globalParseInt (fun z r => (z.mapM fun c => toDigit c r).map fun ds => .ofRat (ofDigits r ds)) text 16 =
          some (.ofInt (-255))) ∧
    ParseIntLaw (fun z r => (z.mapM fun c => toDigit c r).map fun ds => .ofRat (ofDigits r ds)) " -0xffg".toList 0 :=
  have h := @parseInt_reads (fun x => integerString 10 ⌊x.toRat⌋)
    (fun z r => (z.mapM fun c => toDigit c r).map fun ds => .ofRat (ofDigits r ds))
    (fun i _ => congrArg (integerString 10) (Int.floor_intCast i))
    (fun z r _ _ _ hz => by
      obtain ⟨ds, hds⟩ := exists_mapM_toDigit hz
      rw [hds]
      rfl)
  ⟨h.1 (-255) (by decide) 16 (by decide) (by decide), h.2 _ _⟩

/-- `parseInt("9007199254740993", 10)` is an even number: the value is rounded. -/
theorem globalParseInt_odd :
    globalParseInt (fun _ _ => none) "9007199254740993".toList 10 = some (.ofInt 9007199254740992) ∧
      F64.ofInt 9007199254740992 ≠ .ofInt 9007199254740993 := by
  decide +kernel

end Starlight
