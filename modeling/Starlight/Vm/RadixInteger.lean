import Starlight.Vm.IntegerConversion
import Starlight.Vm.RadixString

/-!
# Integers in another radix

Of an integer below `2 ^ 53` every division of `to_native_string_radix` is exact: no fraction and no zeros
in place of digits are written, and the integer loop writes the digits.
-/

namespace Starlight

open Numeral

namespace F64

section Nat

variable {n m r : ℕ}

theorem rem_natCast (n : ℕ) (hr : 0 < r) : (F64.ofInt n).rem (.fin r) = F64.ofInt (n % r : ℕ) := by
  rcases Nat.eq_zero_or_pos n with rfl | hn
  · have hrad : (F64.fin r).isZero = false := isZero_fin (Nat.cast_ne_zero.mpr hr.ne')
    rw [Nat.zero_mod, ofInt, rem, hrad]
    rfl
  have hmod : (n : ℚ) - r * truncRat ((n : ℚ) / r) = (n % r : ℕ) := by
    have htrunc : truncRat ((n : ℚ) / r) = ((n / r : ℕ) : ℤ) := by
      rw [truncRat_of_nonneg (by positivity)]
      exact_mod_cast Rat.floor_natCast_div_natCast n r
    have hdiv : (n : ℚ) = r * (n / r : ℕ) + (n % r : ℕ) := by exact_mod_cast (Nat.div_add_mod n r).symm
    rw [htrunc, Int.cast_natCast]
    linarith
  rw [ofInt, Int.cast_natCast, rem_fin (Nat.cast_ne_zero.mpr hn.ne') (Nat.cast_ne_zero.mpr hr.ne'), hmod]
  split
  · next h =>
    rw [Nat.cast_eq_zero.mp h, decide_eq_false (not_lt.mpr (Nat.cast_nonneg n))]
    rfl
  · rw [ofInt, Int.cast_natCast]

theorem sub_natCast (hm : m ≤ n) (hn : n < 2 ^ 53) : (F64.ofInt n).sub (.ofInt m) = F64.ofInt (n - m : ℕ) := by
  have hround : ofRat ((n : ℚ) - m) = F64.ofInt (n - m : ℕ) := by
    rw [← Nat.cast_sub hm, ← Int.cast_natCast]
    exact ofRat_intCast (by omega)
  rcases Nat.eq_zero_or_pos m with rfl | hpos
  · rw [Nat.cast_zero, sub_zero] at hround
    change ofRat (((n : ℤ) : ℚ) + 0) = _
    rw [add_zero, Int.cast_natCast, hround]
  · have hne : ((m : ℤ) : ℚ) ≠ 0 := by exact_mod_cast hpos.ne'
    change add _ (if ((m : ℤ) : ℚ) = 0 then negZero else fin (-((m : ℤ) : ℚ))) = _
    rw [if_neg hne]
    change ofRat (((n : ℤ) : ℚ) + -((m : ℤ) : ℚ)) = _
    rw [Int.cast_natCast, Int.cast_natCast, ← sub_eq_add_neg, hround]

theorem div_natCast (hr : 0 < r) (hn : r * n < 2 ^ 53) : (F64.ofInt (r * n : ℕ)).div (.fin r) = F64.ofInt n := by
  have hrad : (r : ℚ) ≠ 0 := Nat.cast_ne_zero.mpr hr.ne'
  rcases Nat.eq_zero_or_pos n with rfl | hpos
  · have hneg : (F64.fin r).isNeg = false := decide_eq_false (not_lt.mpr (Nat.cast_nonneg r))
    rw [Nat.mul_zero, ofInt, div, isZero_fin hrad, hneg]
    rfl
  · have hle : n ≤ r * n := Nat.le_mul_of_pos_left n hr
    have hne : ((r * n : ℕ) : ℚ) ≠ 0 := Nat.cast_ne_zero.mpr (by positivity)
    rw [ofInt, Int.cast_natCast, div_fin hne hrad, Nat.cast_mul, mul_div_cancel_left₀ _ hrad, ← Int.cast_natCast]
    exact ofRat_intCast (by omega)

theorem natCast_le_zero (n : ℕ) : (F64.ofInt n).le (.fin 0) = decide (n = 0) := by
  rcases Nat.eq_zero_or_pos n with rfl | hpos
  · rfl
  · have hq : (0 : ℚ) < ((n : ℤ) : ℚ) := by exact_mod_cast hpos
    have hne : F64.ofInt n ≠ .fin 0 := fun h => hq.ne' (F64.fin.inj h)
    change (decide (((n : ℤ) : ℚ) < 0) || decide (F64.ofInt n = .fin 0)) = _
    rw [decide_eq_false hq.not_gt, decide_eq_false hne, decide_eq_false hpos.ne']
    rfl

theorem integerExponent_div_le (hr : 2 ≤ r) (hn : n < 2 ^ 53) :
    ¬ 0 < ((F64.ofInt n).div (.fin r)).integerExponent := by
  have hrad : (r : ℚ) ≠ 0 := Nat.cast_ne_zero.mpr (by omega)
  rcases Nat.eq_zero_or_pos n with rfl | hpos
  · rw [← Nat.mul_zero r, div_natCast (by omega) (by rw [Nat.mul_zero]; decide)]
    decide +kernel
  have hbound : binary64.Representable (((1 : ℕ) : ℚ) * 2 ^ (52 : ℤ)) :=
    BinaryFormat.representable_mul_zpow (by decide) (by decide) (by decide)
  have hle : (n : ℚ) / r ≤ ((1 : ℕ) : ℚ) * 2 ^ (52 : ℤ) := by
    rw [div_le_iff₀ (by positivity)]
    have hmul : (n : ℚ) ≤ ((2 ^ 52 * 2 : ℕ) : ℚ) := by exact_mod_cast hn.le
    have htwo : ((2 : ℕ) : ℚ) ≤ r := by exact_mod_cast hr
    push_cast at hmul htwo
    norm_num
    nlinarith
  obtain ⟨v, hv, hv0, hvle⟩ := ofRat_le (by positivity) hbound hle
  have hencode : binary64.encode v ≤ 1075 * 2 ^ 52 := by
    calc binary64.encode v ≤ binary64.encode (((1 : ℕ) : ℚ) * 2 ^ (52 : ℤ)) := BinaryFormat.encode_mono hvle
      _ = 1075 * 2 ^ 52 := by decide +kernel
  rw [ofInt, Int.cast_natCast, div_fin (Nat.cast_ne_zero.mpr hpos.ne') hrad, hv, integerExponent, toBits,
    if_neg hv0.not_gt, abs_of_nonneg hv0, BitVec.toNat_ofNat]
  omega

end Nat

end F64

section Integer

variable {n radix : ℕ}

theorem writeInt_eq {intBuf : List Char} (h : intBuf.length < bufHalf) (c : Char) :
    writeInt intBuf c = some (c :: intBuf) := if_pos h

theorem integerLoop_natCast (hradix : 2 ≤ radix) (hle : radix ≤ 36) {k fuel : ℕ} {intBuf : List Char} (hn : n < 2 ^ (k + 1))
    (hlt : n < 2 ^ 53) (hfuel : k < fuel) (hbuf : intBuf.length + k < bufHalf) :
    integerLoop radix fuel (.ofInt n) intBuf = some ((digits radix n).map digitChar ++ intBuf) := by
  induction fuel generalizing n k intBuf with
  | zero => omega
  | succ fuel ih =>
    have hdigit : n % radix < radix := Nat.mod_lt n (by omega)
    have hexact : n - n % radix = radix * (n / radix) := by
      have := Nat.div_add_mod n radix
      omega
    have hquot : ((F64.ofInt n).sub (.ofInt (n % radix : ℕ))).div (.fin radix) = .ofInt (n / radix : ℕ) := by
      rw [F64.sub_natCast (Nat.mod_le n radix) hlt, hexact, F64.div_natCast (by omega) (by omega)]
    rw [integerLoop, F64.rem_natCast n (by omega), toU32_ofInt (by omega), fromDigit_eq hdigit, hquot]
    change (writeInt intBuf (digitChar (n % radix))).bind _ = _
    rw [writeInt_eq (by omega), Option.bind_some]
    dsimp only
    rw [F64.natCast_le_zero]
    rcases Nat.lt_or_ge n radix with hsmall | hlarge
    · rw [Nat.div_eq_of_lt hsmall, if_pos (by decide), Nat.mod_eq_of_lt hsmall, digits_of_lt hsmall]
      rfl
    · have hpos : 0 < n / radix := Nat.div_pos hlarge (by omega)
      have hhalf : n / radix ≤ n / 2 := Nat.div_le_div_left hradix (by decide)
      obtain ⟨k, rfl⟩ : ∃ k', k = k' + 1 := ⟨k - 1, by cases k <;> omega⟩
      rw [if_neg (by simpa using hpos.ne'), @ih _ k _ (by rw [pow_succ] at hn; omega) (by omega) (by omega)
        (by rw [List.length_cons]; omega), digits_of_le (by omega) hlarge, List.map_append, List.append_assoc]
      rfl

theorem fractionDelta_pos (value : F64) : F64.lt (.fin 0) (fractionDelta value) = true := by
  have hleast : F64.nextAfter (.fin 0) F64.maxFinite = F64.ofBits 1#64 := by decide +kernel
  obtain ⟨q, hq, hpos⟩ : ∃ q : ℚ, F64.ofBits 1#64 = .fin q ∧ 0 < q :=
    ⟨binary64.value 1, by decide +kernel, BinaryFormat.value_pos one_pos⟩
  rw [fractionDelta, hleast, hq, F64.maxNum, show (F64.fin q).isNan = false from rfl]
  generalize (F64.fin (1 / 2)).mul ((F64.nextAfter value F64.maxFinite).sub value) = half
  rw [if_neg (show ¬ false = true by decide)]
  cases half with
  | fin p =>
    rw [show (F64.fin p).isNan = false from rfl, if_neg (show ¬ false = true by decide)]
    split
    · next h => exact decide_eq_true (hpos.trans (of_decide_eq_true h))
    · exact decide_eq_true hpos
  | posInf => rfl
  | negInf | nan => exact decide_eq_true hpos
  | negZero =>
    have hlt : ¬ (F64.fin q).lt .negZero = true := fun h => hpos.not_gt (of_decide_eq_true h)
    rw [if_neg (by decide), if_neg hlt]
    exact decide_eq_true hpos

theorem fractionPart_natCast (fuel radix : ℕ) (hn : n < 2 ^ 53) :
    fractionPart fuel radix (.ofInt n) = some ⟨false, List.replicate bufHalf '\x00', 0⟩ := by
  have hfloor : (F64.ofInt n).floor = .ofInt n := by
    change F64.fin ((⌊((n : ℤ) : ℚ)⌋ : ℤ) : ℚ) = _
    rw [Int.floor_intCast]
    rfl
  have hfraction : (fractionStart (.ofInt n)).fraction = .fin 0 := by
    change (F64.ofInt n).sub (F64.ofInt n).floor = _
    rw [hfloor, F64.sub_natCast le_rfl hn, Nat.sub_self]
    rfl
  have hdelta : F64.lt (.fin 0) (fractionStart (.ofInt n)).delta = true := fractionDelta_pos _
  have hle : (fractionStart (.ofInt n)).delta.le (.fin 0) = false := by
    revert hdelta
    generalize (fractionStart (.ofInt n)).delta = delta
    intro hdelta
    cases delta with
    | fin q =>
      have hq : (0 : ℚ) < q := of_decide_eq_true hdelta
      have hne : F64.fin q ≠ .fin 0 := fun h => hq.ne' (F64.fin.inj h)
      change (decide (q < 0) || decide (F64.fin q = .fin 0)) = _
      rw [decide_eq_false hq.not_gt, decide_eq_false hne]
      rfl
    | posInf => rfl
    | negInf => cases hdelta
    | nan => rfl
    | negZero => cases hdelta
  rw [fractionPart, hdelta, hfraction, hle]
  rfl

def integerString (radix : ℕ) (i : ℤ) : List Char :=
  (if i < 0 then ['-'] else []) ++ (digits radix i.natAbs).map digitChar

theorem toNativeStringRadix_intCast (hradix : 2 ≤ radix) (hle : radix ≤ 36) {fuel : ℕ} (hfuel : 53 < fuel) {i : ℤ}
    (hi : i.natAbs < 2 ^ 53) :
    toNativeStringRadix fuel (.ofInt i) radix = some (integerString radix i) := by
  have hneg : (if (F64.ofInt i).isNeg then (F64.ofInt i).neg else .ofInt i) = .ofInt i.natAbs := by
    change (if decide ((i : ℚ) < 0) then (if (i : ℚ) = 0 then F64.negZero else .fin (-(i : ℚ))) else .ofInt i) = _
    by_cases h : i < 0
    · rw [if_pos (decide_eq_true (Int.cast_lt_zero.mpr h)), if_neg (Int.cast_ne_zero.mpr h.ne), ← Int.cast_neg,
        show (i.natAbs : ℤ) = -i by omega]
      rfl
    · rw [if_neg (by simpa using h), show (i.natAbs : ℤ) = i by omega]
  have hlength : (digits radix i.natAbs).length ≤ 53 :=
    length_digits_le (by omega) (by decide) (hi.trans_le (Nat.pow_le_pow_left hradix 53))
  have hfloor : (F64.ofInt i.natAbs).floor = .ofInt i.natAbs := by
    change F64.fin ((⌊((i.natAbs : ℤ) : ℚ)⌋ : ℤ) : ℚ) = _
    rw [Int.floor_intCast]
    rfl
  obtain ⟨fuel, rfl⟩ : ∃ k, fuel = k + 1 := ⟨fuel - 1, by omega⟩
  have hpad : padLoop radix (fuel + 1) (.ofInt i.natAbs) [] = some (.ofInt i.natAbs, []) := by
    rw [padLoop, if_neg (F64.integerExponent_div_le hradix hi)]
  have hloop := @integerLoop_natCast i.natAbs radix hradix hle 52 (fuel + 1) [] hi hi (by omega) (by decide)
  rw [List.append_nil] at hloop
  rw [toNativeStringRadix, hneg]
  dsimp only
  rw [show (F64.ofInt i.natAbs).isNan = false from rfl, show (F64.ofInt i.natAbs).isInfinite = false from rfl,
    fractionPart_natCast _ _ hi, if_neg (by simp; omega)]
  change (padLoop radix (fuel + 1) (F64.ofInt i.natAbs).floor []).bind _ = _
  rw [hfloor, hpad]
  change (integerLoop radix (fuel + 1) (.ofInt i.natAbs) []).bind _ = _
  rw [hloop, Option.bind_some]
  have hbuf : ((digits radix i.natAbs).map digitChar).length < 1099 := by
    rw [List.length_map]
    omega
  have hsign : (F64.ofInt i).isNeg = decide (i < 0) := decide_eq_decide.mpr Int.cast_lt_zero
  rw [hsign, integerString]
  by_cases h : i < 0
  · rw [if_pos (decide_eq_true h), if_pos h, writeInt_eq (by rw [bufHalf]; omega)]
    change (if (_ :: _).length < bufHalf then some (_ ++ _) else none) = _
    rw [if_pos (by rw [List.length_cons, bufHalf]; omega), List.take_zero, List.append_nil]
    rfl
  · rw [if_neg (by simpa using h), if_neg h]
    change (if List.length _ < bufHalf then some (_ ++ _) else none) = _
    rw [if_pos (by rw [bufHalf]; omega), List.take_zero, List.append_nil]
    rfl

end Integer

end Starlight
