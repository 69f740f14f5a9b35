import Mathlib.Algebra.Order.Archimedean.Basic
import Mathlib.Data.Int.Log
import Mathlib.Tactic.Positivity

/-!
# Binary floating-point formats

The magnitudes of a format are natural numbers, as in memory: the exponent field above the fraction
field. `value` is the number that a magnitude stands for, subnormal numbers included, and `encode` rounds
a nonnegative rational to a magnitude, to nearest with ties to even. A carry out of the fraction raises
the exponent by itself, so `encode` needs no case for it.
-/

namespace Starlight

/-! ### Rounding to an integer -/

/-- The nearest integer, the even one of two. -/
def roundEven (x : ℚ) : ℤ :=
  if x - ⌊x⌋ < 1 / 2 then ⌊x⌋
  else if 1 / 2 < x - ⌊x⌋ then ⌊x⌋ + 1
  else if ⌊x⌋ % 2 = 0 then ⌊x⌋
  else ⌊x⌋ + 1

theorem roundEven_intCast (n : ℤ) : roundEven n = n := by
  rw [roundEven, Int.floor_intCast, sub_self, if_pos (by norm_num)]

theorem floor_le_roundEven (x : ℚ) : ⌊x⌋ ≤ roundEven x := by
  unfold roundEven
  split_ifs <;> omega

theorem roundEven_le_floor_add_one (x : ℚ) : roundEven x ≤ ⌊x⌋ + 1 := by
  unfold roundEven
  split_ifs <;> omega

theorem roundEven_mono {x y : ℚ} (h : x ≤ y) : roundEven x ≤ roundEven y := by
  rcases (Int.floor_mono h).lt_or_eq with hlt | heq
  · exact (roundEven_le_floor_add_one x).trans ((Int.add_one_le_iff.mpr hlt).trans (floor_le_roundEven y))
  · -- with one integer part, the fractions are in order
    have hfrac : x - ⌊x⌋ ≤ y - ⌊y⌋ := by rw [heq]; linarith
    unfold roundEven
    rw [heq] at hfrac ⊢
    split_ifs <;> first | omega | (exfalso; linarith)

/-- A binary format: the width of the fraction field, the width of the exponent field, and the exponent
of the last place of the subnormal numbers. -/
structure BinaryFormat where
  fractionBits : ℕ
  exponentBits : ℕ
  emin : ℤ

namespace BinaryFormat

variable (fmt : BinaryFormat)

/-- The magnitude of the infinities: all ones in the exponent field. -/
def infinity : ℕ := (2 ^ fmt.exponentBits - 1) * 2 ^ fmt.fractionBits

/-- How far the last place lies above that of the subnormal numbers. -/
def scale (M : ℕ) : ℕ := M / 2 ^ fmt.fractionBits - 1

/-- The digits of a magnitude, the leading one included. -/
def significand (M : ℕ) : ℕ := M - fmt.scale M * 2 ^ fmt.fractionBits

/-- The number that a magnitude stands for. -/
def value (M : ℕ) : ℚ := fmt.significand M * 2 ^ (fmt.emin + fmt.scale M)

/-- The scale at which a number is written. -/
def scaleOf (q : ℚ) : ℕ := (Int.log 2 q - fmt.fractionBits - fmt.emin).toNat

/-- The magnitude nearest to `q`; zero for a negative number. -/
def encode (q : ℚ) : ℕ :=
  if q ≤ 0 then 0
  else fmt.scaleOf q * 2 ^ fmt.fractionBits +
    (roundEven (q / 2 ^ (fmt.emin + fmt.scaleOf q))).toNat

/-- `q` is one of the numbers of the format. -/
def Representable (q : ℚ) : Prop := ∃ M < fmt.infinity, fmt.value M = |q|

variable {fmt} {M : ℕ} {q : ℚ}

theorem value_zero : fmt.value 0 = 0 := by
  simp [value, significand, scale]

/-- A magnitude is subnormal, or its digits begin with a one. -/
theorem scale_cases (M : ℕ) :
    (fmt.scale M = 0 ∧ fmt.significand M = M ∧ M < 2 ^ fmt.fractionBits) ∨
      (2 ^ fmt.fractionBits ≤ fmt.significand M ∧ fmt.significand M < 2 ^ (fmt.fractionBits + 1) ∧
        fmt.scale M * 2 ^ fmt.fractionBits + fmt.significand M = M) := by
  have hpos : 0 < 2 ^ fmt.fractionBits := Nat.two_pow_pos _
  have hsplit := Nat.div_add_mod' M (2 ^ fmt.fractionBits)
  have hmod := Nat.mod_lt M hpos
  rcases Nat.eq_zero_or_pos (M / 2 ^ fmt.fractionBits) with hk | hk
  · left
    have hscale : fmt.scale M = 0 := by rw [scale, hk]
    refine ⟨hscale, ?_, (Nat.div_eq_zero_iff_lt hpos).mp hk⟩
    rw [significand, hscale, Nat.zero_mul, Nat.sub_zero]
  · right
    obtain ⟨k, hk⟩ := Nat.exists_eq_add_of_le' hk
    have hscale : fmt.scale M = k := by rw [scale, hk, Nat.add_sub_cancel]
    rw [hk, Nat.add_mul, Nat.one_mul] at hsplit
    rw [significand, hscale, Nat.pow_succ]
    omega

theorem value_pos (hM : 0 < M) : 0 < fmt.value M := by
  have hsig : 0 < fmt.significand M := by
    rcases fmt.scale_cases M with ⟨-, h, -⟩ | ⟨h, -, -⟩
    · rwa [h]
    · exact lt_of_lt_of_le (Nat.two_pow_pos _) h
  exact mul_pos (Nat.cast_pos.mpr hsig) (zpow_pos two_pos _)

theorem value_nonneg (M : ℕ) : 0 ≤ fmt.value M := by
  rcases Nat.eq_zero_or_pos M with rfl | hM
  · rw [value_zero]
  · exact (value_pos hM).le

/-- A number of the format is written at its own scale. -/
theorem scaleOf_value (hM : 0 < M) : fmt.scaleOf (fmt.value M) = fmt.scale M := by
  have hval : 0 < fmt.value M := value_pos hM
  have htwo : (0 : ℚ) < 2 ^ (fmt.emin + fmt.scale M) := zpow_pos two_pos _
  rcases fmt.scale_cases M with ⟨hscale, hsig, hlt⟩ | ⟨hle, hlt, -⟩
  · have hlog : Int.log 2 (fmt.value M) < fmt.fractionBits + fmt.emin := by
      refine (Int.lt_zpow_iff_log_lt one_lt_two hval).mp ?_
      rw [value, hsig, hscale, Nat.cast_zero, add_zero, Nat.cast_ofNat, zpow_add₀ two_ne_zero,
        zpow_natCast]
      exact mul_lt_mul_of_pos_right (mod_cast hlt) (zpow_pos two_pos _)
    rw [scaleOf, hscale]
    omega
  · have hlow : (fmt.fractionBits : ℤ) + (fmt.emin + fmt.scale M) ≤ Int.log 2 (fmt.value M) := by
      refine (Int.zpow_le_iff_le_log one_lt_two hval).mp ?_
      rw [value, Nat.cast_ofNat, zpow_add₀ two_ne_zero, zpow_natCast]
      exact mul_le_mul_of_nonneg_right (mod_cast hle) htwo.le
    have hhigh : Int.log 2 (fmt.value M) < ((fmt.fractionBits + 1 : ℕ) : ℤ) + (fmt.emin + fmt.scale M) := by
      refine (Int.lt_zpow_iff_log_lt one_lt_two hval).mp ?_
      rw [value, Nat.cast_ofNat, zpow_add₀ two_ne_zero ((fmt.fractionBits + 1 : ℕ) : ℤ), zpow_natCast]
      exact mul_lt_mul_of_pos_right (mod_cast hlt) htwo
    rw [scaleOf]
    omega

/-- **Rounding** does not change a number of the format. -/
theorem encode_value (M : ℕ) : fmt.encode (fmt.value M) = M := by
  rcases Nat.eq_zero_or_pos M with rfl | hM
  · rw [value_zero, encode, if_pos le_rfl]
  rw [encode, if_neg (not_le.mpr (value_pos hM)), scaleOf_value hM, value,
    mul_div_cancel_right₀ _ (zpow_pos two_pos _).ne']
  have hround : roundEven (fmt.significand M : ℚ) = fmt.significand M := by
    rw [← Int.cast_natCast, roundEven_intCast]
  rw [hround, Int.toNat_natCast]
  rcases fmt.scale_cases M with ⟨hscale, hsig, -⟩ | ⟨-, -, hsum⟩
  · rw [hscale, hsig, Nat.zero_mul, Nat.zero_add]
  · exact hsum

/-- The digits of the rounded magnitude: as many as the significand has, or one more after a carry. -/
theorem round_le (fmt : BinaryFormat) (q : ℚ) :
    (roundEven (q / 2 ^ (fmt.emin + fmt.scaleOf q))).toNat ≤ 2 ^ (fmt.fractionBits + 1) := by
  have htwo : (0 : ℚ) < 2 ^ (fmt.emin + fmt.scaleOf q) := zpow_pos two_pos _
  have hlt : q < 2 ^ (Int.log 2 q + 1) := by
    have := Int.lt_zpow_succ_log_self Nat.one_lt_two q
    rwa [Nat.cast_ofNat] at this
  have hle : q / 2 ^ (fmt.emin + fmt.scaleOf q) ≤ ((2 ^ (fmt.fractionBits + 1) : ℕ) : ℤ) := by
    rw [div_le_iff₀ htwo]
    refine hlt.le.trans ?_
    push_cast
    rw [← zpow_natCast, ← zpow_add₀ two_ne_zero]
    refine zpow_le_zpow_right₀ one_le_two ?_
    rw [scaleOf]
    push_cast
    omega
  have := roundEven_mono hle
  rw [roundEven_intCast] at this
  exact Int.toNat_le.mpr this

/-- Above the subnormal numbers the digits begin with a one. -/
theorem le_round (hq : 0 < q) (hscale : 0 < fmt.scaleOf q) :
    2 ^ fmt.fractionBits ≤ (roundEven (q / 2 ^ (fmt.emin + fmt.scaleOf q))).toNat := by
  have htwo : (0 : ℚ) < 2 ^ (fmt.emin + fmt.scaleOf q) := zpow_pos two_pos _
  have hle : ((2 ^ fmt.fractionBits : ℕ) : ℤ) ≤ q / 2 ^ (fmt.emin + fmt.scaleOf q) := by
    rw [le_div_iff₀ htwo]
    refine le_trans ?_ (Int.zpow_log_le_self Nat.one_lt_two hq)
    push_cast
    rw [← zpow_natCast, ← zpow_add₀ two_ne_zero]
    refine zpow_le_zpow_right₀ one_le_two ?_
    rw [scaleOf] at hscale ⊢
    omega
  have := roundEven_mono hle
  rw [roundEven_intCast] at this
  have hnat := Int.toNat_le_toNat this
  rwa [Int.toNat_natCast] at hnat

/-- Rounding keeps the order. -/
theorem encode_mono {q' : ℚ} (h : q ≤ q') : fmt.encode q ≤ fmt.encode q' := by
  by_cases hq : q ≤ 0
  · rw [encode, if_pos hq]
    exact Nat.zero_le _
  have hpos : 0 < q := not_le.mp hq
  have hpos' : 0 < q' := hpos.trans_le h
  have hlog : Int.log 2 q ≤ Int.log 2 q' := Int.log_mono_right hpos h
  have hscale : fmt.scaleOf q ≤ fmt.scaleOf q' := by
    unfold scaleOf
    omega
  rw [encode, encode, if_neg hq, if_neg (not_le.mpr hpos')]
  rcases hscale.lt_or_eq with hlt | heq
  · -- a greater exponent makes up for any digits
    have hle := fmt.round_le q
    have hge := le_round hpos' (Nat.lt_of_le_of_lt (Nat.zero_le _) hlt)
    obtain ⟨d, hd⟩ := Nat.exists_eq_add_of_lt hlt
    have hsum : fmt.scaleOf q' * 2 ^ fmt.fractionBits =
        fmt.scaleOf q * 2 ^ fmt.fractionBits + d * 2 ^ fmt.fractionBits + 2 ^ fmt.fractionBits := by
      rw [hd]
      ring
    rw [pow_succ] at hle
    omega
  · rw [heq]
    have := roundEven_mono (div_le_div_of_nonneg_right h (zpow_pos two_pos (fmt.emin + fmt.scaleOf q')).le)
    rw [← heq] at this ⊢
    omega

/-- The magnitudes are in the order of their numbers. -/
theorem value_mono {M' : ℕ} (h : M ≤ M') : fmt.value M ≤ fmt.value M' := by
  by_contra hlt
  have hle := @encode_mono fmt _ _ (not_le.mp hlt).le
  rw [encode_value, encode_value] at hle
  obtain rfl := Nat.le_antisymm h hle
  exact hlt le_rfl

/-- A number of the format is what its magnitude stands for. -/
theorem Representable.value_encode (h : fmt.Representable q) :
    fmt.encode |q| < fmt.infinity ∧ fmt.value (fmt.encode |q|) = |q| := by
  obtain ⟨M, hM, hval⟩ := h
  rw [← hval, encode_value]
  exact ⟨hM, rfl⟩

/-- A number with no more digits than the significand, and not too small or too great, is one of the
format. -/
theorem representable_mul_zpow {n : ℕ} {e : ℤ} (hn : n < 2 ^ (fmt.fractionBits + 1))
    (hlow : fmt.fractionBits + fmt.emin ≤ e)
    (hhigh : e - fmt.emin + 3 ≤ 2 ^ fmt.exponentBits) : fmt.Representable (n * 2 ^ e) := by
  rcases Nat.eq_zero_or_pos n with rfl | hpos
  · refine ⟨0, ?_, by rw [value_zero, Nat.cast_zero, zero_mul, abs_zero]⟩
    have : (3 : ℤ) ≤ 2 ^ fmt.exponentBits := by omega
    have : 3 ≤ 2 ^ fmt.exponentBits := by exact_mod_cast this
    exact Nat.mul_pos (by omega) (Nat.two_pow_pos _)
  -- the leading digit is moved to the front
  set l := Nat.log 2 n with hl
  have hle : 2 ^ l ≤ n := Nat.pow_log_le_self 2 hpos.ne'
  have hlt : n < 2 ^ (l + 1) := Nat.lt_pow_succ_log_self one_lt_two n
  have hlf : l ≤ fmt.fractionBits := by
    have := (Nat.pow_lt_pow_iff_right one_lt_two).mp (lt_of_le_of_lt hle hn)
    omega
  obtain ⟨k, hk⟩ : ∃ k : ℕ, (k : ℤ) = e + l - fmt.fractionBits - fmt.emin :=
    ⟨(e + l - fmt.fractionBits - fmt.emin).toNat, by omega⟩
  obtain ⟨d, hd⟩ := Nat.exists_eq_add_of_le hlf
  have hsig : 2 ^ fmt.fractionBits ≤ n * 2 ^ d ∧ n * 2 ^ d < 2 * 2 ^ fmt.fractionBits := by
    rw [hd, pow_add, ← mul_assoc]
    refine ⟨Nat.mul_le_mul_right _ hle, ?_⟩
    exact (Nat.mul_lt_mul_right (Nat.two_pow_pos d)).mpr (by rwa [← pow_succ'])
  set M := k * 2 ^ fmt.fractionBits + n * 2 ^ d with hM
  have hdiv : M / 2 ^ fmt.fractionBits = k + 1 := by
    refine Nat.div_eq_of_lt_le ?_ ?_ <;> simp only [hM, Nat.add_mul, Nat.one_mul] <;> omega
  have hscale : fmt.scale M = k := by rw [scale, hdiv, Nat.add_sub_cancel]
  have hsigM : fmt.significand M = n * 2 ^ d := by
    rw [significand, hscale, hM, Nat.add_sub_cancel_left]
  refine ⟨M, ?_, ?_⟩
  · have hkk : k + 3 ≤ 2 ^ fmt.exponentBits := by
      have : ((k + 3 : ℕ) : ℤ) ≤ ((2 ^ fmt.exponentBits : ℕ) : ℤ) := by
        push_cast
        omega
      exact_mod_cast this
    have : (k + 3) * 2 ^ fmt.fractionBits ≤ 2 ^ fmt.exponentBits * 2 ^ fmt.fractionBits :=
      Nat.mul_le_mul_right _ hkk
    simp only [infinity, Nat.sub_mul, Nat.add_mul, Nat.one_mul, hM] at this ⊢
    omega
  · have habs : |(n * 2 ^ e : ℚ)| = n * 2 ^ e :=
      abs_of_nonneg (mul_nonneg (Nat.cast_nonneg n) (zpow_pos two_pos e).le)
    rw [value, hsigM, hscale, habs, hk, hd]
    push_cast
    rw [mul_assoc, ← zpow_natCast, ← zpow_add₀ two_ne_zero]
    rw [show (d : ℤ) + (fmt.emin + (e + l - (l + d) - fmt.emin)) = e by ring]

/-- The integers with no more digits than the significand are numbers of the format. -/
theorem representable_natCast {n : ℕ} (hn : n < 2 ^ (fmt.fractionBits + 1))
    (hlow : fmt.fractionBits + fmt.emin ≤ 0)
    (hhigh : -fmt.emin + 3 ≤ 2 ^ fmt.exponentBits) : fmt.Representable n := by
  have := @representable_mul_zpow fmt n 0 hn hlow (by omega)
  rwa [zpow_zero, mul_one] at this

end BinaryFormat

end Starlight
