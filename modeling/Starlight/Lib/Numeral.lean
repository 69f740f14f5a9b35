import Mathlib.Data.Nat.Digits.Defs
import Mathlib.Data.Nat.Digits.Lemmas
import Mathlib.Tactic.Common
import Mathlib.Tactic.Ring

/-!
# Numerals

Digits are numbers below the radix, the most significant one first, and `ofDigits` is the number they
stand for. `fromDigit` and `toDigit` go between a digit and its character, letters after the nines.
-/

namespace Starlight

namespace Numeral

/-! ### The number of a list of digits -/

/-- The number that the digits stand for. -/
def ofDigits (b : ℕ) (ds : List ℕ) : ℕ := Nat.ofDigits b ds.reverse

variable {b d : ℕ} {ds es : List ℕ}

@[simp] theorem ofDigits_nil : ofDigits b [] = 0 := rfl

theorem ofDigits_append (ds es : List ℕ) :
    ofDigits b (ds ++ es) = ofDigits b ds * b ^ es.length + ofDigits b es := by
  rw [ofDigits, List.reverse_append, Nat.ofDigits_append, List.length_reverse, ofDigits, ofDigits]
  ring

@[simp] theorem ofDigits_singleton (d : ℕ) : ofDigits b [d] = d := by
  simp [ofDigits]

@[simp] theorem ofDigits_concat (ds : List ℕ) (d : ℕ) : ofDigits b (ds ++ [d]) = ofDigits b ds * b + d := by
  rw [ofDigits_append, ofDigits_singleton, List.length_singleton, pow_one]

theorem ofDigits_cons (d : ℕ) (ds : List ℕ) :
    ofDigits b (d :: ds) = d * b ^ ds.length + ofDigits b ds := by
  rw [← List.singleton_append, ofDigits_append, ofDigits_singleton]

@[simp] theorem ofDigits_replicate_zero (k : ℕ) : ofDigits b (List.replicate k 0) = 0 := by
  induction k with
  | zero => rfl
  | succ k ih => rw [List.replicate_succ', ofDigits_concat, ih, Nat.zero_mul]

theorem ofDigits_lt (hb : 1 < b) (hds : ∀ d ∈ ds, d < b) : ofDigits b ds < b ^ ds.length := by
  rw [← List.length_reverse]
  exact Nat.ofDigits_lt_base_pow_length hb fun d hd => hds d (List.mem_reverse.mp hd)

/-! ### Rounding -/

def nearest (x y : ℕ) : ℕ := (2 * x + y) / (2 * y)

theorem nearest_mul_mul {x y k : ℕ} (hk : 0 < k) : nearest (x * k) (y * k) = nearest x y := by
  rw [nearest, nearest, ← Nat.mul_assoc, ← Nat.mul_assoc, ← Nat.add_mul, Nat.mul_div_mul_right _ _ hk]

theorem nearest_mul_self {x y : ℕ} (hy : 0 < y) : nearest (x * y) y = x := by
  have := @nearest_mul_mul x 1 y hy
  rw [Nat.one_mul] at this
  rw [this, nearest]
  omega

/-- To drop digits is to round up when the first of them is at least five. -/
theorem nearest_append_cons (ds : List ℕ) (hd : d < 10) (hes : ∀ e ∈ es, e < 10) :
    nearest (ofDigits 10 (ds ++ d :: es)) (10 ^ (es.length + 1)) =
      ofDigits 10 ds + if 5 ≤ d then 1 else 0 := by
  have hrest : ofDigits 10 es < 10 ^ es.length := ofDigits_lt (by decide) hes
  rw [ofDigits_append, ofDigits_cons, List.length_cons, nearest, pow_succ]
  set p := 10 ^ es.length
  set K := ofDigits 10 ds
  have hsplit : 2 * (K * (p * 10) + (d * p + ofDigits 10 es)) + p * 10 =
      2 * (d * p + ofDigits 10 es) + p * 10 + K * (2 * (p * 10)) := by ring
  rw [hsplit, Nat.add_mul_div_right _ _ (by omega), Nat.add_comm]
  congr 1
  split
  · next hup =>
    have hlow : 5 * p ≤ d * p := Nat.mul_le_mul_right p hup
    have hhigh : d * p ≤ 9 * p := Nat.mul_le_mul_right p (by omega)
    exact Nat.div_eq_of_lt_le (by omega) (by omega)
  · next hdown =>
    have hhigh : d * p ≤ 4 * p := Nat.mul_le_mul_right p (by omega)
    exact Nat.div_eq_of_lt (by omega)

/-! ### The next number -/

theorem ofDigits_nines (k : ℕ) : ofDigits 10 (List.replicate k 9) + 1 = 10 ^ k := by
  induction k with
  | zero => rfl
  | succ k ih => rw [List.replicate_succ', ofDigits_concat, pow_succ, ← ih]; ring

/-- The nines at the end become zeros, and the digit before them goes up. -/
theorem ofDigits_carry (ds : List ℕ) (d k : ℕ) :
    ofDigits 10 (ds ++ (d + 1) :: List.replicate k 0) =
      ofDigits 10 (ds ++ d :: List.replicate k 9) + 1 := by
  have hnines := ofDigits_nines k
  rw [ofDigits_append, ofDigits_append, ofDigits_cons, ofDigits_cons, ofDigits_replicate_zero, List.length_cons,
    List.length_cons, List.length_replicate, List.length_replicate, ← hnines]
  ring

/-- Decimal digits are nines, or end in nines behind another digit. -/
theorem nines_cases (hds : ∀ d ∈ ds, d < 10) : (∃ k, ds = List.replicate k 9) ∨
    ∃ init d k, d < 9 ∧ ds = init ++ d :: List.replicate k 9 := by
  induction ds using List.reverseRecOn with
  | nil => exact Or.inl ⟨0, rfl⟩
  | append_singleton ds d ih =>
    have hd : d < 10 := hds d (by simp)
    rcases Nat.lt_or_ge d 9 with hlt | hge
    · exact Or.inr ⟨ds, d, 0, hlt, rfl⟩
    obtain rfl : d = 9 := by omega
    rcases ih fun e he => hds e (List.mem_append_left _ he) with ⟨k, rfl⟩ | ⟨init, e, k, he, rfl⟩
    · exact Or.inl ⟨k + 1, by rw [List.replicate_succ']⟩
    · exact Or.inr ⟨init, e, k + 1, he, by simp [List.replicate_succ']⟩

/-! ### The digits of a number -/

/-- The digits of a number, from the first; of zero there is one. -/
def digits (b n : ℕ) : List ℕ := if n = 0 then [0] else (Nat.digits b n).reverse

theorem digits_of_lt {n : ℕ} (h : n < b) : digits b n = [n] := by
  rcases Nat.eq_zero_or_pos n with rfl | hn
  · exact if_pos rfl
  · rw [digits, if_neg hn.ne', Nat.digits_of_lt b n hn.ne' h]
    rfl

theorem digits_of_le {n : ℕ} (hb : 1 < b) (h : b ≤ n) : digits b n = digits b (n / b) ++ [n % b] := by
  have hn : n ≠ 0 := by omega
  have hdiv : n / b ≠ 0 := (Nat.div_pos h (by omega)).ne'
  rw [digits, if_neg hn, digits, if_neg hdiv, Nat.digits_def' hb (by omega), List.reverse_cons]

theorem digits_lt {n : ℕ} (hb : 1 < b) : ∀ d ∈ digits b n, d < b := by
  intro d hd
  unfold digits at hd
  split at hd
  · rw [List.mem_singleton.mp hd]
    omega
  · exact Nat.digits_lt_base hb (List.mem_reverse.mp hd)

theorem ofDigits_digits (b n : ℕ) : ofDigits b (digits b n) = n := by
  unfold digits
  split
  · next h => rw [h, ofDigits_singleton]
  · rw [ofDigits, List.reverse_reverse, Nat.ofDigits_digits]

theorem digits_ne_nil (b n : ℕ) : digits b n ≠ [] := by
  unfold digits
  split
  · exact List.cons_ne_nil _ _
  · next h => exact fun hnil => h (Nat.digits_eq_nil_iff_eq_zero.mp (List.reverse_eq_nil_iff.mp hnil))

theorem length_digits_le {n k : ℕ} (hb : 1 < b) (hk : 0 < k) (h : n < b ^ k) : (digits b n).length ≤ k := by
  unfold digits
  split
  · exact hk
  · rw [List.length_reverse]
    exact (Nat.digits_length_le_iff hb n).mpr h

/-! ### Characters -/

def fromDigit (num radix : ℕ) : Option Char :=
  if num < radix then some (if num < 10 then Char.ofNat (48 + num) else Char.ofNat (87 + num)) else none

def toDigit (c : Char) (radix : ℕ) : Option ℕ :=
  if c.isDigit then Option.guard (fun d => decide (d < radix)) (c.toNat - 48)
  else if c.isLower then Option.guard (fun d => decide (d < radix)) (c.toNat - 87)
  else if c.isUpper then Option.guard (fun d => decide (d < radix)) (c.toNat - 55)
  else none

def digitChar (d : ℕ) : Char := if d < 10 then Char.ofNat (48 + d) else Char.ofNat (87 + d)

theorem fromDigit_eq {radix : ℕ} (h : d < radix) : fromDigit d radix = some (digitChar d) := if_pos h

theorem fromDigit_eq_some {radix : ℕ} {c : Char} :
    fromDigit d radix = some c ↔ d < radix ∧ c = digitChar d := by
  unfold fromDigit digitChar
  split
  · next h => exact ⟨fun hc => ⟨h, (Option.some.inj hc).symm⟩, fun hc => congrArg some hc.2.symm⟩
  · next h => exact ⟨nofun, fun hc => absurd hc.1 h⟩

/-- A digit is read back from its character when the radix of the reader allows it. -/
theorem toDigit_digitChar (h : d < 36) (radix : ℕ) :
    toDigit (digitChar d) radix = if d < radix then some d else none := by
  have hread : ∀ d < 36, ∀ radix, toDigit (digitChar d) radix =
      Option.guard (fun d => decide (d < radix)) d := by
    intro d hd radix
    interval_cases d <;> rfl
  rw [hread d h radix, Option.guard]
  simp only [decide_eq_true_eq]

theorem digitChar_inj {e : ℕ} (hd : d < 10) (he : e < 10) (h : digitChar d = digitChar e) : d = e := by
  revert h
  interval_cases d <;> interval_cases e <;> decide

theorem map_digitChar_inj {ds es : List ℕ} (hds : ∀ d ∈ ds, d < 10) (hes : ∀ e ∈ es, e < 10)
    (h : ds.map digitChar = es.map digitChar) : ds = es := by
  induction ds generalizing es with
  | nil => exact (List.map_eq_nil_iff.mp h.symm).symm
  | cons d ds ih =>
    cases es with
    | nil => cases h
    | cons e es =>
      obtain ⟨hhead, htail⟩ := List.cons.inj h
      rw [List.forall_mem_cons] at hds hes
      rw [digitChar_inj hds.1 hes.1 hhead, ih hds.2 hes.2 htail]

theorem digitChar_ne_point (hd : d < 10) : digitChar d ≠ '.' := by
  interval_cases d <;> decide

theorem digitChar_eq_nine (hd : d < 10) : digitChar d = '9' ↔ d = 9 := by
  interval_cases d <;> decide

end Numeral

end Starlight
