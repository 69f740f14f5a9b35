import Mathlib.Tactic.IntervalCases

/-!
# The Gregorian calendar

Months are counted from zero and through: month `M` is the month `M % 12` of the year `M / 12`. `monthStart`
is the number of the first day of a month, day zero being the first of January 1970, and goes up by the
length of the month from each to the next.
-/

namespace Starlight

namespace Calendar

/-- The year has a 29th of February. -/
def IsLeap (year : ℤ) : Prop := 4 ∣ year ∧ (100 ∣ year → 400 ∣ year)

instance (year : ℤ) : Decidable (IsLeap year) := inferInstanceAs (Decidable (_ ∧ (_ → _)))

def daysInFebruary (year : ℤ) : ℤ := if IsLeap year then 29 else 28

def daysInMonth (year : ℤ) : ℕ → ℤ
  | 1 => daysInFebruary year
  | 3 | 5 | 8 | 10 => 30
  | _ => 31

/-- The number of the first of January. -/
def yearStart (year : ℤ) : ℤ :=
  365 * year + (year + 3) / 4 - (year + 99) / 100 + (year + 399) / 400 - 719528

def daysBefore (year : ℤ) : ℕ → ℤ
  | 0 => 0
  | m + 1 => daysBefore year m + daysInMonth year m

/-- The number of the first day of a month. -/
def monthStart (M : ℤ) : ℤ := yearStart (M / 12) + daysBefore (M / 12) (M % 12).toNat

def monthLength (M : ℤ) : ℤ := daysInMonth (M / 12) (M % 12).toNat

theorem daysInFebruary_cases (year : ℤ) : daysInFebruary year = 28 ∨ daysInFebruary year = 29 := by
  unfold daysInFebruary
  split
  · exact Or.inr rfl
  · exact Or.inl rfl

theorem daysInMonth_bounds (year : ℤ) (m : ℕ) : 28 ≤ daysInMonth year m ∧ daysInMonth year m ≤ 31 := by
  unfold daysInMonth
  split
  · rcases daysInFebruary_cases year with h | h <;> omega
  all_goals omega

theorem monthLength_bounds (M : ℤ) : 28 ≤ monthLength M ∧ monthLength M ≤ 31 := daysInMonth_bounds _ _

theorem yearStart_succ (year : ℤ) : yearStart (year + 1) = yearStart year + 337 + daysInFebruary year := by
  unfold yearStart daysInFebruary
  by_cases hleap : IsLeap year
  · rw [if_pos hleap]
    unfold IsLeap at hleap
    omega
  · rw [if_neg hleap]
    unfold IsLeap at hleap
    omega

theorem daysBefore_twelve (year : ℤ) : daysBefore year 12 = 337 + daysInFebruary year := by
  simp only [daysBefore, daysInMonth]
  omega

theorem monthStart_of_lt (year : ℤ) {m : ℕ} (hm : m < 12) :
    monthStart (12 * year + m) = yearStart year + daysBefore year m := by
  rw [monthStart, show (12 * year + m) / 12 = year by omega, show ((12 * year + m) % 12).toNat = m by omega]

theorem monthLength_of_lt (year : ℤ) {m : ℕ} (hm : m < 12) :
    monthLength (12 * year + m) = daysInMonth year m := by
  rw [monthLength, show (12 * year + m) / 12 = year by omega, show ((12 * year + m) % 12).toNat = m by omega]

/-- **The next month** begins when the month is over. -/
theorem monthStart_succ (M : ℤ) : monthStart (M + 1) = monthStart M + monthLength M := by
  obtain ⟨year, m, hm, rfl⟩ : ∃ (year : ℤ) (m : ℕ), m < 12 ∧ M = 12 * year + m :=
    ⟨M / 12, (M % 12).toNat, by omega, by omega⟩
  rw [monthStart_of_lt year hm, monthLength_of_lt year hm]
  by_cases hlast : m + 1 < 12
  · rw [show 12 * year + (m : ℤ) + 1 = 12 * year + (m + 1 : ℕ) by push_cast; omega, monthStart_of_lt year hlast,
      daysBefore]
    omega
  · obtain rfl : m = 11 := by omega
    have hnext : (12 * year + ((11 : ℕ) : ℤ) + 1) = 12 * (year + 1) + ((0 : ℕ) : ℤ) := by push_cast; omega
    have htwelve := daysBefore_twelve year
    rw [hnext, monthStart_of_lt (year + 1) (by decide), yearStart_succ]
    rw [daysBefore] at htwelve
    rw [daysBefore]
    omega

/-- Later months begin later, by 28 days at least for each. -/
theorem monthStart_add (M : ℤ) (k : ℕ) : monthStart M + 28 * k ≤ monthStart (M + k) := by
  induction k with
  | zero => simp
  | succ k ih =>
    have hsucc := monthStart_succ (M + k)
    have hlen := monthLength_bounds (M + k)
    rw [show M + ((k + 1 : ℕ) : ℤ) = M + k + 1 by push_cast; omega, hsucc]
    push_cast
    omega

theorem monthStart_lt {M M' : ℤ} (h : M < M') : monthStart M + monthLength M ≤ monthStart M' := by
  obtain ⟨k, rfl⟩ : ∃ k : ℕ, M' = M + 1 + k := ⟨(M' - (M + 1)).toNat, by omega⟩
  have hadd := monthStart_add (M + 1) k
  rw [monthStart_succ] at hadd
  omega

def IsDay (n M d : ℤ) : Prop := 0 ≤ d ∧ d < monthLength M ∧ monthStart M + d = n

theorem IsDay.month_unique {n M M' d d' : ℤ} (h : IsDay n M d) (h' : IsDay n M' d') : M = M' := by
  obtain ⟨h0, hlt, heq⟩ := h
  obtain ⟨h0', hlt', heq'⟩ := h'
  rcases lt_trichotomy M M' with hM | hM | hM
  · have := monthStart_lt hM
    omega
  · exact hM
  · have := monthStart_lt hM
    omega

end Calendar

end Starlight
