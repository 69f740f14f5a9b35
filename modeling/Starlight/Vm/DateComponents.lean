import Starlight.Lib.Calendar
import Starlight.Lib.Loop
import Starlight.Vm.DateTime

/-!
# Components of dates

`set_components` puts new components into a date. `fix_day` first normalises the month, then takes whole
months off the day, or adds them to it, until it lies in the month. Machine integers are integers here, and
a checked operation that overflows is `none`.

The correction of negative months in `fix_month` is off by a year for the exact multiples of twelve.
-/

namespace Starlight

open Calendar

/-- What is used of chrono's dates: days of the Gregorian calendar, and the date-times made of them. -/
structure Chrono extends Timestamps where
  NaiveDate : Type
  fromYmdOpt : ℤ → ℕ → ℕ → Option NaiveDate
  numDaysSince : NaiveDate → NaiveDate → ℤ
  addMillis : NaiveDate → ℤ → Option NaiveDateTime
  year : NaiveDateTime → ℤ
  month0 : NaiveDateTime → ℕ
  day : NaiveDateTime → ℕ
  hour : NaiveDateTime → ℕ
  minute : NaiveDateTime → ℕ
  second : NaiveDateTime → ℕ
  nanosecond : NaiveDateTime → ℕ
  naiveLocal : NaiveDateTime → NaiveDateTime
  fromLocal : NaiveDateTime → Option NaiveDateTime
  dayNumber : NaiveDate → ℤ
  fromYmdOpt_some : ∀ y m d date, fromYmdOpt y m d = some date → 1 ≤ m ∧ m ≤ 12 ∧ 1 ≤ d ∧
    (d : ℤ) ≤ daysInMonth y (m - 1) ∧ dayNumber date = yearStart y + daysBefore y (m - 1) + d - 1
  numDaysSince_eq : ∀ a b, numDaysSince a b = dayNumber a - dayNumber b
  addMillis_some : ∀ date ms dt, addMillis date ms = some dt →
    timestampMillis dt = dayNumber date * 86400000 + ms

/-- The result of a checked operation on integers of this width. -/
def checked (bits : ℕ) (x : ℤ) : Option ℤ := if -2 ^ (bits - 1) ≤ x ∧ x < 2 ^ (bits - 1) then some x else none

variable (c : Chrono)

def numDaysIn (year : ℤ) (month : ℕ) : Option ℤ := do
  let nextYear ← (if month + 1 = 12 then checked 32 (year + 1) else some year : Option ℤ)
  let next ← c.fromYmdOpt nextYear (if month + 1 = 12 then 1 else month + 2) 1
  let first ← c.fromYmdOpt year (month + 1) 1
  some (c.numDaysSince next first)

def fixMonth (year month : ℤ) : Option (ℤ × ℕ) := do
  let year ← checked 32 (year + month.tdiv 12)
  if month < 0 then
    let year ← checked 32 (year - 1)
    some (year, (11 + (month + 1).tmod 12).toNat)
  else some (year, (month.tmod 12).toNat)

def borrowMonth (year month day : ℤ) : Option (ℤ × ℤ × ℤ) := do
  let (fixedYear, fixedMonth) ← fixMonth year (← checked 32 (month - 1))
  some (fixedYear, fixedMonth, day + (← numDaysIn c fixedYear fixedMonth))

/-- The other branch, with `none` inside when the loop ends. -/
def passMonth (year month day : ℤ) : Option (Option (ℤ × ℤ × ℤ)) := do
  let (fixedYear, fixedMonth) ← fixMonth year month
  let numDays ← numDaysIn c fixedYear fixedMonth
  if day ≥ numDays then some (some (year, ← checked 32 (month + 1), day - numDays)) else some none

def fixDayEnd (year month day : ℤ) : Option (ℤ × ℕ × ℕ) :=
  (fixMonth year month).map fun fixed => (fixed.1, fixed.2, day.toNat)

def fixDayStep : ℤ × ℤ × ℤ → Option (Option (ℤ × ℕ × ℕ) ⊕ ℤ × ℤ × ℤ)
  | (year, month, day) =>
    if day < 0 then
      match borrowMonth c year month day with
      | none => some (.inl none)
      | some s => some (.inr s)
    else
      match passMonth c year month day with
      | none => some (.inl none)
      | some none => some (.inl (fixDayEnd year month day))
      | some (some s) => some (.inr s)

def fixDay : ℕ → ℤ × ℤ × ℤ → Option (Option (ℤ × ℕ × ℕ))
  | 0, _ => none
  | fuel + 1, s => (fixDayStep c s).bind (Sum.elim some (fixDay fuel))

/-- The arguments of `set_components`. -/
structure Components where
  year : Option F64
  month : Option F64
  day : Option F64
  hour : Option F64
  minute : Option F64
  second : Option F64
  millisecond : Option F64

def Components.checkNormal (a : Components) : Bool :=
  [a.year, a.month, a.day, a.hour, a.minute, a.second, a.millisecond].all fun value =>
    (value.map isZeroOrNormal).getD true

/-- The components as integers. -/
structure DateFields where
  year : ℤ
  month : ℤ
  day : ℤ
  hour : ℤ
  minute : ℤ
  second : ℤ
  millisecond : ℤ

/-- The given components, and those of the date-time for the ones that are not. -/
def Components.fields (a : Components) (naive : c.NaiveDateTime) : DateFields where
  year := (a.year.getD (.ofInt (c.year naive))).toI32.toInt
  month := (a.month.getD (.ofInt (c.month0 naive))).toI32.toInt
  day := (a.day.getD (.ofInt (c.day naive))).toI32.toInt
  hour := (a.hour.getD (.ofInt (c.hour naive))).toI64
  minute := (a.minute.getD (.ofInt (c.minute naive))).toI64
  second := (a.second.getD (.ofInt (c.second naive))).toI64
  millisecond := (a.millisecond.getD ((F64.ofInt (c.nanosecond naive)).div (.fin 1000000))).toI64

def DateFields.duration (f : DateFields) : Option ℤ := do
  let hour ← checked 64 (f.hour * 3600000)
  let minute ← checked 64 (f.minute * 60000)
  let second ← checked 64 (f.second * 1000)
  checked 64 ((← checked 64 ((← checked 64 (hour + minute)) + second)) + f.millisecond)

def DateFields.dateTime (f : DateFields) (utc : Bool) (fixed : ℤ × ℕ × ℕ) : Date c.toTimestamps := do
  let duration ← f.duration
  let date ← c.fromYmdOpt fixed.1 (fixed.2.1 + 1) (fixed.2.2 + 1)
  let civil ← c.addMillis date duration
  let dt ← (if utc then some civil else c.fromLocal civil : Option c.NaiveDateTime)
  if (timeClip (F64.ofRat (c.timestampMillis dt))).isSome then some dt else none

def setComponents (fuel : ℕ) (utc : Bool) (date : Date c.toTimestamps) (a : Components) :
    Option (Date c.toTimestamps) :=
  if !a.checkNormal then some none
  else
    match if utc then date else date.map c.naiveLocal with
    | none => some none
    | some naive =>
      let f := a.fields c naive
      match checked 32 (f.day - 1) with
      | none => some none
      | some day => (fixDay c fuel (f.year, f.month, day)).map fun fixed => fixed.bind (f.dateTime c utc)

/-! ### One step -/

theorem checked_eq_some {bits : ℕ} {x y : ℤ} (h : checked bits x = some y) : y = x := by
  unfold checked at h
  split at h
  · exact (Option.some.inj h).symm
  · cases h

theorem fixMonth_eq_some {year month : ℤ} {fixed : ℤ × ℕ} (h : fixMonth year month = some fixed) :
    fixed.2 < 12 ∧
      12 * fixed.1 + fixed.2 = 12 * year + month - if month < 0 ∧ 12 ∣ month then 12 else 0 := by
  unfold fixMonth at h
  obtain ⟨y, hy, h⟩ := Option.bind_eq_some_iff.mp h
  obtain rfl := checked_eq_some hy
  rcases lt_or_ge month 0 with hneg | hpos
  · rw [if_pos hneg] at h
    obtain ⟨y', hy', h⟩ := Option.bind_eq_some_iff.mp h
    obtain rfl := checked_eq_some hy'
    obtain ⟨n, hn⟩ := Int.eq_ofNat_of_zero_le (Int.neg_nonneg_of_nonpos hneg.le)
    obtain rfl : month = -(n : ℤ) := by omega
    -- both operations round toward zero
    have htdiv : (-(n : ℤ)).tdiv 12 = -((n / 12 : ℕ) : ℤ) := by
      rw [Int.neg_tdiv, Int.tdiv_eq_ediv_of_nonneg (Int.natCast_nonneg n)]
      rfl
    have htmod : (-(n : ℤ) + 1).tmod 12 = -(((n - 1) % 12 : ℕ) : ℤ) := by
      rw [show -(n : ℤ) + 1 = -((n - 1 : ℕ) : ℤ) by omega, Int.neg_tmod,
        Int.tmod_eq_emod_of_nonneg (Int.natCast_nonneg _)]
      rfl
    rw [htdiv, htmod] at h
    cases h
    constructor
    · omega
    · split <;> omega
  · rw [if_neg (not_lt.mpr hpos)] at h
    cases h
    rw [Int.tdiv_eq_ediv_of_nonneg hpos, Int.tmod_eq_emod_of_nonneg hpos, if_neg (by omega)]
    constructor <;> omega

theorem monthLength_of_dvd {M : ℤ} (h : 12 ∣ M) : monthLength M = 31 := by
  rw [monthLength, Int.emod_eq_zero_of_dvd h]
  rfl

section Chrono

variable {c}

theorem numDaysIn_eq {year n : ℤ} {month : ℕ} (hm : month < 12) (h : numDaysIn c year month = some n) :
    n = monthLength (12 * year + month) := by
  rw [monthLength_of_lt year hm]
  unfold numDaysIn at h
  obtain ⟨nextYear, hyear, h⟩ := Option.bind_eq_some_iff.mp h
  obtain ⟨next, hnext, h⟩ := Option.bind_eq_some_iff.mp h
  obtain ⟨first, hfirst, h⟩ := Option.bind_eq_some_iff.mp h
  cases h
  obtain ⟨-, -, -, -, hf⟩ := c.fromYmdOpt_some _ _ _ _ hfirst
  obtain ⟨-, -, -, -, hn⟩ := c.fromYmdOpt_some _ _ _ _ hnext
  rw [c.numDaysSince_eq, hn, hf, Nat.add_sub_cancel]
  by_cases hlast : month + 1 = 12
  · rw [if_pos hlast] at hyear ⊢
    obtain rfl := checked_eq_some hyear
    obtain rfl : month = 11 := by omega
    have htwelve := daysBefore_twelve year
    rw [daysBefore] at htwelve
    rw [yearStart_succ, Nat.sub_self, daysBefore]
    omega
  · rw [if_neg hlast] at hyear ⊢
    cases hyear
    rw [show month + 2 - 1 = month + 1 by omega, daysBefore]
    omega

/-- A month is borrowed. What comes out has its month in the year, and is the same day unless the month
borrowed is a negative multiple of twelve. -/
theorem borrowMonth_eq_some {year month day : ℤ} {s : ℤ × ℤ × ℤ} (h : borrowMonth c year month day = some s) :
    0 ≤ s.2.1 ∧ day + 28 ≤ s.2.2 ∧ s.2.2 ≤ day + 31 ∧ monthStart (12 * s.1 + s.2.1) + s.2.2 =
      monthStart (12 * year + month - if month - 1 < 0 ∧ 12 ∣ month - 1 then 12 else 0) + day := by
  unfold borrowMonth at h
  obtain ⟨m, hm, h⟩ := Option.bind_eq_some_iff.mp h
  obtain rfl := checked_eq_some hm
  obtain ⟨fixed, hfixed, h⟩ := Option.bind_eq_some_iff.mp h
  obtain ⟨n, hn, h⟩ := Option.bind_eq_some_iff.mp h
  cases h
  obtain ⟨hlt, hcount⟩ := fixMonth_eq_some hfixed
  obtain rfl := numDaysIn_eq hlt hn
  have hlen := monthLength_bounds (12 * fixed.1 + fixed.2)
  have hsucc := monthStart_succ (12 * fixed.1 + fixed.2)
  have hnext : 12 * year + month - (if month - 1 < 0 ∧ 12 ∣ month - 1 then 12 else 0) =
      12 * fixed.1 + fixed.2 + 1 := by omega
  rw [hnext, hsucc]
  refine ⟨Int.natCast_nonneg _, ?_, ?_, ?_⟩ <;> dsimp only <;> omega

theorem passMonth_eq_some {year month day : ℤ} {r : Option (ℤ × ℤ × ℤ)}
    (h : passMonth c year month day = some r) :
    (day < monthLength (12 * year + month) ∧ r = none) ∨
      (monthLength (12 * year + month) ≤ day ∧
        r = some (year, month + 1, day - monthLength (12 * year + month))) := by
  unfold passMonth at h
  obtain ⟨fixed, hfixed, h⟩ := Option.bind_eq_some_iff.mp h
  obtain ⟨n, hn, h⟩ := Option.bind_eq_some_iff.mp h
  obtain ⟨hlt, hcount⟩ := fixMonth_eq_some hfixed
  -- a year off, it is the same month
  have hlen : n = monthLength (12 * year + month) := by
    rw [numDaysIn_eq hlt hn, hcount]
    split
    · next hneg => rw [monthLength_of_dvd (by omega), monthLength_of_dvd (by omega)]
    · rw [sub_zero]
  subst hlen
  split at h
  · next hge =>
    obtain ⟨m, hm, h⟩ := Option.bind_eq_some_iff.mp h
    obtain rfl := checked_eq_some hm
    cases h
    exact Or.inr ⟨hge, rfl⟩
  · next hlt =>
    cases h
    exact Or.inl ⟨not_le.mp hlt, rfl⟩

/-! ### The loop -/

theorem isLoop_fixDay (c : Chrono) : IsLoop (fixDayStep c) (fixDay c) := ⟨fun _ => rfl, fun _ _ => rfl⟩

theorem fixDayStep_of_neg {year month day : ℤ} (h : day < 0) : fixDayStep c (year, month, day) =
    match borrowMonth c year month day with
    | none => some (.inl none)
    | some s => some (.inr s) := if_pos h

theorem fixDayStep_of_nonneg {year month day : ℤ} (h : 0 ≤ day) : fixDayStep c (year, month, day) =
    match passMonth c year month day with
    | none => some (.inl none)
    | some none => some (.inl (fixDayEnd year month day))
    | some (some s) => some (.inr s) := if_neg (not_lt.mpr h)

/-- What the loop brings closer to the end. -/
def dayMeasure (day : ℤ) : ℕ := if day < 0 then 32 + (-day).toNat else day.toNat

theorem exists_fixDay_of_measure (n : ℕ) : ∀ s : ℤ × ℤ × ℤ, dayMeasure s.2.2 < n → ∃ r, fixDay c n s = some r := by
  induction n with
  | zero => exact fun s hs => absurd hs (Nat.not_lt_zero _)
  | succ n ih =>
    rintro ⟨year, month, day⟩ hs
    rw [(isLoop_fixDay c).succ]
    rcases lt_or_ge day 0 with hneg | hpos
    · rw [fixDayStep_of_neg hneg]
      cases hborrow : borrowMonth c year month day with
      | none => exact ⟨none, rfl⟩
      | some s =>
        obtain ⟨-, hlow, hhigh, -⟩ := borrowMonth_eq_some hborrow
        refine ih s (lt_of_lt_of_le ?_ (Nat.lt_succ_iff.mp hs))
        dsimp only
        rw [dayMeasure, dayMeasure, if_pos hneg]
        split <;> omega
    · rw [fixDayStep_of_nonneg hpos]
      cases hpass : passMonth c year month day with
      | none => exact ⟨none, rfl⟩
      | some r =>
        have hlen := monthLength_bounds (12 * year + month)
        obtain ⟨-, rfl⟩ | ⟨hle, rfl⟩ := passMonth_eq_some hpass
        · exact ⟨_, rfl⟩
        · refine ih _ (lt_of_lt_of_le ?_ (Nat.lt_succ_iff.mp hs))
          dsimp only
          rw [dayMeasure, dayMeasure, if_neg (by omega), if_neg (by omega)]
          omega

/-- **The loop ends**, whatever the components. -/
theorem exists_fixDay (c : Chrono) (s : ℤ × ℤ × ℤ) : ∃ n, ∀ fuel, n ≤ fuel → ∃ r, fixDay c fuel s = some r :=
  ⟨dayMeasure s.2.2 + 1, fun fuel hfuel => exists_fixDay_of_measure fuel s hfuel⟩

/-- From a day that is not negative, the loop ends with the month in which it lies; the month loses a year
when it is a January before the year it was counted from. -/
theorem fixDay_of_nonneg {fuel : ℕ} {year month day : ℤ} (hday : 0 ≤ day) {fixed : ℤ × ℕ × ℕ}
    (h : fixDay c fuel (year, month, day) = some (some fixed)) :
    fixed.2.1 < 12 ∧ ∃ M, 12 * year + month ≤ M ∧ IsDay (monthStart (12 * year + month) + day) M fixed.2.2 ∧
      12 * fixed.1 + fixed.2.1 = M - if M < 12 * year ∧ 12 ∣ M then 12 else 0 := by
  induction fuel generalizing month day with
  | zero => cases h
  | succ fuel ih =>
    rw [(isLoop_fixDay c).succ, fixDayStep_of_nonneg hday] at h
    cases hpass : passMonth c year month day with
    | none =>
      rw [hpass] at h
      cases h
    | some r =>
      rw [hpass] at h
      obtain ⟨hlt, rfl⟩ | ⟨hle, rfl⟩ := passMonth_eq_some hpass
      · obtain ⟨m, hm, rfl⟩ := Option.map_eq_some_iff.mp (Option.some.inj h)
        obtain ⟨hlt', hcount⟩ := fixMonth_eq_some hm
        refine ⟨hlt', 12 * year + month, le_rfl, ⟨Int.natCast_nonneg _, ?_, ?_⟩, ?_⟩
        · rw [Int.toNat_of_nonneg hday]
          exact hlt
        · rw [Int.toNat_of_nonneg hday]
        · rw [hcount]
          congr 1
          refine if_congr ?_ rfl rfl
          omega
      · obtain ⟨hm, M, hle', hisDay, hcount⟩ := ih (Int.sub_nonneg_of_le hle) h
        have hpos : monthStart (12 * year + (month + 1)) + (day - monthLength (12 * year + month)) =
            monthStart (12 * year + month) + day := by
          rw [← Int.add_assoc, monthStart_succ]
          omega
        rw [hpos] at hisDay
        exact ⟨hm, M, by omega, hisDay, hcount⟩

theorem fixDay_of_month_nonneg {fuel : ℕ} {s : ℤ × ℤ × ℤ} (hmonth : 0 ≤ s.2.1) {fixed : ℤ × ℕ × ℕ}
    (h : fixDay c fuel s = some (some fixed)) :
    fixed.2.1 < 12 ∧ IsDay (monthStart (12 * s.1 + s.2.1) + s.2.2) (12 * fixed.1 + fixed.2.1) fixed.2.2 := by
  induction fuel generalizing s with
  | zero => cases h
  | succ fuel ih =>
    obtain ⟨year, month, day⟩ := s
    dsimp only at hmonth ⊢
    rcases lt_or_ge day 0 with hneg | hpos
    · rw [(isLoop_fixDay c).succ, fixDayStep_of_neg hneg] at h
      cases hborrow : borrowMonth c year month day with
      | none =>
        rw [hborrow] at h
        cases h
      | some s =>
        rw [hborrow] at h
        obtain ⟨hm, -, -, hpos⟩ := borrowMonth_eq_some hborrow
        rw [if_neg (by omega), sub_zero] at hpos
        rw [← hpos]
        exact ih hm h
    · obtain ⟨hm, M, hle, hisDay, hcount⟩ := fixDay_of_nonneg hpos h
      rw [if_neg (by omega), sub_zero] at hcount
      rw [hcount]
      exact ⟨hm, hisDay⟩

/-- The components on which `fix_day` is right: a negative day does not borrow a month that is a negative
multiple of twelve, and another one does not lie in the January of a year before the given one. -/
def FixDayHolds (year month day : ℤ) : Prop :=
  if day < 0 then ¬ (month - 1 < 0 ∧ 12 ∣ month - 1)
  else ∀ M d, M < 12 * year → 12 ∣ M → ¬ IsDay (monthStart (12 * year + month) + day) M d

def IsFixed (year month day : ℤ) (fixed : ℤ × ℕ × ℕ) : Prop :=
  fixed.2.1 < 12 ∧ IsDay (monthStart (12 * year + month) + day) (12 * fixed.1 + fixed.2.1) fixed.2.2

/-- **The date of `fix_day`** is the right one exactly for these components. -/
theorem fixDay_isFixed_iff {fuel : ℕ} {year month day : ℤ} {fixed : ℤ × ℕ × ℕ}
    (h : fixDay c fuel (year, month, day) = some (some fixed)) :
    IsFixed year month day fixed ↔ FixDayHolds year month day := by
  rcases lt_or_ge day 0 with hneg | hpos
  · rw [FixDayHolds, if_pos hneg]
    cases fuel with
    | zero => cases h
    | succ fuel =>
      rw [(isLoop_fixDay c).succ, fixDayStep_of_neg hneg] at h
      cases hborrow : borrowMonth c year month day with
      | none =>
        rw [hborrow] at h
        cases h
      | some s =>
        rw [hborrow] at h
        obtain ⟨hm, -, -, hpos⟩ := borrowMonth_eq_some hborrow
        obtain ⟨hlt, hisDay⟩ := fixDay_of_month_nonneg hm h
        rw [hpos] at hisDay
        by_cases hbad : month - 1 < 0 ∧ 12 ∣ month - 1
        · -- the day found is a year too early
          rw [if_pos hbad] at hisDay
          refine iff_of_false (fun hfixed => ?_) (not_not_intro hbad)
          have hyear := monthStart_add (12 * year + month - 12) 12
          rw [Nat.cast_ofNat, sub_add_cancel] at hyear
          have hsame := hfixed.2.2.2.symm.trans hisDay.2.2
          omega
        · rw [if_neg hbad, sub_zero] at hisDay
          exact iff_of_true ⟨hlt, hisDay⟩ hbad
  · rw [FixDayHolds, if_neg (not_lt.mpr hpos)]
    obtain ⟨hlt, M, -, hisDay, hcount⟩ := fixDay_of_nonneg hpos h
    by_cases hbad : M < 12 * year ∧ 12 ∣ M
    · rw [if_pos hbad] at hcount
      refine iff_of_false (fun hfixed => ?_) (fun hall => hall M _ hbad.1 hbad.2 hisDay)
      have hsame := hfixed.2.month_unique hisDay
      omega
    · rw [if_neg hbad, sub_zero] at hcount
      refine iff_of_true ⟨hlt, by rw [hcount]; exact hisDay⟩ fun M' d hM' hdvd hisDay' => hbad ?_
      rw [hisDay.month_unique hisDay']
      exact ⟨hM', hdvd⟩

/-! ### The components of a date -/

def DateFields.makeDate (f : DateFields) : ℤ :=
  (monthStart (12 * f.year + f.month) + f.day - 1) * 86400000 +
    (f.hour * 3600000 + f.minute * 60000 + f.second * 1000 + f.millisecond)

theorem DateFields.duration_eq {f : DateFields} {ms : ℤ} (h : f.duration = some ms) :
    ms = f.hour * 3600000 + f.minute * 60000 + f.second * 1000 + f.millisecond := by
  unfold duration at h
  obtain ⟨hour, hhour, h⟩ := Option.bind_eq_some_iff.mp h
  obtain ⟨minute, hminute, h⟩ := Option.bind_eq_some_iff.mp h
  obtain ⟨second, hsecond, h⟩ := Option.bind_eq_some_iff.mp h
  obtain ⟨x, hx, h⟩ := Option.bind_eq_some_iff.mp h
  obtain ⟨y, hy, h⟩ := Option.bind_eq_some_iff.mp h
  obtain rfl := checked_eq_some hhour
  obtain rfl := checked_eq_some hminute
  obtain rfl := checked_eq_some hsecond
  obtain rfl := checked_eq_some hx
  obtain rfl := checked_eq_some hy
  exact checked_eq_some h

theorem DateFields.dateTime_eq {f : DateFields} {fixed : ℤ × ℕ × ℕ} {dt : c.NaiveDateTime}
    (h : f.dateTime c true fixed = some dt) :
    fixed.2.1 < 12 ∧ (fixed.2.2 : ℤ) < monthLength (12 * fixed.1 + fixed.2.1) ∧
      c.timestampMillis dt = (monthStart (12 * fixed.1 + fixed.2.1) + fixed.2.2) * 86400000 +
        (f.hour * 3600000 + f.minute * 60000 + f.second * 1000 + f.millisecond) := by
  unfold dateTime at h
  obtain ⟨ms, hms, h⟩ := Option.bind_eq_some_iff.mp h
  obtain ⟨date, hdate, h⟩ := Option.bind_eq_some_iff.mp h
  obtain ⟨civil, hcivil, h⟩ := Option.bind_eq_some_iff.mp h
  obtain ⟨dt', hdt, h⟩ := Option.bind_eq_some_iff.mp h
  obtain rfl := Option.some.inj ((if_pos rfl : _ = some civil).symm.trans hdt)
  obtain ⟨-, h⟩ := Option.ite_none_right_eq_some.mp h
  cases h
  obtain ⟨-, hm, -, hlen, hday⟩ := c.fromYmdOpt_some _ _ _ _ hdate
  have hlt : fixed.2.1 < 12 := by omega
  rw [Nat.add_sub_cancel] at hlen hday
  rw [monthStart_of_lt _ hlt, monthLength_of_lt _ hlt, c.addMillis_some _ _ _ hcivil, hday, f.duration_eq hms]
  refine ⟨hlt, by omega, ?_⟩
  push_cast
  omega

theorem setComponents_iff {fuel : ℕ} {naive dt : c.NaiveDateTime} {a : Components}
    (h : setComponents c fuel true (some naive) a = some (some dt)) :
    c.timestampMillis dt = (a.fields c naive).makeDate ↔
      FixDayHolds (a.fields c naive).year (a.fields c naive).month ((a.fields c naive).day - 1) := by
  unfold setComponents at h
  split at h
  · cases h
  dsimp only at h
  rw [if_pos rfl] at h
  dsimp only at h
  cases hday : checked 32 ((a.fields c naive).day - 1) with
  | none =>
    rw [hday] at h
    cases h
  | some day =>
    rw [hday] at h
    obtain rfl := checked_eq_some hday
    obtain ⟨r, hfix, h⟩ := Option.map_eq_some_iff.mp h
    obtain ⟨fixed, rfl, h⟩ := Option.bind_eq_some_iff.mp h
    obtain ⟨hlt, hlen, hmillis⟩ := DateFields.dateTime_eq h
    rw [← fixDay_isFixed_iff hfix, hmillis, DateFields.makeDate]
    constructor
    · intro heq
      exact ⟨hlt, Int.natCast_nonneg _, hlen, by omega⟩
    · rintro ⟨-, -, -, heq⟩
      omega

end Chrono

theorem fixMonth_iff {year month : ℤ} {fixed : ℤ × ℕ} (h : fixMonth year month = some fixed) :
    (fixed.1 = year + month / 12 ∧ (fixed.2 : ℤ) = month % 12) ↔ ¬ (month < 0 ∧ 12 ∣ month) := by
  obtain ⟨hlt, hcount⟩ := fixMonth_eq_some h
  by_cases hbad : month < 0 ∧ 12 ∣ month
  · rw [if_pos hbad] at hcount
    exact iff_of_false (by omega) (not_not_intro hbad)
  · rw [if_neg hbad] at hcount
    exact iff_of_true (by omega) hbad

end Starlight
