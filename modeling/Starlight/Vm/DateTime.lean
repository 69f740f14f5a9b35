import Starlight.Vm.IntegerConversion

/-!
# Time values of dates

A date holds a date-time of chrono, or nothing when it is invalid. `setTime` and the constructor split a
time value into seconds and nanoseconds, and `getTime` reads it back in milliseconds. Of chrono only the
timestamps are used, with the range of seconds that they have.
-/

namespace Starlight

namespace F64

def isNormal : F64 → Bool
  | .fin q => 1 / 2 ^ 1022 ≤ |q|
  | _ => false

end F64

/-- `value == 0f64 || value.is_normal()`. -/
def isZeroOrNormal (x : F64) : Bool := x.isZero || x.isNormal

/-- The date-times of chrono and their timestamps. The range lies in that of ECMAScript. -/
structure Timestamps where
  NaiveDateTime : Type
  fromTimestampOpt : ℤ → ℕ → Option NaiveDateTime
  timestampMillis : NaiveDateTime → ℤ
  minSecs : ℤ
  maxSecs : ℤ
  epoch : minSecs ≤ 0 ∧ 0 ≤ maxSecs
  range : -8640000000000 < minSecs ∧ maxSecs < 8640000000000
  isSome : ∀ secs nsecs, nsecs < 10 ^ 9 →
    ((fromTimestampOpt secs nsecs).isSome ↔ minSecs ≤ secs ∧ secs ≤ maxSecs)
  millis : ∀ secs nsecs dt, fromTimestampOpt secs nsecs = some dt →
    timestampMillis dt = secs * 1000 + nsecs / 1000000

variable (c : Timestamps)

abbrev Date := Option c.NaiveDateTime

def getTime (date : Date c) : F64 :=
  match date with
  | none => .nan
  | some dt => F64.ofRat (c.timestampMillis dt)

/-- The seconds and nanoseconds of a time value: `(time / 1_000f64) as i64` and
`((time % 1_000f64) * 1_000_000f64) as u32`. -/
def fromTimeValue (time : F64) : Date c :=
  c.fromTimestampOpt (time.div (.fin 1000)).toI64 ((time.rem (.fin 1000)).mul (.fin 1000000)).toU32

/-- An argument of a setter; one that is missing, no number or not normal is `None`. An argument is what it
converts to, `none` when the conversion throws. -/
def setterArgument (args : List (Option F64)) (i : ℕ) : Option F64 :=
  (args[i]?.getD none).filter isZeroOrNormal

/-- `Date.prototype.setTime()`. The offset of the local time zone goes in and out again. -/
def setTime (time : Option F64) : Date c := time.bind (fromTimeValue c)

def timeClip (time : F64) : Option F64 :=
  if F64.lt (.fin 8640000000000000) time.abs then none else some time

/-- What the constructor tells apart in its argument: a date, a string with what it parses to, or a number. -/
inductive DateValue where
  | date (d : Date c)
  | string (parsed : Date c)
  | number (x : F64)

/-- `args.at(i)`; an argument that is missing is `undefined`, which converts to a NaN. -/
def DateValue.at (args : List (DateValue c)) (i : ℕ) : DateValue c := args.getD i (.number .nan)

def makeDateSingle (value : DateValue c) : Date c :=
  let tv := match value with
    | .date d => d
    | .string parsed => parsed
    | .number x => fromTimeValue c x
  tv.filter fun dt => (timeClip (F64.ofRat (c.timestampMillis dt))).isSome

/-- `date_constructor` with one argument. It passes on the argument at index 1. -/
def dateConstructor (value : DateValue c) : Date c := makeDateSingle c (DateValue.at c [value] 1)

/-! ### Seconds and nanoseconds -/

namespace F64

theorem representable_thousandth {k : ℕ} (hk : k ≤ 8640000000000) :
    binary64.Representable (k + 1 - 1 / 1024) := by
  have hrep : binary64.Representable ((((k + 1) * 1024 - 1 : ℕ) : ℚ) * 2 ^ (-10 : ℤ)) :=
    BinaryFormat.representable_mul_zpow (show (k + 1) * 1024 - 1 < 2 ^ 53 by omega) (by decide) (by decide)
  have hcast : ((((k + 1) * 1024 - 1 : ℕ) : ℚ)) = (k + 1) * 1024 - 1 := by
    rw [Nat.cast_sub (by omega)]
    push_cast
    ring
  rw [hcast] at hrep
  have hsame : ((k : ℚ) + 1 - 1 / 1024) = ((k + 1) * 1024 - 1) * 2 ^ (-10 : ℤ) := by norm_num; ring
  rw [hsame]
  exact hrep

theorem ofRat_div_thousand {n : ℕ} (hn : n ≤ 8640000000000000) :
    ∃ v : ℚ, ofRat (n / 1000) = .fin v ∧ 0 ≤ v ∧ ⌊v⌋ = (n / 1000 : ℕ) := by
  set k := n / 1000 with hk
  have hdiv : 1000 * k + n % 1000 = n := Nat.div_add_mod n 1000
  have hmod : n % 1000 < 1000 := Nat.mod_lt _ (by decide)
  have hlow : (k : ℚ) ≤ n / 1000 := by
    rw [le_div_iff₀ (by norm_num)]
    exact_mod_cast (show k * 1000 ≤ n by omega)
  have hhigh : (n : ℚ) / 1000 ≤ k + 1 - 1 / 1024 := by
    have hcast : (n : ℚ) + 1 ≤ (k + 1) * 1000 := by exact_mod_cast (show n + 1 ≤ (k + 1) * 1000 by omega)
    rw [div_le_iff₀ (by norm_num)]
    linarith
  have hnonneg : (0 : ℚ) ≤ n / 1000 := by positivity
  obtain ⟨v, hv, hv0, hvle⟩ := ofRat_le hnonneg (representable_thousandth (by omega)) hhigh
  have hkrep : binary64.Representable (k : ℚ) := by
    have := @representable_intCast k (by omega)
    rwa [Int.cast_natCast] at this
  have hkv : (k : ℚ) ≤ v := by
    rcases le_ofRat hkrep (Nat.cast_nonneg k) hlow with hinf | ⟨v', hv', hle⟩
    · rw [hv] at hinf
      cases hinf
    · rw [hv] at hv'
      cases hv'
      exact hle
  refine ⟨v, hv, hv0, Int.floor_eq_iff.mpr ⟨by rwa [Int.cast_natCast], ?_⟩⟩
  rw [Int.cast_natCast]
  linarith

theorem toI64_fin {q : ℚ} (hlow : -2 ^ 63 ≤ truncRat q) (hhigh : truncRat q ≤ 2 ^ 63 - 1) :
    (F64.fin q).toI64 = truncRat q := by
  rw [toI64, min_eq_left hhigh, max_eq_right hlow]

theorem toI64_div_thousand {n : ℕ} (hn : n ≤ 8640000000000000) :
    ((F64.ofInt n).div (.fin 1000)).toI64 = (n / 1000 : ℕ) := by
  rcases Nat.eq_zero_or_pos n with rfl | hpos
  · rfl
  obtain ⟨v, hv, hv0, hfloor⟩ := ofRat_div_thousand hn
  have htrunc : truncRat v = (n / 1000 : ℕ) := by rw [truncRat_of_nonneg hv0, hfloor]
  have hne : ((n : ℤ) : ℚ) ≠ 0 := by exact_mod_cast hpos.ne'
  rw [ofInt, div_fin hne (by norm_num), Int.cast_natCast, hv,
    toI64_fin (by rw [htrunc]; omega) (by rw [htrunc]; omega), htrunc]

theorem toI64_neg_div_thousand {n : ℕ} (hpos : 0 < n) (hn : n ≤ 8640000000000000) :
    ((F64.ofInt (-n)).div (.fin 1000)).toI64 = -((n / 1000 : ℕ) : ℤ) := by
  obtain ⟨v, hv, hv0, hfloor⟩ := ofRat_div_thousand hn
  have hnpos : (0 : ℚ) < n := Nat.cast_pos.mpr hpos
  have hne : ((-(n : ℤ) : ℤ) : ℚ) ≠ 0 := by
    push_cast
    exact (neg_neg_of_pos hnpos).ne
  have hdiv : ((-(n : ℤ) : ℤ) : ℚ) / 1000 = -((n : ℚ) / 1000) := by
    push_cast
    ring
  rw [ofInt, div_fin hne (by norm_num), hdiv, ofRat_neg (by positivity), hv]
  dsimp only
  split
  · next hz =>
    rw [hz, Int.floor_zero] at hfloor
    rw [← hfloor]
    rfl
  · have hval : truncRat (-v) = -((n / 1000 : ℕ) : ℤ) := by rw [truncRat_neg, truncRat_of_nonneg hv0, hfloor]
    rw [toI64_fin (by rw [hval]; omega) (by rw [hval]; omega), hval]

theorem le_toI64_div_thousand {n : ℕ} (hn : 8640000000000000 < n) :
    8640000000000 ≤ ((F64.ofInt n).div (.fin 1000)).toI64 ∧
      ((F64.ofInt (-n)).div (.fin 1000)).toI64 ≤ -8640000000000 := by
  have hnpos : (0 : ℚ) < n := Nat.cast_pos.mpr (by omega)
  have hlow : ((8640000000000 : ℤ) : ℚ) ≤ n / 1000 := by
    rw [le_div_iff₀ (by norm_num)]
    exact_mod_cast (show 8640000000000 * 1000 ≤ n by omega)
  have hround := le_ofRat (representable_intCast (i := 8640000000000) (by decide)) (by norm_num) hlow
  have hne : ((n : ℤ) : ℚ) ≠ 0 := by
    rw [Int.cast_natCast]
    exact hnpos.ne'
  have hneg : ((-(n : ℤ) : ℤ) : ℚ) / 1000 = -((n : ℚ) / 1000) := by
    push_cast
    ring
  have hne' : ((-(n : ℤ) : ℤ) : ℚ) ≠ 0 := by
    push_cast
    exact (neg_neg_of_pos hnpos).ne
  rw [ofInt, ofInt, div_fin hne (by norm_num), div_fin hne' (by norm_num), hneg, ofRat_neg (by positivity),
    Int.cast_natCast]
  rcases hround with hinf | ⟨v, hv, hle⟩
  · rw [hinf]
    exact ⟨by decide, by decide⟩
  · have hv0 : 0 ≤ v := le_trans (by norm_num) hle
    have hfloor : 8640000000000 ≤ ⌊v⌋ := Int.le_floor.mpr hle
    rw [hv]
    dsimp only
    rw [if_neg (lt_of_lt_of_le (by norm_num) hle).ne', toI64, toI64, truncRat_neg, truncRat_of_nonneg hv0]
    constructor <;> omega

theorem rem_thousand {t : ℤ} (ht : t ≠ 0) : (F64.ofInt t).rem (.fin 1000) =
    if t.tmod 1000 = 0 then zero (decide (t < 0)) else ofInt (t.tmod 1000) := by
  have hne : (t : ℚ) ≠ 0 := Int.cast_ne_zero.mpr ht
  have htrunc : truncRat ((t : ℚ) / 1000) = t.tdiv 1000 := truncRat_div t 1000
  have hrem : (t : ℚ) - 1000 * truncRat ((t : ℚ) / 1000) = (t.tmod 1000 : ℤ) := by
    rw [htrunc, Int.tmod_def]
    push_cast
    ring
  rw [ofInt, rem_fin hne (by norm_num), hrem]
  simp only [Int.cast_eq_zero, Int.cast_lt_zero]
  rfl

theorem toU32_rem_thousand (n : ℕ) :
    (((F64.ofInt n).rem (.fin 1000)).mul (.fin 1000000)).toU32 = n % 1000 * 1000000 := by
  rcases Nat.eq_zero_or_pos n with rfl | hpos
  · rfl
  have hmod : (n : ℤ).tmod 1000 = (n % 1000 : ℕ) := by rw [Int.tmod_eq_emod_of_nonneg (Int.natCast_nonneg n)]; rfl
  have hlt : n % 1000 < 1000 := Nat.mod_lt _ (by decide)
  rw [rem_thousand (by omega), hmod]
  by_cases hz : n % 1000 = 0
  · rw [if_pos (by omega), decide_eq_false (by omega), hz]
    rfl
  · have hne : (((n % 1000 : ℕ) : ℤ) : ℚ) ≠ 0 := by
      rw [Int.cast_natCast]
      exact Nat.cast_ne_zero.mpr hz
    have hprod : (((n % 1000 : ℕ) : ℤ) : ℚ) * 1000000 = ((n % 1000 * 1000000 : ℕ) : ℤ) := by push_cast; ring
    rw [if_neg (by omega), ofInt, mul_fin hne (by norm_num), hprod, ofRat_intCast (by omega),
      toU32_ofInt (by omega)]

theorem toU32_rem_thousand_neg {n : ℕ} (hpos : 0 < n) :
    (((F64.ofInt (-n)).rem (.fin 1000)).mul (.fin 1000000)).toU32 = 0 := by
  have hmod : (-(n : ℤ)).tmod 1000 = -((n % 1000 : ℕ) : ℤ) := by
    rw [Int.neg_tmod, Int.tmod_eq_emod_of_nonneg (Int.natCast_nonneg n)]
    rfl
  have hlt : n % 1000 < 1000 := Nat.mod_lt _ (by decide)
  rw [rem_thousand (by omega), hmod]
  by_cases hz : n % 1000 = 0
  · rw [if_pos (by omega), decide_eq_true (by omega)]
    rfl
  · have hne : ((-((n % 1000 : ℕ) : ℤ) : ℤ) : ℚ) ≠ 0 := Int.cast_ne_zero.mpr (by omega)
    have hprod : ((-((n % 1000 : ℕ) : ℤ) : ℤ) : ℚ) * 1000000 = ((-((n % 1000 * 1000000 : ℕ) : ℤ) : ℤ) : ℚ) := by
      push_cast
      ring
    have hfloor : ∀ x : ℤ, (F64.ofInt x).toU32 = min (⌊(x : ℚ)⌋).toNat (2 ^ 32 - 1) := fun _ => rfl
    rw [if_neg (by omega), ofInt, mul_fin hne (by norm_num), hprod, ofRat_intCast (by omega), hfloor,
      Int.floor_intCast]
    omega

end F64

/-! ### The round trip -/

section RoundTrip

variable {c} {t : ℤ} {n : ℕ}

/-- The time value is one of ECMAScript, and of a date-time of chrono. -/
def Timestamps.Allows (c : Timestamps) (t : ℤ) : Prop :=
  |t| ≤ 8640000000000000 ∧ c.minSecs ≤ t / 1000 ∧ t / 1000 ≤ c.maxSecs

instance (c : Timestamps) (t : ℤ) : Decidable (c.Allows t) := inferInstanceAs (Decidable (_ ∧ _ ∧ _))

def timeValue (c : Timestamps) (t : ℤ) : F64 := if c.Allows t then .ofInt t else .nan

theorem isZeroOrNormal_ofInt (t : ℤ) : isZeroOrNormal (.ofInt t) = true := by
  by_cases h : t = 0
  · rw [h]
    rfl
  · have hone : (1 : ℚ) ≤ |(t : ℚ)| := by
      rw [← Int.cast_abs]
      exact_mod_cast Int.one_le_abs h
    have hnormal : (F64.ofInt t).isNormal = true :=
      decide_eq_true (le_trans (by rw [div_le_one (by positivity)]; exact one_le_pow₀ one_le_two) hone)
    rw [isZeroOrNormal, hnormal, Bool.or_true]

theorem getTime_fromTimestampOpt_none {secs : ℤ} {nsecs : ℕ} (hn : nsecs < 10 ^ 9)
    (h : ¬ (c.minSecs ≤ secs ∧ secs ≤ c.maxSecs)) : getTime c (c.fromTimestampOpt secs nsecs) = .nan := by
  rw [← c.isSome secs nsecs hn] at h
  rw [Option.not_isSome_iff_eq_none.mp h]
  rfl

theorem getTime_fromTimestampOpt {secs : ℤ} {nsecs : ℕ} (hn : nsecs < 10 ^ 9)
    (h : c.minSecs ≤ secs ∧ secs ≤ c.maxSecs) :
    getTime c (c.fromTimestampOpt secs nsecs) = .ofInt (secs * 1000 + nsecs / 1000000) := by
  obtain ⟨dt, hdt⟩ := Option.isSome_iff_exists.mp ((c.isSome secs nsecs hn).mpr h)
  have hrange := c.range
  rw [hdt, getTime, c.millis secs nsecs dt hdt]
  exact F64.ofRat_intCast (by omega)

theorem getTime_fromTimeValue (n : ℕ) : getTime c (fromTimeValue c (.ofInt n)) = timeValue c n := by
  have hmod : n % 1000 < 1000 := Nat.mod_lt _ (by decide)
  have hdiv := Nat.div_add_mod n 1000
  have hrange := c.range
  have hepoch := c.epoch
  rw [fromTimeValue, F64.toU32_rem_thousand, timeValue]
  by_cases hn : n ≤ 8640000000000000
  · rw [F64.toI64_div_thousand hn]
    have habs : |(n : ℤ)| ≤ 8640000000000000 := by
      rw [Nat.abs_cast]
      exact_mod_cast hn
    by_cases hin : c.minSecs ≤ ((n / 1000 : ℕ) : ℤ) ∧ ((n / 1000 : ℕ) : ℤ) ≤ c.maxSecs
    · rw [getTime_fromTimestampOpt (by omega) hin, if_pos ⟨habs, hin⟩]
      congr 1
      omega
    · rw [getTime_fromTimestampOpt_none (by omega) hin, if_neg fun hallow => hin hallow.2]
  · have hlarge := (F64.le_toI64_div_thousand (not_le.mp hn)).1
    rw [getTime_fromTimestampOpt_none (by omega) (by omega), if_neg]
    rintro ⟨habs, -⟩
    rw [Nat.abs_cast] at habs
    omega

theorem getTime_fromTimeValue_neg (hpos : 0 < n) : getTime c (fromTimeValue c (.ofInt (-n))) =
    if n ≤ 8640000000000000 ∧ c.minSecs ≤ -((n / 1000 : ℕ) : ℤ) then .ofInt (-((n / 1000 : ℕ) : ℤ) * 1000)
    else .nan := by
  have hrange := c.range
  have hepoch := c.epoch
  rw [fromTimeValue, F64.toU32_rem_thousand_neg hpos]
  by_cases hn : n ≤ 8640000000000000
  · rw [F64.toI64_neg_div_thousand hpos hn]
    by_cases hin : c.minSecs ≤ -((n / 1000 : ℕ) : ℤ)
    · rw [getTime_fromTimestampOpt (by decide) ⟨hin, by omega⟩, if_pos ⟨hn, hin⟩]
      congr 1
      omega
    · rw [getTime_fromTimestampOpt_none (by decide) fun h => hin h.1, if_neg fun h => hin h.2]
  · have hlarge := (F64.le_toI64_div_thousand (not_le.mp hn)).2
    rw [getTime_fromTimestampOpt_none (by decide) (by omega), if_neg fun h => hn h.1]

/-- What `setTime` stores is read back when the time value is not before 1970, or of full seconds, or so
far back that there is no date even after rounding up. -/
theorem getTime_fromTimeValue_iff : getTime c (fromTimeValue c (.ofInt t)) = timeValue c t ↔
    0 ≤ t ∨ 1000 ∣ t ∨ t.tdiv 1000 < c.minSecs := by
  rcases le_or_gt 0 t with ht | ht
  · obtain ⟨n, rfl⟩ := Int.eq_ofNat_of_zero_le ht
    exact iff_of_true (getTime_fromTimeValue n) (Or.inl ht)
  obtain ⟨n, hn⟩ := Int.eq_ofNat_of_zero_le (Int.neg_nonneg_of_nonpos ht.le)
  obtain rfl : t = -(n : ℤ) := by omega
  have hpos : 0 < n := by omega
  have htdiv : (-(n : ℤ)).tdiv 1000 = -((n / 1000 : ℕ) : ℤ) := by
    rw [Int.neg_tdiv, Int.tdiv_eq_ediv_of_nonneg (Int.natCast_nonneg n)]
    rfl
  have hrange := c.range
  have hepoch := c.epoch
  have habs : |(-(n : ℤ))| = n := by rw [abs_neg, Nat.abs_cast]
  have hallows : c.Allows (-(n : ℤ)) ↔
      (n : ℤ) ≤ 8640000000000000 ∧ c.minSecs ≤ -(n : ℤ) / 1000 ∧ -(n : ℤ) / 1000 ≤ c.maxSecs := by
    unfold Timestamps.Allows
    rw [habs]
  rw [getTime_fromTimeValue_neg hpos, timeValue, htdiv]
  have hdvd : (1000 : ℤ) ∣ -(n : ℤ) ↔ n / 1000 * 1000 = n := by omega
  rw [hdvd]
  by_cases hin : n ≤ 8640000000000000 ∧ c.minSecs ≤ -((n / 1000 : ℕ) : ℤ)
  · rw [if_pos hin]
    constructor
    · intro heq
      split at heq
      · have hrat : (((-((n / 1000 : ℕ) : ℤ) * 1000 : ℤ)) : ℚ) = ((-(n : ℤ) : ℤ) : ℚ) := F64.fin.inj heq
        have hint : -((n / 1000 : ℕ) : ℤ) * 1000 = -(n : ℤ) := Int.cast_injective hrat
        omega
      · cases heq
    · intro hor
      have hfull : n / 1000 * 1000 = n := by omega
      rw [if_pos (hallows.mpr ⟨by omega, by omega, by omega⟩)]
      congr 1
      omega
  · have hnot : ¬ c.Allows (-(n : ℤ)) := by
      rw [hallows]
      omega
    rw [if_neg hin, if_neg hnot]
    exact iff_of_true rfl (by omega)

theorem getTime_dateConstructor (c : Timestamps) (value : DateValue c) :
    getTime c (dateConstructor c value) = .ofInt 0 := by
  have hsome := (c.isSome 0 0 (by decide)).mpr c.epoch
  obtain ⟨dt, hdt⟩ := Option.isSome_iff_exists.mp hsome
  have hmillis : c.timestampMillis dt = 0 := by simpa using c.millis 0 0 dt hdt
  have hzero : fromTimeValue c .nan = some dt := hdt
  have hround : F64.ofRat ((0 : ℤ) : ℚ) = .ofInt 0 := F64.ofRat_intCast (by decide)
  have hclip : (timeClip (F64.ofRat (c.timestampMillis dt))).isSome = true := by
    rw [hmillis, hround]
    rfl
  have hdate : dateConstructor c value = some dt := by
    change (fromTimeValue c .nan).filter _ = _
    rw [hzero, Option.filter_some, if_pos hclip]
  rw [hdate, getTime, hmillis, hround]

theorem getTime_dateConstructor_iff :
    getTime c (dateConstructor c (.number (.ofInt t))) = timeValue c t ↔ t = 0 := by
  rw [getTime_dateConstructor, timeValue]
  constructor
  · intro heq
    split at heq
    · exact (Int.cast_injective (F64.fin.inj heq)).symm
    · cases heq
  · rintro rfl
    rw [if_pos ⟨by decide, c.epoch⟩]

/-- **The round trip of a time value.** Through `setTime` it fails for times before 1970 that are not of full
seconds, through the constructor for all but one. -/
theorem date_roundTrip_iff (c : Timestamps) (t : ℤ) :
    (getTime c (setTime c (setterArgument [some (.ofInt t)] 0)) = timeValue c t ↔
      0 ≤ t ∨ 1000 ∣ t ∨ t.tdiv 1000 < c.minSecs) ∧
    (getTime c (dateConstructor c (.number (.ofInt t))) = timeValue c t ↔ t = 0) ∧
    ∀ x : F64, x.isNan ∨ x.isInfinite → getTime c (setTime c (setterArgument [some x] 0)) = .nan := by
  refine ⟨?_, getTime_dateConstructor_iff, ?_⟩
  · have harg : setterArgument [some (.ofInt t)] 0 = some (.ofInt t) := by
      change Option.filter isZeroOrNormal (some _) = _
      rw [Option.filter_some, if_pos (isZeroOrNormal_ofInt t)]
    rw [harg]
    exact getTime_fromTimeValue_iff
  · intro x hx
    cases x with
    | nan | posInf | negInf => rfl
    | negZero | fin q => exact absurd hx (by simp [F64.isNan, F64.isInfinite])

end RoundTrip

/-- The timestamps of chrono, from the first second of its years to the last. -/
def Timestamps.chrono : Timestamps where
  NaiveDateTime := ℤ × ℕ
  fromTimestampOpt secs nsecs :=
    if -8334632851200 ≤ secs ∧ secs ≤ 8210298412799 ∧ nsecs < 2000000000 then some (secs, nsecs) else none
  timestampMillis dt := dt.1 * 1000 + dt.2 / 1000000
  minSecs := -8334632851200
  maxSecs := 8210298412799
  epoch := by decide
  range := by decide
  isSome := by
    intro secs nsecs hn
    rw [Option.isSome_ite]
    omega
  millis := by
    intro secs nsecs dt h
    obtain ⟨-, h⟩ := Option.ite_none_right_eq_some.mp h
    cases h
    rfl

/-- `setTime(-1)` is read back as `0`, and so is `new Date(1)`. -/
theorem setTime_minusOne :
    getTime .chrono (setTime .chrono (setterArgument [some (.ofInt (-1))] 0)) ≠ timeValue .chrono (-1) ∧
      getTime .chrono (setTime .chrono (setterArgument [some (.ofInt (-1))] 0)) = .ofInt 0 ∧
      getTime .chrono (dateConstructor .chrono (.number (.ofInt 1))) ≠ timeValue .chrono 1 := by
  decide +kernel

end Starlight
