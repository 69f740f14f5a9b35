import Starlight.Vm.Boxed

/-!
# Integers as values

`from_primitive!` makes a value of an integer of any of eight types. It takes the int32 encoding when the
integer survives `x as i32 as T`. For a signed type, or one of less than 32 bits, that says that the
integer is an `i32`. A `u32` always survives, and so does a `u64` whose upper 33 bits are all ones; what
is encoded then is another number.
-/

namespace Starlight

/-- The integer types that `JsValue::new` takes. -/
inductive IntType where
  | u8 | i8 | u16 | i16 | u32 | i32 | u64 | i64
deriving DecidableEq

namespace IntType

def bits : IntType → ℕ
  | u8 | i8 => 8
  | u16 | i16 => 16
  | u32 | i32 => 32
  | u64 | i64 => 64

def signed : IntType → Bool
  | i8 | i16 | i32 | i64 => true
  | _ => false

def cast (t : IntType) (x : ℤ) : ℤ :=
  if t.signed then x.bmod (2 ^ t.bits) else x % 2 ^ t.bits

def InRange (t : IntType) (x : ℤ) : Prop :=
  if t.signed then -2 ^ (t.bits - 1) ≤ x ∧ x < 2 ^ (t.bits - 1) else 0 ≤ x ∧ x < 2 ^ t.bits

instance (t : IntType) (x : ℤ) : Decidable (t.InRange x) := by
  unfold InRange
  infer_instance

end IntType

/-- `JsValue::new` of an integer: `from_primitive!`. -/
def Boxed.new (t : IntType) (x : ℤ) : Boxed :=
  if t.cast (IntType.i32.cast x) = x then encodeInt32 (BitVec.ofInt 32 x)
  else encodeF64Value (F64.ofRat x).toBits

/-- An integer that is taken for an `i32` though it is not one. -/
def IntType.Misread (t : IntType) (x : ℤ) : Prop :=
  t = .u32 ∧ 2 ^ 31 ≤ x ∨ t = .u64 ∧ 2 ^ 64 - 2 ^ 31 ≤ x

instance (t : IntType) (x : ℤ) : Decidable (t.Misread x) := by
  unfold IntType.Misread
  infer_instance

section

variable {t : IntType} {x : ℤ}

theorem survives_iff (h : t.InRange x) :
    t.cast (IntType.i32.cast x) = x ↔ (-2 ^ 31 ≤ x ∧ x < 2 ^ 31) ∨ t.Misread x := by
  unfold IntType.InRange at h
  unfold IntType.cast IntType.Misread
  cases t <;> simp only [IntType.signed, IntType.bits, Bool.false_eq_true, if_true, if_false] at h ⊢ <;>
    simp only [Int.bmod_def, reduceCtorEq, false_and, true_and, or_false, false_or] <;> omega

theorem getNumber_encodeInt32 (x : ℤ) :
    (Boxed.encodeInt32 (BitVec.ofInt 32 x)).getNumber = some (F64.ofInt (x.bmod (2 ^ 32))) := by
  have hdec := (Unboxed.int32 (BitVec.ofInt 32 x)).decodedBy_encode
  have hint := (Unboxed.int32 (BitVec.ofInt 32 x)).is_encode_self
  have hi : (Boxed.encodeInt32 (BitVec.ofInt 32 x)).getInt32 = BitVec.ofInt 32 x := hdec
  rw [Boxed.getNumber, if_pos (show (Boxed.encodeInt32 _).isInt32 = true from hint), hi, BitVec.toInt_ofInt]

theorem getNumber_encodeF64Value (h : binary64.Representable x) :
    (Boxed.encodeF64Value (F64.ofRat x).toBits).getNumber = some (F64.ofInt x) := by
  rw [F64.ofRat_of_representable h]
  obtain ⟨hn, hval⟩ := F64.ofBits_toBits h
  have hpure : F64.isNanBits (F64.toBits (.fin x)) = true → F64.toBits (.fin x) = Boxed.pureNan :=
    fun ht => absurd (hn.symm.trans ht) Bool.false_ne_true
  have hdec := (Unboxed.double ⟨F64.toBits (.fin x), hpure⟩).decodedBy_encode
  have hnot : ¬ (Boxed.encodeF64Value (F64.toBits (.fin x))).isInt32 = true := fun h =>
    nomatch ((Unboxed.double ⟨F64.toBits (.fin x), hpure⟩).is_encode .int32).mp h
  have hbits : (Boxed.encodeF64Value (F64.toBits (.fin x))).getDouble = some (F64.toBits (.fin x)) := hdec
  rw [Boxed.getNumber, if_neg hnot, hbits, Option.map_some, hval]
  rfl

/-- **Integers as numbers.** An integer that is a double keeps its value just when it is not one of the
upper half of the `u32`, or of the last `2 ^ 31` of the `u64`. -/
theorem getNumber_new_iff (h : t.InRange x) (hx : binary64.Representable x) :
    (∃ d, (Boxed.new t x).getNumber = some d ∧ d.eq (.fin x) = true) ↔ ¬ t.Misread x := by
  have hself : (F64.fin x).eq (.fin x) = true := decide_eq_true rfl
  unfold Boxed.new
  by_cases hm : t.Misread x
  · refine iff_of_false ?_ (not_not_intro hm)
    rw [if_pos ((survives_iff h).mpr (.inr hm)), getNumber_encodeInt32]
    rintro ⟨d, hd, heq⟩
    obtain rfl := Option.some.inj hd
    have hval : ((x.bmod (2 ^ 32) : ℤ) : ℚ) = x := F64.fin.inj (of_decide_eq_true heq)
    have hval : x.bmod (2 ^ 32) = x := Int.cast_injective hval
    have hlt : x.bmod (2 ^ 32) < 2 ^ 31 := Int.bmod_lt (by decide)
    unfold IntType.Misread at hm
    omega
  · refine iff_of_true ?_ hm
    split
    · next hs =>
      have hrange := ((survives_iff h).mp hs).resolve_right hm
      have hval : x.bmod (2 ^ 32) = x := by
        rw [Int.bmod_def]
        omega
      rw [getNumber_encodeInt32, hval]
      exact ⟨_, rfl, hself⟩
    · rw [getNumber_encodeF64Value hx]
      exact ⟨_, rfl, hself⟩

end

/-- A `u32` that keeps its value. -/
theorem getNumber_new_five :
    (∃ d, (Boxed.new .u32 5).getNumber = some d ∧ d.eq (.fin (5 : ℤ)) = true) ↔ ¬ IntType.u32.Misread 5 :=
  getNumber_new_iff (by decide) (F64.representable_intCast (by decide))

/-- The largest `u32` becomes `-1`. -/
theorem getNumber_new_u32_max :
    IntType.u32.InRange 4294967295 ∧ binary64.Representable (4294967295 : ℤ) ∧
      (Boxed.new .u32 4294967295).getNumber = some (F64.ofInt (-1)) ∧
      (F64.ofInt (-1)).eq (.fin (4294967295 : ℤ)) = false :=
  ⟨by decide, F64.representable_intCast (by decide), getNumber_encodeInt32 _, by decide⟩

theorem new_u32 {n : ℕ} (hn : n < 2 ^ 32) : Boxed.new .u32 n = Boxed.encodeInt32 (BitVec.ofInt 32 n) := by
  have hrange : IntType.u32.InRange n := ⟨by omega, by exact_mod_cast hn⟩
  have hsurvives : IntType.u32.cast (IntType.i32.cast n) = n := by
    refine (survives_iff hrange).mpr ((lt_or_ge (n : ℤ) (2 ^ 31)).imp (fun h => ⟨by omega, h⟩) ?_)
    exact fun h => .inl ⟨rfl, h⟩
  rw [Boxed.new, if_pos hsurvives]

theorem getInt32_new_u32 {n : ℕ} (hn : n < 2 ^ 32) : (Boxed.new .u32 n).getInt32.toNat = n := by
  have hdec : (Boxed.encodeInt32 (BitVec.ofInt 32 n)).getInt32 = BitVec.ofInt 32 n :=
    (Unboxed.int32 (BitVec.ofInt 32 n)).decodedBy_encode
  rw [new_u32 hn, hdec, BitVec.ofInt_natCast, BitVec.toNat_ofNat, Nat.mod_eq_of_lt hn]

/-! ### Integers of the types up to 32 bits -/

def Boxed.IsNumberOf (w : Boxed) (z : ℤ) : Prop := ∃ d, w.getNumber = some d ∧ d.eq (.fin z) = true

section

variable {t : IntType}

theorem IntType.inRange_cast (t : IntType) (z : ℤ) : t.InRange (t.cast z) := by
  unfold IntType.InRange IntType.cast
  cases t <;>
    simp only [IntType.signed, IntType.bits, Bool.false_eq_true, if_true, if_false, Int.bmod_def] <;> omega

theorem isNumberOf_new_iff_bmod {x y : ℤ} (ht : t.bits ≤ 32) (hx : t.InRange x) :
    (Boxed.new t x).IsNumberOf y ↔ x.bmod (2 ^ 32) = y := by
  have hsurvives : t.cast (IntType.i32.cast x) = x := by
    refine (survives_iff hx).mpr ?_
    unfold IntType.InRange at hx
    unfold IntType.Misread
    cases t <;>
      simp only [IntType.signed, IntType.bits, Bool.false_eq_true, if_true, if_false] at hx ht ⊢ <;>
      simp only [reduceCtorEq, false_and, true_and, or_false] <;> omega
  unfold Boxed.IsNumberOf
  rw [Boxed.new, if_pos hsurvives, getNumber_encodeInt32]
  constructor
  · rintro ⟨d, hd, heq⟩
    obtain rfl := Option.some.inj hd
    exact Int.cast_injective (F64.fin.inj (of_decide_eq_true heq))
  · rintro rfl
    exact ⟨_, rfl, decide_eq_true rfl⟩

theorem isNumberOf_new_iff {x y : ℤ} (ht : t.bits ≤ 32) (hx : t.InRange x) (hy : t.InRange y) :
    (Boxed.new t x).IsNumberOf y ↔ x = y ∧ ¬ t.Misread y := by
  rw [isNumberOf_new_iff_bmod ht hx, Int.bmod_def]
  unfold IntType.InRange at hx hy
  unfold IntType.Misread
  cases t <;>
    simp only [IntType.signed, IntType.bits, Bool.false_eq_true, if_true, if_false] at hx hy ht ⊢ <;>
    simp only [reduceCtorEq, false_and, true_and, or_false, not_false_eq_true, and_true] <;> omega

end

end Starlight
