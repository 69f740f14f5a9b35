import Starlight.Vm.Conversions

/-!
# Arithmetic

The arithmetic opcodes compute with doubles. `OP_ADD`, `OP_SUB` and `OP_MUL` have a shortcut for two int32
operands: the exact result, if it is an int32 again. For sums and differences that is what the doubles
give. A product of zero and a negative number is a negative zero, which no int32 is, and there the
shortcut gives a positive one.
-/

namespace Starlight

/-! ### Doubles that are integers -/

namespace F64

variable {i j : ℤ}

theorem add_ofInt (h : (i + j).natAbs < 2 ^ 53) : add (ofInt i) (ofInt j) = ofInt (i + j) := by
  have hsum : add (ofInt i) (ofInt j) = ofRat ((i : ℚ) + j) := rfl
  rw [hsum, ← Int.cast_add, ofRat_intCast h]

theorem sub_ofInt (h : (i - j).natAbs < 2 ^ 53) : sub (ofInt i) (ofInt j) = ofInt (i - j) := by
  have hdiff : sub (ofInt i) (ofInt j) = ofRat ((i : ℚ) - j) := by
    by_cases hj : (j : ℚ) = 0
    · have hneg : neg (ofInt j) = .negZero := if_pos hj
      rw [sub, hneg, hj, sub_zero, ← add_zero (i : ℚ)]
      rfl
    · have hneg : neg (ofInt j) = .fin (-j) := if_neg hj
      rw [sub, hneg, sub_eq_add_neg]
      rfl
  rw [hdiff, ← Int.cast_sub, ofRat_intCast h]

theorem mul_ofInt (h : (i * j).natAbs < 2 ^ 53) (hi : i ≠ 0) (hj : j ≠ 0) :
    mul (ofInt i) (ofInt j) = ofInt (i * j) := by
  have hprod : mul (ofInt i) (ofInt j) = ofRat ((i : ℚ) * j) := by
    have hi : isZero (ofInt i) = false := decide_eq_false (Int.cast_ne_zero.mpr hi)
    have hj : isZero (ofInt j) = false := decide_eq_false (Int.cast_ne_zero.mpr hj)
    unfold mul
    rw [hi, hj]
    rfl
  rw [hprod, ← Int.cast_mul, ofRat_intCast h]

theorem mul_ofInt_zero (h : i = 0 ∨ j = 0) :
    mul (ofInt i) (ofInt j) = zero (decide (i < 0) != decide (j < 0)) := by
  have hneg : ∀ k : ℤ, isNeg (ofInt k) = decide (k < 0) := fun k =>
    decide_eq_decide.mpr Int.cast_lt_zero
  have hzero : ∀ k : ℤ, isZero (ofInt k) = decide (k = 0) := fun k =>
    decide_eq_decide.mpr Int.cast_eq_zero
  have hor : (isZero (ofInt i) || isZero (ofInt j)) = true := by
    rw [hzero, hzero, Bool.or_eq_true, decide_eq_true_iff, decide_eq_true_iff]
    exact h
  unfold mul
  rw [hor, hneg, hneg]
  rfl

end F64

/-! ### The opcodes -/

/-- `checked_add` and its like: the exact result if it is an `i32`. -/
def checkedOp (op : ℤ → ℤ → ℤ) (i j : BitVec 32) : Option (BitVec 32) :=
  let r := op i.toInt j.toInt
  if -2 ^ 31 ≤ r ∧ r < 2 ^ 31 then some (BitVec.ofInt 32 r) else none

namespace JsValue

variable (c : Conversions) (lhs rhs : JsValue)

/-- The shortcut for two int32 operands. -/
def intPath (op : ℤ → ℤ → ℤ) : Option JsValue :=
  if lhs.isInt32 && rhs.isInt32 then (checkedOp op lhs.getInt32 rhs.getInt32).map int32 else none

/-- The operation on doubles, after a conversion of what is no number. -/
def doublePath (op : F64 → F64 → F64) : Except Failure JsValue :=
  if lhs.isNumber && rhs.isNumber then .ok (double (op lhs.getNumber rhs.getNumber))
  else do
    let lhs ← c.toNumber lhs
    let rhs ← c.toNumber rhs
    return double (op lhs rhs)

/-- `add_slowpath`. The sum of two strings gets a new cell. -/
def addSlowPath (conversions cell : ℕ) : ExceptT Failure Option JsValue := do
  let lhs ← ExceptT.mk (some (c.toPrimitive .none lhs))
  let rhs ← ExceptT.mk (some (c.toPrimitive .none rhs))
  if lhs.isString || rhs.isString then
    let lhs ← ExceptT.mk (c.toString conversions lhs)
    let rhs ← ExceptT.mk (c.toString conversions rhs)
    return string cell (lhs ++ rhs)
  else
    let lhs ← ExceptT.mk (some (c.toNumber lhs))
    let rhs ← ExceptT.mk (some (c.toNumber rhs))
    return double (lhs.add rhs)

def opAdd (conversions cell : ℕ) : Option (Except Failure JsValue) :=
  match intPath lhs rhs (· + ·) with
  | some val => some (.ok val)
  | none =>
    if lhs.isNumber && rhs.isNumber then some (.ok (double (lhs.getNumber.add rhs.getNumber)))
    else addSlowPath c lhs rhs conversions cell

def opSub : Except Failure JsValue :=
  match intPath lhs rhs (· - ·) with
  | some val => .ok val
  | none => doublePath c lhs rhs F64.sub

def opMul : Except Failure JsValue :=
  match intPath lhs rhs (· * ·) with
  | some val => .ok val
  | none => doublePath c lhs rhs F64.mul

def opDiv : Except Failure JsValue := doublePath c lhs rhs F64.div

def opRem : Except Failure JsValue := doublePath c lhs rhs F64.rem

def opNeg (v : JsValue) : Except Failure JsValue :=
  if v.isNumber then .ok (double v.getNumber.neg)
  else do
    let n ← c.toNumber v
    return double n.neg

/-! ### The shortcut -/

variable {c lhs rhs} {v w r : JsValue} {op : ℤ → ℤ → ℤ} {conversions cell : ℕ}

theorem intPath_eq_some (h : intPath v w op = some r) :
    ∃ i j k : BitVec 32, v = int32 i ∧ w = int32 j ∧ r = int32 k ∧ k.toInt = op i.toInt j.toInt := by
  unfold intPath at h
  split at h
  · next hint =>
    rw [Bool.and_eq_true] at hint
    cases v <;> try cases hint.1
    cases w <;> try cases hint.2
    next i j =>
    obtain ⟨k, hk, rfl⟩ := Option.map_eq_some_iff.mp h
    unfold checkedOp at hk
    dsimp only at hk
    split at hk
    · next hrange =>
      refine ⟨i, j, k, rfl, rfl, rfl, ?_⟩
      rw [← Option.some.inj hk, BitVec.toInt_ofInt]
      exact Int.bmod_eq_of_le (by omega) (by omega)
    · cases hk
  · cases h

/-- What the shortcut gives is the result of the doubles. -/
def IntPathExact (op : ℤ → ℤ → ℤ) (dop : F64 → F64 → F64) (v w : JsValue) : Prop :=
  ∀ r, intPath v w op = some r → ∃ k, r = int32 k ∧ dop v.getNumber w.getNumber = F64.ofInt k.toInt

theorem intPathExact_add (v w : JsValue) : IntPathExact (· + ·) F64.add v w := by
  intro r h
  obtain ⟨i, j, k, rfl, rfl, rfl, hk⟩ := intPath_eq_some h
  refine ⟨k, rfl, ?_⟩
  have hlow := BitVec.le_toInt k
  have hhigh := BitVec.toInt_lt (x := k)
  rw [hk] at hlow hhigh ⊢
  exact F64.add_ofInt (by omega)

theorem intPathExact_sub (v w : JsValue) : IntPathExact (· - ·) F64.sub v w := by
  intro r h
  obtain ⟨i, j, k, rfl, rfl, rfl, hk⟩ := intPath_eq_some h
  refine ⟨k, rfl, ?_⟩
  have hlow := BitVec.le_toInt k
  have hhigh := BitVec.toInt_lt (x := k)
  rw [hk] at hlow hhigh ⊢
  exact F64.sub_ofInt (by omega)

/-- The operands are int32 values, one of them zero and the other negative. -/
def LosesSign (v w : JsValue) : Prop :=
  ∃ i j : BitVec 32, v = int32 i ∧ w = int32 j ∧
    (i.toInt = 0 ∧ j.toInt < 0 ∨ i.toInt < 0 ∧ j.toInt = 0)

theorem intPathExact_mul_iff (v w : JsValue) :
    IntPathExact (· * ·) F64.mul v w ↔ ¬ LosesSign v w := by
  constructor
  · rintro h ⟨i, j, rfl, rfl, hij⟩
    have hzero : i.toInt * j.toInt = 0 := by
      rcases hij with ⟨h, -⟩ | ⟨-, h⟩
      · rw [h, zero_mul]
      · rw [h, mul_zero]
    -- the integer path is taken, and pushes a zero without sign
    have hpath : intPath (int32 i) (int32 j) (· * ·) = some (int32 0) := by
      change Option.map _ (if -2 ^ 31 ≤ i.toInt * j.toInt ∧ i.toInt * j.toInt < 2 ^ 31 then
        some (BitVec.ofInt 32 (i.toInt * j.toInt)) else none) = _
      rw [hzero]
      rfl
    obtain ⟨k, -, hmul⟩ := h _ hpath
    have hneg : F64.mul (F64.ofInt i.toInt) (F64.ofInt j.toInt) = .negZero := by
      rw [F64.mul_ofInt_zero (mul_eq_zero.mp hzero)]
      rcases hij with ⟨hi, hj⟩ | ⟨hi, hj⟩
      · rw [hi, decide_eq_true hj]
        rfl
      · rw [hj, decide_eq_true hi]
        rfl
    exact nomatch hneg.symm.trans hmul
  · intro h r hr
    obtain ⟨i, j, k, rfl, rfl, rfl, hk⟩ := intPath_eq_some hr
    refine ⟨k, rfl, ?_⟩
    -- only a product of zero can have another sign as a double
    by_cases hzero : i.toInt = 0 ∨ j.toInt = 0
    · have hsign : ¬ i.toInt < 0 ∧ ¬ j.toInt < 0 := by
        refine ⟨fun hi => h ⟨i, j, rfl, rfl, .inr ⟨hi, ?_⟩⟩, fun hj => h ⟨i, j, rfl, rfl, .inl ⟨?_, hj⟩⟩⟩
        · exact hzero.resolve_left hi.ne
        · exact hzero.resolve_right hj.ne
      have hprod : F64.mul (F64.ofInt i.toInt) (F64.ofInt j.toInt) = F64.ofInt 0 := by
        rw [F64.mul_ofInt_zero hzero, decide_eq_false hsign.1, decide_eq_false hsign.2]
        rfl
      rw [hk, show i.toInt * j.toInt = 0 from mul_eq_zero.mpr hzero]
      exact hprod
    · obtain ⟨hi, hj⟩ := not_or.mp hzero
      have hlow := BitVec.le_toInt k
      have hhigh := BitVec.toInt_lt (x := k)
      rw [hk] at hlow hhigh ⊢
      exact F64.mul_ofInt (by omega) hi hj

/-! ### Numbers -/

/-- The opcode pushes the number. -/
def Pushes (result : Except Failure JsValue) (d : F64) : Prop :=
  ∃ r, result = .ok r ∧ r.isNumber = true ∧ r.getNumber = d

theorem pushes_doublePath {dop : F64 → F64 → F64} (hv : v.isNumber = true) (hw : w.isNumber = true) :
    Pushes (doublePath c v w dop) (dop v.getNumber w.getNumber) := by
  refine ⟨double (dop v.getNumber w.getNumber), ?_, rfl, rfl⟩
  rw [doublePath, if_pos (by rw [hv, hw]; rfl)]

theorem pushes_intPath_iff {dop : F64 → F64 → F64} (hv : v.isNumber = true) (hw : w.isNumber = true) :
    Pushes (match intPath v w op with
      | some val => .ok val
      | none => doublePath c v w dop) (dop v.getNumber w.getNumber) ↔ IntPathExact op dop v w := by
  cases hp : intPath v w op with
  | none =>
    refine iff_of_true (pushes_doublePath hv hw) fun r hr => ?_
    rw [hp] at hr
    cases hr
  | some r =>
    obtain ⟨i, j, k, rfl, rfl, rfl, -⟩ := intPath_eq_some hp
    constructor
    · rintro ⟨r, hr, -, hnum⟩ r' hr'
      rw [hp] at hr'
      obtain rfl := Option.some.inj hr'
      obtain rfl := Except.ok.inj hr
      exact ⟨k, rfl, hnum.symm⟩
    · intro h
      obtain ⟨k', hk, hnum⟩ := h _ hp
      obtain rfl := int32.inj hk
      exact ⟨_, rfl, rfl, hnum.symm⟩

theorem opAdd_number (hv : v.isNumber = true) (hw : w.isNumber = true) :
    opAdd c v w conversions cell = some (match intPath v w (· + ·) with
      | some val => .ok val
      | none => doublePath c v w F64.add) := by
  have hnum : (v.isNumber && w.isNumber) = true := by rw [hv, hw]; rfl
  unfold opAdd doublePath
  rw [if_pos hnum, if_pos hnum]
  cases intPath v w (· + ·) <;> rfl

/-- All arithmetic opcodes push the double result, and the shortcuts are exact. -/
structure ArithmeticExact (c : Conversions) (conversions cell : ℕ) (v w : JsValue) : Prop where
  add : ∃ result, opAdd c v w conversions cell = some result ∧
    Pushes result (v.getNumber.add w.getNumber)
  sub : Pushes (opSub c v w) (v.getNumber.sub w.getNumber)
  mul : Pushes (opMul c v w) (v.getNumber.mul w.getNumber)
  div : Pushes (opDiv c v w) (v.getNumber.div w.getNumber)
  rem : Pushes (opRem c v w) (v.getNumber.rem w.getNumber)
  neg : Pushes (opNeg c v) v.getNumber.neg
  intPath_add : IntPathExact (· + ·) F64.add v w
  intPath_sub : IntPathExact (· - ·) F64.sub v w
  intPath_mul : IntPathExact (· * ·) F64.mul v w

/-- **Arithmetic of numbers.** The opcodes push the double result, whichever encodings the operands have,
unless they are a zero and a negative number, both int32: the product of these loses its sign. -/
theorem arithmeticExact_iff (c : Conversions) (conversions cell : ℕ) (hv : v.isNumber = true)
    (hw : w.isNumber = true) : ArithmeticExact c conversions cell v w ↔ ¬ LosesSign v w := by
  constructor
  · intro h
    exact (intPathExact_mul_iff v w).mp h.intPath_mul
  · intro h
    have hmul := (intPathExact_mul_iff v w).mpr h
    exact {
      add := ⟨_, opAdd_number hv hw, (pushes_intPath_iff hv hw).mpr (intPathExact_add v w)⟩
      sub := (pushes_intPath_iff hv hw).mpr (intPathExact_sub v w)
      mul := (pushes_intPath_iff hv hw).mpr hmul
      div := pushes_doublePath hv hw
      rem := pushes_doublePath hv hw
      neg := ⟨_, if_pos hv, rfl, rfl⟩
      intPath_add := intPathExact_add v w
      intPath_sub := intPathExact_sub v w
      intPath_mul := hmul }

/-- The operands `3`, an int32, and `0.5`. -/
theorem arithmeticExact_three_half :
    ArithmeticExact ⟨fun _ _ _ => .ok none⟩ 0 0 (int32 3) (double (.fin (1 / 2))) ↔
      ¬ LosesSign (int32 3) (double (.fin (1 / 2))) :=
  arithmeticExact_iff _ 0 0 rfl rfl

/-- `0 * -1` is `0` for two int32 operands, and `-0` when one of them is a double. -/
theorem opMul_zero_neg_one :
    opMul ⟨fun _ _ _ => .ok none⟩ (int32 0) (int32 (-1)) = .ok (int32 0) ∧
      opMul ⟨fun _ _ _ => .ok none⟩ (double (.fin 0)) (int32 (-1)) = .ok (double .negZero) ∧
      (int32 0).getNumber = (double (.fin 0)).getNumber ∧
      (int32 0).getNumber.mul (int32 (-1)).getNumber = .negZero := by
  decide

end JsValue

end Starlight
