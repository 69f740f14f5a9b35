import Mathlib.Data.String.Basic
import Starlight.Vm.Equality

/-!
# Relational comparison

`compare` answers whether the left operand is less, with a third answer for NaN. The four operators derive
theirs from it: `>` and `<=` by comparing the operands in the other order, with the flag that the right one
is still converted first, and `<=` and `>=` as a comparison that does not hold. Two int32 operands are
compared without it.

On strings the answer is the order of their code points, which Rust computes in three steps: a prefix in
either direction, and else the first characters that differ.
-/

namespace Starlight

namespace JsValue

def cmpFalse : ℤ := 0
def cmpTrue : ℤ := 1
def cmpUndef : ℤ := -1

def numberCompare (x y : F64) : ℤ :=
  if x.isNan || y.isNan then cmpUndef
  else if x.eq y then cmpFalse
  else if x.lt y then cmpTrue
  else cmpFalse

/-- The first characters that differ decide. -/
def firstDifference : List Char → List Char → Except Failure ℤ
  | x :: xs, y :: ys => if x ≠ y then .ok (if x < y then cmpTrue else cmpFalse) else firstDifference xs ys
  | _, _ => .error .unreachable

def slowStringCmp (x y : String) : Except Failure ℤ :=
  if y.toList.isPrefixOf x.toList then .ok cmpFalse
  else if x.toList.isPrefixOf y.toList then .ok cmpTrue
  else firstDifference x.toList y.toList

variable (c : Conversions) (lhs rhs : JsValue)

def comparePrimitives (px py : JsValue) : Except Failure ℤ :=
  if px.isNumber && py.isNumber then .ok (numberCompare px.getNumber py.getNumber)
  else if px.isString && py.isString then slowStringCmp px.getText py.getText
  else do
    let nx ← c.toNumber px
    let ny ← c.toNumber py
    return numberCompare nx ny

def compare (leftFirst : Bool) : Except Failure ℤ :=
  if lhs.isNumber && rhs.isNumber then .ok (numberCompare lhs.getNumber rhs.getNumber)
  else if leftFirst then do
    let px ← c.toPrimitive .number lhs
    let py ← c.toPrimitive .number rhs
    comparePrimitives c px py
  else do
    let py ← c.toPrimitive .number rhs
    let px ← c.toPrimitive .number lhs
    comparePrimitives c px py

def opLess : Except Failure Bool :=
  if lhs.isInt32 && rhs.isInt32 then .ok (lhs.getInt32.slt rhs.getInt32)
  else (compare c lhs rhs true).map (· == cmpTrue)

def opLessEq : Except Failure Bool :=
  if lhs.isInt32 && rhs.isInt32 then .ok (lhs.getInt32.sle rhs.getInt32)
  else (compare c rhs lhs false).map (· == cmpFalse)

def opGreater : Except Failure Bool :=
  if lhs.isInt32 && rhs.isInt32 then .ok (rhs.getInt32.slt lhs.getInt32)
  else (compare c rhs lhs false).map (· == cmpTrue)

def opGreaterEq : Except Failure Bool :=
  if lhs.isInt32 && rhs.isInt32 then .ok (rhs.getInt32.sle lhs.getInt32)
  else (compare c lhs rhs true).map (· == cmpFalse)

variable {c lhs rhs} {v w : JsValue} {leftFirst : Bool}

/-! ### Strings -/

theorem listCompare_eq (xs ys : List Char) :
    (if ys.isPrefixOf xs then .ok cmpFalse else if xs.isPrefixOf ys then .ok cmpTrue
      else firstDifference xs ys) = (.ok (if xs < ys then cmpTrue else cmpFalse) : Except Failure ℤ) := by
  induction xs generalizing ys with
  | nil => cases ys <;> rfl
  | cons x xs ih =>
    cases ys with
    | nil => rfl
    | cons y ys =>
      -- a common first character does not decide, a different one does
      by_cases hxy : x = y
      · subst hxy
        have hlt : x :: xs < x :: ys ↔ xs < ys := by
          rw [List.cons_lt_cons_iff]
          exact or_iff_right_of_imp (fun h => absurd h (lt_irrefl x)) |>.trans (and_iff_right rfl)
        have ih := ih ys
        simp only [List.isPrefixOf, BEq.rfl, Bool.true_and, firstDifference, ne_eq, not_true_eq_false,
          if_false, hlt]
        exact ih
      · have hyx : (y == x) = false := beq_false_of_ne (Ne.symm hxy)
        have hlt : x :: xs < y :: ys ↔ x < y := by
          rw [List.cons_lt_cons_iff]
          exact or_iff_left fun h => hxy h.1
        simp only [List.isPrefixOf, hyx, beq_false_of_ne hxy, Bool.false_and, Bool.false_eq_true,
          if_false, firstDifference, ne_eq, hxy, not_false_eq_true, if_true, hlt]

theorem slowStringCmp_eq (s t : String) :
    slowStringCmp s t = .ok (if s < t then cmpTrue else cmpFalse) := by
  have h := listCompare_eq s.toList t.toList
  simp only [← String.lt_iff_toList_lt] at h
  exact h

theorem compare_string (cell cell' : ℕ) (s t : String) :
    compare c (string cell s) (string cell' t) leftFirst = .ok (if s < t then cmpTrue else cmpFalse) := by
  have h : ∀ b, compare c (string cell s) (string cell' t) b = slowStringCmp s t := fun b => by
    cases b <;> rfl
  rw [h, slowStringCmp_eq]

/-! ### Numbers -/

theorem compare_number (hv : v.isNumber = true) (hw : w.isNumber = true) :
    compare c v w leftFirst = .ok (numberCompare v.getNumber w.getNumber) := by
  rw [compare, if_pos (by rw [hv, hw]; rfl)]

end JsValue

theorem decide_trichotomy {α : Type} [LinearOrder α] (p q : α) :
    (decide (p < q)).toNat + (decide (q < p)).toNat + (decide (p = q)).toNat = 1 := by
  rcases lt_trichotomy p q with h | h | h
  · rw [decide_eq_true h, decide_eq_false h.not_gt, decide_eq_false h.ne]
    rfl
  · rw [decide_eq_false h.not_lt, decide_eq_false h.not_gt, decide_eq_true h]
    rfl
  · rw [decide_eq_false h.not_gt, decide_eq_true h, decide_eq_false h.ne']
    rfl

namespace F64

variable {x y : F64}

theorem lt_nan_left : lt .nan x = false := by cases x <;> rfl

theorem lt_nan_right : x.lt .nan = false := by cases x <;> rfl

theorem trichotomy (hx : x.isNan = false) (hy : y.isNan = false) :
    (x.lt y).toNat + (y.lt x).toNat + (x.eq y).toNat = 1 := by
  cases x with
  | nan => cases hx
  | fin p =>
    cases y with
    | nan => cases hy
    | fin q =>
      have heq : eq (.fin p) (.fin q) = decide (p = q) := decide_eq_decide.mpr (by rw [F64.fin.injEq])
      rw [heq]
      exact decide_trichotomy p q
    | negZero => exact decide_trichotomy p 0
    | _ => rfl
  | negZero =>
    cases y with
    | nan => cases hy
    | fin q =>
      have h := decide_trichotomy 0 q
      rwa [decide_eq_decide.mpr (eq_comm (a := (0 : ℚ)) (b := q))] at h
    | negZero => decide
    | _ => rfl
  | _ =>
    cases y with
    | nan => cases hy
    | _ => rfl

end F64

namespace JsValue

variable {c : Conversions} {a b v w : JsValue} {x y : F64}

theorem numberCompare_spec (x y : F64) :
    (numberCompare x y == cmpTrue) = x.lt y ∧ (numberCompare x y == cmpFalse) = y.le x := by
  by_cases hx : x.isNan = true
  · obtain rfl : x = .nan := by cases x <;> first | rfl | cases hx
    rw [F64.lt_nan_left, F64.le, F64.lt_nan_right, F64.eq_comm]
    exact ⟨rfl, rfl⟩
  by_cases hy : y.isNan = true
  · obtain rfl : y = .nan := by cases y <;> first | rfl | cases hy
    rw [F64.lt_nan_right, F64.le, F64.lt_nan_left, numberCompare,
      if_pos (by rw [Bool.or_eq_true]; exact .inr rfl)]
    exact ⟨rfl, rfl⟩
  have htri := F64.trichotomy (Bool.eq_false_iff.mpr hx) (Bool.eq_false_iff.mpr hy)
  rw [numberCompare, if_neg (by rw [Bool.or_eq_true]; exact not_or.mpr ⟨hx, hy⟩), F64.le, F64.eq_comm y x]
  -- the three relations exclude each other
  revert htri
  cases x.eq y <;> cases x.lt y <;> cases y.lt x <;> decide

theorem lt_ofInt (i j : BitVec 32) : (F64.ofInt i.toInt).lt (F64.ofInt j.toInt) = i.slt j := by
  exact decide_eq_decide.mpr Int.cast_lt

theorem le_ofInt (i j : BitVec 32) : (F64.ofInt i.toInt).le (F64.ofInt j.toInt) = i.sle j := by
  have heq : (F64.ofInt i.toInt).eq (F64.ofInt j.toInt) = decide (i.toInt = j.toInt) := by
    refine decide_eq_decide.mpr ?_
    simp only [F64.ofInt, F64.fin.injEq, Int.cast_inj]
  rw [F64.le, lt_ofInt, heq, BitVec.slt, BitVec.sle, Bool.eq_iff_iff]
  simp only [Bool.or_eq_true, decide_eq_true_eq]
  omega

theorem op_eq_compare (c : Conversions) (a b : JsValue) :
    opLess c a b = (compare c a b true).map (· == cmpTrue) ∧
      opLessEq c a b = (compare c b a false).map (· == cmpFalse) ∧
      opGreater c a b = (compare c b a false).map (· == cmpTrue) ∧
      opGreaterEq c a b = (compare c a b true).map (· == cmpFalse) := by
  -- only the integer path differs from a call of `compare`
  by_cases h : (a.isInt32 && b.isInt32) = true
  · obtain ⟨⟨i, rfl⟩, j, rfl⟩ : (∃ i, a = int32 i) ∧ ∃ j, b = int32 j := by
      rw [Bool.and_eq_true] at h
      constructor
      · cases a <;> first | exact ⟨_, rfl⟩ | cases h.1
      · cases b <;> first | exact ⟨_, rfl⟩ | cases h.2
    have hij := numberCompare_spec (F64.ofInt i.toInt) (F64.ofInt j.toInt)
    have hji := numberCompare_spec (F64.ofInt j.toInt) (F64.ofInt i.toInt)
    rw [lt_ofInt, le_ofInt] at hij hji
    rw [compare_number (v := int32 i) rfl rfl, compare_number (v := int32 j) rfl rfl]
    exact ⟨congrArg Except.ok hij.1.symm, congrArg Except.ok hji.2.symm, congrArg Except.ok hji.1.symm,
      congrArg Except.ok hij.2.symm⟩
  · exact ⟨if_neg h, if_neg h, if_neg h, if_neg h⟩

theorem op_number (c : Conversions) (ha : a.isNumber = true) (hb : b.isNumber = true) :
    opLess c a b = .ok (a.getNumber.lt b.getNumber) ∧
      opLessEq c a b = .ok (a.getNumber.le b.getNumber) ∧
      opGreater c a b = .ok (b.getNumber.lt a.getNumber) ∧
      opGreaterEq c a b = .ok (b.getNumber.le a.getNumber) := by
  obtain ⟨hless, hlessEq, hgreater, hgreaterEq⟩ := op_eq_compare c a b
  have hab := numberCompare_spec a.getNumber b.getNumber
  have hba := numberCompare_spec b.getNumber a.getNumber
  rw [hless, hlessEq, hgreater, hgreaterEq, ← hab.1, ← hab.2, ← hba.1, ← hba.2]
  simp only [compare_number ha hb, compare_number hb ha]
  exact ⟨rfl, rfl, rfl, rfl⟩

/-! ### The order of conversions -/

theorem compare_comm_flag (r : ℤ) :
    compare c v w true = .ok r ↔ compare c v w false = .ok r := by
  unfold compare
  split
  · rfl
  · rw [if_pos rfl, if_neg Bool.false_ne_true]
    cases c.toPrimitive .number v <;> cases c.toPrimitive .number w <;> first
      | rfl
      | exact iff_of_false (fun h => by cases h) (fun h => by cases h)

theorem op_left_first {e : Failure} (c : Conversions) (ha : c.toPrimitive .number a = .error e)
    (b : JsValue) :
    opLess c a b = .error e ∧ opLessEq c a b = .error e ∧ opGreater c a b = .error e ∧
      opGreaterEq c a b = .error e := by
  have hnum : a.isNumber = false := by
    cases a <;> first | rfl | cases ha
  obtain ⟨hless, hlessEq, hgreater, hgreaterEq⟩ := op_eq_compare c a b
  have hab : compare c a b true = .error e := by
    rw [compare, hnum, ha]
    rfl
  have hba : compare c b a false = .error e := by
    rw [compare, hnum, Bool.and_false, ha]
    rfl
  rw [hless, hlessEq, hgreater, hgreaterEq, hab, hba]
  exact ⟨rfl, rfl, rfl, rfl⟩

theorem op_swap (c : Conversions) (a b : JsValue) (r : Bool) :
    (opGreater c a b = .ok r ↔ opLess c b a = .ok r) ∧
      (opLessEq c a b = .ok r ↔ opGreaterEq c b a = .ok r) := by
  have hmap : ∀ (f : ℤ → Bool) (x y : Except Failure ℤ), (∀ n, x = .ok n ↔ y = .ok n) →
      (x.map f = .ok r ↔ y.map f = .ok r) := by
    intro f x y h
    cases x with
    | ok n => rw [(h n).mp rfl]
    | error e =>
      cases y with
      | ok n => exact absurd ((h n).mpr rfl) nofun
      | error e' => exact iff_of_false nofun nofun
  obtain ⟨-, hlessEq, hgreater, -⟩ := op_eq_compare c a b
  obtain ⟨hless, -, -, hgreaterEq⟩ := op_eq_compare c b a
  rw [hlessEq, hgreater, hless, hgreaterEq]
  exact ⟨hmap _ _ _ fun n => (compare_comm_flag n).symm, hmap _ _ _ fun n => (compare_comm_flag n).symm⟩

/-! ### Coherence -/

theorem op_string (c : Conversions) (cell cell' : ℕ) (s t : String) :
    opLess c (string cell s) (string cell' t) = .ok (decide (s < t)) ∧
      opLessEq c (string cell s) (string cell' t) = .ok (decide (s ≤ t)) ∧
      opGreater c (string cell s) (string cell' t) = .ok (decide (t < s)) ∧
      opGreaterEq c (string cell s) (string cell' t) = .ok (decide (t ≤ s)) := by
  have htrue : ∀ s t : String, ((if s < t then cmpTrue else cmpFalse) == cmpTrue) = decide (s < t) := by
    intro s t
    by_cases h : s < t
    · rw [if_pos h, decide_eq_true h]
      rfl
    · rw [if_neg h, decide_eq_false h]
      rfl
  have hfalse : ∀ s t : String, ((if s < t then cmpTrue else cmpFalse) == cmpFalse) = decide (t ≤ s) := by
    intro s t
    by_cases h : s < t
    · rw [if_pos h, decide_eq_false h.not_ge]
      rfl
    · rw [if_neg h, decide_eq_true (not_lt.mp h)]
      rfl
  obtain ⟨hless, hlessEq, hgreater, hgreaterEq⟩ := op_eq_compare c (string cell s) (string cell' t)
  rw [hless, hlessEq, hgreater, hgreaterEq, compare_string, compare_string]
  exact ⟨congrArg Except.ok (htrue s t), congrArg Except.ok (hfalse t s),
    congrArg Except.ok (htrue t s), congrArg Except.ok (hfalse s t)⟩

/-- The values are two numbers that are no NaNs, or two strings. -/
def Ordered (a b : JsValue) : Prop :=
  a.isNumber = true ∧ b.isNumber = true ∧ a.getNumber.isNan = false ∧ b.getNumber.isNan = false ∨
    a.isString = true ∧ b.isString = true

theorem ordered_trichotomy (c : Conversions) (h : a.Ordered b) :
    ∃ less greater equal, opLess c a b = .ok less ∧ opLess c b a = .ok greater ∧
      a.strictEqual b = equal ∧ abstractEqual c 1 a b = some (.ok equal) ∧
      less.toNat + greater.toNat + equal.toNat = 1 := by
  rcases h with ⟨ha, hb, hna, hnb⟩ | ⟨ha, hb⟩
  · refine ⟨_, _, a.getNumber.eq b.getNumber, (op_number c ha hb).1, (op_number c hb ha).1, ?_, ?_,
      F64.trichotomy hna hnb⟩
    · rw [strictEqual, if_pos (by rw [ha, hb]; rfl)]
    · rw [abstractEqual, abstractEqualStep_number ha hb]
  · obtain ⟨⟨cell, s, rfl⟩, cell', t, rfl⟩ :
        (∃ cell s, a = string cell s) ∧ ∃ cell t, b = string cell t := by
      constructor
      · cases a <;> first | exact ⟨_, _, rfl⟩ | cases ha
      · cases b <;> first | exact ⟨_, _, rfl⟩ | cases hb
    exact ⟨_, _, decide (s = t), (op_string c cell cell' s t).1, (op_string c cell' cell t s).1, rfl, rfl,
      decide_trichotomy s t⟩

def Less (c : Conversions) (a b : JsValue) : Prop := compare c a b true = .ok cmpTrue

theorem less_string {cell cell' : ℕ} {s t : String} :
    Less c (string cell s) (string cell' t) ↔ s < t := by
  rw [Less, compare_string]
  by_cases h : s < t
  · rw [if_pos h]
    exact iff_of_true rfl h
  · rw [if_neg h]
    exact iff_of_false (fun h => nomatch Except.ok.inj h) h

/-- **Relational comparison.** The int32 paths of the operators give what `compare` gives, and a comparison
does not depend on the side it is read from; the left operand is converted first. On numbers the operators
are the comparisons of doubles, all false for a NaN. On strings `compare` decides the order of code points,
a strict total order, and always returns. Of two numbers that are no NaNs, and of two strings, one is less
or they are equal. -/
theorem relational_comparison (c : Conversions) :
    (∀ a b, opLess c a b = (compare c a b true).map (· == cmpTrue) ∧
      opLessEq c a b = (compare c b a false).map (· == cmpFalse) ∧
      opGreater c a b = (compare c b a false).map (· == cmpTrue) ∧
      opGreaterEq c a b = (compare c a b true).map (· == cmpFalse)) ∧
    (∀ a b r, (opGreater c a b = .ok r ↔ opLess c b a = .ok r) ∧
      (opLessEq c a b = .ok r ↔ opGreaterEq c b a = .ok r)) ∧
    (∀ a b e, c.toPrimitive .number a = .error e →
      opLess c a b = .error e ∧ opLessEq c a b = .error e ∧ opGreater c a b = .error e ∧
      opGreaterEq c a b = .error e) ∧
    (∀ a b, a.isNumber = true → b.isNumber = true →
      opLess c a b = .ok (a.getNumber.lt b.getNumber) ∧
      opLessEq c a b = .ok (a.getNumber.le b.getNumber) ∧
      opGreater c a b = .ok (b.getNumber.lt a.getNumber) ∧
      opGreaterEq c a b = .ok (b.getNumber.le a.getNumber)) ∧
    (∀ x : F64, F64.lt .nan x = false ∧ x.lt .nan = false ∧ F64.le .nan x = false ∧ x.le .nan = false) ∧
    (∀ leftFirst cell cell' s t, compare c (string cell s) (string cell' t) leftFirst =
      .ok (if s < t then cmpTrue else cmpFalse)) ∧
    (∀ s t, slowStringCmp s t ≠ .error .unreachable) ∧
    (∀ u v w, u.isString = true → v.isString = true → w.isString = true →
      ¬ Less c u u ∧ (Less c u v → Less c v w → Less c u w) ∧
      (Less c u v ∨ u.strictEqual v = true ∨ Less c v u)) ∧
    ∀ a b, a.Ordered b → ∃ less greater equal, opLess c a b = .ok less ∧ opLess c b a = .ok greater ∧
      a.strictEqual b = equal ∧ abstractEqual c 1 a b = some (.ok equal) ∧
      less.toNat + greater.toNat + equal.toNat = 1 := by
  refine ⟨op_eq_compare c, op_swap c, fun _ b _ ha => op_left_first c ha b, fun _ _ => op_number c,
    fun x => ⟨F64.lt_nan_left, F64.lt_nan_right, ?_, ?_⟩, fun _ _ _ _ _ => compare_string ..,
    fun s t => ?_, ?_, fun _ _ => ordered_trichotomy c⟩
  · rw [F64.le, F64.lt_nan_left]
    rfl
  · rw [F64.le, F64.lt_nan_right, F64.eq_comm]
    rfl
  · rw [slowStringCmp_eq]
    exact nofun
  · intro u v w hu hv hw
    cases u <;> try cases hu
    cases v <;> try cases hv
    cases w <;> try cases hw
    next cell s cell' t cell'' r =>
    rw [less_string, less_string, less_string, less_string, less_string]
    refine ⟨lt_irrefl s, lt_trans, (lt_trichotomy s t).imp id (Or.imp (fun h => ?_) id)⟩
    exact decide_eq_true h

end JsValue

end Starlight
