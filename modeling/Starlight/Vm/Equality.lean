import Starlight.Vm.Conversions

/-!
# Equality

`abstract_equal` is a loop. Each turn decides the question or converts one operand: a boolean to a number,
a string that is compared with a number, an object that is compared with a number or a string. A symbol is
a heap cell too, and `to_primitive` leaves it as it is, so a number, a string or a boolean is compared with
a symbol forever; the same with an object whose conversions never end.
-/

namespace Starlight

namespace JsValue

def strictEqual (lhs rhs : JsValue) : Bool :=
  if lhs.isNumber && rhs.isNumber then lhs.getNumber.eq rhs.getNumber
  else if !lhs.isObject || !rhs.isObject then lhs = rhs
  else if lhs.isString && rhs.isString then lhs.getText = rhs.getText
  else lhs = rhs

/-- A turn of the loop of `abstract_equal`: the answer, or the operands of the next turn. -/
def abstractEqualStep (c : Conversions) (lhs rhs : JsValue) :
    Except Failure (Bool ⊕ JsValue × JsValue) :=
  if lhs.isInt32 && rhs.isInt32 then .ok (.inl (lhs.getInt32 = rhs.getInt32))
  else if lhs.isNumber && rhs.isNumber then .ok (.inl (lhs.getNumber.eq rhs.getNumber))
  else if lhs.isUndefinedOrNull && rhs.isUndefinedOrNull then .ok (.inl true)
  else if lhs.isString && rhs.isString then .ok (.inl (lhs.getText = rhs.getText))
  else if lhs.isSymbol && rhs.isSymbol then .ok (.inl (lhs = rhs))
  else if lhs.isJsObject && rhs.isJsObject then .ok (.inl (lhs = rhs))
  else if lhs.isNumber && rhs.isString then do
    return .inr (lhs, .double (← c.toNumber rhs))
  else if lhs.isString && rhs.isNumber then do
    return .inr (.double (← c.toNumber lhs), rhs)
  else if lhs.isBool then do
    return .inr (.double (← c.toNumber lhs), rhs)
  else if rhs.isBool then do
    return .inr (lhs, .double (← c.toNumber rhs))
  else if (lhs.isString || lhs.isNumber) && rhs.isObject then do
    return .inr (lhs, ← c.toPrimitive .none rhs)
  else if lhs.isObject && (rhs.isString || rhs.isNumber) then do
    return .inr (← c.toPrimitive .none lhs, rhs)
  else .ok (.inl false)

def abstractEqual (c : Conversions) : ℕ → JsValue → JsValue → Option (Except Failure Bool)
  | 0, _, _ => none
  | turns + 1, lhs, rhs =>
    match abstractEqualStep c lhs rhs with
    | .error e => some (.error e)
    | .ok (.inl b) => some (.ok b)
    | .ok (.inr (lhs, rhs)) => abstractEqual c turns lhs rhs

end JsValue

inductive JsType where
  | undefined | null | boolean | number | string | symbol | object
deriving DecidableEq

namespace JsValue

def type : JsValue → Option JsType
  | undefined => some .undefined
  | null => some .null
  | bool _ => some .boolean
  | int32 _ | double _ => some .number
  | string .. => some .string
  | symbol _ => some .symbol
  | object _ => some .object
  | empty | accessor _ => none

variable {c : Conversions} {v w : JsValue}

/-- Converting the value again and again comes to a word that is no heap cell, to a string, or to an
exception. -/
inductive Settles (c : Conversions) : JsValue → Prop where
  | done {v : JsValue} (h : v.isObject = false ∨ v.isString = true) : Settles c v
  | fails {o : ℕ} {e : Failure} (h : c.toPrimitive .none (object o) = .error e) : Settles c (object o)
  | next {o : ℕ} {w : JsValue} (h : c.toPrimitive .none (object o) = .ok w) (hw : Settles c w) :
      Settles c (object o)

/-- The value is a number, a string or a boolean. -/
def isScalar (v : JsValue) : Bool := v.isNumber || v.isString || v.isBool

/-- A scalar waits for the conversion of the other operand, which does not end. -/
def Waits (c : Conversions) (v w : JsValue) : Prop :=
  v.isScalar = true ∧ ¬ Settles c w ∨ w.isScalar = true ∧ ¬ Settles c v

theorem abstractEqualStep_number (hv : v.isNumber = true) (hw : w.isNumber = true) :
    abstractEqualStep c v w = .ok (.inl (v.getNumber.eq w.getNumber)) := by
  unfold abstractEqualStep
  by_cases h : (v.isInt32 && w.isInt32) = true
  · rw [if_pos h]
    cases v <;> try cases h
    cases w <;> try cases h
    next i j =>
    have hij : decide (i = j) = (F64.ofInt i.toInt).eq (F64.ofInt j.toInt) := by
      refine decide_eq_decide.mpr ?_
      simp only [F64.ofInt, F64.fin.injEq, Int.cast_inj, BitVec.toInt_inj]
    exact congrArg (fun b => Except.ok (Sum.inl b)) hij
  · rw [if_neg h, if_pos (by rw [hv, hw]; rfl)]

theorem abstractEqualStep_cell (hv : v.isNumber = true ∨ v.isString = true) (hw : w.isObject = true)
    (hs : w.isString = false) :
    abstractEqualStep c v w = (c.toPrimitive .none w).map (fun p => .inr (v, p)) ∧
      abstractEqualStep c w v = (c.toPrimitive .none w).map (fun p => .inr (p, v)) := by
  have hbind : ∀ x : Except Failure JsValue, ∀ f : JsValue → Bool ⊕ JsValue × JsValue,
      (x >>= fun p => pure (f p)) = x.map f := fun x f => by cases x <;> rfl
  rcases hv with hv | hv <;> cases v <;> try cases hv
  all_goals
    cases w <;> first
      | exact absurd hw Bool.false_ne_true
      | exact absurd hs.symm Bool.false_ne_true
      | exact ⟨hbind _ _, hbind _ _⟩

theorem abstractEqualStep_comm (h : ¬ (v.isBool = true ∧ w.isBool = true)) :
    abstractEqualStep c w v = (abstractEqualStep c v w).map (Sum.map id Prod.swap) := by
  by_cases hnum : v.isNumber = true ∧ w.isNumber = true
  · rw [abstractEqualStep_number hnum.1 hnum.2, abstractEqualStep_number hnum.2 hnum.1, F64.eq_comm]
    rfl
  have hdecide : ∀ {p q : Prop} [Decidable p] [Decidable q], (p ↔ q) →
      (Except.ok (Sum.inl (decide p)) : Except Failure (Bool ⊕ JsValue × JsValue)) =
        (Except.ok (Sum.inl (decide q))).map (Sum.map id Prod.swap) := fun h =>
    congrArg (fun b => Except.ok (Sum.inl b)) (decide_eq_decide.mpr h)
  have hmap : ∀ (x : Except Failure JsValue) {f g : JsValue → Bool ⊕ JsValue × JsValue},
      (∀ p, (f p).map id Prod.swap = g p) → x.map g = (x.map f).map (Sum.map id Prod.swap) := by
    intro x f g hfg
    cases x with
    | error e => rfl
    | ok p => exact congrArg Except.ok (hfg p).symm
  -- the operand that is a cell is converted, whichever side it is on
  by_cases hw : (v.isNumber = true ∨ v.isString = true) ∧ w.isObject = true ∧ w.isString = false
  · obtain ⟨hvw, hwv⟩ := abstractEqualStep_cell (c := c) hw.1 hw.2.1 hw.2.2
    rw [hvw, hwv]
    exact hmap _ fun _ => rfl
  by_cases hv : (w.isNumber = true ∨ w.isString = true) ∧ v.isObject = true ∧ v.isString = false
  · obtain ⟨hwv, hvw⟩ := abstractEqualStep_cell (c := c) hv.1 hv.2.1 hv.2.2
    rw [hvw, hwv]
    exact hmap _ fun _ => rfl
  cases v <;> cases w <;> first
    | rfl
    | exact absurd ⟨rfl, rfl⟩ hnum
    | exact absurd ⟨rfl, rfl⟩ h
    | exact absurd ⟨.inl rfl, rfl, rfl⟩ hw
    | exact absurd ⟨.inr rfl, rfl, rfl⟩ hw
    | exact absurd ⟨.inl rfl, rfl, rfl⟩ hv
    | exact absurd ⟨.inr rfl, rfl, rfl⟩ hv
    | exact hdecide eq_comm

theorem abstractEqual_comm (turns : ℕ) (v w : JsValue) :
    abstractEqual c turns w v = abstractEqual c turns v w := by
  induction turns generalizing v w with
  | zero => rfl
  | succ turns ih =>
    by_cases h : v.isBool = true ∧ w.isBool = true
    · cases v <;> try cases h.1
      cases w <;> try cases h.2
      next b b' =>
      -- both are converted before the comparison
      rcases turns with _ | _ | turns
      · rfl
      · rfl
      · cases b <;> cases b' <;> rfl
    · rw [abstractEqual, abstractEqual, abstractEqualStep_comm h]
      cases abstractEqualStep c v w with
      | error e => rfl
      | ok r =>
        cases r with
        | inl b => rfl
        | inr p => exact ih p.1 p.2

theorem abstractEqual_eq_none (hv : v.isNumber = true ∨ v.isString = true) (hw : ¬ Settles c w)
    (turns : ℕ) : abstractEqual c turns v w = none := by
  induction turns generalizing w with
  | zero => rfl
  | succ turns ih =>
    have hcell : w.isObject = true := by
      by_contra h
      exact hw (.done (.inl (Bool.eq_false_iff.mpr h)))
    have hstring : w.isString = false := by
      by_contra h
      exact hw (.done (.inr (Bool.of_not_eq_false h)))
    rw [abstractEqual, (abstractEqualStep_cell hv hcell hstring).1]
    cases hp : c.toPrimitive .none w with
    | error e =>
      cases w <;> first | cases hp | exact absurd (.fails hp) hw
    | ok p =>
      refine ih fun hsettles => hw ?_
      cases w <;> first | (cases hp; exact hsettles) | exact .next hp hsettles

theorem exists_abstractEqual (hv : v.isNumber = true ∨ v.isString = true) (hw : Settles c w) :
    ∃ turns r, abstractEqual c turns v w = some r := by
  induction hw with
  | @done u h =>
    -- two conversions of the operands at most, and the comparison
    refine ⟨3, ?_⟩
    cases v <;> first
      | exact absurd hv (not_or.mpr ⟨Bool.false_ne_true, Bool.false_ne_true⟩)
      | cases u <;> first
        | exact ⟨_, rfl⟩
        | exact absurd h (not_or.mpr ⟨Bool.false_ne_true.symm, Bool.false_ne_true⟩)
  | @fails o e h =>
    refine ⟨1, .error e, ?_⟩
    rw [abstractEqual, (abstractEqualStep_cell hv rfl rfl).1, h]
    rfl
  | @next o w h _ ih =>
    obtain ⟨turns, r, hr⟩ := ih
    refine ⟨turns + 1, r, ?_⟩
    rw [abstractEqual, (abstractEqualStep_cell hv rfl rfl).1, h]
    exact hr

theorem abstractEqual_bool (b : Bool) (w : JsValue) (turns : ℕ) :
    abstractEqual c (turns + 1) (.bool b) w =
      abstractEqual c turns (.double (F64.ofInt b.toNat)) w := by
  cases w <;> rfl

theorem exists_abstractEqual_of_not_scalar (hv : v.isScalar = false) (hw : w.isScalar = false) :
    ∃ r, abstractEqual c 1 v w = some r := by
  cases v <;> cases w <;> first
    | exact absurd hv.symm Bool.false_ne_true
    | exact absurd hw.symm Bool.false_ne_true
    | exact ⟨_, rfl⟩

theorem isScalar_iff : v.isScalar = true ↔
    (v.isNumber = true ∨ v.isString = true) ∨ ∃ b, v = bool b := by
  cases v <;> simp [isScalar, isNumber, isString, isBool]

theorem abstractEqual_scalar (hv : v.isScalar = true) :
    (∃ turns r, abstractEqual c turns v w = some r) ↔ Settles c w := by
  constructor
  · rintro ⟨turns, r, h⟩
    by_contra hw
    rcases isScalar_iff.mp hv with hv | ⟨b, rfl⟩
    · rw [abstractEqual_eq_none hv hw] at h
      cases h
    · cases turns with
      | zero => cases h
      | succ turns =>
        rw [abstractEqual_bool, abstractEqual_eq_none (.inl rfl) hw] at h
        cases h
  · intro hw
    rcases isScalar_iff.mp hv with hv | ⟨b, rfl⟩
    · exact exists_abstractEqual hv hw
    · obtain ⟨turns, r, h⟩ := exists_abstractEqual (v := .double (F64.ofInt b.toNat)) (.inl rfl) hw
      exact ⟨turns + 1, r, by rw [abstractEqual_bool, h]⟩

theorem abstractEqual_of_type {t : JsType} (hv : v.type = some t) (hw : w.type = some t) :
    abstractEqual c 3 v w = some (.ok (v.strictEqual w)) := by
  by_cases hnum : v.isNumber = true ∧ w.isNumber = true
  · rw [abstractEqual, abstractEqualStep_number hnum.1 hnum.2, strictEqual,
      if_pos (by rw [hnum.1, hnum.2]; rfl)]
  have htype : v.type = w.type := hv.trans hw.symm
  cases v <;> cases w <;> first
    | exact absurd ⟨rfl, rfl⟩ hnum
    | rfl
    | (cases htype; done)
    | (cases hv; done)
    | skip
  next b b' => cases b <;> cases b' <;> rfl

/-- **Abstract equality.** The loop ends for two values unless one of them is a number, a string or a
boolean and the conversions of the other come to a symbol or never end. Where it ends it does so in both
orders, with the same answer, which is that of strict equality when the types are the same. -/
theorem abstractEqual_ends_iff (c : Conversions) (v w : JsValue) :
    (∃ turns r, abstractEqual c turns v w = some r ∧ abstractEqual c turns w v = some r ∧
      ∀ t, v.type = some t → w.type = some t → r = .ok (v.strictEqual w)) ↔ ¬ Waits c v w := by
  constructor
  · rintro ⟨turns, r, hvw, hwv, -⟩ (⟨hv, hw⟩ | ⟨hw, hv⟩)
    · exact hw ((abstractEqual_scalar hv).mp ⟨turns, r, hvw⟩)
    · exact hv ((abstractEqual_scalar hw).mp ⟨turns, r, hwv⟩)
  · intro h
    have hends : ∃ turns r, abstractEqual c turns v w = some r := by
      by_cases hv : v.isScalar = true
      · exact (abstractEqual_scalar hv).mpr (not_not.mp fun hw => h (.inl ⟨hv, hw⟩))
      by_cases hw : w.isScalar = true
      · obtain ⟨turns, r, hr⟩ := (abstractEqual_scalar hw).mpr (not_not.mp fun hv => h (.inr ⟨hw, hv⟩))
        exact ⟨turns, r, by rw [abstractEqual_comm, hr]⟩
      · obtain ⟨r, hr⟩ := exists_abstractEqual_of_not_scalar (c := c) (Bool.eq_false_iff.mpr hv)
          (Bool.eq_false_iff.mpr hw)
        exact ⟨1, r, hr⟩
    by_cases htype : ∃ t, v.type = some t ∧ w.type = some t
    · obtain ⟨t, hv, hw⟩ := htype
      have hr := abstractEqual_of_type (c := c) hv hw
      exact ⟨3, _, hr, by rw [abstractEqual_comm, hr], fun _ _ _ => rfl⟩
    · obtain ⟨turns, r, hr⟩ := hends
      exact ⟨turns, r, hr, by rw [abstractEqual_comm, hr], fun t hv hw => absurd ⟨t, hv, hw⟩ htype⟩

/-- `1 == Symbol()` does not end. -/
theorem abstractEqual_one_symbol :
    ¬ ∃ turns r, abstractEqual ⟨fun _ _ _ => .ok none⟩ turns (.int32 1) (.symbol 0) = some r := by
  rintro ⟨turns, r, h⟩
  have hsettles := (abstractEqual_scalar rfl).mp ⟨turns, r, h⟩
  cases hsettles with
  | done h => exact absurd h (not_or.mpr ⟨Bool.false_ne_true.symm, Bool.false_ne_true⟩)

end JsValue

end Starlight
