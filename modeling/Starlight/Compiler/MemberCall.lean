import Starlight.Lib.Exec
import Starlight.Vm.Value

/-!
# Calls of members

A member is compiled twice: `compile_access` reads `o.k` and `o[k]` where they are expressions, and a call has
a translation of its own, which leaves the object below the function. The call takes an identifier in
brackets for a name, and evaluates other keys before the object.

Here the code of the object or of the key is one instruction, and what `OP_GET_BY_ID` and `OP_GET_BY_VAL`
find is a parameter. `OP_GET_BY_VAL_PUSH_OBJ` finds what `OP_GET_BY_VAL` does.
-/

namespace Starlight

namespace MemberCall

open Exec Traced

variable {ε σ : Type}

/-- The part of a member behind the dot or in the brackets; an identifier is also an expression. Private
names are not compiled. -/
inductive Key (ε σ : Type) where
  | ident (name : String) (value : Exec ε σ JsValue)
  | other (value : Exec ε σ JsValue)

/-- A member; what stands behind a dot is an identifier. -/
structure Member (ε σ : Type) where
  obj : Exec ε σ JsValue
  computed : Bool
  prop : Key ε σ
  dotted : computed = false → ∃ name value, prop = .ident name value

/-- What is evaluated. -/
inductive Part where
  | obj
  | prop
deriving DecidableEq

inductive Op (ε σ : Type) where
  | expr (part : Part) (x : Exec ε σ JsValue)
  | dup
  | swap
  | getById (name : String)
  | getByVal (pushObj : Bool)

/-- `Access`, as far as members have it. -/
inductive Access where
  | byId (name : String)
  | byVal

def Key.value : Key ε σ → Exec ε σ JsValue
  | ident _ value => value
  | other value => value

def compileAccess (m : Member ε σ) : List (Op ε σ) × Access :=
  let name := if m.computed then none else match m.prop with
    | .ident name _ => some name
    | .other _ => none
  match name with
  | some name => ([.expr .obj m.obj], .byId name)
  | none => ([.expr .obj m.obj, .expr .prop m.prop.value, .swap], .byVal)

def accessGet : Access → List (Op ε σ)
  | .byId name => [.getById name]
  | .byVal => [.getByVal false]

def memberCode (m : Member ε σ) : List (Op ε σ) := (compileAccess m).1 ++ accessGet (compileAccess m).2

def calleeCode (m : Member ε σ) : List (Op ε σ) :=
  match m.prop with
  | .ident name _ => [.expr .obj m.obj, .dup, .getById name]
  | .other value => [.expr .prop value, .expr .obj m.obj, .getByVal true]

/-- What the instructions find. -/
structure Lookups (ε σ : Type) where
  getById : String → JsValue → Exec ε σ JsValue
  getByVal : (key obj : JsValue) → Exec ε σ JsValue

/-- The parts that are evaluated, and the operands at the end. -/
abbrev Outcome (ε σ : Type) := Traced Part σ (Result ε σ (List JsValue))

/-- Go on with the value of a piece of code. -/
def onValue (r : Result ε σ JsValue) (next : JsValue → σ → Outcome ε σ) : Outcome ε σ :=
  match r with
  | .ok v s => next v s
  | .error e s => ([], .error e s)
  | .stuck => ([], .stuck)
  | .diverge => ([], .diverge)

variable (L : Lookups ε σ)

def run : List (Op ε σ) → List JsValue → σ → Outcome ε σ
  | [], stack, s => ([], .ok stack s)
  | .expr part x :: code, stack, s => record part s <| onValue (x s) fun v s => run code (v :: stack) s
  | .dup :: code, v :: stack, s => run code (v :: v :: stack) s
  | .swap :: code, v :: w :: stack, s => run code (w :: v :: stack) s
  | .getById name :: code, obj :: stack, s =>
    onValue (L.getById name obj s) fun v s => run code (v :: stack) s
  | .getByVal pushObj :: code, obj :: key :: stack, s =>
    onValue (L.getByVal key obj s) fun v s => run code (v :: if pushObj then obj :: stack else stack) s
  | _ :: _, _, _ => ([], .stuck)

/-- The value of a member: the object is evaluated first, then a key in brackets. `this` says whether the
object is wanted below the value. -/
def memberValue (m : Member ε σ) (this : Bool) (stack : List JsValue) (s : σ) : Outcome ε σ :=
  record .obj s <| onValue (m.obj s) fun obj s =>
    let rest := if this then obj :: stack else stack
    match m.computed, m.prop with
    | false, .ident name _ => onValue (L.getById name obj s) fun v s => ([], .ok (v :: rest) s)
    | _, key => record .prop s <| onValue (key.value s) fun k s =>
      onValue (L.getByVal k obj s) fun v s => ([], .ok (v :: rest) s)

variable {L} {m : Member ε σ} {stack : List JsValue} {s : σ}

theorem run_memberCode : run L (memberCode m) stack s = memberValue L m false stack s := by
  obtain ⟨obj, computed, prop, dotted⟩ := m
  cases computed with
  | true => rfl
  | false =>
    obtain ⟨name, value, rfl⟩ := dotted rfl
    rfl

theorem run_calleeCode_of_dotted (h : m.computed = false) :
    run L (calleeCode m) stack s = memberValue L m true stack s := by
  obtain ⟨obj, computed, prop, dotted⟩ := m
  cases h
  obtain ⟨name, value, rfl⟩ := dotted rfl
  rfl

theorem run_calleeCode_other {value : Exec ε σ JsValue} (h : m.prop = .other value) :
    run L (calleeCode m) stack s = record .prop s (onValue (value s) fun k s =>
      record .obj s (onValue (m.obj s) fun obj s =>
        onValue (L.getByVal k obj s) fun v s => ([], .ok (v :: obj :: stack) s))) := by
  rw [calleeCode, h]
  rfl

theorem result_calleeCode_literal {k : JsValue} (h : m.prop = .other (pure k)) (hc : m.computed = true) :
    (run L (calleeCode m) stack s).2 = (memberValue L m true stack s).2 := by
  rw [run_calleeCode_other h, memberValue, hc, h]
  cases hobj : m.obj s <;> simp [record, onValue, hobj, Key.value]

theorem run_calleeCode_ident {name : String} {value : Exec ε σ JsValue} (h : m.prop = .ident name value) :
    run L (calleeCode m) stack s = record .obj s (onValue (m.obj s) fun obj s =>
      onValue (L.getById name obj s) fun v s => ([], .ok (v :: obj :: stack) s)) := by
  rw [calleeCode, h]
  rfl

/-- **Calls of members.** The member as an expression evaluates the object and then the key. The callee does
the same, with the object below the function, exactly if the key is a name behind a dot, or an identifier in
brackets that is not come to because the object has no value. -/
theorem calleeCode_iff (L : Lookups ε σ) (m : Member ε σ) (stack : List JsValue) (s : σ) :
    run L (memberCode m) stack s = memberValue L m false stack s ∧
      (run L (calleeCode m) stack s = memberValue L m true stack s ↔
        m.computed = false ∨
          (∃ name value, m.prop = .ident name value) ∧ ¬ ∃ obj s', m.obj s = .ok obj s') := by
  refine ⟨run_memberCode, ?_⟩
  cases hc : m.computed with
  | false => exact iff_of_true (run_calleeCode_of_dotted hc) (.inl rfl)
  | true =>
    cases hprop : m.prop with
    | ident name value =>
      rw [run_calleeCode_ident hprop, memberValue, hc, hprop, record_inj, and_iff_right rfl,
        and_iff_right rfl]
      cases hobj : m.obj s with
      | ok obj s' =>
        -- the key is the next part of the member, but no part of the callee
        refine iff_of_false (fun heq => ?_) fun hno => hno.elim (by simp) fun hno => hno.2 ⟨obj, s', rfl⟩
        have hparts := congrArg Prod.fst heq
        cases hget : L.getById name obj s' <;> simp [onValue, record, hget] at hparts
      | error e s' => exact iff_of_true rfl (.inr ⟨⟨name, value, rfl⟩, by rintro ⟨_, _, ⟨⟩⟩⟩)
      | stuck => exact iff_of_true rfl (.inr ⟨⟨name, value, rfl⟩, by rintro ⟨_, _, ⟨⟩⟩⟩)
      | diverge => exact iff_of_true rfl (.inr ⟨⟨name, value, rfl⟩, by rintro ⟨_, _, ⟨⟩⟩⟩)
    | other value =>
      rw [run_calleeCode_other hprop]
      refine iff_of_false (fun heq => ?_) fun hno => hno.elim (by simp) fun hno => ?_
      · cases (record_inj.mp heq).1
      · obtain ⟨⟨name, value', hident⟩, -⟩ := hno
        cases hident

/-- `o[k]`, where the key is the identifier `k`. -/
def bracketed (value : Exec Unit Unit JsValue) : Member Unit Unit :=
  ⟨pure .null, true, .ident "k" value, nofun⟩

/-- An object that has the value `true` under the name `k`, and every other key as its own value. -/
def keysLookups : Lookups Unit Unit := ⟨fun _ _ => pure (.bool true), fun key _ => pure key⟩

/-- `o[k]()` calls the property `k` of the object, whatever the value of `k` is. The key of `o[1]()` is
evaluated before the object. -/
theorem not_calleeCode :
    (run keysLookups (calleeCode (bracketed (pure (.int32 5)))) [] ()).2 ≠
      (memberValue keysLookups (bracketed (pure (.int32 5))) true [] ()).2 ∧
    (run keysLookups (calleeCode ⟨pure .null, true, .other (pure (.int32 1)), nofun⟩) [] ()).1 ≠
      (memberValue keysLookups ⟨pure .null, true, .other (pure (.int32 1)), nofun⟩ true [] ()).1 := by
  constructor
  · intro h
    have hvalue : Result.ok (ε := Unit) [JsValue.bool true, .null] () = .ok [.int32 5, .null] () := h
    cases hvalue
  · intro h
    have hparts : [(Part.prop, ()), (.obj, ())] = [(.obj, ()), (.prop, ())] := h
    cases hparts

end MemberCall

end Starlight
