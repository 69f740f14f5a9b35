import Starlight.Vm.ConstructMap
import Starlight.Vm.NewArray

/-!
# Calls with spread arguments

`f(...)` and `new F(...)` push the function, the receiver and the arguments, and `OP_CALL` and `OP_NEW` take
them from the stack. If an argument is spread the arguments are pushed from the last to the first,
`OP_NEWARRAY` collects them in an array, and `OP_CALL_BUILTIN` runs `reflect_apply`, which calls or
constructs with the elements of the array.

What expressions and functions do is up to the program: `Engine` holds what is fixed of it, `Bodies` what
functions do when they are called. A native function is a function of the arguments that it is called with;
what its own calls do to the stack where `OP_CALL` leaves them is another matter.
-/

namespace Starlight

open JsObject Exec

variable {ε ρ α : Type}

structure Argument (ε : Type) where
  expr : ε
  spread : Bool

structure Arguments where
  this : JsValue
  values : List JsValue
  ctorCall : Bool

inductive FuncType where
  | native (f : ℕ)
  | closure (f : ℕ)
  | user (f : ℕ)
  | bound (this : JsValue) (args : List JsValue) (target : FuncType)
  | generator (f : ℕ)

namespace FuncType

def isGenerator : FuncType → Bool
  | generator _ => true
  | _ => false

/-- A bound function has arguments of its own. -/
def isBound : FuncType → Bool
  | bound .. => true
  | _ => false

end FuncType

/-- What the instructions stop with: a value that the program throws, or an error that they create. -/
inductive Thrown where
  | value (v : JsValue)
  | created (e : JsError)
deriving DecidableEq

/-- Code of the program, on the heap and whatever else there is. -/
abbrev Code (ρ α : Type) := Exec JsValue (World × ρ) α

/-- Instructions. -/
abbrev Run (ρ α : Type) := Exec Thrown (World × ρ) α

namespace Run

def ofCode (x : Code ρ α) : Run ρ α := fun s =>
  match x s with
  | .ok a s => .ok a s
  | .error v s => .error (.value v) s
  | .stuck => .stuck
  | .diverge => .diverge

/-- The instruction does something to the heap that calls no code of the program. -/
def onHeap (x : Vm α) : Run ρ α := fun s =>
  match x s.1 with
  | .ok a w => .ok a (w, s.2)
  | .diverge => .diverge
  | _ => .stuck

/-- The same, where what it has allocated is not reachable any more once it is done. -/
def dropping (x : Vm α) : Run ρ α := fun s =>
  match x s.1 with
  | .ok a _ => .ok a s
  | .diverge => .diverge
  | _ => .stuck

def throwTypeError (msg : String) : Run ρ α := Exec.fail (.created (.typeError msg))

theorem ofCode_eq_ok {x : Code ρ α} {s s' : World × ρ} {a : α} :
    ofCode x s = .ok a s' ↔ x s = .ok a s' := by
  unfold ofCode
  cases x s <;> simp

theorem ofCode_bind {β : Type} (x : Code ρ α) (f : α → Code ρ β) :
    ofCode (x >>= f) = ofCode x >>= fun a => ofCode (f a) := by
  funext s
  rw [bind_apply]
  unfold ofCode
  rw [bind_apply]
  cases x s <;> rfl

end Run

/-- What functions do. `bind` is `setup_for_vm_call`, the receiver and the environment of a call; `eval`
runs the code in a frame for the given callee. -/
structure Bodies (ρ : Type) where
  native : ℕ → Arguments → Code ρ JsValue
  closure : ℕ → Arguments → Code ρ JsValue
  generator : ℕ → Arguments → Code ρ JsValue
  bind : ℕ → Arguments → Code ρ (JsValue × ℕ)
  eval : ℕ → (callee this : JsValue) → (ctor : Bool) → (env : ℕ) → Code ρ JsValue

namespace Bodies

variable (B : Bodies ρ)

def performVmCall (f : ℕ) (args : Arguments) (callee : JsValue) : Code ρ JsValue := do
  let (this, env) ← B.bind f args
  B.eval f callee this args.ctorCall env

def call : FuncType → Arguments → (callee : JsValue) → Code ρ JsValue
  | .native f, args, _ => B.native f args
  | .closure f, args, _ => B.closure f args
  | .user f, args, callee => B.performVmCall f args callee
  | .bound this values target, args, callee => call target ⟨this, values, args.ctorCall⟩ callee
  | .generator f, args, _ => B.generator f args

/-- `JsFunction::construct`. Without a structure the new object has no prototype. -/
def construct (ty : FuncType) (args : Arguments) (structure_ : Option ℕ) (callee : JsValue) :
    Run ρ JsValue := do
  if ty.isGenerator then
    Run.throwTypeError "function not a constructor"
  else
    let s ← match structure_ with
      | some s => pure s
      | none => Run.onHeap (Vm.shapes fun σ => σ.newUniqueIndexed none false)
    let obj ← Run.onHeap (JsObject.new s .object)
    Run.ofCode (B.call ty { args with this := .object obj, ctorCall := true } callee)

end Bodies

/-- What is fixed of the program: its expressions, the function objects, `SpreadValue::new`, getters, and
the objects that the engine knows. The empty value is no value of the program. -/
structure Engine (ε ρ : Type) where
  arrayStructure : ℕ
  objectPrototype : ℕ
  funcType : ℕ → FuncType
  expr : ε → Code ρ JsValue
  spread : JsValue → Code ρ (List JsValue)
  getter : (callee this : JsValue) → Code ρ JsValue
  expr_ne_empty : ∀ e s v s', expr e s = .ok v s' → v ≠ .empty
  spread_ne_empty : ∀ v s vs s', spread v s = .ok vs s' → ∀ u ∈ vs, u ≠ .empty

namespace Engine

variable (E : Engine ε ρ) (B : Bodies ρ)

/-! ### Arguments -/

def operand (arg : Argument ε) : Run ρ Operand := do
  let v ← Run.ofCode (E.expr arg.expr)
  if arg.spread then
    let array ← Run.ofCode (E.spread v)
    return .spread array
  else
    return .value v

def pushArgs : List (Argument ε) → List Operand → Run ρ (List Operand)
  | [], stack => return stack
  | arg :: args, stack => do
    let operand ← E.operand arg
    pushArgs args (operand :: stack)

/-- `OP_NEWARRAY`, and what `reflect_apply` reads from the array. No one else sees the array, and nothing
else of the heap changes (`JsArray.ofOperands_eq`). -/
def collect (count : ℕ) (stack : List Operand) : Run ρ (List JsValue × List Operand) :=
  Run.dropping do
    let (arr, stack) ← JsArray.ofOperands E.arrayStructure count stack
    let argsv ← JsArray.elements arr
    return (argsv, stack)

/-! ### The instructions -/

def reflectApply (ctor : Bool) (argsv : List JsValue) : List Operand → Run ρ JsValue
  | .value func :: .value this :: _ => do
    if !(← Run.onHeap (Vm.isCallable func)) then
      Run.throwTypeError "not a callable object"
    else
      match func with
      | .object f =>
        if ctor then B.construct (E.funcType f) ⟨this, argsv, true⟩ none func
        else Run.ofCode (B.call (E.funcType f) ⟨this, argsv, false⟩ func)
      | _ => Exec.stuck
  | _ => Exec.stuck

/-- `OP_CALL`. A function of the program runs in a new frame, any other one is called. -/
def opCall (argc : ℕ) (stack : List JsValue) : Run ρ JsValue :=
  let args := (stack.take argc).reverse
  match stack.drop argc with
  | func :: this :: _ => do
    if !(← Run.onHeap (Vm.isCallable func)) then
      Run.throwTypeError "not a callable object"
    else
      match func with
      | .object f =>
        match E.funcType f with
        | .user code => do
          let (this, env) ← Run.ofCode (B.bind code ⟨this, args, false⟩)
          Run.ofCode (B.eval code func this false env)
        | ty => Run.ofCode (B.call ty ⟨this, args, false⟩ func)
      | _ => Exec.stuck
  | _ => Exec.stuck

/-- `func_construct_map`. A getter of `prototype` is called, and the structure for what it returns is not
kept. -/
def constructMap (f : ℕ) : Run ρ ℕ := fun s =>
  match funcConstructMap E.objectPrototype f s.1 with
  | .ok t w => .ok t (w, s.2)
  | .error (.invoke callee this _) w =>
    (do let res ← Run.ofCode (E.getter callee this)
        Run.onHeap (Vm.shapes fun σ => σ.newIndexed (some (res.objectOr E.objectPrototype)) false) :
      Run ρ ℕ) (w, s.2)
  | .diverge => .diverge
  | _ => .stuck

def opNew (argc : ℕ) (stack : List JsValue) : Run ρ JsValue :=
  let args := (stack.take argc).reverse
  match stack.drop argc with
  | func :: _ :: _ => do
    if !(← Run.onHeap (Vm.isCallable func)) then
      Run.throwTypeError "not a callable constructor object "
    else
      match func with
      | .object f =>
        let map ← E.constructMap f
        let object ← Run.onHeap (JsObject.new map .object)
        match E.funcType f with
        | .user code => do
          let (this, env) ← Run.ofCode (B.bind code ⟨.object object, args, true⟩)
          Run.ofCode (B.eval code func this true env)
        | ty => Run.ofCode (B.call ty ⟨.object object, args, true⟩ func)
      | _ => Exec.stuck
  | _ => Exec.stuck

/-! ### The two ways to call -/

def expand : List (Argument ε) → Run ρ (List JsValue)
  | [] => return []
  | arg :: args => do
    let operand ← E.operand arg
    let vs ← expand args
    return operand.values ++ vs

def spreadCall (ctor : Bool) (args : List (Argument ε)) (func this : JsValue) : Run ρ JsValue := do
  let stack ← E.pushArgs args.reverse [.value func, .value this]
  let (argsv, stack) ← E.collect args.length stack
  E.reflectApply B ctor argsv stack

def plainCall (ctor : Bool) (args : List (Argument ε)) (func this : JsValue) : Run ρ JsValue := do
  let vs ← E.expand args
  let stack := vs.reverse ++ [func, this]
  if ctor then E.opNew B vs.length stack else E.opCall B vs.length stack

/-! ### Arguments from the last to the first -/

/-- The operands that the arguments leave, the first one on top. -/
def operandsReversed : List (Argument ε) → Run ρ (List Operand)
  | [] => return []
  | arg :: args => do
    let operands ← operandsReversed args
    let operand ← E.operand arg
    return operand :: operands

def expandReversed (args : List (Argument ε)) : Run ρ (List JsValue) := do
  let operands ← E.operandsReversed args
  return operands.flatMap Operand.values

variable {E}

theorem pushArgs_append (args args' : List (Argument ε)) (stack : List Operand) :
    E.pushArgs (args ++ args') stack = E.pushArgs args stack >>= E.pushArgs args' := by
  induction args generalizing stack with
  | nil => rfl
  | cons arg args ih =>
    rw [List.cons_append, pushArgs, pushArgs, bind_bind]
    exact congrArg _ (funext fun operand => ih (operand :: stack))

theorem pushArgs_reverse (args : List (Argument ε)) (stack : List Operand) :
    E.pushArgs args.reverse stack =
      E.operandsReversed args >>= fun operands => pure (operands ++ stack) := by
  induction args generalizing stack with
  | nil => rfl
  | cons arg args ih =>
    rw [List.reverse_cons, pushArgs_append, ih, operandsReversed, bind_bind, bind_bind]
    refine congrArg _ (funext fun operands => ?_)
    rw [bind_bind]
    rfl

theorem operand_ne_empty {arg : Argument ε} {s s' : World × ρ} {operand : Operand}
    (h : E.operand arg s = .ok operand s') : ∀ v ∈ operand.values, v ≠ .empty := by
  obtain ⟨v, s₁, hv, h⟩ := bind_eq_ok h
  split at h
  · obtain ⟨array, s₂, harray, h⟩ := bind_eq_ok h
    cases h
    exact E.spread_ne_empty _ _ _ _ (Run.ofCode_eq_ok.mp harray)
  · cases h
    exact List.forall_mem_singleton.mpr (E.expr_ne_empty _ _ _ _ (Run.ofCode_eq_ok.mp hv))

theorem operandsReversed_spec {args : List (Argument ε)} {s s' : World × ρ} {operands : List Operand}
    (h : E.operandsReversed args s = .ok operands s') :
    operands.length = args.length ∧ ∀ v ∈ operands.flatMap Operand.values, v ≠ .empty := by
  induction args generalizing operands s s' with
  | nil =>
    cases h
    exact ⟨rfl, nofun⟩
  | cons arg args ih =>
    obtain ⟨ops, s₁, hops, h⟩ := bind_eq_ok h
    obtain ⟨operand, s₂, hop, h⟩ := bind_eq_ok h
    cases h
    obtain ⟨hlen, hne⟩ := ih hops
    refine ⟨congrArg Nat.succ hlen, ?_⟩
    rw [List.flatMap_cons]
    exact List.forall_mem_append.mpr ⟨operand_ne_empty hop, hne⟩

/-- The elements of the array, with `undefined` up to the number of operands. -/
def padded (count : ℕ) (vs : List JsValue) : List JsValue :=
  vs ++ List.replicate (count - vs.length) .undefined

theorem collect_eq {s : World × ρ} (h : s.1.PlainArrays E.arrayStructure) (operands stack : List Operand)
    (hne : ∀ v ∈ operands.flatMap Operand.values, v ≠ .empty) :
    E.collect operands.length (operands ++ stack) s =
      .ok (padded operands.length (operands.flatMap Operand.values), stack) s := by
  obtain ⟨ix, hix, hrun⟩ := JsArray.ofOperands_eq h operands stack hne
  unfold collect Run.dropping
  rw [bind_of_ok hrun]
  dsimp only
  rw [bind_of_ok (JsArray.elements_eq h hix)]
  rfl

theorem spreadCall_eq (B : Bodies ρ) (ctor : Bool) (args : List (Argument ε)) (func this : JsValue)
    {s : World × ρ} (h : ∀ vs s', E.expandReversed args s = .ok vs s' → s'.1.PlainArrays E.arrayStructure) :
    E.spreadCall B ctor args func this s = (E.expandReversed args >>= fun vs =>
      E.reflectApply B ctor (padded args.length vs) [.value func, .value this]) s := by
  unfold spreadCall
  rw [pushArgs_reverse, bind_bind, expandReversed, bind_bind, bind_apply, bind_apply]
  cases hops : E.operandsReversed args s with
  | ok operands s₁ =>
    obtain ⟨hlen, hne⟩ := operandsReversed_spec hops
    have hplain := h _ _ (bind_of_ok hops _)
    dsimp only
    rw [pure_bind_apply, pure_bind_apply, ← hlen, bind_of_ok (collect_eq hplain _ _ hne)]
  | error e s₁ => rfl
  | stuck => rfl
  | diverge => rfl

theorem take_drop_operands (vs : List JsValue) (func this : JsValue) :
    (vs.reverse ++ [func, this]).take vs.length = vs.reverse ∧
      (vs.reverse ++ [func, this]).drop vs.length = [func, this] :=
  ⟨List.take_left' (List.length_reverse ..), List.drop_left' (List.length_reverse ..)⟩

theorem opCall_eq (B : Bodies ρ) (vs : List JsValue) (func this : JsValue) :
    E.opCall B vs.length (vs.reverse ++ [func, this]) =
      E.reflectApply B false vs [.value func, .value this] := by
  obtain ⟨htake, hdrop⟩ := take_drop_operands vs func this
  unfold opCall reflectApply
  rw [htake, hdrop, List.reverse_reverse]
  dsimp only
  refine congrArg _ (funext fun callable => ?_)
  split
  · rfl
  · cases func with
    | object f =>
      dsimp only
      cases E.funcType f with
      | user code => exact (Run.ofCode_bind ..).symm
      | native | closure | bound | generator => rfl
    | _ => rfl

theorem opNew_eq (B : Bodies ρ) (vs : List JsValue) (func this : JsValue) :
    E.opNew B vs.length (vs.reverse ++ [func, this]) =
      Run.onHeap (Vm.isCallable func) >>= fun callable =>
        if !callable then Run.throwTypeError "not a callable constructor object "
        else match func with
          | .object f => E.constructMap f >>= fun map =>
              Run.onHeap (JsObject.new map .object) >>= fun object =>
                Run.ofCode (B.call (E.funcType f) ⟨.object object, vs, true⟩ func)
          | _ => Exec.stuck := by
  obtain ⟨htake, hdrop⟩ := take_drop_operands vs func this
  unfold opNew
  rw [htake, hdrop, List.reverse_reverse]
  dsimp only
  refine congrArg _ (funext fun callable => ?_)
  split
  · rfl
  · cases func with
    | object f =>
      dsimp only
      refine congrArg _ (funext fun map => congrArg _ (funext fun object => ?_))
      cases E.funcType f with
      | user code => exact (Run.ofCode_bind ..).symm
      | native | closure | bound | generator => rfl
    | _ => rfl

/-! ### When the two agree -/

variable (E)

/-- The call reads its arguments: the value is a function, and not a bound one. -/
def ReadsArguments (func : JsValue) (w : World) : Prop :=
  ∃ f, func = .object f ∧ (w.objects f).callable = true ∧ (E.funcType f).isBound = false

/-- Evaluating the arguments from the last to the first, with `undefined` up to their number, comes to the
same as evaluating them in order. -/
def SameArguments (args : List (Argument ε)) (func : JsValue) (s : World × ρ) : Prop :=
  (∃ vs vs' s', E.expand args s = .ok vs s' ∧ E.expandReversed args s = .ok vs' s' ∧
    (E.ReadsArguments func s'.1 → vs = padded args.length vs')) ∨
  E.expand args s = E.expandReversed args s ∧ ∀ vs s', E.expand args s ≠ .ok vs s'

/-- What a plain construction does before it makes the object. -/
def prepare (args : List (Argument ε)) (func : JsValue) : Run ρ (List JsValue) := do
  let vs ← E.expand args
  if !(← Run.onHeap (Vm.isCallable func)) then
    return vs
  else
    match func with
    | .object f => do
      let _ ← E.constructMap f
      return vs
    | _ => Exec.stuck

/-- Neither way gets as far as the construction, and both end alike. -/
def FailsAlike (args : List (Argument ε)) (func : JsValue) (s : World × ρ) : Prop :=
  E.prepare args func s = E.expandReversed args s ∧ ∀ vs s', E.expandReversed args s ≠ .ok vs s'

/-- The two ways have the same result and the same effects, whatever the functions do that are called. -/
def Agree (ctor : Bool) (args : List (Argument ε)) (func this : JsValue) (s : World × ρ) : Prop :=
  ∀ B, E.spreadCall B ctor args func this s = E.plainCall B ctor args func this s

/-- The structures that functions keep are those that `func_construct_map` makes, with a prototype. -/
def KeepPrototypes (w : World) : Prop :=
  ∀ f t, (w.objects f).constructStruct = some t → (w.shapes.structures t).prototype ≠ none

variable {E} {args : List (Argument ε)} {func this : JsValue} {s s₁ s₂ : World × ρ} {vs vs' : List JsValue}

/-! ### Functions that tell calls apart -/

/-- Functions that return what `q` says of the arguments and the state. -/
def observers (q : Arguments → World × ρ → JsValue) : Bodies ρ where
  native _ args := fun s => .ok (q args s) s
  closure _ args := fun s => .ok (q args s) s
  generator _ args := fun s => .ok (q args s) s
  bind _ args := fun s => .ok (q args s, 0) s
  eval _ _ this _ _ := fun s => .ok this s

theorem call_observers (q : World × ρ → JsValue) (ty : FuncType) (args : Arguments) (callee : JsValue)
    (s : World × ρ) : (observers fun _ => q).call ty args callee s = .ok (q s) s := by
  induction ty generalizing args with
  | bound this values target ih => exact ih _
  | native | closure | user | generator => rfl

theorem call_observers_of_not_bound (q : Arguments → World × ρ → JsValue) {ty : FuncType}
    (h : ty.isBound = false) (args : Arguments) (callee : JsValue) (s : World × ρ) :
    (observers q).call ty args callee s = .ok (q args s) s := by
  cases ty with
  | bound => cases h
  | native | closure | user | generator => rfl

/-! ### Calls -/

theorem reflectApply_cases (func : JsValue) (s : World × ρ) :
    (∃ f, func = .object f ∧ (s.1.objects f).callable = true ∧ ∀ (B : Bodies ρ) vs this,
      E.reflectApply B false vs [.value func, .value this] s =
        Run.ofCode (B.call (E.funcType f) ⟨this, vs, false⟩ func) s) ∨
    (∀ f, func = .object f → (s.1.objects f).callable = false) ∧ ∀ (B : Bodies ρ) ctor vs this,
      E.reflectApply B ctor vs [.value func, .value this] s =
        .error (.created (.typeError "not a callable object")) s := by
  cases func with
  | object f =>
    cases hf : (s.1.objects f).callable with
    | true =>
      refine .inl ⟨f, rfl, hf, fun B vs this => ?_⟩
      have hcallable : Run.onHeap (Vm.isCallable (.object f)) s = .ok true s := congrArg (Result.ok · s) hf
      rw [reflectApply, bind_of_ok hcallable]
      rfl
    | false =>
      refine .inr ⟨fun g hg => ?_, fun B ctor vs this => ?_⟩
      · cases hg
        exact hf
      · have hcallable : Run.onHeap (Vm.isCallable (.object f)) s = .ok false s :=
          congrArg (Result.ok · s) hf
        rw [reflectApply, bind_of_ok hcallable]
        rfl
  | _ => exact .inr ⟨nofun, fun _ _ _ _ => rfl⟩

theorem plainCall_false (B : Bodies ρ) (args : List (Argument ε)) (func this : JsValue) :
    E.plainCall B false args func this = E.expand args >>= fun vs =>
      E.reflectApply B false vs [.value func, .value this] :=
  congrArg _ (funext fun vs => opCall_eq B vs func this)

theorem agree_of_sameArguments
    (hplain : ∀ vs s', E.expandReversed args s = .ok vs s' → s'.1.PlainArrays E.arrayStructure)
    (h : E.SameArguments args func s) : E.Agree false args func this s := by
  intro B
  rw [spreadCall_eq B false args func this hplain, plainCall_false, bind_apply, bind_apply]
  rcases h with ⟨vs, vs', s', hL, hR, hvs⟩ | ⟨heq, hfail⟩
  · -- both ways come to the call in the same state
    rw [hL, hR]
    dsimp only
    rcases reflectApply_cases (E := E) func s' with ⟨f, rfl, hf, hcall⟩ | ⟨-, hrefuse⟩
    · rw [hcall, hcall]
      -- a bound function passes its own arguments on
      cases hb : (E.funcType f).isBound with
      | false => rw [hvs ⟨f, rfl, hf, hb⟩]
      | true =>
        cases hty : E.funcType f with
        | bound => rfl
        | native | closure | user | generator => rw [hty] at hb; cases hb
    · rw [hrefuse, hrefuse]
  · rw [← heq]
    cases hL : E.expand args s with
    | ok vs s' => exact absurd hL (hfail vs s')
    | error | stuck | diverge => rfl

/-! ### Where the arguments fail -/

/-- The code creates no error itself. -/
def NoneCreated (x : Run ρ α) : Prop := ∀ s e s', x s ≠ .error (.created e) s'

theorem noneCreated_ofCode (x : Code ρ α) : NoneCreated (Run.ofCode x) := fun s e s' h => by
  unfold Run.ofCode at h
  cases hx : x s <;> rw [hx] at h <;> cases h

theorem noneCreated_onHeap (x : Vm α) : NoneCreated (Run.onHeap x : Run ρ α) := fun s e s' h => by
  unfold Run.onHeap at h
  cases hx : x s.1 <;> rw [hx] at h <;> cases h

theorem noneCreated_pure (a : α) : NoneCreated (pure a : Run ρ α) := fun _ _ _ h => nomatch h

theorem NoneCreated.bind {β : Type} {x : Run ρ α} {f : α → Run ρ β} (hx : NoneCreated x)
    (hf : ∀ a, NoneCreated (f a)) : NoneCreated (x >>= f) := fun s e s' h => by
  rw [bind_apply] at h
  cases hr : x s with
  | ok a s₁ =>
    rw [hr] at h
    exact hf a s₁ e s' h
  | error e₁ s₁ =>
    rw [hr] at h
    cases h
    exact hx s e s' hr
  | stuck | diverge =>
    rw [hr] at h
    cases h

theorem noneCreated_operand (arg : Argument ε) : NoneCreated (E.operand arg) := by
  refine .bind (noneCreated_ofCode _) fun v => ?_
  split
  · exact .bind (noneCreated_ofCode _) fun array => noneCreated_pure _
  · exact noneCreated_pure _

theorem noneCreated_expand (args : List (Argument ε)) : NoneCreated (E.expand args) := by
  induction args with
  | nil => exact noneCreated_pure _
  | cons arg args ih =>
    exact .bind (noneCreated_operand arg) fun _ => .bind ih fun _ => noneCreated_pure _

theorem noneCreated_expandReversed (args : List (Argument ε)) : NoneCreated (E.expandReversed args) := by
  refine .bind ?_ fun _ => noneCreated_pure _
  induction args with
  | nil => exact noneCreated_pure _
  | cons arg args ih =>
    exact .bind ih fun _ => .bind (noneCreated_operand arg) fun _ => noneCreated_pure _

theorem noneCreated_constructMap (f : ℕ) : NoneCreated (E.constructMap f : Run ρ ℕ) := fun s e s' h => by
  unfold constructMap at h
  split at h
  · cases h
  · exact (NoneCreated.bind (noneCreated_ofCode _) fun _ => noneCreated_onHeap _) _ e s' h
  · cases h
  · cases h

theorem noneCreated_prepare (args : List (Argument ε)) (func : JsValue) :
    NoneCreated (E.prepare args func) := by
  refine .bind (noneCreated_expand args) fun vs => .bind (noneCreated_onHeap _) fun callable => ?_
  split
  · exact noneCreated_pure _
  · cases func with
    | object f => exact .bind (noneCreated_constructMap f) fun _ => noneCreated_pure _
    | _ => exact fun _ _ _ h => nomatch h

/-- The call was reached: it has returned, or was refused. -/
def Arrived {σ : Type} : Result Thrown σ α → Prop
  | .ok _ _ => True
  | .error (.created _) _ => True
  | _ => False

/-- How it goes on after `x`: the call was reached, or `x` has failed. -/
def EndsAfter {β : Type} (x : Run ρ α) (s : World × ρ) (r : Result Thrown (World × ρ) β) : Prop :=
  (∃ a s', x s = .ok a s') ∧ Arrived r ∨ (∀ a s', x s ≠ .ok a s') ∧ ∃ f : α → Run ρ β, r = (x >>= f) s

theorem endsAfter_bind {β : Type} {x : Run ρ α} {f : α → Run ρ β}
    (hf : ∀ a s', x s = .ok a s' → Arrived (f a s')) : EndsAfter x s ((x >>= f) s) := by
  by_cases h : ∃ a s', x s = .ok a s'
  · obtain ⟨a, s', ha⟩ := h
    rw [bind_of_ok ha]
    exact .inl ⟨⟨a, s', ha⟩, hf a s' ha⟩
  · exact .inr ⟨fun a s' ha => h ⟨a, s', ha⟩, f, rfl⟩

theorem NoneCreated.not_arrived {β : Type} {x : Run ρ α} (hx : NoneCreated x)
    (hfail : ∀ a s', x s ≠ .ok a s') (f : α → Run ρ β) : ¬ Arrived ((x >>= f) s) := by
  rw [bind_apply]
  cases hr : x s with
  | ok a s' => exact absurd hr (hfail a s')
  | error e s' =>
    cases e with
    | value v => exact id
    | created e => exact absurd hr (hx s e s')
  | stuck => exact id
  | diverge => exact id

theorem eq_of_bind_eq {β : Type} {x y : Run ρ α} {f g : α → Run ρ β} (hx : ∀ a s', x s ≠ .ok a s')
    (hy : ∀ a s', y s ≠ .ok a s') (h : (x >>= f) s = (y >>= g) s) : x s = y s := by
  rw [bind_apply, bind_apply] at h
  cases hr : x s with
  | ok a s' => exact absurd hr (hx a s')
  | error | stuck | diverge =>
    cases hr' : y s with
    | ok a s' => exact absurd hr' (hy a s')
    | error | stuck | diverge =>
      first
        | rfl
        | (rw [hr, hr'] at h; cases h <;> rfl)

theorem EndsAfter.ok_or_eq {β : Type} {x y : Run ρ α} {r : Result Thrown (World × ρ) β}
    (hx : NoneCreated x) (hy : NoneCreated y) (h : EndsAfter x s r) (h' : EndsAfter y s r) :
    ((∃ a s', x s = .ok a s') ∧ ∃ b s', y s = .ok b s') ∨ x s = y s ∧ ∀ a s', x s ≠ .ok a s' := by
  rcases h with ⟨hok, harrived⟩ | ⟨hfail, f, rfl⟩
  · rcases h' with ⟨hok', -⟩ | ⟨hfail', g, rfl⟩
    · exact .inl ⟨hok, hok'⟩
    · exact absurd harrived (hy.not_arrived hfail' g)
  · rcases h' with ⟨-, harrived⟩ | ⟨hfail', g, hrun⟩
    · exact absurd harrived (hx.not_arrived hfail f)
    · exact .inr ⟨eq_of_bind_eq hfail hfail' hrun, hfail⟩

/-! ### Calls that agree -/

theorem reflectApply_observers (q : World × ρ → JsValue) (vs : List JsValue) (func this : JsValue)
    (s : World × ρ) :
    Arrived (E.reflectApply (observers fun _ => q) false vs [.value func, .value this] s) ∧
      (E.reflectApply (observers fun _ => q) false vs [.value func, .value this] s).state? = some s := by
  rcases reflectApply_cases (E := E) func s with ⟨f, rfl, -, hcall⟩ | ⟨-, hrefuse⟩
  · rw [hcall, Run.ofCode_eq_ok.mpr (call_observers q _ _ _ s)]
    exact ⟨trivial, rfl⟩
  · rw [hrefuse]
    exact ⟨trivial, rfl⟩

theorem sameArguments_of_agree
    (hplain : ∀ vs s', E.expandReversed args s = .ok vs s' → s'.1.PlainArrays E.arrayStructure)
    (h : E.Agree false args func this s) : E.SameArguments args func s := by
  have hrun : ∀ B, (E.expandReversed args >>= fun vs =>
      E.reflectApply B false (padded args.length vs) [.value func, .value this]) s =
        (E.expand args >>= fun vs => E.reflectApply B false vs [.value func, .value this]) s := fun B => by
    rw [← spreadCall_eq B false args func this hplain, ← plainCall_false]
    exact h B
  have hnull := hrun (observers fun _ _ => .null)
  have hplainly := endsAfter_bind (x := E.expand args) (s := s) fun vs s' _ =>
    (reflectApply_observers (E := E) (fun _ => .null) vs func this s').1
  have hspreading := endsAfter_bind (x := E.expandReversed args) (s := s) fun vs s' _ =>
    (reflectApply_observers (E := E) (fun _ => .null) (padded args.length vs) func this s').1
  rw [hnull] at hspreading
  rcases hplainly.ok_or_eq (noneCreated_expand args) (noneCreated_expandReversed args) hspreading with
    ⟨⟨vs, s₁, hL⟩, vs', s₂, hR⟩ | hfail
  · rw [bind_of_ok hL, bind_of_ok hR] at hnull
    -- a call that does nothing leaves the state as the arguments do
    have hstate := congrArg Result.state? hnull
    rw [(reflectApply_observers _ _ _ _ _).2, (reflectApply_observers _ _ _ _ _).2] at hstate
    obtain rfl := Option.some.inj hstate
    refine .inl ⟨vs, vs', s₂, hL, hR, ?_⟩
    rintro ⟨f, rfl, hf, hb⟩
    -- a function that looks whether it gets the plain call's arguments
    let q : Arguments → World × ρ → JsValue := fun args _ => if args.values = vs then .null else .undefined
    have hq := hrun (observers q)
    rw [bind_of_ok hL, bind_of_ok hR] at hq
    rcases reflectApply_cases (E := E) (.object f) s₂ with ⟨g, hg, -, hcall⟩ | ⟨hno, -⟩
    · cases hg
      rw [hcall, hcall, Run.ofCode_eq_ok.mpr (call_observers_of_not_bound q hb _ _ _),
        Run.ofCode_eq_ok.mpr (call_observers_of_not_bound q hb _ _ _)] at hq
      by_contra hne
      have hvalue : (if padded args.length vs' = vs then JsValue.null else .undefined) =
          if vs = vs then .null else .undefined := (Result.ok.inj hq).1
      rw [if_neg (Ne.symm hne), if_pos rfl] at hvalue
      cases hvalue
    · rw [hno f rfl] at hf
      cases hf
  · exact .inr hfail

/-! ### Constructions -/

/-- What a construction does once it has a structure. -/
def make (B : Bodies ρ) (ty : FuncType) (map : ℕ) (args : Arguments) (callee : JsValue) :
    Run ρ JsValue := do
  let object ← Run.onHeap (JsObject.new map .object)
  Run.ofCode (B.call ty { args with this := .object object, ctorCall := true } callee)

theorem plainCall_true (B : Bodies ρ) (args : List (Argument ε)) (func this : JsValue) :
    E.plainCall B true args func this = E.expand args >>= fun vs =>
      Run.onHeap (Vm.isCallable func) >>= fun callable =>
        if !callable then Run.throwTypeError "not a callable constructor object "
        else match func with
          | .object f => E.constructMap f >>= fun map => make B (E.funcType f) map ⟨this, vs, true⟩ func
          | _ => Exec.stuck :=
  congrArg _ (funext fun vs => opNew_eq B vs func this)

theorem onHeap_isCallable (func : JsValue) (s : World × ρ) :
    ∃ callable, Run.onHeap (Vm.isCallable func) s = .ok callable s := by
  cases func <;> exact ⟨_, rfl⟩

theorem plainCall_of_prepare (h : E.prepare args func s = .ok vs s₁) :
    (∀ B this, E.plainCall B true args func this s =
      .error (.created (.typeError "not a callable constructor object ")) s₁) ∨
    ∃ f s₀ map, E.expand args s = .ok vs s₀ ∧ E.constructMap f s₀ = .ok map s₁ ∧
      ∀ B this, E.plainCall B true args func this s =
        make B (E.funcType f) map ⟨this, vs, true⟩ func s₁ := by
  obtain ⟨us, s₀, hL, h⟩ := bind_eq_ok h
  obtain ⟨callable, hc⟩ := onHeap_isCallable func s₀
  rw [bind_of_ok hc] at h
  cases callable with
  | false =>
    cases h
    refine .inl fun B this => ?_
    rw [plainCall_true, bind_of_ok hL, bind_of_ok hc]
    rfl
  | true =>
    cases func with
    | object f =>
      obtain ⟨map, s', hmap, h⟩ := bind_eq_ok h
      cases h
      refine .inr ⟨f, s₀, map, hL, hmap, fun B this => ?_⟩
      rw [plainCall_true, bind_of_ok hL, bind_of_ok hc]
      exact bind_of_ok hmap _
    | _ => cases h

theorem plainCall_of_not_prepare (h : ∀ vs s', E.prepare args func s ≠ .ok vs s') (B : Bodies ρ)
    (this : JsValue) (k : List JsValue → Run ρ JsValue) :
    E.plainCall B true args func this s = (E.prepare args func >>= k) s := by
  rw [plainCall_true, prepare, bind_bind, bind_apply, bind_apply]
  cases hL : E.expand args s with
  | ok vs s₀ =>
    obtain ⟨callable, hc⟩ := onHeap_isCallable func s₀
    have hprepare : E.prepare args func s = _ := bind_of_ok hL _
    rw [bind_of_ok hc] at hprepare
    dsimp only
    rw [bind_of_ok hc, bind_bind, bind_of_ok hc]
    cases callable with
    | false => exact absurd hprepare (h _ _)
    | true =>
      cases func with
      | object f =>
        cases hmap : E.constructMap f s₀ with
        | ok map s' => exact absurd (hprepare.trans (bind_of_ok hmap _)) (h _ _)
        | error e s' | stuck | diverge => simp [bind_apply, hmap]
      | _ => rfl
  | error | stuck | diverge => rfl

theorem prototype_ctor1 (σ : Shapes) (prototype : Option ℕ) (unique indexed : Bool) :
    ((σ.ctor1 prototype unique indexed).2.structures (σ.ctor1 prototype unique indexed).1).prototype =
      prototype := by
  simp [Shapes.ctor1, Shapes.alloc]

theorem reflectApply_true_cases (func : JsValue) (s : World × ρ) :
    (∃ msg, msg ≠ "not a callable constructor object " ∧ ∀ (B : Bodies ρ) vs this,
      E.reflectApply B true vs [.value func, .value this] s = .error (.created (.typeError msg)) s) ∨
    ∃ f map s', (s'.1.shapes.structures map).prototype = none ∧ ∀ (B : Bodies ρ) vs this,
      E.reflectApply B true vs [.value func, .value this] s =
        make B (E.funcType f) map ⟨this, vs, true⟩ func s' := by
  rcases reflectApply_cases (E := E) func s with ⟨f, rfl, hf, -⟩ | ⟨-, hrefuse⟩
  · have hcallable : Run.onHeap (Vm.isCallable (.object f)) s = .ok true s := congrArg (Result.ok · s) hf
    cases hgen : (E.funcType f).isGenerator with
    | true =>
      refine .inl ⟨"function not a constructor", by decide, fun B vs this => ?_⟩
      rw [reflectApply, bind_of_ok hcallable]
      simp [Bodies.construct, hgen, Run.throwTypeError]
    | false =>
      refine .inr ⟨f, (s.1.shapes.newUniqueIndexed none false).1,
        ({ s.1 with shapes := (s.1.shapes.newUniqueIndexed none false).2 }, s.2), ?_, fun B vs this => ?_⟩
      · exact prototype_ctor1 ..
      · rw [reflectApply, bind_of_ok hcallable]
        simp [Bodies.construct, hgen]
        rfl
  · exact .inl ⟨"not a callable object", by decide, fun B vs this => hrefuse B true vs this⟩

/-- Whether the last object that was made has a prototype. -/
def lastPrototype (s : World × ρ) : JsValue :=
  if (s.1.shapes.structures (s.1.objects (s.1.nextObject - 1)).structure_).prototype = none then .null
  else .undefined

theorem make_lastPrototype (ty : FuncType) (map : ℕ) (args : Arguments) (callee : JsValue) (s : World × ρ) :
    ∃ s', make (observers fun _ => lastPrototype) ty map args callee s =
      .ok (if (s.1.shapes.structures map).prototype = none then .null else .undefined) s' := by
  obtain ⟨w', hnew, hlast⟩ : ∃ w', JsObject.new map .object s.1 = .ok s.1.nextObject w' ∧
      lastPrototype (w', s.2) =
        if (s.1.shapes.structures map).prototype = none then .null else .undefined := by
    refine ⟨_, rfl, ?_⟩
    unfold lastPrototype
    simp
  have hheap : Run.onHeap (JsObject.new map .object) s = .ok s.1.nextObject (w', s.2) := by
    unfold Run.onHeap
    rw [hnew]
  refine ⟨(w', s.2), ?_⟩
  unfold make
  rw [bind_of_ok hheap, Run.ofCode_eq_ok.mpr (call_observers lastPrototype _ _ _ _), hlast]

theorem constructMap_prototype {f map : ℕ} (h : E.constructMap f s = .ok map s₁)
    (hkept : ∀ t, (s.1.objects f).constructStruct = some t → (s.1.shapes.structures t).prototype ≠ none) :
    (s₁.1.shapes.structures map).prototype ≠ none := by
  have hnew : ∀ (σ : Shapes) p, ((σ.newIndexed (some p) false).2.structures
      (σ.newIndexed (some p) false).1).prototype ≠ none := fun σ p h => by
    rw [Shapes.newIndexed, prototype_ctor1] at h
    cases h
  unfold constructMap at h
  split at h
  next t w hmap =>
    cases h
    obtain ⟨obj, w₁, hobj, hmap⟩ := bind_eq_ok hmap
    cases hobj
    split at hmap
    · cases hmap
    · cases ht : (s.1.objects f).constructStruct with
      | some t' =>
        rw [ht] at hmap
        cases hmap
        exact hkept _ ht
      | none =>
        rw [ht] at hmap
        obtain ⟨⟨found, slot⟩, w₂, -, hmap⟩ := bind_eq_ok hmap
        obtain ⟨res, w₃, -, hmap⟩ := bind_eq_ok hmap
        obtain ⟨t', w₄, ht, hmap⟩ := bind_eq_ok hmap
        cases ht
        obtain ⟨_, w₅, hkeep, hmap⟩ := bind_eq_ok hmap
        cases hmap
        unfold Vm.onlyIf at hkeep
        split at hkeep
        · cases hkeep
          exact hnew _ _
        · cases hkeep
          exact hnew _ _
  next callee this _ w hmap =>
    obtain ⟨res, s₂, -, h⟩ := bind_eq_ok h
    cases h
    exact hnew _ _
  · cases h
  · cases h

theorem agree_of_failsAlike (h : E.FailsAlike args func s) : E.Agree true args func this s := by
  obtain ⟨heq, hfail⟩ := h
  intro B
  have hplain : ∀ vs s', E.expandReversed args s = .ok vs s' → s'.1.PlainArrays E.arrayStructure :=
    fun vs s' hR => absurd hR (hfail vs s')
  rw [spreadCall_eq B true args func this hplain, plainCall_of_not_prepare (heq ▸ hfail) B this fun vs =>
    E.reflectApply B true (padded args.length vs) [.value func, .value this], bind_apply, bind_apply, heq]

theorem plainCall_lastPrototype (hkept : ∀ vs s', E.expand args s = .ok vs s' → KeepPrototypes s'.1)
    (h : E.prepare args func s = .ok vs s₁) (this : JsValue) :
    (∃ s', E.plainCall (observers fun _ => lastPrototype) true args func this s = .ok .undefined s') ∨
    ∃ s', E.plainCall (observers fun _ => lastPrototype) true args func this s =
      .error (.created (.typeError "not a callable constructor object ")) s' := by
  rcases plainCall_of_prepare h with hrefuse | ⟨f, s₀, map, hexpand, hmap, hplain⟩
  · exact .inr ⟨s₁, hrefuse _ this⟩
  · obtain ⟨s', hmake⟩ := make_lastPrototype (E.funcType f) map ⟨this, vs, true⟩ func s₁
    rw [if_neg (constructMap_prototype hmap (hkept vs s₀ hexpand f))] at hmake
    exact .inl ⟨s', (hplain _ this).trans hmake⟩

theorem reflectApply_lastPrototype (vs : List JsValue) (func this : JsValue) (s : World × ρ) :
    (∃ s', E.reflectApply (observers fun _ => lastPrototype) true vs [.value func, .value this] s =
      .ok .null s') ∨
    ∃ msg s', msg ≠ "not a callable constructor object " ∧
      E.reflectApply (observers fun _ => lastPrototype) true vs [.value func, .value this] s =
        .error (.created (.typeError msg)) s' := by
  rcases reflectApply_true_cases (E := E) func s with ⟨msg, hmsg, hrefuse⟩ | ⟨f, map, s₁, hnone, hmade⟩
  · exact .inr ⟨msg, s, hmsg, hrefuse _ vs this⟩
  · obtain ⟨s', hmake⟩ := make_lastPrototype (E.funcType f) map ⟨this, vs, true⟩ func s₁
    rw [if_pos hnone] at hmake
    exact .inl ⟨s', (hmade _ vs this).trans hmake⟩

theorem arrived_reflectApply (vs : List JsValue) (func this : JsValue) (s : World × ρ) :
    Arrived (E.reflectApply (observers fun _ => lastPrototype) true vs [.value func, .value this] s) := by
  rcases reflectApply_lastPrototype (E := E) vs func this s with ⟨s', hspread⟩ | ⟨msg, s', -, hspread⟩ <;>
    rw [hspread] <;> trivial

theorem endsAfter_prepare (hkept : ∀ vs s', E.expand args s = .ok vs s' → KeepPrototypes s'.1)
    (this : JsValue) : EndsAfter (E.prepare args func) s
      (E.plainCall (observers fun _ => lastPrototype) true args func this s) := by
  by_cases h : ∃ vs s', E.prepare args func s = .ok vs s'
  · refine .inl ⟨h, ?_⟩
    obtain ⟨vs, s₁, h⟩ := h
    rcases plainCall_lastPrototype hkept h this with ⟨s', hnew⟩ | ⟨s', hnew⟩ <;> rw [hnew] <;> trivial
  · have hfail : ∀ vs s', E.prepare args func s ≠ .ok vs s' := fun vs s' hok => h ⟨vs, s', hok⟩
    exact .inr ⟨hfail, fun _ => Exec.stuck, plainCall_of_not_prepare hfail _ this _⟩

theorem failsAlike_of_agree (hkept : ∀ vs s', E.expand args s = .ok vs s' → KeepPrototypes s'.1)
    (hplain : ∀ vs s', E.expandReversed args s = .ok vs s' → s'.1.PlainArrays E.arrayStructure)
    (h : E.Agree true args func this s) : E.FailsAlike args func s := by
  have hrun := h (observers fun _ => lastPrototype)
  rw [spreadCall_eq _ true args func this hplain] at hrun
  have hplainly : EndsAfter (E.prepare args func) s _ := endsAfter_prepare hkept this
  have hspreading := endsAfter_bind (x := E.expandReversed args) (s := s) fun vs s' _ =>
    arrived_reflectApply (E := E) (padded args.length vs) func this s'
  rw [hrun] at hspreading
  rcases hspreading.ok_or_eq (noneCreated_expandReversed args) (noneCreated_prepare args func) hplainly with
    ⟨⟨vs', s₂, hR⟩, vs, s₁, hL⟩ | ⟨heq, hfail⟩
  · -- both are reached, and what they make tells them apart
    rw [bind_of_ok hR] at hrun
    rcases plainCall_lastPrototype hkept hL this with ⟨s₃, hnew⟩ | ⟨s₃, hnew⟩ <;>
    rcases reflectApply_lastPrototype (E := E) (padded args.length vs') func this s₂ with
      ⟨s₄, hspread⟩ | ⟨msg, s₄, hmsg, hspread⟩ <;>
    rw [hnew, hspread] at hrun <;> cases hrun
    exact absurd rfl hmsg
  · exact ⟨heq.symm, hfail⟩

/-! ### Arguments without effects -/

theorem expand_of_pure {op : Argument ε → Operand} (h : ∀ arg ∈ args, E.operand arg s = .ok (op arg) s) :
    E.expand args s = .ok (args.flatMap fun arg => (op arg).values) s := by
  induction args with
  | nil => rfl
  | cons arg args ih =>
    obtain ⟨harg, hargs⟩ := List.forall_mem_cons.mp h
    rw [expand, bind_of_ok harg, bind_of_ok (ih hargs), List.flatMap_cons]
    rfl

theorem operandsReversed_of_pure {op : Argument ε → Operand}
    (h : ∀ arg ∈ args, E.operand arg s = .ok (op arg) s) :
    E.operandsReversed args s = .ok (args.map op) s := by
  induction args with
  | nil => rfl
  | cons arg args ih =>
    obtain ⟨harg, hargs⟩ := List.forall_mem_cons.mp h
    rw [operandsReversed, bind_of_ok (ih hargs), bind_of_ok harg]
    rfl

theorem expandReversed_of_pure {op : Argument ε → Operand}
    (h : ∀ arg ∈ args, E.operand arg s = .ok (op arg) s) :
    E.expandReversed args s = .ok (args.flatMap fun arg => (op arg).values) s := by
  rw [expandReversed, bind_of_ok (operandsReversed_of_pure h)]
  exact congrArg (Result.ok · s) (List.flatMap_map ..)

/-- Arguments without effects are the same as long as there are no fewer values than arguments written: an
empty spread is the only way to fewer. -/
theorem sameArguments_of_pure {op : Argument ε → Operand}
    (h : ∀ arg ∈ args, E.operand arg s = .ok (op arg) s) :
    E.SameArguments args func s ↔
      (E.ReadsArguments func s.1 → args.length ≤ (args.flatMap fun arg => (op arg).values).length) := by
  have hL := expand_of_pure h
  have hR := expandReversed_of_pure h
  have hpadded : ∀ vs : List JsValue, vs = padded args.length vs ↔ args.length ≤ vs.length := fun vs => by
    rw [padded, List.self_eq_append_right, List.replicate_eq_nil_iff, Nat.sub_eq_zero_iff_le]
  constructor
  · rintro (⟨vs, vs', s', hvs, hvs', hsame⟩ | ⟨-, hfail⟩) hreads
    · rw [hL] at hvs
      rw [hR] at hvs'
      cases hvs
      cases hvs'
      exact (hpadded _).mp (hsame hreads)
    · exact absurd hL (hfail _ _)
  · intro hlen
    exact .inl ⟨_, _, s, hL, hR, fun hreads => (hpadded _).mpr (hlen hreads)⟩

/-! ### The two ways compared -/

/-- **When a call with spread arguments agrees with the plain call.** As long as evaluating the arguments
from the last to the first, with `undefined` up to the number of arguments written, comes to the same as
evaluating them in order. A construction never does once it is reached: it makes an object without
prototype. -/
theorem spreadCall_agrees_iff (E : Engine ε ρ) (args : List (Argument ε)) (func this : JsValue)
    (s : World × ρ) (hkept : ∀ vs s', E.expand args s = .ok vs s' → KeepPrototypes s'.1)
    (hplain : ∀ vs s', E.expandReversed args s = .ok vs s' → s'.1.PlainArrays E.arrayStructure) :
    (E.Agree false args func this s ↔ E.SameArguments args func s) ∧
      (E.Agree true args func this s ↔ E.FailsAlike args func s) :=
  ⟨⟨sameArguments_of_agree hplain, agree_of_sameArguments hplain⟩,
    failsAlike_of_agree hkept hplain, agree_of_failsAlike⟩

def functionWorld : World :=
  ((World.init ⟨fun _ => [], fun _ => []⟩).after (.newStructure none true)).after (.newObject 0 .function)

/-- A program whose functions are native and whose arguments all spread an array of `null`s. -/
def nullsEngine (count : ℕ) : Engine Unit Unit where
  arrayStructure := 0
  objectPrototype := 0
  funcType _ := .native 0
  expr _ := pure .null
  spread _ := pure (List.replicate count .null)
  getter _ _ := pure .undefined
  expr_ne_empty _ _ _ _ h := by
    cases h
    exact nofun
  spread_ne_empty _ _ _ _ h _ hu := by
    cases h
    rw [List.eq_of_mem_replicate hu]
    exact nofun

theorem operand_nullsEngine (count : ℕ) : ∀ arg ∈ [(⟨(), true⟩ : Argument Unit)],
    (nullsEngine count).operand arg (functionWorld, ()) =
      .ok (.spread (List.replicate count .null)) (functionWorld, ()) :=
  List.forall_mem_singleton.mpr rfl

theorem keepPrototypes_nullsEngine (count : ℕ) (vs : List JsValue) (s' : World × Unit)
    (h : (nullsEngine count).expand [⟨(), true⟩] (functionWorld, ()) = .ok vs s') :
    KeepPrototypes s'.1 := by
  rw [expand_of_pure (operand_nullsEngine count)] at h
  cases h
  intro f t ht
  cases f <;> cases ht

theorem plainArrays_nullsEngine (count : ℕ) (vs : List JsValue) (s' : World × Unit)
    (h : (nullsEngine count).expandReversed [⟨(), true⟩] (functionWorld, ()) = .ok vs s') :
    s'.1.PlainArrays (nullsEngine count).arrayStructure := by
  rw [expandReversed_of_pure (operand_nullsEngine count)] at h
  cases h
  exact ⟨rfl, nofun⟩

/-- `f(...[null])` is `f(null)`, and `new f(...[null])` is not `new f(null)`. -/
theorem spreadCall_agrees_nullsEngine :
    (nullsEngine 1).Agree false [⟨(), true⟩] (.object 0) .undefined (functionWorld, ()) ∧
      ¬ (nullsEngine 1).Agree true [⟨(), true⟩] (.object 0) .undefined (functionWorld, ()) := by
  have hiff := spreadCall_agrees_iff (nullsEngine 1) [⟨(), true⟩] (.object 0) .undefined
    (functionWorld, ()) (keepPrototypes_nullsEngine 1) (plainArrays_nullsEngine 1)
  refine ⟨hiff.1.mpr ?_, fun h => ?_⟩
  · exact (sameArguments_of_pure (operand_nullsEngine 1)).mpr fun _ => by decide
  · exact (hiff.2.mp h).2 _ _ (expandReversed_of_pure (operand_nullsEngine 1))

/-- Functions that return the number of their arguments. -/
def countArguments : Bodies Unit := observers fun args _ => .int32 (.ofNat 32 args.values.length)

/-- `f(...[])` is not `f()`, and `new f(...[null])` is not `new f(null)`. -/
theorem not_spreadCall_agrees :
    ¬ (nullsEngine 0).Agree false [⟨(), true⟩] (.object 0) .undefined (functionWorld, ()) ∧
      ¬ (nullsEngine 1).Agree true [⟨(), true⟩] (.object 0) .undefined (functionWorld, ()) := by
  constructor <;> intro h
  · have hspread : (nullsEngine 0).spreadCall countArguments false [⟨(), true⟩] (.object 0) .undefined
        (functionWorld, ()) = .ok (.int32 1) (functionWorld, ()) := rfl
    have hplain : (nullsEngine 0).plainCall countArguments false [⟨(), true⟩] (.object 0) .undefined
        (functionWorld, ()) = .ok (.int32 0) (functionWorld, ()) := rfl
    have hrun := h countArguments
    rw [hspread, hplain] at hrun
    exact absurd (Result.ok.inj hrun).1 (by decide)
  · obtain ⟨s₁, hspread⟩ : ∃ s₁, (nullsEngine 1).spreadCall (observers fun _ => lastPrototype) true
        [⟨(), true⟩] (.object 0) .undefined (functionWorld, ()) = .ok .null s₁ := ⟨_, rfl⟩
    obtain ⟨s₂, hplain⟩ : ∃ s₂, (nullsEngine 1).plainCall (observers fun _ => lastPrototype) true
        [⟨(), true⟩] (.object 0) .undefined (functionWorld, ()) = .ok .undefined s₂ := ⟨_, rfl⟩
    have hrun := h (observers fun _ => lastPrototype)
    rw [hspread, hplain] at hrun
    cases hrun

end Engine

end Starlight
