import Starlight.Lib.Transducer
import Starlight.Vm.Value

/-!
# Generators

A generator keeps the frame of its body on the heap while the body does not run. `js_generator_next` puts
the frame back on the stack, runs the body to the next `yield`, to its end or to an exception that it does
not catch, and takes the frame from the stack again. While the body runs it may call the generator itself;
here that is a call between the two halves of `js_generator_next`.

`throw` and `return` leave the state of a suspended generator as it is, so that a later `next` still resumes
the body; a `return` to a generator that stopped at a `yield` is a `next`.
-/

namespace Starlight.Generator

/-! ### Frames -/

/-- An entry of `try_stack`. -/
structure Handler where
  env : Option ℕ
  ip : ℕ
  sp : ℕ

/-- `CallFrame`, the fields of a function that a generator runs. The operands lie between `limit` and
`sp`. -/
structure CallFrame where
  sp : ℕ
  limit : ℕ
  ip : ℕ
  codeBlock : Option ℕ
  this : JsValue
  exitOnReturn : Bool
  env : ℕ
  tryStack : List Handler
  limit_le : limit ≤ sp
  handlers_le : ∀ h ∈ tryStack, limit ≤ h.sp

abbrev Memory := ℕ → JsValue

namespace CallFrame

def new (cursor env : ℕ) : CallFrame where
  sp := cursor
  limit := cursor
  ip := 0
  codeBlock := none
  this := .empty
  exitOnReturn := true
  env := env
  tryStack := []
  limit_le := le_rfl
  handlers_le _ hh := absurd hh List.not_mem_nil

/-- The operands, the lowest first. -/
def operands (cf : CallFrame) (mem : Memory) : List JsValue :=
  (List.range (cf.sp - cf.limit)).map fun i => mem (cf.limit + i)

def grow (cf : CallFrame) : CallFrame :=
  { cf with sp := cf.sp + 1, limit_le := Nat.le_succ_of_le cf.limit_le }

def pushAll : List JsValue → CallFrame → Memory → CallFrame × Memory
  | [], cf, mem => (cf, mem)
  | v :: vs, cf, mem => pushAll vs cf.grow (Function.update mem cf.sp v)

end CallFrame

/-- `HeapCallFrame`. The operands are those of `stack`, and `sp` and the handlers count from the limit. -/
structure HeapCallFrame where
  stack : List JsValue
  env : ℕ
  codeBlock : ℕ
  this : JsValue
  sp : ℕ
  ip : ℕ
  tryStack : List Handler
  sp_eq : sp = stack.length

namespace HeapCallFrame

def save (cf : CallFrame) (mem : Memory) (code : ℕ) : HeapCallFrame where
  stack := cf.operands mem
  env := cf.env
  codeBlock := code
  this := cf.this
  sp := cf.sp - cf.limit
  ip := cf.ip
  tryStack := cf.tryStack.map fun h => { h with sp := h.sp - cf.limit }
  sp_eq := by rw [CallFrame.operands, List.length_map, List.length_range]

def restore (frame : HeapCallFrame) (cf : CallFrame) (mem : Memory) : CallFrame × Memory :=
  let x := CallFrame.pushAll frame.stack cf mem
  ({ x.1 with
    this := frame.this
    ip := frame.ip
    codeBlock := some frame.codeBlock
    env := frame.env
    tryStack := x.1.tryStack ++ frame.tryStack.map fun h => { h with sp := x.1.limit + h.sp }
    handlers_le := fun h hh => by
      rcases List.mem_append.mp hh with hh | hh
      · exact x.1.handlers_le h hh
      · obtain ⟨h', -, rfl⟩ := List.mem_map.mp hh
        exact Nat.le_add_right _ _ }, x.2)

/-- `*stack.last_mut().unwrap() = v`; `none` if there is no operand. -/
def setLast (frame : HeapCallFrame) (v : JsValue) : Option HeapCallFrame :=
  if h : frame.stack = [] then none
  else some { frame with
    stack := frame.stack.dropLast ++ [v]
    sp_eq := by
      have hpos := List.length_pos_iff.mpr h
      rw [frame.sp_eq, List.length_append, List.length_dropLast, List.length_singleton]
      omega }

end HeapCallFrame

/-! ### The generator -/

inductive GeneratorState where
  | suspended | yield | yieldStar | executing | complete
deriving DecidableEq

inductive GeneratorMagic where
  | next | return_ | throw
deriving DecidableEq

inductive FuncRet where
  | await | yieldStar | yield
deriving DecidableEq

/-- What `js_generator_next` fails with: an exception of the program, or an error of the engine. -/
inductive GeneratorError where
  | exception (v : JsValue)
  | typeError (message : String)
  | rangeError (message : String)
deriving DecidableEq

structure AsyncFunctionState where
  throw : Bool
  frame : HeapCallFrame

structure GeneratorData where
  state : GeneratorState
  funcState : AsyncFunctionState

/-- What a call of `next`, `throw` or `return` comes to: the body runs from `k` on, or the call is over.
The values of a `yield*` are passed on as they are. -/
inductive Response (κ : Type) where
  | resumed (k : κ)
  | result (value : JsValue) (done : Bool)
  | raw (value : JsValue)
  | error (e : GeneratorError)

namespace Response

variable {κ κ' : Type}

def map (f : κ → κ') : Response κ → Response κ'
  | resumed k => resumed (f k)
  | result value done => result value done
  | raw value => raw value
  | error e => error e

def isResumed : Response κ → Bool
  | resumed _ => true
  | _ => false

end Response

/-- The stack when a call is made: its memory, where a new frame starts and where the stack ends. -/
structure StackTop where
  mem : Memory
  cursor : ℕ
  stop : ℕ

def asyncFuncResume (state : AsyncFunctionState) (st : StackTop) :
    Except GeneratorError (CallFrame × Memory) :=
  if st.stop ≤ st.cursor then .error (.rangeError "stack overflow")
  else
    let x := state.frame.restore (.new st.cursor state.frame.env) st.mem
    .ok ({ x.1 with exitOnReturn := true }, x.2)

/-- A generator object. A call that has resumed the body is pending until the body stops. -/
structure Gen where
  data : GeneratorData
  pending : Bool

/-- A frame that stops at a `yield`: it has code, and the value as its last operand. -/
structure Yielded where
  frame : CallFrame
  mem : Memory
  code : ℕ
  code_eq : frame.codeBlock = some code
  operand : frame.limit < frame.sp

/-- How a run of the body ends. -/
inductive Outcome where
  | yields (kind : FuncRet) (y : Yielded)
  | returns (v : JsValue)
  | throws (e : JsValue)

namespace Gen

variable (g : Gen)

/-- `JsGeneratorFunction::call`, with the frame at `OP_INITIAL_YIELD`. -/
def create (cf : CallFrame) (mem : Memory) (code : ℕ) : Gen :=
  ⟨⟨.suspended, ⟨false, .save cf mem code⟩⟩, false⟩

def setState (state : GeneratorState) : Gen := { g with data := { g.data with state := state } }

def setFuncState (s : AsyncFunctionState) : Gen := { g with data := { g.data with funcState := s } }

/-- The body is resumed; if there is no room for its frame the generator is complete. -/
def resumeBody (st : StackTop) : Response (CallFrame × Memory) × Gen :=
  match asyncFuncResume g.data.funcState st with
  | .ok x => (.resumed x, { g.setState .executing with pending := true })
  | .error e => (.error e, g.setState .complete)

/-- The end of `js_generator_next`, which runs no body. -/
def answer {κ : Type} (magic : GeneratorMagic) (arg : JsValue) : Response κ :=
  match magic with
  | .next => .result .undefined true
  | .return_ => .result arg true
  | .throw => .error (.exception arg)

/-- `js_generator_next` up to the run of the body; `none` is a failed `unwrap`. -/
def call (magic : GeneratorMagic) (arg : JsValue) (st : StackTop) :
    Option (Response (CallFrame × Memory) × Gen) :=
  match g.data.state with
  | .suspended =>
    if magic = .next then
      some ((g.setFuncState { g.data.funcState with throw := false }).resumeBody st)
    else some (answer magic arg, g)
  | .yield | .yieldStar =>
    if magic = .throw ∧ g.data.state = .yield then
      some (.error (.exception arg), g.setFuncState { g.data.funcState with throw := true })
    else (g.data.funcState.frame.setLast arg).map fun frame =>
      (g.setFuncState { g.data.funcState with frame := frame }).resumeBody st
  | .executing => some (.error (.typeError "cannot invoke a running generator"), g)
  | .complete => some (answer magic arg, g)

/-- `js_generator_next` after the run of the body. -/
def finish : Outcome → Response (CallFrame × Memory) × Gen
  | .yields kind y =>
    let ret := y.mem (y.frame.sp - 1)
    let mem := Function.update y.mem (y.frame.sp - 1) .undefined
    let frame := HeapCallFrame.save y.frame mem y.code
    let g := { g.setFuncState { g.data.funcState with frame := frame } with pending := false }
    if kind = .yieldStar then (.raw ret, g.setState .yieldStar) else (.result ret false, g.setState .yield)
  | .returns v => (.result v true, { g.setState .complete with pending := false })
  | .throws e => (.error (.exception e), { g.setState .complete with pending := false })

end Gen

/-- What happens to a generator: a call, or the end of a run of its body. -/
inductive Event where
  | call (magic : GeneratorMagic) (arg : JsValue) (st : StackTop)
  | finish (o : Outcome)

/-- A generator object as a machine. The body can only end where a call is pending. -/
def machine : Transducer Event (Response (CallFrame × Memory)) Gen where
  step g
    | .call magic arg st => g.call magic arg st
    | .finish o => if g.pending then some (g.finish o) else none

end Starlight.Generator
