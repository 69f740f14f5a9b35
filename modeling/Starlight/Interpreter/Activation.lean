import Starlight.Interpreter.NativeCall

/-!
# Activations

`eval_internal` runs the code of a function that native code calls: it pushes a frame, runs `eval`, and
when `eval` ends with an exception it looks for a handler with `Context::unwind` and goes on there. Calls
between functions of the program stay within one `eval`; a native function that calls back starts an
`eval_internal` of its own, or resumes a generator in the same way.
-/

namespace Starlight.Interpreter

variable {V : Type}

namespace Stack

/-! ### Calls and returns within `eval` -/

/-- `OP_CALL` and `OP_NEW` of a function of the program. A tail call drops the frame of the caller first.
The flag says whether there was room for the new frame. -/
def callVm (tail : Bool) (s : Stack V) : Bool × Stack V :=
  match s.frames with
  | [] => (false, s)
  | f :: rest =>
    let s := if !f.exitOnReturn && tail then
        { s with frames := rest, cursor := topSp rest }
      else s
    match s.newFrame 0 with
    | none => (false, s)
    | some s => (true, { s with
        frames := { sp := s.cursor, limit := s.cursor, exitOnReturn := false } :: s.frames.tail })

/-- `OP_RET` with the value `v`. The flag says whether `eval` returns. -/
def ret (v : V) (s : Stack V) : Option (Bool × Stack V) :=
  match s.frames with
  | [] => none
  | f :: rest =>
    s.popFrame.bind fun s =>
      if f.exitOnReturn || rest.isEmpty then some (true, s)
      else (s.push v).map (false, ·)

def pushCatch (s : Stack V) : Option (Stack V) :=
  match s.frames with
  | [] => none
  | f :: rest => some { s with frames := { f with tryStack := f.sp :: f.tryStack } :: rest }

def popCatch (s : Stack V) : Option (Stack V) :=
  match s.frames with
  | [] => none
  | f :: rest =>
    match f.tryStack with
    | [] => none
    | _ :: handlers => some { s with frames := { f with tryStack := handlers } :: rest }

/-! ### Exceptions -/

def unwindFrom : List CallFrame → Stack V → Bool × Stack V
  | [], s => (false, s)
  | f :: rest, s =>
    if f.tryStack ≠ [] then (true, s)
    else
      let s := { s with frames := rest, cursor := topSp rest }
      if f.exitOnReturn then (false, s) else unwindFrom rest s

/-- `Context::unwind`. The flag says whether the current frame has a handler now. -/
def unwind (s : Stack V) : Bool × Stack V :=
  unwindFrom s.frames s

/-- `eval_internal` goes on at the handler, with the exception `e` as its operand. -/
def handle (e : V) (s : Stack V) : Option (Stack V) :=
  match s.frames with
  | [] => none
  | f :: rest =>
    match f.tryStack with
    | [] => none
    | sp :: handlers => { s with frames := { f with sp := sp, tryStack := handlers } :: rest }.push e

/-- `HeapCallFrame::restore` into the frame that was just pushed: the operands and the handlers of a
generator, each handler relative to `limit`. -/
def restore : List V → List ℕ → Stack V → Option (Stack V)
  | [], handlers, s =>
    match s.frames with
    | [] => none
    | f :: rest => some { s with
        frames := { f with tryStack := handlers.map (f.limit + ·) ++ f.tryStack } :: rest }
  | v :: vs, handlers, s => (s.push v).bind (restore vs handlers)

end Stack

/-- What an instruction does to the current frame alone. -/
inductive Instr (V : Type) where
  | sync
  | push (v : V)
  | pop
  | pushCatch
  | popCatch

def Instr.step (i : Instr V) (s : Stack V) : Option (Stack V) :=
  match i with
  | sync => s.sync
  | push v => s.push v
  | pop => s.pop
  | pushCatch => s.pushCatch
  | popCatch => s.popCatch

/-- How `eval_internal` ends: with a value, with an exception, or at a yield of a generator, whose frame is
then left for its caller to save. -/
inductive Outcome where
  | value
  | error
  | suspended
deriving DecidableEq

/-- What the caller of an activation does with the stack. A frame that was left is taken off. -/
def Outcome.resume (r : Outcome) (s : Stack V) : Option (Stack V) :=
  match r with
  | suspended => s.popFrame
  | _ => some s

/-- `Run s r t`: from the stack `s` on, the loop of `eval_internal` ends with `r` and the stack `t`. The
instructions, the values and what native functions do are up to the program. -/
inductive Run : Stack V → Outcome → Stack V → Prop where
  | instr {s s' t : Stack V} {r : Outcome} (i : Instr V) :
      i.step s = some s' → Run s' r t → Run s r t
  | call {s s' t : Stack V} {r : Outcome} (tail : Bool) :
      s.callVm tail = (true, s') → Run s' r t → Run s r t
  | ret {s s' t : Stack V} {r : Outcome} (v : V) :
      s.ret v = some (false, s') → Run s' r t → Run s r t
  | exit {s t : Stack V} (v : V) : s.ret v = some (true, t) → Run s .value t
  -- Only the code of a generator yields, and it is entered from native code.
  | suspend {s : Stack V} {f : CallFrame} {rest : List CallFrame} :
      s.frames = f :: rest → f.exitOnReturn = true → Run s .suspended s
  | caught {s s₁ s₂ t : Stack V} {r : Outcome} (e : V) :
      s.unwind = (true, s₁) → s₁.handle e = some s₂ → Run s₂ r t → Run s r t
  | uncaught {s t : Stack V} : s.unwind = (false, t) → Run s .error t
  | overflowCaught {s s₀ s₁ s₂ t : Stack V} {r : Outcome} (tail : Bool) (e : V) :
      s.callVm tail = (false, s₀) → s₀.unwind = (true, s₁) → s₁.handle e = some s₂ → Run s₂ r t →
      Run s r t
  | overflowUncaught {s s₀ t : Stack V} (tail : Bool) :
      s.callVm tail = (false, s₀) → s₀.unwind = (false, t) → Run s .error t
  -- An activation from native code, of a function or of a generator that was suspended before. One that
  -- overflows leaves the stack as it is.
  | native {s s₁ s₂ s₃ s₄ t : Stack V} {r r' : Outcome} (operands : List V) (handlers : List ℕ) :
      s.newFrame 0 = some s₁ → s₁.restore operands handlers = some s₂ → Run s₂ r' s₃ →
      r'.resume s₃ = some s₄ → Run s₄ r t → Run s r t

def EvalInternal (s : Stack V) (r : Outcome) (t : Stack V) : Prop :=
  match s.newFrame 0 with
  | none => r = .error ∧ t = s
  | some s => Run s r t

end Starlight.Interpreter
