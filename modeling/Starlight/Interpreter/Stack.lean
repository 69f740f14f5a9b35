import Mathlib.Data.List.Basic

/-!
# The value stack of the interpreter

All frames keep their operands on one stack. `Stack::cursor` is where the next frame starts; the
interpreter sets it to the operands' end of the current frame at the start of every instruction, and
`pop_frame` sets it to that of the frame it returns to. The fields of a frame that only the
values depend on are left out.

`Move` is what running code does to the stack, one instruction being several moves.
-/

namespace Starlight.Interpreter

variable {V : Type}

/-- `CallFrame`: its operands are those from `limit` up to `sp`. `exitOnReturn` says that it was entered
from native code; `tryStack` has the `sp` that each handler goes back to, the innermost first. -/
structure CallFrame where
  sp : ℕ
  limit : ℕ
  exitOnReturn : Bool := true
  tryStack : List ℕ := []
deriving DecidableEq

/-- `Stack`, with the current frame first. Addresses count from `start`. -/
structure Stack (V : Type) where
  mem : ℕ → V
  cursor : ℕ
  stop : ℕ
  frames : List CallFrame

namespace Stack

def newFrame (ilocCount : ℕ) (s : Stack V) : Option (Stack V) :=
  if s.stop ≤ s.cursor + ilocCount then none
  else some { s with frames := { sp := s.cursor, limit := s.cursor } :: s.frames }

/-- Where the operands of the current frame end. -/
def topSp : List CallFrame → ℕ
  | [] => 0
  | f :: _ => f.sp

def popFrame (s : Stack V) : Option (Stack V) :=
  match s.frames with
  | [] => none
  | _ :: rest => some { s with frames := rest, cursor := topSp rest }

/-- `CallFrame::push` on the current frame. -/
def push (v : V) (s : Stack V) : Option (Stack V) :=
  match s.frames with
  | [] => none
  | f :: rest => some { s with
      mem := Function.update s.mem f.sp v, frames := { f with sp := f.sp + 1 } :: rest }

/-- `CallFrame::pop` on the current frame, which has an operand. -/
def pop (s : Stack V) : Option (Stack V) :=
  match s.frames with
  | [] => none
  | f :: rest =>
    if f.limit < f.sp then some { s with frames := { f with sp := f.sp - 1 } :: rest } else none

/-- `stack.cursor = frame.sp`, at the start of an instruction and before a call. -/
def sync (s : Stack V) : Option (Stack V) :=
  match s.frames with
  | [] => none
  | f :: _ => some { s with cursor := f.sp }

end Stack

/-- What code does to the stack: it starts an activation, ends one, starts an instruction, pushes an
operand or pops one. -/
inductive Move (V : Type) where
  | enter
  | leave
  | sync
  | push (v : V)
  | pop

/-- A move of code that runs above the lowest `depth` frames. -/
def Move.step (depth : ℕ) (m : Move V) (s : Stack V) : Option (Stack V) :=
  match m with
  | enter => s.newFrame 0
  | leave => if depth < s.frames.length then s.popFrame else none
  | sync => if depth < s.frames.length then s.sync else none
  | push v => if depth < s.frames.length then s.push v else none
  | pop => if depth < s.frames.length then s.pop else none

/-- Moves one after the other. -/
def run (depth : ℕ) : List (Move V) → Stack V → Option (Stack V)
  | [], s => some s
  | m :: ms, s => (m.step depth s).bind (run depth ms)

/-- The two instructions that call a function. -/
inductive CallOp where
  | call
  | new

/-- `OP_CALL` and `OP_NEW` up to the call of a native function: the arguments, the function and the
receiver are popped. Only `OP_CALL` moves the cursor down with them. -/
def CallOp.setup (op : CallOp) (argc : ℕ) (s : Stack V) : Option (Stack V) :=
  match s.frames with
  | [] => none
  | f :: rest =>
    let argsStart := f.sp - argc
    let sp := argsStart - 2
    some { s with
      frames := { f with sp := sp } :: rest
      cursor := match op with
        | .call => sp
        | .new => s.cursor }

def argumentsAt (undefined : V) (argsStart argc : ℕ) (s : Stack V) (i : ℕ) : V :=
  if i < argc then s.mem (argsStart + i) else undefined

end Starlight.Interpreter
