import Starlight.Lib.CodeBuffer
import Starlight.Vm.Value

/-!
# Instructions

The opcodes that the compiler emits, with their operands. An operand is four bytes, an opcode one.
Opcodes that differ only in the operation they perform on the same operands share a constructor. The
offset of a jump counts from the end of its instruction.
-/

namespace Starlight

/-- The opcodes with a jump offset. -/
inductive JumpOp where
  | jmp
  | jmpIfTrue
  | jmpIfFalse
  | pushCatch
  | forinSetup
  | forinEnumerate
deriving DecidableEq

/-- The operators on two operands. -/
inductive BinOp where
  | add
  | sub
  | mul
  | div
  | rem
  | and
  | or
  | xor
  | shl
  | shr
  | ushr
  | eq
  | stricteq
  | neq
  | nstricteq
  | greater
  | greatereq
  | less
  | lesseq
  | in_
  | instanceof
deriving DecidableEq

/-- The opcode has an operand that profiles its arguments. -/
def BinOp.profiled : BinOp → Bool
  | .add | .sub | .mul | .div | .rem => true
  | _ => false

/-- The operators that replace one value by another. -/
inductive UnOp where
  | neg
  | not
  | logicalNot
  | typeof
  | spread
  | toLength
  | toIntegerOrInfinity
  | isCallable
  | isCtor
  | isObject
deriving DecidableEq

/-- An instruction. `fdbk` is the index of a feedback cell. -/
inductive Instr where
  | jump (op : JumpOp) (offset : BitVec 32)
  | bin (op : BinOp)
  | un (op : UnOp)
  | pos
  | swap
  | dup
  | pop
  | pushLiteral (ix : ℕ)
  | pushInt (i : BitVec 32)
  | pushTrue
  | pushFalse
  | pushUndef
  | pushNull
  | pushThis
  | globalThis
  | newObject
  | getFunction (ix : ℕ)
  | call (tail : Bool) (argc : ℕ)
  | new_ (tail : Bool) (argc : ℕ)
  | callBuiltin (argc id effect : ℕ)
  | newArray (count : ℕ)
  | ret
  | throw
  | popCatch
  | forinLeave
  | initialYield
  | yield_
  | getById (try_ : Bool) (name fdbk : ℕ)
  | putById (name fdbk : ℕ)
  | getByVal (pushObj : Bool)
  | putByVal
  | deleteById (name : ℕ)
  | deleteByVal
  | getEnv (depth : ℕ)
  | getLocal (index : ℕ)
  | setLocal (index : ℕ)
  | ge0gl (index : ℕ)
  | ge0sl (index : ℕ)
  | declLet (index : ℕ)
  | declConst (index : ℕ)
  | toObject
deriving DecidableEq

/-- How many operands follow the opcode. -/
def Instr.operands : Instr → ℕ
  | .bin op => if op.profiled then 1 else 0
  | .callBuiltin .. => 3
  | .getById .. | .putById .. => 2
  | .jump .. | .pushLiteral _ | .pushInt _ | .getFunction _ | .call .. | .new_ .. | .newArray _
  | .getByVal _ | .putByVal | .deleteById _ | .getEnv _ | .getLocal _ | .setLocal _ | .ge0gl _
  | .ge0sl _ | .declLet _ | .declConst _ => 1
  | _ => 0

instance : Sized Instr where
  size i := 1 + 4 * i.operands
  size_pos _ := Nat.lt_of_lt_of_le Nat.zero_lt_one (Nat.le_add_right _ _)

def jumpSize : ℕ := 5

end Starlight
