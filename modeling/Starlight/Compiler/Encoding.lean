import Starlight.Compiler.Opcode

/-!
# The bytes of the code

An instruction is a byte for its opcode, followed by its operands of four bytes each, least significant
byte first. How many operands follow an opcode is written down three times: by the calls of `emit` in
the compiler, in the arms of `eval`, and in those of `display_to`. `evalOperands` and `displayOperands`
are the last two; `decode_encode` says that a reader who agrees with the compiler on every opcode it
emits reads the instructions that were emitted.
-/

namespace Starlight

/-- The opcodes, in the order of their numbers. -/
inductive Opcode where
  | nop | swap | pushLiteral | pushInt | pushTrue | pushFalse | pushUndef | pushNull | pushNan
  | getFunction | loophint | call | tailcall | tailnew | new_ | callBuiltin | newarray | newobject
  | ret | jmp | jmpIfTrue | jmpIfFalse | add | sub | div | mul | rem | shr | shl | ushr | or | and
  | xor | in_ | eq | stricteq | neq | nstricteq | greater | greatereq | less | lesseq | instanceof
  | typeof | not | logicalNot | pos | neg | throw | pushCatch | popCatch | getById | tryGetById
  | getByVal | getByValPushObj | putById | putByVal | pushEnv | popEnv | getEnv | setEnv | getLocal
  | setLocal | setGlobal | getGlobal | declLet | declConst | pushThis | dup | pop | spread | deleteVar
  | deleteById | deleteByVal | globalthis | forinSetup | forinEnumerate | forinLeave | forofSetup
  | forofEnumerate | forofLeave | ge0gl | ge0sl | ge0dl | ge0dc | toObject | toLength
  | toIntegerOrInfinity | isCallable | isCtor | initialYield | yield_ | yieldStar | await
  | newgenerator | isObject
deriving DecidableEq

namespace Opcode

def all : List Opcode :=
  [nop, swap, pushLiteral, pushInt, pushTrue, pushFalse, pushUndef, pushNull, pushNan,
    getFunction, loophint, call, tailcall, tailnew, new_, callBuiltin, newarray, newobject,
    ret, jmp, jmpIfTrue, jmpIfFalse, add, sub, div, mul, rem, shr, shl, ushr, or, and,
    xor, in_, eq, stricteq, neq, nstricteq, greater, greatereq, less, lesseq, instanceof,
    typeof, not, logicalNot, pos, neg, throw, pushCatch, popCatch, getById, tryGetById,
    getByVal, getByValPushObj, putById, putByVal, pushEnv, popEnv, getEnv, setEnv, getLocal,
    setLocal, setGlobal, getGlobal, declLet, declConst, pushThis, dup, pop, spread, deleteVar,
    deleteById, deleteByVal, globalthis, forinSetup, forinEnumerate, forinLeave, forofSetup,
    forofEnumerate, forofLeave, ge0gl, ge0sl, ge0dl, ge0dc, toObject, toLength,
    toIntegerOrInfinity, isCallable, isCtor, initialYield, yield_, yieldStar, await,
    newgenerator, isObject]

def toByte (op : Opcode) : BitVec 8 := BitVec.ofNat 8 (all.idxOf op)

def ofByte (b : BitVec 8) : Option Opcode := all[b.toNat]?

theorem mem_all (op : Opcode) : op ∈ all := by cases op <;> decide

@[simp] theorem ofByte_toByte (op : Opcode) : ofByte op.toByte = some op := by
  have hlt : all.idxOf op < all.length := List.idxOf_lt_length_of_mem (mem_all op)
  have hlen : all.length ≤ 2 ^ 8 := by decide
  rw [ofByte, toByte, BitVec.toNat_ofNat, Nat.mod_eq_of_lt (lt_of_lt_of_le hlt hlen)]
  rw [List.getElem?_eq_getElem hlt, List.getElem_idxOf]

/-- How many operands `eval` reads after an opcode; `none` for an arm that is not written yet. -/
def evalOperands : Opcode → Option ℕ
  | nop | loophint | pushEnv | popEnv | setEnv | setGlobal | getGlobal | deleteVar | forofSetup
  | forofEnumerate | forofLeave | ge0dl | ge0dc | newgenerator => none
  | callBuiltin => some 3
  | getById | tryGetById | putById => some 2
  | ge0gl | ge0sl | getLocal | setLocal | getEnv | jmp | jmpIfFalse | jmpIfTrue | pushLiteral
  | pushInt | add | sub | div | mul | rem | call | tailcall | new_ | tailnew | putByVal | getByVal
  | getByValPushObj | forinSetup | forinEnumerate | pushCatch | declConst | declLet | deleteById
  | getFunction | newarray => some 1
  | _ => some 0

def displayOperands : Opcode → Option ℕ
  | setGlobal | getGlobal | deleteVar | forofSetup | forofEnumerate | forofLeave | ge0dl | ge0dc
  | newgenerator => none
  | callBuiltin => some 3
  | getById | tryGetById | putById => some 2
  | getByVal | getByValPushObj | putByVal | getEnv | setEnv | pushLiteral | pushInt | getFunction
  | ge0gl | ge0sl | getLocal | setLocal | newarray | call | tailcall | tailnew | new_ | add | sub
  | div | mul | rem | jmp | forinEnumerate | forinSetup | jmpIfFalse | jmpIfTrue | pushEnv
  | pushCatch | declLet | declConst | deleteById => some 1
  | _ => some 0

end Opcode

def JumpOp.opcode : JumpOp → Opcode
  | .jmp => .jmp
  | .jmpIfTrue => .jmpIfTrue
  | .jmpIfFalse => .jmpIfFalse
  | .pushCatch => .pushCatch
  | .forinSetup => .forinSetup
  | .forinEnumerate => .forinEnumerate

def BinOp.opcode : BinOp → Opcode
  | .add => .add
  | .sub => .sub
  | .mul => .mul
  | .div => .div
  | .rem => .rem
  | .and => .and
  | .or => .or
  | .xor => .xor
  | .shl => .shl
  | .shr => .shr
  | .ushr => .ushr
  | .eq => .eq
  | .stricteq => .stricteq
  | .neq => .neq
  | .nstricteq => .nstricteq
  | .greater => .greater
  | .greatereq => .greatereq
  | .less => .less
  | .lesseq => .lesseq
  | .in_ => .in_
  | .instanceof => .instanceof

def UnOp.opcode : UnOp → Opcode
  | .neg => .neg
  | .not => .not
  | .logicalNot => .logicalNot
  | .typeof => .typeof
  | .spread => .spread
  | .toLength => .toLength
  | .toIntegerOrInfinity => .toIntegerOrInfinity
  | .isCallable => .isCallable
  | .isCtor => .isCtor
  | .isObject => .isObject

namespace Instr

def opcode : Instr → Opcode
  | .jump op _ => op.opcode
  | .bin op => op.opcode
  | .un op => op.opcode
  | .pos => .pos
  | .swap => .swap
  | .dup => .dup
  | .pop => .pop
  | .pushLiteral _ => .pushLiteral
  | .pushInt _ => .pushInt
  | .pushTrue => .pushTrue
  | .pushFalse => .pushFalse
  | .pushUndef => .pushUndef
  | .pushNull => .pushNull
  | .pushThis => .pushThis
  | .globalThis => .globalthis
  | .newObject => .newobject
  | .getFunction _ => .getFunction
  | .call tail _ => if tail then .tailcall else .call
  | .new_ tail _ => if tail then .tailnew else .new_
  | .callBuiltin .. => .callBuiltin
  | .newArray _ => .newarray
  | .ret => .ret
  | .throw => .throw
  | .popCatch => .popCatch
  | .forinLeave => .forinLeave
  | .initialYield => .initialYield
  | .yield_ => .yield_
  | .getById try_ _ _ => if try_ then .tryGetById else .getById
  | .putById .. => .putById
  | .getByVal pushObj => if pushObj then .getByValPushObj else .getByVal
  | .putByVal => .putByVal
  | .deleteById _ => .deleteById
  | .deleteByVal => .deleteByVal
  | .getEnv _ => .getEnv
  | .getLocal _ => .getLocal
  | .setLocal _ => .setLocal
  | .ge0gl _ => .ge0gl
  | .ge0sl _ => .ge0sl
  | .declLet _ => .declLet
  | .declConst _ => .declConst
  | .toObject => .toObject

/-- The operands that are emitted with an instruction. -/
def words : Instr → List (BitVec 32)
  | .jump _ offset => [offset]
  | .bin op => if op.profiled then [0] else []
  | .pushInt i => [i]
  | .pushLiteral ix | .getFunction ix | .call _ ix | .new_ _ ix | .newArray ix | .deleteById ix
  | .getEnv ix | .getLocal ix | .setLocal ix | .ge0gl ix | .ge0sl ix | .declLet ix
  | .declConst ix => [BitVec.ofNat 32 ix]
  | .callBuiltin argc id effect => [BitVec.ofNat 32 argc, BitVec.ofNat 32 id, BitVec.ofNat 32 effect]
  | .getById _ name fdbk | .putById name fdbk => [BitVec.ofNat 32 name, BitVec.ofNat 32 fdbk]
  | .getByVal _ | .putByVal => [0]
  | _ => []

theorem evalOperands_opcode (i : Instr) : i.opcode.evalOperands = some i.words.length := by
  cases i with
  | jump op | bin op | un op => cases op <;> rfl
  | call tail | new_ tail => cases tail <;> rfl
  | getById try_ => cases try_ <;> rfl
  | getByVal pushObj => cases pushObj <;> rfl
  | _ => rfl

theorem displayOperands_opcode (i : Instr) : i.opcode.displayOperands = some i.words.length := by
  cases i with
  | jump op | bin op | un op => cases op <;> rfl
  | call tail | new_ tail => cases tail <;> rfl
  | getById try_ => cases try_ <;> rfl
  | getByVal pushObj => cases pushObj <;> rfl
  | _ => rfl

/-- A word, least significant byte first. -/
def leBytes (w : BitVec 32) : List (BitVec 8) :=
  [w.extractLsb' 0 8, w.extractLsb' 8 8, w.extractLsb' 16 8, w.extractLsb' 24 8]

/-- The bytes that `emit` appends. -/
def bytes (i : Instr) : List (BitVec 8) := i.opcode.toByte :: i.words.flatMap leBytes

theorem length_flatMap_leBytes (ws : List (BitVec 32)) :
    (ws.flatMap leBytes).length = 4 * ws.length := by
  induction ws with
  | nil => rfl
  | cons w ws ih =>
    rw [List.flatMap_cons, List.length_append, ih, List.length_cons, leBytes]
    simp only [List.length_cons, List.length_nil]
    omega

end Instr

/-- The bytes of a piece of code. -/
def encode (code : List Instr) : List (BitVec 8) := code.flatMap Instr.bytes

/-- The instructions of a byte stream, each an opcode with its operand bytes, read by someone who skips
`operands op` operands after the opcode `op`. -/
def decode (operands : Opcode → Option ℕ) :
    List (BitVec 8) → Option (List (Opcode × List (BitVec 8)))
  | [] => some []
  | b :: bs => do
    let op ← Opcode.ofByte b
    let n ← operands op
    if bs.length < 4 * n then none
    else do
      let rest ← decode operands (bs.drop (4 * n))
      return (op, bs.take (4 * n)) :: rest
termination_by bs => bs.length
decreasing_by
  rw [List.length_drop, List.length_cons]
  omega

theorem decode_encode {operands : Opcode → Option ℕ}
    (h : ∀ i : Instr, operands i.opcode = some i.words.length) (code : List Instr) :
    decode operands (encode code) =
      some (code.map fun i => (i.opcode, i.words.flatMap Instr.leBytes)) := by
  induction code with
  | nil => rw [encode, List.flatMap_nil, decode, List.map_nil]
  | cons i code ih =>
    have hlen : (i.words.flatMap Instr.leBytes).length = 4 * i.words.length :=
      Instr.length_flatMap_leBytes i.words
    have hcons : encode (i :: code) =
        i.opcode.toByte :: (i.words.flatMap Instr.leBytes ++ encode code) := rfl
    rw [hcons, decode, Opcode.ofByte_toByte, Option.bind_eq_bind, Option.bind_some, h i,
      Option.bind_eq_bind, Option.bind_some, if_neg (by rw [List.length_append]; omega), ← hlen,
      List.drop_left, ih, List.take_left]
    rfl

end Starlight
