import Starlight.Lib.Exec
import Starlight.Compiler.Opcode
import Starlight.Compiler.Analysis

/-!
# The state of the compiler

One `ByteCompiler` compiles one function: it holds the code block it fills, the chain of scopes of the
function and of the functions around it, the list of free variable indices, and for each loop or
switch the jumps that wait for their targets. A scope knows how many functions it is inside of, its
`depth`; blocks have scopes of their own at the depth of their function.

Hash maps are association lists. The order in which their keys are visited is not determined by their
contents: `Ctx.order` may pick any order, at every visit anew. Two fields are not in the source and
are never read: `holes` and `filled` log the addresses of the jumps emitted without a target and of the
jumps that were given one, and `bindings` the names that were given an index.
-/

namespace Starlight

inductive VariableKind where
  | let_
  | const
  | var
deriving DecidableEq

/-- A variable at compile time; `dontFree` keeps its index when its scope ends. -/
structure Variable where
  index : ℕ
  kind : VariableKind
  dontFree : Bool
deriving DecidableEq

structure Scope where
  vars : AList fun _ : String => Variable
  depth : ℕ

/-- What a piece of code refers to. -/
inductive Access where
  | variable (index depth : ℕ)
  | global (name : String)
  | byId (name : String)
  | byVal
  | this
deriving DecidableEq

/-- Constants of a code block. A module has the function that loads modules among them. -/
inductive Val where
  | float (value : F64)
  | str (value : String)
  | regex (exp flags : String)
  | loader
deriving DecidableEq

/-- A jump that waits for its target. -/
structure Patch where
  pos : ℕ
  op : JumpOp
deriving DecidableEq

/-- The jumps out of a loop or switch that wait for their targets. -/
structure LoopControlInfo where
  breaks : List Patch
  continues : List Patch

/-- A compiled function. -/
structure CodeBlock where
  name : String
  code : List Instr
  feedback : ℕ
  names : List Symbol
  literals : List Val
  codes : List CodeBlock
  varCount : ℕ
  paramCount : ℕ
  restAt : Option ℕ
  useArguments : Bool
  argsAt : ℕ
  strict : Bool
  isGenerator : Bool

def CodeBlock.new (name : String) : CodeBlock where
  name := name
  code := []
  feedback := 0
  names := []
  literals := []
  codes := []
  varCount := 0
  paramCount := 0
  restAt := none
  useArguments := false
  argsAt := 0
  strict := false
  isGenerator := false

/-- A name that was given an index. -/
structure Binding where
  name : String
  index : ℕ
deriving DecidableEq

structure ByteCompiler extends CodeBlock where
  builtins : Bool
  topLevel : Bool
  scope : Scope
  /-- The scopes around `scope`, the innermost first. -/
  parents : List Scope
  /-- Indices that may be used again, the next one first. -/
  variableFreelist : List ℕ
  fmap : AList fun _ : String => ℕ
  /-- The loops and switches around the current statement, the innermost first. -/
  lci : List LoopControlInfo
  holes : List ℕ
  filled : List ℕ
  bindings : List Binding

/-- What the compiler is given besides the program: whether a regular expression is well formed, and the
order in which hash maps are visited. -/
structure Ctx where
  regexOk : String → String → Bool
  order : ByteCompiler → List String → List String
  order_perm : ∀ s keys, (order s keys).Perm keys

/-- Why a program is not accepted. -/
inductive CompileError where
  | notYetImpl
  | panic
deriving DecidableEq

/-- A piece of the compiler. -/
abbrev Comp (α : Type) := Exec CompileError ByteCompiler α

namespace ByteCompiler

variable {α : Type}

/-- `NotYetImpl`. -/
def nyi : Comp α := Exec.fail .notYetImpl

/-- A failing `unwrap`, `unreachable!` or `todo!`. -/
def panic : Comp α := Exec.fail .panic

/-- How many bytes of code there are. -/
def size (s : ByteCompiler) : ℕ := codeSize s.code

/-! ### Code -/

/-- `emit` without feedback. -/
def emit (i : Instr) : Comp Unit := Exec.modify fun s => { s with code := s.code ++ [i] }

def emitFeedback (i : ℕ → Instr) : Comp Unit := Exec.modify fun s =>
  { s with code := s.code ++ [i s.feedback], feedback := s.feedback + 1 }

/-- `OP_POP` after an expression whose value is not used. -/
def popUnless (used : Bool) : Comp Unit := if used then pure () else emit .pop

/-- A jump without a target: `placeholder` is what is emitted for now, `op` what it becomes. -/
def hole (placeholder op : JumpOp) : Comp Patch := fun s =>
  .ok ⟨s.size, op⟩
    { s with code := s.code ++ [.jump placeholder 0], holes := s.holes ++ [s.size] }

def try_ : Comp Patch := hole .pushCatch .pushCatch

def cjmp (cond : Bool) : Comp Patch := hole .jmp (if cond then .jmpIfTrue else .jmpIfFalse)

def jmp : Comp Patch := hole .jmp .jmp

def jmpCustom (op : JumpOp) : Comp Patch := hole op op

/-- The closures that `try_`, `cjmp`, `jmp` and `jmp_custom` return: the jump goes to the end of the
code. -/
def patch (p : Patch) : Comp Unit := Exec.modify fun s =>
  { s with code := setAt s.code p.pos (.jump p.op (BitVec.ofNat 32 (s.size - (p.pos + 5))))
           filled := s.filled ++ [p.pos] }

/-- `goto`: a jump back. -/
def goto (target : ℕ) : Comp Unit := Exec.modify fun s =>
  { s with code := s.code ++ [.jump .jmp (BitVec.ofInt 32 ((target : ℤ) - (s.size + 5)))] }

/-- Give every jump of a list the end of the code as its target, the last one first. -/
def patchAll : List Patch → Comp Unit
  | [] => pure ()
  | p :: ps => do
    patchAll ps
    patch p

/-! ### Tables -/

/-- `get_sym`. The source keeps a map from names to their indices beside the table. -/
def getSym (name : Symbol) : Comp ℕ := fun s =>
  match s.names.idxOf? name with
  | some ix => .ok ix s
  | none => .ok s.names.length { s with names := s.names ++ [name] }

def getVal (val : Val) : Comp ℕ := fun s =>
  match s.literals.idxOf? val with
  | some ix => .ok ix s
  | none => .ok s.literals.length { s with literals := s.literals ++ [val] }

def getVal2 (val : Val) : Comp ℕ := fun s =>
  .ok s.literals.length { s with literals := s.literals ++ [val] }

/-! ### Scopes -/

def lookupScope (name : String) : List Scope → Option (ℕ × ℕ)
  | [] => none
  | sc :: scs => match sc.vars.lookup name with
    | some v => some (v.index, sc.depth)
    | none => lookupScope name scs

def accessVar (name : String) (s : ByteCompiler) : Access :=
  match lookupScope name (s.scope :: s.parents) with
  | some (ix, depth) => .variable ix (s.scope.depth - depth)
  | none => .global name

def addVar (name : String) (kind : VariableKind) (dontFree : Bool) (ix : ℕ) : Comp ℕ := fun s =>
  let index := ix % 2 ^ 16
  .ok index
    { s with
      scope := { s.scope with vars := s.scope.vars.insert name ⟨index, kind, dontFree⟩ }
      bindings := s.bindings ++ [⟨name, index⟩] }

/-- A variable that takes the next index. -/
def declareNew (name : String) (kind : VariableKind) (dontFree : Bool) : Comp Unit := do
  let c ← Exec.gets fun s => s.varCount
  let _ ← addVar name kind dontFree c
  Exec.modify fun s => { s with varCount := s.varCount + 1 }

/-- A `let` variable that takes a free index if there is one. -/
def allocLet (name : String) : Comp ℕ := do
  let free ← Exec.gets fun s => s.variableFreelist
  match free with
  | ix :: rest =>
    Exec.modify fun s => { s with variableFreelist := rest }
    addVar name .let_ true ix
  | [] =>
    Exec.modify fun s => { s with varCount := s.varCount + 1 }
    let c ← Exec.gets fun s => s.varCount
    addVar name .let_ true (c - 1)

def declLet (name : String) : Comp Unit := do
  let ix ← allocLet name
  emit (.declLet ix)

/-- `decl_const`: the scope in which the variable is found does not matter. -/
def declConst (name : String) : Comp Unit := do
  let found ← Exec.gets fun s => lookupScope name (s.scope :: s.parents)
  match found with
  | some (ix, _) => emit (.declConst ix)
  | none => panic

def pushScope : Comp Unit := Exec.modify fun s =>
  { s with scope := ⟨∅, s.scope.depth⟩, parents := s.scope :: s.parents }

/-- The indices that a scope gives back, in the order of a visit of its names. -/
def freedIndices (sc : Scope) : List String → List ℕ
  | [] => []
  | name :: names => match sc.vars.lookup name with
    | some v => if v.dontFree then freedIndices sc names else v.index :: freedIndices sc names
    | none => freedIndices sc names

def popScope (cx : Ctx) : Comp Unit := fun s =>
  match s.parents with
  | [] => .error .panic s
  | sc :: scs => .ok ()
    { s with
      scope := sc
      parents := scs
      variableFreelist := (freedIndices s.scope (cx.order s s.scope.vars.keys)).reverse ++
        s.variableFreelist }

def pushLci : Comp Unit := Exec.modify fun s => { s with lci := ⟨[], []⟩ :: s.lci }

/-- `pop_lci`: the breaks go to the end of the code. Continues that still wait are forgotten. -/
def popLci : Comp Unit := do
  let lci ← Exec.gets fun s => s.lci
  match lci with
  | [] => panic
  | info :: rest =>
    Exec.modify fun s => { s with lci := rest }
    patchAll info.breaks

/-- The loop that drains the continues of the innermost loop. -/
def patchContinues : Comp Unit := do
  let lci ← Exec.gets fun s => s.lci
  match lci with
  | [] => panic
  | info :: rest =>
    Exec.modify fun s => { s with lci := { info with continues := [] } :: rest }
    patchAll info.continues

/-- Queue a jump as a break of the innermost loop or switch. -/
def pushBreak (p : Patch) : Comp Unit := fun s =>
  match s.lci with
  | [] => .error .panic s
  | info :: rest => .ok () { s with lci := { info with breaks := info.breaks ++ [p] } :: rest }

/-- Queue a jump as a continue of the innermost loop or switch. -/
def pushContinue (p : Patch) : Comp Unit := fun s =>
  match s.lci with
  | [] => .error .panic s
  | info :: rest => .ok () { s with lci := { info with continues := info.continues ++ [p] } :: rest }

/-! ### Accesses -/

def emitGetLocal (depth index : ℕ) : Comp Unit :=
  if depth = 0 then emit (.ge0gl index)
  else do
    emit (.getEnv depth)
    emit (.getLocal index)

def emitSetLocal (depth index : ℕ) : Comp Unit :=
  if depth = 0 then emit (.ge0sl index)
  else do
    emit (.getEnv depth)
    emit (.setLocal index)

def accessGet : Access → Comp Unit
  | .variable index depth => emitGetLocal depth index
  | .global x => do
    let name ← getSym (.key x)
    emit .globalThis
    emitFeedback (.getById true name)
  | .byId x => do
    let name ← getSym (.key x)
    emitFeedback (.getById false name)
  | .byVal => emit (.getByVal false)
  | .this => nyi

def accessSet : Access → Comp Unit
  | .variable index depth => emitSetLocal depth index
  | .global x => do
    let name ← getSym (.key x)
    emit .globalThis
    emitFeedback (.putById name)
  | .byId x => do
    let name ← getSym (.key x)
    emitFeedback (.putById name)
  | .byVal => emit .putByVal
  | .this => nyi

def accessDelete : Access → Comp Unit
  | .global x => do
    let id ← getSym (.key x)
    emit .globalThis
    emit (.deleteById id)
  | .byVal => emit .deleteByVal
  | .byId x => do
    let id ← getSym (.key x)
    emit (.deleteById id)
  | .variable _ _ => emit .pushTrue
  | .this => emit .pushThis

/-- `access_var` followed by `access_get`. -/
def getVariable (name : String) : Comp Unit := do
  let acc ← Exec.gets (accessVar name)
  accessGet acc

/-- `access_var` followed by `access_set`. -/
def setVariable (name : String) : Comp Unit := do
  let acc ← Exec.gets (accessVar name)
  accessSet acc

/-! ### Declarations -/

/-- The part of `analyze` for one name. -/
def declareVar (name : String) : BindingKind → Comp Unit
  | .var => do
    let top ← Exec.gets fun s => s.topLevel
    if top then pure () else declareNew name .var false
  | .function => do
    let top ← Exec.gets fun s => s.topLevel
    if top then pure () else declareNew name .var false
  | .const => declareNew name .const true
  | _ => pure ()

def declareVars (vars : AList fun _ : String => BindingKind) : List String → Comp Unit
  | [] => pure ()
  | name :: names => do
    match vars.lookup name with
    | some kind => declareVar name kind
    | none => pure ()
    declareVars vars names

/-- The first part of `analyze`: the names that the analyzer found. -/
def declareAnalyzed (cx : Ctx) (stmts : List Stmt) : Comp Unit := do
  let names ← Exec.gets fun s => cx.order s (analyzeStmts stmts).keys
  declareVars (analyzeStmts stmts) names

/-- The last part of `analyze`: `arguments`. The variable count stays as it is. -/
def declareArguments (stmts : List Stmt) : Comp Unit :=
  if stmtsContain "arguments" stmts then do
    let c ← Exec.gets fun s => s.varCount
    let ix ← addVar "arguments" .var false c
    Exec.modify fun s => { s with useArguments := true, argsAt := ix }
  else pure ()

end ByteCompiler

end Starlight
