import Starlight.Compiler.State

/-!
# The compiler

`ByteCompiler::expr`, `ByteCompiler::stmt` and what they call, for scripts and functions. The loops of
the source over the parts of a construct are functions over lists. Two things are simplified where they
cannot be observed: the compiler stops at the first error where `analyze` keeps the error of a function
declaration until all were tried, and codegen plugins, which are supplied by the embedder, are taken
to be none.
-/

namespace Starlight

namespace ByteCompiler

/-! ### Expressions without recursion -/

/-- An identifier as an expression. -/
def compileIdent (name : String) : Comp Unit :=
  if name = "undefined" then emit .pushUndef else getVariable name

/-- `value as i32`, when the conversion loses nothing. -/
def smallInt : F64 → Option (BitVec 32)
  | .fin q => if q.den = 1 ∧ -2 ^ 31 ≤ q.num ∧ q.num < 2 ^ 31 then some (BitVec.ofInt 32 q.num) else none
  | .negZero => some 0
  | _ => none

def pushNumber (value : F64) : Comp Unit :=
  match smallInt value with
  | some i => emit (.pushInt i)
  | none => do
    let ix ← getVal (.float value)
    emit (.pushLiteral ix)

def compileLit (cx : Ctx) : Lit → Comp Unit
  | .bool value => emit (if value then .pushTrue else .pushFalse)
  | .null => emit .pushNull
  | .num value => pushNumber value
  | .str value _ => do
    let ix ← getVal (.str value)
    emit (.pushLiteral ix)
  | .regex exp flags =>
    if cx.regexOk exp flags then do
      let ix ← getVal2 (.regex exp flags)
      emit (.pushLiteral ix)
    else nyi
  | .other => nyi

def memberName (computed : Bool) (prop : Expr) : Option String :=
  match computed, prop with
  | false, .ident name => some name
  | _, _ => none

/-- The name of a member that is called: an identifier in brackets counts as a name. -/
def calleeName : Expr → Option String
  | .ident name => some name
  | _ => none

/-- `compile_access` of a member, given the code of its parts. -/
def memberAccess (obj prop : Comp Unit) (name : Option String) (dup : Bool) : Comp Access := do
  obj
  if dup then emit .dup
  match name with
  | some x => return .byId x
  | none =>
    prop
    emit .swap
    return .byVal

/-- The callee of a method call, given the code of its parts. -/
def memberCallee (obj prop : Comp Unit) : Option String → Comp Unit
  | some x => do
    let name ← getSym (.key x)
    obj
    emit .dup
    emitFeedback (.getById false name)
  | none => do
    prop
    obj
    emit (.getByVal true)

/-- The arguments of a call and the call itself, given the code of the arguments in either order. -/
def callWith (spread : Bool) (args rev : Comp Unit) (argc effect : ℕ) (op : Instr) : Comp Unit :=
  if spread then do
    rev
    emit (.newArray argc)
    emit (.callBuiltin argc 0 effect)
  else do
    args
    emit op

def putKey : PropName → Comp Unit
  | .ident x => do
    let sym ← getSym (.key x)
    emit .swap
    emitFeedback (.putById sym)
  | .str value => do
    let ix ← getVal (.str value)
    emit .swap
    emit (.pushLiteral ix)
    emit .swap
    emit .putByVal
  | .num value => do
    emit .swap
    pushNumber value
    emit .swap
    emit .putByVal
  | .other => nyi

/-- The instruction of a unary operator. -/
def unaryOp : UnaryOp → Comp Unit
  | .minus => emit (.un .neg)
  | .plus => emit .pos
  | .tilde => emit (.un .not)
  | .bang => emit (.un .logicalNot)
  | .typeOf => emit (.un .typeof)
  | .void => do
    emit .pop
    emit .pushUndef
  | .delete => nyi

/-- The operator of a compound assignment. -/
def assignOp : AssignOp → Option BinOp
  | .addAssign => some .add
  | .subAssign => some .sub
  | .mulAssign => some .mul
  | .divAssign => some .div
  | .bitAndAssign => some .and
  | .bitOrAssign => some .or
  | .bitXorAssign => some .xor
  | .modAssign => some .rem
  | .assign | .other => none

/-- The operator of a binary expression that evaluates both sides. -/
def binaryOp : BinaryOp → Option BinOp
  | .add => some .add
  | .sub => some .sub
  | .mul => some .mul
  | .div => some .div
  | .mod => some .rem
  | .bitAnd => some .and
  | .bitOr => some .or
  | .bitXor => some .xor
  | .lShift => some .shl
  | .rShift => some .shr
  | .zeroFillRShift => some .ushr
  | .eqEq => some .eq
  | .eqEqEq => some .stricteq
  | .notEq => some .neq
  | .notEqEq => some .nstricteq
  | .gt => some .greater
  | .gtEq => some .greatereq
  | .lt => some .less
  | .ltEq => some .lesseq
  | .in_ => some .in_
  | .instanceOf => some .instanceof
  | .logicalOr | .logicalAnd | .other => none

def emitBin : Option BinOp → Comp Unit
  | some op => emit (.bin op)
  | none => nyi

def updateOp : UpdateOp → BinOp
  | .plusPlus => .add
  | .minusMinus => .sub

/-! ### Builtin calls -/

def isBuiltinCallee : Expr → Bool
  | .ident x => x.toList.take 3 = ['_', '_', '_']
  | .member _ _ (.ident x) => x = "___call"
  | _ => false

/-- The name of a builtin, and the identifier that `___call` is a member of, if it is one. -/
def builtinName : Expr → String × Option (Option String)
  | .ident x => (x, none)
  | .member (.ident f) _ (.ident x) => (x, some (some f))
  | .member _ _ (.ident x) => (x, some none)
  | _ => ("", none)

/-- `handle_builtin_call`, given the code of the first two arguments and of all but the first. -/
def builtinCall (name : String) (receiver : Option (Option String)) (argc : ℕ)
    (first second rest : Comp Unit) : Comp Unit :=
  if name = "___toObject" then do
    second
    first
    emit .toObject
  else if name = "___toLength" then do
    first
    emit (.un .toLength)
  else if name = "___toIntegerOrInfinity" then do
    first
    emit (.un .toIntegerOrInfinity)
  else if name = "___isCallable" then do
    first
    emit (.un .isCallable)
  else if name = "___isObject" then do
    first
    emit (.un .isObject)
  else if name = "___isConstructor" then do
    first
    emit (.un .isCtor)
  else if name = "___call" then
    match receiver with
    | some (some f) => do
      first
      compileIdent f
      rest
      emit (.call false (argc - 1))
    | _ => panic
  else panic

/-! ### Functions -/

/-- The parameters of a function: names and indices, and where the rest parameter is. -/
def declareParams : List Param → (p : ℕ) → Comp Unit
  | [], p => Exec.modify fun s => { s with varCount := p }
  | .ident x :: ps, p => do
    let _ ← addVar x .var false p
    Exec.modify fun s => { s with paramCount := s.paramCount + 1 }
    declareParams ps (p + 1)
  | .rest x :: ps, p => do
    let ix ← addVar x .var false p
    Exec.modify fun s => { s with restAt := some ix }
    declareParams ps (p + 1)
  | .other :: _, _ => nyi

/-- The compiler of a function inside the function that `s` compiles. -/
def inner (name : String) (isGenerator : Bool) (s : ByteCompiler) : ByteCompiler :=
  { CodeBlock.new name with
    isGenerator := isGenerator
    builtins := s.builtins
    topLevel := false
    scope := ⟨∅, s.scope.depth + 1⟩
    parents := s.scope :: s.parents
    variableFreelist := []
    fmap := ∅
    lci := []
    holes := []
    filled := []
    bindings := [] }

/-- Compile a function with a compiler of its own. -/
def nested (init : ByteCompiler → ByteCompiler) (x : Comp Unit) : Comp CodeBlock := fun s =>
  match x (init s) with
  | .ok _ n => .ok n.toCodeBlock s
  | .error e _ => .error e s
  | .stuck => .stuck
  | .diverge => .diverge

def pushCode (block : CodeBlock) : Comp ℕ := fun s =>
  .ok s.codes.length { s with codes := s.codes ++ [block] }

def setCode (ix : ℕ) (block : CodeBlock) : Comp Unit := Exec.modify fun s =>
  { s with codes := s.codes.set ix block }

def startsStrict : List Stmt → Bool
  | [] => false
  | s :: _ => s.isUseStrict

/-- The end of every function. -/
def finish : Comp Unit := do
  emit .pushUndef
  emit .ret

/-- The code block that a function is compiled into: a new one for a function expression, otherwise the
one that its declaration has reserved. -/
def reserveCode (name : String) (expr : Bool) : Comp ℕ :=
  if expr then pushCode (.new name)
  else do
    let reserved ← Exec.gets fun s => s.fmap.lookup name
    match reserved with
    | some ix => pure ix
    | none => panic

def functionWith (name : String) (expr : Bool) (head : FnHead) (strict : Bool) (body : Comp Unit) :
    Comp Unit := do
  let ix ← reserveCode name expr
  if head.isAsync then nyi
  else do
    let block ← nested (inner name head.isGenerator) do
      declareParams head.params 0
      if head.isGenerator then emit .initialYield
      Exec.modify fun s => { s with strict := strict }
      body
      finish
    setCode ix block
    emit (.getFunction ix)

/-- An arrow function, given the code of its body with the final return. -/
def arrowWith (params : List Param) (strict : Bool) (body : Comp Unit) : Comp Unit := do
  let block ← nested (inner "<anonymous>" false) do
    Exec.modify fun s => { s with strict := strict }
    declareParams params 0
    body
  let ix ← pushCode block
  let _ ← getSym (.key "<anonymous>")
  emit (.getFunction ix)

/-- What `analyze` does for a function declaration, given its code. -/
def hoistWith (name : String) (function : Comp Unit) : Comp Unit := do
  let ix ← pushCode (.new name)
  Exec.modify fun s => { s with fmap := s.fmap.insert name ix }
  function
  setVariable name

def fnExprWith (cx : Ctx) (ident : Option String) (function : Comp Unit) (used : Bool) :
    Comp Unit := do
  pushScope
  function
  match ident with
  | some name =>
    emit .dup
    setVariable name
  | none => pure ()
  popScope cx
  popUnless used

/-! ### Parts of statements -/

/-- `analyze`, given the code of the function declarations. -/
def analyzeWith (cx : Ctx) (stmts : List Stmt) (hoisted : Comp Unit) : Comp Unit := do
  declareAnalyzed cx stmts
  hoisted
  declareArguments stmts

/-- What a declarator does with its value. -/
def bindDeclarator (kind : VarDeclKind) (name : String) (ix : Option ℕ) : Comp Unit :=
  match kind, ix with
  | .const, _ => declConst name
  | .let_, some i => emit (.declLet i)
  | .let_, none => panic
  | .var, _ => setVariable name

/-- One declarator of `var_decl`, given the code of its initial value. -/
def declarator (kind : VarDeclKind) (name : String) (init : Comp Unit) : Comp Unit := do
  let ix ← (match kind with
    | .let_ => do
      let i ← allocLet name
      return some i
    | _ => pure none : Comp (Option ℕ))
  init
  bindDeclarator kind name ix

def firstName : List VarDeclarator → Option String
  | .mk name _ :: _ => name
  | [] => none

/-- The name that a `for` head binds, given the code of its declaration. -/
def headName (decl : Comp Unit) : ForHead → Comp String
  | .decl _ decls => do
    decl
    match firstName decls with
    | some name => pure name
    | none => panic
  | .ident name => do
    emit .pushUndef
    emit (.getEnv 0)
    declLet name
    return name
  | .other => nyi

/-- The loop of a `for`-`in`, given the code of its parts. -/
def forInWith (cx : Ctx) (head : Comp String) (right body : Comp Unit) : Comp Unit := do
  let name ← head
  right
  let setup ← jmpCustom .forinSetup
  let top ← Exec.gets size
  pushLci
  let enumerate ← jmpCustom .forinEnumerate
  setVariable name
  body
  patchContinues
  goto top
  patch enumerate
  patch setup
  popScope cx
  emit .forinLeave
  popLci

/-- The name under which iterable objects keep their iterator function. -/
def symbolIterator : Symbol := .priv 0

/-- The loop of a `for`-`of`, given the code of its parts. -/
def forOfWith (cx : Ctx) (head : Comp String) (right body : Comp Unit) : Comp Unit := do
  let name ← head
  let iterator ← getSym symbolIterator
  let next ← getSym (.key "next")
  let done ← getSym (.key "done")
  let value ← getSym (.key "value")
  right
  emit .dup
  emitFeedback (.getById false iterator)
  emit (.call false 0)
  let top ← Exec.gets size
  pushLci
  emit .dup
  emit .dup
  emitFeedback (.getById false next)
  emit (.call false 0)
  emit .dup
  emitFeedback (.getById false done)
  let stop ← cjmp true
  emitFeedback (.getById false value)
  setVariable name
  body
  patchContinues
  goto top
  patch stop
  popScope cx
  emit .pop
  popLci

/-- The part of a `try` statement after the protected block, given the code of the handler. -/
def handlerWith (cx : Ctx) (handler : Option CatchParam) (body : Comp Unit) : Comp Unit :=
  match handler with
  | some param => do
    pushScope
    match param with
    | .ident name => setVariable name
    | .absent => emit .pop
    | .pattern => nyi
    body
    popScope cx
  | none => emit .pop

def Handler.param : Option CatchClause → Option CatchParam
  | some (.mk param _) => some param
  | none => none

mutual

def compileAccess (cx : Ctx) (dup : Bool) : Expr → Comp Access
  | .ident name => Exec.gets (accessVar name)
  | .member obj computed prop =>
    memberAccess (compileExpr cx true false obj) (compileExpr cx true false prop)
      (memberName computed prop) dup
  | .this => pure .this
  | _ => nyi

def compileExpr (cx : Ctx) (used tail : Bool) : Expr → Comp Unit
  | .yield_ arg delegate =>
    if delegate then nyi
    else do
      compileOpt cx (emit .pushUndef) arg
      emit .yield_
      popUnless used
  | .ident name => do
    compileIdent name
    popUnless used
  | .lit l => do
    compileLit cx l
    popUnless used
  | .this => if used then emit .pushThis else pure ()
  | .member obj computed prop => do
    let acc ← memberAccess (compileExpr cx true false obj) (compileExpr cx true false prop)
      (memberName computed prop) false
    accessGet acc
    popUnless used
  | .object props => do
    emit .newObject
    compileProps cx props
  | .call callee args => do
    let builtins ← Exec.gets fun s => s.builtins
    if builtins && isBuiltinCallee callee then
      builtinCall (builtinName callee).1 (builtinName callee).2 args.length (compileFirst cx args)
        (compileSecond cx args) (compileRest cx args)
    else
      match callee with
      | .member obj _ prop =>
        memberCallee (compileExpr cx true false obj) (compileExpr cx true false prop)
          (calleeName prop)
      | e => do
        emit .pushUndef
        compileExpr cx true false e
      callWith (args.any Arg.isSpread) (compileArgs cx args) (compileArgsRev cx args) args.length 0
        (.call tail args.length)
      popUnless used
  | .unary op arg =>
    if op = .delete then do
      let acc ← compileAccess cx false arg
      accessDelete acc
      popUnless used
    else do
      compileExpr cx true false arg
      unaryOp op
      popUnless used
  | .update op isPrefix arg =>
    if isPrefix then do
      compileExpr cx true false arg
      emit (.pushInt 1)
      emit (.bin (updateOp op))
      if used then emit .dup
      let acc ← compileAccess cx false arg
      accessSet acc
    else do
      compileExpr cx true false arg
      if used then emit .dup
      emit (.pushInt 1)
      emit (.bin (updateOp op))
      let acc ← compileAccess cx false arg
      accessSet acc
  | .new_ callee args => do
    emit .pushUndef
    compileExpr cx true false callee
    callWith (args.any Arg.isSpread) (compileArgs cx args) (compileArgsRev cx args) args.length 1
      (.new_ tail args.length)
    popUnless used
  | .assign op _ left right =>
    if op = .assign then do
      compileExpr cx true false right
      if used then emit .dup
      let acc ← compileAccess cx false left
      accessSet acc
    else do
      compileExpr cx true false right
      let acc ← compileAccess cx false left
      accessGet acc
      emitBin (assignOp op)
      if used then emit .dup
      let acc ← compileAccess cx false left
      accessSet acc
  | .bin op left right =>
    match op with
    | .logicalOr => do
      compileExpr cx true false left
      emit .dup
      let jtrue ← cjmp true
      emit .pop
      compileExpr cx true false right
      patch jtrue
      popUnless used
    | .logicalAnd => do
      compileExpr cx true false left
      emit .dup
      let jfalse ← cjmp false
      emit .pop
      compileExpr cx true false right
      let stop ← jmp
      patch jfalse
      patch stop
      popUnless used
    | op => do
      compileExpr cx true false right
      compileExpr cx true false left
      emitBin (binaryOp op)
      popUnless used
  | .arrow params body => arrowWith params (startsStrict body) do
    analyzeWith cx body (hoistAll cx body)
    compileStmts cx body
    finish
  | .arrowExpr params body => arrowWith params false do
    compileExpr cx true true body
    emit .ret
  | .seq exprs => compileSeq cx used tail exprs
  | .fn ident head body =>
    fnExprWith cx ident (functionWith (ident.getD "<anonymous>") true head (startsStrict body) do
      analyzeWith cx body (hoistAll cx body)
      compileStmts cx body) used
  | .array elems => do
    compileElemsRev cx elems
    emit (.newArray elems.length)
    popUnless used
  | .cond test cons alt => do
    compileExpr cx true false test
    let jelse ← cjmp false
    compileExpr cx used tail cons
    let jend ← jmp
    patch jelse
    compileExpr cx used tail alt
    patch jend
  | .paren e => compileExpr cx used false e
  | .other => nyi

/-- An optional expression, or `default`. -/
def compileOpt (cx : Ctx) (default : Comp Unit) : Option Expr → Comp Unit
  | none => default
  | some e => compileExpr cx true false e

/-- The expressions of a sequence. The last index of an empty sequence does not exist. -/
def compileSeq (cx : Ctx) (used tail : Bool) : List Expr → Comp Unit
  | [] => panic
  | [e] => compileExpr cx used tail e
  | e :: es => do
    compileExpr cx false tail e
    compileSeq cx used tail es

/-- The expression of an argument. -/
def compileArg (cx : Ctx) : Arg → Comp Unit
  | .expr e => compileExpr cx true false e
  | .spread e => compileExpr cx true false e

/-- The argument, spread if it asks for it. -/
def compileSpread (cx : Ctx) : Arg → Comp Unit
  | .expr e => compileExpr cx true false e
  | .spread e => do
    compileExpr cx true false e
    emit (.un .spread)

def compileArgs (cx : Ctx) : List Arg → Comp Unit
  | [] => pure ()
  | a :: as => do
    compileArg cx a
    compileArgs cx as

def compileArgsRev (cx : Ctx) : List Arg → Comp Unit
  | [] => pure ()
  | a :: as => do
    compileArgsRev cx as
    compileSpread cx a

def compileElemsRev (cx : Ctx) : List (Option Arg) → Comp Unit
  | [] => pure ()
  | none :: as => do
    compileElemsRev cx as
    emit .pushUndef
  | some a :: as => do
    compileElemsRev cx as
    compileSpread cx a

def compileFirst (cx : Ctx) : List Arg → Comp Unit
  | [] => panic
  | a :: _ => compileArg cx a

def compileSecond (cx : Ctx) : List Arg → Comp Unit
  | _ :: a :: _ => compileArg cx a
  | _ => emit .pushUndef

def compileRest (cx : Ctx) : List Arg → Comp Unit
  | [] => pure ()
  | _ :: as => compileArgs cx as

/-- The properties of an object literal. -/
def compileProps (cx : Ctx) : List ObjectProp → Comp Unit
  | [] => pure ()
  | .shorthand name :: ps => do
    emit .dup
    let acc ← Exec.gets (accessVar name)
    let sym ← getSym (.key name)
    accessGet acc
    emit .swap
    emitFeedback (.putById sym)
    compileProps cx ps
  | .keyValue key value :: ps => do
    emit .dup
    compileExpr cx true false value
    putKey key
    compileProps cx ps
  | .other :: _ => nyi

def compileStmts (cx : Ctx) : List Stmt → Comp Unit
  | [] => pure ()
  | s :: ss => do
    compileStmt cx s
    compileStmts cx ss

def compileDecls (cx : Ctx) (kind : VarDeclKind) : List VarDeclarator → Comp Unit
  | [] => pure ()
  | .mk (some name) init :: ds => do
    declarator kind name (compileOpt cx (emit .pushUndef) init)
    compileDecls cx kind ds
  | .mk none _ :: _ => nyi

/-- The clauses of a `switch`; `last` is the jump from the end of the clause before. -/
def compileCases (cx : Ctx) (last : Option Patch) : List SwitchCase → Comp Unit
  | [] => pure ()
  | .mk (some test) cons :: cs => do
    emit .dup
    compileExpr cx true false test
    emit (.bin .eq)
    let fail ← cjmp false
    match last with
    | some j => patch j
    | none => pure ()
    compileStmts cx cons
    let j ← jmp
    patch fail
    compileCases cx (some j) cs
  | .mk none cons :: cs => do
    compileStmts cx cons
    compileCases cx last cs

def compileHead (cx : Ctx) : ForHead → Comp Unit
  | .decl kind decls => compileDecls cx kind decls
  | _ => pure ()

def compileInit (cx : Ctx) : ForInit → Comp Unit
  | .absent => pure ()
  | .expr e => compileExpr cx false false e
  | .decl kind decls => compileDecls cx kind decls

def compileUpdate (cx : Ctx) : Option Expr → Comp Unit
  | none => pure ()
  | some e => compileExpr cx false false e

def compileHandler (cx : Ctx) : Option CatchClause → Comp Unit
  | none => pure ()
  | some (.mk _ body) => compileStmts cx body

def compileFinalizer (cx : Ctx) : Option (List Stmt) → Comp Unit
  | none => pure ()
  | some stmts => do
    pushScope
    compileStmts cx stmts
    popScope cx

def compileStmt (cx : Ctx) : Stmt → Comp Unit
  | .switch disc cases => do
    pushLci
    compileExpr cx true false disc
    compileCases cx none cases
    popLci
    emit .pop
  | .expr e => compileExpr cx false false e
  | .block stmts => do
    pushScope
    analyzeWith cx stmts (hoistAll cx stmts)
    compileStmts cx stmts
    popScope cx
  | .return_ arg => do
    match arg with
    | some e => compileExpr cx true true e
    | none => emit .pushUndef
    emit .ret
  | .break_ => do
    let br ← jmp
    pushBreak br
  | .continue_ => do
    let j ← jmp
    pushContinue j
  | .forIn left right body => do
    pushScope
    analyzeWith cx [.forIn left right body] (hoist cx body)
    forInWith cx (headName (compileHead cx left) left) (compileExpr cx true false right)
      (compileStmt cx body)
  | .forOf left right body => do
    pushScope
    analyzeWith cx [.forOf left right body] (hoist cx body)
    forOfWith cx (headName (compileHead cx left) left) (compileExpr cx true false right)
      (compileStmt cx body)
  | .for_ init test update body => do
    pushScope
    compileInit cx init
    let head ← Exec.gets size
    pushLci
    compileOpt cx (emit .pushTrue) test
    let jend ← cjmp false
    compileStmt cx body
    patchContinues
    compileUpdate cx update
    goto head
    popLci
    popScope cx
    patch jend
  | .while_ test body => do
    let head ← Exec.gets size
    pushLci
    compileExpr cx true false test
    let jend ← cjmp false
    compileStmt cx body
    patchContinues
    goto head
    patch jend
    popLci
  | .if_ test cons alt => do
    compileExpr cx true false test
    let jelse ← cjmp false
    compileStmt cx cons
    match alt with
    | none => patch jelse
    | some alt => do
      let jend ← jmp
      patch jelse
      compileStmt cx alt
      patch jend
  | .varDecl kind decls => compileDecls cx kind decls
  | .fnDecl .. => pure ()
  | .empty => pure ()
  | .throw arg => do
    compileExpr cx true false arg
    emit .throw
  | .try_ block handler finalizer => do
    let tryPush ← try_
    compileStmts cx block
    emit .popCatch
    let jfinally ← jmp
    patch tryPush
    handlerWith cx (Handler.param handler) (compileHandler cx handler)
    let jcatch ← jmp
    patch jfinally
    patch jcatch
    compileFinalizer cx finalizer
  | .other => nyi

/-- The function declarations in a statement, outside of blocks. -/
def hoist (cx : Ctx) : Stmt → Comp Unit
  | .fnDecl name head body => hoistWith name (functionWith name false head (startsStrict body) do
      analyzeWith cx body (hoistAll cx body)
      compileStmts cx body)
  | .if_ _ cons alt => do
    hoist cx cons
    hoistAlt cx alt
  | .for_ _ _ _ body => hoist cx body
  | .forIn _ _ body => hoist cx body
  | .forOf _ _ body => hoist cx body
  | .while_ _ body => hoist cx body
  | .switch _ cases => hoistCases cx cases
  | _ => pure ()

def hoistAlt (cx : Ctx) : Option Stmt → Comp Unit
  | none => pure ()
  | some s => hoist cx s

def hoistAll (cx : Ctx) : List Stmt → Comp Unit
  | [] => pure ()
  | s :: ss => do
    hoist cx s
    hoistAll cx ss

def hoistCases (cx : Ctx) : List SwitchCase → Comp Unit
  | [] => pure ()
  | .mk _ cons :: cs => do
    hoistAll cx cons
    hoistCases cx cs

end

end ByteCompiler

end Starlight
