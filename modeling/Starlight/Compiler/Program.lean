import Starlight.Compiler.Compile

/-!
# Programs

What the compiler is called with: a script, the source of an `eval`, a module, or the body of a function
that is made from strings. A module's imports run its loader and bind what they name; its exports are
stored in the module object, which is the first variable.
-/

namespace Starlight

inductive ImportSpecifier where
  | default_ (name : String)
  | namespace_ (name : String)
  | named (imported : Option String) (name : String)
deriving DecidableEq

/-- What an export list names. -/
inductive ExportSpecifier where
  | named (orig : String) (exported : Option String)
  | other
deriving DecidableEq

inductive ModuleItem where
  | stmt (s : Stmt)
  | import_ (src : String) (specifiers : List ImportSpecifier)
  | exportVar (kind : VarDeclKind) (decls : List VarDeclarator)
  | exportFn (name : String) (head : FnHead) (body : List Stmt)
  | exportDefaultFn (ident : Option String) (head : FnHead) (body : List Stmt)
  | exportDefaultExpr (e : Expr)
  | exportNamed (hasSrc : Bool) (specifiers : List ExportSpecifier)
  | other

/-- The declarations met in an item of a module. The names that imports bind are met too, but as a kind
that the compiler passes over. -/
def ModuleItem.declares : ModuleItem → List (String × BindingKind)
  | .stmt s => s.declares
  | .exportVar kind decls => declsDeclare kind decls
  | .exportFn name _ _ => [(name, .function)]
  | .exportDefaultFn ident _ _ => (ident.map fun name => (name, BindingKind.function)).toList
  | .exportDefaultExpr e => e.declares
  | .import_ .. | .exportNamed .. | .other => []

def analyzeModuleItems (items : List ModuleItem) : AList fun _ : String => BindingKind :=
  (items.flatMap ModuleItem.declares).foldl (fun vars d => vars.insert d.1 d.2) ∅

/-- A program, with whether it is compiled as one of the builtins. -/
inductive Program where
  | script (builtins : Bool) (body : List Stmt)
  | eval (builtins : Bool) (body : List Stmt)
  | module_ (items : List ModuleItem)
  | code (builtins : Bool) (params : List String) (body : List Stmt)

namespace ByteCompiler

/-- A compiler outside of every function. -/
def start (name : String) (builtins topLevel strict : Bool) : ByteCompiler :=
  { CodeBlock.new name with
    strict := strict
    builtins := builtins
    topLevel := topLevel
    scope := ⟨∅, 0⟩
    parents := []
    variableFreelist := []
    fmap := ∅
    lci := []
    holes := []
    filled := []
    bindings := [] }

def compileBody (cx : Ctx) (body : List Stmt) (lastValRet : Bool) : Comp Unit := do
  analyzeWith cx body (hoistAll cx body)
  match lastValRet, body.getLast? with
  | true, some (.expr e) => do
    compileStmts cx body.dropLast
    compileExpr cx true false e
    emit .ret
  | _, _ => compileStmts cx body

def compileScript (cx : Ctx) (body : List Stmt) (lastValRet : Bool) : Comp Unit := do
  pushScope
  compileBody cx body lastValRet
  popScope cx
  finish

/-- The parameters of `compile_code`. -/
def declareNames : List String → (p : ℕ) → Comp Unit
  | [], p => Exec.modify fun s => { s with varCount := p, paramCount := p }
  | x :: xs, p => do
    let _ ← addVar x .var false p
    declareNames xs (p + 1)

def compileCode (cx : Ctx) (params : List String) (body : List Stmt) : Comp Unit := do
  declareNames params 0
  Exec.modify fun s => { s with strict := startsStrict body }
  compileBody cx body false
  finish

/-! ### Modules -/

def declareModuleVar (name : String) : BindingKind → Comp Unit
  | .const => declareNew name .const true
  | .function => declareNew name .let_ true
  | _ => pure ()

def declareModuleVars (vars : AList fun _ : String => BindingKind) : List String → Comp Unit
  | [] => pure ()
  | name :: names => do
    match vars.lookup name with
    | some kind => declareModuleVar name kind
    | none => pure ()
    declareModuleVars vars names

def hoistItems (cx : Ctx) : List ModuleItem → Comp Unit
  | [] => pure ()
  | .stmt s :: items => do
    hoist cx s
    hoistItems cx items
  | .exportFn name head body :: items => do
    hoist cx (.fnDecl name head body)
    hoistItems cx items
  | _ :: items => hoistItems cx items

def analyzeModule (cx : Ctx) (items : List ModuleItem) : Comp Unit := do
  let names ← Exec.gets fun s => cx.order s (analyzeModuleItems items).keys
  declareModuleVars (analyzeModuleItems items) names
  hoistItems cx items

def createConst (name : String) : Comp Unit := do
  let free ← Exec.gets fun s => s.variableFreelist
  match free with
  | ix :: rest =>
    Exec.modify fun s => { s with variableFreelist := rest }
    let ix ← addVar name .const true ix
    emit (.declConst ix)
  | [] =>
    Exec.modify fun s => { s with varCount := s.varCount + 1 }
    let c ← Exec.gets fun s => s.varCount
    let ix ← addVar name .const true (c - 1)
    emit (.declConst ix)

/-- Store the value on the stack as the default export. -/
def putDefault : Comp Unit := do
  getVariable "@module"
  let default_ ← getSym (.key "@default")
  emitFeedback (.putById default_)

def putExport (name exportAs : String) : Comp Unit := do
  getVariable name
  getVariable "@module"
  let exports ← getSym (.key "@exports")
  emitFeedback (.getById false exports)
  let sym ← getSym (.key exportAs)
  emitFeedback (.putById sym)

/-- One specifier of an import, with the module object on the stack. -/
def importSpecifier : ImportSpecifier → Comp Unit
  | .default_ name => do
    emit .dup
    let sym ← getSym (.key "@default")
    emitFeedback (.getById true sym)
    createConst name
  | .namespace_ name => do
    emit .dup
    createConst name
  | .named imported name => do
    emit .dup
    let exports ← getSym (.key "@exports")
    emitFeedback (.getById false exports)
    let sym ← getSym (.key name)
    emitFeedback (.getById false sym)
    createConst (imported.getD name)

def importSpecifiers : List ImportSpecifier → Comp Unit
  | [] => pure ()
  | sp :: sps => do
    importSpecifier sp
    importSpecifiers sps

def exportSpecifiers : List ExportSpecifier → Comp Unit
  | [] => pure ()
  | .named orig exported :: sps => do
    putExport orig (exported.getD orig)
    exportSpecifiers sps
  | .other :: _ => nyi

def exportDecls (cx : Ctx) (kind : VarDeclKind) : List VarDeclarator → Comp Unit
  | [] => pure ()
  | .mk (some name) init :: ds => do
    declarator kind name (compileOpt cx (emit .pushUndef) init)
    putExport name name
    exportDecls cx kind ds
  | .mk none _ :: _ => nyi

def compileItem (cx : Ctx) (loader : ℕ) : ModuleItem → Comp Unit
  | .stmt s => compileStmt cx s
  | .import_ src specifiers => do
    let ix ← getVal (.str src)
    emit .pushUndef
    emit (.pushLiteral loader)
    emit (.pushLiteral ix)
    emit (.call false 1)
    importSpecifiers specifiers
    emit .pop
  | .exportVar kind decls => exportDecls cx kind decls
  | .exportFn name _ _ => putExport name name
  | .exportDefaultFn ident head body => do
    compileExpr cx true false (.fn ident head body)
    putDefault
  | .exportDefaultExpr e => do
    compileExpr cx true false e
    putDefault
  | .exportNamed hasSrc specifiers => if hasSrc then nyi else exportSpecifiers specifiers
  | .other => nyi

def compileItems (cx : Ctx) (loader : ℕ) : List ModuleItem → Comp Unit
  | [] => pure ()
  | item :: items => do
    compileItem cx loader item
    compileItems cx loader items

def moduleStrict : List ModuleItem → Bool
  | .stmt (.expr (.lit (.str value _))) :: _ => value = "use strict"
  | _ => false

def compileModule (cx : Ctx) (items : List ModuleItem) : Comp Unit := do
  Exec.modify fun s => { s with varCount := 1, paramCount := 1 }
  let _ ← addVar "@module" .var false 0
  let loader ← getVal2 .loader
  analyzeModule cx items
  Exec.modify fun s => { s with strict := moduleStrict items }
  compileItems cx loader items
  finish

end ByteCompiler

def Program.compile (cx : Ctx) (name : String) (p : Program) : Option CodeBlock :=
  let result := match p with
    | .script builtins body => ByteCompiler.compileScript cx body false
      (.start "<script>" builtins true (ByteCompiler.startsStrict body))
    | .eval builtins body => ByteCompiler.compileScript cx body true
      (.start "<script>" builtins true (ByteCompiler.startsStrict body))
    | .module_ items => ByteCompiler.compileModule cx items (.start name false true false)
    | .code builtins params body =>
      ByteCompiler.compileCode cx params body (.start "<anonymous>" builtins false false)
  match result with
  | .ok _ s => some s.toCodeBlock
  | _ => none

end Starlight
