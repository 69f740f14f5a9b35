import Starlight.Compiler.Syntax
import Mathlib.Data.List.AList

/-!
# The analyzer of declarations

Before the statements of a body or a block are compiled, a visitor collects the names they declare. It
looks into expressions, for the names of function expressions, and into the bodies of loops, branches
and cases, but not into blocks, functions, arrow functions and classes. A name that is declared more
than once keeps the kind of its last declaration.
-/

namespace Starlight

inductive BindingKind where
  | var
  | const
  | let_
  | function
  | catchClause
deriving DecidableEq

def VarDeclKind.bindingKind : VarDeclKind → BindingKind
  | .var => .var
  | .let_ => .let_
  | .const => .const

mutual

/-- The declarations met in an expression, in the order of the visit. -/
def Expr.declares : Expr → List (String × BindingKind)
  | .ident _ | .lit _ | .this | .arrow .. | .arrowExpr .. | .other => []
  | .member obj _ prop => obj.declares ++ prop.declares
  | .object props => propsDeclare props
  | .call callee args => callee.declares ++ argsDeclare args
  | .new_ callee args => callee.declares ++ argsDeclare args
  | .unary _ arg => arg.declares
  | .update _ _ arg => arg.declares
  | .assign _ _ left right => left.declares ++ right.declares
  | .bin _ left right => left.declares ++ right.declares
  | .seq exprs => exprsDeclare exprs
  | .fn ident _ _ => match ident with
    | some name => [(name, .function)]
    | none => []
  | .array elems => elemsDeclare elems
  | .cond test cons alt => test.declares ++ cons.declares ++ alt.declares
  | .paren e => e.declares
  | .yield_ arg _ => optDeclares arg

def optDeclares : Option Expr → List (String × BindingKind)
  | none => []
  | some e => e.declares

def exprsDeclare : List Expr → List (String × BindingKind)
  | [] => []
  | e :: es => e.declares ++ exprsDeclare es

def Arg.declares : Arg → List (String × BindingKind)
  | .expr e => e.declares
  | .spread e => e.declares

def argsDeclare : List Arg → List (String × BindingKind)
  | [] => []
  | a :: as => a.declares ++ argsDeclare as

def elemsDeclare : List (Option Arg) → List (String × BindingKind)
  | [] => []
  | none :: as => elemsDeclare as
  | some a :: as => a.declares ++ elemsDeclare as

def propsDeclare : List ObjectProp → List (String × BindingKind)
  | [] => []
  | .keyValue _ e :: ps => e.declares ++ propsDeclare ps
  | _ :: ps => propsDeclare ps

def declsDeclare (kind : VarDeclKind) : List VarDeclarator → List (String × BindingKind)
  | [] => []
  | .mk name init :: ds =>
    optDeclares init ++ (name.map fun n => (n, kind.bindingKind)).toList ++ declsDeclare kind ds

/-- The declarations met in a statement. -/
def Stmt.declares : Stmt → List (String × BindingKind)
  | .switch disc cases => disc.declares ++ casesDeclare cases
  | .expr e => e.declares
  | .return_ arg => optDeclares arg
  | .forIn left right body => headDeclares left ++ right.declares ++ body.declares
  | .forOf left right body => headDeclares left ++ right.declares ++ body.declares
  | .for_ init test update body =>
    initDeclares init ++ optDeclares update ++ optDeclares test ++ body.declares
  | .while_ test body => test.declares ++ body.declares
  | .if_ test cons alt => test.declares ++ cons.declares ++ altDeclares alt
  | .varDecl kind decls => declsDeclare kind decls
  | .fnDecl name _ _ => [(name, .function)]
  | .throw arg => arg.declares
  | .try_ _ handler _ => handlerDeclares handler
  | .block _ | .break_ | .continue_ | .empty | .other => []

def altDeclares : Option Stmt → List (String × BindingKind)
  | none => []
  | some s => s.declares

def stmtsDeclare : List Stmt → List (String × BindingKind)
  | [] => []
  | s :: ss => s.declares ++ stmtsDeclare ss

def casesDeclare : List SwitchCase → List (String × BindingKind)
  | [] => []
  | .mk test cons :: cs => optDeclares test ++ stmtsDeclare cons ++ casesDeclare cs

def headDeclares : ForHead → List (String × BindingKind)
  | .decl kind decls => declsDeclare kind decls
  | .ident _ | .other => []

def initDeclares : ForInit → List (String × BindingKind)
  | .absent => []
  | .expr e => e.declares
  | .decl kind decls => declsDeclare kind decls

def handlerDeclares : Option CatchClause → List (String × BindingKind)
  | some (.mk (.ident name) _) => [(name, .catchClause)]
  | _ => []

end

def analyzeStmts (stmts : List Stmt) : AList fun _ : String => BindingKind :=
  (stmtsDeclare stmts).foldl (fun vars d => vars.insert d.1 d.2) ∅

mutual

/-- `contains_ident`: an expression that is the identifier occurs, also inside functions. -/
def Expr.contains (x : String) : Expr → Bool
  | .ident name => name = x
  | .lit _ | .this | .other => false
  | .member obj _ prop => obj.contains x || prop.contains x
  | .object props => propsContain x props
  | .call callee args => callee.contains x || argsContain x args
  | .new_ callee args => callee.contains x || argsContain x args
  | .unary _ arg => arg.contains x
  | .update _ _ arg => arg.contains x
  | .assign _ true (.ident _) right => right.contains x
  | .assign _ _ left right => left.contains x || right.contains x
  | .bin _ left right => left.contains x || right.contains x
  | .arrow _ body => stmtsContain x body
  | .arrowExpr _ body => body.contains x
  | .seq exprs => exprsContain x exprs
  | .fn _ _ body => stmtsContain x body
  | .array elems => elemsContain x elems
  | .cond test cons alt => test.contains x || cons.contains x || alt.contains x
  | .paren e => e.contains x
  | .yield_ arg _ => optContains x arg

def optContains (x : String) : Option Expr → Bool
  | none => false
  | some e => e.contains x

def exprsContain (x : String) : List Expr → Bool
  | [] => false
  | e :: es => e.contains x || exprsContain x es

def Arg.contains (x : String) : Arg → Bool
  | .expr e => e.contains x
  | .spread e => e.contains x

def argsContain (x : String) : List Arg → Bool
  | [] => false
  | a :: as => a.contains x || argsContain x as

def elemsContain (x : String) : List (Option Arg) → Bool
  | [] => false
  | none :: as => elemsContain x as
  | some a :: as => a.contains x || elemsContain x as

def propsContain (x : String) : List ObjectProp → Bool
  | [] => false
  | .keyValue _ e :: ps => e.contains x || propsContain x ps
  | _ :: ps => propsContain x ps

def declsContain (x : String) : List VarDeclarator → Bool
  | [] => false
  | .mk _ init :: ds => optContains x init || declsContain x ds

def Stmt.contains (x : String) : Stmt → Bool
  | .switch disc cases => disc.contains x || casesContain x cases
  | .expr e => e.contains x
  | .block stmts => stmtsContain x stmts
  | .return_ arg => optContains x arg
  | .forIn left right body => headContains x left || right.contains x || body.contains x
  | .forOf left right body => headContains x left || right.contains x || body.contains x
  | .for_ init test update body =>
    initContains x init || optContains x test || optContains x update || body.contains x
  | .while_ test body => test.contains x || body.contains x
  | .if_ test cons alt => test.contains x || cons.contains x || altContains x alt
  | .varDecl _ decls => declsContain x decls
  | .fnDecl _ _ body => stmtsContain x body
  | .throw arg => arg.contains x
  | .try_ block handler finalizer =>
    stmtsContain x block || handlerContains x handler || finalizerContains x finalizer
  | .break_ | .continue_ | .empty | .other => false

def altContains (x : String) : Option Stmt → Bool
  | none => false
  | some s => s.contains x

def stmtsContain (x : String) : List Stmt → Bool
  | [] => false
  | s :: ss => s.contains x || stmtsContain x ss

def casesContain (x : String) : List SwitchCase → Bool
  | [] => false
  | .mk test cons :: cs => optContains x test || stmtsContain x cons || casesContain x cs

def headContains (x : String) : ForHead → Bool
  | .decl _ decls => declsContain x decls
  | .ident _ | .other => false

def initContains (x : String) : ForInit → Bool
  | .absent => false
  | .expr e => e.contains x
  | .decl _ decls => declsContain x decls

def handlerContains (x : String) : Option CatchClause → Bool
  | none => false
  | some (.mk _ body) => stmtsContain x body

def finalizerContains (x : String) : Option (List Stmt) → Bool
  | none => false
  | some stmts => stmtsContain x stmts

end

end Starlight
