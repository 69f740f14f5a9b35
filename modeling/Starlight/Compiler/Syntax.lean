import Starlight.Vm.Value

/-!
# The syntax that the compiler reads

The part of the parser's syntax tree that the byte compiler looks at. Whatever it answers with
"not yet implemented" without compiling anything first is one constructor `other` of its sort:
templates, classes, object patterns, `do`-`while`, labelled statements and so on. Positions and type
annotations are left out, and the labels of `break` and `continue`, which the compiler ignores.
-/

namespace Starlight

inductive VarDeclKind where
  | var
  | let_
  | const
deriving DecidableEq

inductive UnaryOp where
  | minus
  | plus
  | tilde
  | bang
  | typeOf
  | void
  | delete
deriving DecidableEq

inductive UpdateOp where
  | plusPlus
  | minusMinus
deriving DecidableEq

/-- The assignment operators; `other` are those that are not implemented. -/
inductive AssignOp where
  | assign
  | addAssign
  | subAssign
  | mulAssign
  | divAssign
  | modAssign
  | bitAndAssign
  | bitOrAssign
  | bitXorAssign
  | other
deriving DecidableEq

/-- The binary operators; `other` are those that are not implemented. -/
inductive BinaryOp where
  | logicalOr
  | logicalAnd
  | add
  | sub
  | mul
  | div
  | mod
  | bitAnd
  | bitOr
  | bitXor
  | lShift
  | rShift
  | zeroFillRShift
  | eqEq
  | eqEqEq
  | notEq
  | notEqEq
  | gt
  | gtEq
  | lt
  | ltEq
  | in_
  | instanceOf
  | other
deriving DecidableEq

/-- Literals. A string knows whether it was written with an escape. -/
inductive Lit where
  | bool (value : Bool)
  | null
  | num (value : F64)
  | str (value : String) (hasEscape : Bool)
  | regex (exp flags : String)
  | other
deriving DecidableEq

/-- A parameter of a function: a name, a rest parameter, or a pattern. -/
inductive Param where
  | ident (name : String)
  | rest (name : String)
  | other
deriving DecidableEq

/-- The key of a property in an object literal. -/
inductive PropName where
  | ident (name : String)
  | str (value : String)
  | num (value : F64)
  | other
deriving DecidableEq

/-- The parameter of a `catch` clause. -/
inductive CatchParam where
  | absent
  | ident (name : String)
  | pattern
deriving DecidableEq

/-- What a function declares besides its name and body. -/
structure FnHead where
  params : List Param
  isAsync : Bool
  isGenerator : Bool

mutual

/-- Expressions. An assignment knows whether its left side was parsed as a pattern. -/
inductive Expr where
  | ident (name : String)
  | lit (l : Lit)
  | this
  | member (obj : Expr) (computed : Bool) (prop : Expr)
  | object (props : List ObjectProp)
  | call (callee : Expr) (args : List Arg)
  | new_ (callee : Expr) (args : List Arg)
  | unary (op : UnaryOp) (arg : Expr)
  | update (op : UpdateOp) (isPrefix : Bool) (arg : Expr)
  | assign (op : AssignOp) (isPat : Bool) (left right : Expr)
  | bin (op : BinaryOp) (left right : Expr)
  | arrow (params : List Param) (body : List Stmt)
  | arrowExpr (params : List Param) (body : Expr)
  | seq (exprs : List Expr)
  | fn (ident : Option String) (head : FnHead) (body : List Stmt)
  | array (elems : List (Option Arg))
  | cond (test cons alt : Expr)
  | paren (expr : Expr)
  | yield_ (arg : Option Expr) (delegate : Bool)
  | other

/-- An argument of a call or an element of an array. -/
inductive Arg where
  | expr (e : Expr)
  | spread (e : Expr)

/-- A property of an object literal. -/
inductive ObjectProp where
  | shorthand (name : String)
  | keyValue (key : PropName) (value : Expr)
  | other

inductive Stmt where
  | switch (discriminant : Expr) (cases : List SwitchCase)
  | expr (e : Expr)
  | block (stmts : List Stmt)
  | return_ (arg : Option Expr)
  | break_
  | continue_
  | forIn (left : ForHead) (right : Expr) (body : Stmt)
  | forOf (left : ForHead) (right : Expr) (body : Stmt)
  | for_ (init : ForInit) (test update : Option Expr) (body : Stmt)
  | while_ (test : Expr) (body : Stmt)
  | if_ (test : Expr) (cons : Stmt) (alt : Option Stmt)
  | varDecl (kind : VarDeclKind) (decls : List VarDeclarator)
  | fnDecl (name : String) (head : FnHead) (body : List Stmt)
  | empty
  | throw (arg : Expr)
  | try_ (block : List Stmt) (handler : Option CatchClause) (finalizer : Option (List Stmt))
  | other

/-- A `case`, or the `default` clause when there is no test. -/
inductive SwitchCase where
  | mk (test : Option Expr) (cons : List Stmt)

/-- What stands before `in` or `of`. -/
inductive ForHead where
  | decl (kind : VarDeclKind) (decls : List VarDeclarator)
  | ident (name : String)
  | other

inductive ForInit where
  | absent
  | expr (e : Expr)
  | decl (kind : VarDeclKind) (decls : List VarDeclarator)

/-- A declared variable, `none` for a pattern, with its initial value. -/
inductive VarDeclarator where
  | mk (name : Option String) (init : Option Expr)

inductive CatchClause where
  | mk (param : CatchParam) (body : List Stmt)

end

def Arg.isSpread : Arg → Bool
  | .expr _ => false
  | .spread _ => true

def Stmt.isUseStrict : Stmt → Bool
  | .expr (.lit (.str value false)) => value = "use strict"
  | _ => false

end Starlight
