import Starlight.Compiler.FormedParts

/-!
# Well-formed code: expressions and statements

Every piece of the compiler keeps the state formed, by induction over the syntax tree. Between the
emission of a jump and its patch the jump's address is a fact; the clauses of a `switch` hand the jump
of one clause on to the next.
-/

namespace Starlight

namespace ByteCompiler

mutual

theorem fine_compileAccess {q : Prop} (cx : Ctx) (dup : Bool) (e : Expr) : Fine q (compileAccess cx dup e) := by
  cases e with
  | ident name =>
    rw [compileAccess]
    exact forms_gets _
  | member obj computed prop =>
    rw [compileAccess]
    exact fine_memberAccess (fine_compileExpr cx true false obj) (fine_compileExpr cx true false prop) _ _
  | this =>
    rw [compileAccess]
    exact fine_pure _
  | _ =>
    rw [compileAccess]
    · exact forms_fail _
    all_goals nofun

theorem fine_compileExpr {q : Prop} (cx : Ctx) (used tail : Bool) (e : Expr) :
    Fine q (compileExpr cx used tail e) := by
  cases e with
  | yield_ arg delegate =>
    rw [compileExpr]
    exact Forms.ite (fun _ => forms_fail _) fun _ =>
      Forms.seq (fine_compileOpt cx (fine_emit rfl rfl) arg) fun _ => Forms.emit rfl rfl <|
        fine_popUnless used
  | ident name =>
    rw [compileExpr]
    exact Forms.seq (fine_compileIdent name) fun _ => fine_popUnless used
  | lit l =>
    rw [compileExpr]
    exact Forms.seq (fine_compileLit cx l) fun _ => fine_popUnless used
  | this =>
    rw [compileExpr]
    exact Forms.ite (fun _ => fine_emit rfl rfl) fun _ => fine_pure ()
  | member obj computed prop =>
    rw [compileExpr]
    refine Forms.seq (fine_memberAccess (fine_compileExpr cx true false obj)
      (fine_compileExpr cx true false prop) _ _) fun acc => ?_
    exact Forms.seq (fine_accessGet acc) fun _ => fine_popUnless used
  | object props =>
    rw [compileExpr]
    exact Forms.emit rfl rfl <| fine_compileProps cx props
  | call callee args =>
    rw [compileExpr]
    refine Forms.seq (forms_gets _) fun builtins => Forms.ite (fun _ => ?_) fun _ => ?_
    · exact fine_builtinCall (fine_compileFirst cx args) (fine_compileSecond cx args)
        (fine_compileRest cx args) _ _ _
    · have hcall : Fine q (do
          callWith (args.any Arg.isSpread) (compileArgs cx args) (compileArgsRev cx args) args.length 0
            (.call tail args.length)
          popUnless used) :=
        Forms.seq (fine_callWith (fine_compileArgs cx args) (fine_compileArgsRev cx args) _ _ _ rfl rfl)
          fun _ => fine_popUnless used
      have hcallee : Fine q (compileExpr cx true false callee) := fine_compileExpr cx true false callee
      cases callee with
      | member obj computed prop =>
        exact Forms.seq (fine_memberCallee (fine_compileExpr cx true false obj)
          (fine_compileExpr cx true false prop) _) fun _ => hcall
      | _ => exact Forms.emit rfl rfl <| Forms.seq hcallee fun _ => hcall
  | unary op arg =>
    rw [compileExpr]
    refine Forms.ite (fun _ => ?_) fun _ => ?_
    · exact Forms.seq (fine_compileAccess cx false arg) fun acc => Forms.seq (fine_accessDelete acc)
        fun _ => fine_popUnless used
    · exact Forms.seq (fine_compileExpr cx true false arg) fun _ => Forms.seq (fine_unaryOp op)
        fun _ => fine_popUnless used
  | update op isPrefix arg =>
    rw [compileExpr]
    have hset : Fine q (do
        let acc ← compileAccess cx false arg
        accessSet acc) :=
      Forms.seq (fine_compileAccess cx false arg) fine_accessSet
    have harg : Fine q (compileExpr cx true false arg) := fine_compileExpr cx true false arg
    have hdup : ∀ {y : Comp Unit}, Fine q y → Fine q (if used then (emit .dup >>= fun _ => y) else y) :=
      fun hy => Forms.ite (fun _ => Forms.emit rfl rfl <| hy) fun _ => hy
    refine Forms.ite (fun _ => Forms.seq harg fun _ => ?_) fun _ => Forms.seq harg fun _ => ?_
    · exact Forms.emit rfl rfl <| Forms.emit rfl rfl (hdup hset)
    · exact hdup (Forms.emit rfl rfl <| Forms.emit rfl rfl <| hset)
  | new_ callee args =>
    rw [compileExpr]
    refine Forms.emit rfl rfl <| Forms.seq (fine_compileExpr cx true false callee) fun _ => ?_
    exact Forms.seq (fine_callWith (fine_compileArgs cx args) (fine_compileArgsRev cx args) _ _ _ rfl rfl)
      fun _ => fine_popUnless used
  | assign op isPat left right =>
    rw [compileExpr]
    have hset : Fine q (do
        let acc ← compileAccess cx false left
        accessSet acc) :=
      Forms.seq (fine_compileAccess cx false left) fine_accessSet
    have hright : Fine q (compileExpr cx true false right) := fine_compileExpr cx true false right
    refine Forms.ite (fun _ => Forms.seq hright fun _ => ?_) fun _ => Forms.seq hright fun _ =>
      Forms.seq (fine_compileAccess cx false left) fun acc => Forms.seq (fine_accessGet acc) fun _ =>
        Forms.seq (fine_emitBin _) fun _ => ?_
    · exact Forms.ite (fun _ => Forms.emit rfl rfl <| hset) fun _ => hset
    · exact Forms.ite (fun _ => Forms.emit rfl rfl <| hset) fun _ => hset
  | bin op left right =>
    have hleft : Fine q (compileExpr cx true false left) := fine_compileExpr cx true false left
    have hright : Fine q (compileExpr cx true false right) := fine_compileExpr cx true false right
    rw [compileExpr.eq_def]
    dsimp only
    split
    · refine Forms.seq hleft fun _ => Forms.emit rfl rfl ?_
      refine forms_withHole (fine_hole _ _) fun jtrue => Forms.emit rfl rfl ?_
      refine Forms.seq hright fun _ => (forms_patch List.mem_cons_self).bind fun _ => ?_
      exact (fine_popUnless used).fine
    · refine Forms.seq hleft fun _ => Forms.emit rfl rfl ?_
      refine forms_withHole (fine_hole _ _) fun jfalse => Forms.emit rfl rfl ?_
      refine Forms.seq hright fun _ => forms_withHole (fine_hole _ _) fun stop => ?_
      refine (forms_patch (List.mem_cons_of_mem _ List.mem_cons_self)).bind fun _ => ?_
      refine (forms_patch List.mem_cons_self).bind fun _ => ?_
      exact (fine_popUnless used).fine
    · exact Forms.seq hright fun _ => Forms.seq hleft fun _ => Forms.seq (fine_emitBin _) fun _ =>
        fine_popUnless used
  | arrow params body =>
    rw [compileExpr]
    exact fine_arrowWith (Forms.seq (fine_analyzeWith (fine_hoistAll cx body) cx body) fun _ =>
      Forms.seq (fine_compileStmts cx body) fun _ => fine_finish) params _
  | arrowExpr params body =>
    rw [compileExpr]
    exact fine_arrowWith (Forms.seq (fine_compileExpr cx true true body) fun _ => fine_emit rfl rfl)
      params _
  | seq exprs =>
    rw [compileExpr]
    exact fine_compileSeq cx used tail exprs
  | fn ident head body =>
    rw [compileExpr]
    exact fine_fnExprWith (fine_functionWith (Forms.seq (fine_analyzeWith (fine_hoistAll cx body) cx body)
      fun _ => fine_compileStmts cx body) _ _ _ _) cx ident used
  | array elems =>
    rw [compileExpr]
    exact Forms.seq (fine_compileElemsRev cx elems) fun _ => Forms.emit rfl rfl <|
      fine_popUnless used
  | cond test cons alt =>
    rw [compileExpr]
    refine Forms.seq (fine_compileExpr cx true false test) fun _ => ?_
    refine forms_withHole (fine_hole _ _) fun jelse => ?_
    refine Forms.seq (fine_compileExpr cx used tail cons) fun _ => ?_
    refine forms_withHole (fine_hole _ _) fun jend => ?_
    refine (forms_patch (List.mem_cons_of_mem _ List.mem_cons_self)).bind fun _ => ?_
    refine Forms.seq (fine_compileExpr cx used tail alt) fun _ => ?_
    exact forms_patch List.mem_cons_self
  | paren e =>
    rw [compileExpr]
    exact fine_compileExpr cx used false e
  | other =>
    rw [compileExpr]
    exact forms_fail _

theorem fine_compileOpt {q : Prop} (cx : Ctx) {default : Comp Unit} (hd : Fine q default) (e : Option Expr) :
    Fine q (compileOpt cx default e) := by
  cases e with
  | none =>
    rw [compileOpt]
    exact hd
  | some e =>
    rw [compileOpt]
    exact fine_compileExpr cx true false e

theorem fine_compileSeq {q : Prop} (cx : Ctx) (used tail : Bool) (es : List Expr) :
    Fine q (compileSeq cx used tail es) := by
  match es with
  | [] =>
    rw [compileSeq]
    exact forms_fail _
  | [e] =>
    rw [compileSeq]
    exact fine_compileExpr cx used tail e
  | e :: e' :: es =>
    rw [compileSeq]
    · exact Forms.seq (fine_compileExpr cx false tail e) fun _ => fine_compileSeq cx used tail (e' :: es)
    · nofun

theorem fine_compileArg {q : Prop} (cx : Ctx) (a : Arg) : Fine q (compileArg cx a) := by
  cases a with
  | expr e | spread e =>
    rw [compileArg]
    exact fine_compileExpr cx true false e

theorem fine_compileSpread {q : Prop} (cx : Ctx) (a : Arg) : Fine q (compileSpread cx a) := by
  cases a with
  | expr e =>
    rw [compileSpread]
    exact fine_compileExpr cx true false e
  | spread e =>
    rw [compileSpread]
    exact Forms.seq (fine_compileExpr cx true false e) fun _ => fine_emit rfl rfl

theorem fine_compileArgs {q : Prop} (cx : Ctx) (as : List Arg) : Fine q (compileArgs cx as) := by
  cases as with
  | nil =>
    rw [compileArgs]
    exact fine_pure ()
  | cons a as =>
    rw [compileArgs]
    exact Forms.seq (fine_compileArg cx a) fun _ => fine_compileArgs cx as

theorem fine_compileArgsRev {q : Prop} (cx : Ctx) (as : List Arg) : Fine q (compileArgsRev cx as) := by
  cases as with
  | nil =>
    rw [compileArgsRev]
    exact fine_pure ()
  | cons a as =>
    rw [compileArgsRev]
    exact Forms.seq (fine_compileArgsRev cx as) fun _ => fine_compileSpread cx a

theorem fine_compileElemsRev {q : Prop} (cx : Ctx) (as : List (Option Arg)) : Fine q (compileElemsRev cx as) := by
  match as with
  | [] =>
    rw [compileElemsRev]
    exact fine_pure ()
  | none :: as =>
    rw [compileElemsRev]
    exact Forms.seq (fine_compileElemsRev cx as) fun _ => fine_emit rfl rfl
  | some a :: as =>
    rw [compileElemsRev]
    exact Forms.seq (fine_compileElemsRev cx as) fun _ => fine_compileSpread cx a

theorem fine_compileFirst {q : Prop} (cx : Ctx) (as : List Arg) : Fine q (compileFirst cx as) := by
  cases as with
  | nil =>
    rw [compileFirst]
    exact forms_fail _
  | cons a as =>
    rw [compileFirst]
    exact fine_compileArg cx a

theorem fine_compileSecond {q : Prop} (cx : Ctx) (as : List Arg) : Fine q (compileSecond cx as) := by
  match as with
  | [] =>
    rw [compileSecond]
    · exact fine_emit rfl rfl
    · nofun
  | [a] =>
    rw [compileSecond]
    · exact fine_emit rfl rfl
    · nofun
  | a :: b :: as =>
    rw [compileSecond]
    exact fine_compileArg cx b

theorem fine_compileRest {q : Prop} (cx : Ctx) (as : List Arg) : Fine q (compileRest cx as) := by
  cases as with
  | nil =>
    rw [compileRest]
    exact fine_pure ()
  | cons a as =>
    rw [compileRest]
    exact fine_compileArgs cx as

theorem fine_compileProps {q : Prop} (cx : Ctx) (ps : List ObjectProp) : Fine q (compileProps cx ps) := by
  match ps with
  | [] =>
    rw [compileProps]
    exact fine_pure ()
  | .shorthand name :: ps =>
    rw [compileProps]
    refine Forms.emit rfl rfl <| Forms.seq (forms_gets _) fun acc => ?_
    refine fine_withSym _ fun sym => Forms.seq (fine_accessGet acc) fun _ => ?_
    refine Forms.emit rfl rfl <| (forms_putById List.mem_cons_self).bind fun _ => ?_
    exact (fine_compileProps cx ps).fine
  | .keyValue key value :: ps =>
    rw [compileProps]
    exact Forms.emit rfl rfl <| Forms.seq (fine_compileExpr cx true false value) fun _ =>
      Forms.seq (fine_putKey key) fun _ => fine_compileProps cx ps
  | .other :: ps =>
    rw [compileProps]
    exact forms_fail _

theorem fine_compileStmts (cx : Ctx) (ss : List Stmt) : Fine False (compileStmts cx ss) := by
  cases ss with
  | nil =>
    rw [compileStmts]
    exact fine_pure ()
  | cons s ss =>
    rw [compileStmts]
    exact Forms.seq (fine_compileStmt cx s) fun _ => fine_compileStmts cx ss

theorem fine_compileDecls (cx : Ctx) (kind : VarDeclKind) (ds : List VarDeclarator) :
    Fine False (compileDecls cx kind ds) := by
  match ds with
  | [] =>
    rw [compileDecls]
    exact fine_pure ()
  | .mk (some name) init :: ds =>
    rw [compileDecls]
    exact Forms.seq (fine_declarator (fine_compileOpt cx (fine_emit rfl rfl) init) kind name) fun _ =>
      fine_compileDecls cx kind ds
  | .mk none init :: ds =>
    rw [compileDecls]
    exact forms_fail _

theorem forms_compileCases (cx : Ctx) (last : Option Patch) (cs : List SwitchCase) :
    Forms False (holesOf last.toList) (compileCases cx last cs) fun _ => [] := by
  match cs with
  | [] =>
    rw [compileCases]
    exact (fine_pure ()).fine
  | .mk (some test) cons :: cs =>
    rw [compileCases]
    refine Forms.emit rfl rfl <| Forms.seq (fine_compileExpr cx true false test) fun _ => ?_
    refine Forms.emit rfl rfl <| forms_withHole (fine_hole _ _) fun fail => ?_
    have hrest : ∀ Γ, Forms False (Fact.hole fail.pos :: Γ) (do
        compileStmts cx cons
        let j ← jmp
        patch fail
        compileCases cx (some j) cs) fun _ => [] := by
      intro Γ
      refine Forms.seq (fine_compileStmts cx cons) fun _ => forms_withHole (fine_hole _ _) fun j => ?_
      refine (forms_patch (List.mem_cons_of_mem _ List.mem_cons_self)).bind fun _ => ?_
      refine (forms_compileCases cx (some j) cs).mono fun f hf => ?_
      obtain rfl := List.mem_singleton.mp hf
      exact List.mem_cons_self
    cases last with
    | none => exact hrest _
    | some j =>
      exact (forms_patch (List.mem_cons_of_mem _ List.mem_cons_self)).bind fun _ => hrest _
  | .mk none cons :: cs =>
    rw [compileCases]
    exact Forms.seq (fine_compileStmts cx cons) fun _ => forms_compileCases cx last cs

theorem fine_compileHead (cx : Ctx) (head : ForHead) : Fine False (compileHead cx head) := by
  cases head with
  | decl kind decls =>
    rw [compileHead]
    exact fine_compileDecls cx kind decls
  | ident name | other =>
    rw [compileHead]
    · exact fine_pure ()
    · nofun

theorem fine_compileInit (cx : Ctx) (init : ForInit) : Fine False (compileInit cx init) := by
  cases init with
  | absent =>
    rw [compileInit]
    exact fine_pure ()
  | expr e =>
    rw [compileInit]
    exact fine_compileExpr cx false false e
  | decl kind decls =>
    rw [compileInit]
    exact fine_compileDecls cx kind decls

theorem fine_compileUpdate (cx : Ctx) (e : Option Expr) : Fine False (compileUpdate cx e) := by
  cases e with
  | none =>
    rw [compileUpdate]
    exact fine_pure ()
  | some e =>
    rw [compileUpdate]
    exact fine_compileExpr cx false false e

theorem fine_compileHandler (cx : Ctx) (handler : Option CatchClause) :
    Fine False (compileHandler cx handler) := by
  match handler with
  | none =>
    rw [compileHandler]
    exact fine_pure ()
  | some (.mk param body) =>
    rw [compileHandler]
    exact fine_compileStmts cx body

theorem fine_compileFinalizer (cx : Ctx) (finalizer : Option (List Stmt)) :
    Fine False (compileFinalizer cx finalizer) := by
  cases finalizer with
  | none =>
    rw [compileFinalizer]
    exact fine_pure ()
  | some stmts =>
    rw [compileFinalizer]
    exact Forms.seq fine_pushScope fun _ => Forms.seq (fine_compileStmts cx stmts) fun _ =>
      fine_popScope cx

theorem fine_compileStmt (cx : Ctx) (s : Stmt) : Fine False (compileStmt cx s) := by
  cases s with
  | switch disc cases =>
    rw [compileStmt]
    refine Forms.seq fine_pushLci fun _ => Forms.seq (fine_compileExpr cx true false disc) fun _ => ?_
    refine Forms.seq (forms_compileCases cx none cases) fun _ => ?_
    exact Forms.seq fine_popLci fun _ => fine_emit rfl rfl
  | expr e =>
    rw [compileStmt]
    exact fine_compileExpr cx false false e
  | block stmts =>
    rw [compileStmt]
    refine Forms.seq fine_pushScope fun _ => ?_
    refine Forms.seq (fine_analyzeWith (fine_hoistAll cx stmts) cx stmts) fun _ => ?_
    exact Forms.seq (fine_compileStmts cx stmts) fun _ => fine_popScope cx
  | return_ arg =>
    cases arg with
    | none =>
      rw [compileStmt]
      exact Forms.emit rfl rfl <| fine_emit rfl rfl
    | some e =>
      rw [compileStmt]
      exact Forms.seq (fine_compileExpr cx true true e) fun _ => fine_emit rfl rfl
  | break_ =>
    rw [compileStmt]
    exact forms_withHole (fine_hole _ _) fun _ => forms_pushBreak List.mem_cons_self
  | continue_ =>
    rw [compileStmt]
    exact forms_withHole (fine_hole _ _) fun _ => forms_pushContinue List.mem_cons_self
  | forIn left right body =>
    rw [compileStmt]
    refine Forms.seq fine_pushScope fun _ => ?_
    refine Forms.seq (fine_analyzeWith (fine_hoist cx body) cx _) fun _ => ?_
    exact fine_forInWith (fine_headName (fine_compileHead cx left) left)
      (fine_compileExpr cx true false right) (fine_compileStmt cx body) cx
  | forOf left right body =>
    rw [compileStmt]
    refine Forms.seq fine_pushScope fun _ => ?_
    refine Forms.seq (fine_analyzeWith (fine_hoist cx body) cx _) fun _ => ?_
    exact fine_forOfWith (fine_headName (fine_compileHead cx left) left)
      (fine_compileExpr cx true false right) (fine_compileStmt cx body) cx
  | for_ init test update body =>
    rw [compileStmt]
    refine Forms.seq fine_pushScope fun _ => Forms.seq (fine_compileInit cx init) fun _ => ?_
    refine Forms.seq (forms_gets _) fun head => Forms.seq fine_pushLci fun _ => ?_
    refine Forms.seq (fine_compileOpt cx (fine_emit rfl rfl) test) fun _ => ?_
    refine forms_withHole (fine_hole _ _) fun jend => Forms.seq (fine_compileStmt cx body) fun _ => ?_
    refine Forms.seq fine_patchContinues fun _ => Forms.seq (fine_compileUpdate cx update) fun _ => ?_
    refine Forms.seq (fine_goto head) fun _ => Forms.seq fine_popLci fun _ => ?_
    exact Forms.seq (fine_popScope cx) fun _ => forms_patch List.mem_cons_self
  | while_ test body =>
    rw [compileStmt]
    refine Forms.seq (forms_gets _) fun head => Forms.seq fine_pushLci fun _ => ?_
    refine Forms.seq (fine_compileExpr cx true false test) fun _ => ?_
    refine forms_withHole (fine_hole _ _) fun jend => Forms.seq (fine_compileStmt cx body) fun _ => ?_
    refine Forms.seq fine_patchContinues fun _ => Forms.seq (fine_goto head) fun _ => ?_
    exact (forms_patch List.mem_cons_self).bind fun _ => fine_popLci.fine
  | if_ test cons alt =>
    rw [compileStmt]
    refine Forms.seq (fine_compileExpr cx true false test) fun _ => ?_
    refine forms_withHole (fine_hole _ _) fun jelse => Forms.seq (fine_compileStmt cx cons) fun _ => ?_
    cases alt with
    | none => exact forms_patch List.mem_cons_self
    | some alt =>
      refine forms_withHole (fine_hole _ _) fun jend => ?_
      refine (forms_patch (List.mem_cons_of_mem _ List.mem_cons_self)).bind fun _ => ?_
      exact Forms.seq (fine_compileStmt cx alt) fun _ => forms_patch List.mem_cons_self
  | varDecl kind decls =>
    rw [compileStmt]
    exact fine_compileDecls cx kind decls
  | fnDecl name head body | empty =>
    rw [compileStmt]
    exact fine_pure ()
  | throw arg =>
    rw [compileStmt]
    exact Forms.seq (fine_compileExpr cx true false arg) fun _ => fine_emit rfl rfl
  | try_ block handler finalizer =>
    rw [compileStmt]
    refine forms_withHole (fine_hole _ _) fun tryPush => Forms.seq (fine_compileStmts cx block) fun _ => ?_
    refine Forms.emit rfl rfl <| forms_withHole (fine_hole _ _) fun jfinally => ?_
    refine (forms_patch (List.mem_cons_of_mem _ List.mem_cons_self)).bind fun _ => ?_
    refine Forms.seq (fine_handlerWith (fine_compileHandler cx handler) cx _) fun _ => ?_
    refine forms_withHole (fine_hole _ _) fun jcatch => ?_
    refine (forms_patch (List.mem_cons_of_mem _ List.mem_cons_self)).bind fun _ => ?_
    refine (forms_patch List.mem_cons_self).bind fun _ => ?_
    exact (fine_compileFinalizer cx finalizer).fine
  | other =>
    rw [compileStmt]
    exact forms_fail _

theorem fine_hoist (cx : Ctx) (s : Stmt) : Fine False (hoist cx s) := by
  cases s with
  | fnDecl name head body =>
    rw [hoist]
    exact fine_hoistWith (fine_functionWith (Forms.seq (fine_analyzeWith (fine_hoistAll cx body) cx body)
      fun _ => fine_compileStmts cx body) _ _ _ _) name
  | if_ test cons alt =>
    rw [hoist]
    exact Forms.seq (fine_hoist cx cons) fun _ => fine_hoistAlt cx alt
  | for_ init test update body | forIn left right body | forOf left right body | while_ test body =>
    rw [hoist]
    exact fine_hoist cx body
  | switch disc cases =>
    rw [hoist]
    exact fine_hoistCases cx cases
  | _ =>
    rw [hoist]
    · exact fine_pure ()
    all_goals nofun

theorem fine_hoistAlt (cx : Ctx) (s : Option Stmt) : Fine False (hoistAlt cx s) := by
  cases s with
  | none =>
    rw [hoistAlt]
    exact fine_pure ()
  | some s =>
    rw [hoistAlt]
    exact fine_hoist cx s

theorem fine_hoistAll (cx : Ctx) (ss : List Stmt) : Fine False (hoistAll cx ss) := by
  cases ss with
  | nil =>
    rw [hoistAll]
    exact fine_pure ()
  | cons s ss =>
    rw [hoistAll]
    exact Forms.seq (fine_hoist cx s) fun _ => fine_hoistAll cx ss

theorem fine_hoistCases (cx : Ctx) (cs : List SwitchCase) : Fine False (hoistCases cx cs) := by
  match cs with
  | [] =>
    rw [hoistCases]
    exact fine_pure ()
  | .mk test cons :: cs =>
    rw [hoistCases]
    exact Forms.seq (fine_hoistAll cx cons) fun _ => fine_hoistCases cx cs

end

end ByteCompiler

end Starlight
