import Starlight.Compiler.Formed

/-!
# Well-formed code: the parts of constructs

The rules of `Formed` for the pieces of the compiler that are not recursive: declarations, accesses,
constants, and the frames of expressions, functions and statements, whose own parts are assumed to
keep the state formed.
-/

namespace Starlight

namespace ByteCompiler

variable {α β : Type} {s s' : ByteCompiler} {q : Prop} {Γ Γ' : List Fact} {x : Comp α} {Δ : α → List Fact}

/-! ### Variables -/

theorem fine_popUnless (used : Bool) : Fine q (popUnless used) :=
  Forms.ite (fun _ => fine_pure ()) fun _ => fine_emit rfl rfl

theorem fine_declareNew (name : String) (kind : VariableKind) (dontFree : Bool) :
    Fine False (declareNew name kind dontFree) :=
  Forms.seq (forms_gets _) fun c => Forms.seq (fine_addVar name kind dontFree c) fun _ =>
    fine_modify fun _ => ⟨rfl, rfl, rfl, rfl, rfl, rfl, rfl⟩

theorem fine_allocLet (name : String) : Fine False (allocLet name) := by
  refine Forms.seq (forms_gets _) fun free => ?_
  cases free with
  | nil =>
    refine Forms.seq (fine_modify fun _ => ⟨rfl, rfl, rfl, rfl, rfl, rfl, rfl⟩) fun _ => ?_
    exact Forms.seq (forms_gets _) fun c => fine_addVar name .let_ true (c - 1)
  | cons ix rest =>
    refine Forms.seq (fine_modify fun _ => ⟨rfl, rfl, rfl, rfl, rfl, rfl, rfl⟩) fun _ => ?_
    exact fine_addVar name .let_ true ix

theorem fine_declLet (name : String) : Fine False (declLet name) :=
  Forms.seq (fine_allocLet name) fun _ => fine_emit rfl rfl

theorem fine_declConst (name : String) : Fine False (declConst name) := by
  refine Forms.seq (forms_gets _) fun found => ?_
  cases found with
  | none => exact forms_fail _
  | some v => exact fine_emit rfl rfl

theorem fine_emitGetLocal (depth index : ℕ) : Fine q (emitGetLocal depth index) :=
  Forms.ite (fun _ => fine_emit rfl rfl) fun _ =>
    Forms.emit rfl rfl <| fine_emit rfl rfl

theorem fine_emitSetLocal (depth index : ℕ) : Fine q (emitSetLocal depth index) :=
  Forms.ite (fun _ => fine_emit rfl rfl) fun _ =>
    Forms.emit rfl rfl <| fine_emit rfl rfl

theorem fine_withSym (name : Symbol) {f : ℕ → Comp α} (hf : ∀ ix, Forms q [.name ix] (f ix) Δ) :
    Forms q Γ (getSym name >>= f) Δ :=
  (Forms.bind (forms_getSym name) hf).fine

theorem forms_named {i : ℕ → ℕ → Instr} (hi : ∀ name n, (i name n).fdbk? = some n)
    (hn : ∀ name n, (i name n).needs = [.name name]) {ix : ℕ} (hix : Fact.name ix ∈ Γ) :
    Forms q Γ (emitFeedback (i ix)) fun _ => [] :=
  forms_emitFeedback (hi ix) fun n f hf => by
    rw [hn] at hf
    obtain rfl := List.mem_singleton.mp hf
    exact hix

theorem forms_getById (try_ : Bool) {ix : ℕ} (hix : Fact.name ix ∈ Γ) :
    Forms q Γ (emitFeedback (.getById try_ ix)) fun _ => [] :=
  forms_named (fun _ _ => rfl) (fun _ _ => rfl) hix

theorem forms_putById {ix : ℕ} (hix : Fact.name ix ∈ Γ) :
    Forms q Γ (emitFeedback (.putById ix)) fun _ => [] :=
  forms_named (fun _ _ => rfl) (fun _ _ => rfl) hix

theorem forms_deleteById {ix : ℕ} (hix : Fact.name ix ∈ Γ) :
    Forms q Γ (emit (.deleteById ix)) fun _ => [] :=
  forms_emit rfl (List.forall_mem_singleton.mpr hix)

theorem forms_pushLiteral {ix : ℕ} (hix : Fact.literal ix ∈ Γ) :
    Forms q Γ (emit (.pushLiteral ix)) fun _ => [] :=
  forms_emit rfl (List.forall_mem_singleton.mpr hix)

theorem forms_getFunction {ix : ℕ} (hix : Fact.function ix ∈ Γ) :
    Forms q Γ (emit (.getFunction ix)) fun _ => [] :=
  forms_emit rfl (List.forall_mem_singleton.mpr hix)

theorem fine_accessGet : (acc : Access) → Fine q (accessGet acc)
  | .variable index depth => fine_emitGetLocal depth index
  | .global _ => fine_withSym _ fun _ => Forms.emit rfl rfl <|
      forms_getById true List.mem_cons_self
  | .byId _ => fine_withSym _ fun _ => forms_getById false List.mem_cons_self
  | .byVal => fine_emit rfl rfl
  | .this => forms_fail _

theorem fine_accessSet : (acc : Access) → Fine q (accessSet acc)
  | .variable index depth => fine_emitSetLocal depth index
  | .global _ => fine_withSym _ fun _ => Forms.emit rfl rfl <|
      forms_putById List.mem_cons_self
  | .byId _ => fine_withSym _ fun _ => forms_putById List.mem_cons_self
  | .byVal => fine_emit rfl rfl
  | .this => forms_fail _

theorem fine_accessDelete : (acc : Access) → Fine q (accessDelete acc)
  | .variable _ _ => fine_emit rfl rfl
  | .global _ => fine_withSym _ fun _ => Forms.emit rfl rfl <|
      forms_deleteById List.mem_cons_self
  | .byId _ => fine_withSym _ fun _ => forms_deleteById List.mem_cons_self
  | .byVal => fine_emit rfl rfl
  | .this => fine_emit rfl rfl

theorem fine_getVariable (name : String) : Fine q (getVariable name) :=
  Forms.seq (forms_gets _) fine_accessGet

theorem fine_setVariable (name : String) : Fine q (setVariable name) :=
  Forms.seq (forms_gets _) fine_accessSet

theorem fine_declareVar (name : String) (kind : BindingKind) : Fine False (declareVar name kind) := by
  cases kind with
  | var | function =>
    exact Forms.seq (forms_gets _) fun _ => Forms.ite (fun _ => fine_pure ()) fun _ =>
      fine_declareNew name .var false
  | const => exact fine_declareNew name .const true
  | let_ | catchClause => exact fine_pure ()

theorem fine_declareVars (vars : AList fun _ : String => BindingKind) (names : List String) :
    Fine False (declareVars vars names) := by
  induction names with
  | nil => exact fine_pure ()
  | cons name names ih =>
    rw [declareVars]
    split
    · exact Forms.seq (fine_declareVar name _) fun _ => ih
    · exact ih

theorem fine_declareAnalyzed (cx : Ctx) (stmts : List Stmt) : Fine False (declareAnalyzed cx stmts) :=
  Forms.seq (forms_gets _) fun names => fine_declareVars _ names

theorem fine_declareArguments (stmts : List Stmt) : Fine False (declareArguments stmts) := by
  refine Forms.ite (fun _ => ?_) fun _ => fine_pure ()
  exact Forms.seq (forms_gets _) fun c => Forms.seq (fine_addVar _ _ _ c) fun _ =>
    fine_modify fun _ => ⟨rfl, rfl, rfl, rfl, rfl, rfl, rfl⟩

/-! ### Parts of expressions -/

theorem fine_compileIdent (name : String) : Fine q (compileIdent name) :=
  Forms.ite (fun _ => fine_emit rfl rfl) fun _ => fine_getVariable name

theorem fine_withLiteral {x : Comp ℕ} (hx : Forms q [] x fun ix => [.literal ix]) {f : ℕ → Comp α}
    (hf : ∀ ix, Forms q [.literal ix] (f ix) Δ) : Forms q Γ (x >>= f) Δ :=
  (Forms.bind hx hf).fine

theorem fine_pushNumber (value : F64) : Fine q (pushNumber value) := by
  unfold pushNumber
  split
  · exact fine_emit rfl rfl
  · exact fine_withLiteral (forms_getVal _) fun _ => forms_pushLiteral List.mem_cons_self

theorem fine_compileLit (cx : Ctx) : (l : Lit) → Fine q (compileLit cx l)
  | .bool true => fine_emit rfl rfl
  | .bool false => fine_emit rfl rfl
  | .null => fine_emit rfl rfl
  | .num value => fine_pushNumber value
  | .str _ _ => fine_withLiteral (forms_getVal _) fun _ => forms_pushLiteral List.mem_cons_self
  | .regex _ _ => Forms.ite
      (fun _ => fine_withLiteral (forms_getVal2 _) fun _ => forms_pushLiteral List.mem_cons_self)
      fun _ => forms_fail _
  | .other => forms_fail _

variable {obj prop : Comp Unit}

theorem fine_memberAccess (hobj : Fine q obj) (hprop : Fine q prop) (name : Option String) (dup : Bool) :
    Fine q (memberAccess obj prop name dup) := by
  have hval : Fine q (do
      prop
      emit .swap
      return Access.byVal : Comp Access) :=
    Forms.seq hprop fun _ => Forms.emit rfl rfl <| fine_pure _
  refine Forms.seq hobj fun _ => ?_
  cases name with
  | some x =>
    cases dup with
    | true => exact Forms.emit rfl rfl <| fine_pure _
    | false => exact fine_pure _
  | none =>
    cases dup with
    | true => exact Forms.emit rfl rfl hval
    | false => exact hval

theorem fine_memberCallee (hobj : Fine q obj) (hprop : Fine q prop) :
    (name : Option String) → Fine q (memberCallee obj prop name)
  | some _ => fine_withSym _ fun _ => Forms.seq hobj fun _ => Forms.emit rfl rfl <|
      forms_getById false List.mem_cons_self
  | none => Forms.seq hprop fun _ => Forms.seq hobj fun _ => fine_emit rfl rfl

theorem fine_callWith {args rev : Comp Unit} (hargs : Fine q args) (hrev : Fine q rev) (spread : Bool)
    (argc effect : ℕ) {op : Instr} (hop : op.fdbk? = none) (hneeds : op.needs = []) :
    Fine q (callWith spread args rev argc effect op) :=
  Forms.ite
    (fun _ => Forms.seq hrev fun _ => Forms.emit rfl rfl <| fine_emit rfl rfl)
    fun _ => Forms.seq hargs fun _ => fine_emit hop hneeds

theorem fine_putKey : (key : PropName) → Fine q (putKey key)
  | .ident _ => fine_withSym _ fun _ => Forms.emit rfl rfl <|
      forms_putById List.mem_cons_self
  | .str _ => fine_withLiteral (forms_getVal _) fun _ => Forms.emit rfl rfl <|
      (forms_pushLiteral List.mem_cons_self).bind fun _ => Forms.emit rfl rfl <|
        (fine_emit rfl rfl).fine
  | .num value => Forms.emit rfl rfl <| Forms.seq (fine_pushNumber value) fun _ =>
      Forms.emit rfl rfl <| fine_emit rfl rfl
  | .other => forms_fail _

theorem fine_unaryOp : (op : UnaryOp) → Fine q (unaryOp op)
  | .minus => fine_emit rfl rfl
  | .plus => fine_emit rfl rfl
  | .tilde => fine_emit rfl rfl
  | .bang => fine_emit rfl rfl
  | .typeOf => fine_emit rfl rfl
  | .void => Forms.emit rfl rfl <| fine_emit rfl rfl
  | .delete => forms_fail _

theorem fine_emitBin : (op : Option BinOp) → Fine q (emitBin op)
  | some _ => fine_emit rfl rfl
  | none => forms_fail _

theorem fine_builtinCall {first second rest : Comp Unit} (hfirst : Fine q first) (hsecond : Fine q second)
    (hrest : Fine q rest) (name : String) (receiver : Option (Option String)) (argc : ℕ) :
    Fine q (builtinCall name receiver argc first second rest) := by
  have hun : ∀ op : UnOp, Fine q (do first; emit (.un op)) :=
    fun op => Forms.seq hfirst fun _ => fine_emit rfl rfl
  refine Forms.ite (fun _ => Forms.seq hsecond fun _ => Forms.seq hfirst fun _ => fine_emit rfl rfl)
    fun _ => Forms.ite (fun _ => hun _) fun _ => Forms.ite (fun _ => hun _) fun _ =>
    Forms.ite (fun _ => hun _) fun _ => Forms.ite (fun _ => hun _) fun _ =>
    Forms.ite (fun _ => hun _) fun _ => Forms.ite (fun _ => ?_) fun _ => forms_fail _
  split
  · exact Forms.seq hfirst fun _ => Forms.seq (fine_compileIdent _) fun _ => Forms.seq hrest fun _ =>
      fine_emit rfl rfl
  · exact forms_fail _

/-! ### Parts of functions -/

theorem fine_declareParams (ps : List Param) (p : ℕ) : Fine False (declareParams ps p) := by
  induction ps generalizing p with
  | nil => exact fine_modify fun _ => ⟨rfl, rfl, rfl, rfl, rfl, rfl, rfl⟩
  | cons param ps ih =>
    cases param with
    | ident x | rest x =>
      refine Forms.seq (fine_addVar x .var false p) fun _ => ?_
      exact Forms.seq (fine_modify fun _ => ⟨rfl, rfl, rfl, rfl, rfl, rfl, rfl⟩) fun _ => ih (p + 1)
    | other => exact forms_fail _

theorem fine_finish : Fine q finish := Forms.emit rfl rfl <| fine_emit rfl rfl

theorem forms_reserveCode (name : String) (expr : Bool) :
    Forms q [] (reserveCode name expr) fun ix => [.function ix] := by
  refine Forms.ite (fun _ => forms_pushNew name) fun _ => ⟨fun s hs _ => ?_, fun _ => ?_⟩
  · rw [Exec.gets_bind]
    cases hix : s.fmap.lookup name with
    | none => trivial
    | some ix => exact ⟨hs, Grows.refl s, List.forall_mem_singleton.mpr (hs.fmap name ix hix)⟩
  · refine (keepsScopes_gets _).seq fun reserved => ?_
    cases reserved with
    | none => exact keepsScopes_fail _
    | some ix => exact keepsScopes_pure ix

theorem fine_functionWith {body : Comp Unit} (hbody : Fine False body) (name : String) (expr : Bool)
    (head : FnHead) (strict : Bool) : Fine q (functionWith name expr head strict body) := by
  refine (forms_reserveCode name expr).bind fun ix => Forms.ite (fun _ => forms_fail _) fun _ => ?_
  refine (Forms.fine (forms_nested ?_ (formed_inner name head.isGenerator))).bind fun block => ?_
  · refine Forms.seq (fine_declareParams head.params 0) fun _ => ?_
    have hrest : Fine False (do
        Exec.modify fun s : ByteCompiler => { s with strict := strict }
        body
        finish) :=
      Forms.seq (fine_modify fun _ => ⟨rfl, rfl, rfl, rfl, rfl, rfl, rfl⟩) fun _ =>
        Forms.seq hbody fun _ => fine_finish
    cases head.isGenerator with
    | true => exact Forms.emit rfl rfl hrest
    | false => exact hrest
  · refine (forms_setCode List.mem_cons_self ix).bind fun _ => ?_
    exact forms_getFunction (List.mem_cons_of_mem _ List.mem_cons_self)

theorem fine_arrowWith {body : Comp Unit} (hbody : Fine False body) (params : List Param) (strict : Bool) :
    Fine q (arrowWith params strict body) := by
  refine (forms_nested ?_ (formed_inner "<anonymous>" false)).bind fun block => ?_
  · exact Forms.seq (fine_modify fun _ => ⟨rfl, rfl, rfl, rfl, rfl, rfl, rfl⟩) fun _ =>
      Forms.seq (fine_declareParams params 0) fun _ => hbody
  · refine (forms_pushCode List.mem_cons_self).bind fun ix => ?_
    refine (Forms.fine (forms_getSym _)).bind fun _ => ?_
    exact forms_getFunction (List.mem_cons_of_mem _ List.mem_cons_self)

theorem forms_insertFmap (name : String) {ix : ℕ} (hix : Fact.function ix ∈ Γ) :
    Forms False Γ (Exec.modify fun s : ByteCompiler => { s with fmap := s.fmap.insert name ix })
      fun _ => [] := by
  refine ⟨fun s hs hΓ => ?_, False.elim⟩
  have hg : Grows s { s with fmap := s.fmap.insert name ix } := by
    intro f hf
    cases f <;> exact hf
  refine ⟨⟨fun i hi f hf => hg f (hs.needs i hi f hf), hs.feedback, hs.codes, fun x jx hjx => ?_,
    fun info hinfo p hp => hg _ (hs.lci info hinfo p hp)⟩, hg, fun _ hm => by cases hm⟩
  by_cases hx : x = name
  · subst hx
    rw [AList.lookup_insert] at hjx
    obtain rfl := Option.some_inj.mp hjx
    exact hΓ _ hix
  · rw [AList.lookup_insert_ne hx] at hjx
    exact hs.fmap x jx hjx

theorem fine_hoistWith {function : Comp Unit} (hfn : Fine False function) (name : String) :
    Fine False (hoistWith name function) :=
  (forms_pushNew name).bind fun _ => (forms_insertFmap name List.mem_cons_self).bind fun _ =>
    Forms.seq hfn fun _ => (fine_setVariable name).fine

theorem fine_fnExprWith {function : Comp Unit} (hfn : Fine q function) (cx : Ctx) (ident : Option String)
    (used : Bool) : Fine q (fnExprWith cx ident function used) := by
  obtain ⟨bindName, hname, hsplit⟩ : ∃ bindName, Fine q bindName ∧
      fnExprWith cx ident function used = (do
        (do pushScope; (do function; bindName); popScope cx)
        popUnless used) := by
    cases ident with
    | some name =>
      refine ⟨do emit .dup; setVariable name, Forms.emit rfl rfl <| fine_setVariable name, ?_⟩
      simp only [fnExprWith, Exec.bind_bind]
    | none =>
      refine ⟨pure (), fine_pure (), ?_⟩
      simp only [fnExprWith, Exec.bind_bind]
      rfl
  rw [hsplit]
  have hscope := fine_inScope cx (Forms.seq hfn fun _ => hname)
  exact Forms.seq hscope fun _ => fine_popUnless used

theorem fine_analyzeWith {hoisted : Comp Unit} (hh : Fine False hoisted) (cx : Ctx) (stmts : List Stmt) :
    Fine False (analyzeWith cx stmts hoisted) :=
  Forms.seq (fine_declareAnalyzed cx stmts) fun _ => Forms.seq hh fun _ => fine_declareArguments stmts

/-! ### Parts of statements -/

theorem fine_bindDeclarator (kind : VarDeclKind) (name : String) (ix : Option ℕ) :
    Fine False (bindDeclarator kind name ix) := by
  cases kind with
  | const => exact fine_declConst name
  | var => exact fine_setVariable name
  | let_ =>
    cases ix with
    | some i => exact fine_emit rfl rfl
    | none => exact forms_fail _

theorem fine_declarator {init : Comp Unit} (hinit : Fine False init) (kind : VarDeclKind) (name : String) :
    Fine False (declarator kind name init) := by
  have hbind : ∀ ix, Fine False (do init; bindDeclarator kind name ix) :=
    fun ix => Forms.seq hinit fun _ => fine_bindDeclarator kind name ix
  cases kind with
  | let_ =>
    exact Forms.seq (Forms.seq (fine_allocLet name) fun i => fine_pure (some i)) fun ix => hbind ix
  | const => exact hbind none
  | var => exact hbind none

theorem fine_headName {decl : Comp Unit} (hdecl : Fine False decl) : (head : ForHead) → Fine False (headName decl head)
  | .decl _ decls => Forms.seq hdecl fun _ => by
      cases firstName decls with
      | some name => exact fine_pure name
      | none => exact forms_fail _
  | .ident name => Forms.emit rfl rfl <| Forms.emit rfl rfl <|
      Forms.seq (fine_declLet name) fun _ => fine_pure name
  | .other => forms_fail _

theorem forms_withHole {x : Comp Patch} (hx : Forms q [] x fun p => [.hole p.pos]) {f : Patch → Comp α}
    (hf : ∀ p, Forms q (.hole p.pos :: Γ) (f p) Δ) : Forms q Γ (x >>= f) Δ :=
  hx.fine.bind hf

theorem fine_forInWith {head : Comp String} {right body : Comp Unit} (hhead : Fine False head)
    (hright : Fine False right) (hbody : Fine False body) (cx : Ctx) : Fine False (forInWith cx head right body) := by
  refine Forms.seq hhead fun name => Forms.seq hright fun _ => ?_
  refine forms_withHole (fine_hole _ _) fun setup => Forms.seq (forms_gets _) fun top => ?_
  refine Forms.seq fine_pushLci fun _ => forms_withHole (fine_hole _ _) fun enumerate => ?_
  refine Forms.seq (fine_setVariable name) fun _ => Forms.seq hbody fun _ => ?_
  refine Forms.seq fine_patchContinues fun _ => Forms.seq (fine_goto top) fun _ => ?_
  refine (forms_patch List.mem_cons_self).bind fun _ => ?_
  refine (forms_patch (List.mem_cons_of_mem _ List.mem_cons_self)).bind fun _ => ?_
  exact Forms.seq (fine_popScope cx) fun _ => Forms.emit rfl rfl <| fine_popLci.fine

theorem fine_forOfWith {head : Comp String} {right body : Comp Unit} (hhead : Fine False head)
    (hright : Fine False right) (hbody : Fine False body) (cx : Ctx) : Fine False (forOfWith cx head right body) := by
  refine Forms.seq hhead fun name => ?_
  refine (forms_getSym _).bind fun iterator => (forms_getSym _).fine.bind fun next => ?_
  refine (forms_getSym _).fine.bind fun done_ => (forms_getSym _).fine.bind fun value => ?_
  have hgetById : ∀ {Γ : List Fact} {ix : ℕ}, Fact.name ix ∈ Γ →
      Forms False Γ (emitFeedback (.getById false ix)) fun _ => [] := forms_getById false
  refine Forms.seq hright fun _ => Forms.emit rfl rfl ?_
  refine (hgetById (by simp)).bind fun _ => Forms.emit rfl rfl ?_
  refine Forms.seq (forms_gets _) fun top => Forms.seq fine_pushLci fun _ => ?_
  refine Forms.emit rfl rfl <| Forms.emit rfl rfl ?_
  refine (hgetById (by simp)).bind fun _ => Forms.emit rfl rfl ?_
  refine Forms.emit rfl rfl <| (hgetById (by simp)).bind fun _ => ?_
  refine forms_withHole (fine_hole _ _) fun stop => (hgetById (by simp)).bind fun _ => ?_
  refine Forms.seq (fine_setVariable name) fun _ => Forms.seq hbody fun _ => ?_
  refine Forms.seq fine_patchContinues fun _ => Forms.seq (fine_goto top) fun _ => ?_
  refine (forms_patch (by simp)).bind fun _ => Forms.seq (fine_popScope cx) fun _ => ?_
  exact Forms.emit rfl rfl <| fine_popLci.fine

theorem fine_handlerWith {body : Comp Unit} (hbody : Fine False body) (cx : Ctx) :
    (handler : Option CatchParam) → Fine False (handlerWith cx handler body)
  | none => fine_emit rfl rfl
  | some param => by
    have hrest : Fine False (do body; popScope cx) := Forms.seq hbody fun _ => fine_popScope cx
    refine Forms.seq fine_pushScope fun _ => ?_
    cases param with
    | ident name => exact Forms.seq (fine_setVariable name) fun _ => hrest
    | absent => exact Forms.emit rfl rfl hrest
    | pattern => exact Forms.seq (forms_fail _) fun _ => hrest

end ByteCompiler

end Starlight
