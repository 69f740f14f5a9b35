import Starlight.Compiler.FormedCode
import Starlight.Compiler.Program

/-!
# The instruction stream

Every program that the compiler accepts is compiled into well-formed code blocks, nested functions
included: `eval` and `display_to` read from the bytes the instructions that were emitted, and find
every index within its table.
-/

namespace Starlight

namespace ByteCompiler

theorem fine_compileBody (cx : Ctx) (body : List Stmt) (lastValRet : Bool) :
    Fine False (compileBody cx body lastValRet) := by
  refine Forms.seq (fine_analyzeWith (fine_hoistAll cx body) cx body) fun _ => ?_
  split
  · exact Forms.seq (fine_compileStmts cx _) fun _ => Forms.seq (fine_compileExpr cx true false _)
      fun _ => fine_emit rfl rfl
  · exact fine_compileStmts cx body

theorem fine_compileScript (cx : Ctx) (body : List Stmt) (lastValRet : Bool) :
    Fine False (compileScript cx body lastValRet) :=
  Forms.seq fine_pushScope fun _ => Forms.seq (fine_compileBody cx body lastValRet) fun _ =>
    Forms.seq (fine_popScope cx) fun _ => fine_finish

theorem fine_declareNames (xs : List String) (p : ℕ) : Fine False (declareNames xs p) := by
  induction xs generalizing p with
  | nil => exact fine_modify fun _ => ⟨rfl, rfl, rfl, rfl, rfl, rfl, rfl⟩
  | cons x xs ih => exact Forms.seq (fine_addVar x .var false p) fun _ => ih (p + 1)

theorem fine_compileCode (cx : Ctx) (params : List String) (body : List Stmt) :
    Fine False (compileCode cx params body) :=
  Forms.seq (fine_declareNames params 0) fun _ =>
    Forms.seq (fine_modify fun _ => ⟨rfl, rfl, rfl, rfl, rfl, rfl, rfl⟩) fun _ =>
      Forms.seq (fine_compileBody cx body false) fun _ => fine_finish

theorem fine_declareModuleVar (name : String) (kind : BindingKind) :
    Fine False (declareModuleVar name kind) := by
  cases kind with
  | const => exact fine_declareNew name .const true
  | function => exact fine_declareNew name .let_ true
  | var | let_ | catchClause => exact fine_pure ()

theorem fine_declareModuleVars (vars : AList fun _ : String => BindingKind) (names : List String) :
    Fine False (declareModuleVars vars names) := by
  induction names with
  | nil => exact fine_pure ()
  | cons name names ih =>
    rw [declareModuleVars]
    split
    · exact Forms.seq (fine_declareModuleVar name _) fun _ => ih
    · exact ih

theorem fine_hoistItems (cx : Ctx) (items : List ModuleItem) : Fine False (hoistItems cx items) := by
  induction items with
  | nil => exact fine_pure ()
  | cons item items ih =>
    cases item with
    | stmt s => exact Forms.seq (fine_hoist cx s) fun _ => ih
    | exportFn name head body => exact Forms.seq (fine_hoist cx _) fun _ => ih
    | _ => exact ih

theorem fine_analyzeModule (cx : Ctx) (items : List ModuleItem) : Fine False (analyzeModule cx items) :=
  Forms.seq (forms_gets _) fun names => Forms.seq (fine_declareModuleVars _ names) fun _ =>
    fine_hoistItems cx items

theorem fine_createConst (name : String) : Fine False (createConst name) := by
  refine Forms.seq (forms_gets _) fun free => ?_
  cases free with
  | nil =>
    refine Forms.seq (fine_modify fun _ => ⟨rfl, rfl, rfl, rfl, rfl, rfl, rfl⟩) fun _ => ?_
    exact Forms.seq (forms_gets _) fun c => Forms.seq (fine_addVar name .const true (c - 1)) fun _ =>
      fine_emit rfl rfl
  | cons ix rest =>
    refine Forms.seq (fine_modify fun _ => ⟨rfl, rfl, rfl, rfl, rfl, rfl, rfl⟩) fun _ => ?_
    exact Forms.seq (fine_addVar name .const true ix) fun _ => fine_emit rfl rfl

theorem fine_putDefault : Fine False putDefault :=
  Forms.seq (fine_getVariable _) fun _ => fine_withSym _ fun _ => forms_putById List.mem_cons_self

theorem fine_putExport (name exportAs : String) : Fine False (putExport name exportAs) :=
  Forms.seq (fine_getVariable _) fun _ => Forms.seq (fine_getVariable _) fun _ =>
    fine_withSym _ fun _ => (forms_getById false List.mem_cons_self).bind fun _ =>
      fine_withSym _ fun _ => forms_putById List.mem_cons_self

theorem fine_importSpecifier : (sp : ImportSpecifier) → Fine False (importSpecifier sp)
  | .default_ name => Forms.emit rfl rfl <| fine_withSym _ fun _ =>
      (forms_getById true List.mem_cons_self).bind fun _ => (fine_createConst name).fine
  | .namespace_ name => Forms.emit rfl rfl <| fine_createConst name
  | .named _ _ => Forms.emit rfl rfl <| fine_withSym _ fun _ =>
      (forms_getById false List.mem_cons_self).bind fun _ => fine_withSym _ fun _ =>
        (forms_getById false List.mem_cons_self).bind fun _ => (fine_createConst _).fine

theorem fine_importSpecifiers (sps : List ImportSpecifier) : Fine False (importSpecifiers sps) := by
  induction sps with
  | nil => exact fine_pure ()
  | cons sp sps ih => exact Forms.seq (fine_importSpecifier sp) fun _ => ih

theorem fine_exportSpecifiers (sps : List ExportSpecifier) : Fine False (exportSpecifiers sps) := by
  induction sps with
  | nil => exact fine_pure ()
  | cons sp sps ih =>
    cases sp with
    | named orig exported => exact Forms.seq (fine_putExport _ _) fun _ => ih
    | other => exact forms_fail _

theorem fine_exportDecls (cx : Ctx) (kind : VarDeclKind) (ds : List VarDeclarator) :
    Fine False (exportDecls cx kind ds) := by
  induction ds with
  | nil => exact fine_pure ()
  | cons d ds ih =>
    obtain ⟨name, init⟩ := d
    cases name with
    | none => exact forms_fail _
    | some name =>
      refine Forms.seq (fine_declarator (fine_compileOpt cx (fine_emit rfl rfl) init) kind name) fun _ => ?_
      exact Forms.seq (fine_putExport name name) fun _ => ih

theorem forms_compileItem (cx : Ctx) (loader : ℕ) :
    (item : ModuleItem) → Forms False [.literal loader] (compileItem cx loader item) fun _ => []
  | .stmt s => (fine_compileStmt cx s).fine
  | .import_ _ specifiers => (forms_getVal _).fine.bind fun _ => Forms.emit rfl rfl <|
      (forms_pushLiteral (List.mem_cons_of_mem _ List.mem_cons_self)).bind fun _ =>
        (forms_pushLiteral List.mem_cons_self).bind fun _ => Forms.emit rfl rfl <|
          Forms.seq (fine_importSpecifiers specifiers) fun _ => (fine_emit rfl rfl).fine
  | .exportVar kind decls => (fine_exportDecls cx kind decls).fine
  | .exportFn name _ _ => (fine_putExport name name).fine
  | .exportDefaultFn _ _ _ => Forms.seq (fine_compileExpr cx true false _) fun _ => fine_putDefault.fine
  | .exportDefaultExpr e => Forms.seq (fine_compileExpr cx true false e) fun _ => fine_putDefault.fine
  | .exportNamed _ specifiers => Forms.ite (fun _ => forms_fail _) fun _ =>
      (fine_exportSpecifiers specifiers).fine
  | .other => forms_fail _

theorem forms_compileItems (cx : Ctx) (loader : ℕ) (items : List ModuleItem) :
    Forms False [.literal loader] (compileItems cx loader items) fun _ => [] := by
  induction items with
  | nil => exact (fine_pure ()).fine
  | cons item items ih => exact (forms_compileItem cx loader item).bind fun _ => ih

theorem fine_compileModule (cx : Ctx) (items : List ModuleItem) : Fine False (compileModule cx items) := by
  refine Forms.seq (fine_modify fun _ => ⟨rfl, rfl, rfl, rfl, rfl, rfl, rfl⟩) fun _ => ?_
  refine Forms.seq (fine_addVar _ _ _ _) fun _ => fine_withLiteral (forms_getVal2 _) fun loader => ?_
  refine Forms.seq (fine_analyzeModule cx items) fun _ => ?_
  refine Forms.seq (fine_modify fun _ => ⟨rfl, rfl, rfl, rfl, rfl, rfl, rfl⟩) fun _ => ?_
  exact (forms_compileItems cx loader items).bind fun _ => fine_finish.fine

theorem formed_start (name : String) (builtins topLevel strict : Bool) :
    Formed (start name builtins topLevel strict) where
  needs := List.forall_mem_nil _
  feedback := rfl
  codes := List.forall_mem_nil _
  fmap _ _ h := by cases h
  lci := List.forall_mem_nil _

theorem Forms.wellFormed {x : Comp Unit} (hx : Fine False x) {name : String} {builtins topLevel strict : Bool}
    {s' : ByteCompiler} (h : x (start name builtins topLevel strict) = .ok () s') :
    s'.toCodeBlock.WellFormed := by
  have hrun := hx.1 _ (formed_start name builtins topLevel strict) (List.forall_mem_nil _)
  rw [h] at hrun
  exact hrun.1.wellFormed

end ByteCompiler

theorem Program.wellFormed {cx : Ctx} {name : String} {p : Program} {b : CodeBlock}
    (h : p.compile cx name = some b) : b.WellFormed := by
  unfold Program.compile at h
  dsimp only at h
  split at h
  · next s hrun =>
    obtain rfl := Option.some_inj.mp h
    cases p with
    | script builtins body => exact (ByteCompiler.fine_compileScript cx body false).wellFormed hrun
    | eval builtins body => exact (ByteCompiler.fine_compileScript cx body true).wellFormed hrun
    | module_ items => exact (ByteCompiler.fine_compileModule cx items).wellFormed hrun
    | code builtins params body =>
      exact (ByteCompiler.fine_compileCode cx params body).wellFormed hrun
  · cases h

def instructions (code : List Instr) : List (Opcode × List (BitVec 8)) :=
  code.map fun i => (i.opcode, i.words.flatMap Instr.leBytes)

/-- **The instruction stream is well formed.** In every code block of an accepted program, `eval`
and `display_to` read the instructions that the compiler emitted, both have an arm for each of them,
every index lies within its table, and every feedback cell is used by exactly one instruction. -/
theorem instruction_stream_well_formed {cx : Ctx} {name : String} {p : Program} {b : CodeBlock}
    (h : p.compile cx name = some b) {c : CodeBlock} (hc : b.Contains c) :
    decode Opcode.evalOperands (encode c.code) = some (instructions c.code) ∧
      decode Opcode.displayOperands (encode c.code) = some (instructions c.code) ∧
      (∀ i ∈ c.code, i.opcode.evalOperands.isSome ∧ i.opcode.displayOperands.isSome ∧ i.Indexed c) ∧
      ∀ n < c.feedback, c.code.countP (fun i => i.fdbk? == some n) = 1 := by
  have hindexed : c.Indexed := Program.wellFormed h c hc
  refine ⟨decode_encode Instr.evalOperands_opcode c.code, decode_encode Instr.displayOperands_opcode c.code,
    fun i hi => ⟨?_, ?_, hindexed.instrs i hi⟩, fun n hn => ?_⟩
  · rw [Instr.evalOperands_opcode]
    rfl
  · rw [Instr.displayOperands_opcode]
    rfl
  · rw [← List.count_filterMap, hindexed.feedback]
    exact List.count_eq_one_of_mem List.nodup_range (List.mem_range.mpr hn)

/-- A host that accepts every regular expression and visits maps in their own order. -/
def plainCtx : Ctx := ⟨fun _ _ => true, fun _ keys => keys, fun _ keys => .refl keys⟩

/-- `throw this.y`, as the body of a function. -/
def throwMember : Program := .code false [] [.throw (.member .this false (.ident "y"))]

theorem instruction_stream_well_formed_throwMember :
    ∃ b, throwMember.compile plainCtx "" = some b ∧
      decode Opcode.evalOperands (encode b.code) = some (instructions b.code) ∧
      decode Opcode.displayOperands (encode b.code) = some (instructions b.code) ∧
      (∀ i ∈ b.code, i.opcode.evalOperands.isSome ∧ i.opcode.displayOperands.isSome ∧ i.Indexed b) ∧
      ∀ n < b.feedback, b.code.countP (fun i => i.fdbk? == some n) = 1 := by
  have h : (throwMember.compile plainCtx "").isSome := rfl
  obtain ⟨b, hb⟩ := Option.isSome_iff_exists.mp h
  exact ⟨b, hb, instruction_stream_well_formed hb (.self b)⟩

end Starlight
