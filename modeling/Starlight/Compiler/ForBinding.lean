import Starlight.Compiler.InstructionStream

/-!
# The variable of a `for`-`in` or `for`-`of` loop

The head of a loop is compiled like a declaration, once before the loop: a `const` is made immutable by it. The
value of an iteration is stored like that of an assignment. A bare identifier in the head declares a new `let`
variable in the scope of the loop.

So a value never gets into a `const`, nor into a variable outside of the loop that its head names.

A run of a loop is put together from the code of the head, the code of the iterated expression and, for each
value, the code that stores it and the code of the body. The first and the third are instructions, what
the others do is up to the program.
-/

namespace Starlight

namespace ForBinding

open ByteCompiler

variable {ε γ : Type}

/-- Operands: an environment is known by its distance from that of the frame. -/
inductive Operand where
  | val (v : JsValue)
  | env (depth : ℕ)
  | global

/-- A variable of an environment. -/
structure Slot where
  value : Operand
  mutable : Bool

/-- The environments of a frame, the innermost first, the assignments that the loop has made, and the rest of
the heap, with the global object. -/
structure Memory (γ : Type) where
  slots : (depth index : ℕ) → Slot
  assigned : List (Access × Operand)
  rest : γ

inductive Fault (ε : Type) where
  | immutable
  | thrown (e : ε)
  | invalid

namespace Memory

variable (m : Memory γ)

/-- Give a variable a new value. -/
def setSlot (depth index : ℕ) (slot : Slot) : Memory γ :=
  { m with slots := fun d i => if d = depth ∧ i = index then slot else m.slots d i }

/-- `OP_DECL_LET` and `OP_DECL_CONST`. -/
def declare (index : ℕ) (v : Operand) (mutable : Bool) : Memory γ := m.setSlot 0 index ⟨v, mutable⟩

/-- Whatever it was, the variable has the value now. -/
def setValue (depth index : ℕ) (v : Operand) : Memory γ :=
  { m.setSlot depth index ⟨v, (m.slots depth index).mutable⟩ with
    assigned := m.assigned ++ [(.variable index depth, v)] }

/-- The assignment to a name: to a variable, or to a property of the global object. -/
def assign (put : String → Operand → γ → Except ε γ) (acc : Access) (v : Operand) :
    Except (Fault ε) (Memory γ) :=
  match acc with
  | .variable index depth =>
    if (m.slots depth index).mutable then .ok (m.setValue depth index v) else .error .immutable
  | .global x =>
    match put x v m.rest with
    | .ok rest => .ok { m with rest := rest, assigned := m.assigned ++ [(acc, v)] }
    | .error e => .error (.thrown e)
  | _ => .error .invalid

/-- What is accessed may be assigned to. -/
def isMutable : Access → Bool
  | .variable index depth => (m.slots depth index).mutable
  | _ => true

end Memory

/-! ### Instructions -/

/-- The instructions of heads and stores; `names` is the table of names, `put` what `OP_PUT_BY_ID` does to the
global object. -/
def step (put : String → Operand → γ → Except ε γ) (names : List Symbol) :
    Instr → List Operand × Memory γ → Except (Fault ε) (List Operand × Memory γ)
  | .pushUndef, (stack, m) => .ok (.val .undefined :: stack, m)
  | .getEnv depth, (stack, m) => .ok (.env depth :: stack, m)
  | .globalThis, (stack, m) => .ok (.global :: stack, m)
  | .declLet index, (v :: stack, m) => .ok (stack, m.declare index v true)
  | .declConst index, (v :: stack, m) => .ok (stack, m.declare index v false)
  | .ge0sl index, (v :: stack, m) => (m.assign put (.variable index 0) v).map fun m => (stack, m)
  | .setLocal index, (.env depth :: v :: stack, m) =>
    (m.assign put (.variable index depth) v).map fun m => (stack, m)
  | .putById name _, (.global :: v :: stack, m) =>
    match names[name]? with
    | some (.key x) => (m.assign put (.global x) v).map fun m => (stack, m)
    | _ => .error .invalid
  | _, _ => .error .invalid

def run (put : String → Operand → γ → Except ε γ) (names : List Symbol) :
    List Instr → List Operand × Memory γ → Except (Fault ε) (List Operand × Memory γ)
  | [], c => .ok c
  | i :: code, c => (step put names i c).bind (run put names code)

/-! ### Loops -/

/-- A head that binds one variable. -/
inductive Head where
  | decl (kind : VarDeclKind) (name : String)
  | ident (name : String)

def Head.name : Head → String
  | decl _ name => name
  | ident name => name

/-- The head as it is in the syntax tree. -/
def Head.left : Head → ForHead
  | decl kind name => .decl kind [.mk (some name) none]
  | ident name => .ident name

def Emits {α : Type} (x : Comp α) (s : ByteCompiler) (code : List Instr) (a : α) (s' : ByteCompiler) :
    Prop :=
  x s = .ok a s' ∧ s'.code = s.code ++ code

/-- A loop as it is compiled: the states of the compiler before the statement, at its head and behind it,
and where the value of an iteration is stored. -/
structure ForLoop (cx : Ctx) where
  head : Head
  outer : ByteCompiler
  inner : ByteCompiler
  declared : ByteCompiler
  store : ByteCompiler
  stored : ByteCompiler
  headCode : List Instr
  storeCode : List Instr
  emitsHead : Emits (headName (compileHead cx head.left) head.left) inner headCode head.name declared
  sameScopes : store.scope = declared.scope ∧ store.parents = declared.parents
  emitsStore : Emits (setVariable head.name) store storeCode () stored

namespace ForLoop

variable {cx : Ctx} (L : ForLoop cx)

/-- What the body means by the name. -/
def seen : Access := accessVar L.head.name L.stored

/-- What the name means outside of the loop. -/
def outside : Access := accessVar L.head.name L.outer

/-- What an iteration should do with a value: `let` and `const` have a new binding each time, `var` and a bare
identifier are assigned to. -/
def bind (put : String → Operand → γ → Except ε γ) (v : Operand) (m : Memory γ) :
    Except (Fault ε) (Memory γ) :=
  match L.head, L.seen with
  | .decl .var _, acc => m.assign put acc v
  | .decl _ _, .variable index depth => .ok (m.setValue depth index v)
  | .decl _ _, _ => .error .invalid
  | .ident _, _ => m.assign put L.outside v

end ForLoop

/-- Code of the program, from which the loop does not always come back. It declares other variables than that
of the loop. -/
structure Effect (γ : Type) (acc : Access) where
  run : Memory γ → Option (Memory γ)
  keeps : ∀ m m', run m = some m' → m'.isMutable acc = m.isMutable acc

namespace ForLoop

variable {cx : Ctx} (L : ForLoop cx)

/-- Each of the iterations stores its value where it should. -/
def Iterates (put : String → Operand → γ → Except ε γ) (body : Effect γ L.seen) :
    List JsValue → List Operand → Memory γ → Prop
  | [], _, _ => True
  | v :: vs, stack, m =>
    run put L.stored.names L.storeCode (.val v :: stack, m) =
        (L.bind put (.val v) m).map (fun m => (stack, m)) ∧
      ∀ m₁, L.bind put (.val v) m = .ok m₁ → ∀ m₂, body.run m₁ = some m₂ →
        Iterates put body vs stack m₂

def Starts (put : String → Operand → γ → Except ε γ) (right : Effect γ L.seen) (m m' : Memory γ) : Prop :=
  ∃ stack stack' m₁, run put L.declared.names L.headCode (stack, m) = .ok (stack', m₁) ∧
    right.run m₁ = some m'

/-- The loop, if its expression produces the values `vs`. -/
def Binds (put : String → Operand → γ → Except ε γ) (right body : Effect γ L.seen) (vs : List JsValue)
    (m : Memory γ) : Prop :=
  ∀ m', L.Starts put right m m' → ∀ stack, L.Iterates put body vs stack m'

end ForLoop

/-! ### The code of a store -/

section Store

variable {put : String → Operand → γ → Except ε γ} {names : List Symbol} {m m' : Memory γ} {v : Operand}
  {stack : List Operand} {s : ByteCompiler} {acc : Access}

theorem getSym_eq (name : Symbol) (s : ByteCompiler) :
    ∃ ix s', getSym name s = .ok ix s' ∧ s'.code = s.code ∧ s'.names[ix]? = some name := by
  unfold getSym
  cases h : s.names.idxOf? name with
  | some ix =>
    obtain ⟨hlt, hget, -⟩ := List.idxOf?_eq_some_iff.mp h
    refine ⟨ix, s, rfl, rfl, ?_⟩
    rw [List.getElem?_eq_getElem hlt]
    exact congrArg some hget
  | none => exact ⟨s.names.length, _, rfl, rfl, List.getElem?_concat_length⟩

theorem accessVar_cases (name : String) (s : ByteCompiler) :
    (∃ index depth, accessVar name s = .variable index depth) ∨ accessVar name s = .global name := by
  unfold accessVar
  cases lookupScope name (s.scope :: s.parents) with
  | some found => exact .inl ⟨found.1, _, rfl⟩
  | none => exact .inr rfl

theorem emits_setVariable (name : String) (s : ByteCompiler) :
    ∃ code s', Emits (setVariable name) s code () s' ∧
      ∀ put : String → Operand → γ → Except ε γ, ∀ v stack (m : Memory γ),
        run put s'.names code (v :: stack, m) =
          (m.assign put (accessVar name s) v).map fun m => (stack, m) := by
  unfold setVariable Emits
  rw [Exec.gets_bind]
  rcases accessVar_cases name s with ⟨index, depth, hacc⟩ | hacc
  · rw [hacc, accessSet, emitSetLocal]
    by_cases hdepth : depth = 0
    · subst hdepth
      refine ⟨[.ge0sl index], _, ⟨rfl, rfl⟩, fun put v stack m => ?_⟩
      rw [run, step]
      cases m.assign put (.variable index 0) v <;> rfl
    · rw [if_neg hdepth]
      refine ⟨[.getEnv depth, .setLocal index], _, ⟨rfl, List.append_assoc _ _ _⟩, fun put v stack m => ?_⟩
      rw [run, step, Except.bind, run, step]
      cases m.assign put (.variable index depth) v <;> rfl
  · rw [hacc, accessSet]
    obtain ⟨ix, s', hsym, hcode, hget⟩ := getSym_eq (.key name) s
    rw [Exec.bind_of_ok hsym]
    refine ⟨[.globalThis, .putById ix s'.feedback], _, ⟨rfl, ?_⟩, fun put v stack m => ?_⟩
    · exact (List.append_assoc _ _ _).trans (congrArg (· ++ _) hcode)
    · have hput : step put s'.names (.putById ix s'.feedback) (.global :: v :: stack, m) =
          (m.assign put (.global name) v).map fun m => (stack, m) := by
        rw [step, hget]
      rw [run, step, Except.bind, run]
      refine (congrArg (Except.bind · _) hput).trans ?_
      cases m.assign put (.global name) v <;> rfl

end Store

/-! ### The code of a head -/

theorem accessVar_congr {s s' : ByteCompiler} (name : String) (hscope : s'.scope = s.scope)
    (hparents : s'.parents = s.parents) : accessVar name s' = accessVar name s := by
  unfold accessVar
  rw [hscope, hparents]

theorem allocLet_eq (name : String) (s : ByteCompiler) :
    ∃ ix s', allocLet name s = .ok ix s' ∧ s'.code = s.code ∧ accessVar name s' = .variable ix 0 := by
  unfold allocLet
  rw [Exec.gets_bind]
  cases s.variableFreelist with
  | nil | cons ix rest =>
    refine ⟨_, _, rfl, rfl, ?_⟩
    simp [accessVar, lookupScope]

variable {cx : Ctx}

theorem headName_let (cx : Ctx) (name : String) (s : ByteCompiler) :
    ∃ ix s', Emits (headName (compileHead cx (Head.decl .let_ name).left) (Head.decl .let_ name).left) s
      [.pushUndef, .declLet ix] name s' ∧ accessVar name s' = .variable ix 0 := by
  obtain ⟨ix, s', halloc, hcode, hacc⟩ := allocLet_eq name s
  refine ⟨ix, { s' with code := s'.code ++ [.pushUndef] ++ [.declLet ix] }, ⟨?_, ?_⟩, ?_⟩
  · rw [Head.left, compileHead, compileDecls, compileDecls, compileOpt, headName, declarator]
    simp only [Exec.bind_bind]
    rw [Exec.bind_of_ok halloc]
    rfl
  · exact (List.append_assoc _ _ _).trans (congrArg (· ++ _) hcode)
  · exact (accessVar_congr name rfl rfl).trans hacc

theorem headName_ident (cx : Ctx) (name : String) (s : ByteCompiler) :
    ∃ ix s', Emits (headName (compileHead cx (Head.ident name).left) (Head.ident name).left) s
      [.pushUndef, .getEnv 0, .declLet ix] name s' ∧ accessVar name s' = .variable ix 0 := by
  obtain ⟨ix, s', halloc, hcode, hacc⟩ :=
    allocLet_eq name { s with code := s.code ++ [.pushUndef] ++ [.getEnv 0] }
  refine ⟨ix, { s' with code := s'.code ++ [.declLet ix] }, ⟨?_, ?_⟩, ?_⟩
  · show (declLet name >>= fun _ => pure name) _ = _
    rw [declLet, Exec.bind_bind, Exec.bind_of_ok halloc]
    rfl
  · show s'.code ++ [.declLet ix] = _
    rw [hcode]
    simp
  · exact (accessVar_congr name rfl rfl).trans hacc

theorem headName_const {cx : Ctx} {name name' : String} {s s' : ByteCompiler}
    (hok : headName (compileHead cx (Head.decl .const name).left) (Head.decl .const name).left s =
      .ok name' s') :
    ∃ ix depth, accessVar name s' = .variable ix depth ∧
      Emits (headName (compileHead cx (Head.decl .const name).left) (Head.decl .const name).left) s
        [.pushUndef, .declConst ix] name s' := by
  have hhead : headName (compileHead cx (Head.decl .const name).left) (Head.decl .const name).left s =
      (declConst name >>= fun _ => pure name) { s with code := s.code ++ [.pushUndef] } := by
    rw [Head.left, compileHead, compileDecls, compileDecls, compileOpt, headName, declarator.eq_def]
    simp only [bindDeclarator, Exec.bind_bind]
    rfl
  rw [hhead, declConst, Exec.bind_bind, Exec.gets_bind] at hok
  unfold Emits
  rw [hhead, declConst, Exec.bind_bind, Exec.gets_bind]
  cases hfound : lookupScope name (s.scope :: s.parents) with
  | none =>
    rw [hfound] at hok
    cases hok
  | some found =>
    rw [hfound] at hok
    cases hok
    refine ⟨found.1, s.scope.depth - found.2, ?_, rfl, List.append_assoc _ _ _⟩
    simp only [accessVar, hfound]

theorem emits_headName {cx : Ctx} {head : Head} {name : String} {s s' : ByteCompiler}
    (hok : headName (compileHead cx head.left) head.left s = .ok name s') :
    ∃ code, Emits (headName (compileHead cx head.left) head.left) s code head.name s' := by
  cases head with
  | ident name' =>
    obtain ⟨ix, s₁, hemits, -⟩ := headName_ident cx name' s
    cases hemits.1.symm.trans hok
    exact ⟨_, hemits⟩
  | decl kind name' =>
    cases kind with
    | let_ =>
      obtain ⟨ix, s₁, hemits, -⟩ := headName_let cx name' s
      cases hemits.1.symm.trans hok
      exact ⟨_, hemits⟩
    | const =>
      obtain ⟨ix, depth, -, hemits⟩ := headName_const hok
      exact ⟨_, hemits⟩
    | var =>
      obtain ⟨code, s₁, ⟨hset, hcode⟩, -⟩ :=
        @emits_setVariable Unit Unit name' { s with code := s.code ++ [.pushUndef] }
      have hhead : headName (compileHead cx (Head.decl .var name').left) (Head.decl .var name').left s =
          .ok name' s₁ := by
        rw [Head.left, compileHead, compileDecls, compileDecls, compileOpt, headName, declarator.eq_def]
        simp only [bindDeclarator, Exec.bind_bind]
        exact Exec.bind_of_ok hset _
      cases hhead.symm.trans hok
      exact ⟨.pushUndef :: code, hhead, hcode.trans (List.append_assoc _ _ _)⟩

/-! ### Loops -/

namespace Memory

variable {put : String → Operand → γ → Except ε γ} {m m' : Memory γ} {v : Operand} {acc acc' : Access}

theorem isMutable_declare (index depth ix : ℕ) (v : Operand) (mutable : Bool) :
    (m.declare index v mutable).isMutable (.variable ix depth) =
      if depth = 0 ∧ ix = index then mutable else (m.slots depth ix).mutable := by
  unfold declare setSlot isMutable
  dsimp only
  split <;> rfl

theorem isMutable_setValue (depth index : ℕ) (acc : Access) :
    (m.setValue depth index v).isMutable acc = m.isMutable acc := by
  match acc with
  | .variable i d =>
    unfold setValue setSlot isMutable
    dsimp only
    split
    · next h =>
      obtain ⟨rfl, rfl⟩ := h
      rfl
    · rfl
  | .global _ | .byId _ | .byVal | .this => rfl

theorem isMutable_assign (h : m.assign put acc v = .ok m') (acc' : Access) :
    m'.isMutable acc' = m.isMutable acc' := by
  match acc, h with
  | .variable index depth, h =>
    rw [assign] at h
    split at h
    · cases h
      exact isMutable_setValue depth index acc'
    · cases h
  | .global x, h =>
    rw [assign] at h
    split at h <;> cases h
    cases acc' <;> rfl

theorem eq_of_assign (h : m.assign put acc v = .ok m') (h' : m.assign put acc' v = .ok m') : acc = acc' := by
  have hrecord : ∀ acc, m.assign put acc v = .ok m' → m'.assigned = m.assigned ++ [(acc, v)] := by
    intro acc h
    match acc, h with
    | .variable index depth, h =>
      rw [assign] at h
      split at h <;> cases h
      rfl
    | .global x, h =>
      rw [assign] at h
      split at h <;> cases h
      rfl
  have hlast := List.append_cancel_left ((hrecord acc h).symm.trans (hrecord acc' h'))
  exact (Prod.mk.inj (List.singleton_inj.mp hlast)).1

end Memory

namespace ForLoop

variable {cx : Ctx} (L : ForLoop cx)

theorem accessVar_store : accessVar L.head.name L.store = L.seen :=
  (accessVar_congr _ ((fine_setVariable _).2 trivial _ _ _ L.emitsStore.1).1
    ((fine_setVariable _).2 trivial _ _ _ L.emitsStore.1).2).symm

theorem accessVar_declared : accessVar L.head.name L.declared = L.seen :=
  (accessVar_congr _ L.sameScopes.1 L.sameScopes.2).symm.trans L.accessVar_store

theorem run_store (put : String → Operand → γ → Except ε γ) (v : Operand) (stack : List Operand)
    (m : Memory γ) : run put L.stored.names L.storeCode (v :: stack, m) =
      (m.assign put L.seen v).map fun m => (stack, m) := by
  obtain ⟨code, s', ⟨hok, hcode⟩, hrun⟩ := emits_setVariable L.head.name L.store (ε := ε) (γ := γ)
  obtain ⟨hok', hcode'⟩ := L.emitsStore
  cases hok.symm.trans hok'
  rw [← List.append_cancel_left (hcode.symm.trans hcode'), hrun, L.accessVar_store]

theorem run_head (put : String → Operand → γ → Except ε γ) :
    match L.head with
    | .decl .var _ => True
    | .decl .const _ => ∃ ix depth, L.seen = .variable ix depth ∧ ∀ stack (m : Memory γ),
      run put L.declared.names L.headCode (stack, m) = .ok (stack, m.declare ix (.val .undefined) false)
    | .decl .let_ _ => ∃ ix, L.seen = .variable ix 0 ∧ ∀ stack (m : Memory γ),
      run put L.declared.names L.headCode (stack, m) = .ok (stack, m.declare ix (.val .undefined) true)
    | .ident _ => ∃ ix, L.seen = .variable ix 0 ∧ ∀ stack (m : Memory γ),
      run put L.declared.names L.headCode (stack, m) =
        .ok (.val .undefined :: stack, m.declare ix (.env 0) true) := by
  have hemits := L.emitsHead
  have hseen := L.accessVar_declared
  cases hhead : L.head with
  | ident name =>
    rw [hhead] at hemits hseen
    obtain ⟨ix, s', hemits', hacc⟩ := headName_ident cx name L.inner
    cases hemits'.1.symm.trans hemits.1
    refine ⟨ix, hseen.symm.trans hacc, fun stack m => ?_⟩
    rw [← List.append_cancel_left (hemits'.2.symm.trans hemits.2)]
    rfl
  | decl kind name =>
    rw [hhead] at hemits hseen
    cases kind with
    | var => trivial
    | let_ =>
      obtain ⟨ix, s', hemits', hacc⟩ := headName_let cx name L.inner
      cases hemits'.1.symm.trans hemits.1
      refine ⟨ix, hseen.symm.trans hacc, fun stack m => ?_⟩
      rw [← List.append_cancel_left (hemits'.2.symm.trans hemits.2)]
      rfl
    | const =>
      obtain ⟨ix, depth, hacc, hemits'⟩ := headName_const hemits.1
      refine ⟨ix, depth, hseen.symm.trans hacc, fun stack m => ?_⟩
      rw [← List.append_cancel_left (hemits'.2.symm.trans hemits.2)]
      rfl

/-- Whether an iteration stores its value where it should, from whether the variable may be assigned to. -/
def Stores (mutable : Bool) : Prop :=
  match L.head with
  | .decl .var _ => True
  | .decl _ _ => mutable = true
  | .ident _ => L.outside = L.seen

variable {L} {put : String → Operand → γ → Except ε γ} {right body : Effect γ L.seen} {m m' : Memory γ}

/-- A head that declares a new variable leaves one; a bare identifier leaves one that may be assigned
to. -/
def Ready (L : ForLoop cx) (m : Memory γ) : Prop :=
  match L.head with
  | .decl .var _ => True
  | .decl _ _ => ∃ ix depth, L.seen = .variable ix depth
  | .ident _ => ∃ ix depth, L.seen = .variable ix depth ∧ m.isMutable (.variable ix depth) = true

theorem Ready.congr (h : L.Ready m) (heq : m'.isMutable L.seen = m.isMutable L.seen) : L.Ready m' := by
  unfold Ready at h ⊢
  cases hhead : L.head with
  | ident name =>
    rw [hhead] at h
    obtain ⟨ix, depth, hseen, hmutable⟩ := h
    exact ⟨ix, depth, hseen, by rw [← hseen, heq, hseen, hmutable]⟩
  | decl kind name =>
    rw [hhead] at h
    cases kind <;> exact h

theorem isMutable_bind {v : Operand} (h : L.bind put v m = .ok m') (acc : Access) :
    m'.isMutable acc = m.isMutable acc := by
  unfold bind at h
  split at h
  · exact Memory.isMutable_assign h acc
  · cases h
    exact Memory.isMutable_setValue _ _ acc
  · cases h
  · exact Memory.isMutable_assign h acc

theorem run_store_iff (h : L.Ready m) (v : Operand) (stack : List Operand) :
    run put L.stored.names L.storeCode (v :: stack, m) = (L.bind put v m).map (fun m => (stack, m)) ↔
      L.Stores (m.isMutable L.seen) := by
  rw [run_store]
  unfold Ready at h
  unfold Stores bind
  cases hhead : L.head with
  | ident name =>
    rw [hhead] at h
    obtain ⟨ix, depth, hseen, hmutable⟩ := h
    dsimp only
    constructor
    · intro heq
      -- the store succeeds, so the assignment outside would have to be the same
      have hstore : m.assign put L.seen v = .ok (m.setValue depth ix v) := by
        rw [hseen]
        exact if_pos hmutable
      rw [hstore] at heq
      cases houtside : m.assign put L.outside v with
      | error e =>
        rw [houtside] at heq
        cases heq
      | ok m' =>
        rw [houtside] at heq
        cases heq
        exact Memory.eq_of_assign houtside hstore
    · intro heq
      rw [heq]
  | decl kind name =>
    rw [hhead] at h
    cases kind with
    | var => exact iff_of_true rfl trivial
    | let_ | const =>
      obtain ⟨ix, depth, hseen⟩ := h
      rw [hseen, Memory.assign]
      dsimp only [Memory.isMutable]
      cases (m.slots depth ix).mutable with
      | true => exact iff_of_true rfl rfl
      | false => exact iff_of_false nofun Bool.false_ne_true

theorem iterates_iff (h : L.Ready m) (vs : List JsValue) (stack : List Operand) :
    L.Iterates put body vs stack m ↔ vs = [] ∨ L.Stores (m.isMutable L.seen) := by
  induction vs generalizing m with
  | nil => exact iff_of_true trivial (.inl rfl)
  | cons v vs ih =>
    rw [Iterates, run_store_iff h, or_iff_right (List.cons_ne_nil v vs)]
    refine and_iff_left_of_imp fun hstores m₁ hbind m₂ hbody => ?_
    have hkept : m₂.isMutable L.seen = m.isMutable L.seen :=
      (body.keeps m₁ m₂ hbody).trans (isMutable_bind hbind _)
    exact (ih (h.congr hkept)).mpr (.inr (hkept ▸ hstores))

/-- The head declares the variable in the environment of the frame, where nothing else declares it. -/
def BindsHead (m : Memory γ) : Prop :=
  match L.head with
  | .decl .const _ => ∃ ix depth, L.seen = .variable ix depth ∧ depth ≠ 0 ∧ (m.slots depth ix).mutable = true
  | .decl _ _ => True
  | .ident _ => L.outside = L.seen

theorem ready_of_starts (h : L.Starts put right m m') : L.Ready m' := by
  obtain ⟨stack, stack', m₁, hrun, hright⟩ := h
  have hkept := right.keeps m₁ m' hright
  have hhead := L.run_head put
  unfold Ready
  cases hkind : L.head with
  | ident name =>
    rw [hkind] at hhead
    obtain ⟨ix, hseen, hdeclare⟩ := hhead
    cases (hdeclare stack m).symm.trans hrun
    refine ⟨ix, 0, hseen, ?_⟩
    rw [← hseen, hkept, hseen, Memory.isMutable_declare, if_pos ⟨rfl, rfl⟩]
  | decl kind name =>
    rw [hkind] at hhead
    cases kind with
    | var => trivial
    | let_ =>
      obtain ⟨ix, hseen, -⟩ := hhead
      exact ⟨ix, 0, hseen⟩
    | const =>
      obtain ⟨ix, depth, hseen, -⟩ := hhead
      exact ⟨ix, depth, hseen⟩

theorem stores_iff_of_starts (h : L.Starts put right m m') :
    L.Stores (m'.isMutable L.seen) ↔ L.BindsHead m := by
  obtain ⟨stack, stack', m₁, hrun, hright⟩ := h
  rw [right.keeps m₁ m' hright]
  have hhead := L.run_head put
  unfold Stores BindsHead
  cases hkind : L.head with
  | ident name => exact Iff.rfl
  | decl kind name =>
    rw [hkind] at hhead
    cases kind with
    | var => exact Iff.rfl
    | let_ =>
      obtain ⟨ix, hseen, hdeclare⟩ := hhead
      cases (hdeclare stack m).symm.trans hrun
      rw [hseen, Memory.isMutable_declare, if_pos ⟨rfl, rfl⟩]
      exact iff_of_true rfl trivial
    | const =>
      obtain ⟨ix, depth, hseen, hdeclare⟩ := hhead
      cases (hdeclare stack m).symm.trans hrun
      rw [hseen, Memory.isMutable_declare]
      dsimp only
      constructor
      · intro hmutable
        by_cases hdepth : depth = 0
        · rw [if_pos ⟨hdepth, rfl⟩] at hmutable
          cases hmutable
        · rw [if_neg fun h => hdepth h.1] at hmutable
          exact ⟨ix, depth, rfl, hdepth, hmutable⟩
      · rintro ⟨_, _, ⟨⟩, hdepth, hmutable⟩
        rw [if_neg fun h => hdepth h.1, hmutable]

/-- **The variable of a loop.** Each iteration stores its value in the binding that the body sees, and in that
outside of the loop for a bare identifier, exactly if there are no iterations, or the head declares a `let` or
`var`, or it is a bare identifier that is given the index it has already, or a `const` whose name means a
variable of a function around, which is not the one that is made immutable. -/
theorem binds_iff (L : ForLoop cx) (put : String → Operand → γ → Except ε γ) (right body : Effect γ L.seen)
    (vs : List JsValue) (m : Memory γ) : L.Binds put right body vs m ↔
      vs = [] ∨ (∀ m', ¬ L.Starts put right m m') ∨ L.BindsHead m := by
  have hiterates : ∀ m', L.Starts put right m m' →
      ((∀ stack, L.Iterates put body vs stack m') ↔ vs = [] ∨ L.BindsHead m) := fun m' hstarts => by
    rw [← stores_iff_of_starts hstarts]
    exact ⟨fun h => (iterates_iff (ready_of_starts hstarts) vs []).mp (h []),
      fun h stack => (iterates_iff (ready_of_starts hstarts) vs stack).mpr h⟩
  constructor
  · intro hbinds
    by_cases hno : ∀ m', ¬ L.Starts put right m m'
    · exact .inr (.inl hno)
    · obtain ⟨m', hstarts⟩ := not_forall_not.mp hno
      exact ((hiterates m' hstarts).mp (hbinds m' hstarts)).imp_right .inr
  · rintro (hvs | hno | hhead) m' hstarts
    · exact (hiterates m' hstarts).mpr (.inl hvs)
    · exact absurd hstarts (hno m')
    · exact (hiterates m' hstarts).mpr (.inr hhead)

/-! ### The loops of a program -/

theorem exists_forLoop {α : Type} {head : Head} {name : String} (outer : ByteCompiler)
    {inner declared store stored : ByteCompiler}
    (hhead : headName (compileHead cx head.left) head.left inner = .ok name declared) {x : Comp α} {a : α}
    (hx : KeepsScopes x) (hright : x declared = .ok a store)
    (hstore : setVariable name store = .ok () stored) :
    ∃ L : ForLoop cx, L.head = head ∧ L.outer = outer ∧ L.inner = inner := by
  obtain ⟨headCode, hemits⟩ := emits_headName hhead
  cases hemits.1.symm.trans hhead
  obtain ⟨storeCode, s', hset, -⟩ := @emits_setVariable Unit Unit head.name store
  cases hset.1.symm.trans hstore
  exact ⟨⟨head, outer, inner, declared, store, _, headCode, storeCode, hemits, hx _ _ _ hright, hset⟩, rfl,
    rfl, rfl⟩

theorem keepsScopes_pushLci : KeepsScopes pushLci := keepsScopes_modify (fun _ => rfl) fun _ => rfl

/-- What a `for`-`in` loop compiles between its head and the store of a value. -/
def forInBefore (cx : Ctx) (right : Expr) : Comp (Patch × ℕ × Patch) := do
  compileExpr cx true false right
  let setup ← jmpCustom .forinSetup
  let top ← Exec.gets size
  pushLci
  let enumerate ← jmpCustom .forinEnumerate
  return (setup, top, enumerate)

theorem keepsScopes_forInBefore (cx : Ctx) (right : Expr) : KeepsScopes (forInBefore cx right) :=
  .seq ((fine_compileExpr cx true false right).2 trivial) fun _ => .seq (keepsScopes_hole _ _) fun _ =>
    .seq (keepsScopes_gets _) fun _ => .seq keepsScopes_pushLci fun _ =>
    .seq (keepsScopes_hole _ _) fun _ => keepsScopes_pure _

/-- What a `for`-`of` loop compiles there. -/
def forOfBefore (cx : Ctx) (right : Expr) : Comp (ℕ × Patch) := do
  let iterator ← getSym symbolIterator
  let next ← getSym (.key "next")
  let done ← getSym (.key "done")
  let value ← getSym (.key "value")
  compileExpr cx true false right
  emit .dup
  emitFeedback (.getById false iterator)
  emit (.call false 0)
  let top ← Exec.gets size
  pushLci
  emit .dup
  emit .dup
  emitFeedback (.getById false next)
  emit (.call false 0)
  emit .dup
  emitFeedback (.getById false done)
  let stop ← cjmp true
  emitFeedback (.getById false value)
  return (top, stop)

theorem keepsScopes_forOfBefore (cx : Ctx) (right : Expr) : KeepsScopes (forOfBefore cx right) :=
  .seq (keepsScopes_getSym _) fun _ => .seq (keepsScopes_getSym _) fun _ =>
    .seq (keepsScopes_getSym _) fun _ => .seq (keepsScopes_getSym _) fun _ =>
    .seq ((fine_compileExpr cx true false right).2 trivial) fun _ => .seq (keepsScopes_emit _) fun _ =>
    .seq (keepsScopes_emitFeedback _) fun _ => .seq (keepsScopes_emit _) fun _ =>
    .seq (keepsScopes_gets _) fun _ => .seq keepsScopes_pushLci fun _ =>
    .seq (keepsScopes_emit _) fun _ => .seq (keepsScopes_emit _) fun _ =>
    .seq (keepsScopes_emitFeedback _) fun _ => .seq (keepsScopes_emit _) fun _ =>
    .seq (keepsScopes_emit _) fun _ => .seq (keepsScopes_emitFeedback _) fun _ =>
    .seq (keepsScopes_hole _ _) fun _ => .seq (keepsScopes_emitFeedback _) fun _ => keepsScopes_pure _

/-- A loop that compiles `before` between its head and the store of a value. -/
theorem exists_forLoop_of_code {β : Type} {head : Head} {stmt : Stmt} {hoisted loop : Comp Unit}
    {before : Comp β} {k : β → Comp Unit} {outer s' : ByteCompiler} (hbefore : KeepsScopes before)
    (h : (do pushScope; analyzeWith cx [stmt] hoisted; loop) outer = .ok () s')
    (hloop : loop = do
      let name ← headName (compileHead cx head.left) head.left
      let x ← before
      setVariable name
      k x) :
    ∃ (L : ForLoop cx) (hoisted : Comp Unit), L.head = head ∧ L.outer = outer ∧
      (do pushScope; analyzeWith cx [stmt] hoisted) outer = .ok () L.inner := by
  subst hloop
  obtain ⟨_, s₁, hopen, h⟩ := Exec.bind_eq_ok h
  obtain ⟨_, inner, hanalyze, h⟩ := Exec.bind_eq_ok h
  obtain ⟨name, declared, hhead, h⟩ := Exec.bind_eq_ok h
  obtain ⟨_, store, hrun, h⟩ := Exec.bind_eq_ok h
  obtain ⟨_, stored, hstore, -⟩ := Exec.bind_eq_ok h
  obtain ⟨L, hleft, houter, hinner⟩ := exists_forLoop outer hhead hbefore hrun hstore
  refine ⟨L, hoisted, hleft, houter, ?_⟩
  rw [hinner, Exec.bind_of_ok hopen]
  exact hanalyze

theorem exists_forLoop_forIn {head : Head} {right : Expr} {body : Stmt} {outer s' : ByteCompiler}
    (h : compileStmt cx (.forIn head.left right body) outer = .ok () s') :
    ∃ (L : ForLoop cx) (hoisted : Comp Unit), L.head = head ∧ L.outer = outer ∧
      (do pushScope; analyzeWith cx [.forIn head.left right body] hoisted) outer = .ok () L.inner := by
  rw [compileStmt] at h
  refine exists_forLoop_of_code (k := fun (setup, top, enumerate) => do
    compileStmt cx body
    patchContinues
    goto top
    patch enumerate
    patch setup
    popScope cx
    emit .forinLeave
    popLci) (keepsScopes_forInBefore cx right) h ?_
  simp only [forInWith, forInBefore, Exec.bind_bind]
  rfl

theorem exists_forLoop_forOf {head : Head} {right : Expr} {body : Stmt} {outer s' : ByteCompiler}
    (h : compileStmt cx (.forOf head.left right body) outer = .ok () s') :
    ∃ (L : ForLoop cx) (hoisted : Comp Unit), L.head = head ∧ L.outer = outer ∧
      (do pushScope; analyzeWith cx [.forOf head.left right body] hoisted) outer = .ok () L.inner := by
  rw [compileStmt] at h
  refine exists_forLoop_of_code (k := fun (top, stop) => do
    compileStmt cx body
    patchContinues
    goto top
    patch stop
    popScope cx
    emit .pop
    popLci) (keepsScopes_forOfBefore cx right) h ?_
  simp only [forOfWith, forOfBefore, Exec.bind_bind]
  rfl

end ForLoop

/-! ### Loops that go wrong -/

def withX (kind : VariableKind) (scopes : List Scope) : ByteCompiler :=
  { start "f" false false false with
    varCount := 1
    scope := ⟨(∅ : AList fun _ : String => Variable).insert "x" ⟨0, kind, true⟩, 0⟩
    parents := scopes }

/-- `for (const x of e)`. -/
def constLoop (cx : Ctx) : ForLoop cx where
  head := .decl .const "x"
  outer := start "f" false false false
  inner := withX .const [⟨∅, 0⟩]
  declared := { withX .const [⟨∅, 0⟩] with code := [.pushUndef, .declConst 0] }
  store := { withX .const [⟨∅, 0⟩] with code := [.pushUndef, .declConst 0] }
  stored := { withX .const [⟨∅, 0⟩] with code := [.pushUndef, .declConst 0, .ge0sl 0] }
  headCode := [.pushUndef, .declConst 0]
  storeCode := [.ge0sl 0]
  emitsHead := by
    refine ⟨?_, rfl⟩
    rw [Head.left, compileHead, compileDecls, compileDecls, compileOpt]
    rfl
  sameScopes := ⟨rfl, rfl⟩
  emitsStore := ⟨rfl, rfl⟩

/-- The same inside of a loop that has declared an `x` of its own. -/
def withOwnX (code : List Instr) : ByteCompiler :=
  { withX .var [] with
    code := code
    varCount := 2
    scope := ⟨(∅ : AList fun _ : String => Variable).insert "x" ⟨1, .let_, true⟩, 0⟩
    parents := [(withX .var []).scope]
    bindings := [⟨"x", 1⟩] }

/-- `for (x of e)`, where `x` is a variable of the function. -/
def identLoop (cx : Ctx) : ForLoop cx where
  head := .ident "x"
  outer := withX .var []
  inner := { withX .var [] with scope := ⟨∅, 0⟩, parents := [(withX .var []).scope] }
  declared := withOwnX [.pushUndef, .getEnv 0, .declLet 1]
  store := withOwnX [.pushUndef, .getEnv 0, .declLet 1]
  stored := withOwnX [.pushUndef, .getEnv 0, .declLet 1, .ge0sl 1]
  headCode := [.pushUndef, .getEnv 0, .declLet 1]
  storeCode := [.ge0sl 1]
  emitsHead := ⟨rfl, rfl⟩
  sameScopes := ⟨rfl, rfl⟩
  emitsStore := ⟨rfl, rfl⟩

/-- Code that does nothing. -/
def Effect.idle (acc : Access) : Effect Unit acc := ⟨some, fun _ _ h => by cases h; rfl⟩

/-- No variable has a value yet. -/
def fresh : Memory Unit := ⟨fun _ _ => ⟨.val .undefined, true⟩, [], ()⟩

/-- With one value, `for (const x of e)` throws, and `for (x of e)` assigns to a new variable. -/
theorem not_binds :
    let put : String → Operand → Unit → Except Unit Unit := fun _ _ _ => .ok ()
    ¬ (constLoop plainCtx).Binds put (.idle _) (.idle _) [.null] fresh ∧
      ¬ (identLoop plainCtx).Binds put (.idle _) (.idle _) [.null] fresh := by
  constructor
  · intro h
    have hstore := (h _ ⟨[], [], _, rfl, rfl⟩ []).1
    cases hstore
  · intro h
    have hstore := (h _ ⟨[], [.val .undefined], _, rfl, rfl⟩ []).1
    have hassigned := congrArg (fun r => r.toOption.map fun c => c.2.assigned) hstore
    cases hassigned

end ForBinding

end Starlight
