import Starlight.Lib.Exec
import Starlight.Vm.Equality

/-!
# Switch statements

The code of a `switch` keeps the discriminant on the stack. For each `case` it compares a copy with the test
by `OP_EQ`, and behind that lie the statements of the case and a jump, which goes to the statements of the
next `case`. The statements of `default` lie where they are written and nothing jumps there or over them.

So the comparison is not the strict one, a `default` that is followed by a `case` is run as soon as it is
reached and jumped over by the case before it, and a `continue` inside of the statement, whose jump is never
given a target, does nothing.

Here the code of a test or of a statement list is one instruction, and jumps count instructions.
-/

namespace Starlight

namespace Switch

open Exec Traced

/-- How a statement list ends. After a `continue` comes what the list does if that has no effect. -/
inductive Ending (ε σ : Type) where
  | normal (s : σ)
  | breaks (s : σ)
  | leaves (e : ε) (s : σ)
  | continues (s : σ) (after : Ending ε σ)
  | hangs

/-- A clause; `default` has no test. -/
structure Clause (ε σ : Type) where
  test : Option (Exec ε σ JsValue)
  cons : σ → Ending ε σ

/-- The parts of a statement that are run. -/
inductive Part where
  | discriminant
  | test (i : ℕ)
  | cons (i : ℕ)
deriving DecidableEq

/-- Instructions. The breaks of a statement list jump `brk` instructions ahead. -/
inductive Op (ε σ : Type) where
  | expr (part : Part) (x : Exec ε σ JsValue)
  | cons (i : ℕ) (x : σ → Ending ε σ) (brk : ℕ)
  | dup
  | eq
  | pop
  | jmp (offset : ℕ)
  | jmpIfFalse (offset : ℕ)

variable {ε σ : Type}

/-! ### The compiler -/

/-- The code so far, and the statement lists whose breaks wait for their targets. -/
structure Asm (ε σ : Type) where
  code : List (Op ε σ)
  breaks : List ℕ

namespace Asm

def size (a : Asm ε σ) : ℕ := a.code.length

def emit (a : Asm ε σ) (op : Op ε σ) : Asm ε σ := { a with code := a.code ++ [op] }

/-- The code of a statement list. -/
def emitCons (a : Asm ε σ) (i : ℕ) (x : σ → Ending ε σ) : Asm ε σ :=
  { code := a.code ++ [.cons i x 0], breaks := a.breaks ++ [a.size] }

/-- The closures that `jmp` and `cjmp` return: the jump at `p` goes to the end of the code. -/
def patch (a : Asm ε σ) (p : ℕ) (op : ℕ → Op ε σ) : Asm ε σ :=
  { a with code := a.code.set p (op (a.size - (p + 1))) }

/-- The same for the breaks of a statement list. -/
def patchBreak (a : Asm ε σ) (p : ℕ) : Asm ε σ :=
  match a.code[p]? with
  | some (.cons i x _) => a.patch p fun brk => .cons i x brk
  | _ => a

def popLci (a : Asm ε σ) : Asm ε σ := a.breaks.foldr (fun p a => a.patchBreak p) a

end Asm

def compileCase (i : ℕ) (last : Option ℕ) (test : Exec ε σ JsValue) (cons : σ → Ending ε σ)
    (a : Asm ε σ) : ℕ × Asm ε σ :=
  let a := ((a.emit .dup).emit (.expr (.test i) test)).emit .eq
  let fail := a.size
  let a := a.emit (.jmp 0)
  let a := match last with
    | some j => a.patch j .jmp
    | none => a
  let a := a.emitCons i cons
  let j := a.size
  let a := a.emit (.jmp 0)
  (j, a.patch fail .jmpIfFalse)

/-- The loop over the clauses. -/
def compileCases (i : ℕ) (last : Option ℕ) : List (Clause ε σ) → Asm ε σ → Asm ε σ
  | [], a => a
  | ⟨some test, cons⟩ :: cs, a =>
    let (j, a) := compileCase i last test cons a
    compileCases (i + 1) (some j) cs a
  | ⟨none, cons⟩ :: cs, a => compileCases (i + 1) last cs (a.emitCons i cons)

def compileSwitch (disc : Exec ε σ JsValue) (cs : List (Clause ε σ)) : List (Op ε σ) :=
  (((compileCases 0 none cs (Asm.emit ⟨[], []⟩ (.expr .discriminant disc))).popLci).emit .pop).code

/-! ### What the code looks like -/

/-- How far from the code of the clauses on the statements of the next `case` are. -/
def nextCons : List (Clause ε σ) → Option ℕ
  | [] => none
  | ⟨some _, _⟩ :: _ => some 4
  | ⟨none, _⟩ :: cs => (nextCons cs).map (· + 1)

def casesSize : List (Clause ε σ) → ℕ
  | [] => 0
  | ⟨some _, _⟩ :: cs => casesSize cs + 6
  | ⟨none, _⟩ :: cs => casesSize cs + 1

def caseCode (i : ℕ) (test : Exec ε σ JsValue) (cons : σ → Ending ε σ) (brk next : ℕ) : List (Op ε σ) :=
  [.dup, .expr (.test i) test, .eq, .jmpIfFalse 2, .cons i cons brk, .jmp next]

/-- The code of the clauses; `brk` says whether the breaks have their targets. -/
def casesCode (brk : Bool) : ℕ → List (Clause ε σ) → List (Op ε σ)
  | _, [] => []
  | i, ⟨some test, cons⟩ :: cs =>
    caseCode i test cons (if brk then casesSize cs + 1 else 0) ((nextCons cs).getD 0) ++
      casesCode brk (i + 1) cs
  | i, ⟨none, cons⟩ :: cs =>
    .cons i cons (if brk then casesSize cs else 0) :: casesCode brk (i + 1) cs

/-- Where the statement lists are, if the code of the clauses starts at `a`. -/
def consAt (a : ℕ) : List (Clause ε σ) → List ℕ
  | [] => []
  | ⟨some _, _⟩ :: cs => (a + 4) :: consAt (a + 6) cs
  | ⟨none, _⟩ :: cs => a :: consAt (a + 1) cs

theorem length_casesCode (brk : Bool) (i : ℕ) (cs : List (Clause ε σ)) :
    (casesCode brk i cs).length = casesSize cs := by
  induction cs generalizing i with
  | nil => rfl
  | cons cl cs ih =>
    obtain ⟨_ | test, cons⟩ := cl
    · rw [casesCode, List.length_cons, ih, casesSize]
    · rw [casesCode, List.length_append, ih, casesSize, Nat.add_comm]
      rfl

def linked (last : Option ℕ) (code : List (Op ε σ)) (cs : List (Clause ε σ)) : List (Op ε σ) :=
  match last, nextCons cs with
  | some j, some n => code.set j (.jmp (code.length + n - (j + 1)))
  | _, _ => code

theorem compileCase_eq (i : ℕ) (last : Option ℕ) (test : Exec ε σ JsValue) (cons : σ → Ending ε σ)
    (cs : List (Clause ε σ)) (a : Asm ε σ) (hlast : ∀ j ∈ last, j < a.size) :
    compileCase i last test cons a = (a.size + 5, ⟨linked last a.code (⟨some test, cons⟩ :: cs) ++
      caseCode i test cons 0 0, a.breaks ++ [a.size + 4]⟩) := by
  cases last with
  | none => simp [compileCase, caseCode, linked, Asm.emit, Asm.emitCons, Asm.patch, Asm.size]
  | some j =>
    have hj : j < a.code.length := hlast j rfl
    simp [compileCase, caseCode, linked, nextCons, Asm.emit, Asm.emitCons, Asm.patch, Asm.size, hj]

theorem linked_caseCode (code : List (Op ε σ)) (i : ℕ) (test : Exec ε σ JsValue) (cons : σ → Ending ε σ)
    (brk : ℕ) (cs : List (Clause ε σ)) :
    linked (some (code.length + 5)) (code ++ caseCode i test cons brk 0) cs =
      code ++ caseCode i test cons brk ((nextCons cs).getD 0) := by
  unfold linked caseCode
  cases nextCons cs with
  | none => rfl
  | some n =>
    have hoffset : code.length + 6 + n - (code.length + 5 + 1) = n := by omega
    simp [hoffset]

theorem compileCases_eq (i : ℕ) (last : Option ℕ) (cs : List (Clause ε σ)) (a : Asm ε σ)
    (hlast : ∀ j ∈ last, j < a.size) : compileCases i last cs a =
      ⟨linked last a.code cs ++ casesCode false i cs, a.breaks ++ consAt a.size cs⟩ := by
  induction cs generalizing i last a with
  | nil =>
    cases last <;> simp [compileCases, linked, nextCons, casesCode, consAt]
  | cons cl cs ih =>
    obtain ⟨_ | test, cons⟩ := cl
    · have hlast' : ∀ j ∈ last, j < (a.emitCons i cons).size := fun j hj => by
        have := hlast j hj
        simp only [Asm.emitCons, Asm.size, List.length_append, List.length_singleton] at this ⊢
        omega
      rw [compileCases, ih _ _ _ hlast']
      cases last with
      | none => simp [linked, casesCode, consAt, Asm.emitCons, Asm.size]
      | some j =>
        have hj : j < a.code.length := hlast j rfl
        cases hn : nextCons cs with
        | none => simp [linked, nextCons, hn, casesCode, consAt, Asm.emitCons, Asm.size]
        | some n =>
          have hoffset : a.code.length + 1 + n - (j + 1) = a.code.length + (n + 1) - (j + 1) := by omega
          simp [linked, nextCons, hn, casesCode, consAt, Asm.emitCons, Asm.size, List.set_append_left,
            hj, hoffset]
    · have hlinked : (linked last a.code (⟨some test, cons⟩ :: cs)).length = a.size := by
        cases last <;> simp [Asm.size, linked, nextCons]
      have hsize : (linked last a.code (⟨some test, cons⟩ :: cs) ++ caseCode i test cons 0 0).length =
          a.size + 6 := by
        rw [List.length_append, hlinked]
        rfl
      have hasm : Asm.size ⟨linked last a.code (⟨some test, cons⟩ :: cs) ++ caseCode i test cons 0 0,
          a.breaks ++ [a.size + 4]⟩ = a.size + 6 := hsize
      have hlast' : ∀ j ∈ some (a.size + 5), j < a.size + 6 := by
        rintro j ⟨⟩
        exact Nat.lt_succ_self _
      rw [compileCases, compileCase_eq i last test cons cs a hlast]
      dsimp only
      rw [ih _ _ _ (hasm.symm ▸ hlast'), hasm, ← hlinked, linked_caseCode, casesCode, consAt, hlinked,
        List.append_assoc, List.append_assoc]
      rfl

theorem patchBreaks (pre : List (Op ε σ)) (i : ℕ) (cs : List (Clause ε σ)) (breaks : List ℕ) :
    (consAt pre.length cs).foldr (fun p a => Asm.patchBreak a p) ⟨pre ++ casesCode false i cs, breaks⟩ =
      ⟨pre ++ casesCode true i cs, breaks⟩ := by
  induction cs generalizing pre i with
  | nil => rfl
  | cons cl cs ih =>
    obtain ⟨_ | test, cons⟩ := cl
    · have ih' := ih (pre ++ [.cons i cons 0]) (i + 1)
      rw [List.length_append, List.length_singleton, List.append_assoc, List.append_assoc] at ih'
      rw [consAt, List.foldr_cons, casesCode, casesCode]
      have hoffset : pre.length + (casesSize cs + 1) - (pre.length + 1) = casesSize cs := by omega
      refine (congrArg (Asm.patchBreak · pre.length) ih').trans ?_
      simp [Asm.patchBreak, Asm.patch, Asm.size, length_casesCode, hoffset]
    · have ih' := ih (pre ++ caseCode i test cons 0 ((nextCons cs).getD 0)) (i + 1)
      have hlength : (pre ++ caseCode i test cons 0 ((nextCons cs).getD 0)).length = pre.length + 6 := by
        rw [List.length_append]
        rfl
      rw [hlength, List.append_assoc, List.append_assoc] at ih'
      rw [consAt, List.foldr_cons, casesCode, casesCode]
      have hoffset : pre.length + (casesSize cs + 6) - (pre.length + 4 + 1) = casesSize cs + 1 := by omega
      refine (congrArg (Asm.patchBreak · (pre.length + 4)) ih').trans ?_
      simp [Asm.patchBreak, Asm.patch, Asm.size, length_casesCode, caseCode, hoffset]

theorem compileSwitch_eq (disc : Exec ε σ JsValue) (cs : List (Clause ε σ)) :
    compileSwitch disc cs = .expr .discriminant disc :: (casesCode true 0 cs ++ [.pop]) := by
  have hcases := compileCases_eq 0 none cs (Asm.emit ⟨[], []⟩ (.expr .discriminant disc)) (by simp)
  have hbreaks := patchBreaks [.expr .discriminant disc] 0 cs (consAt 1 cs)
  unfold compileSwitch
  rw [hcases]
  exact congrArg (fun a => (Asm.emit a .pop).code) hbreaks

/-! ### Running the code -/

/-- What conversions of values come to. They may run code of the program. -/
structure Host (ε σ : Type) where
  conversions : σ → Conversions
  converted : JsValue → σ → σ
  raise : Failure → ε

namespace Host

variable (h : Host ε σ)

/-- The state after a turn of `abstract_equal`: only the conversion of an object runs code. -/
def afterTurn (lhs rhs : JsValue) (s : σ) : σ :=
  if (lhs.isString || lhs.isNumber) && rhs.isObject && !rhs.isString then h.converted rhs s
  else if (rhs.isString || rhs.isNumber) && lhs.isObject && !lhs.isString then h.converted lhs s
  else s

def abstractEqual : ℕ → JsValue → JsValue → Exec ε σ Bool
  | 0, _, _ => diverge
  | turns + 1, lhs, rhs => fun s =>
    match JsValue.abstractEqualStep (h.conversions s) lhs rhs with
    | .error e => .error (h.raise e) (h.afterTurn lhs rhs s)
    | .ok (.inl b) => .ok b s
    | .ok (.inr (lhs', rhs')) => abstractEqual turns lhs' rhs' (h.afterTurn lhs rhs s)

end Host

/-- How a statement ends, with the operands that are then on the stack. -/
inductive Final (ε σ : Type) where
  | ends (stack : List JsValue) (s : σ)
  | continues (stack : List JsValue) (s : σ)
  | leaves (e : ε) (s : σ)
  | stuck
  | hangs

/-- The parts that are run, with the states that they are run in, and the end. -/
abbrev Outcome (ε σ : Type) := Traced Part σ (Final ε σ)

/-- The end of a statement list, if a `continue` has no effect. -/
def Ending.withoutContinue : Ending ε σ → Ending ε σ
  | continues _ after => after.withoutContinue
  | r => r

/-- The instructions; a jump skips those that it jumps over. -/
def run (h : Host ε σ) (turns : ℕ) : (skip : ℕ) → List (Op ε σ) → List JsValue → σ → Outcome ε σ
  | _, [], stack, s => ([], .ends stack s)
  | skip + 1, _ :: code, stack, s => run h turns skip code stack s
  | 0, .expr part x :: code, stack, s => record part s <|
    match x s with
    | .ok v s => run h turns 0 code (v :: stack) s
    | .error e s => ([], .leaves e s)
    | .stuck => ([], .stuck)
    | .diverge => ([], .hangs)
  | 0, .cons i x brk :: code, stack, s => record (.cons i) s <|
    match (x s).withoutContinue with
    | .normal s => run h turns 0 code stack s
    | .breaks s => run h turns brk code stack s
    | .leaves e s => ([], .leaves e s)
    | .continues .. => ([], .stuck)
    | .hangs => ([], .hangs)
  | 0, .dup :: code, v :: stack, s => run h turns 0 code (v :: v :: stack) s
  | 0, .eq :: code, lhs :: rhs :: stack, s =>
    match h.abstractEqual turns lhs rhs s with
    | .ok b s => run h turns 0 code (.bool b :: stack) s
    | .error e s => ([], .leaves e s)
    | .stuck => ([], .stuck)
    | .diverge => ([], .hangs)
  | 0, .pop :: code, _ :: stack, s => run h turns 0 code stack s
  | 0, .jmp offset :: code, stack, s => run h turns offset code stack s
  | 0, .jmpIfFalse offset :: code, .bool b :: stack, s =>
    run h turns (if b then 0 else offset) code stack s
  | 0, _ :: _, _, _ => ([], .stuck)

/-! ### What the statement should do -/

def execFrom (stack : List JsValue) : ℕ → List (Clause ε σ) → σ → Outcome ε σ
  | _, [], s => ([], .ends stack s)
  | i, cl :: cs, s => record (.cons i) s <|
    match cl.cons s with
    | .normal s => execFrom stack (i + 1) cs s
    | .breaks s => ([], .ends stack s)
    | .leaves e s => ([], .leaves e s)
    | .continues s _ => ([], .continues stack s)
    | .hangs => ([], .hangs)

def search (v : JsValue) (stack : List JsValue) :
    ℕ → (default : Option (ℕ × List (Clause ε σ))) → List (Clause ε σ) → σ → Outcome ε σ
  | _, default, [], s =>
    match default with
    | none => ([], .ends stack s)
    | some (i, cs) => execFrom stack i cs s
  | i, default, ⟨none, cons⟩ :: cs, s => search v stack (i + 1) (default <|> (i, ⟨none, cons⟩ :: cs)) cs s
  | i, default, ⟨some test, cons⟩ :: cs, s => record (.test i) s <|
    match test s with
    | .ok w s =>
      if v.strictEqual w then execFrom stack i (⟨some test, cons⟩ :: cs) s
      else search v stack (i + 1) default cs s
    | .error e s => ([], .leaves e s)
    | .stuck => ([], .stuck)
    | .diverge => ([], .hangs)

/-- The statement, with strict equality and with the discriminant off the stack at the end. -/
def switchStatement (disc : Exec ε σ JsValue) (cs : List (Clause ε σ)) (stack : List JsValue) (s : σ) :
    Outcome ε σ :=
  record .discriminant s <|
    match disc s with
    | .ok v s => search v stack 0 none cs s
    | .error e s => ([], .leaves e s)
    | .stuck => ([], .stuck)
    | .diverge => ([], .hangs)

/-! ### When it does -/

/-- From the clauses on: no `default` that has a `case` behind it is reached, no list ends in a
`continue`. -/
def FallsWell : List (Clause ε σ) → σ → Prop
  | [], _ => True
  | cl :: cs, s => (cl.test = none → nextCons cs = none) ∧
    match cl.cons s with
    | .normal s => FallsWell cs s
    | .continues .. => False
    | _ => True

/-- In the search too; and the comparisons that are made are strict and run no code. -/
def SearchesWell (h : Host ε σ) (turns : ℕ) (v : JsValue) : List (Clause ε σ) → σ → Prop
  | [], _ => True
  | ⟨none, cons⟩ :: cs, s => FallsWell (⟨none, cons⟩ :: cs) s
  | ⟨some test, cons⟩ :: cs, s =>
    match test s with
    | .ok w s => h.abstractEqual turns w v s = .ok (v.strictEqual w) s ∧
      if v.strictEqual w then FallsWell (⟨some test, cons⟩ :: cs) s else SearchesWell h turns v cs s
    | _ => True

/-- The condition for a statement: it is about the clauses that the statement comes to. -/
def RunsWell (h : Host ε σ) (turns : ℕ) (disc : Exec ε σ JsValue) (cs : List (Clause ε σ)) (s : σ) :
    Prop :=
  match disc s with
  | .ok v s => SearchesWell h turns v cs s
  | _ => True

/-! ### The first part of an outcome -/

/-- The first part is run in the state `s`, or there is none and the statement ends in `s`. -/
def StartsIn (s : σ) (r : Outcome ε σ) : Prop :=
  (∃ part r', r = record part s r') ∨ ∃ stack, r = ([], .ends stack s)

theorem StartsIn.unique {s s' : σ} {r : Outcome ε σ} (h : StartsIn s r) (h' : StartsIn s' r) :
    s = s' := by
  rcases h with ⟨part, r₁, rfl⟩ | ⟨stack, rfl⟩
  · rcases h' with ⟨part', r₂, h'⟩ | ⟨stack', h'⟩
    · exact (record_inj.mp h').2.1
    · cases h'
  · rcases h' with ⟨part', r₂, h'⟩ | ⟨stack', h'⟩
    · cases h'
    · cases h'
      rfl

theorem StartsIn.ends {s : σ} {f : Final ε σ} (h : StartsIn s ([], f)) : ∃ stack, f = .ends stack s := by
  rcases h with ⟨part, r, h⟩ | ⟨stack, h⟩
  · cases h
  · cases h
    exact ⟨stack, rfl⟩

variable {h : Host ε σ} {turns : ℕ} {v : JsValue} {stack : List JsValue}

theorem startsIn_execFrom (i : ℕ) (cs : List (Clause ε σ)) (s : σ) :
    StartsIn s (execFrom stack i cs s) := by
  cases cs with
  | nil => exact .inr ⟨stack, rfl⟩
  | cons cl cs => exact .inl ⟨.cons i, _, rfl⟩

theorem search_of_none {cs : List (Clause ε σ)} (hn : nextCons cs = none) (i j : ℕ)
    (ds : List (Clause ε σ)) (s : σ) : search v stack i (some (j, ds)) cs s = execFrom stack j ds s := by
  induction cs generalizing i with
  | nil => rfl
  | cons cl cs ih =>
    obtain ⟨_ | test, cons⟩ := cl
    · exact ih (Option.map_eq_none_iff.mp hn) (i + 1)
    · cases hn

theorem search_eq_execFrom {cs : List (Clause ε σ)} (hn : nextCons cs = none) (i : ℕ) (s : σ) :
    search v stack i none cs s = execFrom stack i cs s := by
  cases cs with
  | nil => rfl
  | cons cl cs =>
    obtain ⟨_ | test, cons⟩ := cl
    · exact search_of_none (Option.map_eq_none_iff.mp hn) (i + 1) i _ s
    · cases hn

theorem search_of_some {cs : List (Clause ε σ)} {n : ℕ} (hn : nextCons cs = some n) (v : JsValue)
    (stack : List JsValue) (i : ℕ) (default : Option (ℕ × List (Clause ε σ))) (s : σ) :
    ∃ j r, search v stack i default cs s = record (.test j) s r := by
  induction cs generalizing i n default with
  | nil => cases hn
  | cons cl cs ih =>
    obtain ⟨_ | test, cons⟩ := cl
    · obtain ⟨m, hm, -⟩ := Option.map_eq_some_iff.mp hn
      exact ih hm (i + 1) (default <|> (i, ⟨none, cons⟩ :: cs))
    · exact ⟨i, _, rfl⟩

theorem startsIn_search (i : ℕ) (cs : List (Clause ε σ)) (s : σ) :
    StartsIn s (search v stack i none cs s) := by
  cases hn : nextCons cs with
  | none => exact search_eq_execFrom hn i s ▸ startsIn_execFrom i cs s
  | some n =>
    obtain ⟨j, r, hr⟩ := search_of_some hn v stack i none s
    exact .inl ⟨.test j, r, hr⟩

theorem search_ne_cons (i : ℕ) (cs : List (Clause ε σ)) (s s' : σ) (r : Outcome ε σ) :
    search v stack (i + 1) none cs s ≠ record (.cons i) s' r := by
  intro h
  cases hn : nextCons cs with
  | none =>
    rw [search_eq_execFrom hn] at h
    cases cs with
    | nil => cases h
    | cons cl cs => exact absurd (Part.cons.inj (record_inj.mp h).1) (Nat.succ_ne_self i)
  | some n =>
    obtain ⟨j, r', hr⟩ := search_of_some hn v stack (i + 1) none s
    rw [hr] at h
    cases (record_inj.mp h).1

/-! ### The code against the statement -/

def fromCons (i : ℕ) : List (Clause ε σ) → List (Op ε σ)
  | [] => [.pop]
  | ⟨some _, cons⟩ :: cs =>
    .cons i cons (casesSize cs + 1) :: .jmp ((nextCons cs).getD 0) :: (casesCode true (i + 1) cs ++ [.pop])
  | ⟨none, cons⟩ :: cs => .cons i cons (casesSize cs) :: (casesCode true (i + 1) cs ++ [.pop])

theorem run_length_append (pre code : List (Op ε σ)) (s : σ) :
    run h turns pre.length (pre ++ code) stack s = run h turns 0 code stack s := by
  induction pre with
  | nil => rfl
  | cons op pre ih => rw [List.length_cons, List.cons_append, run, ih]

theorem run_break (i : ℕ) (cs : List (Clause ε σ)) (s : σ) :
    run h turns (casesSize cs) (casesCode true i cs ++ [.pop]) (v :: stack) s = ([], .ends stack s) := by
  rw [← length_casesCode true i cs, run_length_append]
  rfl

theorem run_next {cs : List (Clause ε σ)} {n : ℕ} (hn : nextCons cs = some n) (h : Host ε σ) (turns : ℕ)
    (stack : List JsValue) (i : ℕ) (s : σ) :
    ∃ j r, i ≤ j ∧ run h turns n (casesCode true i cs ++ [.pop]) stack s = record (.cons j) s r := by
  induction cs generalizing i n with
  | nil => cases hn
  | cons cl cs ih =>
    obtain ⟨_ | test, cons⟩ := cl
    · obtain ⟨m, hm, rfl⟩ := Option.map_eq_some_iff.mp hn
      obtain ⟨j, r, hj, hr⟩ := ih hm (i + 1)
      exact ⟨j, r, Nat.le_of_succ_le hj, hr⟩
    · cases hn
      exact ⟨i, _, le_rfl, rfl⟩

theorem run_ne_continues (skip : ℕ) (code : List (Op ε σ)) (st st' : List JsValue) (s s' : σ) :
    (run h turns skip code st s).2 ≠ .continues st' s' := by
  fun_induction run h turns skip code st s
  case case3 part x code st s ih =>
    simp only [record]
    split
    · exact ih _ _
    all_goals (intro h; cases h)
  case case4 i x brk code st s ihnormal ihbreaks =>
    simp only [record]
    split
    · exact ihnormal _
    · exact ihbreaks _
    all_goals (intro h; cases h)
  all_goals first | assumption | (intro h; cases h)

theorem run_cons_iff {i : ℕ} {cl : Clause ε σ} {cs : List (Clause ε σ)} {s : σ} {brk : ℕ}
    {rest : List (Op ε σ)} (hcl : cl.test = none → nextCons cs = none)
    (hnormal : ∀ s, run h turns 0 rest (v :: stack) s = execFrom stack (i + 1) cs s ↔ FallsWell cs s)
    (hbreaks : ∀ s, run h turns brk rest (v :: stack) s = ([], .ends stack s)) :
    run h turns 0 (.cons i cl.cons brk :: rest) (v :: stack) s = execFrom stack i (cl :: cs) s ↔
      FallsWell (cl :: cs) s := by
  rw [run, execFrom, FallsWell, record_inj, and_iff_right rfl, and_iff_right rfl, and_iff_right hcl]
  cases cl.cons s with
  | normal s' => exact hnormal s'
  | breaks s' => exact iff_of_true (hbreaks s') trivial
  | leaves e s' | hangs => exact iff_of_true rfl trivial
  | continues s' after =>
    refine iff_of_false (fun heq => ?_) id
    -- what the code does has no `continue` at its end
    have hend := congrArg Prod.snd heq
    revert hend
    split
    · exact run_ne_continues _ _ _ _ _ _
    · exact run_ne_continues _ _ _ _ _ _
    all_goals (intro h; cases h)

/-- From the statements of a clause on, where no `default` before the last `case` is entered, the code does
what the statement does exactly if it runs into no such `default` and no `continue`. -/
theorem run_fromCons (i : ℕ) (cs : List (Clause ε σ)) (s : σ)
    (hd : ∀ cons cs', cs = ⟨none, cons⟩ :: cs' → nextCons cs' = none) :
    run h turns 0 (fromCons i cs) (v :: stack) s = execFrom stack i cs s ↔ FallsWell cs s := by
  induction cs generalizing i s with
  | nil => exact iff_of_true rfl trivial
  | cons cl cs ih =>
    obtain ⟨_ | test, cons⟩ := cl
    · have hn := hd cons cs rfl
      refine run_cons_iff (fun _ : (⟨none, cons⟩ : Clause ε σ).test = none => hn) (fun s' => ?_)
        fun s' => run_break (i + 1) cs s'
      have hd' : ∀ cons cs', cs = ⟨none, cons⟩ :: cs' → nextCons cs' = none := by
        rintro cons cs' rfl
        exact Option.map_eq_none_iff.mp hn
      cases cs with
      | nil => exact ih (i + 1) s' hd'
      | cons cl cs =>
        obtain ⟨_ | test, cons'⟩ := cl
        · exact ih (i + 1) s' hd'
        · cases hn
    · have htest : (⟨some test, cons⟩ : Clause ε σ).test = none → nextCons cs = none := nofun
      refine run_cons_iff htest (fun s' => ?_) fun s' => run_break (i + 1) cs s'
      cases cs with
      | nil => exact ih (i + 1) s' nofun
      | cons cl cs =>
        obtain ⟨_ | test, cons'⟩ := cl
        · cases hn : nextCons cs with
          | none =>
            rw [nextCons, hn]
            refine ih (i + 1) s' ?_
            rintro _ _ ⟨⟩
            exact hn
          | some n =>
            -- the jump goes over the `default`
            obtain ⟨j, r, hj, hr⟩ := run_next hn h turns (v :: stack) (i + 2) s'
            have hrun : run h turns 0 (.jmp ((nextCons (⟨none, cons'⟩ :: cs)).getD 0) ::
                (casesCode true (i + 1) (⟨none, cons'⟩ :: cs) ++ [.pop])) (v :: stack) s' =
                  record (.cons j) s' r := by
              rw [nextCons, hn]
              exact hr
            refine iff_of_false (fun heq => ?_) fun hfalls => ?_
            · have hindex := Part.cons.inj (record_inj.mp (hrun.symm.trans heq)).1
              omega
            · cases hn.symm.trans (hfalls.1 rfl)
        · exact ih (i + 1) s' nofun

theorem startsIn_run (i : ℕ) (cs : List (Clause ε σ)) (s : σ) :
    StartsIn s (run h turns 0 (casesCode true i cs ++ [.pop]) (v :: stack) s) := by
  cases cs with
  | nil => exact .inr ⟨stack, rfl⟩
  | cons cl cs =>
    obtain ⟨_ | test, cons⟩ := cl
    · exact .inl ⟨.cons i, _, rfl⟩
    · exact .inl ⟨.test i, _, rfl⟩

theorem run_ne_cons (i : ℕ) (cs : List (Clause ε σ)) (s s' : σ) (r : Outcome ε σ) :
    run h turns 0 (casesCode true (i + 1) cs ++ [.pop]) (v :: stack) s ≠ record (.cons i) s' r := by
  intro heq
  cases cs with
  | nil => cases heq
  | cons cl cs =>
    obtain ⟨_ | test, cons⟩ := cl
    · exact absurd (Part.cons.inj (record_inj.mp heq).1) (Nat.succ_ne_self i)
    · cases (record_inj.mp heq).1

/-- A comparison and what comes behind it. -/
theorem run_eq_iff {i : ℕ} {test : Exec ε σ JsValue} {cons : σ → Ending ε σ} {cs : List (Clause ε σ)}
    {w : JsValue} {s : σ}
    (hnext : run h turns 0 (casesCode true (i + 1) cs ++ [.pop]) (v :: stack) s =
      search v stack (i + 1) none cs s ↔ SearchesWell h turns v cs s) :
    run h turns 0 (.eq :: .jmpIfFalse 2 :: fromCons i (⟨some test, cons⟩ :: cs)) (w :: v :: v :: stack) s =
        (if v.strictEqual w then execFrom stack i (⟨some test, cons⟩ :: cs) s
          else search v stack (i + 1) none cs s) ↔
      h.abstractEqual turns w v s = .ok (v.strictEqual w) s ∧
        if v.strictEqual w then FallsWell (⟨some test, cons⟩ :: cs) s else SearchesWell h turns v cs s := by
  have hstarts : StartsIn s (if v.strictEqual w then execFrom stack i (⟨some test, cons⟩ :: cs) s
      else search v stack (i + 1) none cs s) := by
    split
    · exact startsIn_execFrom i _ s
    · exact startsIn_search (i + 1) cs s
  have hends : ∀ f : Final ε σ, (∀ stack, f ≠ .ends stack s) → ([], f) ≠
      (if v.strictEqual w then execFrom stack i (⟨some test, cons⟩ :: cs) s
        else search v stack (i + 1) none cs s) := fun f hf heq => by
    obtain ⟨stack', hstack⟩ := StartsIn.ends (heq ▸ hstarts)
    exact hf stack' hstack
  rw [run]
  cases hcmp : h.abstractEqual turns w v s with
  | error e s' => exact iff_of_false (fun heq => hends _ (fun _ h => by cases h) heq) (by rintro ⟨⟨⟩, -⟩)
  | stuck => exact iff_of_false (fun heq => hends _ (fun _ h => by cases h) heq) (by rintro ⟨⟨⟩, -⟩)
  | diverge => exact iff_of_false (fun heq => hends _ (fun _ h => by cases h) heq) (by rintro ⟨⟨⟩, -⟩)
  | ok b s' =>
    have hmatch : run h turns 0 (.jmpIfFalse 2 :: fromCons i (⟨some test, cons⟩ :: cs))
        (.bool true :: v :: stack) s' = run h turns 0 (fromCons i (⟨some test, cons⟩ :: cs)) (v :: stack) s' :=
      rfl
    have hother : run h turns 0 (.jmpIfFalse 2 :: fromCons i (⟨some test, cons⟩ :: cs))
        (.bool false :: v :: stack) s' =
          run h turns 0 (casesCode true (i + 1) cs ++ [.pop]) (v :: stack) s' := rfl
    dsimp only
    cases b with
    | true =>
      rw [hmatch]
      cases hstrict : v.strictEqual w with
      | true =>
        rw [if_pos rfl, if_pos rfl]
        by_cases hs : s' = s
        · subst hs
          rw [run_fromCons i (⟨some test, cons⟩ :: cs) s' nofun, and_iff_right rfl]
        · refine iff_of_false (fun heq => hs ?_) fun hok => hs (Result.ok.inj hok.1).2
          exact (record_inj.mp heq).2.1
      | false => exact iff_of_false (fun heq => search_ne_cons i cs s s' _ heq.symm) (by rintro ⟨⟨⟩, -⟩)
    | false =>
      rw [hother]
      cases hstrict : v.strictEqual w with
      | true => exact iff_of_false (fun heq => run_ne_cons i cs s' s _ heq) (by rintro ⟨⟨⟩, -⟩)
      | false =>
        rw [if_neg Bool.false_ne_true, if_neg Bool.false_ne_true]
        by_cases hs : s' = s
        · subst hs
          rw [hnext, and_iff_right rfl]
        · refine iff_of_false (fun heq => hs ?_) fun hok => hs (Result.ok.inj hok.1).2
          exact (startsIn_run (i + 1) cs s').unique (heq ▸ startsIn_search (i + 1) cs s)

theorem run_search (i : ℕ) (cs : List (Clause ε σ)) (s : σ) :
    run h turns 0 (casesCode true i cs ++ [.pop]) (v :: stack) s = search v stack i none cs s ↔
      SearchesWell h turns v cs s := by
  induction cs generalizing i s with
  | nil => exact iff_of_true rfl trivial
  | cons cl cs ih =>
    obtain ⟨_ | test, cons⟩ := cl
    · cases hn : nextCons cs with
      | none =>
        rw [search_eq_execFrom (by rw [nextCons, hn]; rfl)]
        refine run_fromCons i (⟨none, cons⟩ :: cs) s ?_
        rintro _ _ ⟨⟩
        exact hn
      | some n =>
        refine iff_of_false (fun heq => ?_) fun hfalls => by cases hn.symm.trans (hfalls.1 rfl)
        -- the statements of `default` are run before the next test
        obtain ⟨j, r, hr⟩ := search_of_some hn v stack (i + 1)
          (some (i, ⟨none, cons⟩ :: cs)) s
        cases (record_inj.mp (heq.trans hr)).1
    · have hrun : run h turns 0 (casesCode true i (⟨some test, cons⟩ :: cs) ++ [.pop]) (v :: stack) s =
          record (.test i) s (match test s with
            | .ok w s => run h turns 0 (.eq :: .jmpIfFalse 2 :: fromCons i (⟨some test, cons⟩ :: cs))
                (w :: v :: v :: stack) s
            | .error e s => ([], .leaves e s)
            | .stuck => ([], .stuck)
            | .diverge => ([], .hangs)) := rfl
      rw [hrun, search, SearchesWell, record_inj, and_iff_right rfl, and_iff_right rfl]
      cases test s with
      | ok w s' => exact run_eq_iff (ih (i + 1) s')
      | error e s' | stuck | diverge => exact iff_of_true rfl trivial

theorem run_compileSwitch (h : Host ε σ) (turns : ℕ) (disc : Exec ε σ JsValue) (cs : List (Clause ε σ))
    (stack : List JsValue) (s : σ) :
    run h turns 0 (compileSwitch disc cs) stack s = switchStatement disc cs stack s ↔
      RunsWell h turns disc cs s := by
  rw [compileSwitch_eq, run, switchStatement, RunsWell, record_inj, and_iff_right rfl, and_iff_right rfl]
  cases disc s with
  | ok v s' => exact run_search 0 cs s'
  | error e s' | stuck | diverge => exact iff_of_true rfl trivial

/-- **The code of `switch`** does what the statement does exactly if the comparisons that are made end with
the answer of strict equality and run no code, no `default` that has a `case` behind it is reached, and no
statement list that is run ends in a `continue`. -/
theorem compileSwitch_iff (h : Host ε σ) (disc : Exec ε σ JsValue) (cs : List (Clause ε σ))
    (stack : List JsValue) (s : σ) :
    (∃ turns, run h turns 0 (compileSwitch disc cs) stack s = switchStatement disc cs stack s) ↔
      ∃ turns, RunsWell h turns disc cs s :=
  exists_congr fun turns => run_compileSwitch h turns disc cs stack s

/-- A host whose conversions come to nothing. -/
def idleHost : Host Failure Unit := ⟨fun _ => ⟨fun _ _ _ => .ok none⟩, fun _ s => s, id⟩

/-- `switch (1) { default: case 1: }` runs the statements of `default` before it comes to the test, and
`switch (null) { case undefined: }` those of the case. -/
theorem not_compileSwitch :
    (¬ ∃ turns, run idleHost turns 0
      (compileSwitch (pure (.int32 1)) [⟨none, .normal⟩, ⟨some (pure (.int32 1)), .normal⟩]) [] () =
        switchStatement (pure (.int32 1)) [⟨none, .normal⟩, ⟨some (pure (.int32 1)), .normal⟩] [] ()) ∧
    ¬ ∃ turns, run idleHost turns 0
      (compileSwitch (pure .null) [⟨some (pure .undefined), .normal⟩]) [] () =
        switchStatement (pure .null) [⟨some (pure .undefined), .normal⟩] [] () := by
  constructor
  · rintro ⟨turns, heq⟩
    have hsecond := congrArg (fun r => r.1[1]?) heq
    cases hsecond
  · rintro ⟨turns, heq⟩
    have hthird := congrArg (fun r => r.1[2]?) heq
    cases turns with
    | zero =>
      have hends := congrArg Prod.snd heq
      cases hends
    | succ turns => cases hthird

end Switch

end Starlight
