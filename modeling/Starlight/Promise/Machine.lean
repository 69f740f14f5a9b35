import Mathlib.Data.List.Nodup
import Mathlib.Order.Nat

/-!
# Promises and their jobs

The state of all promises of a context, and what happens to it: calls of `resolve` and `reject`,
registrations by `then`, `catch` and `finally`, the combinators, and the jobs that `do_resolve`
schedules. A handler that is JavaScript code may do anything with promises before it returns, so its
call and its return are separate steps, and between them any other action of the program can come.

The scheduler is outside: it may start the scheduled jobs in any order, one after the other. Handlers
are named by a type `F`, and the values that are not promises come from a type `V`; what a handler
returns is the choice of the run.
-/

namespace Starlight.Promise

/-- A JavaScript value, as far as promises look at it. -/
inductive Value (V : Type) where
  | undefined
  | null
  | plain (v : V)
  | array (vs : List (Value V))
  | promise (p : ℕ)

/-- `Result<JsValue, JsValue>`. -/
abbrev Resolution (V : Type) := Except (Value V) (Value V)

inductive TrackingMode where
  | all
  | race
  | allSettled
  | any
deriving DecidableEq

/-- A function that a promise calls: one of the program, `pass_val`, or the `finally_track` closure of
a combinator with what it captures. -/
inductive Handler (F : Type) where
  | user (f : F)
  | passVal
  | track (outer index source : ℕ)
deriving DecidableEq

/-- An entry of `subs`: `then_func`, `catch_func`, `finally_func` and `sub_promise`. -/
structure Sub (F : Type) where
  onResolved : Option (Handler F)
  onRejected : Option (Handler F)
  onFinally : Option (Handler F)
  promise : ℕ
deriving DecidableEq

structure JsPromise (V F : Type) where
  subs : List (Sub F)
  trackingMode : Option TrackingMode
  trackingResults : Option (List (Option (Resolution V)))
  resolution : Option (Resolution V)

/-- The loops of a job: over the handlers for the outcome, then over the `finally` handlers. -/
inductive Pass where
  | settle
  | finally_
deriving DecidableEq

/-- A job that has been started. The loop over `subs` ends at the length that `subs` had when the loop
began; `awaiting` says that the handler of the current entry is JavaScript code that has not returned
yet. (A push during the loop may move the vector, and the source's loop goes on over the old one.) -/
structure Job where
  promise : ℕ
  pass : Pass
  index : ℕ
  bound : ℕ
  awaiting : Bool
deriving DecidableEq

/-- The promises of a context, the jobs that were scheduled, and the one that is running. -/
structure State (V F : Type) where
  promises : ℕ → JsPromise V F
  next : ℕ
  jobs : List ℕ
  running : Option Job

variable {V F : Type}

def JsPromise.unresolving : JsPromise V F :=
  { subs := [], trackingMode := none, trackingResults := none, resolution := none }

/-- The combined promise as `new_tracking` makes it, for an array of length `n`. -/
def JsPromise.tracking (mode : TrackingMode) (n : ℕ) : JsPromise V F :=
  { subs := [], trackingMode := some mode, trackingResults := some (List.replicate n none),
    resolution := none }

/-- No promise was made yet. -/
def State.init : State V F :=
  { promises := fun _ => .unresolving, next := 0, jobs := [], running := none }

namespace Sub

/-- The subscription by which promise `p` adopts another promise. -/
def adoption (p : ℕ) : Sub F :=
  { onResolved := some .passVal, onRejected := some .passVal, onFinally := none, promise := p }

/-- The function that a loop of the job calls for a promise settled with `r`. -/
def handler (sub : Sub F) (pass : Pass) (r : Resolution V) : Option (Handler F) :=
  match pass, r with
  | .settle, .ok _ => sub.onResolved
  | .settle, .error _ => sub.onRejected
  | .finally_, _ => sub.onFinally

end Sub

/-- The argument of that function, as `args.at(0)` reads it. -/
def Pass.arg (pass : Pass) (r : Resolution V) : Value V :=
  match pass, r with
  | .settle, .ok v => v
  | .settle, .error e => e
  | .finally_, _ => .undefined

namespace State

def modify (s : State V F) (p : ℕ) (f : JsPromise V F → JsPromise V F) : State V F :=
  { s with promises := Function.update s.promises p (f (s.promises p)) }

/-- `new_unresolving`, and the allocation in `new_tracking`: the new promise is `s.next`. -/
def alloc (s : State V F) (promise : JsPromise V F) : State V F :=
  { s with promises := Function.update s.promises s.next promise, next := s.next + 1 }

def push (s : State V F) (p : ℕ) (sub : Sub F) : State V F :=
  s.modify p fun promise => { promise with subs := promise.subs ++ [sub] }

/-- The last part of `do_resolve`: store the resolution and schedule the job. -/
def store (s : State V F) (p : ℕ) (r : Resolution V) : State V F :=
  let s := s.modify p fun promise => { promise with resolution := some r }
  { s with jobs := s.jobs ++ [p] }

/-- `do_resolve`; `none` is the error "Promise was already resolved". -/
def doResolve (s : State V F) (p : ℕ) (r : Resolution V) : Option (State V F) :=
  if (s.promises p).resolution.isSome then
    none
  else
    match r with
    -- resolved with a promise: that promise will resolve this one
    | .ok (.promise q) => some (s.push q (.adoption p))
    | r => some (s.store p r)

/-- The state after a call of `do_resolve`, whether it fails or not. -/
def resolved (s : State V F) (p : ℕ) (r : Resolution V) : State V F := (s.doResolve p r).getD s

def then_ (s : State V F) (p : ℕ) (onResolved onRejected onFinally : Option (Handler F)) :
    State V F :=
  (s.alloc .unresolving).push p ⟨onResolved, onRejected, onFinally, s.next⟩

end State

/-- The value of a result in the array that `Promise.all` fulfils with; `unwrap` panics on any other
result. -/
def okValue : Option (Resolution V) → Value V
  | some (.ok v) => v
  | _ => .undefined

namespace State

def resolveSingleTrackedResolution (s : State V F) (outer index : ℕ) (r : Resolution V) :
    State V F :=
  if (s.promises outer).resolution.isSome then
    s
  else
    match (s.promises outer).trackingResults with
    | none => s
    | some results =>
      let results := results.set index (some r)
      let s := s.modify outer fun promise => { promise with trackingResults := some results }
      match (s.promises outer).trackingMode, r with
      | some .all, .ok _ =>
        if results.all Option.isSome then s.resolved outer (.ok (.array (results.map okValue)))
        else s
      | some .all, .error e => s.resolved outer (.error e)
      | some .race, r => s.resolved outer r
      | _, _ => s

/-- The loop of `new_tracking` over the array. -/
def trackAll (outer : ℕ) : ℕ → List ℕ → State V F → State V F
  | _, [], s => s
  | x, p :: ps, s => trackAll outer (x + 1) ps (s.then_ p none none (some (.track outer x p)))

def newTracking (s : State V F) (mode : TrackingMode) (ps : List ℕ) : State V F :=
  trackAll s.next 0 ps (s.alloc (.tracking mode ps.length))

def start (s : State V F) (p : ℕ) : State V F :=
  { s with jobs := s.jobs.erase p
           running := some { promise := p, pass := .settle, index := 0,
                             bound := (s.promises p).subs.length, awaiting := false } }

/-- The current entry has been dealt with. -/
def nextSub (s : State V F) (j : Job) : State V F :=
  { s with running := some { j with index := j.index + 1, awaiting := false } }

/-- The call of the current handler. The closures of the engine run to their end; for a function of
the program the job waits. -/
def callHandler (s : State V F) (j : Job) (sub : Sub F) (r : Resolution V) : Handler F → State V F
  | .user _ => { s with running := some { j with awaiting := true } }
  | .passVal => (s.resolved sub.promise (.ok (j.pass.arg r))).nextSub j
  | .track outer index source =>
    match (s.promises source).resolution with
    | some r => ((s.resolveSingleTrackedResolution outer index r).resolved sub.promise
        (.ok .null)).nextSub j
    | none => s.nextSub j

/-- One round of a loop of the job of a promise settled with `r`, or the end of the loop. -/
def advance (s : State V F) (j : Job) (r : Resolution V) : State V F :=
  if j.index < j.bound then
    match (s.promises j.promise).subs[j.index]? with
    | some sub => match sub.handler j.pass r with
      | some h => s.callHandler j sub r h
      | none => s.nextSub j
    | none => s
  else
    match j.pass with
    | .settle => { s with running := some { j with
        pass := .finally_, index := 0, bound := (s.promises j.promise).subs.length } }
    | .finally_ => { s with running := none }

end State

/-- What happens next: something that the program does at top level or inside a handler, the start of
a scheduled job, a round of the running job, or the return of the handler that it waits for. The
arguments of `then_` are those of the JavaScript call. -/
inductive Action (V F : Type) where
  | new
  | resolve (p : ℕ) (v : Value V)
  | reject (p : ℕ) (v : Value V)
  | then_ (p : ℕ) (args : List F)
  | catch_ (p : ℕ) (onRejected : F)
  | finally_ (p : ℕ) (onFinally : F)
  | combine (mode : TrackingMode) (ps : List ℕ)
  | start (p : ℕ)
  | advance
  | return_ (r : Resolution V)

namespace Action

/-- The program has its turn: no job is running, or the running one waits for a handler. -/
def UserTurn (s : State V F) : Prop := ∀ j, s.running = some j → j.awaiting = true

/-- The promise that a result refers to exists. -/
def Known (s : State V F) (r : Resolution V) : Prop :=
  ∀ q, r = .ok (.promise q) ∨ r = .error (.promise q) → q < s.next

/-- The action can happen. -/
def Enabled (s : State V F) : Action V F → Prop
  | .new => UserTurn s
  | .resolve p v => UserTurn s ∧ p < s.next ∧ Known s (.ok v)
  | .reject p v => UserTurn s ∧ p < s.next ∧ Known s (.error v)
  | .then_ p _ => UserTurn s ∧ p < s.next
  | .catch_ p _ => UserTurn s ∧ p < s.next
  | .finally_ p _ => UserTurn s ∧ p < s.next
  | .combine _ ps => UserTurn s ∧ ∀ p ∈ ps, p < s.next
  | .start p => s.running = none ∧ p ∈ s.jobs
  | .advance => ∃ j, s.running = some j ∧ j.awaiting = false
  | .return_ r => (∃ j, s.running = some j ∧ j.awaiting = true) ∧ Known s r

def exec (s : State V F) : Action V F → State V F
  | .new => s.alloc .unresolving
  | .resolve p v => s.resolved p (.ok v)
  | .reject p v => s.resolved p (.error v)
  | .then_ p args => s.then_ p (args[0]?.map .user) (args[1]?.map .user) none
  | .catch_ p f => s.then_ p none (some (.user f)) none
  | .finally_ p f => s.then_ p none none (some (.user f))
  | .combine mode ps => s.newTracking mode ps
  | .start p => s.start p
  | .advance => match s.running with
    | some j => match (s.promises j.promise).resolution with
      | some r => s.advance j r
      | none => s
    | none => s
  | .return_ r => match s.running with
    | some j => match (s.promises j.promise).subs[j.index]? with
      | some sub => (s.resolved sub.promise r).nextSub j
      | none => s
    | none => s

end Action

/-- What can be observed: the settlement of a promise, and of its job the call of a handler of the
program and its return. -/
inductive Event (V F : Type) where
  | settled (p : ℕ)
  | call (p index : ℕ) (f : F) (arg : Value V)
  | ret (p index : ℕ) (r : Resolution V)

namespace Action

def advanceEvent (s : State V F) (j : Job) (r : Resolution V) : List (Event V F) :=
  if j.index < j.bound then
    match (s.promises j.promise).subs[j.index]?.bind fun sub => sub.handler j.pass r with
    | some (.user f) => [.call j.promise j.index f (j.pass.arg r)]
    | _ => []
  else []

def handlerEvents (s : State V F) : Action V F → List (Event V F)
  | .advance => match s.running with
    | some j => match (s.promises j.promise).resolution with
      | some r => advanceEvent s j r
      | none => []
    | none => []
  | .return_ r => match s.running with
    | some j => [.ret j.promise j.index r]
    | none => []
  | _ => []

def settlements (s : State V F) : Action V F → List (Event V F)
  | .start _ => []
  | a => ((a.exec s).jobs.drop s.jobs.length).map .settled

def events (s : State V F) (a : Action V F) : List (Event V F) :=
  a.settlements s ++ a.handlerEvents s

end Action

/-- A run whose actions all satisfy `ok`, with what was observed of it. -/
inductive Run (ok : State V F → Action V F → Prop) (s₀ : State V F) :
    List (Event V F) → State V F → Prop
  | refl : Run ok s₀ [] s₀
  | step {es : List (Event V F)} {s : State V F} (h : Run ok s₀ es s) (a : Action V F)
      (he : a.Enabled s) (ho : ok s a) : Run ok s₀ (es ++ a.events s) (a.exec s)

/-- The actions can happen one after the other and all satisfy `ok`. -/
def Allowed (ok : State V F → Action V F → Prop) : State V F → List (Action V F) → Prop
  | _, [] => True
  | s, a :: as => a.Enabled s ∧ ok s a ∧ Allowed ok (a.exec s) as

def observed : State V F → List (Action V F) → List (Event V F)
  | _, [] => []
  | s, a :: as => a.events s ++ observed (a.exec s) as

def afterAll (s : State V F) (as : List (Action V F)) : State V F := as.foldl (fun s a => a.exec s) s

theorem Run.append {ok : State V F → Action V F → Prop} {s₀ s : State V F} {es : List (Event V F)}
    (h : Run ok s₀ es s) {as : List (Action V F)} (ha : Allowed ok s as) :
    Run ok s₀ (es ++ observed s as) (afterAll s as) := by
  induction as generalizing s es with
  | nil => rwa [observed, List.append_nil]
  | cons a as ih =>
    obtain ⟨he, ho, ha⟩ := ha
    rw [observed, ← List.append_assoc]
    exact ih (h.step a he ho) ha

theorem Run.of_allowed {ok : State V F → Action V F → Prop} {s₀ : State V F}
    (as : List (Action V F)) (ha : Allowed ok s₀ as) :
    Run ok s₀ (observed s₀ as) (afterAll s₀ as) := Run.refl.append ha

end Starlight.Promise
