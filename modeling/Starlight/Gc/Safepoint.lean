import Mathlib.Data.List.Basic
import Mathlib.Logic.Relation

/-!
# The safepoint protocol

Every thread has a mutator, whose state is one atomic word. A thread that wants the others to stop
enters a safepoint scope: it takes the lock of the list of mutators, asks each mutator of the list to
stop, and waits on the barrier until those that were running have stopped. The state words, the
counters, the lock and the sections under the mutex of the barrier are linearizable: a step of a
thread is one access to one of them. A thread that is woken on a condition variable tests its
condition again, so a wait is a step that is not enabled while its condition fails.

`GC` itself does nothing to the safepoint, so that the calls of `rt.gc.gc()` in the slow paths of the
main thread are no steps. Nothing calls `Barrier::arm` or `Mutator::safepoint_slowpath`.
-/

namespace Starlight.Gc

inductive MutatorState
  | running
  | parked
  | safepointRequested
  | safepoint
  | parkedSafepointRequested
  deriving DecidableEq

/-- Where a thread is: `outside` of the functions of the protocol, or before its next access to what
is shared. `panicked` is where a failed assertion leaves it. -/
inductive SafepointPc (T : Type*)
  | outside
  | addLock
  | addMutator
  | removeLock
  | removeMutator
  | enterTest
  | enterLoad
  | enterStore (scopes : BitVec 64)
  | enterLock
  | load (mutators : List T) (running : ℕ)
  | exchange (head : T) (expected : MutatorState) (next : List T) (running : ℕ)
  | waitStopped (running : ℕ)
  | leaveLoad
  | leaveStore (scopes : BitVec 64)
  | swap (mutators : List T)
  | disarm
  | unlock
  | parkSlowpath
  | notifyPark
  | unparkSlowpath
  | waitInUnpark
  | panicked
  deriving DecidableEq

/-- A thread: where it is, whether it has parked its mutator, and the number of safepoint scopes it
has entered and not left. -/
structure SafepointThread (T : Type*) where
  pc : SafepointPc T
  parked : Bool
  scopes : ℕ

/-- `GlobalSafepoint`, the state words of the mutators, and the threads. `mutators` is the linked
list, and `lock` the thread that holds `mutators_lock`. -/
structure GlobalSafepoint (T : Type*) where
  mutators : List T
  lock : Option T
  activeSafepointScopes : BitVec 64
  armed : Bool
  stopped : ℕ
  state : T → MutatorState
  thread : T → SafepointThread T

/-- The calls of a thread that is outside. -/
inductive SafepointCall
  | addMutator
  | removeMutator
  | safepoint
  | park
  | unpark
  | enterSafepointScope
  | leaveSafepointScope
  deriving DecidableEq

namespace GlobalSafepoint

variable {T : Type*} [DecidableEq T]

/-- `GlobalSafepoint::new`, and mutators that are parked, as they are when initialized. -/
def new : GlobalSafepoint T where
  mutators := []
  lock := none
  activeSafepointScopes := 0
  armed := false
  stopped := 0
  state := fun _ => .parked
  thread := fun _ => ⟨.outside, true, 0⟩

def setThread (σ : GlobalSafepoint T) (t : T) (th : SafepointThread T) : GlobalSafepoint T :=
  { σ with thread := Function.update σ.thread t th }

def goto (σ : GlobalSafepoint T) (t : T) (pc : SafepointPc T) : GlobalSafepoint T :=
  σ.setThread t { σ.thread t with pc := pc }

def setState (σ : GlobalSafepoint T) (m : T) (s : MutatorState) : GlobalSafepoint T :=
  { σ with state := Function.update σ.state m s }

/-- What `enter_safepoint_scope` puts in the place of the state it has loaded. -/
def requested (expected : MutatorState) : MutatorState :=
  if expected = .parked then .parkedSafepointRequested else .safepointRequested

/-- The thread `t` makes a call. A thread parks its mutator when it is not parked and unparks it when
it is, adds it when it is not in the list and removes it when it is, and leaves the scopes it has
entered. -/
def call (σ : GlobalSafepoint T) (t : T) : SafepointCall → Option (GlobalSafepoint T)
  | .addMutator => if t ∈ σ.mutators then none else some (σ.goto t .addLock)
  | .removeMutator => if t ∈ σ.mutators then some (σ.goto t .removeLock) else none
  -- the state is loaded and nothing is done with it
  | .safepoint => some σ
  | .park =>
    if (σ.thread t).parked then none
    else if σ.state t = .running then
      some ((σ.setState t .parked).setThread t { σ.thread t with parked := true })
    else some (σ.goto t .parkSlowpath)
  | .unpark =>
    if (σ.thread t).parked then
      if σ.state t = .parked then
        some ((σ.setState t .running).setThread t { σ.thread t with parked := false })
      else some (σ.goto t .unparkSlowpath)
    else none
  | .enterSafepointScope => some (σ.goto t .enterTest)
  | .leaveSafepointScope =>
    if (σ.thread t).scopes = 0 then none
    else some (σ.setThread t
      { σ.thread t with pc := .leaveLoad, scopes := (σ.thread t).scopes - 1 })

/-- The next step of a thread that is inside one of the functions; `none` when it has to wait. -/
def advance (main : T → Bool) (σ : GlobalSafepoint T) (t : T) : Option (GlobalSafepoint T) :=
  match (σ.thread t).pc with
  | .outside | .panicked => none
  | .addLock =>
    if σ.lock = none then some ({ σ with lock := some t }.goto t .addMutator) else none
  | .addMutator =>
    some ({ σ with mutators := t :: σ.mutators, lock := none }.goto t .outside)
  | .removeLock =>
    if σ.lock = none then some ({ σ with lock := some t }.goto t .removeMutator) else none
  | .removeMutator =>
    some ({ σ with mutators := σ.mutators.erase t, lock := none }.goto t .outside)
  | .enterTest =>
    if 1 < σ.activeSafepointScopes then
      some (σ.setThread t { σ.thread t with pc := .outside, scopes := (σ.thread t).scopes + 1 })
    else some (σ.goto t .enterLoad)
  | .enterLoad => some (σ.goto t (.enterStore σ.activeSafepointScopes))
  | .enterStore n => some ({ σ with activeSafepointScopes := n + 1 }.goto t .enterLock)
  | .enterLock =>
    if σ.lock = none then some ({ σ with lock := some t }.goto t (.load σ.mutators 0)) else none
  | .load [] running => some (σ.goto t (.waitStopped running))
  | .load (m :: next) running => some (σ.goto t (.exchange m (σ.state m) next running))
  | .exchange m expected next running =>
    if σ.state m = expected then
      some ((σ.setState m (requested expected)).goto t
        (if expected = .running then .load next (running + 1)
          else if expected = .parked then .load next running else .panicked))
    -- the failed exchange is tried again with the same `expected`
    else some σ
  | .waitStopped running =>
    if σ.stopped < running then none
    else if σ.stopped = running then
      some (σ.setThread t { σ.thread t with pc := .outside, scopes := (σ.thread t).scopes + 1 })
    else some (σ.goto t .panicked)
  | .leaveLoad => some (σ.goto t (.leaveStore σ.activeSafepointScopes))
  | .leaveStore n =>
    some ({ σ with activeSafepointScopes := n - 1 }.goto t (.swap σ.mutators))
  | .swap [] => some (σ.goto t .disarm)
  | .swap (m :: next) =>
    some ((σ.setState m .parked).goto t
      (if σ.state m = .parkedSafepointRequested ∨ σ.state m = .safepoint then .swap next
        else .panicked))
  | .disarm =>
    if σ.armed then some ({ σ with armed := false, stopped := 0 }.goto t .unlock)
    else some (σ.goto t .panicked)
  | .unlock => some ({ σ with lock := none }.goto t .outside)
  | .parkSlowpath =>
    if main t then
      if σ.state t = .running then
        some ((σ.setState t .parked).setThread t ⟨.outside, true, (σ.thread t).scopes⟩)
      else some σ
    else if σ.state t = .safepointRequested then
      some ((σ.setState t .parkedSafepointRequested).goto t .notifyPark)
    else some (σ.goto t .panicked)
  | .notifyPark =>
    some ({ σ with stopped := σ.stopped + 1 }.setThread t ⟨.outside, true, (σ.thread t).scopes⟩)
  | .unparkSlowpath =>
    if main t then
      if σ.state t = .parkedSafepointRequested then
        some ((σ.setState t .safepointRequested).setThread t
          ⟨.outside, false, (σ.thread t).scopes⟩)
      else some (σ.goto t .panicked)
    else if σ.state t = .parked then
      -- the source sets `ParkedSafepointRequested` here and returns
      some ((σ.setState t .parkedSafepointRequested).setThread t
        ⟨.outside, false, (σ.thread t).scopes⟩)
    else some (σ.goto t .waitInUnpark)
  | .waitInUnpark => if σ.armed then none else some (σ.goto t .unparkSlowpath)

/-- What a thread does next: a call, or the next step of the call it is in. -/
inductive Event (T : Type*)
  | call (t : T) (c : SafepointCall)
  | advance (t : T)
  deriving DecidableEq

def step (main : T → Bool) (σ : GlobalSafepoint T) : Event T → Option (GlobalSafepoint T)
  | .call t c => if (σ.thread t).pc = .outside then σ.call t c else none
  | .advance t => σ.advance main t

def run (main : T → Bool) (σ : GlobalSafepoint T) (es : List (Event T)) :
    Option (GlobalSafepoint T) :=
  es.foldlM (fun τ e => τ.step main e) σ

/-- The states that some interleaving of the threads reaches. -/
def Reachable (main : T → Bool) (σ : GlobalSafepoint T) : Prop :=
  Relation.ReflTransGen (fun τ τ' => ∃ e, step main τ e = some τ') new σ

/-- While a thread is in a safepoint scope, the mutators of the other threads are not running. -/
def Exclusive (σ : GlobalSafepoint T) : Prop :=
  ∀ i m, 0 < (σ.thread i).scopes → m ∈ σ.mutators → m ≠ i → σ.state m ≠ .running

/-- No assertion has failed. -/
def NoFailure (σ : GlobalSafepoint T) : Prop := ∀ t, (σ.thread t).pc ≠ .panicked

end GlobalSafepoint

end Starlight.Gc
