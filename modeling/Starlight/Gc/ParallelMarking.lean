import Mathlib.Algebra.BigOperators.Fin
import Starlight.Gc.Marking

/-!
# Parallel marking

Each worker pops a cell from its own stack, its deque, the injector or the deque of another worker,
turns it black, and visits what it reports. A worker that finds nothing takes itself out of the
count of the terminator; it leaves the loop when the count is zero, and otherwise counts itself in
again. Deques, the injector and the count are linearizable: a step of a worker is one access to one
of them, to the colour of a cell, or to a word of the mark bitmap. Setting a bit of the bitmap is
two such steps, a load and a store.

`advance` is one step of one worker. What the code leaves to chance, to the other workers or to the
hardware is its `Choice` argument.
-/

namespace Starlight.Gc

/-- Where a worker is in `run`. -/
inductive Pc
  | popLocal
  | popWorker
  | popGlobal
  | steal (attempts : ℕ)
  | popped (p : ℕ)
  | trace (fields : List ℕ)
  | mark (p : ℕ) (fields : List ℕ)
  | store (p : ℕ) (oldWord : BitVec 64) (fields : List ℕ)
  | tryTerminate
  | sleep
  | increase (nworkers : ℕ)
  | finished
  deriving DecidableEq

/-- `MarkingTask`: the stack of its visitor, its deque, and the counter of its visitor, which nothing
increments. `traced` records the cells it traced. -/
structure MarkingTask where
  pc : Pc
  queue : List ℕ
  worker : List ℕ
  bytesVisited : ℕ
  traced : List ℕ

/-- The memory the workers share, and the workers. `nworkers` is the count of the terminator. -/
structure ParallelMarking (n : ℕ) where
  space : Space
  injector : List ℕ
  nworkers : ℕ
  task : Fin n → MarkingTask

/-- How a step goes, where the code of the worker does not say. `empty` and `batch` are the outcomes
`Steal::Empty` and `Steal::Success` for a victim, `retry` is `Steal::Retry`; a batch is some of the
victim's entries in any order. -/
inductive Choice (n : ℕ)
  | go
  | retry
  | spurious
  | empty (victim : Fin n)
  | batch (victim : Fin n) (p : ℕ) (batch rest : List ℕ)
  deriving DecidableEq

namespace ParallelMarking

variable {n : ℕ}

/-- `pmarking::start`, after the roots were visited. -/
def start (n : ℕ) (v : SlotVisitor) : ParallelMarking n where
  space := v.space
  injector := v.queue
  nworkers := n
  task := fun _ => ⟨.popLocal, [], [], 0, []⟩

/-- One worker changes. -/
def setTask (σ : ParallelMarking n) (w : Fin n) (t : MarkingTask) : ParallelMarking n :=
  { σ with task := Function.update σ.task w t }

def maybePushToInjector (injector : List ℕ) (t : MarkingTask) : List ℕ × MarkingTask :=
  if t.bytesVisited > 100 then
    if t.queue.length > 4 then
      let moved := t.queue.length - t.queue.length / 2
      (injector ++ t.queue.take moved,
        { t with queue := t.queue.drop moved, bytesVisited := 0 })
    else (injector, { t with bytesVisited := 0 })
  else (injector, t)

/-- The store of `SpaceBitmap::modify`, of the word that was loaded before. -/
def storeMark (s : Space) (p : ℕ) (oldWord : BitVec 64) : Space :=
  let b := s.markBitmap
  let index := SpaceBitmap.offsetToIndex (b.offset p)
  let mask := SpaceBitmap.offsetToMask (b.offset p)
  if oldWord &&& mask = 0#64 then
    { s with markBitmap := { b with word := Function.update b.word index (oldWord ||| mask) } }
  else s

/-- `trace` visits one pointer: it goes on to `mark` if the cell turned from white to grey. -/
def visitField (σ : ParallelMarking n) (w : Fin n) (q : ℕ) (fields : List ℕ) (fails : Bool) :
    ParallelMarking n :=
  let t := σ.task w
  if σ.space.isHeapPointer q ∧ (σ.space.objects q).state = .white ∧ fails = false then
    { σ with space := σ.space.forceSetState q .grey }.setTask w { t with pc := .mark q fields }
  else σ.setTask w { t with pc := .trace fields }

/-- `run` turns the popped cell black, and traces it if that succeeds. -/
def blacken (σ : ParallelMarking n) (w : Fin n) (p : ℕ) (fails : Bool) : ParallelMarking n :=
  let t := σ.task w
  if (σ.space.objects p).state = .grey ∧ fails = false then
    { σ with space := σ.space.forceSetState p .black }.setTask w
      { t with pc := .trace (σ.space.objects p).payload.trace, traced := p :: t.traced }
  else σ.setTask w { t with pc := .popLocal }

/-- One step of the worker `w`; `none` if the choice does not fit. -/
def advance (σ : ParallelMarking n) (w : Fin n) (choice : Choice n) :
    Option (ParallelMarking n) :=
  let t := σ.task w
  match t.pc, choice with
  | .popLocal, .go => match t.queue with
    | [] => some (σ.setTask w { t with pc := .popWorker })
    | p :: queue => some (σ.setTask w { t with pc := .popped p, queue := queue })
  | .popWorker, .go => match t.worker with
    | [] => some (σ.setTask w { t with pc := .popGlobal })
    | p :: worker => some (σ.setTask w { t with pc := .popped p, worker := worker })
  | .popGlobal, .retry => some σ
  | .popGlobal, .empty _ =>
    if σ.injector = [] then
      some (σ.setTask w { t with pc := if n = 1 then .tryTerminate else .steal (2 * n) })
    else none
  | .popGlobal, .batch _ p batch rest =>
    if σ.injector.Perm (p :: batch ++ rest) then
      some ({ σ with injector := rest }.setTask w
        { t with pc := .popped p, worker := batch ++ t.worker })
    else none
  | .steal 0, .go => some (σ.setTask w { t with pc := .tryTerminate })
  | .steal (_ + 1), .retry => some σ
  | .steal (attempts + 1), .empty victim =>
    if victim ≠ w ∧ (σ.task victim).worker = [] then
      some (σ.setTask w { t with pc := .steal attempts })
    else none
  | .steal (_ + 1), .batch victim p batch rest =>
    if victim ≠ w ∧ (σ.task victim).worker.Perm (p :: batch ++ rest) then
      some ((σ.setTask victim { σ.task victim with worker := rest }).setTask w
        { t with pc := .popped p, worker := batch ++ t.worker })
    else none
  | .popped p, .go => some (σ.blacken w p false)
  | .popped p, .spurious => some (σ.blacken w p true)
  | .trace [], .go =>
    let (injector, t) := maybePushToInjector σ.injector t
    some ({ σ with injector := injector }.setTask w { t with pc := .popLocal })
  | .trace (q :: fields), .go => some (σ.visitField w q fields false)
  | .trace (q :: fields), .spurious => some (σ.visitField w q fields true)
  | .mark p fields, .go =>
    if σ.space.liveBitmap.hasAddress p then
      let oldWord := σ.space.markBitmap.word
        (SpaceBitmap.offsetToIndex (σ.space.markBitmap.offset p))
      some (σ.setTask w { t with pc := .store p oldWord fields })
    else some ({ σ with space := σ.space.mark p }.setTask w
      { t with pc := .trace fields, queue := p :: t.queue })
  | .store p oldWord fields, .go =>
    some ({ σ with space := storeMark σ.space p oldWord }.setTask w
      { t with pc := .trace fields, queue := p :: t.queue })
  | .tryTerminate, .go =>
    if n = 1 then some (σ.setTask w { t with pc := .finished })
    else some ({ σ with nworkers := σ.nworkers - 1 }.setTask w
      { t with pc := if σ.nworkers = 1 then .finished else .sleep })
  | .sleep, .go => some (σ.setTask w { t with pc := .increase σ.nworkers })
  | .increase 0, .go => some (σ.setTask w { t with pc := .finished })
  | .increase (k + 1), .go =>
    if σ.nworkers = k + 1 then
      some ({ σ with nworkers := k + 2 }.setTask w { t with pc := .popLocal })
    else some (σ.setTask w { t with pc := .increase σ.nworkers })
  | _, _ => none

/-- The word of the mark bitmap that a worker is about to overwrite is what it loaded. -/
def storesCurrentWord (s : Space) : Pc → Bool
  | .store p oldWord _ =>
    decide (s.markBitmap.word (SpaceBitmap.offsetToIndex (s.markBitmap.offset p)) = oldWord)
  | _ => true

/-- No other worker disturbs the step: no exchange fails spuriously, and a word of the mark bitmap is
stored only while it is what the worker loaded. -/
def Undisturbed (σ : ParallelMarking n) (w : Fin n) (choice : Choice n) : Prop :=
  choice ≠ .spurious ∧ storesCurrentWord σ.space (σ.task w).pc = true

instance (σ : ParallelMarking n) (w : Fin n) (choice : Choice n) :
    Decidable (σ.Undisturbed w choice) :=
  inferInstanceAs (Decidable (_ ∧ _))

inductive Reaches (ok : ParallelMarking n → Fin n → Choice n → Prop) (σ₀ : ParallelMarking n) :
    ParallelMarking n → Prop
  | refl : Reaches ok σ₀ σ₀
  | step {σ σ' : ParallelMarking n} {w : Fin n} {choice : Choice n} (h : Reaches ok σ₀ σ)
      (hok : ok σ w choice) (hstep : σ.advance w choice = some σ') : Reaches ok σ₀ σ'

def run (ok : ParallelMarking n → Fin n → Choice n → Prop)
    [∀ σ w choice, Decidable (ok σ w choice)] (σ : ParallelMarking n) :
    List (Fin n × Choice n) → Option (ParallelMarking n)
  | [] => some σ
  | (w, choice) :: steps =>
    if ok σ w choice then (σ.advance w choice).bind fun σ' => run ok σ' steps else none

theorem reaches_of_run {ok : ParallelMarking n → Fin n → Choice n → Prop}
    [∀ σ w choice, Decidable (ok σ w choice)] {σ₀ σ σ' : ParallelMarking n}
    {steps : List (Fin n × Choice n)} (h : Reaches ok σ₀ σ) (hrun : run ok σ steps = some σ') :
    Reaches ok σ₀ σ' := by
  induction steps generalizing σ with
  | nil => exact Option.some.inj hrun ▸ h
  | cons step steps ih =>
    obtain ⟨hok, hrun⟩ := Option.ite_none_right_eq_some.mp hrun
    obtain ⟨σ₁, hstep, hrest⟩ := Option.bind_eq_some_iff.mp hrun
    exact ih (h.step hok hstep) hrest

end ParallelMarking

end Starlight.Gc
