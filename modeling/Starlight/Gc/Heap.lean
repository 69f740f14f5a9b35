import Starlight.Gc.Marking

/-!
# The heap and its collections

`Heap` owns the space and the list of the weak slots. A collection marks from the roots, clears the
weak slots whose target has no bit in the mark bitmap, drops the slots that are not marked
themselves, and sweeps. The roots are what the conservative scan of the stack and the marking
constraints visit; here they are an argument. Marking is the sequential one.

The weak phase looks every target up in the mark bitmap, also a large one, which the bitmap does not
cover: the word it reads then lies behind the bitmap. `beyond` is what that memory holds.
-/

namespace Starlight.Gc

namespace SpaceBitmap

/-- The bitmap with other memory behind it. -/
def withBeyond (b : SpaceBitmap) (beyond : ℕ → BitVec 64) : SpaceBitmap :=
  { b with word := fun i => if i < b.size then b.word i else beyond i }

end SpaceBitmap

namespace Space

/-- The space with other memory behind the mark bitmap. -/
def withBeyond (s : Space) (beyond : ℕ → BitVec 64) : Space :=
  { s with markBitmap := s.markBitmap.withBeyond beyond }

/-- What the weak phase leaves in a slot: a target whose bit is set stays. -/
def keepMarked (s : Space) : Payload → Payload
  | .weakSlot (some val) => if s.markBitmap.test val then .weakSlot (some val) else .weakSlot none
  | _ => .weakSlot none

def updateWeakReference (s : Space) (slot : ℕ) : Space :=
  s.setObject slot { s.objects slot with payload := s.keepMarked (s.objects slot).payload }

end Space

/-- `Heap`: the space, `weak_refs` and `defers`. -/
structure Heap where
  space : Space
  weakRefs : List ℕ
  defers : ℕ

namespace Heap

def new (space : Space) : Heap := ⟨space, [], 0⟩

/-- `allocate`, for a value of `computeSize` bytes: the cell gets a white header. Three headers of
16 bytes are added to the size on the way to the space. `cell` is used for a large cell only. -/
def allocate (h : Heap) (computeSize : ℕ) (value : Payload) (cell : ℕ) : Option (ℕ × Heap) := do
  let (ptr, space) ← h.space.allocate (computeSize + 16 + 16 + 16) cell
  some (ptr.getD 0, { h with space := space.setObject (ptr.getD 0) ⟨.white, value⟩ })

def makeWeak (h : Heap) (target : Option ℕ) : Option (ℕ × Heap) := do
  let (weak, h) ← h.allocate 8 (.weakSlot target) 0
  some (weak, { h with weakRefs := h.weakRefs ++ [weak] })

/-- `WeakRef::upgrade` -/
def upgrade (h : Heap) (slot : ℕ) : Option ℕ :=
  match (h.space.objects slot).payload with
  | .weakSlot value => value
  | .cell _ => none

def write (h : Heap) (p : ℕ) (fields : List ℕ) : Heap :=
  { h with space := h.space.setObject p { h.space.objects p with payload := .cell fields } }

def updateWeakReferences (h : Heap) : Heap :=
  { h with space := h.weakRefs.foldl Space.updateWeakReference h.space }

def resetWeakReferences (h : Heap) : Heap :=
  { h with weakRefs := h.weakRefs.filter h.space.markBitmap.test }

def weakPhase (h : Heap) (v : SlotVisitor) (beyond : ℕ → BitVec 64) : Heap :=
  ({ h with space := v.space.withBeyond beyond }).updateWeakReferences.resetWeakReferences

/-- `collect_internal`: nothing happens while the collector is deferred. -/
def collect (h : Heap) (spurious : ℕ → Bool) (beyond : ℕ → BitVec 64) (roots : List ℕ)
    (fuel : ℕ) : Option Heap :=
  if h.defers > 0 then some h
  else do
    let v ← SlotVisitor.marking spurious h.space roots fuel
    some { h.weakPhase v beyond with space := (h.weakPhase v beyond).space.sweep }

/-- `walk_in_context`: marking from what the context reports, after which the cells it traced are
turned white again. Their marks stay. -/
def walkInContext (h : Heap) (spurious : ℕ → Bool) (roots : List ℕ) (fuel : ℕ) : Option Heap := do
  let v ← SlotVisitor.marking spurious h.space roots fuel
  let v := v.traced.foldl (fun v p => (v.setState spurious p .black .white).2) v
  some { h with space := v.space }

def undefer (h : Heap) : Option Heap :=
  if h.defers = 0 then none else some { h with defers := h.defers - 1 }

/-- One step of the mutator or the collector. `allowed` restricts the exchanges that may fail
spuriously. The mutator writes to cells other than weak slots, and makes weak references to cells. -/
inductive Step (allowed : (ℕ → Bool) → Prop) : Heap → Heap → Prop
  | allocate {h h' : Heap} {computeSize cell p : ℕ} {fields : List ℕ}
      (hcell : LARGE_CUTOFF < computeSize + 48 → h.space.FreshLarge cell)
      (heq : h.allocate computeSize (.cell fields) cell = some (p, h')) : Step allowed h h'
  | makeWeak {h h' : Heap} {target : Option ℕ} {p : ℕ} (htarget : ∀ t ∈ target, t ∈ h.space.cells)
      (heq : h.makeWeak target = some (p, h')) : Step allowed h h'
  | write {h : Heap} {p : ℕ} {old fields : List ℕ} (hp : (h.space.objects p).payload = .cell old) :
      Step allowed h (h.write p fields)
  | defer {h : Heap} : Step allowed h { h with defers := h.defers + 1 }
  | undefer {h h' : Heap} (heq : h.undefer = some h') : Step allowed h h'
  | walkInContext {h h' : Heap} {spurious : ℕ → Bool} {roots : List ℕ} {fuel : ℕ}
      (hallowed : allowed spurious) (hwf : SlotVisitor.PointsToCells h.space roots)
      (heq : h.walkInContext spurious roots fuel = some h') : Step allowed h h'
  | collect {h h' : Heap} {spurious : ℕ → Bool} {beyond : ℕ → BitVec 64} {roots : List ℕ}
      {fuel : ℕ} (hallowed : allowed spurious)
      (heq : h.collect spurious beyond roots fuel = some h') : Step allowed h h'

/-- The heaps that runs reach. -/
inductive Reachable (allowed : (ℕ → Bool) → Prop) : Heap → Prop
  | new {start size : ℕ} {approximate : List ℕ} {beyond : ℕ → BitVec 64} {memory : ℕ → Obj}
      (hmap : Space.ValidMapping start size) (happrox : ∀ a ∈ approximate, PRECISE_CUTOFF ≤ a) :
      Reachable allowed (new (.new start size approximate beyond memory))
  | step {h h' : Heap} (hr : Reachable allowed h) (hstep : Step allowed h h') : Reachable allowed h'

end Heap

end Starlight.Gc
