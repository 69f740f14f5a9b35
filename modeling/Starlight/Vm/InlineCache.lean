import Starlight.Vm.Heap

/-!
# Inline caches

The instructions `GET_BY_ID`, `TRY_GET_BY_ID` and `PUT_BY_ID` on an object. Each instruction of a code
block has a feedback cell of its own, in which the slow path notes the structure it has seen and the
slot of the property; an execution that meets the structure again takes the slot without a lookup.

Two parts of the source never run and are left out: a `ProtoLoad` entry is written but its test is
`false && ..`, and `PutByIdFeedBack` is never given a new structure, since the code that would do so
for an added property is commented out. Nothing can fail after a feedback cell was written, so an
execution that ends with a fault leaves the cell alone.
-/

namespace Starlight

open JsObject

/-- What a cached load has found. -/
inductive GetByIdMode where
  | default
  | protoLoad (base : ℕ)
  | arrayLength
deriving DecidableEq

/-- The contents of a feedback cell. An offset is `none` for `u32::MAX`. -/
inductive TypeFeedBack where
  | propertyCache (structure_ : ℕ) (offset : Option ℕ) (mode : GetByIdMode)
  | putByIdFeedBack (oldStructure : ℕ) (offset : Option ℕ)
  | none
deriving DecidableEq

/-- The kinds of instructions with a feedback cell. -/
inductive AccessKind where
  | getById
  | tryGetById
  | putById
deriving DecidableEq

/-- An instruction with a feedback cell, and the strictness of its code block. `description` is the
text of the name, for the error message. -/
structure Site where
  access : AccessKind
  name : Symbol
  description : String
  strict : Bool

def slotIndex (offset : Option ℕ) : ℕ := offset.getD (2 ^ 32 - 1)

/-- The feedback that `slow_get_by_id` notes for a property that may be cached. -/
def loadFeedBack (o : ℕ) (slot : Slot) (w : World) : TypeFeedBack :=
  match slot.base with
  | some base =>
    if (w.shapes.structures (w.objects o).structure_).prototype = some base then
      .propertyCache (w.objects o).structure_ slot.offset (.protoLoad base)
    else
      .propertyCache (w.objects base).structure_ slot.offset .default
  | Option.none => .none

def slowGetById (site : Site) (fdbk : TypeFeedBack) (o : ℕ) : Vm (JsValue × TypeFeedBack) := do
  let obj ← Vm.object o
  if site.name = Symbol.length ∧ obj.class_ = .array then
    return (JsValue.newU32 obj.indexed.length, .propertyCache obj.structure_ Option.none .arrayLength)
  else
    let (found, slot) ← getPropertySlot o site.name Slot.new
    let noted ← Exec.gets (loadFeedBack o slot)
    let fdbk := if slot.isLoadCacheable then noted else fdbk
    if found then
      return (← slot.stored.get (.object o), fdbk)
    else if site.access = .tryGetById then
      Exec.fail (.throw (.referenceError ("Property '" ++ site.description ++ "' not found")))
    else
      return (.undefined, fdbk)

/-- Whether an execution on object `o` takes the value from the cache. -/
def getHit (w : World) (fdbk : TypeFeedBack) (o : ℕ) : Prop :=
  match fdbk with
  | .propertyCache s _ .default => s = (w.objects o).structure_
  | .propertyCache _ _ (.protoLoad _) => False
  | .propertyCache _ _ .arrayLength => (w.objects o).class_ = .array
  | _ => False

instance (w : World) (fdbk : TypeFeedBack) (o : ℕ) : Decidable (getHit w fdbk o) := by
  unfold getHit
  split <;> infer_instance

def getCached (fdbk : TypeFeedBack) (o : ℕ) : Vm JsValue :=
  match fdbk with
  | .propertyCache _ _ .arrayLength => do
    let obj ← Vm.object o
    return JsValue.newU32 obj.indexed.length
  | .propertyCache _ offset _ => Vm.direct o (slotIndex offset)
  | _ => Exec.stuck

def getById (site : Site) (fdbk : TypeFeedBack) (o : ℕ) : Vm (JsValue × TypeFeedBack) := fun w =>
  if getHit w fdbk o then (do return (← getCached fdbk o, fdbk) : Vm _) w
  else slowGetById site fdbk o w

def putByIdSlow (site : Site) (fdbk : TypeFeedBack) (o : ℕ) (value : JsValue) : Vm TypeFeedBack := do
  let slot ← putSlot o site.name value Slot.new site.strict
  let obj ← Vm.object o
  if slot.isPutCacheable && slot.base = some o && slot.putResult ≠ .new then
    return .putByIdFeedBack obj.structure_ slot.offset
  else
    return fdbk

/-- Whether an execution on object `o` writes to the cached slot. -/
def putHit (w : World) (fdbk : TypeFeedBack) (o : ℕ) : Prop :=
  match fdbk with
  | .putByIdFeedBack s _ => s = (w.objects o).structure_
  | _ => False

instance (w : World) (fdbk : TypeFeedBack) (o : ℕ) : Decidable (putHit w fdbk o) := by
  unfold putHit
  split <;> infer_instance

def putById (site : Site) (fdbk : TypeFeedBack) (o : ℕ) (value : JsValue) : Vm TypeFeedBack := fun w =>
  match fdbk with
  | .putByIdFeedBack s offset =>
    if s = (w.objects o).structure_ then
      (do Vm.setDirect o (slotIndex offset) value; return fdbk : Vm _) w
    else putByIdSlow site fdbk o value w
  | .none => putByIdSlow site fdbk o value w
  | .propertyCache .. => .stuck

/-! ### Runs -/

/-- A heap with the feedback cells of the code that runs on it. -/
structure CacheState where
  world : World
  feedback : ℕ → TypeFeedBack

/-- A step of a run: an operation of the heap, or one of the cached instructions. -/
inductive CacheOp where
  | heap (op : Op)
  | get (fdbk o : ℕ)
  | put (fdbk o : ℕ) (value : JsValue)

/-- What a step leaves behind; `none` when it does not end. -/
def CacheOp.exec (code : ℕ → Site) (c : CacheState) : CacheOp → Option CacheState
  | .heap op => ((op.exec c.world).state?).map fun w => { c with world := w }
  | .get fdbk o => match getById (code fdbk) (c.feedback fdbk) o c.world with
    | .ok (_, f) w => some ⟨w, Function.update c.feedback fdbk f⟩
    | .error _ w => some { c with world := w }
    | _ => Option.none
  | .put fdbk o value => match putById (code fdbk) (c.feedback fdbk) o value c.world with
    | .ok f w => some ⟨w, Function.update c.feedback fdbk f⟩
    | .error _ w => some { c with world := w }
    | _ => Option.none

/-- The step names existing cells and an instruction of its kind. -/
def CacheOp.Valid (code : ℕ → Site) (c : CacheState) : CacheOp → Prop
  | .heap op => op.Valid c.world
  | .get fdbk o => (code fdbk).access ≠ .putById ∧ o < c.world.nextObject
  | .put fdbk o _ => (code fdbk).access = .putById ∧ o < c.world.nextObject

/-- The states that runs of the code reach whose steps all satisfy `ok`. -/
def CacheReachable (code : ℕ → Site) (ok : CacheState → CacheOp → Prop) (c : CacheState) : Prop :=
  ∃ order, Relation.ReflTransGen
    (fun c c' => ∃ op : CacheOp, op.Valid code c ∧ ok c op ∧ op.exec code c = some c')
    ⟨World.init order, fun _ => .none⟩ c

end Starlight
