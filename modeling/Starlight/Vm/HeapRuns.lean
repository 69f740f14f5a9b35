import Starlight.Vm.HeapSpec

/-!
# What runs of the heap keep

Along every run whose steps satisfy `Op.KeepsSlots`, the slots of every object are laid out by its
structure, and an operation on one object is not seen by another. Both fail without the condition:
`JsObject::copy` puts the copy on the structure of its source even when that structure is unique, and
from then on a property added to one of the two appears in the other, which has no slot for it.
-/

namespace Starlight

open JsObject World

variable {P : Policy} {w w' : World} {o : ℕ}

theorem World.inv_init (P : Policy) (order : HashOrder) : (World.init order).Inv P where
  shapes := Shapes.inv_init.mono fun _ hs => by
    obtain ⟨o, ho, -⟩ := hs
    exact absurd ho (Nat.not_lt_zero o)
  sole ho := absurd ho (Nat.not_lt_zero _)
  ok ho := absurd ho (Nat.not_lt_zero _)
  proto_lt hr := absurd hr (Nat.not_lt_zero _)
  cells ho := absurd ho (Nat.not_lt_zero _)

/-- **The run lemma.** The invariant holds in every state of a run whose steps fit. -/
theorem Reachable.inv (h : Reachable (fun w op => op.KeepsSlots w ∧ op.Fits P w) w)
    (hempty : P .empty) (hundef : P .undefined) : w.Inv P := by
  obtain ⟨order, h⟩ := h
  induction h with
  | refl => exact World.inv_init P order
  | tail _ hstep ih =>
    obtain ⟨op, hv, ⟨hk, hf⟩, hs⟩ := hstep
    exact Kept.inv (Result.Sat.state (keeps_exec ih hv hk hf hempty hundef) hs)

def layoutPolicy : Policy := ⟨fun _ => True, False⟩

theorem Op.fits_layoutPolicy (w : World) (op : Op) : op.Fits layoutPolicy w := by
  cases op with
  | newObject s class_ => exact False.elim
  | newFromPoint s class_ => exact False.elim
  | on o op =>
    cases op with
    | define name desc throwable => exact ⟨fun _ _ => trivial, fun _ _ _ _ _ _ _ => trivial⟩
    | _ => exact trivial
  | _ => exact trivial

theorem Reachable.mono {ok ok' : World → Op → Prop} (h : Reachable ok w)
    (hok : ∀ w op, ok w op → ok' w op) : Reachable ok' w := by
  obtain ⟨order, h⟩ := h
  refine ⟨order, Relation.ReflTransGen.mono ?_ _ _ h⟩
  rintro w w' ⟨op, hv, ho, hs⟩
  exact ⟨op, hv, hok w op ho, hs⟩

theorem Reachable.layout_inv (h : Reachable (fun w op => op.KeepsSlots w) w) :
    w.Inv layoutPolicy :=
  (h.mono fun w op hk => ⟨hk, op.fits_layoutPolicy w⟩).inv trivial trivial

theorem Reachable.step {ok : World → Op → Prop} (h : Reachable ok w) (op : Op) (hv : op.Valid w)
    (ho : ok w op) (hs : (op.exec w).state? = some w') : Reachable ok w' := by
  obtain ⟨order, h⟩ := h
  exact ⟨order, h.tail ⟨op, hv, ho, hs⟩⟩

/-! ### The slot layout -/

structure SlotsLaidOut (w : World) (o : ℕ) : Prop where
  offset_lt : ∀ n e, (w.table o).lookup n = some e →
    e.offset < w.shapes.getSlotsSize (w.objects o).structure_
  size_le : w.shapes.getSlotsSize (w.objects o).structure_ ≤
    w.shapes.storageCapacity (w.objects o).structure_
  capacity_le : w.shapes.storageCapacity (w.objects o).structure_ ≤ (w.objects o).slots.length
  distinct : ∀ n n' e e', (w.table o).lookup n = some e → (w.table o).lookup n' = some e' →
    e.offset = e'.offset → n = n'
  disjoint : ∀ n e, (w.table o).lookup n = some e →
    e.offset ∉ (w.shapes.structures (w.objects o).structure_).deleted

theorem World.Inv.slotsLaidOut (h : w.Inv P) (ho : o < w.nextObject) : SlotsLaidOut w o where
  offset_lt n e he := by
    rw [h.shapes.getSlotsSize_eq (h.live ho)]
    exact (h.shapes.layout (h.live ho)).lt he
  size_le := Shapes.getSlotsSize_le_storageCapacity _ _
  capacity_le := (h.ok ho).slots
  distinct _ _ _ _ he he' := (h.shapes.layout (h.live ho)).inj he he'
  disjoint _ _ he := (h.shapes.layout (h.live ho)).notMem_free he

/-- The state after an operation that does not panic. -/
def World.after (w : World) (op : Op) : World := ((op.exec w).state?).getD w

/-- An object alone on a unique structure. -/
def uniqueWorld : World :=
  (World.init ⟨fun _ => [], fun _ => []⟩).after (.newUniqueObject none false .object)

/-- The object and its copy. -/
def copiedWorld : World := uniqueWorld.after (.copy 0)

/-- A property is added to the original. -/
def addedWorld : World := copiedWorld.after (.on 0 (.put (.priv 0) .undefined false))

theorem reachable_copiedWorld : Reachable (fun _ _ => True) copiedWorld := by
  have h₀ : Reachable (fun _ _ => True) (World.init ⟨fun _ => [], fun _ => []⟩) := ⟨_, .refl⟩
  have h₁ : Reachable (fun _ _ => True) uniqueWorld :=
    h₀.step (.newUniqueObject none false .object) (fun _ hp => by cases hp) trivial rfl
  exact h₁.step (.copy 0) (show 0 < uniqueWorld.nextObject by decide) trivial rfl

theorem addedWorld_eq : (Op.exec (.on 0 (.put (.priv 0) .undefined false)) copiedWorld).state? =
    some addedWorld := rfl

theorem reachable_addedWorld : Reachable (fun _ _ => True) addedWorld :=
  reachable_copiedWorld.step (.on 0 (.put (.priv 0) .undefined false))
    (show 0 < copiedWorld.nextObject by decide) trivial addedWorld_eq

/-- An object on a shared structure. -/
def objectWorld : World :=
  ((World.init ⟨fun _ => [], fun _ => []⟩).after (.newStructure none false)).after
    (.newObject 0 .object)

/-- The object and its copy, both on the shared structure. -/
def sharedWorld : World := objectWorld.after (.copy 0)

theorem reachable_sharedWorld : Reachable (fun w op => op.KeepsSlots w) sharedWorld := by
  set w₀ := World.init ⟨fun _ => [], fun _ => []⟩ with hw₀
  have h₀ : Reachable (fun w op => op.KeepsSlots w) w₀ := ⟨_, .refl⟩
  have h₁ : Reachable (fun w op => op.KeepsSlots w) (w₀.after (.newStructure none false)) :=
    h₀.step (.newStructure none false) (fun _ hp => by cases hp) trivial rfl
  have h₂ : Reachable (fun w op => op.KeepsSlots w) objectWorld :=
    h₁.step (.newObject 0 .object) (show 0 < 1 by decide) (show _ = true from rfl) rfl
  exact h₂.step (.copy 0) (show 0 < objectWorld.nextObject by decide)
    ⟨show _ = true from rfl, id⟩ rfl

structure OwnProperty where
  slot : StoredSlot
  accessor : Option Accessor
deriving DecidableEq

/-- The own property of object `o` at a location, with its getter and setter. -/
def World.ownProperty (w : World) (o : ℕ) (l : Loc) : Option OwnProperty :=
  (slotAt (w.table o) (w.objects o) l).map fun s => ⟨s, s.cell.map w.accessors⟩

/-- Nothing that can be observed of object `b` itself has changed: the names of its properties, their
values and attributes, its elements, its prototype, and whether it is extensible. -/
structure SameOwn (w w' : World) (b : ℕ) : Prop where
  names : ∀ n, n ∈ w'.table b ↔ n ∈ w.table b
  property : ∀ l, w'.ownProperty b l = w.ownProperty b l
  elements : (w'.objects b).indexed.vector = (w.objects b).indexed.vector
  prototype : w'.prototype b = w.prototype b
  extensible : (w'.objects b).extensible = (w.objects b).extensible

theorem World.SameObject.sameOwn {b : ℕ} (h : SameObject w w' b) : SameOwn w w' b where
  names n := by rw [h.table]
  property l := by
    unfold World.ownProperty
    rw [h.table, h.object]
    cases hs : slotAt (w.table b) (w.objects b) l with
    | none => rfl
    | some s =>
      have hcell : s.cell.map w'.accessors = s.cell.map w.accessors := by
        cases hc : s.cell with
        | none => rfl
        | some c =>
          rw [Option.map_some, Option.map_some,
            h.accessor l c (World.cellAt_eq_some.mpr ⟨s, hs, hc⟩)]
      rw [Option.map_some, Option.map_some, hcell]
  elements := by rw [h.object]
  prototype := by rw [World.prototype, h.object, h.shape.prototype, World.prototype]
  extensible := by rw [h.object]

/-- **Isolation.** In every state of a run that keeps unique structures with their objects, an
operation on object `a`, however it ends, leaves every other object as it was. -/
theorem objects_isolated (h : Reachable (fun w op => op.KeepsSlots w) w) {a b : ℕ}
    (hb : b < w.nextObject) (hne : b ≠ a) (op : ObjectOp) (hv : (Op.on a op).Valid w)
    (hk : (Op.on a op).KeepsSlots w) (hs : (op.exec a w).state? = some w') : SameOwn w w' b := by
  have ht : Touch layoutPolicy a w w' := by
    refine Result.Sat.state (Result.Sat.mono (touches_exec h.layout_inv hv hk
      (Op.fits_layoutPolicy w _) trivial) (fun _ _ ha => ha.1) fun _ _ he => he) hs
  exact (ht.frame b hb hne).sameOwn

/-- The copy of an object on a unique structure gets the property that is added to the original. -/
theorem not_objects_isolated :
    ¬ ∀ w, Reachable (fun _ _ => True) w → ∀ a b, b < w.nextObject → b ≠ a → ∀ op : ObjectOp,
      (Op.on a op).Valid w → ∀ w', (op.exec a w).state? = some w' → SameOwn w w' b := by
  intro h
  have hsame := h copiedWorld reachable_copiedWorld 0 1 (by decide) (by decide)
    (.put (.priv 0) .undefined false) (show 0 < copiedWorld.nextObject by decide) addedWorld
    addedWorld_eq
  exact absurd (hsame.names (.priv 0)) (by decide)

/-- A property of one of two objects on a shared structure is not seen by the other. -/
theorem objects_isolated_sharedWorld : SameOwn sharedWorld
    (sharedWorld.after (.on 0 (.put (.priv 0) .undefined false))) 1 :=
  objects_isolated reachable_sharedWorld (show 1 < sharedWorld.nextObject by decide) (by decide)
    (.put (.priv 0) .undefined false) (show 0 < sharedWorld.nextObject by decide) trivial rfl

end Starlight
