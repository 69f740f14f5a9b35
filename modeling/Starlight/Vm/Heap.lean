import Starlight.Vm.Object

/-!
# Runs of the heap

A heap evolves by operations: structures and objects are created, properties of objects are read,
defined, written and deleted, the collector clears weak transitions, and hash maps may be visited in
another order. A getter, a setter or a conversion that an operation hands over to is a further stretch
of the run; `defineLengthTo` is the part of an assignment to an array's length that comes after the
conversion of the value.

`Op.Valid` says that an operation names existing cells.
-/

namespace Starlight

open JsObject

/-- An operation on one object. -/
inductive ObjectOp where
  | get (name : Symbol) (strict : ℕ → Bool)
  | getOwnProperty (name : Symbol)
  | getOwnPropertyNames (all : Bool)
  | put (name : Symbol) (val : JsValue) (throwable : Bool)
  | define (name : Symbol) (desc : PropertyDescriptor) (throwable : Bool)
  | defineLengthTo (desc : PropertyDescriptor) (newLen : F64) (throwable : Bool)
  | delete (name : Symbol) (throwable : Bool)
  | changeExtensible (val : Bool)
  | changePrototype (prototype : Option ℕ)
  | changeIndexed
  | freeze
  | seal_

namespace ObjectOp

/-- Run an operation on object `o`, dropping its result. -/
def exec (o : ℕ) : ObjectOp → Vm Unit
  | get name strict => do let _ ← getSlot o name strict Slot.new
  | getOwnProperty name => do let _ ← JsObject.getOwnProperty o name
  | getOwnPropertyNames all => do let _ ← JsObject.getOwnPropertyNames o all
  | put name val throwable => JsObject.put o name val throwable
  | define name desc throwable => do let _ ← defineOwnProperty o name desc throwable
  | defineLengthTo desc newLen throwable => do
    let _ ← JsObject.defineLengthTo o desc newLen throwable
  | delete name throwable => do let _ ← JsObject.delete o name throwable
  | changeExtensible val => JsObject.changeExtensible o val
  | changePrototype prototype => JsObject.changePrototype o prototype
  | changeIndexed => transition o Shapes.changeIndexedTransition
  | freeze => do let _ ← JsObject.freeze o
  | seal_ => do let _ ← JsObject.seal_ o

end ObjectOp

/-- An operation on the heap. -/
inductive Op where
  | newStructure (prototype : Option ℕ) (indexed : Bool)
  | newObject (structure_ : ℕ) (class_ : Class)
  | newUniqueObject (prototype : Option ℕ) (indexed : Bool) (class_ : Class)
  | newFromPoint (map : ℕ) (class_ : Class)
  | copy (source : ℕ)
  | on (o : ℕ) (op : ObjectOp)
  | clearTransition (structure_ : ℕ) (key : TransitionKey)
  | rehash (order : HashOrder)

namespace Op

/-- Run an operation, dropping its result. -/
def exec : Op → Vm Unit
  | newStructure prototype indexed => do
    let _ ← Vm.shapes fun σ => σ.newIndexed prototype indexed
  | newObject structure_ class_ => do let _ ← JsObject.new structure_ class_
  | newUniqueObject prototype indexed class_ => do
    let s ← Vm.shapes fun σ => σ.newUniqueIndexed prototype indexed
    let _ ← JsObject.new s class_
  | newFromPoint map class_ => do
    let s ← Vm.shapes fun σ => σ.newFromPoint map
    let _ ← JsObject.new s class_
  | copy source => do let _ ← JsObject.copy source
  | on o op => op.exec o
  | clearTransition s key => Exec.modify fun w =>
    { w with shapes := w.shapes.modifyStructure s fun st =>
        { st with transitions := st.transitions.clear key } }
  | rehash order => Exec.modify fun w => { w with hashOrder := order }

def Valid (w : World) : Op → Prop
  | newStructure prototype _ => ∀ p, prototype = some p → p < w.nextObject
  | newObject s _ => s < w.shapes.nextStructure
  | newUniqueObject prototype _ _ => ∀ p, prototype = some p → p < w.nextObject
  | newFromPoint map _ => map < w.shapes.nextStructure
  | copy source => source < w.nextObject
  | on o (.changePrototype prototype) =>
    o < w.nextObject ∧ ∀ p, prototype = some p → p < w.nextObject
  | on o _ => o < w.nextObject
  | clearTransition s _ => s < w.shapes.nextStructure
  | rehash _ => True

end Op

/-- The heap of a fresh context. -/
def World.init (order : HashOrder) : World where
  shapes := Shapes.init
  accessors := fun _ => default
  nextAccessor := 0
  objects := fun _ => default
  nextObject := 0
  nextString := 0
  hashOrder := order

/-- One step of a run, whose operation satisfies `ok`. An operation that ends with a fault leaves its
effects behind. -/
def Step (ok : World → Op → Prop) (w w' : World) : Prop :=
  ∃ op : Op, op.Valid w ∧ ok w op ∧ (op.exec w).state? = some w'

/-- The heaps that runs reach whose steps all satisfy `ok`. -/
def Reachable (ok : World → Op → Prop) (w : World) : Prop :=
  ∃ order, Relation.ReflTransGen (Step ok) (World.init order) w

end Starlight
