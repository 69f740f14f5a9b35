import Starlight.Lib.Exec
import Starlight.Vm.Structure

/-!
# The object heap

`World` is the part of the engine's heap that property operations read and write: structures and their tables, accessor
cells, and objects with their slots and indexed elements. Code over it is a `Vm` computation. A JavaScript exception is
a fault, and so is the hand-over to code outside this model: an operation that ends by calling a getter or a setter
stops with `Fault.invoke`, one that needs `to_number` of a value that is not a plain primitive stops with
`Fault.convert`. `Fault.panic` is an `unwrap` or a test of a tag that may well fail. The checks that the heap layout is
meant to guarantee (slot indices in range, names present in tables, accessor properties holding accessor cells) are
assertions: failing one leaves the computation stuck.

The order in which a `HashMap` is iterated is not determined by its contents. It is a field of the
world, `hashOrder`, that may name the keys in any order and may change at any time.
-/

namespace Starlight

/-- The getter/setter pair behind an accessor property. -/
structure Accessor where
  getter : JsValue
  setter : JsValue
deriving DecidableEq, Inhabited

/-- A value with its attributes. -/
structure StoredSlot where
  value : JsValue
  attributes : AttrSafe
deriving DecidableEq

/-- The indexed elements of an object: a dense vector or a sparse map, and the array length. -/
structure IndexedElements where
  map : Option (Finmap fun _ : ℕ => StoredSlot)
  vector : List JsValue
  length : ℕ
  dense : Bool
  writable : Bool
  nonGc : Bool

def IndexedElements.new : IndexedElements :=
  { map := none, vector := [], length := 0, dense := true, writable := true, nonGc := true }

/-- The classes whose method tables differ on property operations. A string object carries the
text of the string it wraps. -/
inductive Class where
  | object
  | array
  | function
  | string (value : String)
  | global
deriving DecidableEq

/-- An object. `constructStruct` is the cached structure of a function's instances. -/
structure JsObject where
  class_ : Class
  structure_ : ℕ
  indexed : IndexedElements
  slots : List JsValue
  extensible : Bool
  callable : Bool
  constructStruct : Option ℕ

instance : Inhabited JsObject :=
  ⟨{ class_ := .object, structure_ := 0, indexed := .new, slots := [], extensible := true,
     callable := false, constructStruct := none }⟩

/-- The order in which the entries of hash maps are visited. Names that are not in the map are
skipped. -/
structure HashOrder where
  names : TargetTable → List Symbol
  indices : (Finmap fun _ : ℕ => StoredSlot) → List ℕ

/-- The state of property operations. -/
structure World where
  shapes : Shapes
  accessors : ℕ → Accessor
  nextAccessor : ℕ
  objects : ℕ → JsObject
  nextObject : ℕ
  nextString : ℕ
  hashOrder : HashOrder

/-- The exceptions that property operations create. -/
inductive JsError where
  | typeError (msg : String)
  | rangeError (msg : String)
  | referenceError (msg : String)
deriving DecidableEq

/-- How an operation can stop before its end. -/
inductive Fault where
  | throw (e : JsError)
  | invoke (callee this : JsValue) (args : List JsValue)
  | convert (v : JsValue)
  | panic
deriving DecidableEq

/-- Code over the object heap. -/
abbrev Vm (α : Type) := Exec Fault World α

namespace Vm

variable {α : Type}

def throwTypeError (msg : String) : Vm α := Exec.fail (.throw (.typeError msg))

/-- Refuse an operation: throw when the caller asked for it, otherwise return `value`. -/
def reject (throwable : Bool) (msg : String) (value : α) : Vm α :=
  if throwable then throwTypeError msg else pure value

/-- A statement that is only executed under a condition. -/
def onlyIf (b : Bool) (x : Vm Unit) : Vm Unit := if b then x else pure ()

def object (o : ℕ) : Vm JsObject := Exec.gets fun w => w.objects o

def modifyObject (o : ℕ) (f : JsObject → JsObject) : Vm Unit :=
  Exec.modify fun w => { w with objects := Function.update w.objects o (f (w.objects o)) }

/-- Run a structure operation on the structure store. -/
def shapes (f : Shapes → α × Shapes) : Vm α :=
  Exec.update fun w => ((f w.shapes).1, { w with shapes := (f w.shapes).2 })

/-- Run a structure operation that unwraps an optional value. -/
def shapes? (f : Shapes → Option (α × Shapes)) : Vm α := fun w =>
  match f w.shapes with
  | some (a, σ) => .ok a { w with shapes := σ }
  | none => .stuck

def structureGet (o : ℕ) (name : Symbol) : Vm (Option MapEntry) := do
  let obj ← object o
  shapes fun σ => σ.get obj.structure_ name

def newAccessor (getter setter : JsValue) : Vm ℕ :=
  Exec.update fun w => (w.nextAccessor, { w with
    accessors := Function.update w.accessors w.nextAccessor ⟨getter, setter⟩
    nextAccessor := w.nextAccessor + 1 })

def accessorCell (c : ℕ) : Vm Accessor := Exec.gets fun w => w.accessors c

/-- Write an accessor cell. -/
def modifyAccessor (c : ℕ) (f : Accessor → Accessor) : Vm Unit :=
  Exec.modify fun w => { w with accessors := Function.update w.accessors c (f (w.accessors c)) }

def newString (text : String) : Vm JsValue :=
  Exec.update fun w => (.string w.nextString text, { w with nextString := w.nextString + 1 })

/-- `JsObject::direct`, with the range check of `ArrayStorage::at`. -/
def direct (o n : ℕ) : Vm JsValue := fun w =>
  match (w.objects o).slots[n]? with
  | some v => .ok v w
  | none => .stuck

/-- Assignment through `JsObject::direct_mut`, with the range check of `ArrayStorage::at_mut`. -/
def setDirect (o n : ℕ) (v : JsValue) : Vm Unit := fun w =>
  if n < (w.objects o).slots.length then
    modifyObject o (fun obj => { obj with slots := obj.slots.set n v }) w
  else .stuck

/-- `unwrap_or_else(|_| unreachable!())`. -/
def expectOk (x : Vm α) : Vm α := fun w =>
  match x w with
  | .error _ w => .error .panic w
  | r => r

def isCallable (v : JsValue) : Vm Bool :=
  Exec.gets fun w => match v with
    | .object o => (w.objects o).callable
    | _ => false

end Vm

/-- `ArrayStorage::resize`: keep what fits and fill the rest with the empty value. -/
def resize (slots : List JsValue) (newSize : ℕ) : List JsValue :=
  slots.take newSize ++ List.replicate (newSize - slots.length) .empty

@[simp] theorem length_resize (slots : List JsValue) (n : ℕ) : (resize slots n).length = n := by
  simp [resize]; omega

theorem getElem?_resize {slots : List JsValue} {n i : ℕ} (hn : i < n) (hi : i < slots.length) :
    (resize slots n)[i]? = slots[i]? := by
  rw [resize, List.getElem?_append_left (by rw [List.length_take]; omega),
    List.getElem?_take_of_lt hn]

end Starlight
