import Starlight.Lib.SlotLayout
import Starlight.Vm.Attributes
import Starlight.Vm.Value

/-!
# Structures

A structure is the shape of an object: it maps property names to slot offsets and attributes. A
*shared* structure (its transitions are enabled) belongs to every object that was built the same
way; adding a property to such an object moves it along a transition to another shared structure.
A *unique* structure belongs to one object and is changed in place.

The map itself is a lazily built table. A structure made by a transition starts without one and
records only the property it adds and the structure it came from; `allocateTable` walks that chain
when the table is first needed. A unique successor of a unique structure takes over its table cell,
so two structures can point to one cell.

Structures and tables live in the store `Shapes`, where cells are named by natural numbers and new
cells get the next number. The singly linked list of deleted offsets is never changed in place, so
it is a list here, its `size` field being the length. Offsets are natural numbers: an object runs
out of slot storage (`ArrayStorage` asserts it) long before a `u32` offset could wrap.

The field `cached_prototype_chain` is left out: only the cache for added properties reads it, and
that cache is never filled.
-/

namespace Starlight

/-- The position and attributes of a property. -/
structure MapEntry where
  offset : ℕ
  attrs : AttrSafe
deriving DecidableEq

/-- The property table of a structure. -/
abbrev TargetTable := Finmap fun _ : Symbol => MapEntry

/-- What a transition is looked up by. -/
structure TransitionKey where
  name : Symbol
  attrs : AttrSafe
deriving DecidableEq

/-- The outgoing transitions of a structure: none, one, or a table of them. Targets are weak
references, `none` once collected. -/
inductive Transition where
  | none
  | pair (key : TransitionKey) (map : Option ℕ)
  | table (t : Finmap fun _ : TransitionKey => Option ℕ)

structure TransitionsTable where
  var : Transition
  enabled : Bool
  unique : Bool
  indexed : Bool

namespace TransitionsTable

def new (enabled indexed : Bool) : TransitionsTable :=
  { var := .none, enabled, unique := false, indexed }

def insert (t : TransitionsTable) (name : Symbol) (attrs : AttrSafe) (map : ℕ) :
    TransitionsTable :=
  let key : TransitionKey := ⟨name, attrs⟩
  match t.var with
  | .pair x y =>
    { t with var := .table (((∅ : Finmap fun _ : TransitionKey => Option ℕ).insert x y).insert key (some map)) }
  | .table table => { t with var := .table (table.insert key (some map)) }
  | .none => { t with var := .pair key (some map) }

def find (t : TransitionsTable) (name : Symbol) (attrs : AttrSafe) : Option ℕ :=
  let key : TransitionKey := ⟨name, attrs⟩
  match t.var with
  | .table table => (table.lookup key).bind id
  | .pair key' map => if key = key' then map else none
  | .none => none

/-- The collector clears the weak reference stored under `key`. -/
def clear (t : TransitionsTable) (key : TransitionKey) : TransitionsTable :=
  match t.var with
  | .table table =>
    if key ∈ table then { t with var := .table (table.insert key none) } else t
  | .pair key' _ => if key = key' then { t with var := .pair key' none } else t
  | .none => t

theorem find_insert (t : TransitionsTable) (name name' : Symbol) (attrs attrs' : AttrSafe)
    (map : ℕ) : (t.insert name attrs map).find name' attrs' =
      if name' = name ∧ attrs' = attrs then some map else t.find name' attrs' := by
  obtain ⟨var, en, un, ix⟩ := t
  cases var with
  | none => simp [insert, find]
  | pair x y =>
    simp only [insert, find, lookup_insert_eq, TransitionKey.mk.injEq, Finmap.lookup_empty]
    split
    · rfl
    · split <;> rfl
  | table t =>
    simp only [insert, find, lookup_insert_eq, TransitionKey.mk.injEq]
    split <;> rfl

theorem find_clear (t : TransitionsTable) (key : TransitionKey) {name : Symbol}
    {attrs : AttrSafe} {map : ℕ} (h : (t.clear key).find name attrs = some map) :
    t.find name attrs = some map := by
  obtain ⟨var, en, un, ix⟩ := t
  cases var with
  | none => exact h
  | pair x y =>
    simp only [clear] at h
    split at h
    · simp [find] at h
    · exact h
  | table t =>
    simp only [clear] at h
    split at h
    · simp only [find, lookup_insert_eq] at h ⊢
      split at h
      · cases h
      · exact h
    · exact h

@[simp] theorem insert_enabled (t : TransitionsTable) (name : Symbol) (attrs : AttrSafe) (map : ℕ) :
    (t.insert name attrs map).enabled = t.enabled := by
  unfold insert; dsimp only; split <;> rfl

@[simp] theorem insert_unique (t : TransitionsTable) (name : Symbol) (attrs : AttrSafe) (map : ℕ) :
    (t.insert name attrs map).unique = t.unique := by
  unfold insert; dsimp only; split <;> rfl

@[simp] theorem clear_enabled (t : TransitionsTable) (key : TransitionKey) :
    (t.clear key).enabled = t.enabled := by
  unfold clear; split <;> (try split) <;> rfl

@[simp] theorem clear_unique (t : TransitionsTable) (key : TransitionKey) :
    (t.clear key).unique = t.unique := by
  unfold clear; split <;> (try split) <;> rfl

end TransitionsTable

/-- A structure cell. `added` is `none` where the source has `DUMMY_SYMBOL`. -/
structure Structure where
  transitions : TransitionsTable
  table : Option ℕ
  deleted : List ℕ
  added : Option (Symbol × MapEntry)
  previous : Option ℕ
  prototype : Option ℕ
  calculatedSize : ℕ
  transitCount : ℕ
  hasBeenFlattenedBefore : Bool

/-- The transitions are disabled: the structure belongs to one object. -/
def Structure.isUnique (s : Structure) : Bool := !s.transitions.enabled

instance : Inhabited Structure :=
  ⟨{ transitions := .new true false, table := none, deleted := [], added := none,
     previous := none, prototype := none, calculatedSize := 0, transitCount := 0,
     hasBeenFlattenedBefore := false }⟩

/-- The store of structures and of the table cells they point to. -/
structure Shapes where
  structures : ℕ → Structure
  tables : ℕ → TargetTable
  nextStructure : ℕ
  nextTable : ℕ

namespace Shapes

/-- The store of a fresh heap. -/
def init : Shapes :=
  { structures := fun _ => default, tables := fun _ => ∅, nextStructure := 0, nextTable := 0 }

/-! ### Cells -/

/-- Allocate a structure cell. -/
def alloc (σ : Shapes) (s : Structure) : ℕ × Shapes :=
  (σ.nextStructure, { σ with
    structures := Function.update σ.structures σ.nextStructure s
    nextStructure := σ.nextStructure + 1 })

/-- Change a structure cell. -/
def modifyStructure (σ : Shapes) (s : ℕ) (f : Structure → Structure) : Shapes :=
  { σ with structures := Function.update σ.structures s (f (σ.structures s)) }

/-- Change a table cell. -/
def modifyTable (σ : Shapes) (t : ℕ) (f : TargetTable → TargetTable) : Shapes :=
  { σ with tables := Function.update σ.tables t (f (σ.tables t)) }

def setNewTable (σ : Shapes) (s : ℕ) (table : TargetTable) : Shapes :=
  { structures := Function.update σ.structures s { σ.structures s with table := some σ.nextTable }
    tables := Function.update σ.tables σ.nextTable table
    nextStructure := σ.nextStructure
    nextTable := σ.nextTable + 1 }

/-! ### Constructors -/

/-- `get_slots_size`: from the table when there is one, otherwise the size computed when the
structure was made. -/
def getSlotsSize (σ : Shapes) (s : ℕ) : ℕ :=
  match (σ.structures s).table with
  | some t => tableLen (σ.tables t) + (σ.structures s).deleted.length
  | none => (σ.structures s).calculatedSize

/-- `Structure::ctor`: a successor of `previous`. A unique successor of a unique structure points
to the same table cell. -/
def ctor (σ : Shapes) (previous : ℕ) (unique : Bool) : ℕ × Shapes :=
  let prev := σ.structures previous
  let table := if unique && prev.isUnique then prev.table else none
  let size := match table with
    | some t => tableLen (σ.tables t) + prev.deleted.length
    | none => σ.getSlotsSize previous
  σ.alloc
    { transitions := .new (!unique) prev.transitions.indexed
      table := table
      deleted := prev.deleted
      added := none
      previous := some previous
      prototype := prev.prototype
      calculatedSize := size
      transitCount := 0
      hasBeenFlattenedBefore := prev.hasBeenFlattenedBefore }

/-- `Structure::ctor1`: a structure without properties. -/
def ctor1 (σ : Shapes) (prototype : Option ℕ) (unique indexed : Bool) : ℕ × Shapes :=
  σ.alloc
    { transitions := .new (!unique) indexed
      table := none
      deleted := []
      added := none
      previous := none
      prototype := prototype
      calculatedSize := 0
      transitCount := 0
      hasBeenFlattenedBefore := false }

def newFromTable (σ : Shapes) (table : TargetTable) (prototype : Option ℕ)
    (unique indexed : Bool) : ℕ × Shapes :=
  let (s, σ) := σ.ctor1 prototype unique indexed
  let σ := σ.setNewTable s table
  (s, σ.modifyStructure s fun st => { st with calculatedSize := tableLen table })

def new (σ : Shapes) (previous : ℕ) : ℕ × Shapes := σ.ctor previous false

def newUnique (σ : Shapes) (previous : ℕ) : ℕ × Shapes := σ.ctor previous true

/-- `Structure::new_indexed`, the root of a family of shared structures. -/
def newIndexed (σ : Shapes) (prototype : Option ℕ) (indexed : Bool) : ℕ × Shapes :=
  σ.ctor1 prototype false indexed

def newUniqueIndexed (σ : Shapes) (prototype : Option ℕ) (indexed : Bool) : ℕ × Shapes :=
  σ.ctor1 prototype true indexed

def newFromPoint (σ : Shapes) (map : ℕ) : ℕ × Shapes :=
  if (σ.structures map).isUnique then σ.newUnique map else (map, σ)

/-! ### Tables -/

/-- The loop of `allocate_table`: follow `previous` from `current`, pushing the added properties on
`stack`, up to a structure with a table (which is cloned) or the root. `previous` always points to
an older cell, so the number of the first cell bounds the length of the chain. -/
def collect (σ : Shapes) : ℕ → Option ℕ → List (Symbol × MapEntry) →
    List (Symbol × MapEntry) × TargetTable
  | 0, _, stack => (stack, ∅)
  | _, none, stack => (stack, ∅)
  | fuel + 1, some cur, stack =>
    match (σ.structures cur).table with
    | some t => (stack, σ.tables t)
    | none => σ.collect fuel (σ.structures cur).previous
        (stack ++ (σ.structures cur).added.toList)

def allocateTable (σ : Shapes) (s : ℕ) : Shapes :=
  let (stack, base) := σ.collect s (σ.structures s).previous (σ.structures s).added.toList
  let σ := σ.setNewTable s (stack.foldl (fun t it => t.insert it.1 it.2) base)
  σ.modifyStructure s fun st => { st with previous := none }

def allocateTableIfNeeded (σ : Shapes) (s : ℕ) : Bool × Shapes :=
  if (σ.structures s).table.isNone then
    if (σ.structures s).previous.isNone then (false, σ) else (true, σ.allocateTable s)
  else (true, σ)

/-- Allocate the table unless there is one. -/
def ensureTable (σ : Shapes) (s : ℕ) : Shapes :=
  if (σ.structures s).table.isNone then σ.allocateTable s else σ

/-- The table of a structure that has one. -/
def tableOf (σ : Shapes) (s : ℕ) : TargetTable :=
  match (σ.structures s).table with
  | some t => σ.tables t
  | none => ∅

def updateTable (σ : Shapes) (s : ℕ) (f : TargetTable → TargetTable) : Shapes :=
  match (σ.structures s).table with
  | some t => σ.modifyTable t f
  | none => σ

def get (σ : Shapes) (s : ℕ) (name : Symbol) : Option MapEntry × Shapes :=
  match (σ.structures s).table with
  | some t => ((σ.tables t).lookup name, σ)
  | none =>
    if (σ.structures s).previous.isNone then (none, σ)
    else match (σ.structures s).added with
      | some (n, e) =>
        if n = name then (some e, σ)
        else
          let σ := σ.allocateTable s
          ((σ.tableOf s).lookup name, σ)
      | none =>
        let σ := σ.allocateTable s
        ((σ.tableOf s).lookup name, σ)

/-- `Structure::delete`; `none` where the source unwraps a missing entry. -/
def delete (σ : Shapes) (s : ℕ) (name : Symbol) : Option Shapes :=
  match (σ.tableOf s).lookup name with
  | some it =>
    let σ := σ.updateTable s fun t => t.erase name
    some (σ.modifyStructure s fun st => { st with deleted := it.offset :: st.deleted })
  | none => none

/-- `Structure::change_attributes`; `none` where the source unwraps a missing entry. -/
def changeAttributes (σ : Shapes) (s : ℕ) (name : Symbol) (attributes : AttrSafe) : Option Shapes :=
  match (σ.tableOf s).lookup name with
  | some it => some (σ.updateTable s fun t => t.insert name { it with attrs := attributes })
  | none => none

/-! ### Transitions -/

def deletePropertyTransition (σ : Shapes) (s : ℕ) (name : Symbol) : Option (ℕ × Shapes) :=
  let (map, σ) := σ.newUnique s
  let σ := σ.ensureTable map
  (σ.delete map name).map fun σ => (map, σ)

def changeAttributesTransition (σ : Shapes) (s : ℕ) (name : Symbol) (attributes : AttrSafe) :
    Option (ℕ × Shapes) :=
  let (map, σ) := σ.newUnique s
  let σ := σ.ensureTable map
  (σ.changeAttributes map name attributes).map fun σ => (map, σ)

def changeExtensibleTransition (σ : Shapes) (s : ℕ) : ℕ × Shapes := σ.newUnique s

/-- The structure on which an in-place transition of `s` works: `s` itself when it is unique
(unless flattening asked for a copy), otherwise a unique successor. -/
def uniqueFor (σ : Shapes) (s : ℕ) : ℕ × Shapes :=
  if (σ.structures s).isUnique then
    if (σ.structures s).transitions.unique then σ.newUnique s else (s, σ)
  else σ.newUnique s

/-- `change_indexed_transition`. On a shared structure the source recurses once, into a unique
successor. -/
def changeIndexedTransition (σ : Shapes) (s : ℕ) : ℕ × Shapes :=
  let (map, σ) := σ.uniqueFor s
  (map, σ.modifyStructure map fun st =>
    { st with transitions := { st.transitions with indexed := true } })

def changePrototypeTransition (σ : Shapes) (s : ℕ) (prototype : Option ℕ) : ℕ × Shapes :=
  let (map, σ) := σ.uniqueFor s
  (map, σ.modifyStructure map fun st => { st with prototype := prototype })

/-- The unique branch of `add_property_transition`: the property goes into the table in place, in
the slot at the head of the free list or just past the end. -/
def addUnique (σ : Shapes) (s : ℕ) (name : Symbol) (attributes : AttrSafe) : ℕ × ℕ × Shapes :=
  let σ := σ.ensureTable s
  let (map, σ) := if (σ.structures s).transitions.unique then σ.newUnique s else (s, σ)
  match (σ.structures map).deleted with
  | slot :: rest =>
    let σ := σ.modifyStructure map fun st => { st with deleted := rest }
    (map, slot, σ.updateTable map fun t => t.insert name ⟨slot, attributes⟩)
  | [] =>
    let offset := σ.getSlotsSize s
    (map, offset, σ.updateTable map fun t => t.insert name ⟨offset, attributes⟩)

def addPropertyTransition (σ : Shapes) (s : ℕ) (name : Symbol) (attributes : AttrSafe) :
    ℕ × ℕ × Shapes :=
  if (σ.structures s).isUnique then σ.addUnique s name attributes
  else match (σ.structures s).transitions.find name attributes with
    | some map =>
      -- an existing transition: its target records the offset
      (map, ((σ.structures map).added.map fun a => a.2.offset).getD (2 ^ 32 - 1), σ)
    | none =>
      if 64 < (σ.structures s).transitCount then
        let (map, σ) := σ.newUnique s
        σ.addUnique map name attributes
      else
        let size := σ.getSlotsSize s
        let (map, σ) := σ.new s
        let (offset, rest, size) := match (σ.structures map).deleted with
          | slot :: rest => (slot, rest, size)
          | [] => (size, [], size + 1)
        let σ := σ.modifyStructure map fun st =>
          { st with
            deleted := rest
            added := some (name, ⟨offset, attributes⟩)
            calculatedSize := size
            transitCount := st.transitCount + 1 }
        let σ := σ.modifyStructure s fun st =>
          { st with transitions := st.transitions.insert name attributes map }
        (map, offset, σ)

/-- `clp2`: the least power of two not below `number`, by smearing the high bit. -/
def clp2 (number : ℕ) : ℕ :=
  let x := number - 1
  let x := x ||| (x >>> 1)
  let x := x ||| (x >>> 2)
  let x := x ||| (x >>> 4)
  let x := x ||| (x >>> 8)
  let x := x ||| (x >>> 16)
  x + 1

/-- `storage_capacity`: how many slots an object of this structure gets. -/
def storageCapacity (σ : Shapes) (s : ℕ) : ℕ :=
  let sz := σ.getSlotsSize s
  if sz = 0 then 0 else if sz < 8 then 8 else clp2 sz

theorem le_clp2 (n : ℕ) : n ≤ clp2 n := by
  have h : ∀ x k : ℕ, x ≤ x ||| (x >>> k) := fun x k => Nat.left_le_or
  have : n - 1 ≤ clp2 n - 1 := by
    unfold clp2
    exact (h _ 1).trans ((h _ 2).trans ((h _ 4).trans ((h _ 8).trans (h _ 16))))
  have hpos : 0 < clp2 n := Nat.succ_pos _
  omega

theorem getSlotsSize_le_storageCapacity (σ : Shapes) (s : ℕ) :
    σ.getSlotsSize s ≤ σ.storageCapacity s := by
  unfold storageCapacity
  have := le_clp2 (σ.getSlotsSize s)
  dsimp only
  split
  · omega
  · split <;> omega

end Shapes

end Starlight
