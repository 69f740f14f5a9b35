import Starlight.Vm.Structure

/-!
# The family tree of structures

What structures are for, without tables that are built on demand, chains of predecessors or weak
references. A `Family` is a set of structures, each with the history of changes that led to it. What a
structure says of a name is read off its history: `Change.find` is the last addition or change of the
name that is not followed by a deletion. A shared structure never changes, and an addition to it leads
to one child for each name and attributes. A unique structure is used by one object, which takes its
history along.

`depth` counts the shared additions since the root, and is not taken from the engine.
-/

namespace Starlight

/-- A change to the properties of a structure. -/
inductive Change where
  | add (name : Symbol) (entry : MapEntry)
  | attrs (name : Symbol) (attributes : AttrSafe)
  | delete (name : Symbol)

namespace Change

/-- The entry of a name after a history, its latest change first: the last addition or change of the
name, unless a deletion follows it. -/
def find (name : Symbol) : List Change → Option MapEntry
  | [] => none
  | .add m e :: h => if name = m then some e else find name h
  | .attrs m a :: h =>
    if name = m then (find name h).map fun e => { e with attrs := a } else find name h
  | .delete m :: h => if name = m then none else find name h

/-- The table of all names after a history. -/
def table : List Change → TargetTable
  | [] => ∅
  | .add m e :: h => (table h).insert m e
  | .attrs m a :: h =>
    match (table h).lookup m with
    | some e => (table h).insert m { e with attrs := a }
    | none => table h
  | .delete m :: h => (table h).erase m

/-- The history of a table that is filled in one go, from the first property on. -/
def built (props : List (Symbol × AttrSafe)) : List Change :=
  props.foldl (fun h p => .add p.1 ⟨tableLen (table h), p.2⟩ :: h) []

theorem lookup_table (h : List Change) (name : Symbol) : (table h).lookup name = find name h := by
  induction h with
  | nil => exact Finmap.lookup_empty name
  | cons c h ih =>
    cases c with
    | add m e => rw [table, find, lookup_insert_eq, ih]
    | attrs m a =>
      rw [table, find]
      cases hm : (table h).lookup m with
      | some e =>
        dsimp only
        rw [lookup_insert_eq, ih]
        split
        · next hn =>
          subst hn
          rw [← ih, hm, Option.map_some]
        · rfl
      | none =>
        dsimp only
        rw [ih]
        split
        · next hn =>
          subst hn
          rw [← ih, hm, Option.map_none]
        · rfl
    | delete m => rw [table, find, lookup_erase_eq, ih]

theorem table_attrs {h : List Change} {name : Symbol} {e : MapEntry} (a : AttrSafe)
    (he : (table h).lookup name = some e) :
    table (.attrs name a :: h) = (table h).insert name { e with attrs := a } := by
  rw [table, he]

end Change

/-- A structure of the family. `free` are the slots of deleted properties, the last one first. -/
structure Member where
  shared : Bool
  history : List Change
  free : List ℕ
  depth : ℕ
  child : Symbol → AttrSafe → Option ℕ

namespace Member

/-- The slots in use, and those to be used again. -/
def slots (x : Member) : ℕ := tableLen (Change.table x.history) + x.free.length

def nextSlot (x : Member) : ℕ := x.free.headD x.slots

/-- A structure that was just made: nobody has added to it. -/
def root (unique : Bool) (history : List Change) : Member :=
  { shared := !unique, history := history, free := [], depth := 0, child := fun _ _ => none }

def unique (x : Member) : Member := { x with shared := false, depth := 0, child := fun _ _ => none }

/-- The member after the addition of a property. -/
def added (x : Member) (name : Symbol) (attributes : AttrSafe) : Member :=
  { x with
    history := .add name ⟨x.nextSlot, attributes⟩ :: x.history
    free := x.free.tail
    depth := if x.shared then x.depth + 1 else x.depth
    child := fun _ _ => none }

/-- The member after the deletion of a property in slot `offset`. -/
def deleted (x : Member) (name : Symbol) (offset : ℕ) : Member :=
  { x.unique with history := .delete name :: x.history, free := offset :: x.free }

def changed (x : Member) (name : Symbol) (attributes : AttrSafe) : Member :=
  { x.unique with history := .attrs name attributes :: x.history }

theorem nextSlot_of_free_nil {x : Member} (h : x.free = []) :
    x.nextSlot = tableLen (Change.table x.history) := by
  rw [nextSlot, h, List.headD_nil, slots, h, List.length_nil, Nat.add_zero]

end Member

/-- The structures made so far, and the unique ones that are in use. -/
structure Family where
  member : ℕ → Member
  next : ℕ
  held : Finset ℕ

namespace Family

def init : Family := { member := fun _ => Member.root true [], next := 0, held := ∅ }

/-- The structure may be used: it is shared, or unique and in use. -/
def Live (F : Family) (s : ℕ) : Prop := s < F.next ∧ ((F.member s).shared = true ∨ s ∈ F.held)

instance (F : Family) (s : ℕ) : Decidable (F.Live s) := by
  unfold Live
  infer_instance

/-- Object moves from structure `s` to structure `s'`: unique structures are in use by one object. -/
def move (held : Finset ℕ) (s s' : ℕ) (shared : Bool) : Finset ℕ :=
  if shared then held.erase s else insert s' (held.erase s)

def make (F : Family) (s : ℕ) (x : Member) : Family where
  member := Function.update F.member F.next x
  next := F.next + 1
  held := move F.held s F.next x.shared

/-- A new root, used by a new object. -/
def makeRoot (F : Family) (unique : Bool) (history : List Change) : Family where
  member := Function.update F.member F.next (.root unique history)
  next := F.next + 1
  held := if unique then insert F.next F.held else F.held

def modify (F : Family) (s : ℕ) (f : Member → Member) : Family :=
  { F with member := Function.update F.member s (f (F.member s)) }

def add (F : Family) (s : ℕ) (name : Symbol) (attributes : AttrSafe) : ℕ × Family :=
  let x := F.member s
  if x.shared then
    match x.child name attributes with
    | some m => (m, F)
    | none =>
      (F.next, (F.make s (x.added name attributes)).modify s fun x =>
        { x with child := Function.update x.child name
                  (Function.update (x.child name) attributes (some F.next)) })
  else (s, F.modify s fun x => x.added name attributes)

def delete (F : Family) (s : ℕ) (name : Symbol) : Family :=
  match Change.find name (F.member s).history with
  | some e => F.make s ((F.member s).deleted name e.offset)
  | none => F

def changeAttributes (F : Family) (s : ℕ) (name : Symbol) (attributes : AttrSafe) : Family :=
  F.make s ((F.member s).changed name attributes)

/-- Move to a unique structure. -/
def successor (F : Family) (s : ℕ) : Family := F.make s (F.member s).unique

/-- Move to a unique structure unless already on one. -/
def uniqueFor (F : Family) (s : ℕ) : Family :=
  if (F.member s).shared then F.successor s else F

/-- The collector clears the reference to a child. -/
def clear (F : Family) (s : ℕ) (name : Symbol) (attributes : AttrSafe) : Family :=
  F.modify s fun x =>
    { x with child := Function.update x.child name (Function.update (x.child name) attributes none) }

end Family

end Starlight
