import Mathlib.Tactic.Common

/-!
# Property attributes

The two attribute words of the engine. `AttrExternal` is what a caller passes in a property
descriptor: it says which attributes are given and which are left open. `AttrSafe` is what is
stored in a structure: the `UNDEF_*` and `EMPTY` bits have been removed. Each bit of the source's
`u32` is one `Bool` field here.
-/

namespace Starlight

/-- The attribute word of a property descriptor, one field for each bit. -/
structure AttrExternal where
  writable : Bool := false
  enumerable : Bool := false
  configurable : Bool := false
  data : Bool := false
  accessor : Bool := false
  empty : Bool := false
  undefWritable : Bool := false
  undefEnumerable : Bool := false
  undefConfigurable : Bool := false
  undefValue : Bool := false
  undefGetter : Bool := false
  undefSetter : Bool := false
deriving DecidableEq, Repr

/-- The attribute word stored with a property: an `AttrExternal` without the `UNDEFS` bits. -/
structure AttrSafe where
  writable : Bool := false
  enumerable : Bool := false
  configurable : Bool := false
  data : Bool := false
  accessor : Bool := false
deriving DecidableEq, Repr

namespace AttrExternal

def setEnumerable (a : AttrExternal) (val : Bool) : AttrExternal :=
  { a with undefEnumerable := false, enumerable := val }

def setConfigurable (a : AttrExternal) (val : Bool) : AttrExternal :=
  { a with undefConfigurable := false, configurable := val }

def setWritable (a : AttrExternal) (val : Bool) : AttrExternal :=
  { a with undefWritable := false, writable := val }

def setAccessor (a : AttrExternal) : AttrExternal :=
  { a with data := false, writable := false, accessor := true }

def setData (a : AttrExternal) : AttrExternal :=
  { a with accessor := false, data := true }

def isGeneric (a : AttrExternal) : Bool := !a.data && !a.accessor && !a.empty

def isAbsent (a : AttrExternal) : Bool :=
  a.undefConfigurable && a.undefEnumerable && a.isGeneric

def isDefault (a : AttrExternal) : Bool :=
  a.configurable && a.enumerable && a.data && a.writable

def fillEnumerableAndConfigurable (a : AttrExternal) : AttrExternal :=
  { a with undefConfigurable := false, undefEnumerable := false }

end AttrExternal

namespace AttrSafe

def unSafe (a : AttrExternal) : AttrSafe :=
  { writable := a.writable, enumerable := a.enumerable, configurable := a.configurable,
    data := a.data, accessor := a.accessor }

/-- `AttrExternal::new(Some(self.raw()))`: a stored word read back as a descriptor word. -/
def toExternal (a : AttrSafe) : AttrExternal :=
  { writable := a.writable, enumerable := a.enumerable, configurable := a.configurable,
    data := a.data, accessor := a.accessor }

def notFound : AttrSafe := {}

def isNotFound (a : AttrSafe) : Bool := a = notFound

/-- A stored word that says what kind of property it is: data or accessor, and an accessor is not
writable. Every word the engine stores in a structure has this form. -/
structure Typed (a : AttrSafe) : Prop where
  data_or_accessor : a.data = !a.accessor
  not_writable : a.accessor = true → a.writable = false

theorem Typed.isNotFound {a : AttrSafe} (h : a.Typed) : a.isNotFound = false := by
  have := h.data_or_accessor
  rw [AttrSafe.isNotFound, decide_eq_false_iff_not]
  rintro rfl
  simp [notFound] at this

theorem Typed.accessor_of_not_data {a : AttrSafe} (h : a.Typed) (hd : ¬ a.data = true) :
    a.accessor = true := by
  rw [h.data_or_accessor] at hd
  simpa using hd

theorem Typed.not_accessor_of_data {a : AttrSafe} (h : a.Typed) (hd : a.data = true) :
    a.accessor = false := by
  rw [h.data_or_accessor] at hd
  simpa using hd

end AttrSafe

def createData (attrs : AttrExternal) : AttrSafe :=
  let attrs := attrs.fillEnumerableAndConfigurable.setData
  AttrSafe.unSafe (if attrs.undefWritable then attrs.setWritable false else attrs)

def createAccessor (attrs : AttrExternal) : AttrSafe :=
  AttrSafe.unSafe attrs.fillEnumerableAndConfigurable.setAccessor

def objectData : AttrSafe :=
  createData { writable := true, enumerable := true, configurable := true }

def stringLength : AttrSafe := createData {}

def stringIndexed : AttrSafe := createData { enumerable := true }

theorem createData_typed (a : AttrExternal) : (createData a).Typed := by
  constructor <;> unfold createData <;> dsimp only <;> split <;>
    simp [AttrSafe.unSafe, AttrExternal.setData, AttrExternal.setWritable]

theorem createAccessor_typed (a : AttrExternal) : (createAccessor a).Typed := by
  constructor <;> simp [createAccessor, AttrSafe.unSafe, AttrExternal.setAccessor]

end Starlight
