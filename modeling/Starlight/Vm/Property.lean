import Starlight.Vm.World

/-!
# Property descriptors and slots

`PropertyDescriptor` is a caller's description of a property, `StoredSlot` a property as stored, and
`Slot` the record that property lookups fill in and property definitions read.
-/

namespace Starlight

/-- A property descriptor. The source's value is a union of a data value and a getter/setter pair:
`fst` is the data value or the getter, `snd` the setter. -/
structure PropertyDescriptor where
  attrs : AttrExternal
  fst : JsValue
  snd : JsValue
deriving DecidableEq

namespace PropertyDescriptor

def dataDescriptor (val : JsValue) (attrs : AttrExternal) : PropertyDescriptor :=
  { attrs := { attrs with data := true, undefGetter := true, undefSetter := true }
    fst := val, snd := .undefined }

def accessorDescriptor (getter setter : JsValue) (attrs : AttrExternal) : PropertyDescriptor :=
  { attrs := { attrs with accessor := true, undefValue := true, undefWritable := true }
    fst := getter, snd := setter }

end PropertyDescriptor

namespace StoredSlot

/-- `StoredSlot::accessor`: the accessor cell of an accessor property. `get_object` asserts that the
word is a pointer; what it points to is not checked. -/
def accessor (s : StoredSlot) : Vm ℕ :=
  if s.attributes.accessor then
    match s.value with
    | .accessor c => pure c
    | v => if v.isObject then Exec.stuck else Exec.fail .panic
  else Exec.stuck

def toDescriptor (s : StoredSlot) : Vm PropertyDescriptor := do
  if s.attributes.data then
    return .dataDescriptor s.value s.attributes.toExternal
  else
    let c ← s.accessor
    let ac ← Vm.accessorCell c
    return .accessorDescriptor ac.getter ac.setter s.attributes.toExternal

/-- `StoredSlot::get`: the value, or a call of the getter when there is a callable one. -/
def get (s : StoredSlot) (thisBinding : JsValue) : Vm JsValue := do
  if s.attributes.accessor then
    let c ← s.accessor
    let ac ← Vm.accessorCell c
    if ← Vm.isCallable ac.getter then
      Exec.fail (.invoke ac.getter thisBinding [])
    else
      return .undefined
  else
    return s.value

def mergeWithNoEffect (s : StoredSlot) (desc : PropertyDescriptor) : Vm Bool := do
  let d := desc.attrs
  let a := s.attributes
  if !d.undefConfigurable && d.configurable != a.configurable then
    return false
  if !d.undefEnumerable && d.enumerable != a.enumerable then
    return false
  if d.data != a.data || d.accessor != a.accessor then
    return false
  if d.data then
    if !d.undefWritable && d.writable != a.writable then
      return false
    if d.undefValue then
      return true
    return JsValue.sameValue desc.fst s.value
  else if d.accessor then
    let c ← s.accessor
    let ac ← Vm.accessorCell c
    return desc.fst = ac.getter && desc.snd = ac.setter
  else
    return true

/-- `is_defined_property_accepted`: whether the descriptor may be applied, and what
`[[DefineOwnProperty]]` returns. -/
def isDefinedPropertyAccepted (s : StoredSlot) (desc : PropertyDescriptor) (throwable : Bool) :
    Vm (Bool × Bool) := do
  let d := desc.attrs
  let a := s.attributes
  let reject (msg : String) : Vm (Bool × Bool) := Vm.reject throwable msg (false, false)
  if d.isAbsent then
    return (false, true)
  if ← s.mergeWithNoEffect desc then
    return (false, true)
  if !a.configurable && d.configurable then
    reject "changing [[Configurable]] of unconfigurable property not allowed"
  else if !a.configurable && !d.undefEnumerable && a.enumerable != d.enumerable then
    reject "changing [[Enumerable]] of unconfigurable property not allowed"
  else if d.isGeneric then
    return (true, true)
  else if a.data != d.data then
    if !a.configurable then
      reject "changing descriptor type of unconfigurable property not allowed"
    else
      return (true, true)
  else if a.data then
    if !a.configurable && !a.writable then
      if d.writable then
        reject "changing [[Writable]] of unconfigurable property not allowed"
      else if !JsValue.sameValue s.value desc.fst then
        reject "changing [[Value]] of readonly property not allowed"
      else
        return (true, true)
    else
      return (true, true)
  else if !a.configurable then
    let c ← s.accessor
    let lhs ← Vm.accessorCell c
    if (!d.undefSetter && lhs.setter != desc.snd) || (!d.undefGetter && lhs.getter != desc.fst) then
      reject "changing [[Set]] or [[Get]] of unconfigurable property not allowed"
    else
      return (true, true)
  else
    return (true, true)

/-- `merge` on the attributes that both kinds of property have. -/
def mergeCommon (a : AttrSafe) (desc : PropertyDescriptor) : AttrExternal :=
  let d := desc.attrs
  let attr := a.toExternal
  let attr := if d.undefConfigurable then attr else attr.setConfigurable d.configurable
  if d.undefEnumerable then attr else attr.setEnumerable d.enumerable

/-- The attributes after `merge`: what the descriptor leaves open stays. -/
def mergeAttrs (a : AttrSafe) (desc : PropertyDescriptor) : AttrSafe :=
  let d := desc.attrs
  let attr := mergeCommon a desc
  if d.isGeneric then
    AttrSafe.unSafe attr
  else if d.data then
    let attr := attr.setData
    AttrSafe.unSafe (if d.undefWritable then attr else attr.setWritable d.writable)
  else
    AttrSafe.unSafe attr.setAccessor

/-- The accessor cell that `merge` writes to: the property's own one, or a new one. -/
def mergeCell (s : StoredSlot) : Vm ℕ :=
  if s.attributes.accessor then s.accessor else Vm.newAccessor .undefined .undefined

/-- `merge`: apply an accepted descriptor. An accessor property keeps its cell, whose getter and
setter are overwritten in place. -/
def merge (s : StoredSlot) (desc : PropertyDescriptor) : Vm StoredSlot := do
  let d := desc.attrs
  let attributes := mergeAttrs s.attributes desc
  if d.isGeneric then
    return { s with attributes := attributes }
  else if d.data then
    return { value := if d.undefValue then s.value else desc.fst, attributes := attributes }
  else
    let c ← s.mergeCell
    Vm.onlyIf (!d.undefGetter) (Vm.modifyAccessor c fun ac => { ac with getter := desc.fst })
    Vm.onlyIf (!d.undefSetter) (Vm.modifyAccessor c fun ac => { ac with setter := desc.snd })
    return { value := if s.attributes.accessor then s.value else .accessor c,
             attributes := attributes }

def new (desc : PropertyDescriptor) : Vm StoredSlot := do
  let d := desc.attrs
  let attributes : AttrExternal := ({} : AttrExternal).setConfigurable d.configurable
  let attributes := attributes.setEnumerable d.enumerable
  if d.data then
    let value := if d.undefValue then .undefined else desc.fst
    return { value := value, attributes := createData (attributes.setWritable d.writable) }
  else if d.accessor then
    let c ← Vm.newAccessor desc.fst desc.snd
    return { value := .accessor c, attributes := createAccessor attributes }
  else
    return { value := .undefined, attributes := createData attributes }

end StoredSlot

/-- What the last `put` through a slot did. -/
inductive PutResultType where
  | none
  | replace
  | new
  | indexedOptimized
deriving DecidableEq

/-- The record that lookups fill in. `offset` is `none` for `u32::MAX`; the three flags are
`FLAG_CACHEABLE`, `FLAG_PUT_CACHEABLE` and `FLAG_FORCE_PUT_UNCACHEABLE`. Nothing ever sets
`FLAG_USED` (`make_used` clears it), so it is left out and `is_used` is always false. -/
structure Slot where
  stored : StoredSlot
  base : Option ℕ
  offset : Option ℕ
  cacheable : Bool
  putCacheable : Bool
  forcePutUncacheable : Bool
  putResult : PutResultType
deriving DecidableEq

namespace Slot

def new : Slot :=
  { stored := ⟨.undefined, AttrSafe.notFound⟩, base := none, offset := none, cacheable := true,
    putCacheable := false, forcePutUncacheable := false, putResult := .none }

def value (s : Slot) : JsValue := s.stored.value

def attributes (s : Slot) : AttrSafe := s.stored.attributes

def isNotFound (s : Slot) : Bool := s.attributes.isNotFound

def isUsed (_ : Slot) : Bool := false

def set (s : Slot) (value : JsValue) (attributes : AttrSafe) : Slot :=
  { s with stored := ⟨value, attributes⟩ }

def makeUncacheable (s : Slot) : Slot := { s with cacheable := false }

/-- `set_1`: a property that is not in a named slot. -/
def set1 (s : Slot) (value : JsValue) (attributes : AttrSafe) (obj : Option ℕ) : Slot :=
  { s with stored := ⟨value, attributes⟩, cacheable := false, base := obj, offset := none }

def setWoffset (s : Slot) (value : JsValue) (attributes : AttrSafe) (obj : Option ℕ)
    (offset : ℕ) : Slot :=
  { s with stored := ⟨value, attributes⟩, base := obj, offset := some offset }

def markPutResult (s : Slot) (ty : PutResultType) (offset : ℕ) : Slot :=
  { s with putResult := ty, offset := some offset, putCacheable := true }

/-- `is_cacheable`; every base in this model is a `JsObject`. -/
def isCacheable (s : Slot) : Bool := s.cacheable && s.base.isSome

def isLoadCacheable (s : Slot) : Bool := s.isCacheable && s.attributes.data

def isPutCacheable (s : Slot) : Bool := s.putCacheable && !s.forcePutUncacheable

end Slot

end Starlight
