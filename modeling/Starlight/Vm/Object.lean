import Mathlib.Data.Finset.Sort
import Mathlib.Order.Interval.Finset.Nat
import Starlight.Vm.Property

/-!
# Property operations on objects

The methods of `JsObject` that look up, define, write and delete properties, with the overrides of
the array, function, string and global classes.

The walk along the prototype chain is bounded by the number of objects: a longer walk has met a
cycle, and the source's loop would never end.
-/

namespace Starlight

namespace JsObject

/-! ### Lookup -/

def getOwnNonIndexedPropertySlotMethod (o : ℕ) (name : Symbol) (slot : Slot) :
    Vm (Bool × Slot) := do
  match ← Vm.structureGet o name with
  | some entry =>
    -- an entry whose attributes are `NONE` counts as not found
    if entry.attrs.isNotFound then
      return (false, slot)
    else
      let v ← Vm.direct o entry.offset
      return (true, slot.setWoffset v entry.attrs (some o) entry.offset)
  | none => return (false, slot)

def getOwnNonIndexedPropertySlot (o : ℕ) (name : Symbol) (slot : Slot) : Vm (Bool × Slot) := do
  let obj ← Vm.object o
  match obj.class_ with
  | .array =>
    if name = Symbol.length then
      return (true, slot.set1 (JsValue.newF64 obj.indexed.length)
        (createData { writable := obj.indexed.writable }) (some o))
    else
      getOwnNonIndexedPropertySlotMethod o name slot
  | .string value =>
    if name = Symbol.length then
      return (true, slot.set (JsValue.newF64 value.utf8ByteSize) stringLength)
    else
      getOwnNonIndexedPropertySlotMethod o name slot
  | .global =>
    let (found, slot) ← getOwnNonIndexedPropertySlotMethod o name slot
    return (found, if found then slot else slot.makeUncacheable)
  | _ => getOwnNonIndexedPropertySlotMethod o name slot

def getNonIndexedPropertySlotFrom : ℕ → ℕ → Symbol → Slot → Vm (Bool × Slot)
  | 0, _, _, _ => Exec.diverge
  | fuel + 1, o, name, slot => do
    let (found, slot) ← getOwnNonIndexedPropertySlot o name slot
    if found then
      return (true, slot)
    else
      let obj ← Vm.object o
      let proto ← Exec.gets fun w => (w.shapes.structures obj.structure_).prototype
      match proto with
      | some proto => getNonIndexedPropertySlotFrom fuel proto name slot
      | none => return (false, slot)

def getNonIndexedPropertySlot (o : ℕ) (name : Symbol) (slot : Slot) : Vm (Bool × Slot) := do
  let fuel ← Exec.gets fun w => w.nextObject + 1
  getNonIndexedPropertySlotFrom fuel o name slot

def getOwnIndexedPropertySlotMethod (o index : ℕ) (slot : Slot) : Vm (Bool × Slot) := do
  let obj ← Vm.object o
  let ix := obj.indexed
  let fromMap : Bool × Slot :=
    match ix.map.bind fun m => if index < ix.length then m.lookup index else none with
    | some it => (true, slot.set1 it.value it.attributes (some o))
    | none => (false, slot)
  if ix.dense && index < ix.vector.length then
    let value := ix.vector.getD index .empty
    if value.isEmpty then
      return (false, slot)
    else
      return (true, slot.set1 value objectData (some o))
  else
    return fromMap

/-- `get_own_indexed_property_slot`; string objects answer with their characters. The index is
checked against the length in bytes, the character taken by position. -/
def getOwnIndexedPropertySlot (o index : ℕ) (slot : Slot) : Vm (Bool × Slot) := do
  let obj ← Vm.object o
  match obj.class_ with
  | .string value =>
    if index < value.utf8ByteSize then
      match value.toList[index]? with
      | some ch =>
        let s ← Vm.newString (String.singleton ch)
        return (true, slot.set s stringIndexed)
      | none => Exec.fail .panic
    else
      getOwnIndexedPropertySlotMethod o index slot
  | _ => getOwnIndexedPropertySlotMethod o index slot

def getIndexedPropertySlotFrom : ℕ → ℕ → ℕ → Slot → Vm (Bool × Slot)
  | 0, _, _, _ => Exec.diverge
  | fuel + 1, o, index, slot => do
    let (found, slot) ← getOwnIndexedPropertySlot o index slot
    if found then
      return (true, slot)
    else
      let obj ← Vm.object o
      let proto ← Exec.gets fun w => (w.shapes.structures obj.structure_).prototype
      match proto with
      | some proto => getIndexedPropertySlotFrom fuel proto index slot
      | none => return (false, slot)

def getIndexedPropertySlot (o index : ℕ) (slot : Slot) : Vm (Bool × Slot) := do
  let fuel ← Exec.gets fun w => w.nextObject + 1
  getIndexedPropertySlotFrom fuel o index slot

def getOwnPropertySlot (o : ℕ) (name : Symbol) (slot : Slot) : Vm (Bool × Slot) :=
  match name with
  | .index i => getOwnIndexedPropertySlot o i slot
  | name => getOwnNonIndexedPropertySlot o name slot

def getPropertySlot (o : ℕ) (name : Symbol) (slot : Slot) : Vm (Bool × Slot) :=
  match name with
  | .index i => getIndexedPropertySlot o i slot
  | name => getNonIndexedPropertySlot o name slot

/-- The value of a looked-up property, `undefined` when it was not found. -/
def slotValue (o : ℕ) (found : Bool) (slot : Slot) : Vm JsValue :=
  if found then slot.stored.get (.object o) else pure .undefined

/-- `get_slot`. The override of the function class looks at the value of `caller` again: a strict
function is not handed out. -/
def getSlot (o : ℕ) (name : Symbol) (strict : ℕ → Bool) (slot : Slot) : Vm JsValue := do
  let (found, slot) ← getPropertySlot o name slot
  let result ← slotValue o found slot
  let obj ← Vm.object o
  match obj.class_ with
  | .function =>
    if name = .key "caller" && (← Vm.isCallable result) then
      match result with
      | .object f =>
        if strict f then
          Vm.throwTypeError "'caller' property is not accessible in strict mode"
        else
          return result
      | _ => return result
    else
      return result
  | _ => return result

def getOwnProperty (o : ℕ) (name : Symbol) : Vm (Option PropertyDescriptor) := do
  let (found, slot) ← getOwnPropertySlot o name Slot.new
  if found then
    return some (← slot.stored.toDescriptor)
  else
    return none

/-! ### Definition -/

/-- Move object `o` to the structure that a transition computes for it. -/
def setStructure (o s : ℕ) : Vm Unit := Vm.modifyObject o fun obj => { obj with structure_ := s }

/-- `self.structure = self.structure.transition(..)`. -/
def transition (o : ℕ) (f : Shapes → ℕ → ℕ × Shapes) : Vm Unit := do
  let obj ← Vm.object o
  let s ← Vm.shapes fun σ => f σ obj.structure_
  setStructure o s

/-- Add a property that the object does not have: transition, grow the slots, store the value. -/
def addProperty (o : ℕ) (name : Symbol) (stored : StoredSlot) : Vm ℕ := do
  let obj ← Vm.object o
  let (s, offset) ← Vm.shapes fun σ =>
    let (s, offset, σ) := σ.addPropertyTransition obj.structure_ name stored.attributes
    ((s, offset), σ)
  setStructure o s
  let sz ← Exec.gets fun w => w.shapes.storageCapacity s
  Vm.modifyObject o fun obj => { obj with slots := resize obj.slots sz }
  Vm.setDirect o offset stored.value
  return offset

/-- Give a property the attributes `attributes`, by a transition unless it has them already. -/
def changeAttributes (o : ℕ) (name : Symbol) (old attributes : AttrSafe) : Vm Unit :=
  if old ≠ attributes then do
    let obj ← Vm.object o
    let s ← Vm.shapes? fun σ => σ.changeAttributesTransition obj.structure_ name attributes
    setStructure o s
  else
    pure ()

/-- Store a redefined property: the attributes by a transition, the value in its slot. -/
def replaceProperty (o : ℕ) (name : Symbol) (old : AttrSafe) (offset : ℕ) (stored : StoredSlot) :
    Vm Unit := do
  changeAttributes o name old stored.attributes
  Vm.setDirect o offset stored.value

def defineOwnNonIndexedPropertySlotMethod (o : ℕ) (name : Symbol) (desc : PropertyDescriptor)
    (slot : Slot) (throwable : Bool) : Vm (Bool × Slot) := do
  let (_, slot) ← if slot.isUsed then pure (true, slot) else getOwnPropertySlot o name slot
  if !slot.isNotFound && slot.base = some o then
    let (accepted, returned) ← slot.stored.isDefinedPropertyAccepted desc throwable
    if accepted then
      match slot.offset with
      | some offset =>
        let stored ← slot.stored.merge desc
        replaceProperty o name slot.attributes offset stored
        return (returned, ({ slot with stored := stored }).markPutResult .replace offset)
      | none =>
        let stored ← slot.stored.merge desc
        let offset ← addProperty o name stored
        return (returned, ({ slot with stored := stored }).markPutResult .new offset)
    else
      return (returned, slot)
  else
    let obj ← Vm.object o
    if !obj.extensible then
      Vm.reject throwable "Object non extensible" (false, slot)
    else
      let stored ← StoredSlot.new desc
      let offset ← addProperty o name stored
      return (true, { slot.markPutResult .new offset with base := some o })

def changeLengthWritable (o : ℕ) (writable throwable : Bool) : Vm Bool := do
  let obj ← Vm.object o
  if !writable then
    Vm.modifyObject o fun obj => { obj with indexed := { obj.indexed with writable := false } }
    return true
  else if !obj.indexed.writable then
    Vm.reject throwable "changing [[Writable]] of unconfigurable property not allowed" false
  else
    return true

end JsObject

namespace IndexedElements

def makeSparse (ix : IndexedElements) : IndexedElements :=
  let sparse := ix.map.getD ∅
  let sparse := (List.range ix.vector.length).foldl (fun m i =>
    let v := ix.vector.getD i .empty
    if v.isEmpty then m else m.insert i ⟨v, objectData⟩) sparse
  { ix with dense := false, map := some sparse
            vector := List.replicate ix.vector.length .empty }

def makeDense (ix : IndexedElements) : IndexedElements := { ix with dense := true, map := none }

def setLength (ix : IndexedElements) (len : ℕ) : IndexedElements := { ix with length := len }

end IndexedElements

def maxVectorSize : ℕ := 1024 <<< 6

namespace JsObject

def modifyIndexed (o : ℕ) (f : IndexedElements → IndexedElements) : Vm Unit :=
  Vm.modifyObject o fun obj => { obj with indexed := f obj.indexed }

def deleteIndexedInternal (o index : ℕ) (throwable : Bool) : Vm Bool := do
  let obj ← Vm.object o
  let ix := obj.indexed
  if ix.length ≤ index then
    return true
  else if ix.dense && index < ix.vector.length then
    modifyIndexed o fun ix => { ix with vector := ix.vector.set index .empty }
    return true
  else if ix.dense && index < maxVectorSize then
    return true
  else
    match ix.map with
    | none => return true
    | some map =>
      match map.lookup index with
      | none => return true
      | some x =>
        if !x.attributes.configurable then
          Vm.reject throwable "trying to delete non-configurable property" false
        else
          let map := map.erase index
          modifyIndexed o fun ix =>
            if tableLen map = 0 then { ix with map := some map }.makeDense
            else { ix with map := some map }
          return true

/-- The dense part of `set_length` for a length above `MAX_VECTOR_SIZE`: indices are visited in
ascending order and the loop stops at the first one below the new length. -/
def shrinkMap (len : ℕ) : List ℕ → (Finmap fun _ : ℕ => StoredSlot) →
    Finmap fun _ : ℕ => StoredSlot
  | [], map => map
  | x :: xs, map => if len ≤ x then shrinkMap len xs (map.erase x) else map

def shrinkFromEnd (o len : ℕ) (throwable : Bool) : ℕ → Vm Bool
  | 0 => do
    modifyIndexed o fun ix => ix.setLength len
    return true
  | old + 1 => do
    if len < old + 1 then
      if ← deleteIndexedInternal o old false then
        shrinkFromEnd o len throwable old
      else
        modifyIndexed o fun ix => ix.setLength (old + 1)
        Vm.reject throwable "failed to shrink array" false
    else
      modifyIndexed o fun ix => ix.setLength len
      return true

def shrinkByNames (o len : ℕ) (throwable : Bool) : List Symbol → Vm Bool
  | [] => do
    modifyIndexed o fun ix => ix.setLength len
    return true
  | .index i :: rest => do
    if ← deleteIndexedInternal o i false then
      shrinkByNames o len throwable rest
    else
      modifyIndexed o fun ix => ix.setLength (i + 1)
      Vm.reject throwable "failed to shrink array" false
  | _ :: rest => shrinkByNames o len throwable rest

def getOwnPropertyNames (o : ℕ) (includeNotEnumerable : Bool) : Vm (List Symbol) := do
  let obj ← Vm.object o
  let ix := obj.indexed
  let order ← Exec.gets fun w => w.hashOrder
  let special : List Symbol := match obj.class_ with
    | .array => if includeNotEnumerable then [Symbol.length] else []
    | .string value =>
      (if includeNotEnumerable then [Symbol.length] else []) ++
        (List.range value.utf8ByteSize).map Symbol.index
    | _ => []
  let dense := if ix.dense then
      ((List.range ix.vector.length).filter fun i => !(ix.vector.getD i .empty).isEmpty).map
        Symbol.index
    else []
  let sparse := match ix.map with
    | none => []
    | some m => ((order.indices m).filter fun i => match m.lookup i with
        | some it => includeNotEnumerable || it.attributes.enumerable
        | none => false).map Symbol.index
  let hasTable ← Vm.shapes fun σ => σ.allocateTableIfNeeded obj.structure_
  let table ← Exec.gets fun w => w.shapes.tableOf obj.structure_
  let named := if hasTable then (order.names table).filter fun n => match table.lookup n with
      | some e => includeNotEnumerable || e.attrs.enumerable
      | none => false
    else []
  return special ++ dense ++ sparse ++ named

/-- The branch of `set_length` for dense arrays. -/
def shrinkDense (len : ℕ) (ix : IndexedElements) : IndexedElements :=
  if maxVectorSize < len then
    match ix.map with
    | none => ix
    | some map =>
      let map := shrinkMap len (map.keys.sort (· ≤ ·)) map
      if tableLen map = 0 then { ix with map := some map }.makeDense
      else { ix with map := some map }
  else
    let ix := ix.makeDense
    if len < ix.vector.length then { ix with vector := resize ix.vector len } else ix

def setLength (o len : ℕ) (throwable : Bool) : Vm Bool := do
  if len = 4294967295 then
    Exec.fail (.throw (.rangeError "Out of memory for array values"))
  else
    let obj ← Vm.object o
    let ix := obj.indexed
    let old := ix.length
    if old ≤ len then
      modifyIndexed o fun ix => ix.setLength len
      return true
    else if ix.dense then
      modifyIndexed o fun ix => (shrinkDense len ix).setLength len
      return true
    else if old - len < 1 <<< 24 then
      shrinkFromEnd o len throwable old
    else
      let props ← getOwnPropertyNames o true
      shrinkByNames o len throwable props.reverse

/-- `to_number` on values that need no conversion code. -/
def toNumber (v : JsValue) : Vm F64 :=
  match v with
  | .double d => pure d
  | .int32 i => pure (F64.ofInt i.toInt)
  | .bool b => pure (F64.ofInt (if b then 1 else 0))
  | .null => pure (F64.ofInt 0)
  | .undefined => pure .nan
  | v => Exec.fail (.convert v)

def defineLengthTo (o : ℕ) (desc : PropertyDescriptor) (newLenDouble : F64) (throwable : Bool) :
    Vm Bool := do
  let newLen := newLenDouble.toU32
  if !(F64.ofInt newLen).eq newLenDouble then
    Vm.throwTypeError "invalid array length"
  else
    let obj ← Vm.object o
    if newLen = obj.indexed.length then
      if !desc.attrs.undefWritable then changeLengthWritable o desc.attrs.writable throwable
      else return true
    else if !obj.indexed.writable then
      Vm.reject throwable "'length' not writable" false
    else
      let succ ← setLength o newLen throwable
      if !desc.attrs.undefWritable then changeLengthWritable o desc.attrs.writable throwable
      else return succ

def defineLengthProperty (o : ℕ) (desc : PropertyDescriptor) (throwable : Bool) : Vm Bool := do
  if desc.attrs.configurable then
    Vm.reject throwable "changing [[Configurable]] of unconfigurable property not allowed" false
  else if desc.attrs.enumerable then
    Vm.reject throwable "changing [[Enumerable]] of unconfigurable property not allowed" false
  else if desc.attrs.accessor then
    Vm.reject throwable "changing description of unconfigurable property not allowed" false
  else if desc.attrs.undefValue then
    if !desc.attrs.undefWritable then changeLengthWritable o desc.attrs.writable throwable
    else return true
  else
    let d ← toNumber desc.fst
    defineLengthTo o desc d throwable

def defineOwnNonIndexedPropertySlot (o : ℕ) (name : Symbol) (desc : PropertyDescriptor)
    (slot : Slot) (throwable : Bool) : Vm (Bool × Slot) := do
  let obj ← Vm.object o
  match obj.class_ with
  | .array =>
    if name = Symbol.length then
      return (← defineLengthProperty o desc throwable, slot)
    else
      defineOwnNonIndexedPropertySlotMethod o name desc slot throwable
  | .function =>
    if name = Symbol.prototype then
      -- the instances' structure is computed afresh from the new prototype
      Vm.modifyObject o fun obj => { obj with constructStruct := none }
      defineOwnNonIndexedPropertySlotMethod o name desc slot.makeUncacheable throwable
    else
      defineOwnNonIndexedPropertySlotMethod o name desc slot throwable
  | _ => defineOwnNonIndexedPropertySlotMethod o name desc slot throwable

/-- `change_indexed_transition` on the structure of `o`, unless it is indexed already. -/
def makeIndexed (o : ℕ) : Vm Unit := do
  let obj ← Vm.object o
  let indexed ← Exec.gets fun w => (w.shapes.structures obj.structure_).transitions.indexed
  if indexed then
    return ()
  else
    transition o Shapes.changeIndexedTransition

def defineOwnIndexeValueDenseInternal (o index : ℕ) (val : JsValue) (absent : Bool) :
    Vm Unit := do
  let obj ← Vm.object o
  Vm.onlyIf (!(index < obj.indexed.vector.length)) do
    makeIndexed o
    modifyIndexed o fun ix => { ix with vector := resize ix.vector (index + 1) }
  modifyIndexed o fun ix =>
    let ix := if absent then { ix with vector := ix.vector.set index .undefined }
      else { ix with vector := ix.vector.set index val, nonGc := ix.nonGc && !val.isObject }
    if ix.length ≤ index then ix.setLength (index + 1) else ix

def isAbsentDescriptor (desc : PropertyDescriptor) : Bool :=
  let d := desc.attrs
  if !d.enumerable && !d.undefEnumerable then false
  else if !d.configurable && !d.undefConfigurable then false
  else if d.accessor then false
  else if d.data then d.writable && d.undefWritable
  else true

def setSparse (o index : ℕ) (stored : StoredSlot) (nonGc : Bool) : Vm Unit :=
  modifyIndexed o fun ix =>
    { ix with map := some ((ix.map.getD ∅).insert index stored), nonGc := ix.nonGc && nonGc }

def defineOwnIndexedSparse (o index : ℕ) (desc : PropertyDescriptor) (throwable : Bool) :
    Vm Bool := do
  modifyIndexed o fun ix => { ix with map := some (ix.map.getD ∅) }
  let obj ← Vm.object o
  match (obj.indexed.map.getD ∅).lookup index with
  | some entry =>
    let (accepted, returned) ← entry.isDefinedPropertyAccepted desc throwable
    if accepted then
      let entry ← entry.merge desc
      setSparse o index entry (!desc.fst.isObject)
      return returned
    else
      return returned
  | none =>
    if !obj.extensible then
      Vm.reject throwable "object not extensible" false
    else
      makeIndexed o
      modifyIndexed o fun ix => if ix.length ≤ index then ix.setLength (index + 1) else ix
      let stored ← StoredSlot.new desc
      setSparse o index stored (!desc.fst.isObject)
      return true

def defineOwnIndexedPropertyInternal (o index : ℕ) (desc : PropertyDescriptor)
    (throwable : Bool) : Vm Bool := do
  let obj ← Vm.object o
  let ix := obj.indexed
  if ix.length ≤ index && !ix.writable then
    Vm.reject throwable
      "adding an element to the array which length is not writable is rejected" false
  else if ix.dense && desc.attrs.isDefault && index < maxVectorSize then
    defineOwnIndexeValueDenseInternal o index desc.fst desc.attrs.undefValue
    return true
  else if ix.dense && !desc.attrs.isDefault && isAbsentDescriptor desc &&
      index < ix.vector.length && !(ix.vector.getD index .empty).isEmpty then
    Vm.onlyIf (!desc.attrs.undefValue) <| modifyIndexed o fun ix =>
      { ix with vector := ix.vector.set index desc.fst, nonGc := ix.nonGc && !desc.fst.isObject }
    return true
  else
    Vm.onlyIf (ix.dense && !desc.attrs.isDefault && index < maxVectorSize) <|
      modifyIndexed o IndexedElements.makeSparse
    defineOwnIndexedSparse o index desc throwable

def overridesIndexed : Class → Bool
  | .string _ => true
  | _ => false

def defineOwnIndexedPropertySlot (o index : ℕ) (desc : PropertyDescriptor) (slot : Slot)
    (throwable : Bool) : Vm (Bool × Slot) := do
  let obj ← Vm.object o
  if overridesIndexed obj.class_ then
    let (_, slot) ← getOwnIndexedPropertySlot o index slot
    if !slot.isNotFound && slot.base = some o then
      let (accepted, returned) ← slot.stored.isDefinedPropertyAccepted desc throwable
      if !accepted then
        return (returned, slot)
      else
        return (← defineOwnIndexedPropertyInternal o index desc throwable, slot)
    else
      return (← defineOwnIndexedPropertyInternal o index desc throwable, slot)
  else
    return (← defineOwnIndexedPropertyInternal o index desc throwable, slot)

def defineOwnPropertySlot (o : ℕ) (name : Symbol) (desc : PropertyDescriptor) (slot : Slot)
    (throwable : Bool) : Vm (Bool × Slot) :=
  match name with
  | .index i => defineOwnIndexedPropertySlot o i desc slot throwable
  | name => defineOwnNonIndexedPropertySlot o name desc slot throwable

def defineOwnProperty (o : ℕ) (name : Symbol) (desc : PropertyDescriptor) (throwable : Bool) :
    Vm Bool := do
  let (returned, _) ← defineOwnPropertySlot o name desc Slot.new throwable
  return returned

/-! ### Assignment -/

def canPut (o : ℕ) (found : Bool) (slot : Slot) : Vm Bool := do
  if found then
    if slot.attributes.accessor then
      let c ← slot.stored.accessor
      let ac ← Vm.accessorCell c
      return ac.setter.isPointer && !ac.setter.isEmpty
    else
      return slot.attributes.writable
  else
    let obj ← Vm.object o
    return obj.extensible

/-- The common part of `PutNonIndexedSlotMethod` and `PutIndexedSlotMethod`; they differ in how the
slot is looked up, in how the property is defined and in the callee passed on to the setter. -/
def putFrom (o : ℕ) (val : JsValue) (throwable found : Bool) (slot : Slot)
    (callee : JsValue → JsValue)
    (define : PropertyDescriptor → Slot → Vm (Bool × Slot)) : Vm Slot := do
  if !(← canPut o found slot) then
    Vm.reject throwable "put failed" slot
  else if !slot.isNotFound && slot.base = some o && slot.attributes.data then
    let desc := PropertyDescriptor.dataDescriptor val
      { undefEnumerable := true, undefConfigurable := true, undefWritable := true }
    let (_, slot) ← define desc slot
    return slot
  else if !slot.isNotFound && slot.attributes.accessor then
    let c ← slot.stored.accessor
    let ac ← Vm.accessorCell c
    Exec.fail (.invoke (callee ac.setter) (.object o) [val])
  else
    let desc := PropertyDescriptor.dataDescriptor val
      { writable := true, enumerable := true, configurable := true }
    let (_, slot) ← define desc slot
    return slot

def putNonIndexedSlot (o : ℕ) (name : Symbol) (val : JsValue) (slot : Slot) (throwable : Bool) :
    Vm Slot := do
  let (found, slot) ← getPropertySlot o name slot
  putFrom o val throwable found slot id fun desc slot =>
    defineOwnNonIndexedPropertySlot o name desc slot throwable

def hasIndexedPropertyFrom : ℕ → ℕ → Vm Bool
  | 0, _ => Exec.diverge
  | fuel + 1, o => do
    let obj ← Vm.object o
    let s ← Exec.gets fun w => w.shapes.structures obj.structure_
    if s.transitions.indexed then
      return true
    else
      match s.prototype with
      | some proto => hasIndexedPropertyFrom fuel proto
      | none => return false

/-- Whether `PutIndexedSlotMethod` may write to the dense vector right away. -/
def canPutDense (o index : ℕ) : Vm Bool := do
  let obj ← Vm.object o
  let proto ← Exec.gets fun w => (w.shapes.structures obj.structure_).prototype
  if index < maxVectorSize && obj.indexed.dense && !overridesIndexed obj.class_ then
    match proto with
    | none => return true
    | some proto =>
      let fuel ← Exec.gets fun w => w.nextObject + 1
      hasIndexedPropertyFrom fuel proto
  else
    return false

def putIndexedSlot (o index : ℕ) (val : JsValue) (slot : Slot) (throwable : Bool) :
    Vm Slot := do
  if ← canPutDense o index then
    defineOwnIndexeValueDenseInternal o index val false
    return slot.markPutResult .indexedOptimized index
  else
    let (found, slot) ← getIndexedPropertySlot o index slot
    putFrom o val throwable found slot id fun desc slot =>
      defineOwnIndexedPropertySlot o index desc slot throwable

def putSlot (o : ℕ) (name : Symbol) (val : JsValue) (slot : Slot) (throwable : Bool) : Vm Slot :=
  match name with
  | .index i => putIndexedSlot o i val slot throwable
  | name => putNonIndexedSlot o name val slot throwable

def put (o : ℕ) (name : Symbol) (val : JsValue) (throwable : Bool) : Vm Unit := do
  let _ ← putSlot o name val Slot.new throwable

/-! ### Deletion -/

/-- The slot that `DeleteNonIndexedMethod` empties. -/
def deletionOffset (o : ℕ) (name : Symbol) (slot : Slot) : Vm (Option ℕ) :=
  match slot.offset with
  | some offset => pure (some offset)
  | none => do
    let entry ← Vm.structureGet o name
    return entry.bind fun e => if e.attrs.isNotFound then none else some e.offset

/-- Remove a property: the name by a transition, the value by emptying its slot. -/
def removeProperty (o : ℕ) (name : Symbol) (offset : ℕ) : Vm Unit := do
  let obj ← Vm.object o
  let s ← Vm.shapes? fun σ => σ.deletePropertyTransition obj.structure_ name
  setStructure o s
  Vm.setDirect o offset .empty

def deleteNonIndexedMethod (o : ℕ) (name : Symbol) (throwable : Bool) : Vm Bool := do
  let (found, slot) ← getOwnPropertySlot o name Slot.new
  if !found then
    return true
  else if !slot.attributes.configurable then
    Vm.reject throwable "Can not delete non configurable property" false
  else
    match ← deletionOffset o name slot with
    | none => return true
    | some offset =>
      removeProperty o name offset
      return true

def deleteNonIndexed (o : ℕ) (name : Symbol) (throwable : Bool) : Vm Bool := do
  let obj ← Vm.object o
  if obj.class_ = .array ∧ name = Symbol.length then
    Vm.reject throwable "delete failed" false
  else
    deleteNonIndexedMethod o name throwable

def deleteIndexed (o index : ℕ) (throwable : Bool) : Vm Bool := do
  let obj ← Vm.object o
  if overridesIndexed obj.class_ then
    let (found, slot) ← getOwnIndexedPropertySlot o index Slot.new
    if !found then
      return true
    else if !slot.attributes.configurable then
      Vm.reject throwable "Can not delete non configurable property" false
    else
      deleteIndexedInternal o index throwable
  else
    deleteIndexedInternal o index throwable

def delete (o : ℕ) (name : Symbol) (throwable : Bool) : Vm Bool :=
  match name with
  | .index i => deleteIndexed o i throwable
  | name => deleteNonIndexed o name throwable

/-! ### Whole objects -/

def changeExtensible (o : ℕ) (val : Bool) : Vm Unit := do
  Vm.modifyObject o fun obj => { obj with extensible := val }
  transition o Shapes.changeExtensibleTransition
  modifyIndexed o IndexedElements.makeSparse

/-- `obj.structure = obj.structure.change_prototype_transition(..)`. -/
def changePrototype (o : ℕ) (prototype : Option ℕ) : Vm Unit :=
  transition o fun σ s => σ.changePrototypeTransition s prototype

def frozen (desc : PropertyDescriptor) : PropertyDescriptor :=
  let attrs := if desc.attrs.data then desc.attrs.setWritable false else desc.attrs
  { desc with attrs := if attrs.configurable then attrs.setConfigurable false else attrs }

def sealed (desc : PropertyDescriptor) : PropertyDescriptor :=
  { desc with
    attrs := if desc.attrs.configurable then desc.attrs.setConfigurable false else desc.attrs }

/-- The loop of `freeze` and `seal`: redefine the properties one after the other. -/
def redefineAll (o : ℕ) (f : PropertyDescriptor → PropertyDescriptor) : List Symbol → Vm Unit
  | [] => pure ()
  | name :: names => do
    match ← getOwnProperty o name with
    | some desc =>
      let _ ← defineOwnProperty o name (f desc) true
      redefineAll o f names
    | none => Exec.fail .panic

def freeze (o : ℕ) : Vm Bool := do
  let names ← getOwnPropertyNames o true
  redefineAll o frozen names
  changeExtensible o false
  return true

def seal_ (o : ℕ) : Vm Bool := do
  let names ← getOwnPropertyNames o true
  redefineAll o sealed names
  changeExtensible o false
  return true

def new (structure_ : ℕ) (class_ : Class) : Vm ℕ :=
  Exec.update fun w => (w.nextObject, { w with
    objects := Function.update w.objects w.nextObject
      { class_ := class_, structure_ := structure_, indexed := .new
        slots := List.replicate (w.shapes.storageCapacity structure_) .empty
        extensible := true, callable := class_ = .function, constructStruct := none }
    nextObject := w.nextObject + 1 })

def copyAll (source target : ℕ) : List Symbol → Vm Unit
  | [] => pure ()
  | name :: names => do
    match ← getOwnProperty source name with
    | some desc =>
      let _ ← Vm.expectOk (defineOwnProperty target name desc false)
      copyAll source target names
    | none => Exec.fail .panic

/-- `JsObject::copy`: the copy starts out on the source's structure. -/
def copy (source : ℕ) : Vm ℕ := do
  let obj ← Vm.object source
  let target ← new obj.structure_ obj.class_
  let names ← getOwnPropertyNames source true
  copyAll source target names
  return target

end JsObject

end Starlight
