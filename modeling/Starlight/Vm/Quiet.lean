import Starlight.Lib.Keeps
import Starlight.Vm.Heap

/-!
# Code that leaves the elements and the cached structures alone

Looking properties up, and defining a named property in the way every class does, change an object in
its structure and its slots only. Such code keeps every predicate of the heap that depends on the
elements of the objects and on the structures they have cached.
-/

namespace Starlight

open JsObject Exec

variable {α : Type} {o : ℕ}

/-- The predicate depends on the elements of the objects and on their cached structures only. -/
def Unnamed (I : World → Prop) : Prop :=
  ∀ w w' : World, (∀ b, (w'.objects b).indexed = (w.objects b).indexed ∧
    (w'.objects b).constructStruct = (w.objects b).constructStruct) → I w → I w'

variable {I : World → Prop}

/-! ### Steps -/

theorem keeps_modifyObject (hI : Unnamed I) {f : JsObject → JsObject}
    (hf : ∀ obj, (f obj).indexed = obj.indexed ∧ (f obj).constructStruct = obj.constructStruct) :
    (Vm.modifyObject o f).Keeps I :=
  keeps_modify fun w => hI _ _ fun b => by
    by_cases hb : b = o
    · subst hb
      simp [hf]
    · simp [hb]

theorem keeps_object : (Vm.object o).Keeps I := keeps_gets _

theorem keeps_accessorCell (c : ℕ) : (Vm.accessorCell c).Keeps I := keeps_gets _

theorem keeps_throwTypeError (msg : String) : (Vm.throwTypeError msg : Vm α).Keeps I := keeps_fail _

theorem keeps_reject (throwable : Bool) (msg : String) (a : α) :
    (Vm.reject throwable msg a).Keeps I :=
  .ite (keeps_throwTypeError msg) (keeps_pure a)

theorem keeps_onlyIf {x : Vm Unit} (hx : x.Keeps I) (b : Bool) : (Vm.onlyIf b x).Keeps I :=
  .ite hx (keeps_pure _)

theorem keeps_shapes (hI : Unnamed I) (f : Shapes → α × Shapes) : (Vm.shapes f).Keeps I :=
  keeps_update fun _ => hI _ _ fun _ => ⟨rfl, rfl⟩

theorem keeps_shapes? (hI : Unnamed I) (f : Shapes → Option (α × Shapes)) :
    (Vm.shapes? f).Keeps I := by
  intro w h
  unfold Vm.shapes?
  split
  · exact hI w _ (fun _ => ⟨rfl, rfl⟩) h
  · trivial

theorem keeps_structureGet (hI : Unnamed I) (o : ℕ) (name : Symbol) :
    (Vm.structureGet o name).Keeps I :=
  .bind keeps_object fun _ => keeps_shapes hI _

theorem keeps_newAccessor (hI : Unnamed I) (getter setter : JsValue) :
    (Vm.newAccessor getter setter).Keeps I :=
  keeps_update fun _ => hI _ _ fun _ => ⟨rfl, rfl⟩

theorem keeps_modifyAccessor (hI : Unnamed I) (c : ℕ) (f : Accessor → Accessor) :
    (Vm.modifyAccessor c f).Keeps I :=
  keeps_modify fun _ => hI _ _ fun _ => ⟨rfl, rfl⟩

theorem keeps_newString (hI : Unnamed I) (text : String) : (Vm.newString text).Keeps I :=
  keeps_update fun _ => hI _ _ fun _ => ⟨rfl, rfl⟩

theorem keeps_direct (o n : ℕ) : (Vm.direct o n).Keeps I := by
  intro w h
  unfold Vm.direct
  split
  · exact h
  · trivial

theorem keeps_setDirect (hI : Unnamed I) (o n : ℕ) (v : JsValue) :
    (Vm.setDirect o n v).Keeps I := by
  intro w h
  unfold Vm.setDirect
  split
  · exact keeps_modifyObject (f := fun obj => { obj with slots := obj.slots.set n v }) hI
      (fun _ => ⟨rfl, rfl⟩) w h
  · trivial

/-! ### Stored properties -/

theorem keeps_accessor (s : StoredSlot) : s.accessor.Keeps I := by
  refine .ite ?_ keeps_stuck
  split
  · exact keeps_pure _
  · exact .ite keeps_stuck (keeps_fail _)

theorem keeps_mergeWithNoEffect (s : StoredSlot) (desc : PropertyDescriptor) :
    (s.mergeWithNoEffect desc).Keeps I := by
  refine .ite (keeps_pure _) <| .ite (keeps_pure _) <| .ite (keeps_pure _) <| .ite ?_ <| .ite ?_ ?_
  · exact .ite (keeps_pure _) (.ite (keeps_pure _) (keeps_pure _))
  · exact .bind (keeps_accessor s) fun c => .bind (keeps_accessorCell c) fun _ => keeps_pure _
  · exact keeps_pure _

theorem keeps_isDefinedPropertyAccepted (s : StoredSlot) (desc : PropertyDescriptor)
    (throwable : Bool) : (s.isDefinedPropertyAccepted desc throwable).Keeps I := by
  have hr : ∀ msg, (Vm.reject throwable msg (false, false)).Keeps I := fun msg => keeps_reject _ _ _
  refine .ite (keeps_pure _) <| .bind (keeps_mergeWithNoEffect s desc) fun _ =>
    .ite (keeps_pure _) <| .ite (hr _) <| .ite (hr _) <|
      .ite (keeps_pure _) <| .ite (.ite (hr _) (keeps_pure _)) <| .ite ?_ <| .ite ?_ (keeps_pure _)
  · exact .ite (.ite (hr _) (.ite (hr _) (keeps_pure _))) (keeps_pure _)
  · exact .bind (keeps_accessor s) fun c => .bind (keeps_accessorCell c) fun _ =>
      .ite (hr _) (keeps_pure _)

theorem keeps_mergeCell (hI : Unnamed I) (s : StoredSlot) : s.mergeCell.Keeps I :=
  .ite (keeps_accessor s) (keeps_newAccessor hI _ _)

theorem keeps_merge (hI : Unnamed I) (s : StoredSlot) (desc : PropertyDescriptor) :
    (s.merge desc).Keeps I :=
  .ite (keeps_pure _) <| .ite (keeps_pure _) <| .bind (keeps_mergeCell hI s) fun _ =>
    .bind (keeps_onlyIf (keeps_modifyAccessor hI _ _) _) fun _ =>
      .bind (keeps_onlyIf (keeps_modifyAccessor hI _ _) _) fun _ => keeps_pure _

theorem keeps_storedSlotNew (hI : Unnamed I) (desc : PropertyDescriptor) :
    (StoredSlot.new desc).Keeps I :=
  .ite (keeps_pure _) <| .ite (.bind (keeps_newAccessor hI _ _) fun _ => keeps_pure _) (keeps_pure _)

/-! ### Lookup -/

theorem keeps_getOwnNonIndexedPropertySlotMethod (hI : Unnamed I) (o : ℕ) (name : Symbol)
    (slot : Slot) : (getOwnNonIndexedPropertySlotMethod o name slot).Keeps I := by
  refine .bind (keeps_structureGet hI o name) fun entry => ?_
  cases entry with
  | none => exact keeps_pure _
  | some entry => exact .ite (keeps_pure _) (.bind (keeps_direct _ _) fun _ => keeps_pure _)

theorem keeps_getOwnNonIndexedPropertySlot (hI : Unnamed I) (o : ℕ) (name : Symbol)
    (slot : Slot) : (getOwnNonIndexedPropertySlot o name slot).Keeps I := by
  have h := keeps_getOwnNonIndexedPropertySlotMethod hI o name slot
  refine .bind keeps_object fun obj => ?_
  cases obj.class_ with
  | array | string value => exact .ite (keeps_pure _) h
  | global => exact .bind h fun _ => keeps_pure _
  | object => exact h
  | function => exact h

theorem keeps_getOwnIndexedPropertySlotMethod (o index : ℕ) (slot : Slot) :
    (getOwnIndexedPropertySlotMethod o index slot).Keeps I :=
  .bind keeps_object fun _ => .ite (.ite (keeps_pure _) (keeps_pure _)) (keeps_pure _)

theorem keeps_getOwnIndexedPropertySlot (hI : Unnamed I) (o index : ℕ) (slot : Slot) :
    (getOwnIndexedPropertySlot o index slot).Keeps I := by
  have h := keeps_getOwnIndexedPropertySlotMethod (I := I) o index slot
  refine .bind keeps_object fun obj => ?_
  cases obj.class_ with
  | string value =>
    refine .ite ?_ h
    cases value.toList[index]? with
    | none => exact keeps_fail _
    | some ch => exact .bind (keeps_newString hI _) fun _ => keeps_pure _
  | _ => exact h

theorem keeps_getOwnPropertySlot (hI : Unnamed I) (o : ℕ) (name : Symbol) (slot : Slot) :
    (getOwnPropertySlot o name slot).Keeps I := by
  cases name with
  | index i => exact keeps_getOwnIndexedPropertySlot hI o i slot
  | key text | priv id => exact keeps_getOwnNonIndexedPropertySlot hI o _ slot

/-! ### Named properties -/

theorem keeps_setStructure (hI : Unnamed I) (o s : ℕ) : (setStructure o s).Keeps I :=
  keeps_modifyObject hI fun _ => ⟨rfl, rfl⟩

theorem keeps_addProperty (hI : Unnamed I) (o : ℕ) (name : Symbol) (stored : StoredSlot) :
    (addProperty o name stored).Keeps I :=
  .bind keeps_object fun _ => .bind (keeps_shapes hI _) fun _ =>
    .bind (keeps_setStructure hI _ _) fun _ => .bind (keeps_gets _) fun _ =>
      .bind (keeps_modifyObject hI fun _ => ⟨rfl, rfl⟩) fun _ =>
        .bind (keeps_setDirect hI _ _ _) fun _ => keeps_pure _

theorem keeps_replaceProperty (hI : Unnamed I) (o : ℕ) (name : Symbol) (old : AttrSafe)
    (offset : ℕ) (stored : StoredSlot) : (replaceProperty o name old offset stored).Keeps I :=
  .bind (.ite (.bind keeps_object fun _ => .bind (keeps_shapes? hI _) fun _ =>
    keeps_setStructure hI _ _) (keeps_pure _)) fun _ => keeps_setDirect hI _ _ _

theorem keeps_defineOwnNonIndexedPropertySlotMethod (hI : Unnamed I) (o : ℕ) (name : Symbol)
    (desc : PropertyDescriptor) (slot : Slot) (throwable : Bool) :
    (defineOwnNonIndexedPropertySlotMethod o name desc slot throwable).Keeps I := by
  refine .bind (keeps_getOwnPropertySlot hI o name slot) fun r => .ite ?_ ?_
  · refine .bind (keeps_isDefinedPropertyAccepted _ desc throwable) fun _ => .ite ?_ (keeps_pure _)
    cases r.2.offset with
    | none =>
      exact .bind (keeps_merge hI _ desc) fun stored =>
        .bind (keeps_addProperty hI o name stored) fun _ => keeps_pure _
    | some offset =>
      exact .bind (keeps_merge hI _ desc) fun stored =>
        .bind (keeps_replaceProperty hI o name _ offset stored) fun _ => keeps_pure _
  · exact .bind keeps_object fun _ => .ite (keeps_reject _ _ _) <|
      .bind (keeps_storedSlotNew hI desc) fun stored =>
        .bind (keeps_addProperty hI o name stored) fun _ => keeps_pure _

theorem keeps_removeProperty (hI : Unnamed I) (o : ℕ) (name : Symbol) (offset : ℕ) :
    (removeProperty o name offset).Keeps I :=
  .bind keeps_object fun _ => .bind (keeps_shapes? hI _) fun _ =>
    .bind (keeps_setStructure hI _ _) fun _ => keeps_setDirect hI _ _ _

theorem keeps_canPut (o : ℕ) (found : Bool) (slot : Slot) : (canPut o found slot).Keeps I :=
  .ite (.ite (.bind (keeps_accessor _) fun c => .bind (keeps_accessorCell c) fun _ => keeps_pure _)
    (keeps_pure _)) (.bind keeps_object fun _ => keeps_pure _)

theorem keeps_deleteNonIndexed (hI : Unnamed I) (o : ℕ) (name : Symbol) (throwable : Bool) :
    (deleteNonIndexed o name throwable).Keeps I := by
  refine .bind keeps_object fun _ => .ite (keeps_reject _ _ _) <|
    .bind (keeps_getOwnPropertySlot hI o name _) fun r => .ite (keeps_pure _) <|
      .ite (keeps_reject _ _ _) <| .bind ?_ fun offset => ?_
  · unfold deletionOffset
    cases r.2.offset with
    | none => exact .bind (keeps_structureGet hI o name) fun _ => keeps_pure _
    | some offset => exact keeps_pure _
  · cases offset with
    | none => exact keeps_pure _
    | some offset => exact .bind (keeps_removeProperty hI o name offset) fun _ => keeps_pure _

/-! ### Reading and assigning in general -/

theorem keeps_isCallable (v : JsValue) : (Vm.isCallable v).Keeps I := keeps_gets _

theorem keeps_expectOk {x : Vm α} (hx : x.Keeps I) : (Vm.expectOk x).Keeps I := by
  intro w h
  have hw := hx w h
  unfold Vm.expectOk
  cases hr : x w with
  | ok a w' | error e w' => rw [hr] at hw; exact hw
  | stuck => trivial
  | diverge => trivial

theorem keeps_toDescriptor (s : StoredSlot) : s.toDescriptor.Keeps I :=
  .ite (keeps_pure _) <| .bind (keeps_accessor s) fun c => .bind (keeps_accessorCell c) fun _ =>
    keeps_pure _

theorem keeps_storedSlotGet (s : StoredSlot) (this : JsValue) : (s.get this).Keeps I :=
  .ite (.bind (keeps_accessor s) fun c => .bind (keeps_accessorCell c) fun _ =>
    .bind (keeps_isCallable _) fun _ => .ite (keeps_fail _) (keeps_pure _)) (keeps_pure _)

theorem keeps_getNonIndexedPropertySlotFrom (hI : Unnamed I) (fuel o : ℕ) (name : Symbol)
    (slot : Slot) : (getNonIndexedPropertySlotFrom fuel o name slot).Keeps I := by
  induction fuel generalizing o slot with
  | zero => exact keeps_diverge
  | succ fuel ih =>
    refine .bind (keeps_getOwnNonIndexedPropertySlot hI o name slot) fun r => .ite (keeps_pure _) <|
      .bind keeps_object fun _ => .bind (keeps_gets _) fun proto => ?_
    cases proto with
    | none => exact keeps_pure _
    | some proto => exact ih _ _

theorem keeps_getIndexedPropertySlotFrom (hI : Unnamed I) (fuel o index : ℕ) (slot : Slot) :
    (getIndexedPropertySlotFrom fuel o index slot).Keeps I := by
  induction fuel generalizing o slot with
  | zero => exact keeps_diverge
  | succ fuel ih =>
    refine .bind (keeps_getOwnIndexedPropertySlot hI o index slot) fun r => .ite (keeps_pure _) <|
      .bind keeps_object fun _ => .bind (keeps_gets _) fun proto => ?_
    cases proto with
    | none => exact keeps_pure _
    | some proto => exact ih _ _

theorem keeps_getIndexedPropertySlot (hI : Unnamed I) (o index : ℕ) (slot : Slot) :
    (getIndexedPropertySlot o index slot).Keeps I :=
  .bind (keeps_gets _) fun _ => keeps_getIndexedPropertySlotFrom hI _ _ _ _

theorem keeps_getPropertySlot (hI : Unnamed I) (o : ℕ) (name : Symbol) (slot : Slot) :
    (getPropertySlot o name slot).Keeps I := by
  have h : ∀ name, (getNonIndexedPropertySlot o name slot).Keeps I := fun name =>
    .bind (keeps_gets _) fun _ => keeps_getNonIndexedPropertySlotFrom hI _ _ _ _
  cases name with
  | index i => exact keeps_getIndexedPropertySlot hI o i slot
  | key text => exact h _
  | priv id => exact h _

theorem keeps_getSlot (hI : Unnamed I) (o : ℕ) (name : Symbol) (strict : ℕ → Bool)
    (slot : Slot) : (getSlot o name strict slot).Keeps I := by
  refine .bind (keeps_getPropertySlot hI o name slot) fun r =>
    .bind (.ite (keeps_storedSlotGet _ _) (keeps_pure _)) fun v => .bind keeps_object fun obj => ?_
  cases obj.class_ with
  | function =>
    refine .bind (keeps_isCallable _) fun c => .ite ?_ (keeps_pure _)
    cases v with
    | object f => exact .ite (keeps_throwTypeError _) (keeps_pure _)
    | _ => exact keeps_pure _
  | _ => exact keeps_pure _

theorem keeps_getOwnProperty (hI : Unnamed I) (o : ℕ) (name : Symbol) :
    (getOwnProperty o name).Keeps I :=
  .bind (keeps_getOwnPropertySlot hI o name _) fun _ =>
    .ite (.bind (keeps_toDescriptor _) fun _ => keeps_pure _) (keeps_pure _)

theorem keeps_getOwnPropertyNames (hI : Unnamed I) (o : ℕ) (all : Bool) :
    (getOwnPropertyNames o all).Keeps I :=
  .bind keeps_object fun _ => .bind (keeps_gets _) fun _ => .bind (keeps_shapes hI _) fun _ =>
    .bind (keeps_gets _) fun _ => keeps_pure _

theorem keeps_transition (hI : Unnamed I) (o : ℕ) (f : Shapes → ℕ → ℕ × Shapes) :
    (transition o f).Keeps I :=
  .bind keeps_object fun _ => .bind (keeps_shapes hI _) fun _ => keeps_setStructure hI _ _

theorem keeps_makeIndexed (hI : Unnamed I) (o : ℕ) : (makeIndexed o).Keeps I :=
  .bind keeps_object fun _ => .bind (keeps_gets _) fun _ =>
    .ite (keeps_pure _) (keeps_transition hI o _)

theorem keeps_putFrom {o : ℕ} {val : JsValue} {throwable found : Bool} {slot : Slot}
    {callee : JsValue → JsValue} {define : PropertyDescriptor → Slot → Vm (Bool × Slot)}
    (hd : ∀ desc slot, (define desc slot).Keeps I) :
    (putFrom o val throwable found slot callee define).Keeps I :=
  .bind (keeps_canPut o found slot) fun _ => .ite (keeps_reject _ _ _) <|
    .ite (.bind (hd _ _) fun _ => keeps_pure _) <|
      .ite (.bind (keeps_accessor _) fun c => .bind (keeps_accessorCell c) fun _ => keeps_fail _)
        (.bind (hd _ _) fun _ => keeps_pure _)

theorem keeps_hasIndexedPropertyFrom (fuel o : ℕ) : (hasIndexedPropertyFrom fuel o).Keeps I := by
  induction fuel generalizing o with
  | zero => exact keeps_diverge
  | succ fuel ih =>
    refine .bind keeps_object fun _ => .bind (keeps_gets _) fun s => .ite (keeps_pure _) ?_
    cases s.prototype with
    | none => exact keeps_pure _
    | some proto => exact ih _

theorem keeps_canPutDense (o index : ℕ) : (canPutDense o index).Keeps I := by
  refine .bind keeps_object fun _ => .bind (keeps_gets _) fun proto => .ite ?_ (keeps_pure _)
  cases proto with
  | none => exact keeps_pure _
  | some proto => exact .bind (keeps_gets _) fun _ => keeps_hasIndexedPropertyFrom _ _

end Starlight
