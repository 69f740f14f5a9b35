import Starlight.Vm.OwnNames

/-!
# Assigning elements

`put_indexed_slot` writes to the dense vector right away when it may. `putIndexedGeneral` is what it does
otherwise: it asks `can_put_indexed` and defines the property. The two come to the same, whatever the
storage of the elements, just when the element may be created or is there and the value keeps its sign.
-/

namespace Starlight

open JsObject World Exec IndexedElements

variable {w w' : World} {o p index : ℕ} {val : JsValue} {ix : IndexedElements}

def putIndexedGeneral (o index : ℕ) (val : JsValue) (throwable : Bool) : Vm Unit := do
  let (found, slot) ← getIndexedPropertySlot o index Slot.new
  let _ ← putFrom o val throwable found slot id fun desc slot =>
    defineOwnIndexedPropertySlot o index desc slot throwable

theorem state_of_keeps {α : Type} {x : Vm α} {a : α} (hx : ∀ I : World → Prop, x.Keeps I)
    (h : x w = .ok a w') : w' = w := by
  have := hx (fun w' => w' = w) w rfl
  rwa [h] at this

/-! ### The same heap -/

/-- The same property, up to the encoding of its value. -/
def SameStored (s s' : StoredSlot) : Prop :=
  s.attributes = s'.attributes ∧ s.value.denote = s'.value.denote

structure SameElements (ix ix' : IndexedElements) : Prop where
  length : ix.length = ix'.length
  writable : ix.writable = ix'.writable
  stored : ∀ i, Option.Rel SameStored (ix.stored i) (ix'.stored i)

def World.withoutElements (w : World) : World :=
  { w with objects := fun b => { w.objects b with indexed := .new } }

/-- The same heap, whatever stores the elements. -/
structure SameContents (w w' : World) : Prop where
  elements : ∀ b, SameElements (w.objects b).indexed (w'.objects b).indexed
  rest : w.withoutElements = w'.withoutElements

def SameEnd : Result Fault World Unit → Result Fault World Unit → Prop
  | .ok _ w, .ok _ w' => SameContents w w'
  | .error e w, .error e' w' => e = e' ∧ SameContents w w'
  | .stuck, .stuck => True
  | .diverge, .diverge => True
  | _, _ => False

theorem SameStored.refl (s : StoredSlot) : SameStored s s := ⟨rfl, rfl⟩

theorem rel_refl (s : Option StoredSlot) : Option.Rel SameStored s s := by
  cases s with
  | none => exact .none
  | some s => exact .some (.refl s)

theorem SameContents.refl (w : World) : SameContents w w :=
  ⟨fun _ => ⟨rfl, rfl, fun _ => rel_refl _⟩, rfl⟩

theorem SameEnd.refl (r : Result Fault World Unit) : SameEnd r r := by
  cases r with
  | ok _ w => exact SameContents.refl w
  | error e w => exact ⟨rfl, SameContents.refl w⟩
  | stuck => trivial
  | diverge => trivial

theorem SameEnd.of_ok {r : Result Fault World Unit} {u : Unit} (h : SameEnd (.ok u w) r) :
    ∃ w', r = .ok () w' ∧ SameContents w w' := by
  cases r with
  | ok u' w' => exact ⟨w', rfl, h⟩
  | error e w' | stuck | diverge => exact h.elim

@[simp] theorem withoutElements_withElements (w : World) (o : ℕ) (ix : IndexedElements) :
    (w.withElements o ix).withoutElements = w.withoutElements := by
  have hobj : ∀ b, { (w.withElements o ix).objects b with indexed := .new } =
      { w.objects b with indexed := .new } := fun b => by
    by_cases hb : b = o
    · subst hb
      simp [withElements]
    · simp [withElements, hb]
  exact congrArg (fun f => { w with objects := f }) (funext hobj)

theorem sameContents_withElements_iff {ix ix' : IndexedElements} :
    SameContents (w.withElements o ix) (w.withElements o ix') ↔ SameElements ix ix' := by
  constructor
  · intro h
    simpa only [indexed_withElements_self] using h.elements o
  · intro h
    refine ⟨fun b => ?_, by simp only [withoutElements_withElements]⟩
    by_cases hb : b = o
    · subst hb
      simpa only [indexed_withElements_self] using h
    · simp only [withElements, Function.update_of_ne hb]
      exact ⟨rfl, rfl, fun _ => rel_refl _⟩

/-! ### The lookup along the chain -/

/-- An element that object `o` does not have may be created: the first one on the chain of prototypes
is writable data, or there is none and the object takes new properties. -/
def MayCreate (w : World) (o index : ℕ) : ℕ → ℕ → Prop
  | 0, _ => False
  | fuel + 1, p => ¬ (w.objects p).InText index ∧
    match (w.objects p).indexed.stored index with
    | some s => s.attributes.accessor = false ∧ s.attributes.writable = true
    | none => match (w.shapes.structures (w.objects p).structure_).prototype with
      | some q => MayCreate w o index fuel q
      | none => (w.objects o).extensible = true

theorem getIndexedPropertySlot_of_stored (htext : ¬ (w.objects o).InText index) {s : StoredSlot}
    (hs : (w.objects o).indexed.stored index = some s) :
    getIndexedPropertySlot o index Slot.new w =
      .ok (true, Slot.new.set1 s.value s.attributes (some o)) w := by
  have hown := getOwnIndexedPropertySlot_of_not_inText htext Slot.new
  rw [getOwnIndexedPropertySlotMethod_eq, hs] at hown
  unfold getIndexedPropertySlot
  rw [gets_bind, getIndexedPropertySlotFrom, bind_of_ok hown]
  rfl

theorem canPut_found {slot : Slot} {b : Bool} (ha : slot.attributes.accessor = false)
    (hw : slot.attributes.writable = b) : canPut o true slot w = .ok b w := by
  unfold canPut
  rw [if_pos rfl, if_neg (by rw [ha]; exact Bool.false_ne_true), hw]
  rfl

/-- What a lookup finds on the way up from an object without the element: a place where the assignment may
create it. -/
structure Creates (w : World) (o : ℕ) (found : Bool) (slot : Slot) : Prop where
  canPut : canPut o found slot w = .ok true w
  base : slot.base ≠ some o
  data : slot.attributes.accessor = false

theorem creates_of_mayCreate (hown : (w.objects o).indexed.stored index = none) {fuel p : ℕ}
    (h : MayCreate w o index fuel p) : ∃ found slot,
      getIndexedPropertySlotFrom fuel p index Slot.new w = .ok (found, slot) w ∧
        Creates w o found slot := by
  induction fuel generalizing p with
  | zero => exact h.elim
  | succ fuel ih =>
    obtain ⟨htext, h⟩ := h
    unfold getIndexedPropertySlotFrom
    have hrun := getOwnIndexedPropertySlot_of_not_inText htext Slot.new
    rw [getOwnIndexedPropertySlotMethod_eq] at hrun
    cases hs : (w.objects p).indexed.stored index with
    | some s =>
      rw [hs] at h hrun
      rw [bind_of_ok hrun]
      refine ⟨true, _, rfl, canPut_found h.1 h.2, fun hbase => ?_, h.1⟩
      · cases hbase
        rw [hown] at hs
        cases hs
    | none =>
      rw [hs] at h hrun
      rw [bind_of_ok hrun]
      dsimp only at h ⊢
      rw [if_neg Bool.false_ne_true, Vm.object_bind, gets_bind]
      cases hp : (w.shapes.structures (w.objects p).structure_).prototype with
      | some q =>
        rw [hp] at h
        exact ih h
      | none =>
        rw [hp] at h
        exact ⟨false, _, rfl, congrArg (fun b => Result.ok b w) h, nofun, rfl⟩

/-- What a lookup finds otherwise: an accessor, or a place that `can_put_indexed` refuses. -/
structure Refuses (w : World) (o : ℕ) (found : Bool) (slot : Slot) (w' : World) : Prop where
  objects : w'.objects = w.objects
  base : slot.base ≠ some o
  canPut : slot.attributes.accessor = true ∨ canPut o found slot w' = .ok false w'

theorem refuses_of_not_mayCreate
    (hown : (w.objects o).InText index ∨ (w.objects o).indexed.stored index = none) {fuel p : ℕ}
    (h : ¬ MayCreate w o index fuel p) {found : Bool} {slot : Slot}
    (hrun : getIndexedPropertySlotFrom fuel p index Slot.new w = .ok (found, slot) w') :
    Refuses w o found slot w' := by
  induction fuel generalizing p with
  | zero => cases hrun
  | succ fuel ih =>
    unfold getIndexedPropertySlotFrom at hrun
    by_cases htext : (w.objects p).InText index
    · -- a character of a text cannot be written
      obtain ⟨text, hc, hlt⟩ := htext
      obtain ⟨⟨found₁, slot₁⟩, w₁, hlook, hrun⟩ := bind_eq_ok hrun
      unfold getOwnIndexedPropertySlot at hlook
      rw [Vm.object_bind, hc] at hlook
      dsimp only at hlook
      rw [if_pos hlt] at hlook
      cases hch : text.toList[index]? with
      | none =>
        rw [hch] at hlook
        cases hlook
      | some ch =>
        rw [hch] at hlook
        cases hlook
        cases hrun
        exact ⟨rfl, nofun, .inr rfl⟩
    · have hlook := getOwnIndexedPropertySlot_of_not_inText htext Slot.new
      rw [getOwnIndexedPropertySlotMethod_eq] at hlook
      unfold MayCreate at h
      cases hs : (w.objects p).indexed.stored index with
      | some s =>
        rw [hs] at h hlook
        rw [bind_of_ok hlook] at hrun
        cases hrun
        refine ⟨rfl, fun hbase => ?_, ?_⟩
        · cases hbase
          rw [hown.resolve_left htext] at hs
          cases hs
        · cases ha : s.attributes.accessor with
          | true => exact .inl ha
          | false =>
            have hw : s.attributes.writable = false := by
              cases hw : s.attributes.writable with
              | false => rfl
              | true => exact absurd ⟨htext, ha, hw⟩ h
            exact .inr (canPut_found ha hw)
      | none =>
        rw [hs] at h hlook
        rw [bind_of_ok hlook] at hrun
        dsimp only at h hrun
        rw [if_neg Bool.false_ne_true, Vm.object_bind, gets_bind] at hrun
        cases hp : (w.shapes.structures (w.objects p).structure_).prototype with
        | some q =>
          rw [hp] at h hrun
          exact ih (fun hc => h ⟨htext, hc⟩) hrun
        | none =>
          rw [hp] at h hrun
          cases hrun
          have he : (w.objects o).extensible = false := by
            cases he : (w.objects o).extensible with
            | false => rfl
            | true => exact absurd ⟨htext, he⟩ h
          exact ⟨rfl, nofun, .inr (congrArg (fun b => Result.ok b w) he)⟩

/-! ### The two paths -/

/-- An index that the vector answers for. -/
structure DenseAt (w : World) (o index : ℕ) : Prop where
  sound : (w.objects o).indexed.Sound
  dense : (w.objects o).indexed.dense = true
  small : index < maxVectorSize

theorem denseAt_of_canPutDense (h : w.SoundElements) (hcan : canPutDense o index w = .ok true w') :
    DenseAt w o index ∧ ¬ (w.objects o).InText index := by
  obtain ⟨-, hdense⟩ := canPutDense_dense hcan
  obtain ⟨hd, hi⟩ := hdense rfl
  refine ⟨⟨h o, hd, hi⟩, ?_⟩
  rintro ⟨text, hc, -⟩
  unfold canPutDense at hcan
  rw [Vm.object_bind, gets_bind, hc, if_neg (by simp [overridesIndexed])] at hcan
  cases hcan

theorem DenseAt.attributes (h : DenseAt w o index) {s : StoredSlot}
    (hs : (w.objects o).indexed.stored index = some s) : s.attributes = objectData ∧
      s = ⟨(w.objects o).indexed.vector.getD index .empty, objectData⟩ ∧
        (w.objects o).indexed.vector.getD index .empty ≠ .empty := by
  rw [h.sound.stored_vector h.dense h.small] at hs
  split at hs
  · cases hs
  · next hne =>
    cases hs
    exact ⟨rfl, rfl, fun hc => hne (isEmpty_iff.mpr hc)⟩

theorem put_of_canPutDense (hcan : canPutDense o index w = .ok true w) (val : JsValue)
    (throwable : Bool) : put o (.index index) val throwable w =
      defineOwnIndexeValueDenseInternal o index val false w := by
  change ((canPutDense o index >>= fun b => _) >>= fun _ => pure ()) w = _
  rw [bind_apply, bind_of_ok hcan, if_pos rfl, bind_apply]
  cases defineOwnIndexeValueDenseInternal o index val false w <;> rfl

theorem defineOwnIndexedSparse_assign {ix : IndexedElements} (hix : (w.objects o).indexed = ix)
    {m : Finmap fun _ : ℕ => StoredSlot} (hm : ix.map = some m) {s : StoredSlot}
    (hs : m.lookup index = some s) (ha : s.attributes = objectData) (val : JsValue)
    (throwable : Bool) : ∃ nonGc, defineOwnIndexedSparse o index (assignDesc val) throwable w =
      .ok true (w.withElements o (if JsValue.sameValue val s.value = true then ix
        else ix.storeSparse index ⟨val, objectData⟩ nonGc)) := by
  have hsame : modifyIndexed o (fun ix => { ix with map := some (ix.map.getD ∅) }) w = .ok () w := by
    have heq : { (w.objects o).indexed with map := some ((w.objects o).indexed.map.getD ∅) } =
        (w.objects o).indexed := by
      rw [hix, hm, Option.getD_some, ← hm]
    rw [modifyIndexed_apply, heq, withElements_self]
  have haccept := isDefinedPropertyAccepted_assignDesc (s := s) (by rw [ha]; rfl) (by rw [ha]; rfl)
    (by rw [ha]; rfl) val throwable w
  have hmerge : s.merge (assignDesc val) w = .ok ⟨val, objectData⟩ w := by
    rw [merge_assignDesc (by rw [ha]; rfl) (by rw [ha]; rfl), ha]
  unfold defineOwnIndexedSparse
  rw [bind_of_ok hsame, Vm.object_bind]
  dsimp only
  rw [hix, hm, Option.getD_some, hs]
  dsimp only
  rw [bind_of_ok haccept]
  cases hv : JsValue.sameValue val s.value with
  | true =>
    refine ⟨true, ?_⟩
    rw [if_pos rfl, ← hix, withElements_self]
    rfl
  | false =>
    refine ⟨ix.nonGc && !val.isObject, ?_⟩
    dsimp only
    rw [Bool.not_false, if_pos rfl, bind_of_ok hmerge, if_neg Bool.false_ne_true, ← hix]
    rfl

theorem defineOwnIndexedSparse_create (hi : (w.objects o).indexed.sparse index = none)
    (hext : (w.objects o).extensible = true) (val : JsValue) (throwable : Bool) : ∃ σ s nonGc,
      makeIndexed o w = .ok () (w.moved o σ s) ∧
      defineOwnIndexedSparse o index (createDesc val) throwable w =
        .ok true ((w.moved o σ s).withElements o (IndexedElements.storeSparse
          { (w.objects o).indexed with
            map := some ((w.objects o).indexed.map.getD ∅)
            length := max (w.objects o).indexed.length (index + 1) } index ⟨val, objectData⟩ nonGc)) := by
  obtain ⟨σ, s, hmake, hmove⟩ := makeIndexed_withElements o w
  have hobj : ∀ ix, (w.withElements o ix).objects o = { w.objects o with indexed := ix } := fun ix =>
    Function.update_self ..
  generalize hix : (w.objects o).indexed = ix at hi ⊢
  have hlook : (({ ix with map := some (ix.map.getD ∅) } : IndexedElements).map.getD ∅).lookup index =
      none := (congrFun (sparse_getD_map ix) index).trans hi
  have hraise : ∀ ix : IndexedElements, (if ix.length ≤ index then ix.setLength (index + 1) else ix) =
      { ix with length := max ix.length (index + 1) } := fun ix => by
    split
    · next h => rw [max_eq_right (by omega)]; rfl
    · next h => rw [max_eq_left (by omega)]
  have hnew : ∀ w : World, StoredSlot.new (createDesc val) w = .ok ⟨val, objectData⟩ w := fun _ => rfl
  refine ⟨σ, s, ix.nonGc && !val.isObject, hmake, ?_⟩
  unfold defineOwnIndexedSparse
  rw [bind_of_ok (modifyIndexed_apply _ _ _), hix, Vm.object_bind, hobj]
  dsimp only
  rw [hlook]
  dsimp only
  rw [hext, Bool.not_true, if_neg Bool.false_ne_true, bind_of_ok (hmove _),
    bind_of_ok (modifyIndexed_apply _ _ _), indexed_withElements_self, withElements_withElements, hraise,
    bind_of_ok (hnew _), bind_of_ok (setSparse_eq _ _ _ _ _), indexed_withElements_self,
    withElements_withElements]
  rfl

theorem defineOwnIndexedPropertySlot_absent (htext : ¬ (w.objects o).InText index)
    (hs : (w.objects o).indexed.stored index = none) {slot : Slot} (hbase : slot.base ≠ some o)
    (desc : PropertyDescriptor) (throwable : Bool) :
    defineOwnIndexedPropertySlot o index desc slot throwable w =
      (defineOwnIndexedPropertyInternal o index desc throwable >>= fun b => pure (b, slot)) w := by
  unfold defineOwnIndexedPropertySlot
  rw [Vm.object_bind]
  cases hc : overridesIndexed (w.objects o).class_ with
  | false => rfl
  | true =>
    have hown := getOwnIndexedPropertySlot_of_not_inText htext slot
    rw [getOwnIndexedPropertySlotMethod_eq, hs] at hown
    rw [if_pos rfl, bind_of_ok hown]
    dsimp only
    rw [if_neg (by simp [hbase])]

theorem defineOwnIndexedPropertySlot_present (htext : ¬ (w.objects o).InText index) {s : StoredSlot}
    (hs : (w.objects o).indexed.stored index = some s) (ha : s.attributes = objectData)
    {slot : Slot} (hslot : slot = Slot.new.set1 s.value s.attributes (some o)) (val : JsValue)
    (throwable : Bool) :
    (defineOwnIndexedPropertySlot o index (assignDesc val) slot throwable w = .ok (true, slot) w ∧
      JsValue.sameValue val s.value = true) ∨
    defineOwnIndexedPropertySlot o index (assignDesc val) slot throwable w =
      (defineOwnIndexedPropertyInternal o index (assignDesc val) throwable >>=
        fun b => pure (b, slot)) w := by
  unfold defineOwnIndexedPropertySlot
  rw [Vm.object_bind]
  cases hc : overridesIndexed (w.objects o).class_ with
  | false => exact .inr rfl
  | true =>
    have hown : getOwnIndexedPropertySlot o index slot w = .ok (true, slot) w := by
      rw [getOwnIndexedPropertySlot_of_not_inText htext, getOwnIndexedPropertySlotMethod_eq, hs, hslot]
      rfl
    have haccept : slot.stored.isDefinedPropertyAccepted (assignDesc val) throwable w =
        .ok (!JsValue.sameValue val s.value, true) w := by
      rw [hslot]
      exact isDefinedPropertyAccepted_assignDesc (s := s) (by rw [ha]; rfl) (by rw [ha]; rfl)
        (by rw [ha]; rfl) val throwable w
    have hfound : (!slot.isNotFound && slot.base = some o) = true := by
      rw [hslot, Slot.isNotFound, Slot.attributes, Slot.set1, ha, decide_eq_true rfl]
      rfl
    rw [if_pos rfl, bind_of_ok hown]
    dsimp only
    rw [if_pos hfound, bind_of_ok haccept]
    cases hv : JsValue.sameValue val s.value with
    | true => exact .inl ⟨rfl, rfl⟩
    | false => exact .inr rfl

/-- What an assignment leaves of the elements when the element is there. -/
structure Overwritten (ix ix' : IndexedElements) (index : ℕ) (old val : JsValue) : Prop where
  length : ix'.length = ix.length
  writable : ix'.writable = ix.writable
  stored : ix'.stored = if JsValue.sameValue val old = true then ix.stored
    else Function.update ix.stored index (some ⟨val, objectData⟩)

theorem defineOwnIndexedPropertyInternal_assign (h : DenseAt w o index) {s : StoredSlot}
    (hs : (w.objects o).indexed.stored index = some s) (val : JsValue) (throwable : Bool) :
    ∃ ix, defineOwnIndexedPropertyInternal o index (assignDesc val) throwable w =
      .ok true (w.withElements o ix) ∧ Overwritten (w.objects o).indexed ix index s.value val := by
  obtain ⟨ha, hval, hne⟩ := h.attributes hs
  have hlt := h.sound.lt_of_stored hs
  set w₁ := w.withElements o (w.objects o).indexed.makeSparse with hw₁
  have hix : (w₁.objects o).indexed = (w.objects o).indexed.makeSparse := indexed_withElements_self ..
  obtain ⟨m, hm⟩ : ∃ m, (w.objects o).indexed.makeSparse.map = some m := ⟨_, rfl⟩
  have hentry : m.lookup index = some s := by
    have := sparse_makeSparse_eq (w.objects o).indexed index
    rw [sparse_eq_of_map hm, if_neg fun hc => hne (isEmpty_iff.mp hc), ← hval] at this
    exact this
  obtain ⟨nonGc, hsparse⟩ := defineOwnIndexedSparse_assign hix hm hentry ha val throwable
  have hint : defineOwnIndexedPropertyInternal o index (assignDesc val) throwable w =
      defineOwnIndexedSparse o index (assignDesc val) throwable w₁ := by
    have hdefault : (assignDesc val).attrs.isDefault = false := rfl
    have habsent : isAbsentDescriptor (assignDesc val) = false := rfl
    have honly : ((w.objects o).indexed.dense && !(assignDesc val).attrs.isDefault &&
        decide (index < maxVectorSize)) = true := by
      rw [h.dense, decide_eq_true h.small]
      rfl
    unfold defineOwnIndexedPropertyInternal
    rw [Vm.object_bind, if_neg (by simp [Nat.not_le.mpr hlt]), if_neg (by simp [hdefault]),
      if_neg (by simp [habsent]), honly]
    exact bind_of_ok (modifyIndexed_apply _ _ _) _
  refine ⟨_, hint.trans (hsparse.trans (by rw [hw₁, withElements_withElements])), ?_⟩
  have hmoved := h.sound.stored_makeSparse h.dense
  cases hsame : JsValue.sameValue val s.value with
  | true => exact ⟨rfl, rfl, hmoved.trans (by rw [hsame, if_pos rfl])⟩
  | false =>
    have hslow := h.sound.makeSparse.stored_storeSparse (s := ⟨val, objectData⟩)
      (fun hd => nomatch hd) (fun hc => nomatch hc) nonGc hlt
    exact ⟨rfl, rfl, hslow.trans (by rw [hsame, if_neg Bool.false_ne_true, hmoved])⟩

theorem putIndexedGeneral_of_assign (htext : ¬ (w.objects o).InText index) {s : StoredSlot}
    (hs : (w.objects o).indexed.stored index = some s) (ha : s.attributes = objectData)
    {throwable : Bool} (hint : ∃ ix, defineOwnIndexedPropertyInternal o index (assignDesc val) throwable w =
      .ok true (w.withElements o ix) ∧ Overwritten (w.objects o).indexed ix index s.value val) :
    ∃ ix, putIndexedGeneral o index val throwable w = .ok () (w.withElements o ix) ∧
      Overwritten (w.objects o).indexed ix index s.value val := by
  obtain ⟨slot, hslot⟩ : ∃ slot, slot = Slot.new.set1 s.value s.attributes (some o) := ⟨_, rfl⟩
  have hattr : slot.attributes = objectData := by rw [hslot]; exact ha
  have hlook : getIndexedPropertySlot o index Slot.new w = .ok (true, slot) w := by
    rw [hslot, getIndexedPropertySlot_of_stored htext hs]
  have hcan : canPut o true slot w = .ok true w :=
    canPut_found (by rw [hattr]; rfl) (by rw [hattr]; rfl)
  have hown : (!slot.isNotFound && slot.base = some o && slot.attributes.data) = true := by
    have hbase : slot.base = some o := by rw [hslot]; rfl
    rw [Slot.isNotFound, hattr, hbase, decide_eq_true rfl]
    rfl
  obtain ⟨ix, hdef, hix⟩ : ∃ ix, defineOwnIndexedPropertySlot o index (assignDesc val) slot throwable w =
      .ok (true, slot) (w.withElements o ix) ∧
        Overwritten (w.objects o).indexed ix index s.value val := by
    rcases defineOwnIndexedPropertySlot_present htext hs ha hslot val throwable with ⟨hdef, hv⟩ | hdef
    · refine ⟨_, hdef.trans (by rw [withElements_self]), rfl, rfl, ?_⟩
      rw [hv, if_pos rfl]
    · obtain ⟨ix, hint, hix⟩ := hint
      exact ⟨ix, hdef.trans (bind_of_ok hint _), hix⟩
  have hput : putFrom o val throwable true slot id (fun desc slot =>
      defineOwnIndexedPropertySlot o index desc slot throwable) w = .ok slot (w.withElements o ix) := by
    unfold putFrom
    rw [bind_of_ok hcan, if_neg (by simp), if_pos hown]
    exact bind_of_ok hdef _
  refine ⟨ix, ?_, hix⟩
  unfold putIndexedGeneral
  rw [bind_of_ok hlook]
  exact bind_of_ok hput _

theorem putIndexedGeneral_present (h : DenseAt w o index) (htext : ¬ (w.objects o).InText index)
    {s : StoredSlot} (hs : (w.objects o).indexed.stored index = some s) (val : JsValue)
    (throwable : Bool) : ∃ ix, putIndexedGeneral o index val throwable w =
      .ok () (w.withElements o ix) ∧ Overwritten (w.objects o).indexed ix index s.value val :=
  putIndexedGeneral_of_assign htext hs (h.attributes hs).1
    (defineOwnIndexedPropertyInternal_assign h hs val throwable)

theorem putIndexedGeneral_of_create (htext : ¬ (w.objects o).InText index)
    (hs : (w.objects o).indexed.stored index = none)
    (hmay : MayCreate w o index (w.nextObject + 1) o) {throwable b : Bool}
    (hint : defineOwnIndexedPropertyInternal o index (createDesc val) throwable w = .ok b w') :
    putIndexedGeneral o index val throwable w = .ok () w' := by
  obtain ⟨found, slot, hlook, hc⟩ := creates_of_mayCreate hs hmay
  have hlook : getIndexedPropertySlot o index Slot.new w = .ok (found, slot) w := hlook
  have hdef : defineOwnIndexedPropertySlot o index (createDesc val) slot throwable w =
      .ok (b, slot) w' := by
    rw [defineOwnIndexedPropertySlot_absent htext hs hc.base, bind_of_ok hint]
    rfl
  have hput : putFrom o val throwable found slot id (fun desc slot =>
      defineOwnIndexedPropertySlot o index desc slot throwable) w = .ok slot w' := by
    unfold putFrom
    rw [bind_of_ok hc.canPut, if_neg (by simp), if_neg (by simp [hc.base]), if_neg (by simp [hc.data])]
    exact bind_of_ok hdef _
  unfold putIndexedGeneral
  rw [bind_of_ok hlook]
  exact bind_of_ok hput _

theorem not_locked (hlen : index < ix.length ∨ ix.writable = true) :
    ¬ (decide (ix.length ≤ index) && !ix.writable) = true := by
  simp only [Bool.and_eq_true, decide_eq_true_eq, Bool.not_eq_true']
  rintro ⟨hle, hw⟩
  rcases hlen with hlt | hw'
  · omega
  · exact absurd (hw.symm.trans hw') Bool.false_ne_true

theorem defineOwnIndexedPropertyInternal_vector (h : DenseAt w o index)
    (hlen : index < (w.objects o).indexed.length ∨ (w.objects o).indexed.writable = true)
    (val : JsValue) (throwable : Bool)
    (hdense : defineOwnIndexeValueDenseInternal o index val false w = .ok () w') :
    defineOwnIndexedPropertyInternal o index (createDesc val) throwable w = .ok true w' := by
  have hdefault : (createDesc val).attrs.isDefault = true := rfl
  unfold defineOwnIndexedPropertyInternal
  rw [Vm.object_bind, if_neg (not_locked hlen), if_pos (by simp [h.dense, hdefault, h.small])]
  exact bind_of_ok hdense _

theorem putIndexedGeneral_created (h : DenseAt w o index) (htext : ¬ (w.objects o).InText index)
    (hs : (w.objects o).indexed.stored index = none)
    (hmay : MayCreate w o index (w.nextObject + 1) o)
    (hlen : index < (w.objects o).indexed.length ∨ (w.objects o).indexed.writable = true)
    (val : JsValue) (throwable : Bool) : putIndexedGeneral o index val throwable w =
      defineOwnIndexeValueDenseInternal o index val false w := by
  obtain ⟨σ, s, nonGc, -, hdense⟩ := defineOwnIndexeValueDenseInternal_eq o index val false w
  rw [hdense]
  exact putIndexedGeneral_of_create htext hs hmay
    (defineOwnIndexedPropertyInternal_vector h hlen val throwable hdense)

theorem putIndexedGeneral_refused
    (hs : (w.objects o).InText index ∨ (w.objects o).indexed.stored index = none)
    (hno : ¬ (MayCreate w o index (w.nextObject + 1) o ∧
      (index < (w.objects o).indexed.length ∨ (w.objects o).indexed.writable = true)))
    {throwable : Bool} (hrun : putIndexedGeneral o index val throwable w = .ok () w') :
    w'.objects = w.objects := by
  obtain ⟨⟨found, slot⟩, w₁, hlook, hrun⟩ := bind_eq_ok hrun
  obtain ⟨slot', w₂, hput, hret⟩ := bind_eq_ok hrun
  cases hret
  unfold putFrom at hput
  obtain ⟨b, w₃, hb, hput⟩ := bind_eq_ok hput
  obtain rfl := state_of_keeps (fun _ => keeps_canPut o found slot) hb
  by_cases hmay : MayCreate w o index (w.nextObject + 1) o
  · -- the length may not grow
    have htext : ¬ (w.objects o).InText index := hmay.1
    have hs := hs.resolve_left htext
    obtain ⟨found', slot'', hlook', hc⟩ := creates_of_mayCreate hs hmay
    cases hlook.symm.trans hlook'
    cases hb.symm.trans hc.canPut
    rw [if_neg (by simp), if_neg (by simp [hc.base]), if_neg (by simp [hc.data])] at hput
    obtain ⟨r, w₄, hdef, hret⟩ := bind_eq_ok hput
    cases hret
    obtain ⟨b, w₅, hint, hret⟩ :=
      bind_eq_ok ((defineOwnIndexedPropertySlot_absent htext hs hc.base _ throwable).symm.trans hdef)
    cases hret
    have hlen : (decide ((w.objects o).indexed.length ≤ index) &&
        !(w.objects o).indexed.writable) = true := by
      by_contra hc
      refine hno ⟨hmay, ?_⟩
      by_cases hlt : index < (w.objects o).indexed.length
      · exact .inl hlt
      · refine .inr (by_contra fun hw => hc ?_)
        simp [Nat.le_of_not_lt hlt, hw]
    unfold defineOwnIndexedPropertyInternal at hint
    rw [Vm.object_bind, if_pos hlen] at hint
    rw [state_of_keeps (fun _ => keeps_reject throwable _ _) hint]
  · obtain ⟨hobj, hbase, hcan⟩ := refuses_of_not_mayCreate hs hmay hlook
    cases b with
    | false =>
      rw [if_pos (by simp)] at hput
      rw [state_of_keeps (fun _ => keeps_reject throwable _ _) hput, hobj]
    | true =>
      -- only an accessor gets here, and its setter is called
      have ha : slot.attributes.accessor = true := by
        refine hcan.resolve_right fun hc => ?_
        cases hb.symm.trans hc
      have hfound : slot.isNotFound = false := by
        rw [Slot.isNotFound, AttrSafe.isNotFound, decide_eq_false_iff_not]
        rintro hc
        rw [hc] at ha
        cases ha
      rw [if_neg (by simp), if_neg (by simp [hbase]), if_pos (by simp [hfound, ha])] at hput
      obtain ⟨c, w₃, -, hput⟩ := bind_eq_ok hput
      obtain ⟨ac, w₄, -, hput⟩ := bind_eq_ok hput
      cases hput

/-! ### The shortcut fits -/

/-- The shortcut does what the general path would do: an element that is there is not overwritten by the
other zero, one that is not there may be created, and the length may grow if it has to. -/
def ShortcutFits (w : World) (o index : ℕ) (val : JsValue) : Prop :=
  match (w.objects o).indexed.stored index with
  | some s => ¬ (val.isZero = true ∧ s.value.isZero = true ∧ val.denote ≠ s.value.denote)
  | none => MayCreate w o index (w.nextObject + 1) o ∧
      (index < (w.objects o).indexed.length ∨ (w.objects o).indexed.writable = true)

theorem sameElements_overwritten_iff {ix ix' ix'' : IndexedElements} {s : StoredSlot}
    (hs : ix.stored index = some s) (ha : s.attributes = objectData)
    (hlen : ix'.length = ix.length) (hwr : ix'.writable = ix.writable)
    (hst : ix'.stored = Function.update ix.stored index (some ⟨val, objectData⟩))
    (hover : Overwritten ix ix'' index s.value val) :
    SameElements ix' ix'' ↔ (JsValue.sameValue val s.value = true → val.denote = s.value.denote) := by
  obtain ⟨hlen', hwr', hst'⟩ := hover
  cases hsame : JsValue.sameValue val s.value with
  | true =>
    rw [hsame, if_pos rfl] at hst'
    constructor
    · intro hc _
      have hrel := hc.stored index
      rw [hst, Function.update_self, hst', hs] at hrel
      cases hrel with
      | some hrel => exact hrel.2
    · intro hden
      refine ⟨hlen.trans hlen'.symm, hwr.trans hwr'.symm, fun i => ?_⟩
      rw [hst, hst']
      by_cases hi : i = index
      · subst hi
        rw [Function.update_self, hs]
        exact .some ⟨ha.symm, hden rfl⟩
      · rw [Function.update_of_ne hi]
        exact rel_refl _
  | false =>
    rw [hsame, if_neg Bool.false_ne_true] at hst'
    refine ⟨fun _ hc => (nomatch hc), fun _ => ⟨hlen.trans hlen'.symm, hwr.trans hwr'.symm, fun i => ?_⟩⟩
    rw [hst, hst']
    exact rel_refl _

theorem sameEnd_present (h : DenseAt w o index) (htext : ¬ (w.objects o).InText index)
    (hcan : canPutDense o index w = .ok true w) {s : StoredSlot}
    (hs : (w.objects o).indexed.stored index = some s) (hval : val ≠ .empty) (throwable : Bool) :
    SameEnd (put o (.index index) val throwable w) (putIndexedGeneral o index val throwable w) ↔
      (JsValue.sameValue val s.value = true → val.denote = s.value.denote) := by
  obtain ⟨ha, hv, hne⟩ := h.attributes hs
  have hlt : index < (w.objects o).indexed.vector.length := by
    by_contra hc
    exact hne (getD_of_le (Nat.le_of_not_lt hc))
  obtain ⟨nonGc, hput⟩ : ∃ nonGc, defineOwnIndexeValueDenseInternal o index val false w =
      .ok () (w.withElements o ((w.objects o).indexed.storeDense index val nonGc)) :=
    defineOwnIndexeValueDenseInternal_inside hlt val false
  obtain ⟨ix, hgeneral, hix⟩ := putIndexedGeneral_present h htext hs val throwable
  have hlen : ((w.objects o).indexed.storeDense index val nonGc).length =
      (w.objects o).indexed.length := max_eq_left (h.sound.lt_of_stored hs)
  rw [put_of_canPutDense hcan, hput, hgeneral]
  exact sameContents_withElements_iff.trans (sameElements_overwritten_iff hs ha hlen rfl
    (h.sound.stored_storeDense h.dense h.small hval nonGc) hix)

theorem sameEnd_absent (h : DenseAt w o index) (htext : ¬ (w.objects o).InText index)
    (hcan : canPutDense o index w = .ok true w) (hs : (w.objects o).indexed.stored index = none)
    (hval : val ≠ .empty) (throwable : Bool) :
    SameEnd (put o (.index index) val throwable w) (putIndexedGeneral o index val throwable w) ↔
      MayCreate w o index (w.nextObject + 1) o ∧
        (index < (w.objects o).indexed.length ∨ (w.objects o).indexed.writable = true) := by
  rw [put_of_canPutDense hcan]
  constructor
  · intro hend
    by_contra hno
    -- the shortcut stores the element, while the general path refuses
    obtain ⟨σ, s, nonGc, -, hdense⟩ := defineOwnIndexeValueDenseInternal_eq o index val false w
    rw [hdense] at hend
    obtain ⟨w', hgeneral, hsame⟩ := hend.of_ok
    have hobj := putIndexedGeneral_refused (.inr hs) hno hgeneral
    have hrel := (hsame.elements o).stored index
    have hfast := h.sound.stored_storeDense h.dense h.small hval nonGc
    rw [indexed_withElements_self, hobj, hs] at hrel
    rw [if_neg Bool.false_ne_true, hfast, Function.update_self] at hrel
    cases hrel
  · rintro ⟨hmay, hlen⟩
    rw [putIndexedGeneral_created h htext hs hmay hlen]
    exact .refl _

/-- An object whose prototype has a read-only element. -/
def inheritedElementWorld : World :=
  ((((World.init ⟨fun _ => [], fun _ => []⟩).after (.newStructure none false)).after
    (.newObject 0 .object)).after (.on 0 (.define (.index 0) (.dataDescriptor .null {}) true))).after
      (.newUniqueObject (some 0) false .object)

theorem reachable_inheritedElementWorld : Reachable (fun _ _ => True) inheritedElementWorld := by
  have h₀ : Reachable (fun _ _ => True) (World.init ⟨fun _ => [], fun _ => []⟩) := ⟨_, .refl⟩
  have h₁ := h₀.step (.newStructure none false) (fun _ hp => by cases hp) trivial rfl
  have h₂ := h₁.step (.newObject 0 .object) (show 0 < 1 by decide) trivial rfl
  have h₃ := h₂.step (.on 0 (.define (.index 0) (.dataDescriptor .null {}) true))
    (show 0 < 1 by decide) trivial rfl
  exact h₃.step (.newUniqueObject (some 0) false .object)
    (fun p hp => by cases hp; exact show 0 < 1 by decide) trivial rfl

end Starlight
