import Starlight.Vm.IndexedSpec

/-!
# Operations touch one object

Every operation on an object touches that object only: the invariant of the heap holds again, every
other object is as before, and the object keeps its properties that cannot be configured. The conditions are those of the definition of one property (`DefineOk`):
the values and descriptors satisfy `P`, and the property is not the `length` of a string object, which
the engine would add a second time.
-/

namespace Starlight

open JsObject World IndexedElements

variable {α : Type} {P : Policy} {proper : Prop} {w w' : World} {o : ℕ}

theorem guards_onlyIf (h : w.Inv P) {b : Bool} {x : Vm Unit}
    (hx : Guards P proper o w (x w) fun _ _ => True) :
    Guards P proper o w (Vm.onlyIf b x w) fun _ _ => True :=
  Guards.ite (fun _ => hx) fun _ => Guards.pure h trivial

/-! ### Indexed lookups -/

/-- What a lookup of an index returns: nothing, or a property that is never cached. -/
structure IndexedFound (slot : Slot) (found : Bool) (slot' : Slot) : Prop where
  absent : found = false → slot' = slot
  hasCell : found = true → HasCell slot'.stored
  typed : found = true → slot'.attributes.Typed
  put : slot'.putCacheable = slot.putCacheable
  uncached : slot.base = none → found = true → slot'.isCacheable = false

theorem IndexedFound.notFound (slot : Slot) : IndexedFound slot false slot :=
  ⟨fun _ => rfl, nofun, nofun, rfl, fun _ h => nomatch h⟩

theorem hasCell_of_data {s : StoredSlot} (h : s.attributes.accessor = false) : HasCell s := by
  intro ha
  rw [h] at ha
  cases ha

theorem reads_getOwnIndexedPropertySlotMethod (h : w.Inv P) (ho : o < w.nextObject) (index : ℕ)
    (slot : Slot) :
    Reads P w (getOwnIndexedPropertySlotMethod o index slot w)
      fun r => IndexedFound slot r.1 r.2 := by
  unfold getOwnIndexedPropertySlotMethod
  rw [Vm.object_bind]
  refine Reads.ite (fun _ => Reads.ite (fun _ => Reads.pure h (.notFound slot)) fun _ => ?_)
    fun _ => Reads.pure h ?_
  · exact Reads.pure h ⟨nofun, fun _ => hasCell_of_data rfl, fun _ => createData_typed _, rfl,
      fun _ _ => rfl⟩
  · split
    · next it hit =>
      have hs : sparseSlot (w.objects o) index = some it := by
        obtain ⟨m, hm, hit⟩ := Option.bind_eq_some_iff.mp hit
        split at hit
        · exact Option.bind_eq_some_iff.mpr ⟨m, hm, hit⟩
        · cases hit
      have hst : Storable P w o (.sparse index) it := h.storable ho hs
      exact ⟨nofun, fun _ => hst.hasCell, fun _ => hst.typed, rfl, fun _ _ => rfl⟩
    · exact .notFound slot

theorem reads_newString (h : w.Inv P) (text : String) :
    Reads P w (Vm.newString text w) fun _ => True :=
  ⟨⟨⟨h.shapes, h.sole, h.ok, h.proto_lt, h.cells⟩, rfl, rfl, rfl, rfl, rfl,
    fun r _ => Shapes.SameShape.refl _ r⟩, trivial⟩

theorem reads_getOwnIndexedPropertySlot (h : w.Inv P) (ho : o < w.nextObject) (index : ℕ)
    (slot : Slot) :
    Reads P w (getOwnIndexedPropertySlot o index slot w) fun r => IndexedFound slot r.1 r.2 := by
  have plain := reads_getOwnIndexedPropertySlotMethod h ho index slot
  unfold getOwnIndexedPropertySlot
  rw [Vm.object_bind]
  cases (w.objects o).class_ with
  | string value =>
    refine Reads.ite (fun _ => ?_) fun _ => plain
    cases value.toList[index]? with
    | none => exact Reads.fail h _ _
    | some ch =>
      refine Reads.bind (reads_newString h _) fun s w₁ hr _ => Reads.pure hr.inv ?_
      refine ⟨nofun, fun _ => hasCell_of_data rfl, fun _ => createData_typed _, rfl,
        fun hb _ => ?_⟩
      simp [Slot.isCacheable, Slot.set, hb]
  | _ => exact plain

theorem reads_getIndexedPropertySlotFrom (h : w.Inv P) (ho : o < w.nextObject) (index : ℕ)
    (slot : Slot) (fuel : ℕ) :
    Reads P w (getIndexedPropertySlotFrom fuel o index slot w)
      fun r => IndexedFound slot r.1 r.2 := by
  induction fuel generalizing w o slot with
  | zero => exact trivial
  | succ fuel ih =>
    refine Reads.bind (reads_getOwnIndexedPropertySlot h ho index slot) ?_
    rintro ⟨found, slot'⟩ w₁ hr hfound
    cases found with
    | true => exact Reads.pure hr.inv hfound
    | false =>
      obtain rfl : slot' = slot := hfound.absent rfl
      simp only [Bool.false_eq_true, if_false, Vm.object_bind, Exec.gets_bind]
      cases hp : (w₁.shapes.structures (w₁.objects o).structure_).prototype with
      | none => exact Reads.pure hr.inv (.notFound slot')
      | some p => exact ih hr.inv (hr.inv.prototype_lt (hr.nextObject ▸ ho) hp) _

theorem reads_getIndexedPropertySlot (h : w.Inv P) (ho : o < w.nextObject) (index : ℕ)
    (slot : Slot) :
    Reads P w (getIndexedPropertySlot o index slot w) fun r => IndexedFound slot r.1 r.2 :=
  reads_getIndexedPropertySlotFrom h ho index slot _

/-! ### Defining indexed properties -/

theorem guards_defineOwnIndexeValueDenseInternal (h : w.Inv P) (ho : o < w.nextObject) (index : ℕ)
    (val : JsValue) (absent : Bool) :
    Guards P proper o w (defineOwnIndexeValueDenseInternal o index val absent w) fun _ _ => True := by
  unfold defineOwnIndexeValueDenseInternal
  rw [Vm.object_bind]
  refine Guards.bind (guards_onlyIf h ?_) fun _ w₁ ht₁ _ =>
    guards_modifyIndexed_le ht₁.inv (ht₁.nextObject ▸ ho) fun ix => ?_
  · exact Guards.bind (guards_makeIndexed h ho) fun _ w₁ ht₁ _ =>
      guards_modifyIndexed_le ht₁.inv (ht₁.nextObject ▸ ho) fun ix => sparseLe_of_map_eq rfl
  · refine sparseLe_of_map_eq ?_
    dsimp only
    split <;> split <;> rfl

theorem guards_setSparse (h : w.Inv P) (ho : o < w.nextObject) (index : ℕ) {stored : StoredSlot}
    (hst : Storable P w o (.sparse index) stored) (nonGc : Bool) :
    Guards P proper o w (setSparse o index stored nonGc w) fun _ _ => True := by
  refine (guards_modifyIndexed h ho (.sparse index) fun i s hs => ?_).mono fun _ _ _ _ => trivial
  change ((((w.objects o).indexed.map.getD ∅).insert index stored).lookup i) = some s at hs
  rw [lookup_insert_eq] at hs
  split at hs
  · next hi =>
    cases hs
    subst hi
    exact .inr ⟨hst, fun _ => rfl⟩
  · refine .inl ?_
    unfold sparse
    cases hm : (w.objects o).indexed.map with
    | none => rw [hm] at hs; simp at hs
    | some m => rw [hm] at hs; exact hs

theorem guards_defineOwnIndexedSparse (h : w.Inv P) (ho : o < w.nextObject) (index : ℕ)
    (desc : PropertyDescriptor) (throwable : Bool) (hundef : P .undefined) :
    Guards P proper o w (defineOwnIndexedSparse o index desc throwable w) fun _ _ => True := by
  unfold defineOwnIndexedSparse
  refine Guards.bind (guards_modifyIndexed_le h ho fun ix i s hs => ?_) fun _ w₁ ht₁ _ => ?_
  · change ((ix.map.getD ∅).lookup i) = some s at hs
    unfold sparse
    cases hm : ix.map with
    | none => rw [hm] at hs; simp at hs
    | some m => rw [hm] at hs; exact hs
  have ho₁ : o < w₁.nextObject := ht₁.nextObject ▸ ho
  rw [Vm.object_bind]
  cases hx : ((w₁.objects o).indexed.map.getD ∅).lookup index with
  | some entry =>
    have hs : sparseSlot (w₁.objects o) index = some entry := by
      unfold sparseSlot
      cases hm : (w₁.objects o).indexed.map with
      | none => rw [hm] at hx; simp at hx
      | some m => rw [hm] at hx; exact hx
    have hst : Storable P w₁ o (.sparse index) entry := ht₁.inv.storable ho₁ hs
    refine Reads.bind_guards ht₁.inv
      (reads_isDefinedPropertyAccepted ht₁.inv hst.hasCell hst.typed desc throwable) ?_
    rintro ⟨accepted, returned⟩ w₂ hr₂ -
    have ho₂ : o < w₂.nextObject := hr₂.nextObject ▸ ho₁
    refine Guards.ite (fun _ => ?_) fun _ => Guards.pure hr₂.inv trivial
    have hst₂ : Storable P w₂ o (.sparse index) entry := by
      refine hr₂.inv.storable ho₂ ?_
      rw [slotAt, hr₂.objects]
      exact hs
    refine Guards.bind (guards_merge hr₂.inv ho₂ hst₂ (fun _ hn => by cases hn)
      fun _ hn => by cases hn)
      fun stored w₃ ht₃ hr₃ => ?_
    exact Guards.bind (guards_setSparse ht₃.inv (ht₃.nextObject ▸ ho₂) index hr₃.1 _)
      fun _ w₄ ht₄ _ => Guards.pure ht₄.inv trivial
  | none =>
    refine Guards.ite (fun _ => (Reads.reject ht₁.inv _ _ trivial).guards ht₁.inv) fun _ => ?_
    refine Guards.bind (guards_makeIndexed ht₁.inv ho₁) fun _ w₂ ht₂ _ => ?_
    have ho₂ : o < w₂.nextObject := ht₂.nextObject ▸ ho₁
    refine Guards.bind (guards_modifyIndexed_le ht₂.inv ho₂ fun ix => ?_) fun _ w₃ ht₃ _ => ?_
    · split
      · exact sparseLe_setLength ix _
      · exact SparseLe.refl ix
    have ho₃ : o < w₃.nextObject := ht₃.nextObject ▸ ho₂
    refine Guards.bind (guards_storedSlotNew ht₃.inv ho₃ (.sparse index) hundef
      fun _ hn => by cases hn) fun stored w₄ ht₄ hr₄ => ?_
    exact Guards.bind (guards_setSparse ht₄.inv (ht₄.nextObject ▸ ho₃) index hr₄.1 _)
      fun _ w₅ ht₅ _ => Guards.pure ht₅.inv trivial

theorem guards_defineOwnIndexedPropertyInternal (h : w.Inv P) (ho : o < w.nextObject) (index : ℕ)
    (desc : PropertyDescriptor) (throwable : Bool) (hundef : P .undefined) :
    Guards P proper o w (defineOwnIndexedPropertyInternal o index desc throwable w) fun _ _ => True := by
  unfold defineOwnIndexedPropertyInternal
  rw [Vm.object_bind]
  refine Guards.ite (fun _ => (Reads.reject h _ _ trivial).guards h) fun _ => ?_
  refine Guards.ite (fun _ => ?_) fun _ => Guards.ite (fun _ => ?_) fun _ => ?_
  · exact Guards.bind (guards_defineOwnIndexeValueDenseInternal h ho _ _ _)
      fun _ _ ht _ => Guards.pure ht.inv trivial
  · refine Guards.bind (guards_onlyIf h (guards_modifyIndexed_le h ho fun ix => ?_))
      fun _ _ ht _ => Guards.pure ht.inv trivial
    exact sparseLe_of_map_eq rfl
  · exact Guards.bind (guards_onlyIf h ((guards_makeSparse h ho).mono fun _ _ _ _ => trivial))
      fun _ _ ht _ =>
      guards_defineOwnIndexedSparse ht.inv (ht.nextObject ▸ ho) _ _ _ hundef

theorem guards_defineOwnIndexedPropertySlot (h : w.Inv P) (ho : o < w.nextObject) (index : ℕ)
    (desc : PropertyDescriptor) {slot : Slot} (throwable : Bool) (hundef : P .undefined)
    (hslot : slot.isNotFound = true ∨ (HasCell slot.stored ∧ slot.attributes.Typed)) :
    Guards P proper o w (defineOwnIndexedPropertySlot o index desc slot throwable w)
      fun r _ => r.2.putCacheable = slot.putCacheable := by
  have hint : ∀ {w : World} (slot' : Slot), w.Inv P → o < w.nextObject →
      slot'.putCacheable = slot.putCacheable →
      Guards P proper o w ((defineOwnIndexedPropertyInternal o index desc throwable >>= fun r =>
        (pure (r, slot') : Vm (Bool × Slot))) w) fun r _ => r.2.putCacheable = slot.putCacheable :=
    fun slot' h ho hp => Guards.bind
      (guards_defineOwnIndexedPropertyInternal h ho index desc throwable hundef)
      fun _ _ ht _ => Guards.pure ht.inv hp
  unfold defineOwnIndexedPropertySlot
  rw [Vm.object_bind]
  refine Guards.ite (fun _ => ?_) fun _ => hint slot h ho rfl
  refine Reads.bind_guards h (reads_getOwnIndexedPropertySlot h ho index slot) ?_
  rintro ⟨found, slot'⟩ w₁ hr hfound
  have ho₁ : o < w₁.nextObject := hr.nextObject ▸ ho
  refine Guards.ite (fun hc => ?_) fun _ => hint slot' hr.inv ho₁ hfound.put
  have hst : HasCell slot'.stored ∧ slot'.attributes.Typed := by
    cases found with
    | true => exact ⟨hfound.hasCell rfl, hfound.typed rfl⟩
    | false =>
      obtain rfl : slot' = slot := hfound.absent rfl
      refine hslot.resolve_left fun hn => ?_
      simp [hn] at hc
  refine Reads.bind_guards hr.inv
    (reads_isDefinedPropertyAccepted hr.inv hst.1 hst.2 desc throwable) ?_
  rintro ⟨accepted, returned⟩ w₂ hr₂ -
  exact Guards.ite (fun _ => Guards.pure hr₂.inv hfound.put)
    fun _ => hint slot' hr₂.inv (hr₂.nextObject ▸ ho₁) hfound.put

/-! ### Defining any property -/

/-- What a definition of `name` asks of its descriptor. The length of a string object must not be
defined at all; elements and the length of an array take any descriptor. -/
def DefineOk (P : Policy) (w : World) (o : ℕ) (name : Symbol)
    (desc : PropertyDescriptor) : Prop :=
  (∃ i, name = .index i) ∨ ((w.objects o).class_ = .array ∧ name = Symbol.length) ∨
    (¬ (overridesLength (w.objects o).class_ ∧ name = Symbol.length) ∧ Definable P w o name desc)

/-- A slot that may be passed to a definition of `name`: it does not claim that the object has the
property when it has not. -/
structure SlotOk (w : World) (o : ℕ) (name : Symbol) (slot : Slot) : Prop where
  put : slot.putCacheable = false
  stored : slot.isNotFound = true ∨ (HasCell slot.stored ∧ slot.attributes.Typed)
  named : (∃ i, name = .index i) ∨ slot.isNotFound = true ∨ slot.base ≠ some o ∨
    name ∈ w.table o ∨ (overridesLength (w.objects o).class_ ∧ name = Symbol.length)

theorem slotOk_new (w : World) (o : ℕ) (name : Symbol) : SlotOk w o name Slot.new :=
  ⟨rfl, .inl rfl, .inr (.inl rfl)⟩

theorem guards_defineOwnNonIndexedPropertySlot (h : w.Inv P) (ho : o < w.nextObject)
    {name : Symbol} (hname : ∀ i, name ≠ .index i) {desc : PropertyDescriptor} {slot : Slot}
    (throwable : Bool) (hundef : P .undefined) (hd : DefineOk P w o name desc)
    (hslot : SlotOk w o name slot) (hproper : proper → desc.Proper) :
    Guards P proper o w (defineOwnNonIndexedPropertySlot o name desc slot throwable w)
      fun r w' => DefinedBy w w' o name desc r.2 := by
  have hd : ((w.objects o).class_ = .array ∧ name = Symbol.length) ∨
      (¬ (overridesLength (w.objects o).class_ ∧ name = Symbol.length) ∧
        Definable P w o name desc) := hd.resolve_left fun ⟨i, hi⟩ => hname i hi
  have hmem := hslot.named.resolve_left fun ⟨i, hi⟩ => hname i hi
  have hmem : ¬ (overridesLength (w.objects o).class_ ∧ name = Symbol.length) →
      slot.isNotFound = true ∨ slot.base ≠ some o ∨ name ∈ w.table o := by
    intro hlen
    rcases hmem with h | h | h | h
    · exact .inl h
    · exact .inr (.inl h)
    · exact .inr (.inr h)
    · exact absurd h hlen
  have plain : ¬ ((w.objects o).class_ = .array ∧ name = Symbol.length) →
      Guards P proper o w (defineOwnNonIndexedPropertySlotMethod o name desc slot throwable w)
        fun r w' => DefinedBy w w' o name desc r.2 := fun hne =>
    have hd := hd.resolve_left hne
    guards_defineOwnNonIndexedPropertySlotMethod h ho hname slot throwable hundef hd.2 hd.1
      (hmem hd.1) hslot.put hproper
  unfold defineOwnNonIndexedPropertySlot
  rw [Vm.object_bind]
  cases hc : (w.objects o).class_ with
  | array =>
    refine Guards.ite (fun hn => ?_) fun hn => plain fun h => hn h.2
    exact Guards.bind (guards_defineLengthProperty h ho desc throwable)
      fun _ _ ht _ => Guards.pure ht.inv (.inl hslot.put)
  | function =>
    refine Guards.ite (fun hn => ?_) fun hn => plain fun h => by rw [hc] at h; cases h.1
    have hlen : ¬ (overridesLength (w.objects o).class_ ∧ name = Symbol.length) := by
      rw [hc]; exact fun h => h.1
    have hd := (hd.resolve_left fun h => by rw [hc] at h; cases h.1).2
    refine Guards.bind (R := fun _ w' => w'.table o = w.table o ∧
      (w'.objects o).class_ = (w.objects o).class_ ∧ (w'.objects o).slots = (w.objects o).slots)
      (Guards.of_ok (h.touch_object ho (f := fun obj => { obj with constructStruct := none })
        rfl rfl rfl (.sparse 0) fun i s hs => .inl hs)
        (.of_object (f := fun obj => { obj with constructStruct := none }) rfl rfl)
        (by simp [World.table]))
      fun _ w₁ ht₁ ⟨htab, hcls, hsl⟩ => ?_
    refine (guards_defineOwnNonIndexedPropertySlotMethod ht₁.inv
      (ht₁.nextObject ▸ ho) hname slot.makeUncacheable throwable hundef ⟨hd.value, ?_⟩ (by rwa [hcls]) ?_
      hslot.put hproper).mono fun r w' _ hr => ?_
    · intro e v he hv
      rw [htab] at he
      rw [hsl] at hv
      exact hd.leak e v he hv
    · rw [htab]
      exact hmem hlen
    · unfold DefinedBy at hr
      rwa [htab] at hr
  | object | string v | global => exact plain fun h => by rw [hc] at h; cases h.1

theorem guards_defineOwnPropertySlot (h : w.Inv P) (ho : o < w.nextObject) {name : Symbol}
    {desc : PropertyDescriptor} {slot : Slot} (throwable : Bool) (hundef : P .undefined)
    (hd : DefineOk P w o name desc) (hslot : SlotOk w o name slot)
    (hproper : proper → desc.Proper) :
    Guards P proper o w (defineOwnPropertySlot o name desc slot throwable w)
      fun r w' => DefinedBy w w' o name desc r.2 := by
  cases name with
  | index i =>
    exact (guards_defineOwnIndexedPropertySlot h ho i desc throwable hundef hslot.stored).mono
      fun r w' _ hr => .inl (hr.trans hslot.put)
  | key t | priv t =>
    exact guards_defineOwnNonIndexedPropertySlot h ho (by simp) throwable hundef hd hslot hproper

theorem guards_defineOwnProperty (h : w.Inv P) (ho : o < w.nextObject) {name : Symbol}
    {desc : PropertyDescriptor} (throwable : Bool) (hundef : P .undefined)
    (hd : DefineOk P w o name desc) (hproper : proper → desc.Proper) :
    Guards P proper o w (defineOwnProperty o name desc throwable w) fun _ _ => True :=
  Guards.bind (guards_defineOwnPropertySlot h ho throwable hundef hd (slotOk_new w o name) hproper)
    fun _ _ ht _ => Guards.pure ht.inv trivial

/-! ### Assignment -/

theorem ChainLookup.stored_ok (h : w.Inv P) {name : Symbol} {slot slot' : Slot} (ho : o < w.nextObject)
    (hl : ChainLookup w o name slot true slot') :
    HasCell slot'.stored ∧ slot'.attributes.Typed := by
  have key : ∀ {p : ℕ} {slot : Slot}, p < w.nextObject → OwnLookup w p name slot true slot' →
      HasCell slot'.stored ∧ slot'.attributes.Typed := by
    intro p slot hp hl
    cases hl with
    | named e v c he hv hs =>
      have hst : Storable P w p (.named name) ⟨v, e.attrs⟩ := by
        refine h.storable hp ?_
        rw [slotAt, namedSlot, he, Option.bind_some, hv]
        rfl
      exact ⟨hst.hasCell, hst.typed⟩
    | special v a _ hs ha hst hb hp =>
      rw [Slot.attributes, hst]
      refine ⟨hasCell_of_data ha.2.1, ⟨by rw [ha.1, ha.2.1]; rfl, fun hc => ?_⟩⟩
      rw [ha.2.1] at hc
      cases hc
  cases hl with
  | own hl => exact key ho hl
  | inherited p c hp _ _ _ hl => exact key hp hl

theorem ChainLookup.slotOk (h : w.Inv P) {name : Symbol} {slot' : Slot} {found : Bool}
    (ho : o < w.nextObject) (hl : ChainLookup w o name Slot.new found slot') :
    SlotOk w o name slot' := by
  cases hl with
  | absent c he => exact ⟨rfl, .inl rfl, .inr (.inl rfl)⟩
  | own hl =>
    refine ⟨?_, .inr (ChainLookup.stored_ok h ho (.own hl)), .inr (.inr (.inr ?_))⟩
    · cases hl with
      | named e v c he hv hs => rfl
      | special v a _ hs ha hst hb hp => exact hp
    · cases hl with
      | named e v c he hv hs => exact .inl (Finmap.mem_of_lookup_eq_some he)
      | special v a _ hs => exact .inr hs
  | inherited p c hp hne he hs hl =>
    refine ⟨?_, .inr (ChainLookup.stored_ok h ho (.inherited p c hp hne he hs hl)),
      .inr (.inr (.inl ?_))⟩
    · cases hl with
      | named e v c he hv hs => rfl
      | special v a _ hs ha hst hb hp => exact hp
    · cases hl with
      | named e v c he hv hs => exact fun hc => hne (Option.some_inj.mp hc)
      | special v a _ hs ha hst hb hp =>
        rcases hb with ⟨-, hb, -⟩ | ⟨hb, -⟩
        · rw [hb]; exact fun hc => hne (Option.some_inj.mp hc)
        · rw [hb]; exact fun hc => nomatch hc

theorem SlotOk.read {name : Symbol} {slot : Slot} {w' : World} (h : w.Inv P) (ho : o < w.nextObject)
    (hr : Read P w w') (hok : SlotOk w o name slot) : SlotOk w' o name slot := by
  refine ⟨hok.put, hok.stored, ?_⟩
  rw [hr.table h ho, hr.objects]
  exact hok.named

theorem ChainLookup.of_base (h : w.Inv P) (ho : o < w.nextObject) {name : Symbol} {slot : Slot}
    {found : Bool} (hl : ChainLookup w o name Slot.new found slot) (hb : slot.base = some o) :
    (∃ e, (w.table o).lookup name = some e ∧ slot.attributes = e.attrs ∧
        ¬ (overridesLength (w.objects o).class_ ∧ name = Symbol.length)) ∨
      ((w.objects o).class_ = .array ∧ name = Symbol.length ∧
        (P.noLength → name ∉ w.table o)) := by
  cases hl with
  | absent c he => cases hb
  | inherited p c hp hne he hs hl =>
    cases hl with
    | named e v c' he' hv hs' => exact absurd (Option.some_inj.mp hb) hne
    | special v a _ hs' ha hst hb' hp' =>
      rcases hb' with ⟨-, hb', -⟩ | ⟨hb', -⟩
      · rw [hb'] at hb; exact absurd (Option.some_inj.mp hb) hne
      · rw [hb'] at hb; cases hb
  | own hl =>
    cases hl with
    | named e v c he hv hs => exact .inl ⟨e, he, rfl, hs⟩
    | special v a _ hs ha hst hb' hp' =>
      rcases hb' with ⟨hc, -, -⟩ | ⟨hb', -⟩
      · exact .inr ⟨hc, hs.2, fun hp => hs.2 ▸ (h.ok ho).no_length hp hs.1⟩
      · rw [hb'] at hb; cases hb

theorem ChainLookup.of_create {name : Symbol} {slot : Slot} {found : Bool}
    (hl : ChainLookup w o name Slot.new found slot) (h : w.Inv P) (ho : o < w.nextObject)
    (hc : slot.isNotFound = false → slot.base ≠ some o ∧ slot.attributes.writable = true) :
    (w.table o).lookup name = none ∧
      ¬ (overridesLength (w.objects o).class_ ∧ name = Symbol.length) := by
  cases hl with
  | absent c he hs => exact ⟨he, hs⟩
  | inherited p c hp hne he hs hl => exact ⟨he, hs⟩
  | own hl =>
    have hty := (ChainLookup.stored_ok h ho (.own hl)).2
    obtain ⟨hb, hw⟩ := hc hty.isNotFound
    cases hl with
    | named e v c he hv hs => exact absurd rfl hb
    | special v a _ hs ha hst hb' hp' =>
      rcases hb' with ⟨-, hb', -⟩ | ⟨-, hw'⟩
      · exact absurd hb' hb
      · rw [Slot.attributes, hst] at hw
        rw [hw'] at hw
        cases hw

theorem reads_canPut (h : w.Inv P) {found : Bool} {slot : Slot}
    (hst : found = true → HasCell slot.stored) :
    Reads P w (canPut o found slot w) fun b => b = true →
      (found = true → slot.attributes.accessor = false → slot.attributes.writable = true) ∧
        (found = false → (w.objects o).extensible = true) := by
  unfold canPut
  refine Reads.ite (fun hf => Reads.ite (fun ha => ?_) fun ha => ?_) fun hf => ?_
  · refine Reads.bind (reads_accessor h (hst hf) ha) fun c w₁ hr _ => ?_
    rw [Vm.accessorCell_bind]
    exact Reads.pure hr.inv fun _ =>
      ⟨fun _ hna => absurd (hna.symm.trans ha) nofun, fun hf' => absurd (hf'.symm.trans hf) nofun⟩
  · exact Reads.pure h fun hb => ⟨fun _ _ => hb, fun hf' => absurd (hf'.symm.trans hf) nofun⟩
  · rw [Vm.object_bind]
    exact Reads.pure h fun hb => ⟨fun hf' _ => absurd hf' hf, fun _ => hb⟩

/-- The descriptor with which an assignment redefines an own data property. -/
def assignDesc (val : JsValue) : PropertyDescriptor :=
  .dataDescriptor val { undefEnumerable := true, undefConfigurable := true, undefWritable := true }

def createDesc (val : JsValue) : PropertyDescriptor :=
  .dataDescriptor val { writable := true, enumerable := true, configurable := true }

theorem assignDesc_proper (val : JsValue) : (assignDesc val).Proper := fun _ => rfl

theorem createDesc_proper (val : JsValue) : (createDesc val).Proper := fun _ => rfl

/-- What the slot says after an assignment: if it may be cached for a property that was replaced, it
gives the place of a writable data property. -/
def PutBy (P : Policy) (w' : World) (o : ℕ) (name : Symbol) (slot : Slot) : Prop :=
  P.noLength → slot.putCacheable = true → slot.base = some o → slot.putResult ≠ .new →
    ∃ off a, slot.offset = some off ∧ (w'.table o).lookup name = some ⟨off, a⟩ ∧
      a.data = true ∧ a.writable = true

theorem guards_putFrom (h : w.Inv P) {val : JsValue} {throwable found : Bool}
    {slot : Slot} {callee : JsValue → JsValue} {define : PropertyDescriptor → Slot → Vm (Bool × Slot)}
    {S : Slot → World → Prop} (hst : found = true → HasCell slot.stored ∧ slot.attributes.Typed)
    (hnone : found = false → slot.isNotFound = true) (hrefuse : ∀ w', S slot w')
    (hassign : ∀ w', Read P w w' → slot.base = some o → slot.attributes.data = true →
      slot.attributes.writable = true →
      Guards P proper o w' (define (assignDesc val) slot w') fun r w'' => S r.2 w'')
    (hcreate : ∀ w', Read P w w' →
      (slot.isNotFound = false → slot.base ≠ some o ∧ slot.attributes.writable = true) →
      Guards P proper o w' (define (createDesc val) slot w') fun r w'' => S r.2 w'') :
    Guards P proper o w (putFrom o val throwable found slot callee define w) S := by
  unfold putFrom
  have hfound : slot.isNotFound = false → found = true := by
    intro hn
    cases found with
    | true => rfl
    | false => rw [hnone rfl] at hn; cases hn
  refine Reads.bind_guards h (reads_canPut h fun hf => (hst hf).1) fun b w₁ hr hwr => ?_
  refine Guards.ite (fun _ => ?_) fun hb => ?_
  · exact (Reads.reject hr.inv throwable _ (R := fun s => ∀ w', S s w') hrefuse).guards hr.inv
      |>.mono fun _ _ _ hs => hs _
  have hb : b = true := by simpa using hb
  refine Guards.ite (fun hc => ?_) fun hown => Guards.ite (fun hc => ?_) fun hacc => ?_
  · simp only [Bool.and_eq_true, Bool.not_eq_true', decide_eq_true_eq] at hc
    obtain ⟨⟨hn, hbase⟩, hdata⟩ := hc
    have hf := hfound hn
    refine Guards.bind (hassign w₁ hr hbase hdata
      ((hwr hb).1 hf ((hst hf).2.not_accessor_of_data hdata))) fun r w₂ ht₂ hs => ?_
    exact Guards.pure ht₂.inv hs
  · simp only [Bool.and_eq_true, Bool.not_eq_true'] at hc
    refine Reads.bind_guards hr.inv (reads_accessor hr.inv (hst (hfound hc.1)).1 hc.2)
      fun c w₂ hr₂ _ => ?_
    rw [Vm.accessorCell_bind]
    exact Guards.fail hr₂.inv _ _
  · refine Guards.bind (hcreate w₁ hr fun hn => ?_) fun r w₂ ht₂ hs => Guards.pure ht₂.inv hs
    have hna : slot.attributes.accessor = false := by simpa [hn] using hacc
    have hd : slot.attributes.data = true := by
      rw [(hst (hfound hn)).2.data_or_accessor, hna]; rfl
    refine ⟨fun hbase => hown ?_, (hwr hb).1 (hfound hn) hna⟩
    simp [hn, hbase, hd]

theorem mergeAttrs_assignDesc {a : AttrSafe} (val : JsValue) (hw : a.writable = true) :
    (StoredSlot.mergeAttrs a (assignDesc val)).data = true ∧
      (StoredSlot.mergeAttrs a (assignDesc val)).writable = true := by
  obtain ⟨-, hd, hwr⟩ := mergeAttrs_kind a (assignDesc val)
  exact ⟨hd, hwr.trans hw⟩

theorem guards_putNonIndexedSlot (h : w.Inv P) (ho : o < w.nextObject) {name : Symbol}
    (hname : ∀ i, name ≠ .index i) {val : JsValue} (throwable : Bool) (hundef : P .undefined)
    (hval : P val) :
    Guards P proper o w (putNonIndexedSlot o name val Slot.new throwable w) fun slot w' =>
      PutBy P w' o name slot := by
  unfold putNonIndexedSlot
  have hlook := reads_getPropertySlot_of_not_index h ho hname
  refine Reads.bind_guards h hlook ?_
  rintro ⟨found, slot⟩ w₁ hr hl
  have hok := hl.slotOk h ho
  have hfound : found = true → HasCell slot.stored ∧ slot.attributes.Typed := by
    rintro rfl
    exact hl.stored_ok h ho
  have hnone : found = false → slot.isNotFound = true := by
    rintro rfl
    cases hl
    rfl
  have hput : ∀ w', PutBy P w' o name slot := fun w' _ hp => by rw [hok.put] at hp; cases hp
  refine guards_putFrom hr.inv hfound hnone hput (fun w₂ hr₂ hb hd hwr => ?_) fun w₂ hr₂ hc => ?_
  · have hrd := hr.trans hr₂
    have ho₂ : o < w₂.nextObject := hrd.nextObject ▸ ho
    have hdef : DefineOk P w₂ o name (assignDesc val) := by
      rw [DefineOk, hrd.objects]
      rcases hl.of_base h ho hb with ⟨e, he, ha, hlen⟩ | ⟨hcl, hn, -⟩
      · exact .inr (.inr ⟨hlen, .of_value rfl hval⟩)
      · exact .inr (.inl ⟨hcl, hn⟩)
    refine (guards_defineOwnNonIndexedPropertySlot hrd.inv ho₂ hname throwable hundef hdef
      (hok.read h ho hrd) fun _ => assignDesc_proper val).mono fun r w₃ ht₃ hby hlen hp _ hnew => ?_
    rcases hby with hby | hby | ⟨off, a, hoff, ha, ha'⟩
    · rw [hby] at hp; cases hp
    · exact absurd hby hnew
    rw [hrd.table h ho] at ha
    rcases hl.of_base h ho hb with ⟨e, he, hattr, -⟩ | ⟨-, -, hnot⟩
    · rw [he] at ha
      cases ha
      obtain ⟨hd', hw'⟩ := mergeAttrs_assignDesc val (hattr ▸ hwr)
      exact ⟨_, _, hoff, ha', hd', hw'⟩
    · exact absurd (Finmap.mem_of_lookup_eq_some ha) (hnot hlen)
  · have hrd := hr.trans hr₂
    have ho₂ : o < w₂.nextObject := hrd.nextObject ▸ ho
    obtain ⟨he, hlen⟩ := hl.of_create h ho hc
    have hdef : DefineOk P w₂ o name (createDesc val) := by
      rw [DefineOk, hrd.objects]
      exact .inr (.inr ⟨hlen, .of_value rfl hval⟩)
    refine (guards_defineOwnNonIndexedPropertySlot hrd.inv ho₂ hname throwable hundef hdef
      (hok.read h ho hrd) fun _ => createDesc_proper val).mono fun r w₃ ht₃ hby hlen hp _ hnew => ?_
    rcases hby with hby | hby | ⟨off, a, hoff, ha, ha'⟩
    · rw [hby] at hp; cases hp
    · exact absurd hby hnew
    · rw [hrd.table h ho, he] at ha
      cases ha

theorem reads_canPutDense (h : w.Inv P) (o index : ℕ) :
    Reads P w (canPutDense o index w) fun _ => True := by
  have key : ∀ fuel p, Reads P w (hasIndexedPropertyFrom fuel p w) fun _ => True := by
    intro fuel
    induction fuel with
    | zero => exact fun _ => trivial
    | succ fuel ih =>
      intro p
      unfold hasIndexedPropertyFrom
      rw [Vm.object_bind, Exec.gets_bind]
      refine Reads.ite (fun _ => Reads.pure h trivial) fun _ => ?_
      cases (w.shapes.structures (w.objects p).structure_).prototype with
      | some proto => exact ih _
      | none => exact Reads.pure h trivial
  unfold canPutDense
  rw [Vm.object_bind, Exec.gets_bind]
  refine Reads.ite (fun _ => ?_) fun _ => Reads.pure h trivial
  cases (w.shapes.structures (w.objects o).structure_).prototype with
  | none => exact Reads.pure h trivial
  | some proto => exact key _ _

theorem guards_putIndexedSlot (h : w.Inv P) (ho : o < w.nextObject) (index : ℕ) (val : JsValue)
    (throwable : Bool) (hundef : P .undefined) :
    Guards P proper o w (putIndexedSlot o index val Slot.new throwable w) fun slot _ =>
      slot.putCacheable = true → slot.base = none := by
  unfold putIndexedSlot
  refine Reads.bind_guards h (reads_canPutDense h o index) fun b w₁ hr₁ _ => ?_
  have ho₁ : o < w₁.nextObject := hr₁.nextObject ▸ ho
  refine Guards.ite (fun _ => ?_) fun _ => ?_
  · exact Guards.bind (guards_defineOwnIndexeValueDenseInternal hr₁.inv ho₁ _ _ _)
      fun _ _ ht _ => Guards.pure ht.inv fun _ => rfl
  refine Reads.bind_guards hr₁.inv (reads_getIndexedPropertySlot hr₁.inv ho₁ index Slot.new) ?_
  rintro ⟨found, slot⟩ w₂ hr₂ hf
  have hf : IndexedFound Slot.new found slot := hf
  have hput : slot.putCacheable = false := hf.put
  have hdefine : ∀ (desc : PropertyDescriptor) w₃, Read P w₂ w₃ →
      Guards P proper o w₃ (defineOwnIndexedPropertySlot o index desc slot throwable w₃) fun r _ =>
        r.2.putCacheable = true → r.2.base = none := by
    intro desc w₃ hr₃
    refine (guards_defineOwnIndexedPropertySlot hr₃.inv (hr₃.nextObject ▸ hr₂.nextObject ▸ ho₁)
      index desc throwable hundef ?_).mono fun r _ _ hr hp => ?_
    · cases found with
      | true => exact .inr ⟨hf.hasCell rfl, hf.typed rfl⟩
      | false => exact .inl (by rw [hf.absent rfl]; rfl)
    · rw [hr, hput] at hp; cases hp
  refine guards_putFrom hr₂.inv (fun hfd => ⟨hf.hasCell hfd, hf.typed hfd⟩)
    (fun hfd => by rw [hf.absent hfd]; rfl) (fun _ hp => by rw [hput] at hp; cases hp)
    (fun w₃ hr₃ _ _ _ => hdefine _ w₃ hr₃) fun w₃ hr₃ _ => hdefine _ w₃ hr₃

/-- **Assignment** touches its object only, and the slot it returns can be trusted. -/
theorem guards_putSlot (h : w.Inv P) (ho : o < w.nextObject) {name : Symbol} {val : JsValue}
    (throwable : Bool) (hundef : P .undefined) (hval : P val) :
    Guards P proper o w (putSlot o name val Slot.new throwable w) fun slot w' => PutBy P w' o name slot := by
  cases name with
  | index i =>
    refine (guards_putIndexedSlot h ho i val throwable hundef).mono fun slot _ _ hs _ hp hb _ => ?_
    rw [hs hp] at hb
    cases hb
  | key t | priv t => exact guards_putNonIndexedSlot h ho (by simp) throwable hundef hval

theorem guards_put (h : w.Inv P) (ho : o < w.nextObject) {name : Symbol} {val : JsValue}
    (throwable : Bool) (hundef : P .undefined) (hval : P val) :
    Guards P proper o w (put o name val throwable w) fun _ _ => True :=
  Guards.bind (guards_putSlot h ho throwable hundef hval)
    fun _ _ ht _ => Guards.pure ht.inv trivial

/-! ### Deletion -/

theorem guards_deleteNonIndexedMethod (h : w.Inv P) (ho : o < w.nextObject) {name : Symbol}
    (hname : ∀ i, name ≠ .index i) (throwable : Bool) :
    Guards P proper o w (deleteNonIndexedMethod o name throwable w) fun _ _ => True := by
  unfold deleteNonIndexedMethod
  rw [getOwnPropertySlot_of_not_index hname]
  refine Reads.bind_guards h (reads_getOwnNonIndexedPropertySlot h ho _ _) ?_
  rintro ⟨found, slot⟩ w₁ hr hl
  have ho₁ : o < w₁.nextObject := hr.nextObject ▸ ho
  refine Guards.ite (fun _ => Guards.pure hr.inv trivial) fun hf => Guards.ite
    (fun _ => (Reads.reject hr.inv _ _ trivial).guards hr.inv) fun hc => ?_
  cases hl with
  | absent c he => exact absurd rfl hf
  | special v a _ hs ha hst =>
    refine absurd ?_ hc
    rw [Slot.attributes, hst, ha.2.2]
    rfl
  | named e v c he hv hs =>
    have he₁ : (w₁.table o).lookup name = some e := hr.table h ho ▸ he
    have hconf : e.attrs.configurable = true := by simpa [Slot.attributes, Slot.setWoffset] using hc
    -- the lookup has filled in the slot, so the structure is not asked again
    refine Reads.bind_guards hr.inv (R := fun off => off = some e.offset) (Reads.pure hr.inv rfl) ?_
    rintro off w₂ hr₂ rfl
    have he₂ : (w₂.table o).lookup name = some e := hr₂.table hr.inv ho₁ ▸ he₁
    exact Guards.bind (guards_remove hr₂.inv (hr₂.nextObject ▸ ho₁) he₂ hconf)
      fun _ _ ht _ => Guards.pure ht.inv trivial

theorem guards_deleteIndexed (h : w.Inv P) (ho : o < w.nextObject) (index : ℕ)
    (throwable : Bool) :
    Guards P proper o w (deleteIndexed o index throwable w) fun _ _ => True := by
  unfold deleteIndexed
  rw [Vm.object_bind]
  refine Guards.ite (fun _ => ?_) fun _ => guards_deleteIndexedInternal h ho _ _
  refine Reads.bind_guards h (reads_getOwnIndexedPropertySlot h ho index Slot.new)
    fun r w₁ hr _ => ?_
  exact Guards.ite (fun _ => Guards.pure hr.inv trivial) fun _ => Guards.ite
    (fun _ => (Reads.reject hr.inv _ _ trivial).guards hr.inv)
    fun _ => guards_deleteIndexedInternal hr.inv (hr.nextObject ▸ ho) _ _

/-- **Deletion** touches its object only. -/
theorem guards_delete (h : w.Inv P) (ho : o < w.nextObject) (name : Symbol) (throwable : Bool) :
    Guards P proper o w (delete o name throwable w) fun _ _ => True := by
  have named : (∀ i, name ≠ .index i) →
      Guards P proper o w (deleteNonIndexed o name throwable w) fun _ _ => True := by
    intro hname
    unfold deleteNonIndexed
    rw [Vm.object_bind]
    exact Guards.ite (fun _ => (Reads.reject h _ _ trivial).guards h)
      fun _ => guards_deleteNonIndexedMethod h ho hname throwable
  cases name with
  | index i => exact guards_deleteIndexed h ho i throwable
  | key t | priv t => exact named (by simp)

/-! ### Reading -/

theorem reads_getPropertySlot (h : w.Inv P) (ho : o < w.nextObject) (name : Symbol) :
    Reads P w (getPropertySlot o name Slot.new w) fun r =>
      r.1 = true → HasCell r.2.stored ∧ r.2.attributes.Typed := by
  have named : Reads P w (getNonIndexedPropertySlot o name Slot.new w) fun r =>
      r.1 = true → HasCell r.2.stored ∧ r.2.attributes.Typed := by
    refine (reads_getNonIndexedPropertySlot h ho name Slot.new).mono fun r hr hf => ?_
    rw [hf] at hr
    exact hr.stored_ok h ho
  cases name with
  | index i =>
    exact (reads_getIndexedPropertySlot h ho i Slot.new).mono fun r hr hf => ⟨hr.hasCell hf, hr.typed hf⟩
  | key t => exact named
  | priv t => exact named

theorem reads_isCallable (h : w.Inv P) (v : JsValue) :
    Reads P w (Vm.isCallable v w) fun _ => True := ⟨h.read_refl, trivial⟩

theorem reads_storedSlotGet (h : w.Inv P) {s : StoredSlot} (hs : HasCell s) (this : JsValue) :
    Reads P w (s.get this w) fun _ => True := by
  unfold StoredSlot.get
  refine Reads.ite (fun ha => ?_) fun _ => Reads.pure h trivial
  refine Reads.bind (reads_accessor h hs ha) fun c w₂ hr₂ _ => ?_
  rw [Vm.accessorCell_bind]
  exact Reads.bind (reads_isCallable hr₂.inv _) fun b w₃ hr₃ _ =>
    Reads.ite (fun _ => Reads.fail hr₃.inv _ _) fun _ => Reads.pure hr₃.inv trivial

/-- **Reading a property** changes nothing. -/
theorem reads_getSlot (h : w.Inv P) (ho : o < w.nextObject) (name : Symbol) (strict : ℕ → Bool) :
    Reads P w (getSlot o name strict Slot.new w) fun _ => True := by
  unfold getSlot
  refine Reads.bind (reads_getPropertySlot h ho name) ?_
  rintro ⟨found, slot⟩ w₁ hr hst
  have hval : Reads P w₁ (slotValue o found slot w₁) fun _ => True := by
    refine Reads.ite (fun hf => ?_) fun _ => Reads.pure hr.inv trivial
    exact reads_storedSlotGet hr.inv (hst hf).1 _
  refine Reads.bind hval fun v w₂ hr₂ _ => ?_
  rw [Vm.object_bind]
  have plain : Reads P w₂ ((pure v : Vm JsValue) w₂) fun _ => True := Reads.pure hr₂.inv trivial
  cases (w₂.objects o).class_ with
  | function =>
    refine Reads.bind (reads_isCallable hr₂.inv v) fun b w₃ hr₃ _ => ?_
    have plain : Reads P w₃ ((pure v : Vm JsValue) w₃) fun _ => True := Reads.pure hr₃.inv trivial
    refine Reads.ite (fun _ => ?_) fun _ => plain
    cases v with
    | object f => exact Reads.ite (fun _ => Reads.fail hr₃.inv _ _) fun _ => plain
    | _ => exact plain
  | _ => exact plain

/-- A descriptor read from a property may be used to define it again. -/
def Redefines (P : Policy) (w : World) (o : ℕ) (name : Symbol)
    (desc : PropertyDescriptor) : Prop :=
  desc.attrs.data = true → desc.attrs.undefValue = false ∧
    ((∃ i, name = .index i) ∨ (overridesLength (w.objects o).class_ ∧ name = Symbol.length) ∨
      P desc.fst)

theorem reads_getOwnProperty (h : w.Inv P) (ho : o < w.nextObject) (name : Symbol) :
    Reads P w (getOwnProperty o name w) fun r =>
      ∀ desc, r = some desc → Redefines P w o name desc ∧ desc.Proper := by
  have hlook : Reads P w (getOwnPropertySlot o name Slot.new w) fun r => r.1 = true →
      HasCell r.2.stored ∧ r.2.attributes.Typed ∧ (r.2.attributes.data = true →
        (∃ i, name = .index i) ∨ (overridesLength (w.objects o).class_ ∧ name = Symbol.length) ∨
          P r.2.value) := by
    have named : Reads P w (getOwnNonIndexedPropertySlot o name Slot.new w) fun r => r.1 = true →
        HasCell r.2.stored ∧ r.2.attributes.Typed ∧ (r.2.attributes.data = true →
          (∃ i, name = .index i) ∨ (overridesLength (w.objects o).class_ ∧ name = Symbol.length) ∨
            P r.2.value) := by
      refine (reads_getOwnNonIndexedPropertySlot h ho name Slot.new).mono ?_
      rintro ⟨found, slot⟩ hl hf
      obtain rfl : found = true := hf
      obtain ⟨hc, ht⟩ := ChainLookup.stored_ok h ho (.own hl)
      refine ⟨hc, ht, fun hd => .inr ?_⟩
      cases hl with
      | named e v c he hv hs =>
        exact .inr ((h.ok ho).data (n := name) (s := ⟨v, e.attrs⟩) (namedSlot_of_lookup he hv) hd)
      | special v a _ hs => exact .inl hs
    cases name with
    | index i =>
      exact (reads_getOwnIndexedPropertySlot h ho i Slot.new).mono fun r hr hf =>
        ⟨hr.hasCell hf, hr.typed hf, fun _ => .inl ⟨i, rfl⟩⟩
    | key t => exact named
    | priv t => exact named
  unfold getOwnProperty
  refine Reads.bind hlook ?_
  rintro ⟨found, slot⟩ w₁ hr hst
  refine Reads.ite (fun hf => ?_) fun _ => Reads.pure hr.inv fun _ hd => by cases hd
  obtain ⟨hc, ht, hp⟩ := hst hf
  refine Reads.bind (reads_toDescriptor hr.inv hc ht) fun desc w₂ hr₂ hdesc => ?_
  refine Reads.pure hr₂.inv fun d hd => ?_
  obtain rfl := Option.some_inj.mp hd
  rcases hdesc with ⟨hda, rfl⟩ | ⟨hda, g, t, rfl⟩
  · exact ⟨fun _ => ⟨rfl, hp hda⟩, fun _ => ht.not_accessor_of_data hda⟩
  · constructor <;> intro hd <;> change slot.stored.attributes.data = true at hd <;>
      rw [hda] at hd <;> cases hd

/-- A change of descriptors that `freeze` or `seal` makes: the value and the kind stay. -/
structure KeepsValue (f : PropertyDescriptor → PropertyDescriptor) : Prop where
  fst : ∀ d, (f d).fst = d.fst
  data : ∀ d, (f d).attrs.data = d.attrs.data
  accessor : ∀ d, (f d).attrs.accessor = d.attrs.accessor
  undefValue : ∀ d, (f d).attrs.undefValue = d.attrs.undefValue

theorem keepsValue_frozen : KeepsValue frozen := by
  constructor <;> intro d <;> unfold frozen <;> dsimp only <;> (try split) <;> (try split) <;> rfl

theorem keepsValue_sealed : KeepsValue sealed := by
  constructor <;> intro d <;> unfold sealed <;> dsimp only <;> (try split) <;> rfl

theorem KeepsValue.keeps_proper {f : PropertyDescriptor → PropertyDescriptor} (hf : KeepsValue f)
    {desc : PropertyDescriptor} (h : desc.Proper) : (f desc).Proper := fun hd =>
  (hf.accessor desc).trans (h (hf.data desc ▸ hd))

theorem Redefines.defineOk {f : PropertyDescriptor → PropertyDescriptor} (hf : KeepsValue f)
    (hstr : ¬ isString (w.objects o).class_) {name : Symbol} {desc : PropertyDescriptor}
    (hd : Redefines P w o name desc) {w' : World} {o' : ℕ}
    (hclass : (w'.objects o').class_ = (w.objects o).class_) : DefineOk P w' o' name (f desc) := by
  by_cases hi : ∃ i, name = .index i
  · exact .inl hi
  rw [DefineOk, hclass]
  by_cases hs : overridesLength (w.objects o).class_ ∧ name = Symbol.length
  · refine .inr (.inl ⟨?_, hs.2⟩)
    cases hc : (w.objects o).class_ with
    | array => rfl
    | string v => rw [hc] at hstr; exact absurd trivial hstr
    | _ => rw [hc] at hs; exact hs.1.elim
  · refine .inr (.inr ⟨hs, ?_, ?_⟩)
    · intro hda _
      rw [hf.fst]
      exact ((hd (hf.data desc ▸ hda)).2.resolve_left hi).resolve_left hs
    · intro _ _ _ _ _ hda hu
      rw [hf.undefValue, (hd (hf.data desc ▸ hda)).1] at hu
      cases hu

theorem guards_redefineAll (h : w.Inv P) (ho : o < w.nextObject)
    {f : PropertyDescriptor → PropertyDescriptor} (hf : KeepsValue f) (hundef : P .undefined)
    (hstr : ¬ isString (w.objects o).class_) (names : List Symbol) :
    Guards P proper o w (redefineAll o f names w) fun _ _ => True := by
  induction names generalizing w with
  | nil => exact Guards.pure h trivial
  | cons name names ih =>
    refine Reads.bind_guards h (reads_getOwnProperty h ho name) fun r w₁ hr hdesc => ?_
    have ho₁ : o < w₁.nextObject := hr.nextObject ▸ ho
    cases r with
    | none => exact Guards.fail hr.inv _ _
    | some desc =>
      have hd : Redefines P w₁ o name desc := by
        unfold Redefines
        rw [hr.objects]
        exact (hdesc desc rfl).1
      have hstr₁ : ¬ isString (w₁.objects o).class_ := by rw [hr.objects]; exact hstr
      exact Guards.bind
        (guards_defineOwnProperty hr.inv ho₁ true hundef (hd.defineOk hf hstr₁ rfl)
          fun _ => hf.keeps_proper (hdesc desc rfl).2)
        fun _ w₂ ht₂ _ => ih ht₂.inv (ht₂.nextObject ▸ ho₁) (by rw [ht₂.class_eq o]; exact hstr₁)

/-- **Freezing and sealing** touch their object only. -/
theorem guards_integrity (h : w.Inv P) (ho : o < w.nextObject)
    {f : PropertyDescriptor → PropertyDescriptor} (hf : KeepsValue f) (hundef : P .undefined)
    (hstr : ¬ isString (w.objects o).class_) :
    Guards P proper o w ((getOwnPropertyNames o true >>= fun names => redefineAll o f names >>= fun _ =>
      changeExtensible o false >>= fun _ => (pure true : Vm Bool)) w) fun _ w' =>
        (w'.objects o).extensible = false ∧ (w'.objects o).indexed.Emptied := by
  refine Reads.bind_guards h (reads_getOwnPropertyNames h ho true) fun names w₁ hr _ => ?_
  have ho₁ : o < w₁.nextObject := hr.nextObject ▸ ho
  refine Guards.bind (guards_redefineAll hr.inv ho₁ hf hundef (by rw [hr.objects]; exact hstr)
    names) fun _ w₂ ht₂ _ => ?_
  exact Guards.bind (guards_changeExtensible ht₂.inv (ht₂.nextObject ▸ ho₁) false)
    fun _ _ ht he => Guards.pure ht.inv he

theorem guards_freeze (h : w.Inv P) (ho : o < w.nextObject) (hundef : P .undefined)
    (hstr : ¬ isString (w.objects o).class_) :
    Guards P proper o w (freeze o w) fun _ w' =>
      (w'.objects o).extensible = false ∧ (w'.objects o).indexed.Emptied :=
  guards_integrity h ho keepsValue_frozen hundef hstr

theorem guards_seal (h : w.Inv P) (ho : o < w.nextObject) (hundef : P .undefined)
    (hstr : ¬ isString (w.objects o).class_) :
    Guards P proper o w (seal_ o w) fun _ w' =>
      (w'.objects o).extensible = false ∧ (w'.objects o).indexed.Emptied :=
  guards_integrity h ho keepsValue_sealed hundef hstr

end Starlight
