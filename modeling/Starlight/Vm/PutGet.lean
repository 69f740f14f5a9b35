import Starlight.Vm.InlineCacheSpec
import Starlight.Vm.PermanenceRuns
import Starlight.Vm.Quiet
import Starlight.Vm.Validation

/-!
# Assigning a named property and reading it

An assignment that is not refused and calls no setter ends with an own data property that holds the
value, or one that was the same to `same_value`. Nothing else of the object changes. Reading the
property gives the value back.
-/

namespace Starlight

open JsObject World Exec

variable {P : Policy} {w w' w'' : World} {o : ℕ} {name : Symbol} {val : JsValue}

/-! ### What an assignment leaves alone -/

/-- Object `o` is as before but for its property `name`. -/
structure OthersKept (w w' : World) (o : ℕ) (name : Symbol) : Prop where
  named : ∀ n, n ≠ name →
    namedSlot (w'.table o) (w'.objects o) n = namedSlot (w.table o) (w.objects o) n
  indexed : (w'.objects o).indexed = (w.objects o).indexed
  accessors : w'.accessors = w.accessors

theorem OthersKept.trans (h : OthersKept w w' o name) (h' : OthersKept w' w'' o name) :
    OthersKept w w'' o name :=
  ⟨fun n hn => (h'.named n hn).trans (h.named n hn), h'.indexed.trans h.indexed,
    h'.accessors.trans h.accessors⟩

theorem World.Read.othersKept (hr : Read P w w') (h : w.Inv P) (ho : o < w.nextObject)
    (name : Symbol) : OthersKept w w' o name :=
  ⟨fun n _ => by rw [hr.table h ho, hr.objects], by rw [hr.objects], hr.accessors⟩

theorem namedSlot_congr {t t' : TargetTable} {obj obj' : JsObject} {n : Symbol}
    (htable : t'.lookup n = t.lookup n)
    (hslot : ∀ e, t.lookup n = some e → obj'.slots[e.offset]? = obj.slots[e.offset]?) :
    namedSlot t' obj' n = namedSlot t obj n := by
  unfold namedSlot
  rw [htable]
  cases he : t.lookup n with
  | none => rfl
  | some e => rw [Option.bind_some, Option.bind_some, hslot e he]

theorem lookup_of_namedSlot_none (h : w.Inv P) (ho : o < w.nextObject)
    (hn : namedSlot (w.table o) (w.objects o) name = none) : (w.table o).lookup name = none := by
  cases he : (w.table o).lookup name with
  | none => rfl
  | some e =>
    rw [namedSlot_of_lookup he (List.getElem?_eq_getElem (h.offset_lt ho he))] at hn
    cases hn

/-- The object has `name` as an own data property, which holds `val` or, if that was there before, a
value that is the same to `same_value`. -/
def Holds (w w' : World) (o : ℕ) (name : Symbol) (val : JsValue) : Prop :=
  ∃ s, namedSlot (w'.table o) (w'.objects o) name = some s ∧ s.attributes.data = true ∧
    (s.value = val ∨ JsValue.sameValue val s.value = true ∧ namedValue w o name = some s.value)

/-- What is to be shown of an assignment: it ends in `w'` whether it throws or not, the property holds
the value, and the others are as before. -/
structure Assigns (w w' : World) (o : ℕ) (name : Symbol) (val : JsValue) : Prop where
  others : OthersKept w w' o name
  holds : Holds w w' o name val
  class_eq : (w'.objects o).class_ = (w.objects o).class_

theorem Assigns.after_read (ha : Assigns w' w'' o name val) (hr : Read P w w') (h : w.Inv P)
    (ho : o < w.nextObject) : Assigns w w'' o name val where
  others := (hr.othersKept h ho name).trans ha.others
  holds := by
    have hv := ha.holds
    rwa [Holds, namedValue, hr.table h ho, hr.objects] at hv
  class_eq := by rw [ha.class_eq, hr.objects]

/-! ### The structure that a function keeps -/

/-- The heap after function `o` dropped the structure it keeps for its instances. -/
def World.unconstructed (w : World) (o : ℕ) : World :=
  { w with objects := Function.update w.objects o ({ w.objects o with constructStruct := none }) }

@[simp] theorem World.object_unconstructed (w : World) (o : ℕ) :
    (w.unconstructed o).objects o = { w.objects o with constructStruct := none } := by
  simp [World.unconstructed]

@[simp] theorem World.table_unconstructed (w : World) (o : ℕ) :
    (w.unconstructed o).table o = w.table o := by
  simp [World.table, World.unconstructed]

theorem modifyObject_unconstructed (w : World) (o : ℕ) :
    Vm.modifyObject o (fun obj => { obj with constructStruct := none }) w =
      .ok () (w.unconstructed o) := rfl

theorem World.Inv.touch_unconstructed (h : w.Inv P) (ho : o < w.nextObject) :
    Touch P o w (w.unconstructed o) :=
  h.touch_object ho (f := fun obj => { obj with constructStruct := none }) rfl rfl rfl (.sparse 0)
    fun _ _ hs => .inl hs

theorem othersKept_unconstructed (w : World) (o : ℕ) (name : Symbol) :
    OthersKept w (w.unconstructed o) o name where
  named n _ := by rw [table_unconstructed, object_unconstructed]; rfl
  indexed := by rw [object_unconstructed]
  accessors := rfl

theorem Assigns.after_unconstructed (ha : Assigns (w.unconstructed o) w' o name val) :
    Assigns w w' o name val where
  others := (othersKept_unconstructed w o name).trans ha.others
  holds := by
    have hv := ha.holds
    rwa [Holds, namedValue, table_unconstructed, object_unconstructed] at hv
  class_eq := by rw [ha.class_eq, object_unconstructed]

theorem defineOwnNonIndexedPropertySlot_eq
    (hlen : ¬ ((w.objects o).class_ = .array ∧ name = Symbol.length)) (desc : PropertyDescriptor)
    (slot : Slot) (throwable : Bool) :
    defineOwnNonIndexedPropertySlot o name desc slot throwable w =
      if (w.objects o).class_ = .function ∧ name = Symbol.prototype then
        (Vm.modifyObject o (fun obj => { obj with constructStruct := none }) >>= fun _ =>
          defineOwnNonIndexedPropertySlotMethod o name desc slot.makeUncacheable throwable) w
      else defineOwnNonIndexedPropertySlotMethod o name desc slot throwable w := by
  unfold defineOwnNonIndexedPropertySlot
  rw [Vm.object_bind]
  cases hc : (w.objects o).class_ with
  | array => simp only [if_neg fun hn => hlen ⟨hc, hn⟩, reduceCtorEq, false_and, if_false]
  | function =>
    by_cases hp : name = Symbol.prototype
    · simp only [if_pos hp, true_and]
    · simp only [if_neg hp, true_and]
  | _ => rfl

/-! ### Storing one property -/

structure StoredAt (w w' : World) (o : ℕ) (name : Symbol) (stored : StoredSlot) : Prop where
  others : OthersKept w w' o name
  self : namedSlot (w'.table o) (w'.objects o) name = some stored
  class_eq : (w'.objects o).class_ = (w.objects o).class_

theorem storedAt_addProperty (h : w.Inv P) (ho : o < w.nextObject) (hn : name ∉ w.table o)
    {stored : StoredSlot} (hty : stored.attributes.Typed) :
    ∃ off w', addProperty o name stored w = .ok off w' ∧ StoredAt w w' o name stored := by
  obtain ⟨ht, hview, -, -⟩ := h.shapes.addPropertyTransition (h.live ho) hn hty
  rcases heq : w.shapes.addPropertyTransition (w.objects o).structure_ name stored.attributes with
    ⟨s, off, σ⟩
  rw [heq] at ht hview
  dsimp only at ht hview
  have hlay := ht.inv.layout ht.live
  have hlt : ∀ {n e}, (σ.view s).lookup n = some e → e.offset < σ.storageCapacity s := by
    intro n e he
    have := hlay.lt he
    have := ht.inv.getSlotsSize_eq ht.live
    have := Shapes.getSlotsSize_le_storageCapacity σ s
    omega
  have hself : (σ.view s).lookup name = some ⟨off, stored.attributes⟩ := by
    rw [hview, Finmap.lookup_insert]
  have hoff := hlt hself
  -- the new structure has the old entries, and the new one at an offset of its own
  have hold : ∀ {n e}, n ≠ name → (w.table o).lookup n = some e → (σ.view s).lookup n = some e :=
    fun hne he => by rwa [hview, Finmap.lookup_insert_of_ne _ hne]
  refine ⟨off, _, addProperty_eq w o name stored heq hoff, ⟨fun n hne => ?_, ?_, rfl⟩, ?_, ?_⟩
  · refine namedSlot_congr ?_ fun e he => ?_
    · rw [World.table_stored, hview, Finmap.lookup_insert_of_ne _ hne]
      rfl
    · have hne' : off ≠ e.offset := fun hc => hne (hlay.inj (hold hne he) hself hc.symm)
      rw [World.slots_stored, List.getElem?_set_ne hne',
        getElem?_resize (hlt (hold hne he)) (h.offset_lt ho he)]
  · simp [World.stored]
  · refine namedSlot_of_lookup (e := ⟨off, stored.attributes⟩) ?_ ?_
    · rw [World.table_stored]
      exact hself
    · rw [World.slots_stored, List.getElem?_set_self (by simpa using hoff)]
  · simp [World.stored]

theorem storedAt_replaceProperty (h : w.Inv P) (ho : o < w.nextObject) {e : MapEntry}
    (he : (w.table o).lookup name = some e) {stored : StoredSlot} (hty : stored.attributes.Typed) :
    ∃ w', replaceProperty o name e.attrs e.offset stored w = .ok () w' ∧
      StoredAt w w' o name stored := by
  obtain ⟨σ, s, hrun, -, hview, -, -⟩ := replaceProperty_run h ho he hty
  have hlay := h.shapes.layout (h.live ho)
  refine ⟨_, hrun, ⟨fun n hne => ?_, by simp [World.stored], rfl⟩, ?_, by simp [World.stored]⟩
  · refine namedSlot_congr ?_ fun d hd => ?_
    · rw [World.table_stored, hview, Finmap.lookup_insert_of_ne _ hne]
    · rw [World.slots_stored, List.getElem?_set_ne fun hc => hne (hlay.inj hd he hc.symm)]
  · refine namedSlot_of_lookup (e := { e with attrs := stored.attributes }) ?_ ?_
    · rw [World.table_stored, hview, Finmap.lookup_insert]
    · rw [World.slots_stored, List.getElem?_set_self (h.offset_lt ho he)]

theorem assigns_addProperty (h : w.Inv P) (ho : o < w.nextObject) (hn : name ∉ w.table o)
    {attrs : AttrSafe} (hty : attrs.Typed) (hd : attrs.data = true) :
    ∃ off w', addProperty o name ⟨val, attrs⟩ w = .ok off w' ∧ Assigns w w' o name val := by
  have hty : (StoredSlot.mk val attrs).attributes.Typed := hty
  obtain ⟨off, w', hrun, hst⟩ := storedAt_addProperty h ho hn hty
  exact ⟨off, w', hrun, hst.others, ⟨_, hst.self, hd, .inl rfl⟩, hst.class_eq⟩

theorem storedSlotNew_createDesc (val : JsValue) (w : World) :
    StoredSlot.new (createDesc val) w =
      .ok ⟨val, createData { writable := true, enumerable := true, configurable := true }⟩ w := rfl

theorem assigns_method_create (h : w.Inv P) (ho : o < w.nextObject) (hname : ∀ i, name ≠ .index i)
    (hn : (w.table o).lookup name = none)
    (hlen : ¬ (overridesLength (w.objects o).class_ ∧ name = Symbol.length)) {slot : Slot}
    (hslot : slot.isNotFound = true ∨ slot.base ≠ some o) {throwable : Bool} {r : Bool × Slot}
    (hrun : defineOwnNonIndexedPropertySlotMethod o name (createDesc val) slot throwable w = .ok r w') :
    ((w.objects o).extensible = false → throwable = false) ∧
      ((w.objects o).extensible = true → Assigns w w' o name val) := by
  have hlook : Reads P w (getOwnPropertySlot o name slot w) fun r => OwnLookup w o name slot r.1 r.2 := by
    rw [getOwnPropertySlot_of_not_index hname]
    exact reads_getOwnNonIndexedPropertySlot h ho _ slot
  unfold defineOwnNonIndexedPropertySlotMethod at hrun
  have hused : slot.isUsed = false := rfl
  simp only [hused, Bool.false_eq_true, if_false] at hrun
  obtain ⟨⟨found, slot'⟩, w₁, hown, hrun⟩ := bind_eq_ok hrun
  obtain ⟨hr, hl⟩ := Result.Sat.of_ok hlook hown
  -- the own lookup finds nothing, so that the definition is a creation
  cases hl with
  | named e v c he => rw [he] at hn; cases hn
  | special v a _ hs => exact absurd hs hlen
  | absent c =>
    have hno : ¬ (!({ slot with cacheable := c } : Slot).isNotFound &&
        decide (({ slot with cacheable := c } : Slot).base = some o)) = true := by
      intro hc
      simp only [Bool.and_eq_true, Bool.not_eq_true', decide_eq_true_eq] at hc
      rcases hslot with hs | hs
      · exact absurd (hs.symm.trans hc.1) (by decide)
      · exact hs hc.2
    rw [if_neg hno, Vm.object_bind, hr.objects] at hrun
    -- refused in silence, or the property is added
    refine ⟨fun hext => ?_, fun hext => ?_⟩
    · simp only [hext, Bool.not_false, if_true] at hrun
      cases throwable with
      | true => cases hrun
      | false => rfl
    · simp only [hext, Bool.not_true, Bool.false_eq_true, if_false] at hrun
      have hnot : name ∉ w₁.table o := by
        rw [hr.table h ho]
        exact Finmap.lookup_eq_none.mp hn
      obtain ⟨off, w₂, hadd, ha⟩ : ∃ off w₂, addProperty o name ⟨val, createData
          { writable := true, enumerable := true, configurable := true }⟩ w₁ = .ok off w₂ ∧
          Assigns w₁ w₂ o name val :=
        assigns_addProperty hr.inv (hr.nextObject ▸ ho) hnot (createData_typed _) rfl
      obtain ⟨stored, w₃, hnew, hrun⟩ := bind_eq_ok hrun
      rw [storedSlotNew_createDesc] at hnew
      cases hnew
      obtain ⟨off', w₄, hadd', hrun⟩ := bind_eq_ok hrun
      rw [hadd] at hadd'
      cases hadd'
      cases hrun
      exact ha.after_read hr h ho

theorem assigns_create (h : w.Inv P) (ho : o < w.nextObject) (hname : ∀ i, name ≠ .index i)
    (hn : (w.table o).lookup name = none)
    (hlen : ¬ (overridesLength (w.objects o).class_ ∧ name = Symbol.length)) {slot : Slot}
    (hslot : slot.isNotFound = true ∨ slot.base ≠ some o) {throwable : Bool} {r : Bool × Slot}
    (hrun : defineOwnNonIndexedPropertySlot o name (createDesc val) slot throwable w = .ok r w') :
    ((w.objects o).extensible = false → throwable = false) ∧
      ((w.objects o).extensible = true → Assigns w w' o name val) := by
  rw [defineOwnNonIndexedPropertySlot_eq fun hl => hlen ⟨by rw [hl.1]; trivial, hl.2⟩] at hrun
  split at hrun
  · rw [Exec.bind_of_ok (modifyObject_unconstructed w o)] at hrun
    have ht := h.touch_unconstructed ho
    have hslot' : slot.makeUncacheable.isNotFound = true ∨ slot.makeUncacheable.base ≠ some o := hslot
    obtain ⟨hf, ha⟩ := assigns_method_create ht.inv (ht.nextObject ▸ ho) hname
      (by rw [World.table_unconstructed, hn]) (by rw [ht.class_eq]; exact hlen) hslot' hrun
    simp only [World.object_unconstructed] at hf ha
    exact ⟨hf, fun hext => (ha hext).after_unconstructed⟩
  · exact assigns_method_create h ho hname hn hlen hslot hrun

/-! ### Writing the property -/

theorem assigns_written (h : w.Inv P) (ho : o < w.nextObject) {e : MapEntry}
    (he : (w.table o).lookup name = some e) (hd : e.attrs.data = true) :
    Assigns w (w.written o e val) o name val := by
  have hty : (StoredSlot.mk val e.attrs).attributes.Typed := h.shapes.typed (h.live ho) he
  obtain ⟨w', hrun, hst⟩ := storedAt_replaceProperty h ho he hty
  rw [replaceProperty_value h ho he] at hrun
  cases hrun
  exact ⟨hst.others, ⟨_, hst.self, hd, .inl rfl⟩, hst.class_eq⟩

theorem assigns_method_own (h : w.Inv P) (ho : o < w.nextObject) {e : MapEntry} {v : JsValue}
    (hc : CachedProperty w o name (some e.offset) e v) (hwr : e.attrs.writable = true) {slot : Slot}
    {throwable : Bool} {r : Bool × Slot}
    (hrun : defineOwnNonIndexedPropertySlotMethod o name (assignDesc val) slot throwable w = .ok r w') :
    Assigns w w' o name val := by
  obtain ⟨slot', w₁, hr, hdef⟩ := hc.define h ho hwr val slot throwable
  rw [hdef] at hrun
  split at hrun
  · next hsame =>
    obtain rfl : w₁ = w' := by cases hrun; rfl
    have hv : namedSlot (w₁.table o) (w₁.objects o) name = some ⟨v, e.attrs⟩ := by
      rw [hr.table h ho, hr.objects]
      exact namedSlot_of_lookup hc.lookup hc.slot
    exact ⟨hr.othersKept h ho name, ⟨⟨v, e.attrs⟩, hv, hc.data, .inr ⟨hsame, hc.namedValue⟩⟩,
      by rw [hr.objects]⟩
  · cases hrun
    exact (assigns_written hr.inv (hr.nextObject ▸ ho) (hr.table h ho ▸ hc.lookup) hc.data).after_read
      hr h ho

theorem assigns_own (h : w.Inv P) (ho : o < w.nextObject) {e : MapEntry} {v : JsValue}
    (hc : CachedProperty w o name (some e.offset) e v) (hwr : e.attrs.writable = true) {slot : Slot}
    {throwable : Bool} {r : Bool × Slot}
    (hrun : defineOwnNonIndexedPropertySlot o name (assignDesc val) slot throwable w = .ok r w') :
    Assigns w w' o name val := by
  rw [defineOwnNonIndexedPropertySlot_eq fun hl => hc.not_length ⟨by rw [hl.1]; trivial, hl.2⟩] at hrun
  split at hrun
  · rw [Exec.bind_of_ok (modifyObject_unconstructed w o)] at hrun
    have ht := h.touch_unconstructed ho
    have hc' : CachedProperty (w.unconstructed o) o name (some e.offset) e v :=
      ⟨hc.not_index, rfl, by rw [table_unconstructed, hc.lookup],
        by rw [object_unconstructed]; exact hc.slot, hc.data, by rw [ht.class_eq]; exact hc.not_length⟩
    exact (assigns_method_own ht.inv (ht.nextObject ▸ ho) hc' hwr hrun).after_unconstructed
  · exact assigns_method_own h ho hc hwr hrun

/-! ### Assignments -/

theorem putFrom_eq_ok {found : Bool} {slot slot' : Slot} {callee : JsValue → JsValue}
    {define : PropertyDescriptor → Slot → Vm (Bool × Slot)} {throwable : Bool}
    (hcan : canPut o found slot w = .ok true w)
    (hrun : putFrom o val throwable found slot callee define w = .ok slot' w') :
    if !slot.isNotFound && slot.base = some o && slot.attributes.data then
      ∃ b, define (assignDesc val) slot w = .ok (b, slot') w'
    else (!slot.isNotFound && slot.attributes.accessor) = false ∧
      ∃ b, define (createDesc val) slot w = .ok (b, slot') w' := by
  unfold putFrom at hrun
  rw [Exec.bind_of_ok hcan] at hrun
  simp only [Bool.not_true, Bool.false_eq_true, if_false] at hrun
  split at hrun
  · next hown =>
    rw [if_pos hown]
    obtain ⟨⟨b, s⟩, w₁, hdef, hret⟩ := bind_eq_ok hrun
    cases hret
    exact ⟨b, hdef⟩
  · next hown =>
    rw [if_neg hown]
    split at hrun
    · obtain ⟨c, w₁, -, hrun⟩ := bind_eq_ok hrun
      obtain ⟨ac, w₂, -, hrun⟩ := bind_eq_ok hrun
      cases hrun
    · next hacc =>
      obtain ⟨⟨b, s⟩, w₁, hdef, hret⟩ := bind_eq_ok hrun
      cases hret
      exact ⟨by simpa using hacc, b, hdef⟩

theorem canPut_of_strict {found : Bool} {slot slot' : Slot} {callee : JsValue → JsValue}
    {define : PropertyDescriptor → Slot → Vm (Bool × Slot)} 
    (hrun : putFrom o val true found slot callee define w = .ok slot' w') :
    canPut o found slot w = .ok true w := by
  unfold putFrom at hrun
  obtain ⟨b, w₁, hcan, hrun⟩ := bind_eq_ok hrun
  cases b with
  | false => cases hrun
  | true =>
    have hw : w₁ = w := by
      have hkeep := keeps_canPut (I := fun s => s = w) o found slot w rfl
      rwa [hcan] at hkeep
    rw [hcan, hw]

/-- **An assignment that is not refused** leaves an own data property that holds the value, and the
other properties as they were. -/
theorem assigns_putNonIndexedSlot (h : w.Inv P) (ho : o < w.nextObject) (hname : ∀ i, name ≠ .index i)
    (hlen : ¬ ((w.objects o).class_ = .array ∧ name = Symbol.length)) {throwable : Bool}
    {slot slot₁ : Slot} {w₁ : World}
    (hstrict : putNonIndexedSlot o name val Slot.new true w = .ok slot₁ w₁)
    (hrun : putNonIndexedSlot o name val Slot.new throwable w = .ok slot w') :
    ¬ (overridesLength (w.objects o).class_ ∧ name = Symbol.length) ∧ Assigns w w' o name val := by
  have hlook := reads_getPropertySlot_of_not_index h ho hname
  obtain ⟨⟨found, s⟩, w₂, hs, hstrict⟩ := bind_eq_ok hstrict
  obtain ⟨hr, hl⟩ := Result.Sat.of_ok hlook hs
  unfold putNonIndexedSlot at hrun
  rw [Exec.bind_of_ok hs] at hrun
  have hcan := canPut_of_strict hstrict
  have hstrict := putFrom_eq_ok hcan hstrict
  have hrun := putFrom_eq_ok hcan hrun
  have ho₂ : o < w₂.nextObject := hr.nextObject ▸ ho
  have hfound : s.isNotFound = false → found = true := by
    intro hn
    cases hl with
    | absent c => cases hn
    | own => rfl
    | inherited => rfl
  have hok : found = true → HasCell s.stored ∧ s.attributes.Typed := by
    rintro rfl
    exact hl.stored_ok h ho
  obtain ⟨-, hwr⟩ := Result.Sat.of_ok (reads_canPut hr.inv fun hf => (hok hf).1) hcan
  have hwr : found = true → s.attributes.accessor = false → s.attributes.writable = true := (hwr rfl).1
  split at hrun
  · next hown =>
    -- the property is the object's own
    simp only [Bool.and_eq_true, Bool.not_eq_true', decide_eq_true_eq] at hown
    obtain ⟨⟨hn, hbase⟩, hdata⟩ := hown
    obtain ⟨b, hrun⟩ := hrun
    obtain ⟨e, he, hattr, hlen'⟩ := (hl.of_base h ho hbase).resolve_right fun hl => hlen ⟨hl.1, hl.2.1⟩
    obtain ⟨v, hv⟩ : ∃ v, (w.objects o).slots[e.offset]? = some v :=
      ⟨_, List.getElem?_eq_getElem (h.offset_lt ho he)⟩
    have hc : CachedProperty w o name (some e.offset) e v :=
      ⟨hname, rfl, he, hv, hattr ▸ hdata, hlen'⟩
    have hw := hwr (hfound hn) ((hok (hfound hn)).2.not_accessor_of_data hdata)
    rw [hattr] at hw
    exact ⟨hlen', (assigns_own hr.inv ho₂ (hc.read h ho hr) hw hrun).after_read hr h ho⟩
  · next hown =>
    -- the property is created
    rw [if_neg hown] at hstrict
    obtain ⟨-, b, hstrict⟩ := hstrict
    obtain ⟨hacc, b', hrun⟩ := hrun
    have hslot : s.isNotFound = false → s.base ≠ some o ∧ s.attributes.writable = true := by
      intro hn
      have hna : s.attributes.accessor = false := by simpa [hn] using hacc
      have hd : s.attributes.data = true := by
        rw [(hok (hfound hn)).2.data_or_accessor, hna]
        rfl
      exact ⟨fun hb => hown (by simp [hn, hb, hd]), hwr (hfound hn) hna⟩
    obtain ⟨he, hlen'⟩ := hl.of_create h ho hslot
    have hbase : s.isNotFound = true ∨ s.base ≠ some o := by
      cases hn : s.isNotFound with
      | true => exact .inl rfl
      | false => exact .inr (hslot hn).1
    refine ⟨hlen', ?_⟩
    rw [← hr.table h ho] at he
    rw [← hr.objects] at hlen'
    have hext : (w₂.objects o).extensible = true := by
      by_contra hne
      exact absurd ((assigns_create hr.inv ho₂ hname he hlen' hbase hstrict).1 (by simpa using hne))
        (by decide)
    exact ((assigns_create hr.inv ho₂ hname he hlen' hbase hrun).2 hext).after_read hr h ho

/-! ### Reading the property -/

theorem getSlot_of_namedSlot (h : w.Inv P) (ho : o < w.nextObject) (hname : ∀ i, name ≠ .index i)
    (hlen : ¬ (overridesLength (w.objects o).class_ ∧ name = Symbol.length)) {s : StoredSlot}
    (hs : namedSlot (w.table o) (w.objects o) name = some s) (hd : s.attributes.data = true)
    {strict : ℕ → Bool} (hcaller : ¬ StrictCaller w o name strict s.value) :
    ∃ w', getSlot o name strict Slot.new w = .ok s.value w' := by
  obtain ⟨e, he, hs⟩ := Option.bind_eq_some_iff.mp hs
  obtain ⟨v, hv, rfl⟩ := Option.map_eq_some_iff.mp hs
  have hc : CachedProperty w o name (some e.offset) e v := ⟨hname, rfl, he, hv, hd, hlen⟩
  obtain ⟨c, w₁, hr, hlook⟩ := hc.getProperty h ho Slot.new
  have hna := (hc.typed h ho).not_accessor_of_data hd
  refine ⟨w₁, getSlot_of_found hlook hna fun hs => hcaller ?_⟩
  unfold StrictCaller at hs ⊢
  rwa [hr.objects] at hs

theorem eq_object_of_denote {v : JsValue} {f : ℕ} (h : v.denote = (JsValue.object f).denote) :
    v = .object f := by
  cases v <;> simp_all [JsValue.denote]

/-- **Put, then get.** An assignment to a named property that a strict put accepts and that calls no
setter can be read back: the value is the one assigned, up to its encoding, and nothing else of the
object has changed. Assigning the length of an array is a different operation, and a strict function is
not handed out under `caller`. -/
theorem put_get (h : Reachable (fun w op => op.KeepsSlots w) w) (ho : o < w.nextObject)
    (hname : ∀ i, name ≠ .index i) (throwable : Bool) (strict : ℕ → Bool) {w₁ : World}
    (hstrict : put o name val true w = .ok () w₁) (hput : put o name val throwable w = .ok () w')
    (hlen : ¬ ((w.objects o).class_ = .array ∧ name = Symbol.length))
    (hzero : ¬ LosesZeroSign w o name val) (hcaller : ¬ StrictCaller w' o name strict val) :
    (∃ v w'', getSlot o name strict Slot.new w' = .ok v w'' ∧ v.denote = val.denote) ∧
      OthersKept w w' o name := by
  have hinv := h.layout_inv
  have hguard : Guards layoutPolicy False o w (put o name val throwable w) fun _ _ => True :=
    guards_put hinv ho throwable trivial trivial
  have ht := (Result.Sat.of_ok hguard hput).1.toTouch
  have hslot : ∀ {throwable : Bool} {w'' : World}, put o name val throwable w = .ok () w'' →
      ∃ slot, putNonIndexedSlot o name val Slot.new throwable w = .ok slot w'' := by
    intro throwable w'' hrun
    obtain ⟨slot, w₃, hrun, hret⟩ := bind_eq_ok hrun
    cases hret
    cases name with
    | index i => exact absurd rfl (hname i)
    | key t => exact ⟨slot, hrun⟩
    | priv t => exact ⟨slot, hrun⟩
  obtain ⟨slot₁, hstrict⟩ := hslot hstrict
  obtain ⟨slot, hput⟩ := hslot hput
  obtain ⟨hlen, ha⟩ := assigns_putNonIndexedSlot hinv ho hname hlen hstrict hput
  obtain ⟨s, hs, hd, hval⟩ := ha.holds
  -- a value that counts as the same was not written; then only the sign of a zero can differ
  have hden : s.value.denote = val.denote := by
    rcases hval with hval | ⟨hsame, hold⟩
    · rw [hval]
    · by_contra hne
      rcases JsValue.sameValue_iff.mp hsame with heq | ⟨hz, hz'⟩
      · exact hne heq.symm
      · exact hzero ⟨s.value, hold, hz, hz', Ne.symm hne⟩
  have hcaller : ¬ StrictCaller w' o name strict s.value := by
    rintro ⟨hf, hn, f, hv, hcall⟩
    exact hcaller ⟨hf, hn, f, eq_object_of_denote (by rw [← hden, hv]), hcall⟩
  obtain ⟨w'', hget⟩ := getSlot_of_namedSlot ht.inv (ht.nextObject ▸ ho) hname
    (by rwa [ha.class_eq]) hs hd hcaller
  exact ⟨⟨s.value, w'', hget, hden⟩, ha.others⟩

/-- The object after its property was set to a number. -/
def numberWorld : World := objectWorld.after (.on 0 (.put (.key "x") (.int32 1) true))

theorem put_get_objectWorld :
    (∃ v w'', getSlot 0 (.key "x") (fun _ => false) Slot.new numberWorld = .ok v w'' ∧
      v.denote = (JsValue.int32 1).denote) ∧ OthersKept objectWorld numberWorld 0 (.key "x") := by
  have hreach : Reachable (fun w op => op.KeepsSlots w) objectWorld :=
    reachable_objectWorld.mono fun _ _ h => h.1
  have hput : put 0 (.key "x") (.int32 1) true objectWorld = .ok () numberWorld := rfl
  have hnone : namedValue objectWorld 0 (.key "x") = none := by decide
  refine put_get hreach (by decide) (by simp) true (fun _ => false) hput hput (by decide) ?_ ?_
  · rintro ⟨v, hv, -⟩
    rw [hnone] at hv
    cases hv
  · rintro ⟨hf, -⟩
    exact absurd hf (by decide)

def arrayWorld : World :=
  ((World.init ⟨fun _ => [], fun _ => []⟩).after (.newStructure none false)).after
    (.newObject 0 .array)

theorem reachable_arrayWorld : Reachable (fun w op => op.KeepsSlots w) arrayWorld := by
  have h₀ : Reachable (fun w op => op.KeepsSlots w) (World.init ⟨fun _ => [], fun _ => []⟩) :=
    ⟨_, .refl⟩
  have h₁ := h₀.step (.newStructure none false) (fun _ hp => by cases hp) trivial rfl
  exact h₁.step (.newObject 0 .array) (show 0 < 1 by decide) (show _ = true from rfl) rfl

/-- The length of an array that `true` was assigned to is `1`. -/
theorem not_put_get :
    ¬ ∀ w, Reachable (fun w op => op.KeepsSlots w) w → ∀ o, o < w.nextObject →
      ∀ name : Symbol, (∀ i, name ≠ .index i) → ∀ val w', put o name val true w = .ok () w' →
        (∃ v w'', getSlot o name (fun _ => false) Slot.new w' = .ok v w'' ∧
          v.denote = val.denote) ∧ OthersKept w w' o name := by
  intro h
  obtain ⟨⟨v, w'', hget, hv⟩, -⟩ := h arrayWorld reachable_arrayWorld 0 (by decide) Symbol.length
    (by simp [Symbol.length]) (.bool true) _ rfl
  cases hget
  exact absurd hv (by decide)

end Starlight
