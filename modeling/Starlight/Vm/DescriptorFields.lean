import Starlight.Vm.Descriptors

/-!
# The fields of descriptor objects

`object_get_own_property_descriptor` makes a plain object with one field for everything that is to be
said of the property. As long as plain objects inherit none of the fields that the other kind of
property has, `to_property_descriptor` reads from it the descriptor it was made from.
-/

namespace Starlight

open JsObject World Exec

variable {P : Policy} {w w' : World} {o b : ℕ} {n name : Symbol} {d : PropertyDescriptor}

/-! ### The fields of a descriptor -/

namespace PropertyDescriptor

/-- A descriptor as `to_descriptor` makes it, with all that is to be said of a property of its kind. -/
inductive Whole : PropertyDescriptor → Prop
  | data {v : JsValue} {a : AttrSafe} (ht : a.Typed) (hd : a.data = true) :
      Whole (.dataDescriptor v a.toExternal)
  | accessor {g s : JsValue} {a : AttrSafe} (ht : a.Typed) (ha : a.accessor = true) :
      Whole (.accessorDescriptor g s a.toExternal)

def field (d : PropertyDescriptor) (n : Symbol) : Option JsValue :=
  if n = .key "configurable" then some (.bool d.attrs.configurable)
  else if n = .key "enumerable" then some (.bool d.attrs.enumerable)
  else if d.attrs.data then
    if n = .key "value" then some d.fst
    else if n = .key "writable" then some (.bool d.attrs.writable)
    else none
  else
    if n = .key "get" then some d.fst
    else if n = .key "set" then some d.snd
    else none

end PropertyDescriptor

/-- The names that `to_property_descriptor` asks for. -/
def fieldNames : List Symbol :=
  [.key "enumerable", .key "configurable", .key "value", .key "writable", .key "get", .key "set"]

theorem ne_index_of_mem_fieldNames (h : n ∈ fieldNames) (i : ℕ) : n ≠ .index i := by
  rintro rfl
  simp [fieldNames] at h

theorem toPropertyDescriptor_field (h : d.Whole) :
    toPropertyDescriptor (d.field (.key "value")) ((d.field (.key "writable")).map JsValue.toBoolean)
      (d.field (.key "get")) (d.field (.key "set"))
      ((d.field (.key "enumerable")).map JsValue.toBoolean)
      ((d.field (.key "configurable")).map JsValue.toBoolean) = some d := by
  cases h with
  | data ht hd =>
    have hna := ht.not_accessor_of_data hd
    simp [PropertyDescriptor.field, PropertyDescriptor.dataDescriptor, toPropertyDescriptor,
      JsValue.toBoolean, JsValue.isNumber, AttrSafe.toExternal, hd, hna]
  | @accessor g s a ht ha =>
    have hd : a.data = false := by rw [ht.data_or_accessor, ha, Bool.not_true]
    have hw := ht.not_writable ha
    simp [PropertyDescriptor.field, PropertyDescriptor.accessorDescriptor, toPropertyDescriptor,
      JsValue.toBoolean, JsValue.isNumber, AttrSafe.toExternal, hd, ha, hw]

/-! ### Making a property -/

theorem defineOwnNonIndexedPropertySlotMethod_new (h : w.Inv P) (ho : o < w.nextObject)
    (hname : ∀ i, name ≠ .index i) (hs : ¬ (overridesLength (w.objects o).class_ ∧ name = Symbol.length))
    (hext : (w.objects o).extensible = true) (hn : namedSlot (w.table o) (w.objects o) name = none)
    (desc : PropertyDescriptor) (slot : Slot) (hslot : slot.isNotFound = true) (throwable : Bool) :
    ∃ w₁, ∃ slot' : Slot, Read P w w₁ ∧ defineOwnNonIndexedPropertySlotMethod o name desc slot throwable w =
      (StoredSlot.new desc >>= fun s => addProperty o name s >>= fun offset =>
        pure (true, { slot'.markPutResult .new offset with base := some o })) w₁ := by
  obtain ⟨slot', w₁, hown⟩ := getOwnNonIndexedPropertySlot_of_absent h ho
    (lookup_of_namedSlot_none h ho hn) hs slot
  obtain ⟨hr, hl⟩ := Result.Sat.of_ok (reads_getOwnNonIndexedPropertySlot h ho name slot) hown
  have hfound : (!slot'.isNotFound && decide (slot'.base = some o)) = false := by
    cases hl with
    | absent c =>
      have hnot : ({ slot with cacheable := c } : Slot).isNotFound = true := hslot
      rw [hnot]
      rfl
  refine ⟨w₁, slot', hr, ?_⟩
  unfold defineOwnNonIndexedPropertySlotMethod
  have hused : slot.isUsed = false := rfl
  rw [hused, if_neg Bool.false_ne_true, getOwnPropertySlot_of_not_index hname, Exec.bind_of_ok hown]
  dsimp only
  rw [hfound, if_neg Bool.false_ne_true, Vm.object_bind, hr.objects, hext, Bool.not_true,
    if_neg Bool.false_ne_true]

theorem defineOwnProperty_new (h : w.Inv P) (ho : o < w.nextObject) (hname : ∀ i, name ≠ .index i)
    (hc : (w.objects o).class_ = .object) (hext : (w.objects o).extensible = true)
    (hn : namedSlot (w.table o) (w.objects o) name = none) (desc : PropertyDescriptor)
    (throwable : Bool) : ∃ w₁, Read P w w₁ ∧ defineOwnProperty o name desc throwable w =
      (StoredSlot.new desc >>= fun s => addProperty o name s >>= fun _ => (pure true : Vm Bool)) w₁ := by
  have hs : ¬ (overridesLength (w.objects o).class_ ∧ name = Symbol.length) := by
    rw [hc]
    exact fun hl => hl.1
  obtain ⟨w₁, slot, hr, hmethod⟩ :=
    defineOwnNonIndexedPropertySlotMethod_new h ho hname hs hext hn desc Slot.new rfl throwable
  refine ⟨w₁, hr, ?_⟩
  have hmethod : defineOwnPropertySlot o name desc Slot.new throwable w =
      (StoredSlot.new desc >>= fun s => addProperty o name s >>= fun offset =>
        pure (true, { slot.markPutResult .new offset with base := some o })) w₁ := by
    rw [defineOwnPropertySlot_of_not_index hname,
      defineOwnNonIndexedPropertySlot_eq (by simp [hc]), if_neg (by simp [hc]), hmethod]
  unfold defineOwnProperty
  rw [Exec.bind_apply, hmethod]
  simp only [Exec.bind_apply]
  cases StoredSlot.new desc w₁ with
  | ok s w₂ =>
    dsimp only
    cases addProperty o name s w₂ <;> rfl
  | error e w₂ => rfl
  | stuck => rfl
  | diverge => rfl

theorem addProperty_ok (h : w.Inv P) (ho : o < w.nextObject)
    (hn : namedSlot (w.table o) (w.objects o) name = none) {stored : StoredSlot}
    (hty : stored.attributes.Typed) : ∃ off w', addProperty o name stored w = .ok off w' ∧
      StoredAt w w' o name stored ∧ (w'.objects o).extensible = (w.objects o).extensible ∧
      w'.prototype o = w.prototype o := by
  have hnot : name ∉ w.table o := Finmap.lookup_eq_none.mp (lookup_of_namedSlot_none h ho hn)
  obtain ⟨off, w', hrun, hst⟩ := storedAt_addProperty h ho hnot hty
  refine ⟨off, w', hrun, hst, ?_⟩
  have hadd := h.shapes.addPropertyTransition (h.live ho) hnot hty
  rcases heq : w.shapes.addPropertyTransition (w.objects o).structure_ name stored.attributes with
    ⟨s, off', σ⟩
  rw [heq] at hadd
  obtain ⟨ht, hview, hproto, -⟩ := hadd
  dsimp only at ht hview hproto
  have hoff : off' < σ.storageCapacity s := by
    have hself : (σ.view s).lookup name = some ⟨off', stored.attributes⟩ := by
      rw [hview, Finmap.lookup_insert]
    have hlt := (ht.inv.layout ht.live).lt hself
    have := ht.inv.getSlotsSize_eq ht.live
    have := Shapes.getSlotsSize_le_storageCapacity σ s
    dsimp only at hlt
    omega
  rw [addProperty_eq w o name stored heq hoff] at hrun
  cases hrun
  refine ⟨by simp [World.stored], ?_⟩
  rw [World.prototype, World.prototype, ← hproto]
  simp [World.stored]

/-! ### Making the object -/

theorem World.Read.grow (hr : Read P w w') (h : w.Inv P) : Grow P w w' where
  inv := hr.inv
  nextObject_le := hr.nextObject.ge
  nextAccessor_le := hr.nextAccessor.ge
  nextStructure_le := hr.nextStructure.ge
  class_eq b _ := by rw [hr.objects]
  frame b hb := ⟨by rw [hr.objects], hr.shape _ (h.live hb).1, fun l c _ => by rw [hr.accessors]⟩
  stable := (hr.touch h 0).stable

def fieldAttrs : AttrSafe := createData { writable := true, configurable := true }

/-- Object `b` is a plain object with the prototype `p`, takes new properties and has the fields `f`. -/
structure Made (w : World) (b : ℕ) (p : Option ℕ) (f : Symbol → Option JsValue) : Prop where
  lt : b < w.nextObject
  class_eq : (w.objects b).class_ = .object
  extensible : (w.objects b).extensible = true
  prototype : w.prototype b = p
  slots : ∀ n, namedSlot (w.table b) (w.objects b) n = (f n).map fun v => ⟨v, fieldAttrs⟩

variable {p : Option ℕ} {f : Symbol → Option JsValue}

theorem World.Read.made (hr : Read P w w') (h : w.Inv P) (hm : Made w b p f) : Made w' b p f where
  lt := hr.nextObject ▸ hm.lt
  class_eq := by rw [hr.objects, hm.class_eq]
  extensible := by rw [hr.objects, hm.extensible]
  prototype := (hr.prototype h hm.lt).trans hm.prototype
  slots n := by rw [hr.table h hm.lt, hr.objects, hm.slots]

theorem made_new (h : w.Inv layoutPolicy) {s : ℕ} (hlt : s < w.shapes.nextStructure)
    (hsh : w.shapes.Shared s) (hview : w.shapes.view s = ∅) : ∃ w', newEmpty s w =
      .ok w.nextObject w' ∧ Grow layoutPolicy w w' ∧
      Made w' w.nextObject (w.shapes.structures s).prototype (fun _ => none) ∧
      (w'.objects w.nextObject).indexed = .new := by
  have hg : Grows layoutPolicy w (JsObject.new s .object w) fun o w' =>
      o = w.nextObject ∧ w'.nextObject = o + 1 ∧ (w'.objects o).class_ = .object :=
    grows_newObject h trivial hlt hsh fun hc => hc.elim
  refine ⟨_, rfl, (Result.Sat.of_ok hg rfl).1, ⟨Nat.lt_succ_self _, ?_, ?_, ?_, fun n => ?_⟩, ?_⟩
  · simp
  · simp
  · simp [World.prototype]
  · simp [World.table, hview, namedSlot]
  · simp

/-- **The step lemma of the fields**: each is a new property of the object. -/
theorem made_setField (h : w.Inv layoutPolicy) (hm : Made w b p f) (hname : ∀ i, n ≠ .index i)
    (hn : f n = none) (v : JsValue) : ∃ w', setField b n v w = .ok () w' ∧
      Touch layoutPolicy b w w' ∧ Made w' b p (Function.update f n (some v)) := by
  set desc := PropertyDescriptor.dataDescriptor v { writable := true, configurable := true } with hdesc
  have hnone : namedSlot (w.table b) (w.objects b) n = none := by rw [hm.slots, hn, Option.map_none]
  obtain ⟨w₁, hr, hdef⟩ := defineOwnProperty_new h hm.lt hname hm.class_eq hm.extensible hnone desc false
  have hm₁ := hr.made h hm
  have hnew : StoredSlot.new desc w₁ = .ok ⟨v, fieldAttrs⟩ w₁ := rfl
  obtain ⟨off, w', hadd, hst, hext, hproto⟩ : ∃ off w', addProperty b n ⟨v, fieldAttrs⟩ w₁ =
      .ok off w' ∧ StoredAt w₁ w' b n ⟨v, fieldAttrs⟩ ∧
      (w'.objects b).extensible = (w₁.objects b).extensible ∧ w'.prototype b = w₁.prototype b :=
    addProperty_ok hr.inv hm₁.lt (by rw [hm₁.slots, hn, Option.map_none]) (createData_typed _)
  rw [Exec.bind_of_ok hnew, Exec.bind_of_ok hadd] at hdef
  have hguard : Guards layoutPolicy False b w (defineOwnProperty b n desc false w) fun _ _ => True :=
    guards_defineOwnProperty h hm.lt false trivial (.inr (.inr
      ⟨by rw [hm.class_eq]; exact fun hl => hl.1, fun _ _ => trivial,
        fun _ _ _ _ _ _ _ => trivial⟩)) False.elim
  have ht := (Result.Sat.of_ok hguard hdef).1.toTouch
  refine ⟨w', Exec.bind_of_ok hdef _, ht, ht.nextObject ▸ hm.lt, ?_, ?_, ?_, fun m => ?_⟩
  · rw [hst.class_eq, hm₁.class_eq]
  · rw [hext, hm₁.extensible]
  · rw [hproto, hm₁.prototype]
  · by_cases hmn : m = n
    · subst hmn
      rw [hst.self, Function.update_self, Option.map_some]
    · rw [hst.others.named m hmn, hm₁.slots, Function.update_of_ne hmn]

theorem objectGetOwnPropertyDescriptor_ok (h : w.Inv layoutPolicy) (ho : o < w.nextObject) {s : ℕ}
    (hlt : s < w.shapes.nextStructure) (hsh : w.shapes.Shared s) (hview : w.shapes.view s = ∅)
    (hd : getOwnProperty o n w = .ok (some d) w') : ∃ w₁,
      objectGetOwnPropertyDescriptor s (.object o) n w = .ok (.object w.nextObject) w₁ ∧
      Grow layoutPolicy w w₁ ∧ Made w₁ w.nextObject (w.shapes.structures s).prototype d.field := by
  have hr := (Result.Sat.of_ok (reads_getOwnProperty h ho n) hd).1
  obtain ⟨w₁, hnew, hg₁, hm₁, -⟩ := made_new hr.inv (hr.nextStructure ▸ hlt)
    ((hr.shape s hlt).shared.mpr hsh) ((hr.shape s hlt).view.trans hview)
  rw [hr.nextObject, (hr.shape s hlt).prototype] at hm₁
  rw [hr.nextObject] at hnew
  -- two fields that all properties have, and two of the kind
  obtain ⟨w₂, hset₂, ht₂, hm₂⟩ := made_setField hg₁.inv hm₁ (n := .key "configurable") (by simp) rfl
    (.bool d.attrs.configurable)
  obtain ⟨w₃, hset₃, ht₃, hm₃⟩ := made_setField ht₂.inv hm₂ (n := .key "enumerable") (by simp) (by simp)
    (.bool d.attrs.enumerable)
  have hg₃ : Grow layoutPolicy w w₃ :=
    ((hr.grow h).trans hg₁).touch (ht₂.trans ht₃) le_rfl
  have hget : getOwnProperty o n w = .ok (some d) w' := hd
  unfold objectGetOwnPropertyDescriptor
  simp only
  rw [Exec.bind_of_ok hget]
  simp only
  rw [Exec.bind_of_ok hnew, Exec.bind_of_ok hset₂, Exec.bind_of_ok hset₃]
  cases hdata : d.attrs.data with
  | true =>
    obtain ⟨w₄, hset₄, ht₄, hm₄⟩ := made_setField ht₃.inv hm₃ (n := .key "value") (by simp) (by simp)
      d.fst
    obtain ⟨w₅, hset₅, ht₅, hm₅⟩ := made_setField ht₄.inv hm₄ (n := .key "writable") (by simp) (by simp)
      (.bool d.attrs.writable)
    refine ⟨w₅, ?_, hg₃.touch (ht₄.trans ht₅) le_rfl, ?_⟩
    · rw [if_pos rfl, Exec.bind_of_ok hset₄, Exec.bind_of_ok hset₅]
      rfl
    · convert hm₅ using 1
      funext m
      simp only [PropertyDescriptor.field, hdata, if_true, Function.update_apply]
      split_ifs <;> simp_all
  | false =>
    obtain ⟨w₄, hset₄, ht₄, hm₄⟩ := made_setField ht₃.inv hm₃ (n := .key "get") (by simp) (by simp)
      d.fst
    obtain ⟨w₅, hset₅, ht₅, hm₅⟩ := made_setField ht₄.inv hm₄ (n := .key "set") (by simp) (by simp)
      d.snd
    refine ⟨w₅, ?_, hg₃.touch (ht₄.trans ht₅) le_rfl, ?_⟩
    · rw [if_neg Bool.false_ne_true, Exec.bind_of_ok hset₄, Exec.bind_of_ok hset₅]
      rfl
    · convert hm₅ using 1
      funext m
      simp only [PropertyDescriptor.field, hdata, Bool.false_eq_true, if_false, Function.update_apply]
      split_ifs <;> simp_all

/-! ### Reading the object -/

/-- The plain object `b` has the fields `f` and, of those that are asked for, no others. -/
structure Answers (w : World) (b : ℕ) (f : Symbol → Option JsValue) : Prop where
  lt : b < w.nextObject
  class_eq : (w.objects b).class_ = .object
  chain : ∃ l, w.Chain b l
  present : ∀ n v, f n = some v → namedSlot (w.table b) (w.objects b) n = some ⟨v, fieldAttrs⟩
  absent : ∀ n, n ∈ fieldNames → f n = none → ¬ HasName w b n

theorem World.Read.answers (hr : Read layoutPolicy w w') (h : w.Inv layoutPolicy) (ha : Answers w b f) :
    Answers w' b f where
  lt := hr.nextObject ▸ ha.lt
  class_eq := by rw [hr.objects, ha.class_eq]
  chain := ha.chain.imp fun _ hl => (World.Chain.read hr h ha.lt).mpr hl
  present n v hv := by rw [hr.table h ha.lt, hr.objects, ha.present n v hv]
  absent n hn hf := by
    rw [hr.hasName h ha.lt (ne_index_of_mem_fieldNames hn)]
    exact ha.absent n hn hf

variable (call : JsValue → JsValue → Vm JsValue) (strict : ℕ → Bool)

/-- **The step lemma of the reading**: what is read is the field, and nothing else happens. -/
theorem readField_answers (h : w.Inv layoutPolicy) (ha : Answers w b f) (hn : n ∈ fieldNames) :
    ∃ w', readField call strict b n w = .ok (f n) w' ∧ Read layoutPolicy w w' := by
  have hname := ne_index_of_mem_fieldNames hn
  obtain ⟨l, hl⟩ := ha.chain
  obtain ⟨found, w₁, hrun, hr, hfound⟩ := hasProperty_ok hl h ha.lt hname
  have ha₁ := hr.answers h ha
  have hlen : ¬ (overridesLength (w.objects b).class_ ∧ n = Symbol.length) := by
    rw [ha.class_eq]
    exact fun hc => hc.1
  unfold readField
  rw [Exec.bind_of_ok hrun]
  cases hf : f n with
  | none =>
    obtain rfl : found = false := Bool.eq_false_iff.mpr fun hc => ha.absent n hn hf (hfound.mp hc)
    exact ⟨w₁, rfl, hr⟩
  | some v =>
    have hs := ha.present n v hf
    have howns : Owns w b n := (owns_iff_of_not_index h ha.lt hname).mpr (.inr (by
      obtain ⟨e, he, -⟩ := Option.bind_eq_some_iff.mp hs
      exact Finmap.mem_of_lookup_eq_some he))
    obtain rfl : found = true := hfound.mpr (.own howns)
    have hcaller : ¬ StrictCaller w₁ b n strict v := by
      rintro ⟨hc, -⟩
      rw [ha₁.class_eq] at hc
      cases hc
    obtain ⟨w₂, hget⟩ : ∃ w₂, getSlot b n strict Slot.new w₁ = .ok v w₂ :=
      getSlot_of_namedSlot (s := ⟨v, fieldAttrs⟩) hr.inv ha₁.lt hname
        (by rw [hr.objects]; exact hlen) (ha₁.present n v hf) rfl hcaller
    have hr₂ := (Result.Sat.of_ok (reads_getSlot hr.inv ha₁.lt n strict) hget).1
    have hcall : getCalling call strict b n w₁ = .ok v w₂ := by
      unfold getCalling
      rw [hget]
    rw [if_pos rfl, Exec.bind_of_ok hcall]
    exact ⟨w₂, rfl, hr.trans hr₂⟩

def IsFunction (w : World) (v : JsValue) : Prop :=
  v = .undefined ∨ ∃ g, v = .object g ∧ g < w.nextObject ∧ (w.objects g).callable = true

theorem readFunction_answers (h : w.Inv layoutPolicy) (ha : Answers w b f) (hn : n ∈ fieldNames)
    (hf : ∀ v, f n = some v → IsFunction w v) (msg : String) :
    ∃ w', readFunction call strict b n msg w = .ok (f n) w' ∧ Read layoutPolicy w w' := by
  obtain ⟨w₁, hrun, hr⟩ := readField_answers call strict h ha hn
  refine ⟨w₁, ?_, hr⟩
  unfold readFunction
  rw [Exec.bind_of_ok hrun]
  cases hv : f n with
  | none => rfl
  | some v =>
    rcases hf v hv with rfl | ⟨g, rfl, -, hg⟩
    · rfl
    · have hcall : Vm.isCallable (.object g) w₁ = .ok true w₁ := by
        rw [← hg, ← hr.objects]
        rfl
      dsimp only
      rw [Exec.bind_of_ok hcall]
      rfl

theorem World.Read.isFunction (hr : Read P w w') {v : JsValue} (hv : IsFunction w v) :
    IsFunction w' v := by
  rcases hv with hv | ⟨g, hv, hlt, hg⟩
  · exact .inl hv
  · exact .inr ⟨g, hv, hr.nextObject ▸ hlt, by rw [hr.objects, hg]⟩

/-- What an accessor property has of functions is `undefined` or callable. -/
def Functions (w : World) (d : PropertyDescriptor) : Prop :=
  d.attrs.data = false → IsFunction w d.fst ∧ IsFunction w d.snd

theorem World.Read.functions (hr : Read P w w') (hf : Functions w d) : Functions w' d :=
  fun hd => ⟨hr.isFunction (hf hd).1, hr.isFunction (hf hd).2⟩

theorem Functions.field (hf : Functions w d) {v : JsValue}
    (hn : n = .key "get" ∨ n = .key "set") (hv : d.field n = some v) : IsFunction w v := by
  unfold PropertyDescriptor.field at hv
  cases hd : d.attrs.data with
  | true => rcases hn with rfl | rfl <;> simp [hd] at hv
  | false =>
    rcases hn with rfl | rfl
    · obtain rfl : d.fst = v := by simpa [hd] using hv
      exact (hf hd).1
    · obtain rfl : d.snd = v := by simpa [hd] using hv
      exact (hf hd).2

theorem toPropertyDescriptorOf_answers (h : w.Inv layoutPolicy) (ha : Answers w b d.field)
    (hd : d.Whole) (hf : Functions w d) : ∃ w',
      toPropertyDescriptorOf call strict (.object b) w = .ok d w' ∧ Read layoutPolicy w w' := by
  obtain ⟨w₁, he, r₁⟩ := readField_answers call strict (n := .key "enumerable") h ha
    (by simp [fieldNames])
  have ha₁ := r₁.answers h ha
  obtain ⟨w₂, hc, r₂⟩ := readField_answers call strict (n := .key "configurable")
    r₁.inv ha₁ (by simp [fieldNames])
  have ha₂ := r₂.answers r₁.inv ha₁
  obtain ⟨w₃, hv, r₃⟩ := readField_answers call strict (n := .key "value")
    r₂.inv ha₂ (by simp [fieldNames])
  have ha₃ := r₃.answers r₂.inv ha₂
  obtain ⟨w₄, hw, r₄⟩ := readField_answers call strict (n := .key "writable")
    r₃.inv ha₃ (by simp [fieldNames])
  have ha₄ := r₄.answers r₃.inv ha₃
  have r := r₁.trans (r₂.trans (r₃.trans r₄))
  have hf₄ := r.functions hf
  obtain ⟨w₅, hg, r₅⟩ := readFunction_answers call strict (n := .key "get")
    r₄.inv ha₄ (by simp [fieldNames]) (fun _ => hf₄.field (.inl rfl)) "property 'get' is not callable"
  have ha₅ := r₅.answers r₄.inv ha₄
  obtain ⟨w₆, hs, r₆⟩ := readFunction_answers call strict (n := .key "set")
    r₅.inv ha₅ (by simp [fieldNames]) (fun _ => (r₅.functions hf₄).field (.inr rfl))
    "property 'set' is not callable"
  refine ⟨w₆, ?_, r.trans (r₅.trans r₆)⟩
  unfold toPropertyDescriptorOf
  dsimp only
  rw [Exec.bind_of_ok he, Exec.bind_of_ok hc, Exec.bind_of_ok hv, Exec.bind_of_ok hw,
    Exec.bind_of_ok hg, Exec.bind_of_ok hs, toPropertyDescriptor_field hd]
  rfl

/-! ### What plain objects inherit -/

/-- Plain objects inherit none of the fields that a descriptor object of the other kind has; their
prototypes come to an end. -/
def Unpolluted (w : World) (s : ℕ) (d : PropertyDescriptor) : Prop :=
  ∀ p, (w.shapes.structures s).prototype = some p →
    (∃ l, w.Chain p l) ∧ ∀ n ∈ fieldNames, d.field n = none → ¬ HasName w p n

theorem World.Chain.grow (hg : Grow P w w') (h : w.Inv P) {l : List ℕ} (hl : w.Chain o l)
    (ho : o < w.nextObject) : w'.Chain o l := by
  induction hl with
  | last hp => exact .last ((hg.frame _ ho).prototype_eq.trans hp)
  | cons hp _ ih => exact .cons ((hg.frame _ ho).prototype_eq.trans hp) (ih (h.prototype_lt ho hp))

theorem HasName.of_grow (hg : Grow layoutPolicy w w') (h : w.Inv layoutPolicy)
    (hname : ∀ i, n ≠ .index i) (hn : HasName w' o n) (ho : o < w.nextObject) : HasName w o n := by
  induction hn with
  | @own o n hown =>
    have hs := hg.frame o ho
    rw [owns_iff_of_not_index hg.inv (lt_of_lt_of_le ho hg.nextObject_le) hname, hs.object, hs.table,
      ← owns_iff_of_not_index h ho hname] at hown
    exact .own hown
  | inherited hp _ ih =>
    rw [(hg.frame _ ho).prototype_eq] at hp
    exact .inherited hp (ih hname (h.prototype_lt ho hp))

theorem Made.answers (hm : Made w' b p d.field) (h : w.Inv layoutPolicy)
    (hg : Grow layoutPolicy w w') (hp : ∀ q, p = some q → q < w.nextObject ∧ (∃ l, w.Chain q l) ∧
      ∀ n ∈ fieldNames, d.field n = none → ¬ HasName w q n) : Answers w' b d.field where
  lt := hm.lt
  class_eq := hm.class_eq
  chain := by
    cases hpp : p with
    | none => exact ⟨_, .last (hm.prototype.trans hpp)⟩
    | some q =>
      obtain ⟨hlt, ⟨l, hl⟩, -⟩ := hp q hpp
      exact ⟨_, .cons (hm.prototype.trans hpp) (hl.grow hg h hlt)⟩
  present n v hv := by rw [hm.slots, hv, Option.map_some]
  absent n hn hf hc := by
    have hname := ne_index_of_mem_fieldNames hn
    cases hc with
    | own hown =>
      rw [owns_iff_of_not_index hg.inv hm.lt hname, hm.class_eq] at hown
      rcases hown with hown | hown
      · exact hown.1
      · have hnone := (hm.slots n).trans (by rw [hf, Option.map_none])
        exact Finmap.lookup_eq_none.mp (lookup_of_namedSlot_none hg.inv hm.lt hnone) hown
    | inherited hq hn' =>
      obtain ⟨hlt, -, hno⟩ := hp _ (hm.prototype.symm.trans hq)
      exact hno n hn hf (hn'.of_grow hg h hname hlt)

end Starlight
