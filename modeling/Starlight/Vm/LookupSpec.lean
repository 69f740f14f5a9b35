import Starlight.Vm.WorldInvariant

/-!
# What lookups return

A lookup may build property tables and allocate strings, but nothing observable changes: `World.Read`
is that frame. `OwnLookup` and `ChainLookup` say what the own lookup and the walk along the prototype
chain find, in terms of the property tables of the objects.
-/

namespace Starlight

open JsObject

/-! ### Names that are no indices -/

section NotIndex

variable {o : ℕ} {name : Symbol}

theorem getOwnPropertySlot_of_not_index (hname : ∀ i, name ≠ .index i) (slot : Slot) :
    getOwnPropertySlot o name slot = getOwnNonIndexedPropertySlot o name slot := by
  cases name with
  | index i => exact absurd rfl (hname i)
  | key t => rfl
  | priv t => rfl

theorem getPropertySlot_of_not_index (hname : ∀ i, name ≠ .index i) (slot : Slot) :
    getPropertySlot o name slot = getNonIndexedPropertySlot o name slot := by
  cases name with
  | index i => exact absurd rfl (hname i)
  | key t => rfl
  | priv t => rfl

theorem defineOwnPropertySlot_of_not_index (hname : ∀ i, name ≠ .index i)
    (desc : PropertyDescriptor) (slot : Slot) (throwable : Bool) :
    defineOwnPropertySlot o name desc slot throwable =
      defineOwnNonIndexedPropertySlot o name desc slot throwable := by
  cases name with
  | index i => exact absurd rfl (hname i)
  | key t => rfl
  | priv t => rfl

end NotIndex

namespace World

/-- Nothing observable happened between `w` and `w'`. -/
structure Read (P : Policy) (w w' : World) : Prop where
  inv : w'.Inv P
  objects : w'.objects = w.objects
  accessors : w'.accessors = w.accessors
  nextObject : w'.nextObject = w.nextObject
  nextAccessor : w'.nextAccessor = w.nextAccessor
  nextStructure : w'.shapes.nextStructure = w.shapes.nextStructure
  shape : ∀ r, r < w.shapes.nextStructure → w.shapes.SameShape w'.shapes r

variable {P : Policy} {w w' w'' : World} {o : ℕ}

theorem Inv.read_refl (h : w.Inv P) : Read P w w :=
  ⟨h, rfl, rfl, rfl, rfl, rfl, fun r _ => Shapes.SameShape.refl _ r⟩

theorem Read.trans (h : Read P w w') (h' : Read P w' w'') : Read P w w'' where
  inv := h'.inv
  objects := h'.objects.trans h.objects
  accessors := h'.accessors.trans h.accessors
  nextObject := h'.nextObject.trans h.nextObject
  nextAccessor := h'.nextAccessor.trans h.nextAccessor
  nextStructure := h'.nextStructure.trans h.nextStructure
  shape r hr := (h.shape r hr).trans (h'.shape r (h.nextStructure ▸ hr))

theorem Read.held (h : Read P w w') : w'.held = w.held := by
  funext r; simp only [World.held, h.objects, h.nextObject]

theorem Read.table (h : Read P w w') (hw : w.Inv P) (ho : o < w.nextObject) :
    w'.table o = w.table o := by
  rw [World.table, h.objects, (h.shape _ (hw.live ho).1).view, World.table]

theorem Read.prototype (h : Read P w w') (hw : w.Inv P) (ho : o < w.nextObject) :
    w'.prototype o = w.prototype o := by
  rw [World.prototype, h.objects, (h.shape _ (hw.live ho).1).prototype, World.prototype]

theorem Read.touch (h : Read P w w') (hw : w.Inv P) (o : ℕ) : Touch P o w w' where
  __ := h
  nextAccessor_le := h.nextAccessor.ge
  nextStructure_le := h.nextStructure.ge
  class_eq b := by rw [h.objects]
  frame b hb _ := ⟨by rw [h.objects], h.shape _ (hw.live hb).1, fun l c _ => by rw [h.accessors]⟩
  stable r hr hl := by
    rw [h.held] at hl
    exact ⟨⟨hr, hl.2.imp_left (h.shape r hr).shared.mp⟩, fun n e hn => by
      rw [(h.shape r hr).view]; exact hn⟩

theorem Inv.read_shapes (h : w.Inv P) {σ' : Shapes} {s : ℕ}
    (hr : w.shapes.TableReady σ' w.held s) : Read P w { w with shapes := σ' } where
  inv :=
    { shapes := hr.inv
      sole := fun ho ho' heq hu => h.sole ho ho' heq fun hc =>
        hu ((hr.shape _ (h.live ho).1).shared.mpr hc)
      ok := by
        intro o ho
        have hs := hr.shape _ (h.live ho).1
        have hok := h.ok ho
        have htab : World.table { w with shapes := σ' } o = w.table o := hs.view
        have hlive : σ'.Live w.held (w.objects o).structure_ := hr.inv.held (held_structure ho)
        have hcap : World.capacity { w with shapes := σ' } o = w.capacity o :=
          storageCapacity_eq h.shapes hr.inv (h.live ho) hlive hs
        rw [htab, hcap]
        exact hok
      proto_lt := fun hlt hp => h.proto_lt (hr.next ▸ hlt) (hr.proto _ ▸ hp)
      cells := by
        intro o o' l l' c ho ho' hne hc
        have htab : ∀ {o}, o < w.nextObject → World.table { w with shapes := σ' } o = w.table o :=
          fun ho => (hr.shape _ (h.live ho).1).view
        rw [World.cellAt, htab ho] at hc
        rw [World.cellAt, htab ho']
        exact h.cells ho ho' hne hc }
  objects := rfl
  accessors := rfl
  nextObject := rfl
  nextAccessor := rfl
  nextStructure := hr.next
  shape := hr.shape

end World

open World

variable {α β : Type} {P : Policy} {w : World} {o : ℕ}

/-- The computation only reads, and a normal end returns a value satisfying `R`. -/
def Reads (P : Policy) (w : World) (r : Result Fault World α) (R : α → Prop) : Prop :=
  r.Sat (fun a w' => Read P w w' ∧ R a) fun _ w' => Read P w w'

/-- The computation touches at most object `o`, and a normal end satisfies `R`. -/
def Touches (P : Policy) (o : ℕ) (w : World) (r : Result Fault World α)
    (R : α → World → Prop) : Prop :=
  r.Sat (fun a w' => Touch P o w w' ∧ R a w') fun _ w' => Touch P o w w'

theorem Reads.mono {r : Result Fault World α} {R R' : α → Prop} (h : Reads P w r R)
    (hR : ∀ a, R a → R' a) : Reads P w r R' :=
  Result.Sat.mono h (fun a _ ha => ⟨ha.1, hR a ha.2⟩) fun _ _ he => he

theorem Touches.mono {r : Result Fault World α} {R R' : α → World → Prop} (h : Touches P o w r R)
    (hR : ∀ a w', Touch P o w w' → R a w' → R' a w') : Touches P o w r R' :=
  Result.Sat.mono h (fun a w' ha => ⟨ha.1, hR a w' ha.1 ha.2⟩) fun _ _ he => he

theorem Reads.bind {x : Vm α} {f : α → Vm β} {R : α → Prop} {S : β → Prop}
    (hx : Reads P w (x w) R)
    (hf : ∀ a w', Read P w w' → R a → Reads P w' (f a w') S) : Reads P w ((x >>= f) w) S :=
  Result.Sat.bind hx fun a w' ⟨hr, ha⟩ => Result.Sat.mono (hf a w' hr ha)
    (fun _ _ hb => ⟨hr.trans hb.1, hb.2⟩) fun _ _ he => hr.trans he

theorem Reads.bind_touches (hw : w.Inv P) {x : Vm α} {f : α → Vm β} {R : α → Prop}
    {S : β → World → Prop} (hx : Reads P w (x w) R)
    (hf : ∀ a w', Read P w w' → R a → Touches P o w' (f a w') S) :
    Touches P o w ((x >>= f) w) S :=
  Result.Sat.bind
    (Result.Sat.mono hx (fun _ _ ha => ha) fun _ _ he => he.touch hw o)
    fun a w' ⟨hr, ha⟩ => Result.Sat.mono (hf a w' hr ha)
      (fun _ _ hb => ⟨(hr.touch hw o).trans hb.1, hb.2⟩) fun _ _ he => (hr.touch hw o).trans he

theorem Touches.bind {x : Vm α} {f : α → Vm β} {R : α → World → Prop} {S : β → World → Prop}
    (hx : Touches P o w (x w) R)
    (hf : ∀ a w', Touch P o w w' → R a w' → Touches P o w' (f a w') S) :
    Touches P o w ((x >>= f) w) S :=
  Result.Sat.bind hx fun a w' ⟨ht, ha⟩ => Result.Sat.mono (hf a w' ht ha)
    (fun _ _ hb => ⟨ht.trans hb.1, hb.2⟩) fun _ _ he => ht.trans he

theorem Reads.pure (hw : w.Inv P) {a : α} {R : α → Prop} (h : R a) :
    Reads P w ((Pure.pure a : Vm α) w) R := ⟨hw.read_refl, h⟩

theorem Reads.fail (hw : w.Inv P) (e : Fault) (R : α → Prop) :
    Reads P w ((Exec.fail e : Vm α) w) R := hw.read_refl

theorem Touches.of_ok {w' : World} {a : α} {R : α → World → Prop} (ht : Touch P o w w')
    (hr : R a w') : Touches P o w (.ok a w') R := ⟨ht, hr⟩

theorem Touches.pure (hw : w.Inv P) {a : α} {R : α → World → Prop} (h : R a w) :
    Touches P o w ((Pure.pure a : Vm α) w) R := ⟨hw.touch_refl o, h⟩

theorem Touches.fail (hw : w.Inv P) (e : Fault) (R : α → World → Prop) :
    Touches P o w ((Exec.fail e : Vm α) w) R := hw.touch_refl o

theorem Reads.ite {c : Prop} [Decidable c] {x y : Vm α} {R : α → Prop}
    (hx : c → Reads P w (x w) R) (hy : ¬ c → Reads P w (y w) R) :
    Reads P w ((if c then x else y) w) R := by
  by_cases hc : c
  · rw [if_pos hc]; exact hx hc
  · rw [if_neg hc]; exact hy hc

theorem Touches.ite {c : Prop} [Decidable c] {x y : Vm α} {R : α → World → Prop}
    (hx : c → Touches P o w (x w) R) (hy : ¬ c → Touches P o w (y w) R) :
    Touches P o w ((if c then x else y) w) R := by
  by_cases hc : c
  · rw [if_pos hc]; exact hx hc
  · rw [if_neg hc]; exact hy hc

theorem Reads.reject (hw : w.Inv P) (throwable : Bool) (msg : String) {a : α} {R : α → Prop}
    (h : R a) : Reads P w (Vm.reject throwable msg a w) R := by
  unfold Vm.reject
  split
  · exact Reads.fail hw _ R
  · exact Reads.pure hw h

/-! ### Reading components -/

@[simp] theorem Vm.object_bind (o : ℕ) (f : JsObject → Vm β) (w : World) :
    (Vm.object o >>= f) w = f (w.objects o) w := rfl

@[simp] theorem Vm.accessorCell_bind (c : ℕ) (f : Accessor → Vm β) (w : World) :
    (Vm.accessorCell c >>= f) w = f (w.accessors c) w := rfl

theorem Vm.direct_of_lt {n : ℕ} {v : JsValue} (h : (w.objects o).slots[n]? = some v) :
    Vm.direct o n w = .ok v w := by
  unfold Vm.direct
  rw [h]

theorem reads_structureGet (hw : w.Inv P) (ho : o < w.nextObject) (name : Symbol) :
    Reads P w (Vm.structureGet o name w) fun r => r = (w.table o).lookup name := by
  obtain ⟨hget, hready⟩ := hw.shapes.get (hw.live ho) name
  exact ⟨hw.read_shapes hready, hget⟩

/-! ### The own lookup -/

inductive OwnLookup (w : World) (o : ℕ) (name : Symbol) (slot : Slot) : Bool → Slot → Prop
  | named (e : MapEntry) (v : JsValue) (c : Bool) (he : (w.table o).lookup name = some e)
      (hv : (w.objects o).slots[e.offset]? = some v)
      (hs : ¬ (overridesLength (w.objects o).class_ ∧ name = Symbol.length)) :
      OwnLookup w o name slot true
        ({ slot with cacheable := c }.setWoffset v e.attrs (some o) e.offset)
  | special (v : JsValue) (a : AttrSafe) (slot' : Slot)
      (hs : overridesLength (w.objects o).class_ ∧ name = Symbol.length)
      (ha : a.data = true ∧ a.accessor = false ∧ a.configurable = false)
      (hstored : slot'.stored = ⟨v, a⟩)
      (hbase : ((w.objects o).class_ = .array ∧ slot'.base = some o ∧ slot'.cacheable = false) ∨
        (slot'.base = slot.base ∧ a.writable = false))
      (hput : slot'.putCacheable = slot.putCacheable) :
      OwnLookup w o name slot true slot'
  | absent (c : Bool) (he : (w.table o).lookup name = none)
      (hs : ¬ (overridesLength (w.objects o).class_ ∧ name = Symbol.length)) :
      OwnLookup w o name slot false { slot with cacheable := c }

theorem reads_getOwnNonIndexedPropertySlotMethod (hw : w.Inv P) (ho : o < w.nextObject)
    (name : Symbol) (slot : Slot) :
    Reads P w (getOwnNonIndexedPropertySlotMethod o name slot w) fun r =>
      (∃ e v, (w.table o).lookup name = some e ∧ (w.objects o).slots[e.offset]? = some v ∧
        r = (true, slot.setWoffset v e.attrs (some o) e.offset)) ∨
      ((w.table o).lookup name = none ∧ r = (false, slot)) := by
  refine Reads.bind (reads_structureGet hw ho name) fun r w₁ hr heq => ?_
  subst heq
  cases he : (w.table o).lookup name with
  | none => exact Reads.pure hr.inv (.inr ⟨rfl, rfl⟩)
  | some e =>
    have htyped := hw.shapes.typed (hw.live ho) he
    simp only [htyped.isNotFound, Bool.false_eq_true, if_false]
    have hlt := hw.offset_lt ho he
    have hv : (w.objects o).slots[e.offset]? = some ((w.objects o).slots[e.offset]) :=
      List.getElem?_eq_getElem hlt
    rw [Exec.bind_of_ok (Vm.direct_of_lt (by rw [hr.objects]; exact hv))]
    exact Reads.pure hr.inv (.inl ⟨e, _, rfl, hv, rfl⟩)

theorem reads_getOwnNonIndexedPropertySlot (hw : w.Inv P) (ho : o < w.nextObject) (name : Symbol)
    (slot : Slot) :
    Reads P w (getOwnNonIndexedPropertySlot o name slot w) fun r => OwnLookup w o name slot r.1 r.2 := by
  have base := reads_getOwnNonIndexedPropertySlotMethod hw ho name slot
  have plain : ¬ (overridesLength (w.objects o).class_ ∧ name = Symbol.length) →
      Reads P w (getOwnNonIndexedPropertySlotMethod o name slot w)
        fun r => OwnLookup w o name slot r.1 r.2 := fun hs => base.mono fun r hr => by
    rcases hr with ⟨e, v, he, hv, rfl⟩ | ⟨he, rfl⟩
    · exact .named e v slot.cacheable he hv hs
    · exact .absent slot.cacheable he hs
  unfold getOwnNonIndexedPropertySlot
  rw [Vm.object_bind]
  cases hc : (w.objects o).class_ with
  | array =>
    dsimp only
    split
    · next hn =>
      refine Reads.pure hw (.special _ _ _ ⟨by rw [hc]; trivial, hn⟩ ?_ rfl
        (.inl ⟨hc, rfl, rfl⟩) rfl)
      cases (w.objects o).indexed.writable <;> decide
    · next hn => exact plain fun h => hn h.2
  | string value =>
    dsimp only
    split
    · next hn =>
      exact Reads.pure hw (.special _ _ _ ⟨by rw [hc]; trivial, hn⟩ (by decide) rfl
        (.inr ⟨rfl, rfl⟩) rfl)
    · next hn => exact plain fun h => hn h.2
  | global =>
    have hs : ¬ (overridesLength (w.objects o).class_ ∧ name = Symbol.length) := by
      rw [hc]; exact fun h => h.1
    refine Reads.bind base fun r w₁ hr hres => Reads.pure hr.inv ?_
    rcases hres with ⟨e, v, he, hv, rfl⟩ | ⟨he, rfl⟩
    · exact .named e v slot.cacheable he hv hs
    · exact .absent false he hs
  | object | function => exact plain (by rw [hc]; exact fun h => h.1)

/-! ### The walk along the prototype chain -/

inductive ChainLookup (w : World) (o : ℕ) (name : Symbol) (slot : Slot) : Bool → Slot → Prop
  | own {slot' : Slot} (h : OwnLookup w o name slot true slot') :
      ChainLookup w o name slot true slot'
  | inherited (p : ℕ) (c : Bool) {slot' : Slot} (hp : p < w.nextObject) (hne : p ≠ o)
      (he : (w.table o).lookup name = none)
      (hs : ¬ (overridesLength (w.objects o).class_ ∧ name = Symbol.length))
      (h : OwnLookup w p name { slot with cacheable := c } true slot') :
      ChainLookup w o name slot true slot'
  | absent (c : Bool) (he : (w.table o).lookup name = none)
      (hs : ¬ (overridesLength (w.objects o).class_ ∧ name = Symbol.length)) :
      ChainLookup w o name slot false { slot with cacheable := c }

theorem OwnLookup.ne_of_absent {name : Symbol} {slot slot' : Slot} {p : ℕ}
    (h : OwnLookup w p name slot true slot') (he : (w.table o).lookup name = none)
    (hs : ¬ (overridesLength (w.objects o).class_ ∧ name = Symbol.length)) : p ≠ o := by
  rintro rfl
  cases h with
  | named e v c he' => rw [he] at he'; cases he'
  | special v a _ hs' => exact hs hs'

theorem OwnLookup.read {name : Symbol} {slot slot' : Slot} {found : Bool} {w' : World}
    (hw : w.Inv P) (ho : o < w.nextObject) (hr : Read P w w')
    (h : OwnLookup w' o name slot found slot') : OwnLookup w o name slot found slot' := by
  have htab := hr.table hw ho
  cases h with
  | named e v c he hv hs =>
    rw [hr.objects] at hv hs
    rw [htab] at he
    exact .named e v c he hv hs
  | special v a _ hs ha hst hb hp =>
    rw [hr.objects] at hs hb
    exact .special v a _ hs ha hst hb hp
  | absent c he hs =>
    rw [hr.objects] at hs
    rw [htab] at he
    exact .absent c he hs

theorem ChainLookup.read {name : Symbol} {slot slot' : Slot} {found : Bool} {w' : World}
    (hw : w.Inv P) (ho : o < w.nextObject) (hr : Read P w w')
    (h : ChainLookup w' o name slot found slot') : ChainLookup w o name slot found slot' := by
  have htab := hr.table hw ho
  cases h with
  | own h => exact .own (h.read hw ho hr)
  | inherited p c hp hne he hs h =>
    rw [hr.nextObject] at hp
    rw [htab] at he
    rw [hr.objects] at hs
    exact .inherited p c hp hne he hs (h.read hw hp hr)
  | absent c he hs =>
    rw [htab] at he
    rw [hr.objects] at hs
    exact .absent c he hs

theorem reads_getNonIndexedPropertySlotFrom (hw : w.Inv P) (ho : o < w.nextObject) (name : Symbol)
    (slot : Slot) (fuel : ℕ) :
    Reads P w (getNonIndexedPropertySlotFrom fuel o name slot w)
      fun r => ChainLookup w o name slot r.1 r.2 := by
  induction fuel generalizing w o slot with
  | zero => exact trivial
  | succ fuel ih =>
    refine Reads.bind (reads_getOwnNonIndexedPropertySlot hw ho name slot) ?_
    rintro ⟨found, slot'⟩ w₁ hr hown
    cases hown with
    | named e v c he hv hs => exact Reads.pure hr.inv (.own (.named e v c he hv hs))
    | special v a _ hs ha hst hb hp =>
      exact Reads.pure hr.inv (.own (.special v a _ hs ha hst hb hp))
    | absent c he hs =>
      simp only [Bool.false_eq_true, if_false, Vm.object_bind, Exec.gets_bind]
      have hproto : (w₁.shapes.structures (w₁.objects o).structure_).prototype = w.prototype o :=
        hr.prototype hw ho
      rw [hproto]
      cases hp : w.prototype o with
      | none => exact Reads.pure hr.inv (.absent c he hs)
      | some p =>
        have hlt : p < w₁.nextObject := by
          rw [hr.nextObject]
          exact hw.proto_lt (hw.live ho).1 hp
        refine (ih hr.inv hlt _).mono fun r hres => ?_
        have hres := hres.read hw (hr.nextObject ▸ hlt) hr
        obtain ⟨found, slot'⟩ := r
        cases hres with
        | own h =>
          exact .inherited p c (hr.nextObject ▸ hlt) (h.ne_of_absent he hs) he hs h
        | inherited q c' hq _ _ _ h =>
          exact .inherited q c' hq (h.ne_of_absent he hs) he hs h
        | absent c' _ _ => exact .absent c' he hs

theorem reads_getNonIndexedPropertySlot (hw : w.Inv P) (ho : o < w.nextObject) (name : Symbol)
    (slot : Slot) :
    Reads P w (getNonIndexedPropertySlot o name slot w)
      fun r => ChainLookup w o name slot r.1 r.2 :=
  reads_getNonIndexedPropertySlotFrom hw ho name slot _

theorem reads_getPropertySlot_of_not_index (hw : w.Inv P) (ho : o < w.nextObject) {name : Symbol}
    (hname : ∀ i, name ≠ .index i) :
    Reads P w (getPropertySlot o name Slot.new w)
      fun r => ChainLookup w o name Slot.new r.1 r.2 := by
  rw [getPropertySlot_of_not_index hname]
  exact reads_getNonIndexedPropertySlot hw ho _ _

end Starlight
