import Starlight.Vm.InlineCacheRuns
import Starlight.Vm.Quiet

/-!
# The structures that functions construct with

`new F` gives the new object a structure whose prototype is the `prototype` property of `F`. The
function keeps the structure, and the definition of `prototype` on a function drops it. A run here is
a sequence of writes, redefinitions, deletions and reads of the property, by the generic operations or
by the cached instructions, and of constructions. `FreshMap` says that the kept structure has the
prototype that the property asks for.

Two ways to change the property do not go through the definition: a `PUT_BY_ID` that hits its cache
writes the slot, and a deletion removes it.
-/

namespace Starlight

open JsObject World

variable {α β : Type} {w w' : World} {f objectPrototype : ℕ}

def JsValue.objectOr (v : JsValue) (objectPrototype : ℕ) : ℕ :=
  match v with
  | .object p => p
  | _ => objectPrototype

def funcConstructMap (objectPrototype f : ℕ) : Vm ℕ := do
  let obj ← Vm.object f
  if obj.class_ ≠ .function then
    Exec.stuck
  else
    match obj.constructStruct with
    | some s => return s
    | none =>
      let (found, slot) ← getPropertySlot f Symbol.prototype Slot.new
      let res ← slotValue f found slot
      let s ← Vm.shapes fun σ => σ.newIndexed (some (res.objectOr objectPrototype)) false
      Vm.onlyIf (slot.isLoadCacheable && slot.base = some f && slot.attributes.data) do
        Vm.modifyObject f fun obj => { obj with constructStruct := some s }
      return s

/-! ### The kept structure -/

/-- The structure that the function keeps has the prototype that its own `prototype` asks for. -/
def FreshMap (objectPrototype f : ℕ) (w : World) : Prop :=
  ∀ t, (w.objects f).constructStruct = some t → t < w.shapes.nextStructure ∧
    ∃ e v, CachedProperty w f Symbol.prototype (some e.offset) e v ∧
      (w.shapes.structures t).prototype = some (v.objectOr objectPrototype)

/-- The function keeps no structure. -/
def NoMap (f : ℕ) (w : World) : Prop := (w.objects f).constructStruct = none

theorem NoMap.fresh (h : NoMap f w) : FreshMap objectPrototype f w := by
  intro t ht
  rw [h] at ht
  cases ht

theorem FreshMap.read (h : FreshMap objectPrototype f w) (hw : w.Inv P) (hf : f < w.nextObject)
    (hr : Read P w w') : FreshMap objectPrototype f w' := by
  intro t ht
  rw [hr.objects] at ht
  obtain ⟨hlt, e, v, hc, hp⟩ := h t ht
  exact ⟨hr.nextStructure ▸ hlt, e, v, hc.read hw hf hr, (hr.shape t hlt).prototype.trans hp⟩

theorem unnamed_noMap (f : ℕ) : Unnamed (NoMap f) := fun _ _ h hn => (h f).2.trans hn

/-- The code only reads, or leaves the function without a structure. -/
def Settles (f : ℕ) (w : World) (r : Result Fault World α) : Prop :=
  r.Leaves fun w' => Read cachePolicy w w' ∨ NoMap f w'

theorem Reads.settles {r : Result Fault World α} {R : α → Prop} (h : Reads cachePolicy w r R) :
    Settles f w r := by
  cases r with
  | ok a w' => exact .inl h.1
  | error e w' => exact .inl h
  | stuck => trivial
  | diverge => trivial

theorem Settles.of_noMap {r : Result Fault World α} (h : r.Leaves (NoMap f)) : Settles f w r :=
  h.mono fun _ => .inr

theorem Reads.bind_settles {x : Vm α} {k : α → Vm β} {R : α → Prop}
    (hx : Reads cachePolicy w (x w) R)
    (hk : ∀ a w', Read cachePolicy w w' → R a → Settles f w' (k a w')) :
    Settles f w ((x >>= k) w) := by
  rw [Exec.bind_apply]
  cases hr : x w with
  | ok a w' =>
    rw [hr] at hx
    exact (hk a w' hx.1 hx.2).mono fun _ h => h.imp_left hx.1.trans
  | error e w' =>
    rw [hr] at hx
    exact .inl hx
  | stuck => trivial
  | diverge => trivial

theorem Settles.ite {c : Prop} [Decidable c] {x y : Vm α} (hx : c → Settles f w (x w))
    (hy : ¬ c → Settles f w (y w)) : Settles f w ((if c then x else y) w) := by
  split
  · next h => exact hx h
  · next h => exact hy h

/-! ### Definitions and assignments -/

variable (hw : w.Inv cachePolicy) (hf : f < w.nextObject) (hclass : (w.objects f).class_ = .function)

include hclass in
theorem noMap_definePrototype (desc : PropertyDescriptor) (slot : Slot) (throwable : Bool) :
    (defineOwnNonIndexedPropertySlot f Symbol.prototype desc slot throwable w).Leaves (NoMap f) := by
  unfold defineOwnNonIndexedPropertySlot
  rw [Vm.object_bind, hclass]
  dsimp only
  rw [if_pos rfl]
  refine Exec.leaves_bind ?_ fun _ w' _ hw' =>
    keeps_defineOwnNonIndexedPropertySlotMethod (unnamed_noMap f) f _ desc _ throwable w' hw'
  exact congrArg JsObject.constructStruct (Function.update_self f _ w.objects)

include hclass in
theorem noMap_define (desc : PropertyDescriptor) (throwable : Bool) :
    (defineOwnProperty f Symbol.prototype desc throwable w).Leaves (NoMap f) :=
  Exec.leaves_bind (noMap_definePrototype hclass desc _ throwable) fun _ _ _ h => h

include hw hf hclass in
theorem settles_putSlot (val : JsValue) (throwable : Bool) :
    Settles f w (putSlot f Symbol.prototype val Slot.new throwable w) := by
  have hdefine : ∀ {w₁ : World} {desc : PropertyDescriptor} {slot : Slot} {k : Bool × Slot → Vm Slot},
      Read cachePolicy w w₁ → (∀ a, (k a).Keeps (NoMap f)) →
      Settles f w₁ ((defineOwnNonIndexedPropertySlot f Symbol.prototype desc slot throwable >>= k)
        w₁) := by
    intro w₁ desc slot k hr hk
    refine .of_noMap (Exec.leaves_bind (noMap_definePrototype ?_ desc slot throwable) ?_)
    · rw [hr.objects]
      exact hclass
    · exact fun a w₂ _ h => hk a w₂ h
  show Settles f w (putNonIndexedSlot f Symbol.prototype val Slot.new throwable w)
  unfold putNonIndexedSlot putFrom
  refine Reads.bind_settles (reads_getNonIndexedPropertySlot hw hf Symbol.prototype Slot.new) ?_
  -- both ways to define the property drop the kept structure, all the rest only reads
  rintro ⟨found, slot⟩ w₁ hr₁ hl
  have hfound : slot.isNotFound = false → found = true := by
    intro hn
    cases hl with
    | own h => rfl
    | inherited p c hp hne he hs h => rfl
    | absent c he hs => cases hn
  have hcell : found = true → HasCell slot.stored := by
    rintro rfl
    exact (hl.stored_ok hw hf).1
  refine Reads.bind_settles (reads_canPut hr₁.inv hcell) fun b w₂ hr₂ _ => ?_
  have hr := hr₁.trans hr₂
  refine .ite (fun _ => ?_) fun _ => ?_
  · exact (Reads.reject (R := fun _ => True) hr₂.inv throwable _ trivial).settles
  refine .ite (fun _ => hdefine hr fun _ => Exec.keeps_pure _) fun _ => ?_
  refine .ite (fun hacc => ?_) fun _ => hdefine hr fun _ => Exec.keeps_pure _
  simp only [Bool.and_eq_true, Bool.not_eq_true'] at hacc
  refine Reads.bind_settles (reads_accessor hr₂.inv (hcell (hfound hacc.1)) hacc.2)
    fun c w₃ hr₃ _ => ?_
  rw [Vm.accessorCell_bind]
  exact .inl hr₃.inv.read_refl

include hw hf hclass in
theorem settles_delete (throwable : Bool)
    (hkeep : NoMap f w ∨ ∃ e v, CachedProperty w f Symbol.prototype (some e.offset) e v ∧
      e.attrs.configurable = false) :
    Settles f w (JsObject.delete f Symbol.prototype throwable w) := by
  rcases hkeep with hno | ⟨e, v, hc, hconf⟩
  · exact .of_noMap (keeps_deleteNonIndexed (unnamed_noMap f) f Symbol.prototype throwable w hno)
  · obtain ⟨c, w₁, hr, hlook⟩ := hc.getOwn hw hf Slot.new
    have hfound : ({ Slot.new with cacheable := c }.setWoffset v e.attrs (some f)
        e.offset).attributes.configurable = false := hconf
    show Settles f w (deleteNonIndexed f Symbol.prototype throwable w)
    unfold deleteNonIndexed
    rw [Vm.object_bind, if_neg (fun h => by rw [hclass] at h; cases h.1)]
    unfold deleteNonIndexedMethod
    have hown : getOwnPropertySlot f Symbol.prototype Slot.new w = _ := hlook
    rw [Exec.bind_of_ok hown]
    dsimp only
    rw [if_neg (by simp), if_pos (by rw [hfound]; rfl)]
    exact (Reads.reject (R := fun _ => True) hr.inv throwable _ trivial).settles.mono
      fun _ h => h.imp_left hr.trans

/-! ### Constructions -/

def readPrototype (f : ℕ) (w : World) : Result Fault World JsValue :=
  getSlot f Symbol.prototype (fun _ => false) Slot.new w

include hclass in
theorem readPrototype_of_lookup {found : Bool} {slot : Slot} {w₁ w₂ : World} {v : JsValue}
    (hl : getPropertySlot f Symbol.prototype Slot.new w = .ok (found, slot) w₁)
    (hobj : w₂.objects = w.objects) (hv : slotValue f found slot w₁ = .ok v w₂) :
    readPrototype f w = .ok v w₂ := by
  unfold readPrototype getSlot
  rw [Exec.bind_of_ok hl]
  refine (Exec.bind_of_ok hv _).trans ?_
  rw [Vm.object_bind, hobj, hclass]
  have hcall : ∃ b, Vm.isCallable v w₂ = .ok b w₂ := ⟨_, rfl⟩
  obtain ⟨b, hb⟩ := hcall
  refine (Exec.bind_of_ok hb _).trans ?_
  rw [if_neg]
  · rfl
  · rw [Bool.and_eq_true]
    exact fun h => absurd (of_decide_eq_true h.1) (by decide)

include hw hf hclass in
theorem FreshMap.readPrototype {t : ℕ} (h : FreshMap objectPrototype f w)
    (ht : (w.objects f).constructStruct = some t) : ∃ v w₁, readPrototype f w = .ok v w₁ ∧
      Read cachePolicy w w₁ ∧
      (w.shapes.structures t).prototype = some (v.objectOr objectPrototype) := by
  obtain ⟨-, e, v, hc, hp⟩ := h t ht
  obtain ⟨c, w₁, hr, hl⟩ := hc.getProperty hw hf Slot.new
  have hna := (hc.typed hw hf).not_accessor_of_data hc.data
  refine ⟨v, w₁, readPrototype_of_lookup hclass hl hr.objects ?_, hr, hp⟩
  exact storedSlotGet_of_data hna _ w₁

/-- The value of `prototype` names an existing object, as every value of the engine does. -/
def PrototypeExists (objectPrototype f : ℕ) (w : World) : Prop :=
  ∀ v w₁, Starlight.readPrototype f w = .ok v w₁ → v.objectOr objectPrototype < w.nextObject

/-- What a construction leaves behind: a structure for what the property reads, and a kept structure
that is right. -/
structure Constructs (objectPrototype f : ℕ) (w : World) (t : ℕ) (w' : World) : Prop where
  prototype : ∃ v w₁, Starlight.readPrototype f w = .ok v w₁ ∧
    (w'.shapes.structures t).prototype = some (v.objectOr objectPrototype)
  fresh : FreshMap objectPrototype f w'
  kept : Kept cachePolicy w w'

/-- The heap after a new root structure with the prototype `p`. -/
def World.rooted (w : World) (p : ℕ) : World :=
  { w with shapes := (w.shapes.newIndexed (some p) false).2 }

theorem World.prototype_rooted (w : World) (p : ℕ) :
    ((w.rooted p).shapes.structures w.shapes.nextStructure).prototype = some p := by
  simp [World.rooted, Shapes.newIndexed, Shapes.ctor1]

theorem World.Inv.cachedProperty_rooted (hw : w.Inv cachePolicy) (hf : f < w.nextObject) {p : ℕ}
    {name : Symbol} {offset : Option ℕ} {e : MapEntry} {v : JsValue}
    (hc : CachedProperty w f name offset e v) : CachedProperty (w.rooted p) f name offset e v where
  __ := hc
  lookup := by
    have hview : (w.rooted p).table f = w.table f :=
      (Shapes.sameShape_alloc hw.shapes.acyclic _ (hw.live hf).1).view
    rw [hview]
    exact hc.lookup

theorem Kept.trans {w₁ w₂ w₃ : World} (h : Kept P w₁ w₂) (h' : Kept P w₂ w₃) : Kept P w₁ w₃ where
  inv := h'.inv
  nextObject_le := h.nextObject_le.trans h'.nextObject_le
  nextStructure_le := h.nextStructure_le.trans h'.nextStructure_le
  class_eq b hb := (h'.class_eq b (lt_of_lt_of_le hb h.nextObject_le)).trans (h.class_eq b hb)
  stable := h.stable.trans h'.stable h.nextStructure_le

/-- Keeping a structure for the function. -/
def World.keeping (w : World) (f s : ℕ) : World :=
  { w with objects := Function.update w.objects f { w.objects f with constructStruct := some s } }

theorem World.Inv.touch_keeping (hw : w.Inv P) (hf : f < w.nextObject) (s : ℕ) :
    Touch P f w (w.keeping f s) :=
  hw.touch_object hf (f := fun obj => { obj with constructStruct := some s }) rfl rfl rfl
    (.sparse 0) fun _ _ h => .inl h

theorem CachedProperty.keeping {name : Symbol} {offset : Option ℕ} {e : MapEntry} {v : JsValue}
    (hc : CachedProperty w f name offset e v) (s : ℕ) :
    CachedProperty (w.keeping f s) f name offset e v where
  __ := hc
  lookup := by
    have htable : (w.keeping f s).table f = w.table f := by simp [World.table, World.keeping]
    rw [htable]
    exact hc.lookup
  slot := by
    have hslots : ((w.keeping f s).objects f).slots = (w.objects f).slots := by
      simp [World.keeping]
    rw [hslots]
    exact hc.slot
  not_length := by
    have hcl : ((w.keeping f s).objects f).class_ = (w.objects f).class_ := by
      simp [World.keeping]
    rw [hcl]
    exact hc.not_length

theorem Result.Sat.self {r : Result Fault World α} {Q : α → World → Prop}
    {E : Fault → World → Prop} (h : r.Sat Q E) : r.Sat (fun a s => r = .ok a s ∧ Q a s) E := by
  cases r with
  | ok a s => exact ⟨rfl, h⟩
  | error e s => exact h
  | stuck => exact h
  | diverge => trivial

include hw hf in
theorem cachedProperty_of_lookup {found : Bool} {slot : Slot} {w₁ : World}
    (hl : getPropertySlot f Symbol.prototype Slot.new w = .ok (found, slot) w₁)
    (hchain : ChainLookup w f Symbol.prototype Slot.new found slot)
    (hload : slot.isLoadCacheable = true) (hbase : slot.base = some f) :
    ∃ e v, CachedProperty w f Symbol.prototype (some e.offset) e v ∧ found = true ∧
      slot.stored = ⟨v, e.attrs⟩ := by
  obtain ⟨p, -, hb, k, a, -, ha, hd⟩ := hchain.loadCacheable hf hload
  obtain rfl : p = f := Option.some.inj (hb.symm.trans hbase)
  have hlt := hw.offset_lt hf (e := ⟨k, a⟩) ha
  have hc : CachedProperty w p Symbol.prototype (some k) ⟨k, a⟩ (w.objects p).slots[k] := by
    refine ⟨nofun, rfl, ha, List.getElem?_eq_getElem hlt, hd, ?_⟩
    exact fun h => absurd h.2 (by decide)
  obtain ⟨c, w', -, hget⟩ := hc.getProperty hw hf Slot.new
  have heq := hl.symm.trans hget
  injection heq with hpair
  injection hpair with hfound hslot
  exact ⟨⟨k, a⟩, _, hc, hfound, by rw [hslot]; rfl⟩

include hw hf hclass in
/-- **The specification of a construction.** -/
theorem funcConstructMap_spec (hfresh : FreshMap objectPrototype f w)
    (hexists : PrototypeExists objectPrototype f w) :
    (funcConstructMap objectPrototype f w).Sat (Constructs objectPrototype f w)
      fun _ w' => Read cachePolicy w w' := by
  unfold funcConstructMap
  rw [Vm.object_bind, if_neg (not_not.mpr hclass)]
  cases hmap : (w.objects f).constructStruct with
  | some t =>
    obtain ⟨v, w₁, hread, -, hp⟩ := hfresh.readPrototype hw hf hclass hmap
    exact ⟨⟨v, w₁, hread, hp⟩, hfresh, (hw.touch_refl f).kept⟩
  | none =>
    refine Result.Sat.bind
      (reads_getNonIndexedPropertySlot hw hf Symbol.prototype Slot.new).self ?_
    rintro ⟨found, slot⟩ w₁ ⟨hl, hr₁, hchain⟩
    have hval : Reads cachePolicy w₁ (slotValue f found slot w₁) fun _ => True := by
      refine Reads.ite (fun hfound => ?_) fun _ => Reads.pure hr₁.inv trivial
      obtain rfl : found = true := hfound
      exact reads_storedSlotGet hr₁.inv (hchain.stored_ok hw hf).1 _
    refine Result.Sat.bind
      (hval.self.mono (fun _ _ h => h) fun _ _ h => hr₁.trans h) ?_
    rintro res w₂ ⟨hv, hr₂, -⟩
    have hr := hr₁.trans hr₂
    have hread := readPrototype_of_lookup hclass hl hr.objects hv
    have hlt : res.objectOr objectPrototype < w₂.nextObject :=
      hr.nextObject ▸ hexists res w₂ hread
    have hf₂ : f < w₂.nextObject := hr.nextObject ▸ hf
    have hgrow : Grow cachePolicy w₂ (w₂.rooted (res.objectOr objectPrototype)) :=
      hr.inv.grow_newStructure (fun p hp => Option.some.inj hp ▸ hlt) false
    have hkept := (hr.touch hw f).kept.trans hgrow.kept
    have hproto := w₂.prototype_rooted (res.objectOr objectPrototype)
    -- the structure is kept only if the value came from a slot of `f` itself
    cases hb : slot.isLoadCacheable && decide (slot.base = some f) && slot.attributes.data with
    | false =>
      have hnone : NoMap f (w₂.rooted (res.objectOr objectPrototype)) := by
        show (w₂.objects f).constructStruct = none
        rw [hr.objects, hmap]
      exact ⟨⟨res, w₂, hread, hproto⟩, hnone.fresh, hkept⟩
    | true =>
      simp only [Bool.and_eq_true, decide_eq_true_eq] at hb
      obtain ⟨e, v, hc, rfl, hstored⟩ := cachedProperty_of_lookup hw hf hl hchain hb.1.1 hb.1.2
      -- a data property is read without calling anything
      have hres : res = v := by
        have hget : slotValue f true slot w₁ = .ok v w₁ := by
          unfold slotValue
          rw [if_pos rfl, hstored]
          exact storedSlotGet_of_data ((hc.typed hw hf).not_accessor_of_data hc.data) _ w₁
        rw [hget] at hv
        injection hv with hres
        exact hres.symm
      have ht := hgrow.inv.touch_keeping hf₂ w₂.shapes.nextStructure
      refine ⟨⟨res, w₂, hread, hproto⟩, ?_, hkept.trans ht.kept⟩
      intro t hkeep
      have hself := congrArg JsObject.constructStruct (Function.update_self f
        { w₂.objects f with constructStruct := some w₂.shapes.nextStructure } w₂.objects)
      obtain rfl := Option.some.inj (hself.symm.trans hkeep)
      refine ⟨Nat.lt_succ_self _, e, v, ?_, hres ▸ hproto⟩
      exact (hr.inv.cachedProperty_rooted hf₂ (hc.read hw hf hr)).keeping _

end Starlight
