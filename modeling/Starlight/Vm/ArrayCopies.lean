import Starlight.Vm.ArrayLike
import Starlight.Vm.Descriptors

/-!
# Arrays made from other objects

A native function that copies elements reads them from an object that was there before it and writes them to
an array that it has made. `ReadsAs` is what it finds on the one side, whatever is made meanwhile, and
`Building` is the other: an array without elements from some index on.
-/

namespace Starlight

open JsObject World Exec IndexedElements

variable {P : Policy} {w₀ w w' w'' : World} {o p r s n m i fuel : ℕ} {e f : ℕ → Option JsValue}
  {v : JsValue}

/-! ### What stays when objects are made -/

theorem World.Inv.grow_refl (h : w.Inv P) : Grow P w w where
  inv := h
  nextObject_le := le_rfl
  nextAccessor_le := le_rfl
  nextStructure_le := le_rfl
  class_eq _ _ := rfl
  frame b _ := SameObject.refl w b
  stable := Stable.refl w

theorem Grow.read (hg : Grow P w w') (hr : Read P w' w'') : Grow P w w'' :=
  hg.touch (hr.touch hg.inv w'.nextObject) hg.nextObject_le

theorem World.Read.sound (hr : Read P w w') (hs : w.SoundElements) : w'.SoundElements := fun b => by
  rw [hr.objects]
  exact hs b

theorem World.BareAbove.grow (h : w.BareAbove o fuel p) (hg : Grow P w w') {fuel' : ℕ}
    (hf : fuel ≤ fuel') : w'.BareAbove o fuel' p := by
  induction fuel generalizing p fuel' with
  | zero => exact h.elim
  | succ fuel ih =>
    obtain ⟨fuel', rfl⟩ : ∃ k, fuel' = k + 1 := ⟨fuel' - 1, by omega⟩
    obtain ⟨hne, hlt, hnone, hproto⟩ := h
    have hsame := hg.frame p hlt
    refine ⟨hne, lt_of_lt_of_le hlt hg.nextObject_le, by rwa [hsame.object], fun q hq => ?_⟩
    rw [hsame.prototype_eq] at hq
    exact ih (hproto q hq) (by omega)

theorem OwnElements.grow (h : OwnElements w o) (hg : Grow layoutPolicy w w') (hs : w'.SoundElements) :
    OwnElements w' o where
  inv := hg.inv
  lt := lt_of_lt_of_le h.lt hg.nextObject_le
  sound := hs
  plain := by rw [(hg.frame o h.lt).object, h.plain]
  bare p hp := by
    rw [(hg.frame o h.lt).prototype_eq] at hp
    exact (h.bare p hp).grow hg hg.nextObject_le

/-! ### Sources -/

/-- The element under index `i`, if there is one. -/
def World.element (w : World) (o i : ℕ) : Option JsValue :=
  ((w.objects o).indexed.stored i).map StoredSlot.value

/-- Object `p` has length `n` and the elements `e`, whatever is made beside it. -/
structure ReadsAs (w : World) (p n : ℕ) (e : ℕ → Option JsValue) : Prop where
  lt : p < w.nextObject
  u32 : n < 2 ^ 32
  getLength : ∀ w', Grow layoutPolicy w w' → ∃ w'', Starlight.getLength p w' = .ok n w'' ∧
    Read layoutPolicy w' w''
  get : ∀ w', Grow layoutPolicy w w' → w'.SoundElements → ∀ i,
    getSlot p (.index i) (fun _ => false) Slot.new w' = .ok ((e i).getD .undefined) w'
  has : ∀ w', Grow layoutPolicy w w' → w'.SoundElements → ∀ i,
    hasProperty p (.index i) w' = .ok (e i).isSome w'
  value : ∀ i v, e i = some v → v ≠ .empty

theorem ReadsAs.getD_ne (h : ReadsAs w p n e) (i : ℕ) : (e i).getD .undefined ≠ .empty := by
  cases he : e i with
  | none => exact nofun
  | some v => exact h.value i v he

theorem ReadsAs.grow (h : ReadsAs w p n e) (hg : Grow layoutPolicy w w') : ReadsAs w' p n e where
  __ := h
  lt := lt_of_lt_of_le h.lt hg.nextObject_le
  getLength w'' hg' := h.getLength w'' (hg.trans hg')
  get w'' hg' := h.get w'' (hg.trans hg')
  has w'' hg' := h.has w'' (hg.trans hg')

/-- An array whose elements are values of its own. -/
structure PlainArray (w : World) (o : ℕ) : Prop where
  own : OwnElements w o
  class_eq : (w.objects o).class_ = .array
  u32 : (w.objects o).indexed.length < 2 ^ 32
  data : ∀ i s, (w.objects o).indexed.stored i = some s →
    s.attributes.accessor = false ∧ s.value ≠ .empty

namespace PlainArray

variable (h : PlainArray w o)

include h

theorem element_of_le (hi : (w.objects o).indexed.length ≤ i) : w.element o i = none := by
  rw [World.element, (h.own.sound o).stored_eq_none hi]
  rfl

theorem grow (hg : Grow layoutPolicy w w') (hs : w'.SoundElements) : PlainArray w' o where
  own := h.own.grow hg hs
  class_eq := by rw [(hg.frame o h.own.lt).object, h.class_eq]
  u32 := by
    rw [(hg.frame o h.own.lt).object]
    exact h.u32
  data := by
    rw [(hg.frame o h.own.lt).object]
    exact h.data

theorem element_grow (hg : Grow layoutPolicy w w') : w'.element o = w.element o := by
  unfold World.element
  rw [(hg.frame o h.own.lt).object]

theorem readsAs : ReadsAs w o (w.objects o).indexed.length (w.element o) where
  lt := h.own.lt
  u32 := h.u32
  getLength w' hg := by
    have hobj := (hg.frame o h.own.lt).object
    refine ⟨w', ?_, hg.inv.read_refl⟩
    unfold Starlight.getLength
    rw [Vm.object_bind, hobj, if_pos h.class_eq]
    rfl
  get w' hg hs i := by
    have hobj := (hg.frame o h.own.lt).object
    have hdata : ∀ s, (w'.objects o).indexed.stored i = some s → s.attributes.accessor = false := by
      rw [hobj]
      exact fun s hs => (h.data i s hs).1
    rw [(h.own.grow hg hs).getSlot_eq hdata, hobj, World.element]
    cases (w.objects o).indexed.stored i <;> rfl
  has w' hg hs i := by
    have hobj := (hg.frame o h.own.lt).object
    have hown := h.own.grow hg hs
    have hrun : ∀ {found slot}, getPropertySlot o (.index i) Slot.new w' = .ok (found, slot) w' →
        hasProperty o (.index i) w' = .ok found w' := fun hlook => bind_of_ok hlook _
    rw [World.element, ← hobj]
    cases hst : (w'.objects o).indexed.stored i with
    | none => exact hrun (hown.lookup_absent hst)
    | some s => exact hrun (getIndexedPropertySlot_of_stored hown.not_inText hst)
  value i v hv := by
    obtain ⟨s, hs, rfl⟩ := Option.map_eq_some_iff.mp hv
    exact (h.data i s hs).2

end PlainArray

/-! ### The array in the making -/

/-- The structure of arrays is shared and does without a property `length`, and no prototype of arrays has
elements. -/
structure World.ArrayStructure (w : World) (s : ℕ) : Prop where
  lt : s < w.shapes.nextStructure
  shared : w.shapes.Shared s
  noLength : Symbol.length ∉ w.shapes.view s
  bare : ∀ p, (w.shapes.structures s).prototype = some p → w.Bare w.nextObject p

theorem World.ArrayStructure.grow (h : w.ArrayStructure s) (hg : Grow P w w')
    (hs : w.shapes.SameShape w'.shapes s) : w'.ArrayStructure s where
  lt := lt_of_lt_of_le h.lt hg.nextStructure_le
  shared := hs.shared.mpr h.shared
  noLength := by
    rw [hs.view]
    exact h.noLength
  bare p hp := by
    rw [hs.prototype] at hp
    exact (h.bare p hp).grow hg hg.nextObject_le

/-- Array `r` was made after `w₀`. It has length `n` and the elements `f`, and nothing behind them. -/
structure Building (w₀ w : World) (r n : ℕ) (f : ℕ → Option JsValue) : Prop where
  grow : Grow layoutPolicy w₀ w
  le : w₀.nextObject ≤ r
  own : OwnElements w r
  class_eq : (w.objects r).class_ = .array
  extensible : (w.objects r).extensible = true
  writable : (w.objects r).indexed.writable = true
  length : (w.objects r).indexed.length = n
  stored : ∀ i, (w.objects r).indexed.stored i = (f i).map fun v => ⟨v, objectData⟩
  rest : ∀ i, n ≤ i → (w.objects r).indexed.sparse i = none
  shape : ∀ s, s < w₀.shapes.nextStructure → w₀.shapes.Shared s → w₀.shapes.SameShape w.shapes s

namespace Building

variable (h : Building w₀ w r n f)

include h

theorem creatable (i : ℕ) : Creatable w r i :=
  ⟨h.extensible, .inr h.writable, fun j hj _ => h.rest j (by rwa [h.length] at hj)⟩

theorem stored_none (hi : f i = none) : (w.objects r).indexed.stored i = none := by
  rw [h.stored, hi]
  rfl

theorem stores {ix : IndexedElements} (hr : Rewrites w w' r ix) (hi : f i = none)
    (hst : Stores (w.objects r).indexed ix i v)
    (hsparse : ∀ j, j ≠ i → ix.sparse j = (w.objects r).indexed.sparse j) :
    Building w₀ w' r (max n (i + 1)) (Function.update f i (some v)) where
  grow := h.grow.touch hr.touch h.le
  le := h.le
  own := hr.ownElements h.own
  class_eq := hr.class_eq.trans h.class_eq
  extensible := hr.extensible.trans h.extensible
  writable := by rw [hr.indexed, hst.writable, h.writable]
  length := by rw [hr.indexed, hst.length, h.length]
  stored j := by
    obtain ⟨u, hstored, hu⟩ := hst.stored
    have huv : u = v := by
      refine hu.resolve_right fun hold => ?_
      rw [h.stored_none hi] at hold
      cases hold.2
    rw [hr.indexed, hstored, huv, Function.update_apply, Function.update_apply]
    split
    · rfl
    · exact h.stored j
  rest j hj := by
    rw [hr.indexed, hsparse j (by omega)]
    exact h.rest j (by omega)
  shape s hlt hs := (h.shape s hlt hs).trans (hr.shape s (lt_of_lt_of_le hlt h.grow.nextStructure_le)
    ((h.shape s hlt hs).shared.mpr hs))

/-- **The step lemma of assignments.** -/
theorem put (hi : f i = none) (hv : v ≠ .empty) : ∃ w', JsObject.put r (.index i) v false w = .ok () w' ∧
    Building w₀ w' r (max n (i + 1)) (Function.update f i (some v)) := by
  obtain ⟨w', ix, hput, hr, hst, hsparse⟩ := h.own.put_new hv (h.stored_none hi) (h.creatable i) false
  exact ⟨w', hput, h.stores hr hi hst hsparse⟩

/-- **The step lemma of definitions.** -/
theorem define (hi : f i = none) (hv : v ≠ .empty) :
    ∃ w', defineOwnProperty r (.index i) (createDesc v) false w = .ok true w' ∧
      Building w₀ w' r (max n (i + 1)) (Function.update f i (some v)) := by
  obtain ⟨w', ix, hdef, hr, hst, hsparse⟩ := h.own.define hv (h.stored_none hi) (h.creatable i) false
  exact ⟨w', (defineOwnProperty_element h.class_eq i _ _).trans hdef, h.stores hr hi hst hsparse⟩

theorem read (hr : Read layoutPolicy w w') : Building w₀ w' r n f where
  grow := h.grow.read hr
  le := h.le
  own := (hr.rewrites h.own).ownElements h.own
  class_eq := by rw [hr.objects, h.class_eq]
  extensible := by rw [hr.objects, h.extensible]
  writable := by rw [hr.objects, h.writable]
  length := by rw [hr.objects, h.length]
  stored i := by rw [hr.objects, h.stored]
  rest i hi := by rw [hr.objects, h.rest i hi]
  shape s hlt hs := (h.shape s hlt hs).trans
    (hr.shape s (lt_of_lt_of_le hlt h.grow.nextStructure_le))

theorem arrayStructure (hs : w₀.ArrayStructure s) : w.ArrayStructure s :=
  hs.grow h.grow (h.shape s hs.lt hs.shared)

theorem element (i : ℕ) : w.element r i = f i := by
  rw [World.element, h.stored]
  cases f i <;> rfl

theorem plainArray (hn : n < 2 ^ 32) (hf : ∀ i v, f i = some v → v ≠ .empty) : PlainArray w r where
  __ := h
  u32 := by rwa [h.length]
  data i s hs := by
    rw [h.stored] at hs
    obtain ⟨v, hv, rfl⟩ := Option.map_eq_some_iff.mp hs
    exact ⟨rfl, hf i v hv⟩

theorem after_read (hr : Read layoutPolicy w' w₀) (hinv : w'.Inv layoutPolicy) : Building w' w r n f where
  grow := (hinv.grow_refl.read hr).trans h.grow
  le := hr.nextObject ▸ h.le
  __ := h
  shape s hlt hs := (hr.shape s hlt).trans
    (h.shape s (hr.nextStructure ▸ hlt) ((hr.shape s hlt).shared.mpr hs))

end Building

theorem building_new (hinv : w.Inv layoutPolicy) (hsound : w.SoundElements) (hs : w.ArrayStructure s)
    (n : ℕ) :
    ∃ w', JsArray.new s n w = .ok w.nextObject w' ∧ Building w w' w.nextObject n (fun _ => none) := by
  have hobj : JsObject.new s .array w = .ok w.nextObject (w.withArray s .new) := rfl
  have hgrows : Grows layoutPolicy w (JsObject.new s .array w) _ :=
    grows_newObject hinv trivial hs.lt hs.shared fun _ _ => hs.noLength
  have hkeep := keeps_new s .array w hsound
  rw [hobj] at hkeep
  have hgrow := (Result.Sat.of_ok hgrows hobj).1
  have hlt : w.nextObject < (w.withArray s .new).nextObject := Nat.lt_succ_self _
  have hset : modifyIndexed w.nextObject (fun ix => ix.setLength n) (w.withArray s .new) =
      .ok () (w.withArray s (IndexedElements.new.setLength n)) := by
    rw [modifyIndexed_apply, JsArray.indexed_withArray_self, JsArray.withElements_withArray]
  have hguard : Guards layoutPolicy False w.nextObject (w.withArray s .new)
      (modifyIndexed w.nextObject (fun ix => ix.setLength n) (w.withArray s .new)) fun _ _ => True :=
    guards_modifyIndexed_le hgrow.inv hlt fun ix => sparseLe_setLength ix n
  have htouch := (Result.Sat.of_ok hguard hset).1.toTouch
  have hnew := JsArray.holds_new n
  have hself : (w.withArray s (IndexedElements.new.setLength n)).objects w.nextObject = _ :=
    JsArray.objects_withArray_self
  have hgrow' := hgrow.touch htouch le_rfl
  refine ⟨_, JsArray.new_eq, ⟨hgrow', le_rfl, ⟨hgrow'.inv, hlt, ?_, ?_, fun p hp => ?_⟩, ?_, ?_, ?_, ?_,
    fun i => ?_, fun i _ => ?_, fun s _ _ => Shapes.SameShape.refl _ s⟩⟩
  · have hwith := hkeep.withElements (o := w.nextObject) hnew.sound
    rwa [JsArray.withElements_withArray] at hwith
  · rw [hself]
    rfl
  · rw [World.prototype, hself] at hp
    exact (hs.bare p hp).above hgrow' le_rfl hgrow'.nextObject_le
  · rw [hself]
  · rw [hself]
  · rw [hself]
    rfl
  · rw [hself]
    rfl
  · rw [hself, hnew.stored]
    rfl
  · rw [hself]
    exact hnew.rest i (Nat.zero_le i)

end Starlight
