import Starlight.Vm.ArrayNatives
import Starlight.Vm.NewArray

/-!
# Objects that answer for their elements

When an object is not a string object and none of its prototypes has elements, an element is read,
assigned and deleted on the object alone.
-/

namespace Starlight

open JsObject World Exec IndexedElements

variable {P : Policy} {w₀ w w' w'' : World} {o p i fuel : ℕ} {v val : JsValue} {ix ix' : IndexedElements}

def World.BareAbove (w : World) (o : ℕ) : ℕ → ℕ → Prop
  | 0, _ => False
  | fuel + 1, p => p ≠ o ∧ p < w.nextObject ∧
    (∀ i, ¬ (w.objects p).InText i ∧ (w.objects p).indexed.stored i = none) ∧
    ∀ q, w.prototype p = some q → w.BareAbove o fuel q

structure OwnElements (w : World) (o : ℕ) : Prop where
  inv : w.Inv layoutPolicy
  lt : o < w.nextObject
  sound : w.SoundElements
  plain : overridesIndexed (w.objects o).class_ = false
  bare : ∀ p, w.prototype o = some p → w.BareAbove o w.nextObject p

/-- The heap is as before but for the elements of object `o`, whose structure may have moved on. -/
structure Rewrites (w w' : World) (o : ℕ) (ix : IndexedElements) : Prop where
  touch : Touch layoutPolicy o w w'
  sound : w'.SoundElements
  object : ∃ s, w'.objects o = { w.objects o with structure_ := s, indexed := ix }
  table : w'.table o = w.table o
  prototype : w'.prototype o = w.prototype o
  shape : ∀ r, r < w.shapes.nextStructure → w.shapes.Shared r → w.shapes.SameShape w'.shapes r

theorem World.BareAbove.touch (h : w.BareAbove o fuel p) (ht : Touch P o w w') :
    w'.BareAbove o fuel p := by
  induction fuel generalizing p with
  | zero => exact h
  | succ fuel ih =>
    obtain ⟨hne, hlt, hnone, hproto⟩ := h
    have hsame := ht.frame p hlt hne
    refine ⟨hne, ht.nextObject ▸ hlt, by rwa [hsame.object], fun q hq => ih (hproto q ?_)⟩
    rwa [World.prototype, hsame.object, hsame.shape.prototype] at hq

theorem World.Bare.lt (h : w.Bare fuel p) : p < w.nextObject := by
  cases fuel with
  | zero => exact h.elim
  | succ fuel => exact h.1

theorem World.Bare.grow (h : w₀.Bare fuel p) (hg : Grow P w₀ w) {fuel' : ℕ} (hf : fuel ≤ fuel') :
    w.Bare fuel' p := by
  induction fuel generalizing p fuel' with
  | zero => exact h.elim
  | succ fuel ih =>
    obtain ⟨fuel', rfl⟩ : ∃ k, fuel' = k + 1 := ⟨fuel' - 1, by omega⟩
    obtain ⟨hlt, hnone, hproto⟩ := h
    have hsame := hg.frame p hlt
    refine ⟨lt_of_lt_of_le hlt hg.nextObject_le, by rwa [hsame.object], fun q hq => ?_⟩
    exact ih (hproto q (hsame.prototype_eq.symm.trans hq)) (by omega)

theorem World.Bare.above (h : w₀.Bare fuel p) (hg : Grow P w₀ w) (ho : w₀.nextObject ≤ o) {fuel' : ℕ}
    (hf : fuel ≤ fuel') : w.BareAbove o fuel' p := by
  induction fuel generalizing p fuel' with
  | zero => exact h.elim
  | succ fuel ih =>
    obtain ⟨fuel', rfl⟩ : ∃ k, fuel' = k + 1 := ⟨fuel' - 1, by omega⟩
    obtain ⟨hlt, hnone, hproto⟩ := h
    have hsame := hg.frame p hlt
    refine ⟨by omega, lt_of_lt_of_le hlt hg.nextObject_le, by rwa [hsame.object], fun q hq => ?_⟩
    rw [hsame.prototype_eq] at hq
    exact ih (hproto q hq) (by omega)

theorem OwnElements.touch (h : OwnElements w o) (ht : Touch layoutPolicy o w w') (hs : w'.SoundElements)
    (hproto : w'.prototype o = w.prototype o) : OwnElements w' o where
  inv := ht.inv
  lt := ht.nextObject ▸ h.lt
  sound := hs
  plain := by rw [ht.class_eq, h.plain]
  bare p hp := by
    rw [hproto] at hp
    rw [ht.nextObject]
    exact (h.bare p hp).touch ht

namespace Rewrites

variable (h : Rewrites w w' o ix)

include h

theorem indexed : (w'.objects o).indexed = ix := by
  obtain ⟨s, hs⟩ := h.object
  rw [hs]

theorem class_eq : (w'.objects o).class_ = (w.objects o).class_ := by
  obtain ⟨s, hs⟩ := h.object
  rw [hs]

theorem extensible : (w'.objects o).extensible = (w.objects o).extensible := by
  obtain ⟨s, hs⟩ := h.object
  rw [hs]

theorem namedSlot (n : Symbol) :
    JsObject.namedSlot (w'.table o) (w'.objects o) n = JsObject.namedSlot (w.table o) (w.objects o) n := by
  obtain ⟨s, hs⟩ := h.object
  rw [h.table, hs]
  rfl

theorem ownElements (ho : OwnElements w o) : OwnElements w' o := ho.touch h.touch h.sound h.prototype

end Rewrites

/-! ### Lookups -/

theorem OwnElements.not_inText (h : OwnElements w o) : ¬ (w.objects o).InText i := by
  rintro ⟨text, hc, -⟩
  have := h.plain
  rw [hc] at this
  cases this

theorem World.BareAbove.lookup (h : w.BareAbove o fuel p) (n i : ℕ) :
    getIndexedPropertySlotFrom (fuel + n) p i Slot.new w = .ok (false, Slot.new) w := by
  induction fuel generalizing p with
  | zero => exact h.elim
  | succ fuel ih =>
    obtain ⟨-, -, hnone, hproto⟩ := h
    have hown := getOwnIndexedPropertySlot_of_not_inText (hnone i).1 Slot.new
    rw [getOwnIndexedPropertySlotMethod_eq, (hnone i).2] at hown
    rw [Nat.add_right_comm, getIndexedPropertySlotFrom, bind_of_ok hown]
    dsimp only
    rw [if_neg Bool.false_ne_true, Vm.object_bind, gets_bind]
    cases hp : (w.shapes.structures (w.objects p).structure_).prototype with
    | some q => exact ih (hproto q hp)
    | none => rfl

theorem World.BareAbove.hasIndexedProperty (h : w.BareAbove o fuel p) (n : ℕ) :
    ∃ b, hasIndexedPropertyFrom (fuel + n) p w = .ok b w := by
  induction fuel generalizing p with
  | zero => exact h.elim
  | succ fuel ih =>
    obtain ⟨-, -, -, hproto⟩ := h
    rw [Nat.add_right_comm, hasIndexedPropertyFrom, Vm.object_bind, gets_bind]
    split
    · exact ⟨true, rfl⟩
    · cases hp : (w.shapes.structures (w.objects p).structure_).prototype with
      | some q => exact ih (hproto q hp)
      | none => exact ⟨false, rfl⟩

theorem OwnElements.lookup_absent (h : OwnElements w o) (hs : (w.objects o).indexed.stored i = none) :
    getIndexedPropertySlot o i Slot.new w = .ok (false, Slot.new) w := by
  have hown := getOwnIndexedPropertySlot_of_not_inText h.not_inText (i := i) Slot.new
  rw [getOwnIndexedPropertySlotMethod_eq, hs] at hown
  unfold getIndexedPropertySlot
  rw [gets_bind, getIndexedPropertySlotFrom, bind_of_ok hown]
  dsimp only
  rw [if_neg Bool.false_ne_true, Vm.object_bind, gets_bind]
  cases hp : (w.shapes.structures (w.objects o).structure_).prototype with
  | some p => exact (h.bare p hp).lookup 0 i
  | none => rfl

theorem OwnElements.canPutDense (h : OwnElements w o) (i : ℕ) :
    ∃ b, JsObject.canPutDense o i w = .ok b w := by
  unfold JsObject.canPutDense
  rw [Vm.object_bind, gets_bind]
  split
  · cases hp : (w.shapes.structures (w.objects o).structure_).prototype with
    | some p => exact (h.bare p hp).hasIndexedProperty 1
    | none => exact ⟨true, rfl⟩
  · exact ⟨false, rfl⟩

theorem OwnElements.mayCreate (h : OwnElements w o) (hext : (w.objects o).extensible = true)
    (hs : (w.objects o).indexed.stored i = none) : MayCreate w o i (w.nextObject + 1) o := by
  have hup : ∀ fuel p, w.BareAbove o fuel p → MayCreate w o i fuel p := by
    intro fuel
    induction fuel with
    | zero => exact fun _ hp => hp
    | succ fuel ih =>
      rintro p ⟨-, -, hnone, hproto⟩
      refine ⟨(hnone i).1, ?_⟩
      rw [(hnone i).2]
      dsimp only
      cases hp : (w.shapes.structures (w.objects p).structure_).prototype with
      | some q => exact ih q (hproto q hp)
      | none => exact hext
  refine ⟨h.not_inText, ?_⟩
  rw [hs]
  dsimp only
  cases hp : (w.shapes.structures (w.objects o).structure_).prototype with
  | some p => exact hup w.nextObject p (h.bare p hp)
  | none => exact hext

theorem OwnElements.getSlot_eq (h : OwnElements w o)
    (hdata : ∀ s, (w.objects o).indexed.stored i = some s → s.attributes.accessor = false)
    (strict : ℕ → Bool) : getSlot o (.index i) strict Slot.new w =
      .ok (((w.objects o).indexed.stored i).elim .undefined StoredSlot.value) w := by
  cases hs : (w.objects o).indexed.stored i with
  | some s => exact getSlot_of_stored h.not_inText hs (hdata s hs) strict
  | none =>
    have hlook : getPropertySlot o (.index i) Slot.new w = .ok (false, Slot.new) w := h.lookup_absent hs
    have hvalue : slotValue o false Slot.new w = .ok .undefined w := rfl
    unfold getSlot
    rw [bind_of_ok hlook]
    dsimp only
    rw [bind_of_ok hvalue, Vm.object_bind]
    cases (w.objects o).class_ <;> rfl

/-! ### Assignments -/

theorem makeIndexed_prototype (h : w.Inv P) (ho : o < w.nextObject)
    (hrun : makeIndexed o w = .ok () w') : w'.prototype o = w.prototype o := by
  unfold makeIndexed at hrun
  rw [Vm.object_bind, gets_bind] at hrun
  split at hrun
  · cases hrun
    rfl
  · obtain ⟨-, htgt⟩ := h.shapes.changeIndexedTransition (h.live ho)
    obtain rfl := (Result.ok.inj hrun).2
    simp only [World.prototype, Function.update_self]
    exact htgt.prototype

theorem OwnElements.touch_put (h : OwnElements w o) {name : Symbol} {throwable : Bool}
    (hrun : put o name v throwable w = .ok () w') : Touch layoutPolicy o w w' ∧ w'.SoundElements := by
  have hguard : Guards layoutPolicy False o w (put o name v throwable w) fun _ _ => True :=
    guards_put h.inv h.lt throwable trivial trivial
  have hkeep := keeps_put o name v throwable w h.sound
  rw [hrun] at hkeep
  exact ⟨(Result.Sat.of_ok hguard hrun).1.toTouch, hkeep⟩

theorem makeIndexed_shape (h : w.Inv P) (ho : o < w.nextObject) (hrun : makeIndexed o w = .ok () w') (r : ℕ)
    (hr : r < w.shapes.nextStructure) (hs : w.shapes.Shared r) : w.shapes.SameShape w'.shapes r := by
  unfold makeIndexed at hrun
  rw [Vm.object_bind, gets_bind] at hrun
  split at hrun
  · cases hrun
    exact Shapes.SameShape.refl _ r
  · obtain ⟨htrans, -⟩ := h.shapes.changeIndexedTransition (h.live ho)
    obtain rfl := (Result.ok.inj hrun).2
    exact htrans.frame r ⟨hr, .inl hs⟩ (.inl hs)

theorem OwnElements.rewrites (h : OwnElements w o) {σ : Shapes} {s : ℕ}
    (hmake : makeIndexed o w = .ok () (w.moved o σ s) ∨ w.moved o σ s = w)
    (ht : Touch layoutPolicy o w ((w.moved o σ s).withElements o ix))
    (hs : ((w.moved o σ s).withElements o ix).SoundElements) :
    Rewrites w ((w.moved o σ s).withElements o ix) o ix where
  touch := ht
  sound := hs
  object := ⟨s, by simp [World.withElements, World.moved]⟩
  table := by
    have hrest : ((w.moved o σ s).withElements o ix).table o = (w.moved o σ s).table o := by
      simp [World.table, World.withElements]
    rw [hrest]
    rcases hmake with hmake | hmake
    · have hguard : Guards layoutPolicy False o w (makeIndexed o w) fun _ w' => w'.table o = w.table o :=
        guards_makeIndexed h.inv h.lt
      exact (Result.Sat.of_ok hguard hmake).2
    · rw [hmake]
  prototype := by
    have hrest : ((w.moved o σ s).withElements o ix).prototype o = (w.moved o σ s).prototype o := by
      simp [World.prototype, World.withElements]
    rw [hrest]
    rcases hmake with hmake | hmake
    · exact makeIndexed_prototype h.inv h.lt hmake
    · rw [hmake]
  shape r hr hsh := by
    change w.shapes.SameShape (w.moved o σ s).shapes r
    rcases hmake with hmake | hmake
    · exact makeIndexed_shape h.inv h.lt hmake r hr hsh
    · rw [hmake]
      exact Shapes.SameShape.refl _ r

theorem OwnElements.rewrites_put (h : OwnElements w o) {name : Symbol} {throwable : Bool} {σ : Shapes}
    {s : ℕ} (hmake : makeIndexed o w = .ok () (w.moved o σ s) ∨ w.moved o σ s = w)
    (hrun : put o name v throwable w = .ok () ((w.moved o σ s).withElements o ix)) :
    Rewrites w ((w.moved o σ s).withElements o ix) o ix :=
  h.rewrites hmake (h.touch_put hrun).1 (h.touch_put hrun).2

theorem OwnElements.rewrites_define (h : OwnElements w o) {desc : PropertyDescriptor} {throwable b : Bool}
    {σ : Shapes} {s : ℕ} (hmake : makeIndexed o w = .ok () (w.moved o σ s) ∨ w.moved o σ s = w)
    (hrun : defineOwnIndexedPropertyInternal o i desc throwable w =
      .ok b ((w.moved o σ s).withElements o ix)) :
    Rewrites w ((w.moved o σ s).withElements o ix) o ix := by
  have hguard : Guards layoutPolicy False o w (defineOwnIndexedPropertyInternal o i desc throwable w)
      fun _ _ => True := guards_defineOwnIndexedPropertyInternal h.inv h.lt i desc throwable trivial
  have hkeep := keeps_defineOwnIndexedPropertyInternal o i desc throwable w h.sound
  rw [hrun] at hkeep
  exact h.rewrites hmake (Result.Sat.of_ok hguard hrun).1.toTouch hkeep

theorem OwnElements.rewrites_self (h : OwnElements w o) {name : Symbol} {throwable : Bool}
    (hrun : put o name v throwable w = .ok () (w.withElements o ix)) :
    Rewrites w (w.withElements o ix) o ix := by
  have hself : w.moved o w.shapes (w.objects o).structure_ = w := by
    rw [World.moved, Function.update_eq_self]
  have hrun' : put o name v throwable w =
      .ok () ((w.moved o w.shapes (w.objects o).structure_).withElements o ix) := by rw [hself, hrun]
  have hrew := h.rewrites_put (.inr hself) hrun'
  rwa [hself] at hrew

structure Stores (ix ix' : IndexedElements) (i : ℕ) (v : JsValue) : Prop where
  length : ix'.length = max ix.length (i + 1)
  writable : ix'.writable = ix.writable
  stored : ∃ u, ix'.stored = Function.update ix.stored i (some ⟨u, objectData⟩) ∧
    (u = v ∨ v.sameValue u = true ∧ ix.stored i = some ⟨u, objectData⟩)

theorem Stores.of_overwritten (h : ix.Sound) {s : StoredSlot} (hs : ix.stored i = some s)
    (ha : s.attributes = objectData) (ho : Overwritten ix ix' i s.value v) : Stores ix ix' i v where
  length := by
    have := h.lt_of_stored hs
    rw [ho.length, max_eq_left (by omega)]
  writable := ho.writable
  stored := by
    have hold : ix.stored i = some ⟨s.value, objectData⟩ := by rw [hs, ← ha]
    rw [ho.stored]
    split
    · next hsame => exact ⟨s.value, by rw [← hold, Function.update_eq_self], .inr ⟨hsame, hold⟩⟩
    · exact ⟨v, rfl, .inl rfl⟩

theorem Stores.of_vector (h : ix.Sound) (hd : ix.dense = true) (hi : i < maxVectorSize) (hv : v ≠ .empty)
    (nonGc : Bool) : Stores ix (ix.storeDense i v nonGc) i v :=
  ⟨rfl, rfl, v, h.stored_storeDense hd hi hv nonGc, .inl rfl⟩

theorem stored_raised (h : ∀ j, ix.length ≤ j → j ≤ i → ix.sparse j = none) :
    (JsArray.raised ix i).stored = ix.stored := by
  have hsparse : (JsArray.raised ix i).sparse = ix.sparse := sparse_getD_map ix
  funext j
  unfold IndexedElements.stored
  rw [hsparse]
  change (if _ then _ else if j < max ix.length (i + 1) then ix.sparse j else none) = _
  by_cases hj : ix.length ≤ j
  · rw [if_neg (show ¬ j < ix.length by omega)]
    by_cases hji : j ≤ i
    · rw [h j hj hji, ite_self]
      rfl
    · rw [if_neg (show ¬ j < max ix.length (i + 1) by omega)]
      rfl
  · rw [if_pos (show j < max ix.length (i + 1) by omega), if_pos (show j < ix.length by omega)]
    rfl

theorem IndexedElements.Sound.raised (h : ix.Sound) (i : ℕ) : (JsArray.raised ix i).Sound where
  vector j hne := ⟨(h.vector j hne).1, lt_of_lt_of_le (h.vector j hne).2 (le_max_left _ _)⟩
  size := h.size
  map hd j hj := (congrFun (sparse_getD_map ix) j).trans (h.map hd j hj)
  cell j s hs := h.cell j s ((congrFun (sparse_getD_map ix) j).symm.trans hs)

theorem Stores.of_map (h : ix.Sound) (hd : ix.dense = true → maxVectorSize ≤ i)
    (hrest : ∀ j, ix.length ≤ j → j ≤ i → ix.sparse j = none) (nonGc : Bool) :
    Stores ix ((JsArray.raised ix i).storeSparse i ⟨v, objectData⟩ nonGc) i v where
  length := rfl
  writable := rfl
  stored := by
    have hlt : i < (JsArray.raised ix i).length := lt_of_lt_of_le (Nat.lt_succ_self _) (le_max_right _ _)
    refine ⟨v, ?_, .inl rfl⟩
    have hcell : (⟨v, objectData⟩ : StoredSlot).attributes.accessor = true → v ≠ .empty :=
      fun hc => nomatch hc
    rw [(h.raised i).stored_storeSparse hd hcell nonGc hlt, stored_raised hrest]

theorem defineOwnIndexedPropertyInternal_map (h : (w.objects o).indexed.Sound)
    (hd : (w.objects o).indexed.dense = true → maxVectorSize ≤ i) {s : StoredSlot}
    (hs : (w.objects o).indexed.stored i = some s) (ha : s.attributes = objectData) (v : JsValue)
    (throwable : Bool) : ∃ ix, defineOwnIndexedPropertyInternal o i (assignDesc v) throwable w =
      .ok true (w.withElements o ix) ∧ Overwritten (w.objects o).indexed ix i s.value v := by
  have hlt := h.lt_of_stored hs
  have hentry : (w.objects o).indexed.sparse i = some s := by
    rw [h.stored_map hd, if_pos hlt] at hs
    exact hs
  obtain ⟨m, hm, hentry⟩ := Option.bind_eq_some_iff.mp hentry
  obtain ⟨nonGc, hrun⟩ := defineOwnIndexedSparse_assign rfl hm hentry ha v throwable
  have hdefault : (assignDesc v).attrs.isDefault = false := rfl
  have habsent : isAbsentDescriptor (assignDesc v) = false := rfl
  have hstay : ((w.objects o).indexed.dense && !(assignDesc v).attrs.isDefault &&
      decide (i < maxVectorSize)) = false := by
    cases hdense : (w.objects o).indexed.dense with
    | false => rfl
    | true =>
      have := hd hdense
      rw [decide_eq_false (by omega), Bool.and_false]
  have hmap : defineOwnIndexedPropertyInternal o i (assignDesc v) throwable w =
      defineOwnIndexedSparse o i (assignDesc v) throwable w := by
    unfold defineOwnIndexedPropertyInternal
    rw [Vm.object_bind, if_neg (by simp [Nat.not_le.mpr hlt]), if_neg (by simp [hdefault]),
      if_neg (by simp [habsent]), hstay]
    rfl
  refine ⟨_, hmap.trans hrun, ?_⟩
  cases hsame : JsValue.sameValue v s.value with
  | true => exact ⟨rfl, rfl, by rw [hsame]; rfl⟩
  | false =>
    have hcell : (⟨v, objectData⟩ : StoredSlot).attributes.accessor = true → v ≠ .empty :=
      fun hc => nomatch hc
    refine ⟨rfl, rfl, ?_⟩
    rw [hsame]
    exact h.stored_storeSparse hd hcell nonGc hlt

theorem defineOwnIndexedPropertyInternal_sparse
    (hd : (w.objects o).indexed.dense = true → maxVectorSize ≤ i)
    (hlen : i < (w.objects o).indexed.length ∨ (w.objects o).indexed.writable = true) (v : JsValue)
    (throwable : Bool) : defineOwnIndexedPropertyInternal o i (createDesc v) throwable w =
      defineOwnIndexedSparse o i (createDesc v) throwable w := by
  have hdefault : (createDesc v).attrs.isDefault = true := rfl
  have hmap : ¬ ((w.objects o).indexed.dense && (createDesc v).attrs.isDefault &&
      decide (i < maxVectorSize)) = true := by
    intro hc
    simp only [Bool.and_eq_true, decide_eq_true_eq] at hc
    have := hd hc.1.1
    omega
  unfold defineOwnIndexedPropertyInternal
  rw [Vm.object_bind, if_neg (not_locked hlen), if_neg hmap, if_neg (by simp [hdefault]), hdefault]
  simp only [Bool.not_true, Bool.and_false, Bool.false_and]
  rfl

theorem defineOwnIndexedPropertyInternal_create (hi : (w.objects o).indexed.sparse i = none)
    (hd : (w.objects o).indexed.dense = true → maxVectorSize ≤ i)
    (hext : (w.objects o).extensible = true)
    (hlen : i < (w.objects o).indexed.length ∨ (w.objects o).indexed.writable = true) (v : JsValue)
    (throwable : Bool) : ∃ σ s nonGc, makeIndexed o w = .ok () (w.moved o σ s) ∧
      defineOwnIndexedPropertyInternal o i (createDesc v) throwable w =
        .ok true ((w.moved o σ s).withElements o
          ((JsArray.raised (w.objects o).indexed i).storeSparse i ⟨v, objectData⟩ nonGc)) := by
  obtain ⟨σ, s, nonGc, hmake, hrun⟩ := defineOwnIndexedSparse_create hi hext v throwable
  exact ⟨σ, s, nonGc, hmake, (defineOwnIndexedPropertyInternal_sparse hd hlen v throwable).trans hrun⟩

/-- What an assignment may need to create an element. -/
structure Creatable (w : World) (o i : ℕ) : Prop where
  extensible : (w.objects o).extensible = true
  length : i < (w.objects o).indexed.length ∨ (w.objects o).indexed.writable = true
  /-- No entry is left in the map behind the length. -/
  rest : ∀ j, (w.objects o).indexed.length ≤ j → j ≤ i → (w.objects o).indexed.sparse j = none

theorem OwnElements.define (h : OwnElements w o) (hv : v ≠ .empty)
    (hs : (w.objects o).indexed.stored i = none) (hc : Creatable w o i) (throwable : Bool) :
    ∃ w' ix, defineOwnIndexedPropertyInternal o i (createDesc v) throwable w = .ok true w' ∧
      Rewrites w w' o ix ∧ Stores (w.objects o).indexed ix i v ∧
      ∀ j, j ≠ i → ix.sparse j = (w.objects o).indexed.sparse j := by
  have hsound := h.sound o
  by_cases hvec : (w.objects o).indexed.dense = true ∧ i < maxVectorSize
  · obtain ⟨hd, hi⟩ := hvec
    obtain ⟨σ, s, nonGc, hmake, hrun⟩ := defineOwnIndexeValueDenseInternal_eq o i v false w
    have hdef := defineOwnIndexedPropertyInternal_vector ⟨hsound, hd, hi⟩ hc.length v throwable hrun
    exact ⟨_, _, hdef, h.rewrites_define hmake hdef, .of_vector hsound hd hi hv nonGc, fun _ _ => rfl⟩
  · have hd : (w.objects o).indexed.dense = true → maxVectorSize ≤ i := fun hd =>
      Nat.le_of_not_lt fun hi => hvec ⟨hd, hi⟩
    have hi : (w.objects o).indexed.sparse i = none := by
      by_cases hlt : i < (w.objects o).indexed.length
      · rw [hsound.stored_map hd, if_pos hlt] at hs
        exact hs
      · exact hc.rest i (Nat.le_of_not_lt hlt) le_rfl
    obtain ⟨σ, s, nonGc, hmake, hdef⟩ :=
      defineOwnIndexedPropertyInternal_create hi hd hc.extensible hc.length v throwable
    refine ⟨_, _, hdef, h.rewrites_define (.inl hmake) hdef, .of_map hsound hd hc.rest nonGc,
      fun j hj => ?_⟩
    rw [sparse_storeSparse, if_neg hj]
    exact congrFun (sparse_getD_map _) j

theorem OwnElements.put_new (h : OwnElements w o) (hv : v ≠ .empty)
    (hs : (w.objects o).indexed.stored i = none) (hc : Creatable w o i) (throwable : Bool) :
    ∃ w' ix, JsObject.put o (.index i) v throwable w = .ok () w' ∧ Rewrites w w' o ix ∧
      Stores (w.objects o).indexed ix i v ∧ ∀ j, j ≠ i → ix.sparse j = (w.objects o).indexed.sparse j := by
  obtain ⟨b, hcan⟩ := h.canPutDense i
  cases b with
  | true =>
    obtain ⟨-, hdense⟩ := canPutDense_dense hcan
    obtain ⟨hd, hi⟩ := hdense rfl
    obtain ⟨σ, s, nonGc, hmake, hrun⟩ := defineOwnIndexeValueDenseInternal_eq o i v false w
    have hput := (put_of_canPutDense hcan v throwable).trans hrun
    exact ⟨_, _, hput, h.rewrites_put hmake hput, .of_vector (h.sound o) hd hi hv nonGc, fun _ _ => rfl⟩
  | false =>
    obtain ⟨w', ix, hdef, hrest⟩ := h.define hv hs hc throwable
    exact ⟨w', ix, (put_of_not_canPutDense hcan v throwable).trans
      (putIndexedGeneral_of_create h.not_inText hs (h.mayCreate hc.extensible hs) hdef), hrest⟩

/-- **Assigning an element** that is an ordinary property, or that may be created as one. -/
theorem OwnElements.put (h : OwnElements w o) (hv : v ≠ .empty)
    (hold : ∀ s, (w.objects o).indexed.stored i = some s → s.attributes = objectData)
    (hnew : (w.objects o).indexed.stored i = none → Creatable w o i) (throwable : Bool) :
    ∃ w' ix, JsObject.put o (.index i) v throwable w = .ok () w' ∧ Rewrites w w' o ix ∧
      Stores (w.objects o).indexed ix i v := by
  cases hs : (w.objects o).indexed.stored i with
  | none =>
    obtain ⟨w', ix, hput, hrew, hstores, -⟩ := h.put_new hv hs (hnew hs) throwable
    exact ⟨w', ix, hput, hrew, hstores⟩
  | some s =>
    have hsound := h.sound o
    obtain ⟨b, hcan⟩ := h.canPutDense i
    cases b with
    | true =>
      obtain ⟨-, hdense⟩ := canPutDense_dense hcan
      obtain ⟨hd, hi⟩ := hdense rfl
      obtain ⟨σ, s, nonGc, hmake, hrun⟩ := defineOwnIndexeValueDenseInternal_eq o i v false w
      have hput := (put_of_canPutDense hcan v throwable).trans hrun
      exact ⟨_, _, hput, h.rewrites_put hmake hput, .of_vector hsound hd hi hv nonGc⟩
    | false =>
      have hput := put_of_not_canPutDense hcan v throwable
      -- the vector and the map are alike to the general path
      have hgeneral : ∃ ix, putIndexedGeneral o i v throwable w = .ok () (w.withElements o ix) ∧
          Overwritten (w.objects o).indexed ix i s.value v := by
        by_cases hvec : (w.objects o).indexed.dense = true ∧ i < maxVectorSize
        · exact putIndexedGeneral_present ⟨hsound, hvec.1, hvec.2⟩ h.not_inText hs v throwable
        · exact putIndexedGeneral_of_assign h.not_inText hs (hold s hs)
            (defineOwnIndexedPropertyInternal_map hsound
              (fun hd => Nat.le_of_not_lt fun hi => hvec ⟨hd, hi⟩) hs (hold s hs) v throwable)
      obtain ⟨ix, hrun, hix⟩ := hgeneral
      exact ⟨_, ix, hput.trans hrun, h.rewrites_self (hput.trans hrun),
        .of_overwritten hsound hs (hold s hs) hix⟩

/-! ### Deletion -/

theorem OwnElements.delete_eq (h : OwnElements w o) (i : ℕ) (throwable : Bool) :
    JsObject.delete o (.index i) throwable w = deleteIndexedInternal o i throwable w := by
  change deleteIndexed o i throwable w = _
  unfold deleteIndexed
  rw [Vm.object_bind, h.plain, if_neg Bool.false_ne_true]

theorem OwnElements.delete_fixed (h : OwnElements w o) (hf : Fixed (w.objects o).indexed.stored i)
    (throwable : Bool) : JsObject.delete o (.index i) throwable w =
      Vm.reject throwable "trying to delete non-configurable property" false w := by
  rw [h.delete_eq, deleteIndexedInternal_eq, if_pos ((h.sound o).fixed_iff.mpr hf)]

theorem OwnElements.delete (h : OwnElements w o) (hfree : ¬ Fixed (w.objects o).indexed.stored i)
    (throwable : Bool) : ∃ w', JsObject.delete o (.index i) throwable w = .ok true w' ∧
      Rewrites w w' o ((w.objects o).indexed.remove i) := by
  have hrun : JsObject.delete o (.index i) throwable w =
      .ok true (w.withElements o ((w.objects o).indexed.remove i)) := by
    rw [h.delete_eq, deleteIndexedInternal_eq, if_neg fun hf => hfree ((h.sound o).fixed_iff.mp hf)]
  have hguard : Guards layoutPolicy False o w (JsObject.delete o (.index i) throwable w) fun _ _ => True :=
    guards_delete h.inv h.lt (.index i) throwable
  have hkeep := keeps_delete o (.index i) throwable w h.sound
  rw [hrun] at hkeep
  exact ⟨_, hrun, (Result.Sat.of_ok hguard hrun).1.toTouch, hkeep,
    ⟨(w.objects o).structure_, by simp [World.withElements]⟩, by simp [World.table, World.withElements],
    by simp [World.prototype, World.withElements], fun r _ _ => Shapes.SameShape.refl _ r⟩

end Starlight
