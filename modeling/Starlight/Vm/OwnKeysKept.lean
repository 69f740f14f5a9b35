import Starlight.Vm.OwnNames

/-!
# Definitions keep the own keys

Defining a property again, as `freeze`, `seal` and `copy` do for one key after the other, takes no key
away from the object: a named property changes in its own slot, an element is stored anew, perhaps in the
map, and the length of an array stays what it is.
-/

namespace Starlight

open JsObject World Exec IndexedElements

variable {P : Policy} {w w' w'' : World} {o : ℕ} {name : Symbol}

/-- What is stored under a key of object `o` is still there. -/
structure KeepsOwn (w w' : World) (o : ℕ) : Prop where
  class_eq : (w'.objects o).class_ = (w.objects o).class_
  stored : ∀ n s, storedOwn w o n = some s → Filled s →
    ∃ s', storedOwn w' o n = some s' ∧ Filled s'

theorem KeepsOwn.trans (h : KeepsOwn w w' o) (h' : KeepsOwn w' w'' o) : KeepsOwn w w'' o where
  class_eq := h'.class_eq.trans h.class_eq
  stored n s hs hf := by
    obtain ⟨s', hs', hf'⟩ := h.stored n s hs hf
    exact h'.stored n s' hs' hf'

theorem KeepsOwn.of_eq (hclass : (w'.objects o).class_ = (w.objects o).class_)
    (h : ∀ n, storedOwn w' o n = storedOwn w o n) : KeepsOwn w w' o :=
  ⟨hclass, fun n s hs hf => ⟨s, (h n).trans hs, hf⟩⟩

theorem KeepsOwn.present (h : KeepsOwn w w' o) {n : Symbol} (hp : Present w o n) :
    Present w' o n := by
  have hspecial : (w'.objects o).Special n ↔ (w.objects o).Special n := by
    cases n <;> simp only [JsObject.Special, JsObject.InText, h.class_eq]
  refine ⟨fun hpast => hp.1 ?_, ?_⟩
  · unfold JsObject.PastText at hpast ⊢
    rwa [h.class_eq] at hpast
  · rcases hp.2 with hs | ⟨s, hs, hf⟩
    · exact .inl (hspecial.mpr hs)
    · exact .inr (h.stored n s hs hf)

theorem storedOwn_congr (htable : w'.table o = w.table o) (hobj : w'.objects o = w.objects o)
    (n : Symbol) : storedOwn w' o n = storedOwn w o n := by
  cases n <;> simp only [storedOwn, htable, hobj]

theorem World.Read.keepsOwn (hr : Read P w w') (h : w.Inv P) (ho : o < w.nextObject) :
    KeepsOwn w w' o :=
  .of_eq (by rw [hr.objects]) (storedOwn_congr (hr.table h ho) (by rw [hr.objects]))

/-! ### Named properties -/

theorem StoredAt.keepsOwn {stored : StoredSlot} (h : StoredAt w w' o name stored)
    (hname : ∀ i, name ≠ .index i) (hf : Filled stored) : KeepsOwn w w' o where
  class_eq := h.class_eq
  stored n s hs hs' := by
    by_cases hn : n = name
    · subst hn
      exact ⟨stored, (storedOwn_of_not_index hname).trans h.self, hf⟩
    · refine ⟨s, ?_, hs'⟩
      rw [← hs]
      cases n with
      | index i => simp only [storedOwn, h.others.indexed]
      | key t | priv t => exact h.others.named _ hn

theorem keepsOwn_method (h : w.Inv layoutPolicy) (ho : o < w.nextObject)
    (hname : ∀ i, name ≠ .index i)
    (hlen : ¬ (overridesLength (w.objects o).class_ ∧ name = Symbol.length))
    {desc : PropertyDescriptor} {slot : Slot} {throwable : Bool} {r : Bool × Slot} (hp : Present w o name)
    (hrun : defineOwnNonIndexedPropertySlotMethod o name desc slot throwable w = .ok r w') :
    KeepsOwn w w' o := by
  have hlook : Reads layoutPolicy w (getOwnPropertySlot o name slot w)
      fun r => OwnLookup w o name slot r.1 r.2 := by
    rw [getOwnPropertySlot_of_not_index hname]
    exact reads_getOwnNonIndexedPropertySlot h ho _ slot
  obtain ⟨s, hs, hf⟩ := hp.2.resolve_left ((special_of_not_index hname _).not.mpr hlen)
  rw [storedOwn_of_not_index hname] at hs
  unfold defineOwnNonIndexedPropertySlotMethod at hrun
  have hused : slot.isUsed = false := rfl
  simp only [hused, Bool.false_eq_true, if_false] at hrun
  obtain ⟨⟨found, slot'⟩, w₁, hown, hrun⟩ := bind_eq_ok hrun
  obtain ⟨hr, hl⟩ := Result.Sat.of_ok hlook hown
  have ho₁ : o < w₁.nextObject := hr.nextObject ▸ ho
  refine (hr.keepsOwn h ho).trans ?_
  cases hl with
  | special v a _ hs => exact absurd hs hlen
  | absent c he =>
    rw [namedSlot, he] at hs
    cases hs
  | named e v c he hv =>
    rw [namedSlot_of_lookup he hv] at hs
    cases hs
    have he₁ : (w₁.table o).lookup name = some e := hr.table h ho ▸ he
    have hslot₁ := namedSlot_of_lookup he₁ (hr.objects ▸ hv)
    have hst : Storable layoutPolicy w₁ o (.named name) ⟨v, e.attrs⟩ := hr.inv.storable ho₁ hslot₁
    split at hrun
    · obtain ⟨⟨accepted, returned⟩, w₂, hacc, hrun⟩ := bind_eq_ok hrun
      obtain ⟨hr₂, hacc⟩ := Result.Sat.of_ok
        (reads_isDefinedPropertyAccepted hr.inv hst.hasCell hst.typed desc throwable) hacc
      have ho₂ : o < w₂.nextObject := hr₂.nextObject ▸ ho₁
      have he₂ : (w₂.table o).lookup name = some e := hr₂.table hr.inv ho₁ ▸ he₁
      have hslot₂ : namedSlot (w₂.table o) (w₂.objects o) name = some ⟨v, e.attrs⟩ := by
        rw [hr₂.table hr.inv ho₁, hr₂.objects]
        exact hslot₁
      refine (hr₂.keepsOwn hr.inv ho₁).trans ?_
      cases accepted with
      | false =>
        cases hrun
        exact hr₂.inv.read_refl.keepsOwn hr₂.inv ho₂
      | true =>
        simp only [if_true] at hrun
        obtain ⟨stored, w₃, hmerge, hrun⟩ := bind_eq_ok hrun
        have hguard : Guards layoutPolicy False o w₂ _ _ := guards_merge hr₂.inv ho₂
          (hr₂.inv.storable (l := .named name) ho₂ hslot₂)
          (fun _ _ => ⟨fun _ _ => trivial, fun _ _ _ => trivial⟩) fun n hn => by
            cases hn
            rw [hr₂.accessors]
            exact ⟨hslot₂, fun hconf => (hacc hconf rfl).mono False.elim⟩
        obtain ⟨ht₃, hst₃, -, hobj₃, hsh₃, -⟩ := Result.Sat.of_ok hguard hmerge
        have he₃ : (w₃.table o).lookup name = some e := by
          rw [World.table, hobj₃, hsh₃]
          exact he₂
        obtain ⟨w₄, hrep, hat⟩ := storedAt_replaceProperty ht₃.inv (ht₃.nextObject ▸ ho₂) he₃
          hst₃.typed
        have hkeep : KeepsOwn w₂ w₃ o := .of_eq (by rw [hobj₃])
          (storedOwn_congr (by rw [World.table, hobj₃, hsh₃, World.table]) (by rw [hobj₃]))
        refine hkeep.trans ?_
        obtain ⟨u, w₅, hrep', hret⟩ := bind_eq_ok hrun
        cases hret
        cases hrep'.symm.trans hrep
        exact hat.keepsOwn hname (merge_cell hf hmerge)
    · next hc =>
      refine absurd ?_ hc
      simp [Slot.isNotFound, Slot.attributes, hst.typed.isNotFound]

/-! ### The length of an array -/

theorem reject_eq_ok {throwable : Bool} {msg : String} {b b' : Bool}
    (h : (Vm.reject throwable msg b : Vm Bool) w = .ok b' w') : w' = w := by
  cases throwable with
  | true => cases h
  | false => cases h; rfl

theorem KeepsOwn.refl (w : World) (o : ℕ) : KeepsOwn w w o := .of_eq rfl fun _ => rfl

theorem keepsOwn_changeLengthWritable {writable throwable b : Bool}
    (hrun : changeLengthWritable o writable throwable w = .ok b w') : KeepsOwn w w' o := by
  unfold changeLengthWritable at hrun
  rw [Vm.object_bind] at hrun
  split at hrun
  · obtain ⟨u, w₁, hmod, hret⟩ := bind_eq_ok hrun
    cases hret
    cases hmod
    refine .of_eq (by simp) fun n => ?_
    cases n <;> simp [storedOwn, World.table, IndexedElements.stored, IndexedElements.sparse, namedSlot]
  · split at hrun
    · rw [reject_eq_ok hrun]
      exact .refl w o
    · cases hrun
      exact .refl w o

theorem keepsOwn_length {desc : PropertyDescriptor} {throwable b : Bool}
    (hfst : desc.fst = JsValue.newF64 (w.objects o).indexed.length)
    (hrun : defineLengthProperty o desc throwable w = .ok b w') : KeepsOwn w w' o := by
  have hreject : ∀ {msg}, (Vm.reject throwable msg false : Vm Bool) w = .ok b w' → KeepsOwn w w' o :=
    fun h => by rw [reject_eq_ok h]; exact .refl w o
  have hwritable : (if !desc.attrs.undefWritable then
      changeLengthWritable o desc.attrs.writable throwable else pure true : Vm Bool) w = .ok b w' →
      KeepsOwn w w' o := by
    intro h
    split at h
    · exact keepsOwn_changeLengthWritable h
    · cases h
      exact .refl w o
  unfold defineLengthProperty at hrun
  split at hrun
  · exact hreject hrun
  split at hrun
  · exact hreject hrun
  split at hrun
  · exact hreject hrun
  split at hrun
  · exact hwritable hrun
  rw [hfst] at hrun
  have hnum : toNumber (JsValue.newF64 (w.objects o).indexed.length) w =
      .ok (F64.ofInt (w.objects o).indexed.length) w := rfl
  rw [Exec.bind_of_ok hnum] at hrun
  unfold defineLengthTo at hrun
  split at hrun
  · cases hrun
  · next heq =>
    rw [Vm.object_bind] at hrun
    -- the comparison of the doubles says that the length is the one that is there
    have hsame : (F64.ofInt (w.objects o).indexed.length).toU32 = (w.objects o).indexed.length := by
      simpa [F64.eq, F64.ofInt] using heq
    rw [if_pos hsame] at hrun
    exact hwritable hrun

/-! ### Definitions of named properties -/

theorem storedOwn_unconstructed (w : World) (o : ℕ) (n : Symbol) :
    storedOwn (w.unconstructed o) o n = storedOwn w o n := by
  cases n <;> simp [storedOwn, namedSlot]

theorem keepsOwn_named (h : w.Inv layoutPolicy) (ho : o < w.nextObject)
    (hname : ∀ i, name ≠ .index i) (hstr : ¬ isString (w.objects o).class_)
    {desc : PropertyDescriptor} {slot : Slot} {throwable : Bool} {r : Bool × Slot}
    (hfst : (w.objects o).class_ = .array → name = Symbol.length →
      desc.fst = JsValue.newF64 (w.objects o).indexed.length)
    (hp : Present w o name)
    (hrun : defineOwnNonIndexedPropertySlot o name desc slot throwable w = .ok r w') :
    KeepsOwn w w' o := by
  by_cases hlen : (w.objects o).class_ = .array ∧ name = Symbol.length
  · obtain ⟨hc, rfl⟩ := hlen
    unfold defineOwnNonIndexedPropertySlot at hrun
    rw [Vm.object_bind, hc] at hrun
    dsimp only at hrun
    rw [if_pos rfl] at hrun
    obtain ⟨b, w₁, hdef, hret⟩ := bind_eq_ok hrun
    cases hret
    exact keepsOwn_length (hfst hc rfl) hdef
  · have hover : ¬ (overridesLength (w.objects o).class_ ∧ name = Symbol.length) := by
      rintro ⟨hov, hn⟩
      cases hc : (w.objects o).class_ with
      | array => exact hlen ⟨hc, hn⟩
      | string v => rw [hc] at hstr; exact hstr trivial
      | object | function | global => rw [hc] at hov; exact hov
    rw [defineOwnNonIndexedPropertySlot_eq hlen] at hrun
    split at hrun
    · rw [Exec.bind_of_ok (modifyObject_unconstructed w o)] at hrun
      have ht := h.touch_unconstructed ho
      have hkeep : KeepsOwn w (w.unconstructed o) o :=
        .of_eq (ht.class_eq o) (storedOwn_unconstructed w o)
      exact hkeep.trans (keepsOwn_method ht.inv (ht.nextObject ▸ ho) hname
        (by rw [ht.class_eq]; exact hover) (hkeep.present hp) hrun)
    · exact keepsOwn_method h ho hname hover hp hrun

/-! ### Elements -/

theorem IndexedElements.Sound.filled {ix : IndexedElements} (h : ix.Sound) {i : ℕ} {s : StoredSlot}
    (hs : ix.stored i = some s) : Filled s := by
  unfold IndexedElements.stored at hs
  split at hs
  · split at hs
    · cases hs
    · cases hs
      exact fun ha => nomatch ha
  · split at hs
    · exact h.cell i s hs
    · cases hs

def IndexedElements.KeptIn (ix ix' : IndexedElements) : Prop :=
  ∀ i, (ix.stored i).isSome = true → (ix'.stored i).isSome = true

theorem keptIn_of_update {ix ix' : IndexedElements} {index : ℕ} {s : StoredSlot}
    (h : ix'.stored = Function.update ix.stored index (some s)) : ix.KeptIn ix' := by
  intro i hi
  rw [h]
  by_cases hii : i = index
  · subst hii
    rw [Function.update_self]
    rfl
  · rwa [Function.update_of_ne hii]

theorem keepsOwn_withElements {ix : IndexedElements} (hix : ix.Sound)
    (hel : (w.objects o).indexed.KeptIn ix) : KeepsOwn w (w.withElements o ix) o where
  class_eq := by simp [World.withElements]
  stored n s hs hf := by
    have hnamed (hname : ∀ i, n ≠ .index i) :
        ∃ s', storedOwn (w.withElements o ix) o n = some s' ∧ Filled s' := by
      refine ⟨s, ?_, hf⟩
      rw [← hs, storedOwn_of_not_index hname, storedOwn_of_not_index hname]
      simp [World.withElements, World.table, namedSlot]
    cases n with
    | key t | priv t => exact hnamed (by simp)
    | index i =>
      have hs : (w.objects o).indexed.stored i = some s := hs
      obtain ⟨s', hs'⟩ := Option.isSome_iff_exists.mp (hel i (by rw [hs]; rfl))
      refine ⟨s', ?_, hix.filled hs'⟩
      simp only [storedOwn, indexed_withElements_self]
      exact hs'

theorem keepsOwn_makeIndexed (h : w.Inv layoutPolicy) (ho : o < w.nextObject) {u : Unit}
    (hrun : makeIndexed o w = .ok u w') :
    Touch layoutPolicy o w w' ∧ KeepsOwn w w' o ∧
      ∀ b, (w'.objects b).indexed = (w.objects b).indexed := by
  have hguard : Guards layoutPolicy False o w _ _ := guards_makeIndexed h ho
  obtain ⟨ht, htab⟩ := Result.Sat.of_ok hguard hrun
  obtain ⟨σ, s, hm⟩ := makeIndexed_ok o w
  cases hrun.symm.trans hm
  refine ⟨ht.toTouch, .of_eq (ht.class_eq o) fun n => ?_, World.indexed_moved w o σ s⟩
  cases n with
  | index i => simp only [storedOwn, World.indexed_moved]
  | key t | priv t => simp only [storedOwn, htab, namedSlot, World.slots_moved]

theorem keepsOwn_dense (h : w.Inv layoutPolicy) (ho : o < w.nextObject) (hsound : w.SoundElements)
    {index : ℕ} (hd : (w.objects o).indexed.dense = true) (hi : index < maxVectorSize) {val : JsValue}
    {absent : Bool} (hval : absent = true ∨ val ≠ .empty) {u : Unit}
    (hrun : defineOwnIndexeValueDenseInternal o index val absent w = .ok u w') :
    KeepsOwn w w' o := by
  obtain ⟨σ, s, nonGc, hm, heq⟩ := defineOwnIndexeValueDenseInternal_eq o index val absent w
  cases hrun.symm.trans heq
  have hval : (if absent then JsValue.undefined else val) ≠ .empty := by
    cases absent with
    | true => exact nofun
    | false => exact hval.resolve_left (by decide)
  have hmoved : KeepsOwn w (w.moved o σ s) o := by
    rcases hm with hm | hm
    · exact (keepsOwn_makeIndexed h ho hm).2.1
    · rw [hm]
      exact .refl w o
  refine hmoved.trans (keepsOwn_withElements ((hsound o).storeDense hd hi _ _) ?_)
  rw [World.indexed_moved]
  exact keptIn_of_update ((hsound o).stored_storeDense hd hi hval nonGc)

theorem keptIn_storeSparse {ix : IndexedElements} (h : ix.Sound) {index : ℕ}
    (hd : ix.dense = true → maxVectorSize ≤ index) {s : StoredSlot}
    (hs : s.attributes.accessor = true → s.value ≠ .empty) (nonGc : Bool) :
    ix.KeptIn (ix.storeSparse index s nonGc) := by
  intro i hi
  by_cases hii : i = index
  · subst hii
    obtain ⟨s', hs'⟩ := Option.isSome_iff_exists.mp hi
    rw [h.stored_storeSparse hd hs nonGc (h.lt_of_stored hs'), Function.update_self]
    rfl
  · have hstored : (ix.storeSparse index s nonGc).stored i = ix.stored i := by
      unfold IndexedElements.stored
      rw [sparse_storeSparse, if_neg hii]
      rfl
    rwa [hstored]

theorem keepsOwn_setSparse (hsound : w.SoundElements) {index : ℕ}
    (hd : (w.objects o).indexed.dense = true → maxVectorSize ≤ index) {s : StoredSlot}
    (hs : s.attributes.accessor = true → s.value ≠ .empty) {nonGc : Bool} {u : Unit}
    (hrun : setSparse o index s nonGc w = .ok u w') : KeepsOwn w w' o := by
  cases hrun
  exact keepsOwn_withElements ((hsound o).storeSparse hd hs _) (keptIn_storeSparse (hsound o) hd hs _)

theorem keptIn_setLength {ix : IndexedElements} {len : ℕ} (h : ix.length ≤ len) :
    ix.KeptIn (ix.setLength len) := by
  intro i hi
  change (if ix.dense && decide (i < ix.vector.length) then _ else if i < len then _ else _ :
    Option StoredSlot).isSome = true
  unfold IndexedElements.stored at hi
  split at hi
  · next hc => rwa [if_pos hc]
  · next hc =>
    rw [if_neg hc]
    split at hi
    · next hlt => rwa [if_pos (by omega)]
    · cases hi

theorem storedSlotNew_inert {desc : PropertyDescriptor} {s : StoredSlot}
    (h : StoredSlot.new desc w = .ok s w') : w'.objects = w.objects ∧ w'.shapes = w.shapes := by
  unfold StoredSlot.new at h
  split at h
  · cases h
    exact ⟨rfl, rfl⟩
  · split at h
    · obtain ⟨c, w₁, hc, h⟩ := bind_eq_ok h
      cases h
      cases hc
      exact ⟨rfl, rfl⟩
    · cases h
      exact ⟨rfl, rfl⟩

theorem KeepsOwn.of_inert (hobj : w'.objects = w.objects) (hsh : w'.shapes = w.shapes) (o : ℕ) :
    KeepsOwn w w' o :=
  .of_eq (by rw [hobj]) (storedOwn_congr (by rw [World.table, hobj, hsh, World.table]) (by rw [hobj]))

theorem World.SoundElements.of_objects (h : w.SoundElements) (hobj : w'.objects = w.objects) :
    w'.SoundElements := fun b => by
  rw [hobj]
  exact h b

theorem keepsOwn_sparse (h : w.Inv layoutPolicy) (ho : o < w.nextObject) (hsound : w.SoundElements)
    {index : ℕ} (hd : (w.objects o).indexed.dense = true → maxVectorSize ≤ index)
    {desc : PropertyDescriptor} {throwable b : Bool}
    (hrun : defineOwnIndexedSparse o index desc throwable w = .ok b w') : KeepsOwn w w' o := by
  unfold defineOwnIndexedSparse at hrun
  rw [bind_of_ok (modifyIndexed_apply _ _ _), Vm.object_bind] at hrun
  -- the map is there from now on, even if it was not before
  have hguard : Guards layoutPolicy False o w _ _ := guards_modifyIndexed_le h ho
    (f := fun ix => { ix with map := some (ix.map.getD ∅) }) fun ix i s hs => by
      rwa [sparse_getD_map] at hs
  have ht₁ := (Result.Sat.of_ok hguard (modifyIndexed_apply _ _ _)).1.toTouch
  set w₁ := w.withElements o { (w.objects o).indexed with
    map := some ((w.objects o).indexed.map.getD ∅) } with hw₁
  have hix₁ : (w₁.objects o).indexed = { (w.objects o).indexed with
      map := some ((w.objects o).indexed.map.getD ∅) } := by
    rw [hw₁, indexed_withElements_self]
  have h₁ : w₁.SoundElements := hsound.withElements (sound_getD_map (hsound o))
  have hd₁ : (w₁.objects o).indexed.dense = true → maxVectorSize ≤ index := by rwa [hix₁]
  have hk₁ : KeepsOwn w w₁ o := keepsOwn_withElements (sound_getD_map (hsound o)) fun i hi => by
    unfold IndexedElements.stored at hi ⊢
    rwa [sparse_getD_map]
  have ho₁ : o < w₁.nextObject := ho
  refine hk₁.trans ?_
  cases hl : ((w₁.objects o).indexed.map.getD ∅).lookup index with
  | some entry =>
    rw [hl] at hrun
    -- the entry takes the descriptor, if it accepts it
    have hsparse : (w₁.objects o).indexed.sparse index = some entry := by
      rw [hix₁] at hl ⊢
      exact hl
    have hst : Storable layoutPolicy w₁ o (.sparse index) entry := ht₁.inv.storable ho₁ hsparse
    obtain ⟨⟨accepted, returned⟩, w₂, hacc, hrun⟩ := bind_eq_ok hrun
    obtain ⟨hr₂, -⟩ := Result.Sat.of_ok (reads_isDefinedPropertyAccepted ht₁.inv hst.hasCell hst.typed
      desc throwable) hacc
    have h₂ : w₂.SoundElements := h₁.of_objects hr₂.objects
    refine (hr₂.keepsOwn ht₁.inv ho₁).trans ?_
    cases accepted with
    | false =>
      cases hrun
      exact .refl _ o
    | true =>
      simp only [if_true] at hrun
      obtain ⟨s, w₃, hm, hrun⟩ := bind_eq_ok hrun
      obtain ⟨hobj, hsh⟩ := inert_merge entry desc w₂ w₃ (by rw [hm]; rfl)
      refine (KeepsOwn.of_inert hobj hsh o).trans ?_
      obtain ⟨u, w₄, hset, hret⟩ := bind_eq_ok hrun
      cases hret
      refine keepsOwn_setSparse (h₂.of_objects hobj) ?_ (merge_cell ((h₁ o).cell index entry hsparse) hm)
        hset
      rwa [hobj, hr₂.objects]
  | none =>
    rw [hl] at hrun
    dsimp only at hrun
    split at hrun
    · rw [reject_eq_ok hrun]
      exact .refl w₁ o
    · obtain ⟨u, w₂, hm, hrun⟩ := bind_eq_ok hrun
      -- a new entry: the object is marked as indexed, the length grows, and the entry is stored
      obtain ⟨-, hk₂, hix₂⟩ := keepsOwn_makeIndexed ht₁.inv ho₁ hm
      have h₂ : w₂.SoundElements := fun b => by
        rw [hix₂]
        exact h₁ b
      refine hk₂.trans ?_
      rw [bind_of_ok (modifyIndexed_apply _ _ _)] at hrun
      set ix₃ := if (w₂.objects o).indexed.length ≤ index then
        (w₂.objects o).indexed.setLength (index + 1) else (w₂.objects o).indexed with hix₃
      have hs₃ : ix₃.Sound := (h₂ o).raiseLength index
      have hd₃ : ix₃.dense = (w₂.objects o).indexed.dense := dense_raiseLength _ index
      have hkept : (w₂.objects o).indexed.KeptIn ix₃ := by
        rw [hix₃]
        split
        · exact keptIn_setLength (by omega)
        · exact fun _ hi => hi
      refine (keepsOwn_withElements hs₃ hkept).trans ?_
      obtain ⟨s, w₄, hnew, hrun⟩ := bind_eq_ok hrun
      obtain ⟨hobj, hsh⟩ := storedSlotNew_inert hnew
      refine (KeepsOwn.of_inert hobj hsh o).trans ?_
      obtain ⟨u', w₅, hset, hret⟩ := bind_eq_ok hrun
      cases hret
      refine keepsOwn_setSparse ((h₂.withElements hs₃).of_objects hobj) ?_ (storedSlotNew_cell hnew) hset
      rw [hobj, indexed_withElements_self, hd₃, hix₂]
      exact hd₁

/-- A value that may be written to the vector at once. -/
def WritesDense (w : World) (o index : ℕ) (desc : PropertyDescriptor) : Prop :=
  (w.objects o).indexed.dense = true → index < maxVectorSize →
    desc.attrs.undefValue = true ∨ desc.fst ≠ .empty

theorem keepsOwn_internal (h : w.Inv layoutPolicy) (ho : o < w.nextObject) (hsound : w.SoundElements)
    {index : ℕ} {desc : PropertyDescriptor} (hval : WritesDense w o index desc) {throwable b : Bool}
    (hrun : defineOwnIndexedPropertyInternal o index desc throwable w = .ok b w') :
    KeepsOwn w w' o := by
  unfold defineOwnIndexedPropertyInternal at hrun
  rw [Vm.object_bind] at hrun
  split at hrun
  · rw [reject_eq_ok hrun]
    exact .refl w o
  split at hrun
  · next hc =>
    simp only [Bool.and_eq_true, decide_eq_true_eq] at hc
    obtain ⟨u, w₁, hdef, hret⟩ := bind_eq_ok hrun
    cases hret
    exact keepsOwn_dense h ho hsound hc.1.1 hc.2 (hval hc.1.1 hc.2) hdef
  next hdef =>
  split at hrun
  · next hc =>
    -- the element is in the vector and takes the new value there
    simp only [Bool.and_eq_true, decide_eq_true_eq, Bool.not_eq_true'] at hc
    obtain ⟨⟨⟨⟨hd, -⟩, -⟩, hlt⟩, hne⟩ := hc
    have hi := lt_of_lt_of_le hlt (hsound o).size
    have hne : (w.objects o).indexed.vector.getD index .empty ≠ .empty := fun he => by
      rw [he] at hne
      cases hne
    obtain ⟨u, w₁, hset, hret⟩ := bind_eq_ok hrun
    cases hret
    unfold Vm.onlyIf at hset
    split at hset
    · next hu =>
      have hfst := (hval hd hi).resolve_left (by simpa using hu)
      rw [modifyIndexed_apply] at hset
      cases hset
      have hsto := (hsound o).storeDense_eq hne desc.fst
        ((w.objects o).indexed.nonGc && !desc.fst.isObject)
      refine keepsOwn_withElements ?_ ?_ <;> rw [← hsto]
      · exact (hsound o).storeDense hd hi _ _
      · exact keptIn_of_update ((hsound o).stored_storeDense hd hi hfst _)
    · cases hset
      exact .refl _ o
  · obtain ⟨u, w₁, hset, hrun⟩ := bind_eq_ok hrun
    unfold Vm.onlyIf at hset
    split at hset
    · next hc =>
      simp only [Bool.and_eq_true, decide_eq_true_eq] at hc
      -- the attributes do not fit the vector, so that all elements go to the map first
      have hd := hc.1.1
      have hguard : Guards layoutPolicy False o w _ _ := guards_makeSparse h ho
      have ht := (Result.Sat.of_ok hguard hset).1.toTouch
      rw [modifyIndexed_apply] at hset
      cases hset
      have hs := (hsound o).makeSparse
      refine (keepsOwn_withElements hs ?_).trans
        (keepsOwn_sparse ht.inv (ht.nextObject ▸ ho) (hsound.withElements hs) ?_ hrun)
      · intro i hi
        rwa [(hsound o).stored_makeSparse hd]
      · rw [indexed_withElements_self]
        exact fun hd => nomatch hd
    · next hc =>
      cases hset
      refine keepsOwn_sparse h ho hsound (fun hd => ?_) hrun
      rw [hd] at hc hdef
      by_contra hlt
      cases hdefault : desc.attrs.isDefault <;> simp_all

theorem keepsOwn_index (h : w.Inv layoutPolicy) (ho : o < w.nextObject) (hsound : w.SoundElements)
    (hstr : ¬ isString (w.objects o).class_) {index : ℕ} {desc : PropertyDescriptor}
    (hval : WritesDense w o index desc) {slot : Slot} {throwable : Bool} {r : Bool × Slot}
    (hrun : defineOwnIndexedPropertySlot o index desc slot throwable w = .ok r w') :
    KeepsOwn w w' o := by
  have hno : overridesIndexed (w.objects o).class_ = false := by
    cases hc : (w.objects o).class_ with
    | string v => rw [hc] at hstr; exact absurd trivial hstr
    | _ => rfl
  unfold defineOwnIndexedPropertySlot at hrun
  rw [Vm.object_bind, hno, if_neg Bool.false_ne_true] at hrun
  obtain ⟨b, w₁, hdef, hret⟩ := bind_eq_ok hrun
  cases hret
  exact keepsOwn_internal h ho hsound hval hdef

end Starlight
