import Starlight.Vm.Elements
import Starlight.Vm.Quiet

/-!
# Every run keeps the elements sound

Most operations never look at the elements, so their lemmas are about any predicate that depends on the
elements alone. The others update the elements of one object in the ways that keep `Sound`.
-/

namespace Starlight

open JsObject World Exec IndexedElements

variable {α β : Type} {w w' : World} {o : ℕ}

def World.SoundElements (w : World) : Prop := ∀ b, (w.objects b).indexed.Sound

theorem unnamed_soundElements : Unnamed SoundElements := fun _ _ heq h b => (heq b).1 ▸ h b

/-! ### Code that changes the elements -/

theorem keeps_modifyObject_sound {f : JsObject → JsObject} (hf : ∀ obj, (f obj).indexed = obj.indexed) :
    (Vm.modifyObject o f).Keeps SoundElements :=
  keeps_modify fun w h b => by
    by_cases hb : b = o
    · subst hb
      simpa [hf] using h b
    · simpa [hb] using h b

def World.withElements (w : World) (o : ℕ) (ix : IndexedElements) : World :=
  { w with objects := Function.update w.objects o { w.objects o with indexed := ix } }

theorem World.indexed_withElements_self (w : World) (o : ℕ) (ix : IndexedElements) :
    ((w.withElements o ix).objects o).indexed = ix := by
  simp [World.withElements]

theorem World.withElements_self (w : World) (o : ℕ) :
    w.withElements o (w.objects o).indexed = w := by
  unfold World.withElements
  rw [Function.update_eq_self]

theorem World.withElements_withElements (w : World) (o : ℕ) (ix ix' : IndexedElements) :
    (w.withElements o ix).withElements o ix' = w.withElements o ix' := by
  simp [World.withElements]

theorem modifyIndexed_apply (o : ℕ) (f : IndexedElements → IndexedElements) (w : World) :
    modifyIndexed o f w = .ok () (w.withElements o (f (w.objects o).indexed)) := rfl

theorem World.SoundElements.withElements (h : w.SoundElements) {ix : IndexedElements}
    (hix : ix.Sound) : (w.withElements o ix).SoundElements := by
  intro b
  by_cases hb : b = o
  · subst hb
    rwa [indexed_withElements_self]
  · simp only [World.withElements, Function.update_of_ne hb]
    exact h b

theorem keeps_modifyIndexed {f : IndexedElements → IndexedElements}
    (hf : ∀ ix, ix.Sound → (f ix).Sound) : (modifyIndexed o f).Keeps SoundElements := fun w h => by
  rw [modifyIndexed_apply]
  exact h.withElements (hf _ (h o))

theorem keeps_changeLengthWritable (o : ℕ) (writable throwable : Bool) :
    (changeLengthWritable o writable throwable).Keeps SoundElements := by
  refine .bind keeps_object fun _ => .ite ?_ (.ite (keeps_reject _ _ _) (keeps_pure _))
  exact .bind (keeps_modifyIndexed (f := fun ix => { ix with writable := false })
    fun ix h => ⟨h.vector, h.size, h.map, h.cell⟩) fun _ => keeps_pure _

/-- The element that `delete_indexed_internal` refuses to delete. -/
def IndexedElements.fixed (ix : IndexedElements) (index : ℕ) : Bool :=
  !(ix.length ≤ index) && !(ix.dense && index < ix.vector.length) &&
    !(ix.dense && index < maxVectorSize) &&
    match ix.sparse index with
    | some s => !s.attributes.configurable
    | none => false

theorem deleteIndexedInternal_eq (o index : ℕ) (throwable : Bool) (w : World) :
    deleteIndexedInternal o index throwable w =
      if (w.objects o).indexed.fixed index then
        Vm.reject throwable "trying to delete non-configurable property" false w
      else .ok true (w.withElements o ((w.objects o).indexed.remove index)) := by
  have hself := w.withElements_self o
  unfold deleteIndexedInternal
  rw [Vm.object_bind]
  dsimp only
  generalize hix : (w.objects o).indexed = ix at hself ⊢
  unfold fixed IndexedElements.remove
  by_cases hlen : ix.length ≤ index
  · simp [hlen, hself]
  · by_cases hv : (ix.dense && decide (index < ix.vector.length)) = true
    · simp [hlen, hv, modifyIndexed_apply, bind_apply, hix]
    · by_cases hm : (ix.dense && decide (index < maxVectorSize)) = true
      · simp [hlen, hv, hm, hself]
      · cases hmap : ix.map with
        | none => simp [hlen, hv, hm, hself, sparse, hmap]
        | some m =>
          cases hl : m.lookup index with
          | none => simp [hlen, hv, hm, hself, sparse, hmap, hl]
          | some s =>
            cases hc : s.attributes.configurable with
            | false => simp [hlen, hv, hm, sparse, hmap, hl, hc]
            | true =>
              simp [hlen, hv, hm, sparse, hmap, hl, hc, modifyIndexed_apply, bind_apply, hix]

theorem keeps_deleteIndexedInternal (o index : ℕ) (throwable : Bool) :
    (deleteIndexedInternal o index throwable).Keeps SoundElements := fun w h => by
  rw [deleteIndexedInternal_eq]
  split
  · exact keeps_reject _ _ _ w h
  · exact h.withElements ((h o).remove index)

/-- Code that only touches the elements of `o`, none of which is in the vector. -/
def World.BlankElements (o : ℕ) (w : World) : Prop :=
  w.SoundElements ∧ (w.objects o).indexed.Blank

theorem keeps_deleteIndexedInternal_blank (o index : ℕ) (throwable : Bool) :
    (deleteIndexedInternal o index throwable).Keeps (BlankElements o) := fun w h => by
  rw [deleteIndexedInternal_eq]
  split
  · exact keeps_reject _ _ _ w h
  · refine ⟨h.1.withElements ((h.1 o).remove index), ?_⟩
    rw [indexed_withElements_self]
    exact h.2.remove (h.1 o) index

theorem keeps_setLength_blank (o len : ℕ) :
    (modifyIndexed o fun ix => ix.setLength len).Keeps (BlankElements o) := fun w h => by
  rw [modifyIndexed_apply]
  refine ⟨h.1.withElements ((h.1 o).setLength_of_blank h.2 len), ?_⟩
  rw [indexed_withElements_self]
  exact h.2

theorem keeps_shrinkFromEnd (o len : ℕ) (throwable : Bool) (old : ℕ) :
    (shrinkFromEnd o len throwable old).Keeps (BlankElements o) := by
  induction old with
  | zero => exact .bind (keeps_setLength_blank o len) fun _ => keeps_pure _
  | succ old ih =>
    refine .ite (.bind (keeps_deleteIndexedInternal_blank o old false) fun _ => .ite ih ?_) ?_
    · exact .bind (keeps_setLength_blank o _) fun _ => keeps_reject _ _ _
    · exact .bind (keeps_setLength_blank o len) fun _ => keeps_pure _

theorem keeps_shrinkByNames (o len : ℕ) (throwable : Bool) (names : List Symbol) :
    (shrinkByNames o len throwable names).Keeps (BlankElements o) := by
  induction names with
  | nil => exact .bind (keeps_setLength_blank o len) fun _ => keeps_pure _
  | cons name names ih =>
    cases name with
    | index i =>
      exact .bind (keeps_deleteIndexedInternal_blank o i false) fun _ =>
        .ite ih (.bind (keeps_setLength_blank o _) fun _ => keeps_reject _ _ _)
    | key text => exact ih
    | priv id => exact ih

theorem unnamed_blankElements (o : ℕ) : Unnamed (BlankElements o) := fun _ _ heq h =>
  ⟨unnamed_soundElements _ _ heq h.1, (heq o).1 ▸ h.2⟩

theorem keeps_setLength (o len : ℕ) (throwable : Bool) :
    (setLength o len throwable).Keeps SoundElements := by
  intro w h
  -- a shorter length deletes one by one, which is sound if no element is in the vector
  have hblank : ∀ {x : Vm Bool}, (w.objects o).indexed.dense = false → x.Keeps (BlankElements o) →
      (x w).Leaves SoundElements := fun hd hx =>
    (hx w ⟨h, (h o).blank hd⟩).mono fun _ hw => hw.1
  unfold JsObject.setLength
  split
  · exact h
  · rw [Vm.object_bind]
    split
    · next hle =>
      exact h.withElements ((h o).setLength fun i hne => lt_of_lt_of_le ((h o).vector i hne).2 hle)
    · split
      · next hd => exact h.withElements ((h o).setLength_shrinkDense hd len)
      · next hd =>
        have hd : (w.objects o).indexed.dense = false := by simpa using hd
        split
        · exact hblank hd (keeps_shrinkFromEnd o len throwable _)
        · exact hblank hd (.bind (keeps_getOwnPropertyNames (unnamed_blankElements o) o true)
            fun _ => keeps_shrinkByNames o len throwable _)

theorem keeps_toNumber {I : World → Prop} (v : JsValue) : (toNumber v).Keeps I := by
  cases v <;> first | exact keeps_pure _ | exact keeps_fail _

theorem keeps_defineLengthTo (o : ℕ) (desc : PropertyDescriptor) (len : F64) (throwable : Bool) :
    (defineLengthTo o desc len throwable).Keeps SoundElements := by
  have hw := keeps_changeLengthWritable o desc.attrs.writable throwable
  refine .ite (keeps_throwTypeError _) <| .bind keeps_object fun _ =>
    .ite (.ite hw (keeps_pure _)) <| .ite (keeps_reject _ _ _) <|
      .bind (keeps_setLength o _ throwable) fun _ => .ite hw (keeps_pure _)

theorem keeps_defineOwnNonIndexedPropertySlot (o : ℕ) (name : Symbol) (desc : PropertyDescriptor)
    (slot : Slot) (throwable : Bool) :
    (defineOwnNonIndexedPropertySlot o name desc slot throwable).Keeps SoundElements := by
  have hm : ∀ slot, (defineOwnNonIndexedPropertySlotMethod o name desc slot throwable).Keeps
      SoundElements := fun slot =>
    keeps_defineOwnNonIndexedPropertySlotMethod unnamed_soundElements o name desc slot throwable
  have hl : (defineLengthProperty o desc throwable).Keeps SoundElements := by
    refine .ite (keeps_reject _ _ _) <| .ite (keeps_reject _ _ _) <| .ite (keeps_reject _ _ _) <|
      .ite (.ite (keeps_changeLengthWritable o _ throwable) (keeps_pure _)) <|
        .bind (keeps_toNumber _) fun len => keeps_defineLengthTo o desc len throwable
  refine .bind keeps_object fun obj => ?_
  cases obj.class_ with
  | array => exact .ite (.bind hl fun _ => keeps_pure _) (hm slot)
  | function =>
    exact .ite (.bind (keeps_modifyObject_sound fun _ => rfl) fun _ => hm _) (hm slot)
  | object | string value | global => exact hm slot

/-! ### Defining an element -/

theorem makeIndexed_ok (o : ℕ) (w : World) :
    ∃ σ s, makeIndexed o w = .ok () (w.moved o σ s) := by
  unfold makeIndexed
  rw [Vm.object_bind, gets_bind]
  split
  · refine ⟨w.shapes, (w.objects o).structure_, ?_⟩
    rw [World.moved, Function.update_eq_self]
    rfl
  · exact ⟨_, _, rfl⟩

theorem setSparse_eq (o index : ℕ) (s : StoredSlot) (nonGc : Bool) (w : World) :
    setSparse o index s nonGc w = .ok () (w.withElements o ((w.objects o).indexed.storeSparse index s
      ((w.objects o).indexed.nonGc && nonGc))) := rfl

theorem makeIndexed_withElements (o : ℕ) (w : World) : ∃ σ s, makeIndexed o w = .ok () (w.moved o σ s) ∧
    ∀ ix, makeIndexed o (w.withElements o ix) = .ok () ((w.moved o σ s).withElements o ix) := by
  cases hi : (w.shapes.structures (w.objects o).structure_).transitions.indexed with
  | true =>
    have hmoved : w.moved o w.shapes (w.objects o).structure_ = w := by
      rw [World.moved, Function.update_eq_self]
    refine ⟨w.shapes, (w.objects o).structure_, ?_, fun ix => ?_⟩ <;> rw [hmoved] <;>
      unfold makeIndexed <;> rw [Vm.object_bind, gets_bind]
    · rw [hi]
      rfl
    · have hi' : ((w.withElements o ix).shapes.structures
          ((w.withElements o ix).objects o).structure_).transitions.indexed = true := by
        simpa [World.withElements] using hi
      rw [hi']
      rfl
  | false =>
    refine ⟨(w.shapes.changeIndexedTransition (w.objects o).structure_).2,
      (w.shapes.changeIndexedTransition (w.objects o).structure_).1, ?_, fun ix => ?_⟩ <;>
      unfold makeIndexed <;> rw [Vm.object_bind, gets_bind]
    · rw [hi]
      rfl
    · have hi' : ((w.withElements o ix).shapes.structures
          ((w.withElements o ix).objects o).structure_).transitions.indexed = false := by
        simpa [World.withElements] using hi
      rw [hi']
      change Result.ok () ((w.withElements o ix).moved o
        (w.shapes.changeIndexedTransition ((w.withElements o ix).objects o).structure_).2
        (w.shapes.changeIndexedTransition ((w.withElements o ix).objects o).structure_).1) = _
      simp [World.moved, World.withElements]

@[simp] theorem World.indexed_moved (w : World) (o : ℕ) (σ : Shapes) (s b : ℕ) :
    ((w.moved o σ s).objects b).indexed = (w.objects b).indexed := by
  by_cases hb : b = o
  · subst hb
    simp [World.moved]
  · simp [World.moved, hb]

/-- The last step of a write to the vector. -/
def denseStep (index : ℕ) (val : JsValue) (absent : Bool) (ix : IndexedElements) : IndexedElements :=
  let ix := if absent then { ix with vector := ix.vector.set index .undefined }
    else { ix with vector := ix.vector.set index val, nonGc := ix.nonGc && !val.isObject }
  if ix.length ≤ index then ix.setLength (index + 1) else ix

theorem denseStep_eq (index : ℕ) (val : JsValue) (absent : Bool) (ix : IndexedElements) :
    ∃ nonGc, denseStep index val absent ix = { ix with
      vector := ix.vector.set index (if absent then .undefined else val)
      length := max ix.length (index + 1), nonGc := nonGc } := by
  have hmax : ∀ ix : IndexedElements, (if ix.length ≤ index then ix.setLength (index + 1) else ix) =
      { ix with length := max ix.length (index + 1) } := by
    intro ix
    split
    · next h => rw [max_eq_right (by omega)]; rfl
    · next h => rw [max_eq_left (by omega)]
  cases absent with
  | true => exact ⟨ix.nonGc, hmax { ix with vector := ix.vector.set index .undefined }⟩
  | false => exact ⟨_, hmax { ix with
      vector := ix.vector.set index val, nonGc := ix.nonGc && !val.isObject }⟩

theorem defineOwnIndexeValueDenseInternal_inside {o index : ℕ}
    (hv : index < (w.objects o).indexed.vector.length) (val : JsValue) (absent : Bool) :
    ∃ nonGc, defineOwnIndexeValueDenseInternal o index val absent w =
      .ok () (w.withElements o ((w.objects o).indexed.storeDense index
        (if absent then .undefined else val) nonGc)) := by
  have hrun : defineOwnIndexeValueDenseInternal o index val absent w =
      modifyIndexed o (denseStep index val absent) w := by
    unfold defineOwnIndexeValueDenseInternal
    rw [Vm.object_bind, decide_eq_true hv]
    rfl
  obtain ⟨nonGc, hstep⟩ := denseStep_eq index val absent (w.objects o).indexed
  exact ⟨nonGc, by rw [hrun, modifyIndexed_apply, hstep, storeDense, if_pos hv]⟩

/-- **The specification of a write to the vector.** -/
theorem defineOwnIndexeValueDenseInternal_eq (o index : ℕ) (val : JsValue) (absent : Bool)
    (w : World) : ∃ σ s nonGc, (makeIndexed o w = .ok () (w.moved o σ s) ∨ w.moved o σ s = w) ∧
      defineOwnIndexeValueDenseInternal o index val absent w =
        .ok () ((w.moved o σ s).withElements o ((w.objects o).indexed.storeDense index
          (if absent then .undefined else val) nonGc)) := by
  by_cases hv : index < (w.objects o).indexed.vector.length
  · obtain ⟨nonGc, hrun⟩ := defineOwnIndexeValueDenseInternal_inside hv val absent
    have hmoved : w.moved o w.shapes (w.objects o).structure_ = w := by
      rw [World.moved, Function.update_eq_self]
    exact ⟨w.shapes, (w.objects o).structure_, nonGc, .inr hmoved, by rw [hmoved, hrun]⟩
  · obtain ⟨σ, s, hm⟩ := makeIndexed_ok o w
    obtain ⟨nonGc, hstep⟩ := denseStep_eq index val absent { (w.objects o).indexed with
      vector := resize (w.objects o).indexed.vector (index + 1) }
    refine ⟨σ, s, nonGc, .inl hm, ?_⟩
    have hgrow : (makeIndexed o >>= fun _ => modifyIndexed o fun ix =>
        { ix with vector := resize ix.vector (index + 1) }) w =
        .ok () ((w.moved o σ s).withElements o { (w.objects o).indexed with
          vector := resize (w.objects o).indexed.vector (index + 1) }) := by
      rw [bind_of_ok hm, modifyIndexed_apply, World.indexed_moved]
    have hrun : defineOwnIndexeValueDenseInternal o index val absent w =
        ((makeIndexed o >>= fun _ => modifyIndexed o fun ix =>
          { ix with vector := resize ix.vector (index + 1) }) >>=
            fun _ => modifyIndexed o (denseStep index val absent)) w := by
      unfold defineOwnIndexeValueDenseInternal
      rw [Vm.object_bind, decide_eq_false hv]
      rfl
    rw [hrun, bind_of_ok hgrow, modifyIndexed_apply, indexed_withElements_self, hstep, storeDense, if_neg hv]
    simp [World.withElements]

theorem leaves_defineOwnIndexeValueDenseInternal (h : w.SoundElements) {index : ℕ}
    (hd : (w.objects o).indexed.dense = true) (hi : index < maxVectorSize) (val : JsValue)
    (absent : Bool) :
    (defineOwnIndexeValueDenseInternal o index val absent w).Leaves SoundElements := by
  obtain ⟨σ, s, nonGc, -, heq⟩ := defineOwnIndexeValueDenseInternal_eq o index val absent w
  rw [heq]
  have hm : (w.moved o σ s).SoundElements := fun b => by
    rw [World.indexed_moved]
    exact h b
  exact hm.withElements ((h o).storeDense hd hi _ nonGc)

theorem indexed_of_keeps {x : Vm α} {a : α} (hx : ∀ I, Unnamed I → x.Keeps I)
    (h : x w = .ok a w') (b : ℕ) : (w'.objects b).indexed = (w.objects b).indexed := by
  have := hx (fun w' => ∀ b, (w'.objects b).indexed = (w.objects b).indexed)
    (fun _ _ heq h b => (heq b).1.trans (h b)) w fun _ => rfl
  rw [h] at this
  exact this b

theorem merge_cell {s s' : StoredSlot} {desc : PropertyDescriptor}
    (hs : s.attributes.accessor = true → s.value ≠ .empty) (h : s.merge desc w = .ok s' w') :
    s'.attributes.accessor = true → s'.value ≠ .empty := by
  obtain ⟨hacc, -, -⟩ := mergeAttrs_kind s.attributes desc
  unfold StoredSlot.merge at h
  split at h
  · next hg =>
    cases h
    rw [if_pos hg] at hacc
    dsimp only
    rw [hacc]
    exact hs
  · next hg =>
    split at h
    · next hd =>
      cases h
      rw [if_neg hg, hd] at hacc
      dsimp only
      rw [hacc]
      exact fun hc => nomatch hc
    · obtain ⟨c, w₁, hc, h⟩ := bind_eq_ok h
      obtain ⟨-, w₂, -, h⟩ := bind_eq_ok h
      obtain ⟨-, w₃, -, h⟩ := bind_eq_ok h
      cases h
      intro _
      dsimp only
      split
      · next ha => exact hs ha
      · exact fun hc => nomatch hc

theorem storedSlotNew_cell {s : StoredSlot} {desc : PropertyDescriptor}
    (h : StoredSlot.new desc w = .ok s w') : s.attributes.accessor = true → s.value ≠ .empty := by
  have hdata : ∀ a : AttrExternal, (createData a).accessor = false := fun a =>
    (createData_typed a).not_accessor_of_data (by
      unfold createData
      dsimp only
      split <;> rfl)
  unfold StoredSlot.new at h
  split at h
  · cases h
    dsimp only
    rw [hdata]
    exact fun hc => nomatch hc
  · split at h
    · obtain ⟨c, w₁, -, h⟩ := bind_eq_ok h
      cases h
      exact fun _ hc => nomatch hc
    · cases h
      rw [hdata]
      exact fun hc => nomatch hc

theorem sound_getD_map {ix : IndexedElements} (h : ix.Sound) :
    ({ ix with map := some (ix.map.getD ∅) } : IndexedElements).Sound := by
  have hs := sparse_getD_map ix
  exact ⟨h.vector, h.size, fun hd i hi => by rw [hs]; exact h.map hd i hi,
    fun i s => by rw [hs]; exact h.cell i s⟩

theorem leaves_setSparse (h : w.SoundElements) {index : ℕ}
    (hd : (w.objects o).indexed.dense = true → maxVectorSize ≤ index) {s : StoredSlot}
    (hs : s.attributes.accessor = true → s.value ≠ .empty) (nonGc : Bool) :
    (setSparse o index s nonGc w).Leaves SoundElements :=
  h.withElements ((h o).storeSparse hd hs _)

theorem leaves_defineOwnIndexedSparse (h : w.SoundElements) {index : ℕ}
    (hd : (w.objects o).indexed.dense = true → maxVectorSize ≤ index) (desc : PropertyDescriptor)
    (throwable : Bool) :
    (defineOwnIndexedSparse o index desc throwable w).Leaves SoundElements := by
  unfold defineOwnIndexedSparse
  rw [bind_of_ok (modifyIndexed_apply _ _ _), Vm.object_bind]
  set w₁ := w.withElements o { (w.objects o).indexed with
    map := some ((w.objects o).indexed.map.getD ∅) } with hw₁
  have h₁ : w₁.SoundElements := h.withElements (sound_getD_map (h o))
  have hd₁ : (w₁.objects o).indexed.dense = true → maxVectorSize ≤ index := by
    rw [hw₁, indexed_withElements_self]
    exact hd
  cases hl : ((w₁.objects o).indexed.map.getD ∅).lookup index with
  | some entry =>
    have hcell : entry.attributes.accessor = true → entry.value ≠ .empty := by
      refine (h₁ o).cell index entry ?_
      rw [hw₁, indexed_withElements_self] at hl ⊢
      exact hl
    refine leaves_bind (keeps_isDefinedPropertyAccepted entry desc throwable w₁ h₁)
      fun ⟨accepted, returned⟩ w₂ hr h₂ => ?_
    have hix₂ := indexed_of_keeps
      (fun _ _ => keeps_isDefinedPropertyAccepted entry desc throwable) hr o
    cases accepted with
    | false => exact h₂
    | true =>
      refine leaves_bind (keeps_merge unnamed_soundElements entry desc w₂ h₂) fun s w₃ hm h₃ => ?_
      have hix₃ := indexed_of_keeps (fun _ hI => keeps_merge hI entry desc) hm o
      refine leaves_bind (leaves_setSparse h₃ ?_ (merge_cell hcell hm) _) fun _ _ _ h₄ => h₄
      rwa [hix₃, hix₂]
  | none =>
    split
    · exact keeps_reject _ _ _ w₁ h₁
    · refine leaves_bind (keeps_makeIndexed unnamed_soundElements o w₁ h₁) fun _ w₂ hr h₂ => ?_
      have hix₂ := indexed_of_keeps (fun _ hI => keeps_makeIndexed hI o) hr o
      rw [bind_of_ok (modifyIndexed_apply _ _ _)]
      set ix₃ := if (w₂.objects o).indexed.length ≤ index then
        (w₂.objects o).indexed.setLength (index + 1) else (w₂.objects o).indexed with hix₃
      have hs₃ : ix₃.Sound := (h₂ o).raiseLength index
      have hd₃ : ix₃.dense = (w₂.objects o).indexed.dense := dense_raiseLength _ index
      have h₃ : (w₂.withElements o ix₃).SoundElements := h₂.withElements hs₃
      refine leaves_bind (keeps_storedSlotNew unnamed_soundElements desc _ h₃)
        fun s w₄ hn h₄ => ?_
      have hix₄ := indexed_of_keeps (fun _ hI => keeps_storedSlotNew hI desc) hn o
      refine leaves_bind (leaves_setSparse h₄ ?_ (storedSlotNew_cell hn) _) fun _ _ _ h₅ => h₅
      rwa [hix₄, indexed_withElements_self, hd₃, hix₂]

theorem keeps_defineOwnIndexedPropertyInternal (o index : ℕ) (desc : PropertyDescriptor)
    (throwable : Bool) :
    (defineOwnIndexedPropertyInternal o index desc throwable).Keeps SoundElements := by
  intro w h
  unfold defineOwnIndexedPropertyInternal
  rw [Vm.object_bind]
  split
  · exact keeps_reject _ _ _ w h
  · split
    · next hc =>
      simp only [Bool.and_eq_true, decide_eq_true_eq] at hc
      exact leaves_bind (leaves_defineOwnIndexeValueDenseInternal h hc.1.1 hc.2 _ _) fun _ _ _ h' => h'
    · next hc =>
      split
      · next hc' =>
        simp only [Bool.and_eq_true, decide_eq_true_eq, Bool.not_eq_true'] at hc'
        obtain ⟨⟨⟨⟨hd, -⟩, -⟩, hlt⟩, hne⟩ := hc'
        have hne : (w.objects o).indexed.vector.getD index .empty ≠ .empty := fun he => by
          rw [he] at hne
          cases hne
        refine leaves_bind ?_ fun _ _ _ h' => h'
        unfold Vm.onlyIf
        split
        · rw [modifyIndexed_apply]
          refine h.withElements ?_
          rw [← (h o).storeDense_eq hne]
          exact (h o).storeDense hd (lt_of_lt_of_le hlt (h o).size) _ _
        · exact h
      · next hc' =>
        refine leaves_bind ?_ fun _ w₁ hr h₁ => leaves_defineOwnIndexedSparse h₁ ?_ desc throwable
        · exact keeps_onlyIf (keeps_modifyIndexed fun ix hix => hix.makeSparse) _ w h
        · by_cases hm : ((w.objects o).indexed.dense && !desc.attrs.isDefault &&
            decide (index < maxVectorSize)) = true
          · rw [hm, Vm.onlyIf, if_pos rfl, modifyIndexed_apply] at hr
            rw [← (Result.ok.inj hr).2, indexed_withElements_self]
            exact fun hd => nomatch hd
          · rw [Bool.eq_false_iff.mpr hm] at hr
            cases hr
            intro hd
            rw [hd] at hc hm
            cases hdef : desc.attrs.isDefault <;> simp_all

/-! ### Operations -/

theorem keeps_defineOwnIndexedPropertySlot (o index : ℕ) (desc : PropertyDescriptor) (slot : Slot)
    (throwable : Bool) :
    (defineOwnIndexedPropertySlot o index desc slot throwable).Keeps SoundElements := by
  have hd : ∀ slot : Slot, (do
      return (← defineOwnIndexedPropertyInternal o index desc throwable, slot)).Keeps
      SoundElements := fun slot =>
    .bind (keeps_defineOwnIndexedPropertyInternal o index desc throwable) fun _ => keeps_pure _
  refine .bind keeps_object fun _ => .ite ?_ (hd slot)
  refine .bind (keeps_getOwnIndexedPropertySlot unnamed_soundElements o index slot) fun r =>
    .ite ?_ (hd _)
  exact .bind (keeps_isDefinedPropertyAccepted _ desc throwable) fun _ => .ite (keeps_pure _) (hd _)

theorem keeps_defineOwnProperty (o : ℕ) (name : Symbol) (desc : PropertyDescriptor)
    (throwable : Bool) : (defineOwnProperty o name desc throwable).Keeps SoundElements := by
  refine .bind ?_ fun _ => keeps_pure _
  cases name with
  | index i => exact keeps_defineOwnIndexedPropertySlot o i desc _ throwable
  | key text | priv id => exact keeps_defineOwnNonIndexedPropertySlot o _ desc _ throwable

theorem hasIndexedPropertyFrom_state {fuel : ℕ} {b : Bool}
    (h : hasIndexedPropertyFrom fuel o w = .ok b w') : w' = w := by
  induction fuel generalizing o with
  | zero => cases h
  | succ fuel ih =>
    unfold hasIndexedPropertyFrom at h
    rw [Vm.object_bind, gets_bind] at h
    split at h
    · cases h
      rfl
    · cases hp : (w.shapes.structures (w.objects o).structure_).prototype with
      | none =>
        rw [hp] at h
        cases h
        rfl
      | some proto =>
        rw [hp] at h
        exact ih h

theorem canPutDense_dense {index : ℕ} {b : Bool} (h : canPutDense o index w = .ok b w') :
    w' = w ∧ (b = true → (w.objects o).indexed.dense = true ∧ index < maxVectorSize) := by
  unfold canPutDense at h
  rw [Vm.object_bind, gets_bind] at h
  split at h
  · next hc =>
    simp only [Bool.and_eq_true, decide_eq_true_eq] at hc
    refine ⟨?_, fun _ => ⟨hc.1.2, hc.1.1⟩⟩
    cases hp : (w.shapes.structures (w.objects o).structure_).prototype with
    | none =>
      rw [hp] at h
      cases h
      rfl
    | some proto =>
      rw [hp] at h
      exact hasIndexedPropertyFrom_state h
  · cases h
    exact ⟨rfl, fun hb => nomatch hb⟩

theorem keeps_put (o : ℕ) (name : Symbol) (val : JsValue) (throwable : Bool) :
    (put o name val throwable).Keeps SoundElements := by
  have hnamed : ∀ name, (putNonIndexedSlot o name val Slot.new throwable).Keeps SoundElements :=
    fun name => .bind (keeps_getPropertySlot unnamed_soundElements o name _) fun _ =>
      keeps_putFrom fun desc slot => keeps_defineOwnNonIndexedPropertySlot o name desc slot throwable
  refine .bind ?_ fun _ => keeps_pure _
  cases name with
  | key text => exact hnamed _
  | priv id => exact hnamed _
  | index i =>
    intro w h
    refine leaves_bind (keeps_canPutDense o i w h) fun dense w₁ hc h₁ => ?_
    cases dense with
    | true =>
      obtain ⟨rfl, hdense⟩ := canPutDense_dense hc
      obtain ⟨hd, hi⟩ := hdense rfl
      exact leaves_bind (leaves_defineOwnIndexeValueDenseInternal h hd hi val false) fun _ _ _ h' => h'
    | false =>
      exact leaves_bind (keeps_getIndexedPropertySlot unnamed_soundElements o i _ w₁ h₁)
        fun r w₂ _ h₂ => keeps_putFrom
          (fun desc slot => keeps_defineOwnIndexedPropertySlot o i desc slot throwable) w₂ h₂

theorem keeps_delete (o : ℕ) (name : Symbol) (throwable : Bool) :
    (delete o name throwable).Keeps SoundElements := by
  cases name with
  | key text | priv id => exact keeps_deleteNonIndexed unnamed_soundElements o _ throwable
  | index i =>
    have hd := keeps_deleteIndexedInternal o i throwable
    exact .bind keeps_object fun _ => .ite
      (.bind (keeps_getOwnIndexedPropertySlot unnamed_soundElements o i _) fun _ =>
        .ite (keeps_pure _) (.ite (keeps_reject _ _ _) hd)) hd

theorem keeps_changeExtensible (o : ℕ) (val : Bool) :
    (changeExtensible o val).Keeps SoundElements :=
  .bind (keeps_modifyObject_sound fun _ => rfl) fun _ =>
    .bind (keeps_transition unnamed_soundElements o _) fun _ =>
      keeps_modifyIndexed fun _ h => h.makeSparse

theorem keeps_redefineAll (o : ℕ) (f : PropertyDescriptor → PropertyDescriptor)
    (names : List Symbol) : (redefineAll o f names).Keeps SoundElements := by
  induction names with
  | nil => exact keeps_pure _
  | cons name names ih =>
    refine .bind (keeps_getOwnProperty unnamed_soundElements o name) fun desc => ?_
    cases desc with
    | none => exact keeps_fail _
    | some desc => exact .bind (keeps_defineOwnProperty o name (f desc) true) fun _ => ih

theorem keeps_integrity (o : ℕ) (f : PropertyDescriptor → PropertyDescriptor) : (do
    let names ← getOwnPropertyNames o true
    redefineAll o f names
    changeExtensible o false
    return true : Vm Bool).Keeps SoundElements :=
  .bind (keeps_getOwnPropertyNames unnamed_soundElements o true) fun names =>
    .bind (keeps_redefineAll o f names) fun _ => .bind (keeps_changeExtensible o false) fun _ =>
      keeps_pure _

theorem keeps_new (structure_ : ℕ) (class_ : Class) :
    (JsObject.new structure_ class_).Keeps SoundElements := by
  refine keeps_update fun w h b => ?_
  by_cases hb : b = w.nextObject
  · subst hb
    simpa using sound_new
  · simpa [hb] using h b

theorem keeps_copyAll (source target : ℕ) (names : List Symbol) :
    (copyAll source target names).Keeps SoundElements := by
  induction names with
  | nil => exact keeps_pure _
  | cons name names ih =>
    refine .bind (keeps_getOwnProperty unnamed_soundElements source name) fun desc => ?_
    cases desc with
    | none => exact keeps_fail _
    | some desc =>
      exact .bind (keeps_expectOk (keeps_defineOwnProperty target name desc false)) fun _ => ih

theorem keeps_objectOp (o : ℕ) (op : ObjectOp) : (op.exec o).Keeps SoundElements := by
  cases op with
  | get name strict =>
    exact .bind (keeps_getSlot unnamed_soundElements o name strict _) fun _ => keeps_pure _
  | getOwnProperty name =>
    exact .bind (keeps_getOwnProperty unnamed_soundElements o name) fun _ => keeps_pure _
  | getOwnPropertyNames all =>
    exact .bind (keeps_getOwnPropertyNames unnamed_soundElements o all) fun _ => keeps_pure _
  | put name val throwable => exact keeps_put o name val throwable
  | define name desc throwable =>
    exact .bind (keeps_defineOwnProperty o name desc throwable) fun _ => keeps_pure _
  | defineLengthTo desc newLen throwable =>
    exact .bind (keeps_defineLengthTo o desc newLen throwable) fun _ => keeps_pure _
  | delete name throwable => exact .bind (keeps_delete o name throwable) fun _ => keeps_pure _
  | changeExtensible val => exact keeps_changeExtensible o val
  | changePrototype prototype =>
    exact keeps_transition unnamed_soundElements o fun σ s =>
      σ.changePrototypeTransition s prototype
  | changeIndexed => exact keeps_transition unnamed_soundElements o _
  | freeze => exact .bind (keeps_integrity o frozen) fun _ => keeps_pure _
  | seal_ => exact .bind (keeps_integrity o sealed) fun _ => keeps_pure _

theorem soundElements_exec (op : Op) : op.exec.Keeps SoundElements := by
  have hs := unnamed_soundElements
  cases op with
  | newStructure prototype indexed => exact .bind (keeps_shapes hs _) fun _ => keeps_pure _
  | newObject s class_ => exact .bind (keeps_new s class_) fun _ => keeps_pure _
  | newUniqueObject prototype indexed class_ | newFromPoint map class_ =>
    exact .bind (keeps_shapes hs _) fun s => .bind (keeps_new s class_) fun _ => keeps_pure _
  | copy source =>
    exact .bind (.bind keeps_object fun obj => .bind (keeps_new _ _) fun target =>
      .bind (keeps_getOwnPropertyNames hs source true) fun names =>
        .bind (keeps_copyAll source target names) fun _ => keeps_pure _) fun _ => keeps_pure _
  | on o op => exact keeps_objectOp o op
  | clearTransition s key | rehash order => exact keeps_modify fun w => hs w _ fun _ => ⟨rfl, rfl⟩

/-- **The run lemma.** The elements are sound in every state of every run. -/
theorem Reachable.soundElements {ok : World → Op → Prop} (h : Reachable ok w) : w.SoundElements := by
  obtain ⟨order, h⟩ := h
  induction h with
  | refl => exact fun _ => sound_new
  | tail _ hstep ih =>
    obtain ⟨op, -, -, hs⟩ := hstep
    exact (soundElements_exec op _ ih).state hs

end Starlight
