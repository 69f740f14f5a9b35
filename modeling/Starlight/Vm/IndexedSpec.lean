import Starlight.Vm.DefineSpec

/-!
# Indexed elements and array lengths

Operations on the indexed elements of an object never move its named properties. All they can do to
the invariant is to store a property in the sparse map, so each of them is a chain of updates of the
elements that keep the sparse properties or add one that may be stored.
-/

namespace Starlight

open JsObject World

variable {α : Type} {P : Policy} {proper : Prop} {w w' : World} {o : ℕ}

namespace IndexedElements

def sparse (ix : IndexedElements) (i : ℕ) : Option StoredSlot := ix.map.bind fun m => m.lookup i

theorem bind_lookup_below (ix : IndexedElements) (i : ℕ) :
    (ix.map.bind fun m => if i < ix.length then m.lookup i else none) =
      if i < ix.length then ix.sparse i else none := by
  unfold sparse
  cases ix.map with
  | none => exact (ite_self _).symm
  | some m => rfl

def SparseLe (ix' ix : IndexedElements) : Prop := ∀ i s, ix'.sparse i = some s → ix.sparse i = some s

theorem SparseLe.refl (ix : IndexedElements) : ix.SparseLe ix := fun _ _ h => h

theorem SparseLe.trans {ix ix' ix'' : IndexedElements} (h : ix''.SparseLe ix')
    (h' : ix'.SparseLe ix) : ix''.SparseLe ix := fun i s hs => h' i s (h i s hs)

theorem sparseLe_of_map_eq {ix ix' : IndexedElements} (h : ix'.map = ix.map) : ix'.SparseLe ix := by
  intro i s hs
  unfold sparse at *
  rwa [h] at hs

theorem sparseLe_of_map_none {ix ix' : IndexedElements} (h : ix'.map = none) :
    ix'.SparseLe ix := by
  intro i s hs
  unfold sparse at hs
  rw [h] at hs
  cases hs

theorem sparseLe_of_map_sub {ix ix' : IndexedElements} {m m' : Finmap fun _ : ℕ => StoredSlot}
    (hm : ix.map = some m) (hm' : ix'.map = some m')
    (h : ∀ i s, m'.lookup i = some s → m.lookup i = some s) : ix'.SparseLe ix := by
  intro i s hs
  unfold sparse at *
  rw [hm'] at hs
  rw [hm]
  exact h i s hs

theorem sparseLe_setLength (ix : IndexedElements) (len : ℕ) : (ix.setLength len).SparseLe ix :=
  sparseLe_of_map_eq rfl

theorem sparseLe_makeDense (ix : IndexedElements) : ix.makeDense.SparseLe ix :=
  sparseLe_of_map_none rfl

/-- `make_sparse` moves plain values: a sparse property afterwards was there before or has the
attributes of an ordinary property. -/
theorem sparse_makeSparse (ix : IndexedElements) {i : ℕ} {s : StoredSlot}
    (h : ix.makeSparse.sparse i = some s) : ix.sparse i = some s ∨ s.attributes = objectData := by
  have key : ∀ (l : List ℕ) (m : Finmap fun _ : ℕ => StoredSlot),
      (l.foldl (fun m i =>
        let v := ix.vector.getD i .empty
        if v.isEmpty then m else m.insert i ⟨v, objectData⟩) m).lookup i = some s →
      m.lookup i = some s ∨ s.attributes = objectData := by
    intro l
    induction l with
    | nil => exact fun m h => .inl h
    | cons j l ih =>
      intro m h
      rcases ih _ h with h | h
      · dsimp only at h
        split at h
        · exact .inl h
        · rw [lookup_insert_eq] at h
          split at h
          · cases h; exact .inr rfl
          · exact .inl h
      · exact .inr h
  rcases key _ _ h with h | h
  · refine .inl ?_
    unfold sparse
    cases hm : ix.map with
    | none => rw [hm] at h; simp at h
    | some m => rw [hm] at h; exact h
  · exact .inr h

/-- The vector holds nothing, and neither does the map when the elements are dense. -/
structure Emptied (ix : IndexedElements) : Prop where
  vector : ∀ v ∈ ix.vector, v = .empty
  dense : ix.dense = true → ∀ i, ix.sparse i = none

theorem emptied_makeSparse (ix : IndexedElements) : ix.makeSparse.Emptied :=
  ⟨fun _ hv => List.eq_of_mem_replicate hv, fun h => nomatch h⟩

theorem sparse_shrinkMap (len : ℕ) (xs : List ℕ) (m : Finmap fun _ : ℕ => StoredSlot) {i : ℕ}
    {s : StoredSlot} (h : (shrinkMap len xs m).lookup i = some s) : m.lookup i = some s := by
  induction xs generalizing m with
  | nil => exact h
  | cons x xs ih =>
    unfold shrinkMap at h
    split at h
    · have := ih _ h
      rw [lookup_erase_eq] at this
      split at this
      · cases this
      · exact this
    · exact h

theorem sparseLe_shrinkDense (len : ℕ) (ix : IndexedElements) :
    (shrinkDense len ix).SparseLe ix := by
  unfold shrinkDense
  split
  · cases hm : ix.map with
    | none => exact SparseLe.refl ix
    | some m =>
      dsimp only
      split
      · exact sparseLe_makeDense _ |>.trans
          (sparseLe_of_map_sub hm rfl fun i s h => sparse_shrinkMap _ _ _ h)
      · exact sparseLe_of_map_sub hm rfl fun i s h => sparse_shrinkMap _ _ _ h
  · dsimp only
    split
    · exact sparseLe_of_map_none rfl
    · exact sparseLe_of_map_none rfl

end IndexedElements

open IndexedElements

/-! ### Updates -/

theorem guards_modifyIndexed (h : w.Inv P) (ho : o < w.nextObject)
    {f : IndexedElements → IndexedElements} (l₀ : Loc)
    (hf : ∀ i s, (f (w.objects o).indexed).sparse i = some s →
      (w.objects o).indexed.sparse i = some s ∨
        (Storable P w o (.sparse i) s ∧ (s.attributes.accessor = true → .sparse i = l₀))) :
    Guards P proper o w (modifyIndexed o f w) fun _ w' =>
      w'.table o = w.table o ∧ (w'.objects o).class_ = (w.objects o).class_ :=
  Guards.of_ok (h.touch_object ho (f := fun obj => { obj with indexed := f obj.indexed })
    rfl rfl rfl l₀ hf)
    (.of_object (f := fun obj => { obj with indexed := f obj.indexed }) rfl rfl) ⟨by simp [World.table], by simp⟩

theorem guards_modifyIndexed_le (h : w.Inv P) (ho : o < w.nextObject)
    {f : IndexedElements → IndexedElements} (hf : ∀ ix, (f ix).SparseLe ix) :
    Guards P proper o w (modifyIndexed o f w) fun _ _ => True :=
  (guards_modifyIndexed h ho (.sparse 0) fun i s hs => .inl (hf _ i s hs)).mono
    fun _ _ _ _ => trivial

theorem storable_objectData {i : ℕ} {s : StoredSlot} (hs : s.attributes = objectData) :
    Storable P w o (.sparse i) s where
  typed := hs ▸ createData_typed _
  accessor ha := by rw [hs] at ha; cases ha
  data _ hn := by cases hn

theorem guards_makeSparse (h : w.Inv P) (ho : o < w.nextObject) :
    Guards P proper o w (modifyIndexed o IndexedElements.makeSparse w) fun _ w' =>
      (w'.objects o).extensible = (w.objects o).extensible ∧ (w'.objects o).indexed.Emptied := by
  have hg : Guards P proper o w (modifyIndexed o IndexedElements.makeSparse w) _ :=
    guards_modifyIndexed h ho (.sparse 0) fun i s hs =>
      (sparse_makeSparse _ hs).imp_right fun hs => ⟨storable_objectData hs, fun ha => by
        rw [hs] at ha
        cases ha⟩
  refine ⟨hg.1, ?_⟩
  simp [emptied_makeSparse]

theorem guards_changeExtensible (h : w.Inv P) (ho : o < w.nextObject) (val : Bool) :
    Guards P proper o w (changeExtensible o val w) fun _ w' =>
      (w'.objects o).extensible = val ∧ (w'.objects o).indexed.Emptied := by
  refine Guards.bind (R := fun _ w' => (w'.objects o).extensible = val) (Guards.of_ok
    (h.touch_object ho (f := fun obj => { obj with extensible := val }) rfl rfl rfl (.sparse 0)
      fun i s hs => .inl hs) (.of_object (f := fun obj => { obj with extensible := val }) rfl rfl)
    (by simp)) fun _ w₁ ht₁ hval => ?_
  have ho₁ : o < w₁.nextObject := ht₁.nextObject ▸ ho
  obtain ⟨ht, htgt⟩ := ht₁.inv.shapes.changeExtensibleTransition (ht₁.inv.live ho₁)
  refine Guards.bind (guards_transition ht₁.inv ho₁ _ rfl ht htgt
    fun p hp => ht₁.inv.prototype_lt ho₁ hp) fun _ w₂ ht₂ ⟨_, hext, _⟩ => ?_
  exact (guards_makeSparse ht₂.inv (ht₂.nextObject ▸ ho₁)).mono
    fun _ _ _ he => ⟨he.1.trans (hext.trans hval), he.2⟩

/-! ### Deletion -/

theorem guards_deleteIndexedInternal (h : w.Inv P) (ho : o < w.nextObject) (index : ℕ)
    (throwable : Bool) :
    Guards P proper o w (deleteIndexedInternal o index throwable w) fun _ _ => True := by
  unfold deleteIndexedInternal
  rw [Vm.object_bind]
  refine Guards.ite (fun _ => Guards.pure h trivial) fun _ => ?_
  refine Guards.ite (fun _ => ?_) fun _ => ?_
  · exact Guards.bind (guards_modifyIndexed_le h ho fun ix => sparseLe_of_map_eq rfl)
      fun _ _ ht _ => Guards.pure ht.inv trivial
  refine Guards.ite (fun _ => Guards.pure h trivial) fun _ => ?_
  cases hm : (w.objects o).indexed.map with
  | none => exact Guards.pure h trivial
  | some m =>
    dsimp only
    cases hx : m.lookup index with
    | none => exact Guards.pure h trivial
    | some x =>
      refine Guards.ite (fun _ => (Reads.reject h _ _ trivial).guards h) fun _ => ?_
      refine Guards.bind (R := fun _ _ => True) ?_ fun _ _ ht _ => Guards.pure ht.inv trivial
      refine (guards_modifyIndexed h ho (.sparse 0) fun i s hs => .inl ?_).mono
        fun _ _ _ _ => trivial
      split at hs
      · cases hs
      · refine sparseLe_of_map_sub hm rfl (fun i s hs => ?_) i s hs
        rw [lookup_erase_eq] at hs
        split at hs
        · cases hs
        · exact hs

theorem guards_modifyLength (h : w.Inv P) (ho : o < w.nextObject) (n : ℕ) :
    Guards P proper o w (modifyIndexed o (fun ix => ix.setLength n) w) fun _ _ => True :=
  guards_modifyIndexed_le h ho fun ix => sparseLe_setLength ix n

theorem guards_shrinkFromEnd (h : w.Inv P) (ho : o < w.nextObject) (len : ℕ) (throwable : Bool)
    (old : ℕ) : Guards P proper o w (shrinkFromEnd o len throwable old w) fun _ _ => True := by
  induction old generalizing w with
  | zero => exact Guards.bind (guards_modifyLength h ho _) fun _ _ ht _ => Guards.pure ht.inv trivial
  | succ old ih =>
    unfold shrinkFromEnd
    refine Guards.ite (fun _ => ?_) fun _ => ?_
    · refine Guards.bind (guards_deleteIndexedInternal h ho _ _) fun b w₁ ht₁ _ => ?_
      have ho₁ : o < w₁.nextObject := ht₁.nextObject ▸ ho
      refine Guards.ite (fun _ => ih ht₁.inv ho₁) fun _ => ?_
      exact Guards.bind (guards_modifyLength ht₁.inv ho₁ _) fun _ w₂ ht₂ _ =>
        (Reads.reject ht₂.inv _ _ trivial).guards ht₂.inv
    · exact Guards.bind (guards_modifyLength h ho _) fun _ _ ht _ => Guards.pure ht.inv trivial

theorem guards_shrinkByNames (h : w.Inv P) (ho : o < w.nextObject) (len : ℕ) (throwable : Bool)
    (names : List Symbol) :
    Guards P proper o w (shrinkByNames o len throwable names w) fun _ _ => True := by
  induction names generalizing w with
  | nil => exact Guards.bind (guards_modifyLength h ho _) fun _ _ ht _ => Guards.pure ht.inv trivial
  | cons name names ih =>
    cases name with
    | key t => exact ih h ho
    | priv t => exact ih h ho
    | index i =>
      refine Guards.bind (guards_deleteIndexedInternal h ho _ _) fun b w₁ ht₁ _ => ?_
      have ho₁ : o < w₁.nextObject := ht₁.nextObject ▸ ho
      refine Guards.ite (fun _ => ih ht₁.inv ho₁) fun _ => ?_
      exact Guards.bind (guards_modifyLength ht₁.inv ho₁ _) fun _ w₂ ht₂ _ =>
        (Reads.reject ht₂.inv _ _ trivial).guards ht₂.inv

/-! ### Array lengths -/

theorem reads_getOwnPropertyNames (h : w.Inv P) (ho : o < w.nextObject) (all : Bool) :
    Reads P w (getOwnPropertyNames o all w) fun _ => True := by
  unfold getOwnPropertyNames
  rw [Vm.object_bind, Exec.gets_bind]
  obtain ⟨hr, -⟩ := h.shapes.allocateTableIfNeeded (h.live ho)
  exact ⟨h.read_shapes hr, trivial⟩

theorem guards_changeLengthWritable (h : w.Inv P) (ho : o < w.nextObject)
    (writable throwable : Bool) :
    Guards P proper o w (changeLengthWritable o writable throwable w) fun _ _ => True := by
  unfold changeLengthWritable
  rw [Vm.object_bind]
  refine Guards.ite (fun _ => ?_) fun _ => Guards.ite (fun _ => ?_) fun _ => ?_
  · exact Guards.bind (guards_modifyIndexed_le h ho
      (f := fun ix => { ix with writable := false }) fun ix => sparseLe_of_map_eq rfl)
      fun _ _ ht _ => Guards.pure ht.inv trivial
  · exact (Reads.reject h _ _ trivial).guards h
  · exact Guards.pure h trivial

theorem guards_setLength (h : w.Inv P) (ho : o < w.nextObject) (len : ℕ) (throwable : Bool) :
    Guards P proper o w (JsObject.setLength o len throwable w) fun _ _ => True := by
  unfold JsObject.setLength
  refine Guards.ite (fun _ => Guards.fail h _ _) fun _ => ?_
  rw [Vm.object_bind]
  refine Guards.ite (fun _ => ?_) fun _ => Guards.ite (fun _ => ?_) fun _ =>
    Guards.ite (fun _ => ?_) fun _ => ?_
  · exact Guards.bind (guards_modifyIndexed_le h ho fun ix => sparseLe_setLength ix len)
      fun _ _ ht _ => Guards.pure ht.inv trivial
  · exact Guards.bind (guards_modifyIndexed_le h ho fun ix =>
      (sparseLe_setLength _ len).trans (sparseLe_shrinkDense len ix))
      fun _ _ ht _ => Guards.pure ht.inv trivial
  · exact guards_shrinkFromEnd h ho _ _ _
  · exact Reads.bind_guards h (reads_getOwnPropertyNames h ho true) fun names w₁ hr _ =>
      guards_shrinkByNames hr.inv (hr.nextObject ▸ ho) _ _ _

theorem guards_defineLengthTo (h : w.Inv P) (ho : o < w.nextObject) (desc : PropertyDescriptor)
    (d : F64) (throwable : Bool) :
    Guards P proper o w (defineLengthTo o desc d throwable w) fun _ _ => True := by
  have htail : ∀ {w : World} (r : Bool), w.Inv P → o < w.nextObject →
      Guards P proper o w ((if !desc.attrs.undefWritable then
          changeLengthWritable o desc.attrs.writable throwable
        else return r) w) fun _ _ => True := fun r h ho =>
    Guards.ite (fun _ => guards_changeLengthWritable h ho _ _) fun _ => Guards.pure h trivial
  unfold defineLengthTo
  refine Guards.ite (fun _ => Guards.fail h _ _) fun _ => ?_
  rw [Vm.object_bind]
  refine Guards.ite (fun _ => htail _ h ho) fun _ => Guards.ite
    (fun _ => (Reads.reject h _ _ trivial).guards h) fun _ => ?_
  exact Guards.bind (guards_setLength h ho _ _) fun r w₁ ht₁ _ =>
    htail r ht₁.inv (ht₁.nextObject ▸ ho)

theorem reads_toNumber (h : w.Inv P) (v : JsValue) : Reads P w (toNumber v w) fun _ => True := by
  cases v with
  | double d | int32 i | bool b | null | undefined => exact Reads.pure h trivial
  | _ => exact Reads.fail h _ _

theorem guards_defineLengthProperty (h : w.Inv P) (ho : o < w.nextObject)
    (desc : PropertyDescriptor) (throwable : Bool) :
    Guards P proper o w (defineLengthProperty o desc throwable w) fun _ _ => True := by
  have hrej : ∀ msg, Guards P proper o w (Vm.reject throwable msg false w) fun _ _ => True :=
    fun msg => (Reads.reject h throwable msg trivial).guards h
  unfold defineLengthProperty
  refine Guards.ite (fun _ => hrej _) fun _ => Guards.ite (fun _ => hrej _) fun _ =>
    Guards.ite (fun _ => hrej _) fun _ => Guards.ite (fun _ => ?_) fun _ => ?_
  · exact Guards.ite (fun _ => guards_changeLengthWritable h ho _ _)
      fun _ => Guards.pure h trivial
  · exact Reads.bind_guards h (reads_toNumber h _) fun d w₁ hr _ =>
      guards_defineLengthTo hr.inv (hr.nextObject ▸ ho) _ _ _

end Starlight
