import Starlight.Vm.HeapRuns

/-!
# Objects that are not extensible

What the operations do to an object that takes no new properties. `Closed` is the state in which
`change_extensible` leaves it, up to elements that were deleted since: the vector holds nothing, and the
map holds nothing either when the elements count as dense again. `Shut` is the frame of an operation that
keeps this and gives the object no key.

Two kinds of operation do not have this frame. One that writes to the dense vector does not ask whether
the object is extensible, and one that raises the length of an array uncovers what the map still holds
beyond it. `AddsElement` and `Revives` are the conditions under which they do.
-/

namespace Starlight

open JsObject World IndexedElements

variable {α β : Type} {w w' w'' : World} {o : ℕ}

namespace IndexedElements

/-- The map holds an element under `i`, and the length covers it. -/
def Has (ix : IndexedElements) (i : ℕ) : Prop := i < ix.length ∧ (ix.sparse i).isSome = true

theorem Has.mono {ix ix' : IndexedElements} {i : ℕ} (h : ix'.Has i) (hle : ix'.SparseLe ix)
    (hlen : ix'.length ≤ ix.length) : ix.Has i := by
  obtain ⟨hi, hs⟩ := h
  obtain ⟨s, hs⟩ := Option.isSome_iff_exists.mp hs
  exact ⟨lt_of_lt_of_le hi hlen, Option.isSome_iff_exists.mpr ⟨s, hle i s hs⟩⟩

theorem SparseLe.eq_none {ix ix' : IndexedElements} (h : ix'.SparseLe ix) {i : ℕ}
    (hi : ix.sparse i = none) : ix'.sparse i = none := by
  cases hs : ix'.sparse i with
  | none => rfl
  | some s =>
    have hs := h i s hs
    rw [hi] at hs
    cases hs

theorem Emptied.of_le {ix ix' : IndexedElements} (h : ix.Emptied) (hle : ix'.SparseLe ix)
    (hd : ix'.dense = true → ix.dense = true) (hv : ∀ v ∈ ix'.vector, v = .empty) : ix'.Emptied :=
  ⟨hv, fun hd' i => hle.eq_none (h.dense (hd hd') i)⟩

theorem Emptied.getD {ix : IndexedElements} (h : ix.Emptied) (j : ℕ) :
    ix.vector.getD j .empty = .empty := by
  rw [List.getD_eq_getElem?_getD]
  cases hv : ix.vector[j]? with
  | none => rfl
  | some v => exact h.vector v (List.mem_of_getElem? hv)

theorem Emptied.sparse_makeSparse {ix : IndexedElements} (h : ix.Emptied) (i : ℕ) :
    ix.makeSparse.sparse i = ix.sparse i := by
  have key : ∀ (l : List ℕ) (m : Finmap fun _ : ℕ => StoredSlot),
      l.foldl (fun m i =>
        let v := ix.vector.getD i .empty
        if v.isEmpty then m else m.insert i ⟨v, objectData⟩) m = m := by
    intro l
    induction l with
    | nil => exact fun _ => rfl
    | cons j l ih =>
      intro m
      rw [List.foldl_cons, ih]
      dsimp only
      rw [h.getD]
      exact if_pos rfl
  change ((some _ : Option (Finmap fun _ : ℕ => StoredSlot)).bind fun m => m.lookup i) = _
  rw [key, Option.bind_some]
  unfold sparse
  cases ix.map with
  | none => exact Finmap.lookup_empty i
  | some m => rfl

theorem emptied_shrinkDense {ix : IndexedElements} (h : ix.Emptied) (hd : ix.dense = true) (len : ℕ) :
    (shrinkDense len ix).Emptied := by
  refine h.of_le (sparseLe_shrinkDense len ix) (fun _ => hd) ?_
  unfold shrinkDense
  split
  · cases ix.map with
    | none => exact h.vector
    | some m =>
      dsimp only
      split
      · exact h.vector
      · exact h.vector
  · dsimp only
    split
    · intro v hv
      rcases List.mem_append.mp hv with hv | hv
      · exact h.vector v (List.mem_of_mem_take hv)
      · exact List.eq_of_mem_replicate hv
    · exact h.vector

end IndexedElements

/-! ### Closed objects -/

/-- Object `o` takes no new properties, and its elements are in the map. It is not a string object, which
answers for its characters itself. -/
structure Closed (w : World) (o : ℕ) : Prop where
  inv : w.Inv layoutPolicy
  lt : o < w.nextObject
  extensible : (w.objects o).extensible = false
  emptied : (w.objects o).indexed.Emptied
  plain : ¬ isString (w.objects o).class_

/-- Object `o` has no key in the heap `w'` that it did not have in the heap `w`, and is as extensible. -/
structure World.Shrinks (o : ℕ) (w w' : World) : Prop where
  extensible : (w'.objects o).extensible = (w.objects o).extensible
  emptied : (w.objects o).indexed.Emptied → (w'.objects o).indexed.Emptied
  element : (w.objects o).indexed.Emptied →
    ∀ i, (w'.objects o).indexed.Has i → (w.objects o).indexed.Has i
  named : ∀ n, n ∈ w'.table o → n ∈ w.table o

theorem World.Shrinks.trans (h : Shrinks o w w') (h' : Shrinks o w' w'') : Shrinks o w w'' where
  extensible := h'.extensible.trans h.extensible
  emptied he := h'.emptied (h.emptied he)
  element he i hi := h.element he i (h'.element (h.emptied he) i hi)
  named n hn := h.named n (h'.named n hn)

theorem World.Shrinks.of_same (hext : (w'.objects o).extensible = (w.objects o).extensible)
    (hix : (w'.objects o).indexed = (w.objects o).indexed) (htab : w'.table o = w.table o) :
    Shrinks o w w' where
  extensible := hext
  emptied he := hix.symm ▸ he
  element _ _ hi := hix ▸ hi
  named _ hn := htab ▸ hn

/-- The frame of an operation that gives object `o` no key. -/
structure World.Shut (o : ℕ) (w w' : World) : Prop extends
  Touch layoutPolicy o w w', Shrinks o w w'

theorem World.Shut.trans (h : Shut o w w') (h' : Shut o w' w'') : Shut o w w'' :=
  ⟨h.toTouch.trans h'.toTouch, h.toShrinks.trans h'.toShrinks⟩

theorem World.Shut.of_same (ht : Touch layoutPolicy o w w')
    (hext : (w'.objects o).extensible = (w.objects o).extensible)
    (hix : (w'.objects o).indexed = (w.objects o).indexed) (htab : w'.table o = w.table o) :
    Shut o w w' := ⟨ht, .of_same hext hix htab⟩

theorem World.Read.shut (h : Read layoutPolicy w w') (hw : w.Inv layoutPolicy)
    (ho : o < w.nextObject) : Shut o w w' :=
  .of_same (h.touch hw o) (by rw [h.objects]) (by rw [h.objects]) (h.table hw ho)

theorem Closed.kept (h : Closed w o) (hk : Kept layoutPolicy w w') (hs : Shrinks o w w') :
    Closed w' o where
  inv := hk.inv
  lt := lt_of_lt_of_le h.lt hk.nextObject_le
  extensible := hs.extensible.trans h.extensible
  emptied := hs.emptied h.emptied
  plain := by rw [hk.class_eq o h.lt]; exact h.plain

theorem Closed.shut (h : Closed w o) (hs : Shut o w w') : Closed w' o :=
  h.kept hs.toTouch.kept hs.toShrinks

theorem Closed.read (h : Closed w o) (hr : Read layoutPolicy w w') : Closed w' o :=
  h.shut (hr.shut h.inv h.lt)

theorem Closed.shut_refl (h : Closed w o) : Shut o w w := h.inv.read_refl.shut h.inv h.lt

/-- The computation gives object `o` no key, and a normal end satisfies `R`. -/
def Shuts (o : ℕ) (w : World) (r : Result Fault World α) (R : α → World → Prop) : Prop :=
  r.Sat (fun a w' => Shut o w w' ∧ R a w') fun _ w' => Shut o w w'

theorem Shuts.mono {r : Result Fault World α} {R R' : α → World → Prop} (h : Shuts o w r R)
    (hR : ∀ a w', R a w' → R' a w') : Shuts o w r R' :=
  Result.Sat.mono h (fun a w' ha => ⟨ha.1, hR a w' ha.2⟩) fun _ _ he => he

theorem Shuts.drop {x : Vm α} {R : α → World → Prop} (h : Shuts o w (x w) R) :
    Shuts o w ((do let _ ← x) w) fun _ _ => True :=
  Result.Sat.bind h fun _ _ ha => ⟨ha.1, trivial⟩

theorem Reads.bind_shuts_run (h : Closed w o) {x : Vm α} {f : α → Vm β} {R : α → Prop}
    {S : β → World → Prop} (hx : Reads layoutPolicy w (x w) R)
    (hf : ∀ a w', x w = .ok a w' → Closed w' o → Read layoutPolicy w w' → R a →
      Shuts o w' (f a w') S) : Shuts o w ((x >>= f) w) S := by
  unfold Shuts
  rw [Exec.bind_apply]
  cases hrun : x w with
  | ok a w' =>
    rw [hrun] at hx
    obtain ⟨hr, ha⟩ := hx
    have hs := hr.shut h.inv h.lt
    exact Result.Sat.mono (hf a w' hrun (h.read hr) hr ha) (fun _ _ hb => ⟨hs.trans hb.1, hb.2⟩)
      fun _ _ he => hs.trans he
  | error e w' =>
    rw [hrun] at hx
    exact World.Read.shut hx h.inv h.lt
  | stuck => rw [hrun] at hx; exact hx
  | diverge => trivial

theorem Reads.bind_shuts (h : Closed w o) {x : Vm α} {f : α → Vm β} {R : α → Prop}
    {S : β → World → Prop} (hx : Reads layoutPolicy w (x w) R)
    (hf : ∀ a w', Closed w' o → Read layoutPolicy w w' → R a → Shuts o w' (f a w') S) :
    Shuts o w ((x >>= f) w) S :=
  hx.bind_shuts_run h fun a w' _ => hf a w'

theorem Shuts.bind (h : Closed w o) {x : Vm α} {f : α → Vm β} {R : α → World → Prop}
    {S : β → World → Prop} (hx : Shuts o w (x w) R)
    (hf : ∀ a w', Closed w' o → R a w' → Shuts o w' (f a w') S) : Shuts o w ((x >>= f) w) S :=
  Result.Sat.bind hx fun a w' ⟨hs, ha⟩ => Result.Sat.mono (hf a w' (h.shut hs) ha)
    (fun _ _ hb => ⟨hs.trans hb.1, hb.2⟩) fun _ _ he => hs.trans he

theorem Reads.shuts (h : Closed w o) {r : Result Fault World α} {R : α → Prop}
    (hr : Reads layoutPolicy w r R) : Shuts o w r fun a _ => R a :=
  Result.Sat.mono hr (fun _ _ ha => ⟨ha.1.shut h.inv h.lt, ha.2⟩) fun _ _ he => he.shut h.inv h.lt

theorem Shuts.pure (h : Closed w o) {a : α} {R : α → World → Prop} (hr : R a w) :
    Shuts o w ((Pure.pure a : Vm α) w) R := ⟨h.shut_refl, hr⟩

theorem Shuts.fail (h : Closed w o) (e : Fault) (R : α → World → Prop) :
    Shuts o w ((Exec.fail e : Vm α) w) R := h.shut_refl

theorem Shuts.reject (h : Closed w o) (throwable : Bool) (msg : String) {a : α}
    {R : α → World → Prop} (hr : R a w) : Shuts o w (Vm.reject throwable msg a w) R := by
  cases throwable with
  | true => exact Shuts.fail h _ _
  | false => exact Shuts.pure h hr

theorem Shuts.ite {c : Prop} [Decidable c] {x y : Vm α} {R : α → World → Prop}
    (hx : c → Shuts o w (x w) R) (hy : ¬ c → Shuts o w (y w) R) :
    Shuts o w ((if c then x else y) w) R := by
  by_cases hc : c
  · rw [if_pos hc]; exact hx hc
  · rw [if_neg hc]; exact hy hc

theorem shuts_onlyIf (h : Closed w o) {b : Bool} {x : Vm Unit} {R : Unit → World → Prop}
    (hx : b = true → Shuts o w (x w) R) (hr : b = false → R () w) :
    Shuts o w (Vm.onlyIf b x w) R :=
  Shuts.ite hx fun hb => Shuts.pure h (hr (by simpa using hb))

/-! ### Updates -/

theorem shuts_modifyIndexed {f : IndexedElements → IndexedElements} {R : Unit → World → Prop}
    (hg : Guards layoutPolicy False o w (modifyIndexed o f w) R)
    (hf : (w.objects o).indexed.Emptied → (f (w.objects o).indexed).Emptied ∧
      ∀ i, (f (w.objects o).indexed).Has i → (w.objects o).indexed.Has i) :
    Shuts o w (modifyIndexed o f w) fun _ w' =>
      (w'.objects o).indexed = f (w.objects o).indexed := by
  have hix : ∀ w', modifyIndexed o f w = .ok () w' →
      (w'.objects o).indexed = f (w.objects o).indexed ∧
        (w'.objects o).extensible = (w.objects o).extensible ∧ w'.table o = w.table o := by
    rintro _ ⟨⟩
    simp [World.table]
  obtain ⟨hix, hext, htab⟩ := hix _ rfl
  refine ⟨⟨hg.1.toTouch, hext, fun he => ?_, fun he => ?_, fun _ hn => htab ▸ hn⟩, hix⟩
  · rw [hix]; exact (hf he).1
  · rw [hix]; exact (hf he).2

theorem shuts_modifyIndexed_le (h : Closed w o) {f : IndexedElements → IndexedElements}
    (hle : (f (w.objects o).indexed).SparseLe (w.objects o).indexed)
    (hlen : (f (w.objects o).indexed).length ≤ (w.objects o).indexed.length)
    (he : (f (w.objects o).indexed).Emptied) :
    Shuts o w (modifyIndexed o f w) fun _ w' =>
      (w'.objects o).indexed = f (w.objects o).indexed :=
  shuts_modifyIndexed (guards_modifyIndexed h.inv h.lt (.sparse 0) fun i s hs => .inl (hle i s hs))
    fun _ => ⟨he, fun _ hi => hi.mono hle hlen⟩

theorem shuts_makeSparse (h : Closed w o) :
    Shuts o w (modifyIndexed o IndexedElements.makeSparse w) fun _ w' =>
      (w'.objects o).indexed = (w.objects o).indexed.makeSparse := by
  refine shuts_modifyIndexed (guards_makeSparse h.inv h.lt) fun he =>
    ⟨emptied_makeSparse _, fun i hi => ⟨hi.1, ?_⟩⟩
  rw [← he.sparse_makeSparse]
  exact hi.2

theorem shuts_transition {f : Shapes → ℕ → ℕ × Shapes}
    (hg : Guards layoutPolicy False o w (transition o f w) fun _ w' => w'.table o = w.table o ∧
      (w'.objects o).extensible = (w.objects o).extensible ∧
        (w'.objects o).indexed = (w.objects o).indexed) :
    Shuts o w (transition o f w) fun _ _ => True :=
  Result.Sat.mono (Q := fun _ w' => Guard layoutPolicy False o w w' ∧ w'.table o = w.table o ∧
      (w'.objects o).extensible = (w.objects o).extensible ∧
        (w'.objects o).indexed = (w.objects o).indexed) (E := fun _ _ => False)
    hg (fun _ _ ⟨hg, htab, hext, hix⟩ => ⟨.of_same hg.toTouch hext hix htab, trivial⟩)
    fun _ _ he => he.elim

/-- The computation leaves objects and structures alone, however it ends. -/
def Inert (w : World) (r : Result Fault World α) : Prop :=
  ∀ w', r.state? = some w' → w'.objects = w.objects ∧ w'.shapes = w.shapes

theorem Inert.bind {x : Vm α} {f : α → Vm β} (hx : Inert w (x w))
    (hf : ∀ a w', x w = .ok a w' → Inert w' (f a w')) : Inert w ((x >>= f) w) := by
  intro w' hw'
  rw [Exec.bind_apply] at hw'
  cases hxw : x w with
  | ok a w₁ =>
    rw [hxw] at hw'
    obtain ⟨hobj, hsh⟩ := hx w₁ (by rw [hxw]; rfl)
    obtain ⟨hobj', hsh'⟩ := hf a w₁ hxw w' hw'
    exact ⟨hobj'.trans hobj, hsh'.trans hsh⟩
  | error e w₁ =>
    rw [hxw] at hw'
    exact hx w' (by rw [hxw]; exact hw')
  | stuck | diverge => rw [hxw] at hw'; cases hw'

theorem inert_modifyAccessor (b : Bool) (c : ℕ) (f : Accessor → Accessor) (w : World) :
    Inert w (Vm.onlyIf b (Vm.modifyAccessor c f) w) := by
  unfold Vm.onlyIf
  split
  · rintro _ ⟨⟩
    exact ⟨rfl, rfl⟩
  · rintro _ ⟨⟩
    exact ⟨rfl, rfl⟩

theorem inert_merge (s : StoredSlot) (desc : PropertyDescriptor) (w : World) :
    Inert w (s.merge desc w) := by
  have hcell : Inert w (s.mergeCell w) := by
    unfold StoredSlot.mergeCell StoredSlot.accessor
    split
    · cases s.value <;> intro w' hw' <;> cases hw' <;> exact ⟨rfl, rfl⟩
    · rintro _ ⟨⟩
      exact ⟨rfl, rfl⟩
  unfold StoredSlot.merge
  split
  · rintro _ ⟨⟩
    exact ⟨rfl, rfl⟩
  split
  · rintro _ ⟨⟩
    exact ⟨rfl, rfl⟩
  refine hcell.bind fun c w₁ _ => (inert_modifyAccessor _ c _ w₁).bind fun _ w₂ _ =>
    (inert_modifyAccessor _ c _ w₂).bind fun _ w₃ _ => ?_
  rintro _ ⟨⟩
  exact ⟨rfl, rfl⟩

theorem Guards.shuts_of_inert {r : Result Fault World α} {R : α → World → Prop}
    (hg : Guards layoutPolicy False o w r R) (hi : Inert w r) : Shuts o w r R := by
  have key : ∀ {w'}, r.state? = some w' → Touch layoutPolicy o w w' → Shut o w w' := by
    intro w' hw' ht
    obtain ⟨hobj, hsh⟩ := hi w' hw'
    exact .of_same ht (by rw [hobj]) (by rw [hobj]) (by rw [World.table, hobj, hsh, World.table])
  cases r with
  | ok a w' => exact ⟨key rfl hg.1.toTouch, hg.2⟩
  | error e w' => exact key rfl hg.toTouch
  | stuck => exact hg
  | diverge => trivial

/-! ### Elements and lengths -/

theorem shuts_deleteIndexedInternal (h : Closed w o) (index : ℕ) (throwable : Bool) :
    Shuts o w (deleteIndexedInternal o index throwable w) fun r w' =>
      (w'.objects o).indexed.length = (w.objects o).indexed.length ∧
        (r = false → index < (w.objects o).indexed.length) := by
  unfold deleteIndexedInternal
  rw [Vm.object_bind]
  refine Shuts.ite (fun _ => Shuts.pure h ⟨rfl, by simp⟩) fun hlt => ?_
  refine Shuts.ite (fun _ => ?_) fun _ => ?_
  · refine Shuts.bind h (shuts_modifyIndexed_le h (sparseLe_of_map_eq rfl) le_rfl
      (h.emptied.of_le (sparseLe_of_map_eq rfl) id fun v hv => ?_))
      fun _ w₁ h₁ hix => Shuts.pure h₁ ⟨by rw [hix], by simp⟩
    rcases List.mem_or_eq_of_mem_set hv with hv | hv
    · exact h.emptied.vector v hv
    · exact hv
  refine Shuts.ite (fun _ => Shuts.pure h ⟨rfl, by simp⟩) fun _ => ?_
  cases hm : (w.objects o).indexed.map with
  | none => exact Shuts.pure h ⟨rfl, by simp⟩
  | some m =>
    dsimp only
    cases hx : m.lookup index with
    | none => exact Shuts.pure h ⟨rfl, by simp⟩
    | some x =>
      refine Shuts.ite (fun _ => Shuts.reject h _ _ ⟨rfl, fun _ => Nat.lt_of_not_le hlt⟩)
        fun _ => ?_
      have hle : IndexedElements.SparseLe
          { (w.objects o).indexed with map := some (m.erase index) } (w.objects o).indexed := by
        refine sparseLe_of_map_sub hm rfl fun i s hs => ?_
        rw [lookup_erase_eq] at hs
        split at hs
        · cases hs
        · exact hs
      refine Shuts.bind h (shuts_modifyIndexed_le h ?_ ?_ ?_) fun _ w₁ h₁ hix =>
        Shuts.pure h₁ ⟨?_, by simp⟩
      · split
        · exact sparseLe_of_map_none rfl
        · exact hle
      · split <;> exact le_rfl
      · split
        · exact ⟨h.emptied.vector, fun _ _ => rfl⟩
        · exact h.emptied.of_le hle id h.emptied.vector
      · rw [hix]
        split <;> rfl

/-- Assigning the number `d` to the length uncovers an element that the map holds beyond it. -/
structure Revives (w : World) (o : ℕ) (d : F64) : Prop where
  writable : (w.objects o).indexed.writable = true
  isLength : (F64.ofInt d.toU32).eq d = true
  uncovers : ∃ i, (w.objects o).indexed.length ≤ i ∧ i < d.toU32 ∧
    ((w.objects o).indexed.sparse i).isSome = true

theorem shuts_setLength_le (h : Closed w o) {len : ℕ} (hlen : len ≤ (w.objects o).indexed.length) :
    Shuts o w (modifyIndexed o (fun ix => ix.setLength len) w) fun _ _ => True :=
  (shuts_modifyIndexed_le h (sparseLe_setLength _ len) hlen
    (h.emptied.of_le (sparseLe_setLength _ len) id h.emptied.vector)).mono fun _ _ _ => trivial

theorem shuts_shrinkFromEnd (h : Closed w o) (len : ℕ) (throwable : Bool) (old : ℕ)
    (hlen : len ≤ (w.objects o).indexed.length) (hold : old ≤ (w.objects o).indexed.length) :
    Shuts o w (shrinkFromEnd o len throwable old w) fun _ _ => True := by
  induction old generalizing w with
  | zero => exact Shuts.bind h (shuts_setLength_le h hlen) fun _ _ h₁ _ => Shuts.pure h₁ trivial
  | succ old ih =>
    unfold shrinkFromEnd
    refine Shuts.ite (fun _ => ?_) fun _ =>
      Shuts.bind h (shuts_setLength_le h hlen) fun _ _ h₁ _ => Shuts.pure h₁ trivial
    refine Shuts.bind h (shuts_deleteIndexedInternal h old false) fun b w₁ h₁ hr => ?_
    have hl := hr.1
    refine Shuts.ite (fun _ => ih h₁ (hl ▸ hlen) ((Nat.le_of_succ_le hold).trans hl.ge)) fun _ => ?_
    exact Shuts.bind h₁ (shuts_setLength_le h₁ (hold.trans hl.ge)) fun _ _ h₂ _ =>
      Shuts.reject h₂ _ _ trivial

theorem shuts_shrinkByNames (h : Closed w o) (len : ℕ) (throwable : Bool) (names : List Symbol)
    (hlen : len ≤ (w.objects o).indexed.length) :
    Shuts o w (shrinkByNames o len throwable names w) fun _ _ => True := by
  induction names generalizing w with
  | nil => exact Shuts.bind h (shuts_setLength_le h hlen) fun _ _ h₁ _ => Shuts.pure h₁ trivial
  | cons name names ih =>
    cases name with
    | key t | priv t => exact ih h hlen
    | index i =>
      refine Shuts.bind h (shuts_deleteIndexedInternal h i false) fun b w₁ h₁ ⟨hl, hlt⟩ => ?_
      refine Shuts.ite (fun _ => ih h₁ (hl ▸ hlen)) fun hb => ?_
      -- the deletion failed, so the index is below the length
      have hi : i + 1 ≤ (w₁.objects o).indexed.length := hl ▸ hlt (by simpa using hb)
      exact Shuts.bind h₁ (shuts_setLength_le h₁ hi) fun _ _ h₂ _ => Shuts.reject h₂ _ _ trivial

theorem shuts_changeLengthWritable (h : Closed w o) (writable throwable : Bool) :
    Shuts o w (changeLengthWritable o writable throwable w) fun _ _ => True := by
  unfold changeLengthWritable
  rw [Vm.object_bind]
  refine Shuts.ite (fun _ => ?_) fun _ =>
    Shuts.ite (fun _ => Shuts.reject h _ _ trivial) fun _ => Shuts.pure h trivial
  exact Shuts.bind h (shuts_modifyIndexed_le h (f := fun ix => { ix with writable := false })
    (sparseLe_of_map_eq rfl) le_rfl (h.emptied.of_le (sparseLe_of_map_eq rfl) id h.emptied.vector))
    fun _ _ h₁ _ => Shuts.pure h₁ trivial

theorem shuts_setLength (h : Closed w o) (len : ℕ) (throwable : Bool)
    (hr : ∀ i, (w.objects o).indexed.length ≤ i → i < len →
      ((w.objects o).indexed.sparse i).isSome = true → False) :
    Shuts o w (JsObject.setLength o len throwable w) fun _ _ => True := by
  unfold JsObject.setLength
  refine Shuts.ite (fun _ => Shuts.fail h _ _) fun _ => ?_
  rw [Vm.object_bind]
  refine Shuts.ite (fun _ => ?_) fun hold => ?_
  · refine Shuts.bind h (shuts_modifyIndexed (guards_modifyIndexed_le h.inv h.lt fun ix =>
      sparseLe_setLength ix len) fun he => ⟨he.of_le (sparseLe_setLength _ len) id he.vector,
        fun i hi => ⟨?_, hi.2⟩⟩) fun _ _ h₁ _ => Shuts.pure h₁ trivial
    exact Nat.lt_of_not_le fun hle => hr i hle hi.1 hi.2
  have hlen : len ≤ (w.objects o).indexed.length := le_of_not_ge hold
  refine Shuts.ite (fun hd => ?_) fun _ => Shuts.ite (fun _ => ?_) fun _ => ?_
  · have hle := (sparseLe_setLength _ len).trans (sparseLe_shrinkDense len (w.objects o).indexed)
    have he := emptied_shrinkDense h.emptied hd len
    exact Shuts.bind h (shuts_modifyIndexed_le h hle hlen
      (he.of_le (sparseLe_setLength _ len) id he.vector)) fun _ _ h₁ _ => Shuts.pure h₁ trivial
  · exact shuts_shrinkFromEnd h _ _ _ hlen le_rfl
  · exact Reads.bind_shuts h (reads_getOwnPropertyNames h.inv h.lt true) fun names w₁ h₁ hr₁ _ =>
      shuts_shrinkByNames h₁ _ _ _ (by rw [hr₁.objects]; exact hlen)

theorem shuts_defineLengthTo (h : Closed w o) (desc : PropertyDescriptor) (d : F64) (throwable : Bool)
    (hr : ¬ Revives w o d) :
    Shuts o w (defineLengthTo o desc d throwable w) fun _ _ => True := by
  have htail : ∀ {w : World} (r : Bool), Closed w o →
      Shuts o w ((if !desc.attrs.undefWritable then
          changeLengthWritable o desc.attrs.writable throwable
        else return r) w) fun _ _ => True := fun r h =>
    Shuts.ite (fun _ => shuts_changeLengthWritable h _ _) fun _ => Shuts.pure h trivial
  unfold defineLengthTo
  refine Shuts.ite (fun _ => Shuts.fail h _ _) fun heq => ?_
  rw [Vm.object_bind]
  refine Shuts.ite (fun _ => htail _ h) fun _ => Shuts.ite
    (fun _ => Shuts.reject h _ _ trivial) fun hwr => ?_
  simp only [Bool.not_eq_true', Bool.not_eq_false] at heq hwr
  exact Shuts.bind h (shuts_setLength h _ _ fun i hle hi hs => hr ⟨hwr, heq, i, hle, hi, hs⟩)
    fun r w₁ h₁ _ => htail r h₁

/-- The value that is assigned to the length is a number that uncovers nothing, or needs a conversion
first. The conversion of a number does not look at the heap. -/
def LengthFits (w : World) (o : ℕ) (val : JsValue) : Prop :=
  ∀ d w₁ w₂, toNumber val w₁ = .ok d w₂ → ¬ Revives w o d

theorem Revives.congr {d : F64} (h : Revives w' o d) (hobj : w'.objects = w.objects) :
    Revives w o d :=
  ⟨hobj ▸ h.writable, h.isLength, hobj ▸ h.uncovers⟩

theorem LengthFits.congr {val : JsValue} (h : LengthFits w o val) (hobj : w'.objects = w.objects) :
    LengthFits w' o val :=
  fun d w₁ w₂ hd hr => h d w₁ w₂ hd (hr.congr hobj)

theorem shuts_defineLengthProperty (h : Closed w o) (desc : PropertyDescriptor) (throwable : Bool)
    (hl : LengthFits w o desc.fst) :
    Shuts o w (defineLengthProperty o desc throwable w) fun _ _ => True := by
  unfold defineLengthProperty
  refine Shuts.ite (fun _ => Shuts.reject h _ _ trivial) fun _ =>
    Shuts.ite (fun _ => Shuts.reject h _ _ trivial) fun _ =>
    Shuts.ite (fun _ => Shuts.reject h _ _ trivial) fun _ => Shuts.ite (fun _ => ?_) fun _ => ?_
  · exact Shuts.ite (fun _ => shuts_changeLengthWritable h _ _) fun _ => Shuts.pure h trivial
  · exact Reads.bind_shuts_run h (reads_toNumber h.inv _) fun d w₁ hd h₁ hr _ =>
      shuts_defineLengthTo h₁ _ _ _ fun hrev => hl d _ _ hd (hrev.congr hr.objects)

/-! ### Defining elements -/

/-- A definition of element `i` by the descriptor writes to the dense vector. -/
structure AddsElement (w : World) (o i : ℕ) : Prop where
  dense : (w.objects o).indexed.dense = true
  lt : i < maxVectorSize
  length : (w.objects o).indexed.length ≤ i → (w.objects o).indexed.writable = true

theorem shuts_defineOwnIndexedSparse (h : Closed w o) (index : ℕ) (desc : PropertyDescriptor)
    (throwable : Bool) :
    Shuts o w (defineOwnIndexedSparse o index desc throwable w) fun _ _ => True := by
  have hget : ∀ (ix : IndexedElements) (i : ℕ), (ix.map.getD ∅).lookup i = ix.sparse i := by
    intro ix i
    unfold IndexedElements.sparse
    cases ix.map with
    | none => exact Finmap.lookup_empty i
    | some m => rfl
  have hle : ∀ ix : IndexedElements,
      IndexedElements.SparseLe { ix with map := some (ix.map.getD ∅) } ix :=
    fun ix i s hs => (hget ix i).symm.trans hs
  unfold defineOwnIndexedSparse
  refine Shuts.bind h (shuts_modifyIndexed_le h (hle _) le_rfl
    (h.emptied.of_le (hle _) id h.emptied.vector)) fun _ w₁ h₁ _ => ?_
  rw [Vm.object_bind, hget]
  cases hx : (w₁.objects o).indexed.sparse index with
  | none =>
    refine Shuts.ite (fun _ => Shuts.reject h₁ _ _ trivial) fun hext => ?_
    rw [h₁.extensible] at hext
    exact absurd rfl hext
  | some entry =>
    have hst : Storable layoutPolicy w₁ o (.sparse index) entry := h₁.inv.storable h₁.lt hx
    refine Reads.bind_shuts h₁
      (reads_isDefinedPropertyAccepted h₁.inv hst.hasCell hst.typed desc throwable) ?_
    rintro ⟨accepted, returned⟩ w₂ h₂ hr₂ -
    refine Shuts.ite (fun _ => ?_) fun _ => Shuts.pure h₂ trivial
    have hx₂ : (w₂.objects o).indexed.sparse index = some entry := by rw [hr₂.objects]; exact hx
    have hst₂ : Storable layoutPolicy w₂ o (.sparse index) entry := h₂.inv.storable h₂.lt hx₂
    have hdesc : ∀ n, Loc.sparse index = .named n → DescOk layoutPolicy entry desc :=
      fun _ hn => nomatch hn
    refine Shuts.bind h₂ ((guards_merge h₂.inv h₂.lt hst₂ hdesc fun _ hn => nomatch hn).shuts_of_inert
      (inert_merge entry desc w₂))
      fun stored w₃ h₃ ⟨hst₃, _, hobj, _, _⟩ => ?_
    refine Shuts.bind h₃ (shuts_modifyIndexed
      (guards_setSparse h₃.inv h₃.lt index hst₃ (!desc.fst.isObject)) fun he => ?_)
      fun _ _ h₄ _ => Shuts.pure h₄ trivial
    have hx₃ : (w₃.objects o).indexed.sparse index = some entry := by rw [hobj]; exact hx₂
    refine ⟨⟨he.vector, fun hd i => ?_⟩, fun i hi => ⟨hi.1, ?_⟩⟩
    · have := he.dense hd index
      rw [hx₃] at this
      cases this
    · by_cases hi' : i = index
      · rw [hi', hx₃]
        rfl
      · have hs := hi.2
        change ((((w₃.objects o).indexed.map.getD ∅).insert index stored).lookup i).isSome = true
          at hs
        rwa [lookup_insert_eq, if_neg hi', hget] at hs

theorem shuts_defineOwnIndexedPropertyInternal (h : Closed w o) (index : ℕ)
    (desc : PropertyDescriptor) (throwable : Bool)
    (ha : desc.attrs.isDefault = true → ¬ AddsElement w o index) :
    Shuts o w (defineOwnIndexedPropertyInternal o index desc throwable w) fun _ _ => True := by
  unfold defineOwnIndexedPropertyInternal
  rw [Vm.object_bind]
  refine Shuts.ite (fun _ => Shuts.reject h _ _ trivial) fun hlen => ?_
  simp only [Bool.and_eq_true, decide_eq_true_eq, Bool.not_eq_true', not_and,
    Bool.not_eq_false] at hlen
  refine Shuts.ite (fun hc => ?_) fun _ => Shuts.ite (fun hc => ?_) fun _ => ?_
  · simp only [Bool.and_eq_true, decide_eq_true_eq] at hc
    exact absurd ⟨hc.1.1, hc.2, hlen⟩ (ha hc.1.2)
  · -- the vector holds nothing to be redefined
    simp only [Bool.and_eq_true, decide_eq_true_eq, Bool.not_eq_true'] at hc
    have hne := hc.2
    rw [h.emptied.getD] at hne
    cases hne
  · refine Shuts.bind (R := fun _ _ => True) h (shuts_onlyIf h (fun _ => ?_) fun _ => trivial)
      fun _ w₁ h₁ _ => shuts_defineOwnIndexedSparse h₁ _ _ _
    exact (shuts_makeSparse h).mono fun _ _ _ => trivial

theorem Closed.overridesIndexed (h : Closed w o) :
    JsObject.overridesIndexed (w.objects o).class_ = false := by
  have hp := h.plain
  cases hc : (w.objects o).class_ with
  | string v => rw [hc] at hp; exact absurd trivial hp
  | _ => rfl

theorem shuts_defineOwnIndexedPropertySlot (h : Closed w o) (index : ℕ) (desc : PropertyDescriptor)
    (slot : Slot) (throwable : Bool)
    (ha : desc.attrs.isDefault = true → ¬ AddsElement w o index) :
    Shuts o w (defineOwnIndexedPropertySlot o index desc slot throwable w) fun _ _ => True := by
  unfold defineOwnIndexedPropertySlot
  rw [Vm.object_bind, h.overridesIndexed]
  exact Shuts.bind h (shuts_defineOwnIndexedPropertyInternal h index desc throwable ha)
    fun _ _ h₁ _ => Shuts.pure h₁ trivial

end Starlight
