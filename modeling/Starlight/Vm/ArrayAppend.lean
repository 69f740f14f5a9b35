import Starlight.Vm.ArrayLike

/-!
# Writing behind the length of an array

An assignment to an index that an array does not reach is written, refused in silence, or, where an element
was left behind when the array was cut, written without raising the length. `entry` is what is stored under
an index whether the length reaches it or not.
-/

namespace Starlight

open JsObject World Exec

namespace IndexedElements

variable {ix ix' ix'' : IndexedElements} {i j : ℕ} {v : JsValue} {b : Bool}

def entry (ix : IndexedElements) (i : ℕ) : Option StoredSlot :=
  if (ix.vector.getD i .empty).isEmpty then ix.sparse i else some ⟨ix.vector.getD i .empty, objectData⟩

theorem Sound.stored_eq_entry (h : ix.Sound) (i : ℕ) :
    ix.stored i = if i < ix.length then ix.entry i else none := by
  unfold entry
  by_cases hvec : ix.dense = true ∧ i < maxVectorSize
  · rw [h.stored_vector hvec.1 hvec.2]
    by_cases he : (ix.vector.getD i .empty).isEmpty = true
    · rw [if_pos he, if_pos he, h.map hvec.1 i hvec.2, ite_self]
    · rw [if_neg he, if_neg he, if_pos (h.vector i fun hc => he (isEmpty_iff.mpr hc)).2]
  · have hd : ix.dense = true → maxVectorSize ≤ i := fun hd => Nat.le_of_not_lt fun hi => hvec ⟨hd, hi⟩
    rw [h.stored_map hd, if_pos (isEmpty_iff.mpr (h.getD_of_map hd))]

theorem Sound.entry_of_le (h : ix.Sound) (hi : ix.length ≤ i) : ix.entry i = ix.sparse i := by
  unfold entry
  rw [if_pos]
  by_contra hne
  have := (h.vector i fun hc => hne (isEmpty_iff.mpr hc)).2
  omega

/-- `v` was written under index `i`, or was the same to `same_value` before; the length is raised to reach
it if `b`. -/
structure Wrote (ix ix' : IndexedElements) (i : ℕ) (v : JsValue) (b : Bool) : Prop where
  length : ix'.length = if b then max ix.length (i + 1) else ix.length
  writable : ix'.writable = ix.writable
  dense : ix'.dense = ix.dense
  other : ∀ j, j ≠ i → ix'.entry j = ix.entry j
  self : ∃ u, ix'.entry i = some ⟨u, objectData⟩ ∧ v.sameValue u = true

theorem wrote_storeDense (ix : IndexedElements) (i : ℕ) (hv : v ≠ .empty) (nonGc : Bool) :
    Wrote ix (ix.storeDense i v nonGc) i v true where
  length := rfl
  writable := rfl
  dense := rfl
  other j hj := by
    unfold entry
    rw [getD_storeDense, if_neg hj]
    rfl
  self := by
    refine ⟨v, ?_, v.sameValue_self⟩
    unfold entry
    rw [getD_storeDense, if_pos rfl, if_neg fun hc => hv (isEmpty_iff.mp hc)]

theorem wrote_storeSparse (hi : ix.vector.getD i .empty = .empty) (v : JsValue) (nonGc : Bool)
    (hlen : ix'.length = if b then max ix.length (i + 1) else ix.length)
    (hmap : ix'.sparse = ix.sparse) (hrest : ix'.vector = ix.vector ∧ ix'.writable = ix.writable ∧
      ix'.dense = ix.dense) : Wrote ix (ix'.storeSparse i ⟨v, objectData⟩ nonGc) i v b where
  length := hlen
  writable := hrest.2.1
  dense := hrest.2.2
  other j hj := by
    have hvec : (ix'.storeSparse i ⟨v, objectData⟩ nonGc).vector = ix.vector := hrest.1
    unfold entry
    rw [hvec, sparse_storeSparse, if_neg hj, hmap]
  self := by
    have hvec : (ix'.storeSparse i ⟨v, objectData⟩ nonGc).vector = ix.vector := hrest.1
    refine ⟨v, ?_, v.sameValue_self⟩
    unfold entry
    rw [hvec, if_pos (isEmpty_iff.mpr hi), sparse_storeSparse, if_pos rfl]

end IndexedElements

open IndexedElements

variable {w : World} {o i j : ℕ} {ix : IndexedElements} {v : JsValue} {s : StoredSlot}

/-- Array `o` answers for its elements, and its structure is that of indexed objects. -/
structure OwnArray (w : World) (o : ℕ) : Prop where
  own : OwnElements w o
  class_eq : (w.objects o).class_ = .array
  indexed : (w.shapes.structures (w.objects o).structure_).transitions.indexed = true

def TakesElements (w : World) (o : ℕ) : Prop :=
  (w.objects o).extensible = true ∧ (w.objects o).indexed.writable = true

/-- An assignment to index `j` behind the length raises the length: it writes to the vector at once, or it
may define an element where none was left. -/
def Raises (w : World) (o j : ℕ) : Prop :=
  canPutDense o j w = .ok true w ∨ (TakesElements w o ∧ (w.objects o).indexed.entry j = none)

/-- It writes the value: an element that was left may be configurable. -/
def Writes (w : World) (o j : ℕ) : Prop :=
  canPutDense o j w = .ok true w ∨ (TakesElements w o ∧
    ∀ s, (w.objects o).indexed.entry j = some s → s.attributes.configurable = true)

theorem Raises.writes (h : Raises w o j) : Writes w o j := by
  refine h.imp_right fun ha => ⟨ha.1, fun s hs => ?_⟩
  rw [ha.2] at hs
  cases hs

/-! ### Elements that were left -/

theorem isDefinedPropertyAccepted_createDesc (s : StoredSlot) (v : JsValue) (w : World) :
    s.isDefinedPropertyAccepted (createDesc v) false w =
      if s.attributes.configurable = true then
        .ok (!(decide (s.attributes = objectData) && v.sameValue s.value), true) w
      else .ok (false, false) w := by
  obtain ⟨value, wr, en, co, da, ac⟩ := s
  have hmerge : StoredSlot.mergeWithNoEffect ⟨value, wr, en, co, da, ac⟩ (createDesc v) w =
      .ok (decide ((⟨wr, en, co, da, ac⟩ : AttrSafe) = objectData) && v.sameValue value) w := by
    cases wr <;> cases en <;> cases co <;> cases da <;> cases ac <;> rfl
  unfold StoredSlot.isDefinedPropertyAccepted
  have habs : (createDesc v).attrs.isAbsent = false := rfl
  simp only [habs, Bool.false_eq_true, if_false]
  rw [Exec.bind_of_ok hmerge]
  cases v.sameValue value <;> cases wr <;> cases en <;> cases co <;> cases da <;> cases ac <;> rfl

theorem merge_createDesc (s : StoredSlot) (v : JsValue) (w : World) :
    s.merge (createDesc v) w = .ok ⟨v, objectData⟩ w := rfl

theorem defineOwnIndexedSparse_left (hs : (w.objects o).indexed.sparse i = some s) (v : JsValue) :
    (s.attributes.configurable = true → ∃ nonGc, defineOwnIndexedSparse o i (createDesc v) false w =
      .ok true (w.withElements o (if s.attributes = objectData ∧ v.sameValue s.value = true
        then (w.objects o).indexed else (w.objects o).indexed.storeSparse i ⟨v, objectData⟩ nonGc))) ∧
    (s.attributes.configurable = false →
      defineOwnIndexedSparse o i (createDesc v) false w = .ok false w) := by
  obtain ⟨m, hm, hlook⟩ := Option.bind_eq_some_iff.mp hs
  have hsame : modifyIndexed o (fun ix => { ix with map := some (ix.map.getD ∅) }) w = .ok () w := by
    have heq : { (w.objects o).indexed with map := some ((w.objects o).indexed.map.getD ∅) } =
        (w.objects o).indexed := by
      rw [hm, Option.getD_some, ← hm]
    rw [modifyIndexed_apply, heq, withElements_self]
  have haccept := isDefinedPropertyAccepted_createDesc s v w
  unfold defineOwnIndexedSparse
  rw [bind_of_ok hsame, Vm.object_bind]
  dsimp only
  rw [hm, Option.getD_some, hlook]
  dsimp only
  refine ⟨fun hc => ?_, fun hc => ?_⟩
  · rw [if_pos hc] at haccept
    rw [bind_of_ok haccept]
    by_cases heq : s.attributes = objectData ∧ v.sameValue s.value = true
    · refine ⟨true, ?_⟩
      rw [if_pos heq, heq.2, decide_eq_true heq.1, withElements_self]
      rfl
    · refine ⟨(w.objects o).indexed.nonGc && !v.isObject, ?_⟩
      have hne : (decide (s.attributes = objectData) && v.sameValue s.value) = false := by
        simpa using fun h => Bool.eq_false_iff.mpr fun hv => heq ⟨h, hv⟩
      rw [if_neg heq, hne]
      dsimp only
      rw [Bool.not_false, if_pos rfl, bind_of_ok (merge_createDesc s v w)]
      rfl
  · rw [if_neg (by rw [hc]; exact Bool.false_ne_true)] at haccept
    rw [bind_of_ok haccept]
    rfl

/-! ### The step -/

namespace OwnArray

theorem withElements (h : OwnArray w o) (hr : Rewrites w (w.withElements o ix) o ix) :
    OwnArray (w.withElements o ix) o where
  own := hr.ownElements h.own
  class_eq := hr.class_eq.trans h.class_eq
  indexed := by
    simp only [World.withElements, Function.update_self]
    exact h.indexed

theorem moved_eq (h : OwnArray w o) {σ : Shapes} {r : ℕ}
    (hmake : makeIndexed o w = .ok () (w.moved o σ r) ∨ w.moved o σ r = w) : w.moved o σ r = w := by
  rcases hmake with hmake | hmake
  · have hstay : makeIndexed o w = .ok () w := by
      unfold makeIndexed
      rw [Vm.object_bind, gets_bind, if_pos h.indexed]
      rfl
    exact (Result.ok.inj (hmake.symm.trans hstay)).2
  · exact hmake

theorem stored_of_le (h : OwnArray w o) (hj : (w.objects o).indexed.length ≤ j) :
    (w.objects o).indexed.stored j = none := (h.own.sound o).stored_eq_none hj

theorem put_refused (h : OwnArray w o) (hj : (w.objects o).indexed.length ≤ j)
    (hcan : canPutDense o j w = .ok false w) (happ : ¬ TakesElements w o) (v : JsValue) :
    JsObject.put o (.index j) v false w = .ok () w := by
  rw [put_of_not_canPutDense hcan]
  cases hext : (w.objects o).extensible with
  | false =>
    have hlook := h.own.lookup_absent (h.stored_of_le hj)
    have hput : canPut o false Slot.new w = .ok false w := by
      unfold canPut
      rw [if_neg Bool.false_ne_true, Vm.object_bind, hext]
      rfl
    unfold putIndexedGeneral
    rw [bind_of_ok hlook]
    dsimp only
    unfold putFrom
    rw [bind_apply, bind_of_ok hput]
    rfl
  | true =>
    have hlocked : (w.objects o).indexed.writable = false := by
      cases hw : (w.objects o).indexed.writable with
      | false => rfl
      | true => exact absurd ⟨hext, hw⟩ happ
    have hdef : defineOwnIndexedPropertyInternal o j (createDesc v) false w = .ok false w := by
      unfold defineOwnIndexedPropertyInternal
      rw [Vm.object_bind, if_pos (by simp [hj, hlocked])]
      rfl
    exact putIndexedGeneral_of_create h.own.not_inText (h.stored_of_le hj)
      (h.own.mayCreate hext (h.stored_of_le hj)) hdef

structure PutBehind (w : World) (o j : ℕ) (v : JsValue) (ix' : IndexedElements) : Prop where
  raised : Raises w o j → (w.objects o).indexed.Wrote ix' j v true
  kept : Writes w o j → ¬ Raises w o j → (w.objects o).indexed.Wrote ix' j v false
  refused : ¬ Writes w o j → ix' = (w.objects o).indexed

/-- **The step lemma.** -/
theorem put_behind (h : OwnArray w o) (hj : (w.objects o).indexed.length ≤ j) (hv : v ≠ .empty) :
    ∃ ix', JsObject.put o (.index j) v false w = .ok () (w.withElements o ix') ∧
      OwnArray (w.withElements o ix') o ∧ PutBehind w o j v ix' := by
  have hsound := h.own.sound o
  have hentry := hsound.entry_of_le hj
  -- a run that ends in other elements of the array
  have hend : ∀ {ix'}, JsObject.put o (.index j) v false w = .ok () (w.withElements o ix') →
      PutBehind w o j v ix' → ∃ ix', JsObject.put o (.index j) v false w = .ok () (w.withElements o ix') ∧
        OwnArray (w.withElements o ix') o ∧ PutBehind w o j v ix' := fun {ix'} hrun hput =>
    ⟨ix', hrun, h.withElements (h.own.rewrites_self hrun), hput⟩
  have hraise : ∀ {ix'}, Raises w o j → (w.objects o).indexed.Wrote ix' j v true →
      PutBehind w o j v ix' := fun hr hw =>
    ⟨fun _ => hw, fun _ hn => absurd hr hn, fun hn => absurd hr.writes hn⟩
  have hstay : JsObject.put o (.index j) v false w = .ok () w → ¬ Writes w o j →
      ∃ ix', JsObject.put o (.index j) v false w = .ok () (w.withElements o ix') ∧
        OwnArray (w.withElements o ix') o ∧ PutBehind w o j v ix' := fun hrun hn =>
    ⟨(w.objects o).indexed, by rw [withElements_self]; exact hrun, by rw [withElements_self]; exact h,
      fun hr => absurd hr.writes hn, fun hw => absurd hw hn, fun _ => rfl⟩
  obtain ⟨b, hcan⟩ := h.own.canPutDense j
  cases b with
  | true =>
    obtain ⟨σ, r, nonGc, hmake, hrun⟩ := defineOwnIndexeValueDenseInternal_eq o j v false w
    rw [h.moved_eq hmake] at hrun
    exact hend ((put_of_canPutDense hcan v false).trans hrun)
      (hraise (.inl hcan) (wrote_storeDense _ j hv nonGc))
  | false =>
    have hdense : ¬ canPutDense o j w = .ok true w := by
      rw [hcan]
      exact nofun
    by_cases happ : TakesElements w o
    · have hcreate : ∀ {b : Bool} {w'},
          defineOwnIndexedPropertyInternal o j (createDesc v) false w = .ok b w' →
          JsObject.put o (.index j) v false w = .ok () w' := fun hdef =>
        (put_of_not_canPutDense hcan v false).trans (putIndexedGeneral_of_create h.own.not_inText
          (h.stored_of_le hj) (h.own.mayCreate happ.1 (h.stored_of_le hj)) hdef)
      by_cases hvec : (w.objects o).indexed.dense = true ∧ j < maxVectorSize
      · obtain ⟨hd, hmax⟩ := hvec
        obtain ⟨σ, r, nonGc, hmake, hrun⟩ := defineOwnIndexeValueDenseInternal_eq o j v false w
        rw [h.moved_eq hmake] at hrun
        have hnone : (w.objects o).indexed.entry j = none := by rw [hentry, hsound.map hd j hmax]
        exact hend (hcreate (defineOwnIndexedPropertyInternal_vector ⟨hsound, hd, hmax⟩ (.inr happ.2) v
          false hrun)) (hraise (.inr ⟨happ, hnone⟩) (wrote_storeDense _ j hv nonGc))
      · have hd : (w.objects o).indexed.dense = true → maxVectorSize ≤ j := fun hd =>
          Nat.le_of_not_lt fun hi => hvec ⟨hd, hi⟩
        have hempty := hsound.getD_of_map hd
        cases hs : (w.objects o).indexed.sparse j with
        | none =>
          obtain ⟨σ, r, nonGc, hmake, hdef⟩ :=
            defineOwnIndexedPropertyInternal_create hs hd happ.1 (.inr happ.2) v false
          rw [h.moved_eq (.inl hmake)] at hdef
          exact hend (hcreate hdef) (hraise (.inr ⟨happ, hentry.trans hs⟩)
            (wrote_storeSparse hempty v nonGc rfl (sparse_getD_map _) ⟨rfl, rfl, rfl⟩))
        | some s =>
          have hmap := defineOwnIndexedPropertyInternal_sparse hd (.inr happ.2) v false
          have hnot : ¬ Raises w o j := by
            rintro (hc | hc)
            · exact hdense hc
            · rw [hentry, hs] at hc
              cases hc.2
          obtain ⟨hacc, hrej⟩ := defineOwnIndexedSparse_left hs v
          cases hconf : s.attributes.configurable with
          | true =>
            obtain ⟨nonGc, hrun⟩ := hacc hconf
            refine hend (hcreate (hmap.trans hrun)) ⟨fun hr => absurd hr hnot, fun _ _ => ?_, fun hn => ?_⟩
            · split
              · next heq =>
                refine ⟨rfl, rfl, rfl, fun _ _ => rfl, s.value, ?_, heq.2⟩
                rw [hentry, hs, ← heq.1]
              · exact wrote_storeSparse hempty v nonGc rfl rfl ⟨rfl, rfl, rfl⟩
            · refine absurd (.inr ⟨happ, fun s' hs' => ?_⟩) hn
              rw [hentry, hs] at hs'
              cases hs'
              exact hconf
          | false =>
            refine hstay (hcreate (hmap.trans (hrej hconf))) fun hw => ?_
            have hw := (hw.resolve_left hdense).2 s (hentry.trans hs)
            rw [hconf] at hw
            cases hw
    · exact hstay (h.put_refused hj hcan happ v) fun hw => happ (hw.resolve_left hdense).1

end OwnArray

namespace OwnArray.PutBehind

variable {ix' : IndexedElements} (h : PutBehind w o j v ix')

include h

theorem cases : (Raises w o j ∧ (w.objects o).indexed.Wrote ix' j v true) ∨
    (¬ Raises w o j ∧ Writes w o j ∧ (w.objects o).indexed.Wrote ix' j v false) ∨
      (¬ Writes w o j ∧ ix' = (w.objects o).indexed) := by
  by_cases hr : Raises w o j
  · exact .inl ⟨hr, h.raised hr⟩
  · by_cases hw : Writes w o j
    · exact .inr (.inl ⟨hr, hw, h.kept hw hr⟩)
    · exact .inr (.inr ⟨hw, h.refused hw⟩)

theorem writable : ix'.writable = (w.objects o).indexed.writable := by
  rcases h.cases with ⟨-, hw⟩ | ⟨-, -, hw⟩ | ⟨-, rfl⟩
  exacts [hw.writable, hw.writable, rfl]

theorem dense : ix'.dense = (w.objects o).indexed.dense := by
  rcases h.cases with ⟨-, hw⟩ | ⟨-, -, hw⟩ | ⟨-, rfl⟩
  exacts [hw.dense, hw.dense, rfl]

theorem other (hij : i ≠ j) : ix'.entry i = (w.objects o).indexed.entry i := by
  rcases h.cases with ⟨-, hw⟩ | ⟨-, -, hw⟩ | ⟨-, rfl⟩
  exacts [hw.other i hij, hw.other i hij, rfl]

theorem written (hw : Writes w o j) : ∃ u, ix'.entry j = some ⟨u, objectData⟩ ∧ v.sameValue u = true := by
  rcases h.cases with ⟨-, hs⟩ | ⟨-, -, hs⟩ | ⟨hn, -⟩
  exacts [hs.self, hs.self, absurd hw hn]

theorem length (hj : (w.objects o).indexed.length ≤ j) : (Raises w o j → ix'.length = j + 1) ∧
    (¬ Raises w o j → ix'.length = (w.objects o).indexed.length) := by
  rcases h.cases with ⟨hr, hs⟩ | ⟨hr, -, hs⟩ | ⟨hn, rfl⟩
  · refine ⟨fun _ => ?_, fun hc => absurd hr hc⟩
    rw [hs.length, if_pos rfl, max_eq_right (by omega)]
  · refine ⟨fun hc => absurd hc hr, fun _ => ?_⟩
    rw [hs.length, if_neg Bool.false_ne_true]
  · exact ⟨fun hc => absurd hc.writes hn, fun _ => rfl⟩

end OwnArray.PutBehind

/-! ### The loop -/

theorem structure_withElements (w : World) (o p : ℕ) (ix : IndexedElements) :
    ((w.withElements o ix).objects p).structure_ = (w.objects p).structure_ := by
  by_cases hp : p = o
  · subst hp
    simp [World.withElements]
  · simp [World.withElements, hp]

theorem hasIndexedPropertyFrom_withElements {fuel p : ℕ} {b : Bool} (ix : IndexedElements)
    (h : hasIndexedPropertyFrom fuel p w = .ok b w) :
    hasIndexedPropertyFrom fuel p (w.withElements o ix) = .ok b (w.withElements o ix) := by
  induction fuel generalizing p with
  | zero => cases h
  | succ fuel ih =>
    rw [hasIndexedPropertyFrom, Vm.object_bind, gets_bind] at h ⊢
    have hshapes : (w.withElements o ix).shapes = w.shapes := rfl
    rw [structure_withElements, hshapes]
    split at h
    · next hi =>
      rw [if_pos hi]
      cases h
      rfl
    · next hi =>
      rw [if_neg hi]
      cases hp : (w.shapes.structures (w.objects p).structure_).prototype with
      | some q =>
        rw [hp] at h
        exact ih h
      | none =>
        rw [hp] at h
        cases h
        rfl

theorem canPutDense_withElements {b : Bool} (hd : ix.dense = (w.objects o).indexed.dense)
    (h : canPutDense o j w = .ok b w) :
    canPutDense o j (w.withElements o ix) = .ok b (w.withElements o ix) := by
  unfold canPutDense at h ⊢
  rw [Vm.object_bind, gets_bind] at h ⊢
  have hclass : ((w.withElements o ix).objects o).class_ = (w.objects o).class_ := by
    simp [World.withElements]
  have hshapes : (w.withElements o ix).shapes = w.shapes := rfl
  rw [indexed_withElements_self, hd, hclass, structure_withElements, hshapes]
  split at h
  · next hc =>
    rw [if_pos hc]
    cases hp : (w.shapes.structures (w.objects o).structure_).prototype with
    | some q =>
      rw [hp] at h
      exact hasIndexedPropertyFrom_withElements ix h
    | none =>
      rw [hp] at h
      cases h
      rfl
  · next hc =>
    rw [if_neg hc]
    cases h
    rfl

theorem OwnArray.canPutDense_iff (h : OwnArray w o) (hd : ix.dense = (w.objects o).indexed.dense) (i : ℕ) :
    canPutDense o i (w.withElements o ix) = .ok true (w.withElements o ix) ↔
      canPutDense o i w = .ok true w := by
  obtain ⟨b, hcan⟩ := h.own.canPutDense i
  rw [canPutDense_withElements hd hcan, hcan]
  cases b
  · exact ⟨nofun, nofun⟩
  · exact ⟨fun _ => rfl, fun _ => rfl⟩

theorem OwnArray.PutBehind.later (h : OwnArray w o) (hp : PutBehind w o j v ix) (hij : i ≠ j) :
    (Raises (w.withElements o ix) o i ↔ Raises w o i) ∧
      (Writes (w.withElements o ix) o i ↔ Writes w o i) := by
  have happ : TakesElements (w.withElements o ix) o ↔ TakesElements w o := by
    unfold TakesElements
    rw [indexed_withElements_self, hp.writable]
    simp [World.withElements]
  unfold Raises Writes
  rw [h.canPutDense_iff hp.dense, happ, indexed_withElements_self, hp.other hij]
  exact ⟨Iff.rfl, Iff.rfl⟩

structure Pushed (w : World) (o k : ℕ) (args : List JsValue) (ix' : IndexedElements) : Prop where
  writable : ix'.writable = (w.objects o).indexed.writable
  written : ∀ i v, args[i]? = some v → Writes w o (k + i) →
    ∃ u, ix'.entry (k + i) = some ⟨u, objectData⟩ ∧ v.sameValue u = true
  kept : ∀ j, (∀ i, i < args.length → Writes w o (k + i) → j ≠ k + i) →
    ix'.entry j = (w.objects o).indexed.entry j
  le : (w.objects o).indexed.length ≤ ix'.length
  length_le : ix'.length ≤ k + args.length
  reaches : ∀ i, i < args.length → Raises w o (k + i) → k + i < ix'.length
  reached : (w.objects o).indexed.length < ix'.length →
    ∃ i, i < args.length ∧ ix'.length = k + i + 1 ∧ Raises w o (k + i)

theorem Pushed.length_eq {ix' : IndexedElements} {k : ℕ} {args : List JsValue} (h : Pushed w o k args ix')
    (hn : ∀ i, i < args.length → ¬ Raises w o (k + i)) : ix'.length = (w.objects o).indexed.length := by
  refine le_antisymm (Nat.le_of_not_lt fun hlt => ?_) h.le
  obtain ⟨i, hi, -, hr⟩ := h.reached hlt
  exact hn i hi hr

theorem pushed_nil (hk : (w.objects o).indexed.length ≤ j) :
    Pushed w o j [] (w.objects o).indexed where
  writable := rfl
  written _ _ hi := nomatch hi
  kept _ _ := rfl
  le := le_rfl
  length_le := hk
  reaches _ hi := nomatch hi
  reached hlt := absurd hlt (lt_irrefl _)

theorem Pushed.cons {ix' : IndexedElements} {k : ℕ} {args : List JsValue} (h : OwnArray w o)
    (hk : (w.objects o).indexed.length ≤ k) (hp : OwnArray.PutBehind w o k v ix)
    (hrest : Pushed (w.withElements o ix) o (k + 1) args ix') : Pushed w o k (v :: args) ix' := by
  have hlater : ∀ i, (Raises (w.withElements o ix) o (k + 1 + i) ↔ Raises w o (k + (i + 1))) ∧
      (Writes (w.withElements o ix) o (k + 1 + i) ↔ Writes w o (k + (i + 1))) := fun i => by
    rw [show k + (i + 1) = k + 1 + i by omega]
    exact OwnArray.PutBehind.later h hp (by omega)
  have hix := indexed_withElements_self w o ix
  obtain ⟨hraised, hstay⟩ := hp.length hk
  -- nothing that comes later is written under index `k`
  have hself : ix'.entry k = ix.entry k := by
    rw [hrest.kept k fun i _ _ => by omega, hix]
  have hlen : (w.objects o).indexed.length ≤ ix.length := by
    by_cases hr : Raises w o k
    · rw [hraised hr]
      omega
    · rw [hstay hr]
  have hle := hrest.le
  rw [hix] at hle
  refine ⟨?_, fun i u hi hw => ?_, fun j hj => ?_, hlen.trans hle, ?_, fun i hi hr => ?_, fun hlt => ?_⟩
  · rw [hrest.writable, hix, hp.writable]
  · cases i with
    | zero =>
      cases hi
      rw [Nat.add_zero] at hw ⊢
      rw [hself]
      exact hp.written hw
    | succ i =>
      rw [← (hlater i).2] at hw
      rw [show k + (i + 1) = k + 1 + i by omega]
      exact hrest.written i u hi hw
  · rw [hrest.kept j fun i hi hw => ?_, hix]
    · by_cases hjk : j = k
      · subst hjk
        by_cases hw : Writes w o j
        · exact absurd rfl (hj 0 (Nat.succ_pos _) (by rwa [Nat.add_zero]))
        · rw [hp.refused hw]
      · exact hp.other hjk
    · have := hj (i + 1) (Nat.succ_lt_succ hi) ((hlater i).2.mp hw)
      omega
  · have := hrest.length_le
    rw [List.length_cons]
    omega
  · cases i with
    | zero =>
      rw [Nat.add_zero] at hr ⊢
      have := hraised hr
      omega
    | succ i =>
      have := hrest.reaches i (Nat.lt_of_succ_lt_succ hi) ((hlater i).1.mpr hr)
      omega
  · by_cases hlast : ix.length < ix'.length
    · obtain ⟨i, hi, hlen', hr⟩ := hrest.reached (by rwa [hix])
      exact ⟨i + 1, Nat.succ_lt_succ hi, by omega, (hlater i).1.mp hr⟩
    · have hr : Raises w o k := by
        by_contra hr
        have := hstay hr
        omega
      have := hraised hr
      exact ⟨0, Nat.succ_pos _, by omega, hr⟩

end Starlight
