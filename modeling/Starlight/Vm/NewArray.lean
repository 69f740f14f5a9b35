import Starlight.Vm.Arguments

/-!
# Arrays of operands

`OP_NEWARRAY` makes an array of operands from the stack, some of which `OP_SPREAD` has expanded: the one on
top comes first. The array starts out with the number of operands as its length, and is longer if they
expand to more values.

The elements are assigned, not defined, so that they are as expected only as long as nothing on the
prototype chain of arrays answers for an index.
-/

namespace Starlight

open JsObject World

/-- An operand of `OP_NEWARRAY`: a value, or the internal cell that `OP_SPREAD` makes of one. -/
inductive Operand where
  | value (v : JsValue)
  | spread (array : List JsValue)

def Operand.values : Operand → List JsValue
  | value v => [v]
  | spread array => array

namespace JsArray

def new (arrayStructure n : ℕ) : Vm ℕ := do
  let arr ← JsObject.new arrayStructure .array
  modifyIndexed arr fun ix => ix.setLength n
  return arr

/-- The assignments for a spread operand, from `index` on; the index after them. -/
def putAll (arr : ℕ) : ℕ → List JsValue → Vm ℕ
  | index, [] => return index
  | index, v :: vs => do
    put arr (.index index) v false
    putAll arr (index + 1) vs

/-- The loop of `OP_NEWARRAY` over `count` operands; the stack after it. -/
def fill (arr : ℕ) : ℕ → ℕ → List Operand → Vm (List Operand)
  | _, 0, stack => return stack
  | _, _ + 1, [] => Exec.stuck
  | index, count + 1, .value v :: stack => do
    put arr (.index index) v false
    fill arr (index + 1) count stack
  | index, count + 1, .spread array :: stack => do
    let index ← putAll arr index array
    fill arr index count stack

def ofOperands (arrayStructure count : ℕ) (stack : List Operand) : Vm (ℕ × List Operand) := do
  let arr ← new arrayStructure count
  let stack ← fill arr 0 count stack
  return (arr, stack)

def elementsFrom (arr : ℕ) : ℕ → ℕ → Vm (List JsValue)
  | _, 0 => return []
  | i, n + 1 => do
    let v ← getSlot arr (.index i) (fun _ => false) Slot.new
    let vs ← elementsFrom arr (i + 1) n
    return v :: vs

/-- All elements of an array, up to `get_length`. -/
def elements (arr : ℕ) : Vm (List JsValue) := do
  let obj ← Vm.object arr
  elementsFrom arr 0 obj.indexed.length

end JsArray

/-! ### Where arrays inherit no elements -/

def World.Bare (w : World) : ℕ → ℕ → Prop
  | 0, _ => False
  | fuel + 1, p => p < w.nextObject ∧
    (∀ i, ¬ (w.objects p).InText i ∧ (w.objects p).indexed.stored i = none) ∧
    ∀ q, (w.shapes.structures (w.objects p).structure_).prototype = some q → w.Bare fuel q

/-- The structure of arrays is that of indexed objects, and no prototype of arrays has elements. -/
structure World.PlainArrays (w : World) (arrayStructure : ℕ) : Prop where
  indexed : (w.shapes.structures arrayStructure).transitions.indexed = true
  bare : ∀ p, (w.shapes.structures arrayStructure).prototype = some p → w.Bare w.nextObject p

/-- The heap with a new array. -/
def World.withArray (w : World) (arrayStructure : ℕ) (ix : IndexedElements) : World :=
  { w with
    objects := Function.update w.objects w.nextObject
      { class_ := .array, structure_ := arrayStructure, indexed := ix
        slots := List.replicate (w.shapes.storageCapacity arrayStructure) .empty
        extensible := true, callable := false, constructStruct := none }
    nextObject := w.nextObject + 1 }

namespace JsArray

open Exec IndexedElements

variable {w : World} {arrayStructure fuel p count i : ℕ} {ix : IndexedElements} {v : JsValue}
  {vs : List JsValue}

theorem objects_withArray_self : (w.withArray arrayStructure ix).objects w.nextObject =
    { class_ := .array, structure_ := arrayStructure, indexed := ix
      slots := List.replicate (w.shapes.storageCapacity arrayStructure) .empty
      extensible := true, callable := false, constructStruct := none } :=
  Function.update_self ..

theorem shapes_withArray : (w.withArray arrayStructure ix).shapes = w.shapes := rfl

theorem indexed_withArray_self : ((w.withArray arrayStructure ix).objects w.nextObject).indexed = ix := by
  rw [objects_withArray_self]

theorem objects_withArray_of_lt (h : p < w.nextObject) :
    (w.withArray arrayStructure ix).objects p = w.objects p :=
  Function.update_of_ne (Nat.ne_of_lt h) ..

theorem withElements_withArray (ix' : IndexedElements) :
    (w.withArray arrayStructure ix).withElements w.nextObject ix' = w.withArray arrayStructure ix' := by
  rw [World.withElements, objects_withArray_self]
  simp only [World.withArray, Function.update_idem]

theorem new_eq : new arrayStructure count w =
    .ok w.nextObject (w.withArray arrayStructure (IndexedElements.new.setLength count)) := by
  have hobj : JsObject.new arrayStructure .array w =
      .ok w.nextObject (w.withArray arrayStructure .new) := rfl
  unfold new
  rw [bind_of_ok hobj, bind_of_ok (modifyIndexed_apply _ _ _), indexed_withArray_self,
    withElements_withArray]
  rfl

/-! ### Lookups of elements that are not there -/

theorem lookup_of_bare (h : w.Bare fuel p) (n : ℕ) :
    getIndexedPropertySlotFrom (fuel + n) p i Slot.new (w.withArray arrayStructure ix) =
      .ok (false, Slot.new) (w.withArray arrayStructure ix) := by
  induction fuel generalizing p with
  | zero => exact h.elim
  | succ fuel ih =>
    obtain ⟨hlt, hnone, hproto⟩ := h
    have hobj : (w.withArray arrayStructure ix).objects p = w.objects p := objects_withArray_of_lt hlt
    have hown := getOwnIndexedPropertySlot_of_not_inText (w := w.withArray arrayStructure ix)
      (by rw [hobj]; exact (hnone i).1) Slot.new
    rw [getOwnIndexedPropertySlotMethod_eq, hobj, (hnone i).2] at hown
    rw [Nat.add_right_comm, getIndexedPropertySlotFrom, bind_of_ok hown]
    dsimp only
    rw [if_neg Bool.false_ne_true, Vm.object_bind, gets_bind, hobj, shapes_withArray]
    cases hp : (w.shapes.structures (w.objects p).structure_).prototype with
    | some q => exact ih (hproto q hp)
    | none => rfl

theorem hasIndexedProperty_of_bare (h : w.Bare fuel p) (n : ℕ) :
    ∃ b, hasIndexedPropertyFrom (fuel + n) p (w.withArray arrayStructure ix) =
      .ok b (w.withArray arrayStructure ix) := by
  induction fuel generalizing p with
  | zero => exact h.elim
  | succ fuel ih =>
    obtain ⟨hlt, -, hproto⟩ := h
    rw [Nat.add_right_comm, hasIndexedPropertyFrom, Vm.object_bind, gets_bind, objects_withArray_of_lt hlt,
      shapes_withArray]
    split
    · exact ⟨true, rfl⟩
    · cases hp : (w.shapes.structures (w.objects p).structure_).prototype with
      | some q => exact ih (hproto q hp)
      | none => exact ⟨false, rfl⟩

theorem not_inText_withArray :
    ¬ ((w.withArray arrayStructure ix).objects w.nextObject).InText i := by
  rw [objects_withArray_self]
  rintro ⟨text, hc, -⟩
  cases hc

theorem lookup_absent (h : w.PlainArrays arrayStructure) (hs : ix.stored i = none) :
    getIndexedPropertySlot w.nextObject i Slot.new (w.withArray arrayStructure ix) =
      .ok (false, Slot.new) (w.withArray arrayStructure ix) := by
  have hown : getOwnIndexedPropertySlot w.nextObject i Slot.new (w.withArray arrayStructure ix) = _ :=
    getOwnIndexedPropertySlot_of_not_inText not_inText_withArray Slot.new
  rw [getOwnIndexedPropertySlotMethod_eq, indexed_withArray_self, hs] at hown
  unfold getIndexedPropertySlot
  rw [gets_bind, getIndexedPropertySlotFrom, bind_of_ok hown]
  dsimp only
  rw [if_neg Bool.false_ne_true, Vm.object_bind, gets_bind, objects_withArray_self, shapes_withArray]
  dsimp only
  cases hp : (w.shapes.structures arrayStructure).prototype with
  | some p => exact lookup_of_bare (h.bare p hp) 1
  | none => rfl

theorem canPutDense_array (h : w.PlainArrays arrayStructure) :
    ∃ b, canPutDense w.nextObject i (w.withArray arrayStructure ix) =
      .ok b (w.withArray arrayStructure ix) := by
  unfold canPutDense
  rw [Vm.object_bind, gets_bind, objects_withArray_self, shapes_withArray]
  split
  · dsimp only
    cases hp : (w.shapes.structures arrayStructure).prototype with
    | some p => exact hasIndexedProperty_of_bare (h.bare p hp) 2
    | none => exact ⟨true, rfl⟩
  · exact ⟨false, rfl⟩

/-! ### The elements so far -/

/-- The elements are the given values, and further ones may be added behind them. -/
structure Holds (count : ℕ) (vs : List JsValue) (ix : IndexedElements) : Prop where
  sound : ix.Sound
  dense : ix.dense = true
  writable : ix.writable = true
  length : ix.length = max count vs.length
  stored : ∀ i, ix.stored i = (vs[i]?).map fun v => ⟨v, objectData⟩
  rest : ∀ i, vs.length ≤ i → ix.sparse i = none

theorem Holds.attributes (h : Holds count vs ix) {s : StoredSlot} (hs : ix.sparse i = some s) :
    s.attributes = objectData := by
  have hmax : maxVectorSize ≤ i := by
    by_contra hlt
    rw [h.sound.map h.dense i (by omega)] at hs
    cases hs
  have hstored := h.stored i
  rw [h.sound.stored_map fun _ => hmax, hs] at hstored
  cases hv : vs[i]? with
  | none =>
    rw [h.rest i (List.getElem?_eq_none_iff.mp hv)] at hs
    cases hs
  | some v =>
    have hlt : i < ix.length := by
      have := (List.getElem?_eq_some_iff.mp hv).1
      have := h.length
      omega
    rw [hv, if_pos hlt] at hstored
    cases hstored
    rfl

theorem holds_new (count : ℕ) : Holds count [] (IndexedElements.new.setLength count) where
  sound := sound_new.setLength fun i h => absurd List.getD_nil h
  dense := rfl
  writable := rfl
  length := (Nat.max_zero count).symm
  stored i := by
    unfold IndexedElements.stored
    rw [if_neg (by simp [IndexedElements.new, IndexedElements.setLength])]
    split <;> rfl
  rest _ _ := rfl

theorem Holds.update {ix' : IndexedElements} (h : Holds count vs ix) (hsound : ix'.Sound)
    (hdense : ix'.dense = true) (hwritable : ix'.writable = true)
    (hlength : ix'.length = max ix.length (vs.length + 1))
    (hstored : ix'.stored = Function.update ix.stored vs.length (some ⟨v, objectData⟩))
    (hrest : ∀ i, vs.length < i → ix'.sparse i = none) : Holds count (vs ++ [v]) ix' where
  sound := hsound
  dense := hdense
  writable := hwritable
  length := by
    rw [hlength, h.length, List.length_append, List.length_singleton]
    omega
  stored i := by
    rw [hstored]
    by_cases hi : i = vs.length
    · rw [hi, Function.update_self, List.getElem?_concat_length]
      rfl
    · rw [Function.update_of_ne hi, h.stored, List.getElem?_append]
      split
      · rfl
      · next hlt =>
        rw [List.getElem?_eq_none (Nat.le_of_not_lt hlt), List.getElem?_eq_none]
        rw [List.length_singleton]
        omega
  rest i hi := by
    rw [List.length_append, List.length_singleton] at hi
    exact hrest i hi

/-! ### A further element -/

variable (hindexed : (w.shapes.structures arrayStructure).transitions.indexed = true)

include hindexed in
theorem makeIndexed_array : makeIndexed w.nextObject (w.withArray arrayStructure ix) =
    .ok () (w.withArray arrayStructure ix) := by
  unfold makeIndexed
  rw [Vm.object_bind, gets_bind, objects_withArray_self, shapes_withArray, if_pos hindexed]
  rfl

include hindexed in
theorem writeDense_array (i : ℕ) (v : JsValue) : ∃ nonGc,
    defineOwnIndexeValueDenseInternal w.nextObject i v false (w.withArray arrayStructure ix) =
      .ok () (w.withArray arrayStructure (ix.storeDense i v nonGc)) := by
  obtain ⟨σ, s, nonGc, hmake, hrun⟩ :=
    defineOwnIndexeValueDenseInternal_eq w.nextObject i v false (w.withArray arrayStructure ix)
  have hmoved : (w.withArray arrayStructure ix).moved w.nextObject σ s = w.withArray arrayStructure ix := by
    rcases hmake with hmake | hmake
    · exact (Result.ok.inj (hmake.symm.trans (makeIndexed_array hindexed))).2
    · exact hmake
  rw [hmoved, withElements_withArray, indexed_withArray_self] at hrun
  exact ⟨nonGc, hrun⟩

/-- The elements with a map, and a length that reaches the index. -/
def raised (ix : IndexedElements) (i : ℕ) : IndexedElements :=
  { ix with map := some (ix.map.getD ∅), length := max ix.length (i + 1) }

include hindexed in
theorem writeSparse_array (hi : ix.sparse i = none) (v : JsValue) : ∃ nonGc,
    defineOwnIndexedSparse w.nextObject i (createDesc v) false (w.withArray arrayStructure ix) =
      .ok true (w.withArray arrayStructure ((raised ix i).storeSparse i ⟨v, objectData⟩ nonGc)) := by
  obtain ⟨σ, s, nonGc, hmake, hrun⟩ := defineOwnIndexedSparse_create
    (w := w.withArray arrayStructure ix) (o := w.nextObject) (by rw [indexed_withArray_self]; exact hi)
    (by rw [objects_withArray_self]) v false
  have hmoved : (w.withArray arrayStructure ix).moved w.nextObject σ s = w.withArray arrayStructure ix :=
    (Result.ok.inj (hmake.symm.trans (makeIndexed_array hindexed))).2
  rw [hmoved, withElements_withArray, indexed_withArray_self] at hrun
  exact ⟨nonGc, hrun⟩

theorem Holds.storeDense (h : Holds count vs ix) (hv : v ≠ .empty) (hi : vs.length < maxVectorSize)
    (nonGc : Bool) : Holds count (vs ++ [v]) (ix.storeDense vs.length v nonGc) :=
  h.update (h.sound.storeDense h.dense hi v nonGc) h.dense h.writable rfl
    (h.sound.stored_storeDense h.dense hi hv nonGc) fun i hi => h.rest i hi.le

theorem Holds.sound_raised (h : Holds count vs ix) : (raised ix vs.length).Sound where
  vector i hne := ⟨(h.sound.vector i hne).1, lt_of_lt_of_le (h.sound.vector i hne).2 (le_max_left _ _)⟩
  size := h.sound.size
  map hd i hi := (congrFun (sparse_getD_map ix) i).trans (h.sound.map hd i hi)
  cell i s hs := h.sound.cell i s ((congrFun (sparse_getD_map ix) i).symm.trans hs)

theorem Holds.stored_raised (h : Holds count vs ix) : (raised ix vs.length).stored = ix.stored := by
  have hsparse : (raised ix vs.length).sparse = ix.sparse := sparse_getD_map ix
  funext i
  unfold IndexedElements.stored
  rw [hsparse]
  change (if _ then _ else if i < max ix.length (vs.length + 1) then ix.sparse i else none) = _
  have hlength := h.length
  by_cases hi : vs.length ≤ i
  · rw [h.rest i hi, ite_self, ite_self]
    rfl
  · rw [if_pos (show i < max ix.length (vs.length + 1) by omega), if_pos (show i < ix.length by omega)]
    rfl

theorem Holds.storeSparse (h : Holds count vs ix) (hi : maxVectorSize ≤ vs.length) (nonGc : Bool) :
    Holds count (vs ++ [v]) ((raised ix vs.length).storeSparse vs.length ⟨v, objectData⟩ nonGc) := by
  have hcell : (⟨v, objectData⟩ : StoredSlot).attributes.accessor = true → v ≠ .empty :=
    fun h => nomatch h
  have hlt : vs.length < (raised ix vs.length).length :=
    lt_of_lt_of_le (Nat.lt_succ_self _) (le_max_right _ _)
  have hstored := h.sound_raised.stored_storeSparse (fun _ => hi) hcell nonGc hlt
  rw [h.stored_raised] at hstored
  refine h.update (h.sound_raised.storeSparse (fun _ => hi) hcell nonGc) h.dense h.writable rfl hstored
    fun i hi => ?_
  rw [sparse_storeSparse, if_neg (by omega)]
  exact (congrFun (sparse_getD_map ix) i).trans (h.rest i hi.le)

include hindexed in
theorem Holds.define (h : Holds count vs ix) (hv : v ≠ .empty) : ∃ ix', Holds count (vs ++ [v]) ix' ∧
    defineOwnIndexedPropertyInternal w.nextObject vs.length (createDesc v) false
      (w.withArray arrayStructure ix) = .ok true (w.withArray arrayStructure ix') := by
  have hdefault : (createDesc v).attrs.isDefault = true := rfl
  unfold defineOwnIndexedPropertyInternal
  rw [Vm.object_bind, objects_withArray_self]
  dsimp only
  rw [if_neg (by simp [h.writable])]
  by_cases hi : vs.length < maxVectorSize
  · obtain ⟨nonGc, hrun⟩ := writeDense_array hindexed vs.length v
    refine ⟨_, h.storeDense hv hi nonGc, ?_⟩
    rw [if_pos (by simp [h.dense, hdefault, hi])]
    exact bind_of_ok hrun _
  · obtain ⟨nonGc, hrun⟩ := writeSparse_array hindexed (h.rest _ le_rfl) v
    refine ⟨_, h.storeSparse (Nat.le_of_not_lt hi) nonGc, ?_⟩
    rw [if_neg (by simp [hi]), if_neg (by simp [hdefault]), hdefault]
    simp only [Bool.not_true, Bool.and_false, Bool.false_and]
    exact hrun

theorem Holds.put (h : Holds count vs ix) (hplain : w.PlainArrays arrayStructure) (hv : v ≠ .empty) :
    ∃ ix', Holds count (vs ++ [v]) ix' ∧
      JsObject.put w.nextObject (.index vs.length) v false (w.withArray arrayStructure ix) =
        .ok () (w.withArray arrayStructure ix') := by
  obtain ⟨b, hcan⟩ : ∃ b, canPutDense w.nextObject vs.length (w.withArray arrayStructure ix) =
      .ok b (w.withArray arrayStructure ix) := canPutDense_array hplain
  cases b with
  | true =>
    obtain ⟨-, hdense⟩ := canPutDense_dense hcan
    obtain ⟨nonGc, hrun⟩ := writeDense_array hplain.indexed vs.length v
    exact ⟨_, h.storeDense hv (hdense rfl).2 nonGc, (put_of_canPutDense hcan v false).trans hrun⟩
  | false =>
    obtain ⟨ix', hix', hdef⟩ := h.define hplain.indexed hv
    refine ⟨ix', hix', ?_⟩
    -- neither the array nor a prototype has the element, so that it is defined on the array
    have hnone : ix.stored vs.length = none := by
      rw [h.stored, List.getElem?_eq_none le_rfl]
      rfl
    have hlook := lookup_absent hplain hnone
    have hdef : defineOwnIndexedPropertySlot w.nextObject vs.length (createDesc v) Slot.new false
        (w.withArray arrayStructure ix) = .ok (true, Slot.new) (w.withArray arrayStructure ix') := by
      have hbase : Slot.new.base ≠ some w.nextObject := fun hc => nomatch hc
      rw [defineOwnIndexedPropertySlot_absent not_inText_withArray (by rw [indexed_withArray_self, hnone])
        hbase, bind_of_ok hdef]
      rfl
    have hput : putFrom w.nextObject v false false Slot.new id (fun desc slot =>
        defineOwnIndexedPropertySlot w.nextObject vs.length desc slot false)
          (w.withArray arrayStructure ix) = .ok Slot.new (w.withArray arrayStructure ix') := by
      have hext : canPut w.nextObject false Slot.new (w.withArray arrayStructure ix) =
          .ok true (w.withArray arrayStructure ix) := by
        unfold canPut
        rw [if_neg Bool.false_ne_true, Vm.object_bind, objects_withArray_self]
        rfl
      have hfound : Slot.new.isNotFound = true := rfl
      unfold putFrom
      rw [bind_of_ok hext, if_neg (by simp), if_neg (by simp [hfound]), if_neg (by simp [hfound])]
      exact bind_of_ok hdef _
    change ((canPutDense w.nextObject vs.length >>= fun b => _) >>= fun _ => pure ()) _ = _
    rw [bind_apply, bind_of_ok hcan, if_neg Bool.false_ne_true, bind_of_ok hlook]
    dsimp only
    rw [hput]
    rfl

/-! ### The whole array -/

theorem putAll_eq (hplain : w.PlainArrays arrayStructure) (h : Holds count vs ix) (us : List JsValue)
    (hus : ∀ v ∈ us, v ≠ .empty) : ∃ ix', Holds count (vs ++ us) ix' ∧
      putAll w.nextObject vs.length us (w.withArray arrayStructure ix) =
        .ok (vs ++ us).length (w.withArray arrayStructure ix') := by
  induction us generalizing vs ix with
  | nil =>
    rw [List.append_nil]
    exact ⟨ix, h, rfl⟩
  | cons v us ih =>
    obtain ⟨hv, hus⟩ := List.forall_mem_cons.mp hus
    obtain ⟨ix₁, h₁, hput⟩ := h.put hplain hv
    obtain ⟨ix', h', hrest⟩ := ih h₁ hus
    rw [List.append_assoc, List.singleton_append, List.length_append, List.length_singleton] at hrest
    rw [List.append_assoc, List.singleton_append] at h'
    refine ⟨ix', h', ?_⟩
    rw [putAll, bind_of_ok hput]
    exact hrest

theorem fill_succ (arr index count : ℕ) (operand : Operand) (stack : List Operand) (w : World) :
    fill arr index (count + 1) (operand :: stack) w =
      (putAll arr index operand.values >>= fun index => fill arr index count stack) w := by
  cases operand with
  | value v =>
    rw [fill, Operand.values, putAll, bind_apply, bind_apply, bind_apply]
    cases JsObject.put arr (.index index) v false w <;> rfl
  | spread array => rfl

theorem fill_eq (hplain : w.PlainArrays arrayStructure) (h : Holds count vs ix)
    (operands stack : List Operand) (hne : ∀ v ∈ operands.flatMap Operand.values, v ≠ .empty) :
    ∃ ix', Holds count (vs ++ operands.flatMap Operand.values) ix' ∧
      fill w.nextObject vs.length operands.length (operands ++ stack) (w.withArray arrayStructure ix) =
        .ok stack (w.withArray arrayStructure ix') := by
  induction operands generalizing vs ix with
  | nil => exact ⟨ix, (List.append_nil vs).symm ▸ h, rfl⟩
  | cons operand operands ih =>
    rw [List.flatMap_cons] at hne ⊢
    obtain ⟨hvs, hrest⟩ := List.forall_mem_append.mp hne
    obtain ⟨ix₁, h₁, hput⟩ := putAll_eq hplain h operand.values hvs
    obtain ⟨ix', h', hfill⟩ := ih h₁ hrest
    rw [List.append_assoc] at h'
    refine ⟨ix', h', ?_⟩
    rw [List.length_cons, List.cons_append, fill_succ, bind_of_ok hput]
    exact hfill

/-- **`OP_NEWARRAY`.** The array has the values of the operands, the one on top first, and is as long as
there are operands if there are no more values. Nothing else of the heap changes. -/
theorem ofOperands_eq (hplain : w.PlainArrays arrayStructure) (operands stack : List Operand)
    (hne : ∀ v ∈ operands.flatMap Operand.values, v ≠ .empty) :
    ∃ ix, Holds operands.length (operands.flatMap Operand.values) ix ∧
      ofOperands arrayStructure operands.length (operands ++ stack) w =
        .ok (w.nextObject, stack) (w.withArray arrayStructure ix) := by
  obtain ⟨ix, h, hfill⟩ := fill_eq hplain (holds_new operands.length) operands stack hne
  refine ⟨ix, h, ?_⟩
  rw [ofOperands, bind_of_ok new_eq]
  exact bind_of_ok hfill _

theorem getSlot_array (hplain : w.PlainArrays arrayStructure) (h : Holds count vs ix) (i : ℕ) :
    getSlot w.nextObject (.index i) (fun _ => false) Slot.new (w.withArray arrayStructure ix) =
      .ok (vs.getD i .undefined) (w.withArray arrayStructure ix) := by
  have hs := h.stored i
  rw [List.getD_eq_getElem?_getD]
  cases hv : vs[i]? with
  | some v =>
    rw [hv] at hs
    have hstored : ((w.withArray arrayStructure ix).objects w.nextObject).indexed.stored i =
        some ⟨v, objectData⟩ := by
      rw [indexed_withArray_self, hs]
      rfl
    exact getSlot_of_stored not_inText_withArray hstored rfl _
  | none =>
    rw [hv] at hs
    have hlook : getPropertySlot w.nextObject (.index i) Slot.new (w.withArray arrayStructure ix) =
        .ok (false, Slot.new) (w.withArray arrayStructure ix) := lookup_absent hplain hs
    unfold getSlot
    rw [bind_of_ok hlook]
    dsimp only
    have hvalue : slotValue w.nextObject false Slot.new (w.withArray arrayStructure ix) =
        .ok .undefined (w.withArray arrayStructure ix) := rfl
    rw [bind_of_ok hvalue, Vm.object_bind, objects_withArray_self]
    rfl

theorem elementsFrom_eq (hplain : w.PlainArrays arrayStructure) (h : Holds count vs ix) (i n : ℕ) :
    elementsFrom w.nextObject i n (w.withArray arrayStructure ix) =
      .ok ((List.range' i n).map (vs.getD · .undefined)) (w.withArray arrayStructure ix) := by
  induction n generalizing i with
  | zero => rfl
  | succ n ih =>
    rw [elementsFrom, bind_of_ok (getSlot_array hplain h i), bind_of_ok (ih (i + 1)), List.range'_succ,
      List.map_cons]
    rfl

theorem elements_eq (hplain : w.PlainArrays arrayStructure) (h : Holds count vs ix) :
    elements w.nextObject (w.withArray arrayStructure ix) =
      .ok (vs ++ List.replicate (count - vs.length) .undefined) (w.withArray arrayStructure ix) := by
  have hlist : (List.range' 0 ix.length).map (vs.getD · .undefined) =
      vs ++ List.replicate (count - vs.length) .undefined := by
    refine List.ext_getElem (by simp [h.length]; omega) fun i hi _ => ?_
    rw [List.length_map, List.length_range', h.length] at hi
    rw [List.getElem_map, List.getElem_range', List.getElem_append, Nat.zero_add, Nat.one_mul]
    split
    · next hlt => rw [List.getD_eq_getElem?_getD, List.getElem?_eq_getElem hlt, Option.getD_some]
    · next hge =>
      rw [List.getD_eq_getElem?_getD, List.getElem?_eq_none (Nat.le_of_not_lt hge), List.getElem_replicate,
        Option.getD_none]
  rw [elements, Vm.object_bind, objects_withArray_self, elementsFrom_eq hplain h, hlist]

end JsArray

end Starlight
