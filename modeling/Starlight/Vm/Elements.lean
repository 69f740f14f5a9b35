import Starlight.Vm.IndexedSpec

/-!
# The two storages of elements

The elements of an object are in a dense vector, in a sparse map, or partly in both. `stored` is the
element under an index, wherever it is. `Sound` says how the storages share the work: what the vector
holds is below the length and only there while the elements are dense, the map holds nothing below
`MAX_VECTOR_SIZE` as long as they are, and an accessor property has its cell.
-/

namespace Starlight

open JsObject

namespace IndexedElements

variable {ix : IndexedElements} {i index : ℕ}

/-- The vector and the map divide the elements between them. -/
structure Sound (ix : IndexedElements) : Prop where
  vector : ∀ i, ix.vector.getD i .empty ≠ .empty → ix.dense = true ∧ i < ix.length
  size : ix.vector.length ≤ maxVectorSize
  map : ix.dense = true → ∀ i, i < maxVectorSize → ix.sparse i = none
  cell : ∀ i s, ix.sparse i = some s → s.attributes.accessor = true → s.value ≠ .empty

def stored (ix : IndexedElements) (i : ℕ) : Option StoredSlot :=
  if ix.dense && i < ix.vector.length then
    if (ix.vector.getD i .empty).isEmpty then none else some ⟨ix.vector.getD i .empty, objectData⟩
  else if i < ix.length then ix.sparse i
  else none

theorem getD_of_le {l : List JsValue} (h : l.length ≤ i) : l.getD i .empty = .empty := by
  rw [List.getD_eq_getElem?_getD, List.getElem?_eq_none h, Option.getD_none]

theorem isEmpty_iff {v : JsValue} : v.isEmpty = true ↔ v = .empty := by
  cases v <;> simp [JsValue.isEmpty]

theorem sound_new : new.Sound where
  vector _ h := absurd List.getD_nil h
  size := Nat.zero_le _
  map _ _ _ := rfl
  cell _ _ h := nomatch h

theorem Sound.stored_vector (h : ix.Sound) (hd : ix.dense = true) (hi : i < maxVectorSize) :
    ix.stored i = if (ix.vector.getD i .empty).isEmpty then none
      else some ⟨ix.vector.getD i .empty, objectData⟩ := by
  unfold stored
  by_cases hv : i < ix.vector.length
  · rw [if_pos (by simp [hd, hv])]
  · rw [if_neg (by simp [hv]), h.map hd i hi, ite_self,
      getD_of_le (Nat.le_of_not_lt hv)]
    rfl

theorem Sound.stored_map (h : ix.Sound) (hd : ix.dense = true → maxVectorSize ≤ i) :
    ix.stored i = if i < ix.length then ix.sparse i else none := by
  unfold stored
  rw [if_neg]
  intro hc
  obtain ⟨hdense, hv⟩ := Bool.and_eq_true_iff.mp hc
  have := hd hdense
  have := h.size
  have := of_decide_eq_true hv
  omega

theorem Sound.stored_eq_some_iff (h : ix.Sound) (hmap : ∀ i s, ix.sparse i = some s → i < ix.length)
    {s : StoredSlot} :
    ix.stored i = some s ↔ (ix.vector.getD i .empty ≠ .empty ∧
      s = ⟨ix.vector.getD i .empty, objectData⟩) ∨ ix.sparse i = some s := by
  unfold stored
  by_cases hv : (ix.dense && decide (i < ix.vector.length)) = true
  · rw [if_pos hv]
    obtain ⟨hd, hlt⟩ := Bool.and_eq_true_iff.mp hv
    rw [h.map hd i (lt_of_lt_of_le (of_decide_eq_true hlt) h.size)]
    cases he : (ix.vector.getD i .empty).isEmpty with
    | true =>
      have he := isEmpty_iff.mp he
      simp only [if_true, ne_eq, he, not_true_eq_false, false_and, reduceCtorEq, or_false]
    | false =>
      have hne : ix.vector.getD i .empty ≠ .empty := fun hc => by
        rw [isEmpty_iff.mpr hc] at he
        cases he
      simp only [Bool.false_eq_true, if_false, Option.some_inj, ne_eq, hne, not_false_iff, true_and,
        reduceCtorEq, or_false]
      exact eq_comm
  · rw [if_neg hv]
    have he : ix.vector.getD i .empty = .empty := by
      by_contra hne
      have hlt : i < ix.vector.length := by
        by_contra hc
        exact hne (getD_of_le (Nat.le_of_not_lt hc))
      exact hv (by simp [(h.vector i hne).1, hlt])
    simp only [he, ne_eq, not_true_eq_false, false_and, false_or]
    constructor
    · intro hs
      split at hs
      · exact hs
      · cases hs
    · intro hs
      rw [if_pos (hmap i s hs)]
      exact hs

theorem Sound.lt_of_stored (h : ix.Sound) {s : StoredSlot} (hs : ix.stored i = some s) :
    i < ix.length := by
  unfold stored at hs
  split at hs
  · split at hs
    · cases hs
    · next hne => exact (h.vector i (fun he => hne (isEmpty_iff.mpr he))).2
  · split at hs
    · assumption
    · cases hs

theorem Sound.stored_eq_none (h : ix.Sound) (hi : ix.length ≤ i) : ix.stored i = none := by
  cases hs : ix.stored i with
  | none => rfl
  | some s => exact absurd (h.lt_of_stored hs) (Nat.not_lt.mpr hi)

/-! ### Writing to the vector -/

def storeDense (ix : IndexedElements) (index : ℕ) (v : JsValue) (nonGc : Bool) : IndexedElements :=
  { ix with
    vector := (if index < ix.vector.length then ix.vector
      else resize ix.vector (index + 1)).set index v
    length := max ix.length (index + 1)
    nonGc := nonGc }

theorem length_storeDense (ix : IndexedElements) (index : ℕ) (v : JsValue) (nonGc : Bool) :
    (ix.storeDense index v nonGc).vector.length = max ix.vector.length (index + 1) := by
  unfold storeDense
  dsimp only
  rw [List.length_set]
  split
  · omega
  · rw [length_resize]
    omega

theorem getD_resize (l : List JsValue) {n : ℕ} (hn : l.length ≤ n) (i : ℕ) :
    (resize l n).getD i .empty = l.getD i .empty := by
  rw [List.getD_eq_getElem?_getD, List.getD_eq_getElem?_getD]
  by_cases hi : i < l.length
  · rw [getElem?_resize (lt_of_lt_of_le hi hn) hi]
  · rw [List.getElem?_eq_none (Nat.le_of_not_lt hi), resize,
      List.getElem?_append_right (by rw [List.length_take]; omega), List.getElem?_replicate]
    split <;> rfl

theorem getD_storeDense (ix : IndexedElements) (index : ℕ) (v : JsValue) (nonGc : Bool) (i : ℕ) :
    (ix.storeDense index v nonGc).vector.getD i .empty =
      if i = index then v else ix.vector.getD i .empty := by
  unfold storeDense
  dsimp only
  rw [List.getD_eq_getElem?_getD, List.getElem?_set]
  by_cases hi : i = index
  · subst hi
    have hlt : i < (if i < ix.vector.length then ix.vector
        else resize ix.vector (i + 1)).length := by
      split
      · assumption
      · rw [length_resize]
        omega
    simp [hlt]
  · rw [if_neg (Ne.symm hi), if_neg hi, ← List.getD_eq_getElem?_getD]
    split
    · rfl
    · next h => exact getD_resize _ (by omega) i

theorem Sound.storeDense (h : ix.Sound) (hd : ix.dense = true) (hi : index < maxVectorSize)
    (v : JsValue) (nonGc : Bool) : (ix.storeDense index v nonGc).Sound where
  vector i hne := by
    refine ⟨hd, ?_⟩
    change i < max ix.length (index + 1)
    rw [getD_storeDense] at hne
    split at hne
    · omega
    · have := (h.vector i hne).2
      omega
  size := by
    rw [length_storeDense]
    have := h.size
    omega
  map := h.map
  cell := h.cell

theorem Sound.stored_storeDense (h : ix.Sound) (hd : ix.dense = true) (hi : index < maxVectorSize)
    {v : JsValue} (hv : v ≠ .empty) (nonGc : Bool) :
    (ix.storeDense index v nonGc).stored =
      Function.update ix.stored index (some ⟨v, objectData⟩) := by
  have h' := h.storeDense hd hi v nonGc
  funext i
  by_cases hm : i < maxVectorSize
  · rw [h'.stored_vector hd hm, getD_storeDense]
    by_cases hii : i = index
    · subst hii
      rw [if_pos rfl, if_neg (fun hc => hv (isEmpty_iff.mp hc)), Function.update_self]
    · rw [if_neg hii, Function.update_of_ne hii, h.stored_vector hd hm]
  · have hne : i ≠ index := by omega
    rw [h'.stored_map fun _ => Nat.le_of_not_lt hm, Function.update_of_ne hne,
      h.stored_map fun _ => Nat.le_of_not_lt hm]
    change (if i < max ix.length (index + 1) then ix.sparse i else none) = _
    have : i < max ix.length (index + 1) ↔ i < ix.length := by omega
    simp only [this]

theorem Sound.storeDense_eq (h : ix.Sound) (hne : ix.vector.getD index .empty ≠ .empty) (v : JsValue)
    (nonGc : Bool) : ix.storeDense index v nonGc =
      { ix with vector := ix.vector.set index v, nonGc := nonGc } := by
  have hlt : index < ix.vector.length := by
    by_contra hc
    exact hne (getD_of_le (Nat.le_of_not_lt hc))
  have := (h.vector index hne).2
  rw [IndexedElements.storeDense, if_pos hlt, max_eq_left (by omega)]

/-! ### Moving to the map -/

theorem sparse_makeSparse_eq (ix : IndexedElements) (i : ℕ) :
    ix.makeSparse.sparse i = if (ix.vector.getD i .empty).isEmpty then ix.sparse i
      else some ⟨ix.vector.getD i .empty, objectData⟩ := by
  have key : ∀ (n : ℕ) (m : Finmap fun _ : ℕ => StoredSlot),
      ((List.range n).foldl (fun m i =>
        let v := ix.vector.getD i .empty
        if v.isEmpty then m else m.insert i ⟨v, objectData⟩) m).lookup i =
        if i < n ∧ (ix.vector.getD i .empty).isEmpty = false then
          some ⟨ix.vector.getD i .empty, objectData⟩ else m.lookup i := by
    intro n
    induction n with
    | zero => intro m; simp
    | succ n ih =>
      intro m
      rw [List.range_succ, List.foldl_append, List.foldl_cons, List.foldl_nil]
      dsimp only
      by_cases hn : i = n
      · subst hn
        cases he : (ix.vector.getD i .empty).isEmpty with
        | true => rw [if_pos rfl, ih]; simp
        | false => rw [if_neg (by simp), lookup_insert_eq]; simp
      · have hlt : i < n + 1 ↔ i < n := by omega
        simp only [hlt]
        rw [← ih]
        split
        · rfl
        · rw [lookup_insert_eq, if_neg hn]
  change ((some _ : Option (Finmap fun _ : ℕ => StoredSlot)).bind fun m => m.lookup i) = _
  rw [Option.bind_some, key]
  by_cases hi : i < ix.vector.length
  · cases he : (ix.vector.getD i .empty).isEmpty with
    | true =>
      rw [if_neg (by simp), if_pos rfl]
      unfold sparse
      cases ix.map with
      | none => exact Finmap.lookup_empty i
      | some m => rfl
    | false => rw [if_pos ⟨hi, rfl⟩, if_neg (by simp)]
  · rw [if_neg (fun hc => hi hc.1), getD_of_le (Nat.le_of_not_lt hi)]
    unfold sparse
    cases ix.map with
    | none => exact Finmap.lookup_empty i
    | some m => rfl

theorem getD_makeSparse (ix : IndexedElements) (i : ℕ) :
    ix.makeSparse.vector.getD i .empty = .empty := by
  change (List.replicate _ JsValue.empty).getD i .empty = .empty
  rw [List.getD_eq_getElem?_getD, List.getElem?_replicate]
  split <;> rfl

theorem Sound.makeSparse (h : ix.Sound) : ix.makeSparse.Sound where
  vector i hne := absurd (getD_makeSparse ix i) hne
  size := by
    change (List.replicate _ _).length ≤ _
    rw [List.length_replicate]
    exact h.size
  map hd := nomatch hd
  cell i s hs ha := by
    rw [sparse_makeSparse_eq] at hs
    split at hs
    · exact h.cell i s hs ha
    · cases hs
      cases ha

theorem Sound.stored_makeSparse (h : ix.Sound) (hd : ix.dense = true) :
    ix.makeSparse.stored = ix.stored := by
  funext i
  rw [h.makeSparse.stored_map (fun hd => nomatch hd), sparse_makeSparse_eq]
  change (if i < ix.length then _ else none) = _
  by_cases hm : i < maxVectorSize
  · rw [h.stored_vector hd hm, h.map hd i hm]
    by_cases he : (ix.vector.getD i .empty).isEmpty = true
    · simp only [if_pos he, ite_self]
    · simp only [if_neg he, if_pos (h.vector i fun hc => he (isEmpty_iff.mpr hc)).2]
  · rw [h.stored_map fun _ => Nat.le_of_not_lt hm]
    have hv : ix.vector.getD i .empty = .empty :=
      getD_of_le (by have := h.size; omega)
    rw [hv]
    rfl

/-! ### Writing to the map -/

theorem sparse_getD_map (ix : IndexedElements) :
    ({ ix with map := some (ix.map.getD ∅) } : IndexedElements).sparse = ix.sparse := by
  funext i
  unfold sparse
  cases ix.map with
  | none => exact Finmap.lookup_empty i
  | some m => rfl

def storeSparse (ix : IndexedElements) (index : ℕ) (s : StoredSlot) (nonGc : Bool) :
    IndexedElements :=
  { ix with map := some ((ix.map.getD ∅).insert index s), nonGc := nonGc }

theorem sparse_storeSparse (ix : IndexedElements) (index : ℕ) (s : StoredSlot) (nonGc : Bool)
    (i : ℕ) : (ix.storeSparse index s nonGc).sparse i = if i = index then some s else ix.sparse i := by
  change ((ix.map.getD ∅).insert index s).lookup i = _
  rw [lookup_insert_eq, ← sparse_getD_map ix]
  rfl

theorem Sound.storeSparse (h : ix.Sound) (hd : ix.dense = true → maxVectorSize ≤ index)
    {s : StoredSlot} (hs : s.attributes.accessor = true → s.value ≠ .empty) (nonGc : Bool) :
    (ix.storeSparse index s nonGc).Sound where
  __ := h
  map hdense i hi := by
    have := hd hdense
    rw [sparse_storeSparse, if_neg (by omega)]
    exact h.map hdense i hi
  cell i s' hs' := by
    rw [sparse_storeSparse] at hs'
    split at hs'
    · cases hs'
      exact hs
    · exact h.cell i s' hs'

theorem Sound.stored_storeSparse (h : ix.Sound) (hd : ix.dense = true → maxVectorSize ≤ index)
    {s : StoredSlot} (hs : s.attributes.accessor = true → s.value ≠ .empty) (nonGc : Bool)
    (hi : index < ix.length) :
    (ix.storeSparse index s nonGc).stored = Function.update ix.stored index (some s) := by
  have h' := h.storeSparse hd hs nonGc
  funext i
  by_cases hii : i = index
  · subst hii
    rw [h'.stored_map hd, sparse_storeSparse, if_pos rfl, Function.update_self]
    exact if_pos hi
  · rw [Function.update_of_ne hii]
    unfold stored
    rw [sparse_storeSparse, if_neg hii]
    rfl

/-! ### Lengths -/

theorem Sound.setLength (h : ix.Sound) {len : ℕ}
    (hlen : ∀ i, ix.vector.getD i .empty ≠ .empty → i < len) : (ix.setLength len).Sound :=
  ⟨fun i hne => ⟨(h.vector i hne).1, hlen i hne⟩, h.size, h.map, h.cell⟩

theorem Sound.raiseLength (h : ix.Sound) (index : ℕ) :
    (if ix.length ≤ index then ix.setLength (index + 1) else ix).Sound := by
  split
  · exact h.setLength fun i hne => by
      have := (h.vector i hne).2
      omega
  · exact h

theorem dense_raiseLength (ix : IndexedElements) (index : ℕ) :
    (if ix.length ≤ index then ix.setLength (index + 1) else ix).dense = ix.dense := by
  split <;> rfl

/-! ### Deletion -/

/-- What a `delete_indexed_internal` leaves that is not refused. -/
def remove (ix : IndexedElements) (index : ℕ) : IndexedElements :=
  if ix.length ≤ index then ix
  else if ix.dense && index < ix.vector.length then
    { ix with vector := ix.vector.set index .empty }
  else if ix.dense && index < maxVectorSize then ix
  else
    match ix.map with
    | none => ix
    | some map =>
      match map.lookup index with
      | none => ix
      | some _ =>
        if tableLen (map.erase index) = 0 then { ix with map := some (map.erase index) }.makeDense
        else { ix with map := some (map.erase index) }

theorem getD_set_empty (l : List JsValue) (index i : ℕ) :
    (l.set index .empty).getD i .empty = if i = index then .empty else l.getD i .empty := by
  rw [List.getD_eq_getElem?_getD, List.getElem?_set, List.getD_eq_getElem?_getD]
  by_cases hi : i = index
  · subst hi
    rw [if_pos rfl, if_pos rfl]
    split <;> rfl
  · rw [if_neg (Ne.symm hi), if_neg hi]

theorem sparse_eq_of_map {m : Finmap fun _ : ℕ => StoredSlot} (hm : ix.map = some m) (i : ℕ) :
    ix.sparse i = m.lookup i := by
  rw [sparse, hm, Option.bind_some]

theorem lookup_eq_none_of_tableLen {m : Finmap fun _ : ℕ => StoredSlot} (h : tableLen m = 0)
    (i : ℕ) : m.lookup i = none := by
  have hk : m.keys = ∅ := Finset.card_eq_zero.mp h
  rw [Finmap.lookup_eq_none, ← Finmap.mem_keys, hk]
  exact Finset.notMem_empty i

theorem Sound.remove_cases (h : ix.Sound) (index : ℕ) :
    (ix.remove index = ix ∧ ix.stored index = none) ∨
    (ix.dense = true ∧ index < maxVectorSize ∧
      ix.remove index = { ix with vector := ix.vector.set index .empty }) ∨
    ∃ m, ix.map = some m ∧ (ix.dense = true → maxVectorSize ≤ index) ∧
      (ix.remove index = { ix with map := some (m.erase index) } ∨
        (∀ i, (m.erase index).lookup i = none) ∧
          ix.remove index = { ix with map := some (m.erase index) }.makeDense) := by
  unfold remove
  split
  · next hlen => exact .inl ⟨rfl, h.stored_eq_none hlen⟩
  · split
    · next hv =>
      obtain ⟨hd, hlt⟩ := Bool.and_eq_true_iff.mp hv
      exact .inr (.inl ⟨hd, lt_of_lt_of_le (of_decide_eq_true hlt) h.size, rfl⟩)
    · next hv =>
      split
      · next hm =>
        obtain ⟨hd, hlt⟩ := Bool.and_eq_true_iff.mp hm
        have hle : ix.vector.length ≤ index := by simpa [hd] using hv
        refine .inl ⟨rfl, ?_⟩
        rw [h.stored_vector hd (of_decide_eq_true hlt), getD_of_le hle]
        rfl
      · next hm =>
        have hd : ix.dense = true → maxVectorSize ≤ index := fun hd => by simpa [hd] using hm
        cases hmap : ix.map with
        | none => exact .inl ⟨rfl, by rw [h.stored_map hd, sparse, hmap, Option.bind_none, ite_self]⟩
        | some m =>
          cases hl : m.lookup index with
          | none =>
            simp only [hl]
            exact .inl ⟨trivial, by rw [h.stored_map hd, sparse_eq_of_map hmap, hl, ite_self]⟩
          | some s =>
            refine .inr (.inr ⟨m, rfl, hd, ?_⟩)
            simp only [hl]
            split
            · next ht => exact .inr ⟨lookup_eq_none_of_tableLen ht, rfl⟩
            · exact .inl rfl

theorem Sound.remove (h : ix.Sound) (index : ℕ) : (ix.remove index).Sound := by
  rcases h.remove_cases index with ⟨heq, -⟩ | ⟨hd, -, heq⟩ | ⟨m, hm, hmax, heq | ⟨-, heq⟩⟩ <;> rw [heq]
  · exact h
  · refine ⟨fun i hne => ?_, by rw [List.length_set]; exact h.size, h.map, h.cell⟩
    rw [getD_set_empty] at hne
    split at hne
    · exact absurd rfl hne
    · exact h.vector i hne
  · refine ⟨h.vector, h.size, fun hd i hi => ?_, fun i s hs => ?_⟩
    · change (m.erase index).lookup i = none
      have := hmax hd
      rw [lookup_erase_eq, if_neg (by omega), ← sparse_eq_of_map hm]
      exact h.map hd i hi
    · change (m.erase index).lookup i = some s at hs
      rw [lookup_erase_eq] at hs
      split at hs
      · cases hs
      · exact h.cell i s (by rwa [sparse_eq_of_map hm])
  · exact ⟨fun i hne => ⟨rfl, (h.vector i hne).2⟩, h.size, fun _ _ _ => rfl, fun _ _ hs => nomatch hs⟩

theorem Sound.stored_remove (h : ix.Sound) (index : ℕ) :
    (ix.remove index).stored = Function.update ix.stored index none := by
  have h' := h.remove index
  rcases h.remove_cases index with ⟨heq, hnone⟩ | ⟨hd, hlt, heq⟩ | ⟨m, hm, hmax, heq | ⟨hnone, heq⟩⟩ <;>
    rw [heq] at h' ⊢
  · rw [← hnone, Function.update_eq_self]
  · funext i
    by_cases hm : i < maxVectorSize
    · rw [h'.stored_vector hd hm, getD_set_empty]
      by_cases hi : i = index
      · subst hi
        rw [if_pos rfl, Function.update_self]
        rfl
      · rw [if_neg hi, Function.update_of_ne hi, h.stored_vector hd hm]
    · rw [h'.stored_map fun _ => Nat.le_of_not_lt hm, Function.update_of_ne (by omega),
        h.stored_map fun _ => Nat.le_of_not_lt hm]
      rfl
  · have herase : ∀ j, ({ ix with map := some (m.erase index) } : IndexedElements).sparse j =
        (m.erase index).lookup j := fun _ => rfl
    funext i
    by_cases hi : i = index
    · subst hi
      rw [Function.update_self, h'.stored_map hmax, herase, lookup_erase_eq, if_pos rfl, ite_self]
    · rw [Function.update_of_ne hi]
      unfold stored
      rw [herase, lookup_erase_eq, if_neg hi, sparse_eq_of_map hm]
  · -- the map is empty now; what is left is in the vector
    have hrest : ∀ i, i ≠ index → ix.sparse i = none := fun i hi => by
      have := hnone i
      rwa [lookup_erase_eq, if_neg hi, ← sparse_eq_of_map hm] at this
    have hnew : ∀ i, (ix.dense = true → maxVectorSize ≤ i) →
        ({ ix with map := some (m.erase index) }.makeDense).stored i = none := by
      intro i hi
      by_cases hlt : i < maxVectorSize
      · have hv : ix.vector.getD i .empty = .empty := by
          by_contra hne
          have := hi (h.vector i hne).1
          omega
        rw [h'.stored_vector rfl hlt]
        change (if (ix.vector.getD i .empty).isEmpty then _ else _) = _
        rw [hv]
        rfl
      · rw [h'.stored_map fun _ => Nat.le_of_not_lt hlt]
        exact ite_self none
    funext i
    by_cases hi : i = index
    · subst hi
      rw [Function.update_self, hnew i hmax]
    · rw [Function.update_of_ne hi]
      by_cases hv : ix.dense = true ∧ i < maxVectorSize
      · rw [h'.stored_vector rfl hv.2, h.stored_vector hv.1 hv.2]
        rfl
      · have hd : ix.dense = true → maxVectorSize ≤ i := fun hd => by
          by_contra hc
          exact hv ⟨hd, by omega⟩
        rw [hnew i hd, h.stored_map hd, hrest i hi, ite_self]

/-! ### Vectors without elements -/

/-- Nothing is in the vector. -/
def Blank (ix : IndexedElements) : Prop := ∀ i, ix.vector.getD i .empty = .empty

theorem Sound.blank (h : ix.Sound) (hd : ix.dense = false) : ix.Blank := by
  intro i
  by_contra hne
  rw [(h.vector i hne).1] at hd
  cases hd

theorem Blank.remove (hb : ix.Blank) (h : ix.Sound) (index : ℕ) : (ix.remove index).Blank := by
  rcases h.remove_cases index with ⟨heq, -⟩ | ⟨-, -, heq⟩ | ⟨m, -, -, heq | ⟨-, heq⟩⟩ <;> rw [heq]
  · exact hb
  · intro i
    rw [getD_set_empty, hb i, ite_self]
  · exact hb
  · exact hb

theorem Sound.setLength_of_blank (h : ix.Sound) (hb : ix.Blank) (len : ℕ) :
    (ix.setLength len).Sound :=
  h.setLength fun i hne => absurd (hb i) hne

theorem Sound.setLength_shrinkDense (h : ix.Sound) (hd : ix.dense = true) (len : ℕ) :
    ((shrinkDense len ix).setLength len).Sound := by
  have hlt : ∀ i, ix.vector.getD i .empty ≠ .empty → i < ix.vector.length := fun i hne => by
    by_contra hc
    exact hne (getD_of_le (Nat.le_of_not_lt hc))
  unfold shrinkDense
  split
  · next hlen =>
    have hbelow : ∀ i, ix.vector.getD i .empty ≠ .empty → i < len := fun i hne => by
      have := hlt i hne
      have := h.size
      omega
    cases hm : ix.map with
    | none => exact h.setLength hbelow
    | some m =>
      dsimp only
      have hsub : ∀ i s, (shrinkMap len (m.keys.sort (· ≤ ·)) m).lookup i = some s →
          ix.sparse i = some s := fun i s hs => by
        rw [sparse_eq_of_map hm]
        exact sparse_shrinkMap _ _ _ hs
      split
      · exact ⟨fun i hne => ⟨rfl, hbelow i hne⟩, h.size, fun _ _ _ => rfl, fun _ _ hs => nomatch hs⟩
      · refine ⟨fun i hne => ⟨hd, hbelow i hne⟩, h.size, fun _ i hi => ?_,
          fun i s hs => h.cell i s (hsub i s hs)⟩
        change (shrinkMap len (m.keys.sort (· ≤ ·)) m).lookup i = none
        cases hs : (shrinkMap len (m.keys.sort (· ≤ ·)) m).lookup i with
        | none => rfl
        | some s =>
          have := hsub i s hs
          rw [h.map hd i hi] at this
          cases this
  · dsimp only
    split
    · next hlen =>
      refine ⟨fun i hne => ⟨rfl, ?_⟩, ?_, fun _ _ _ => rfl, fun _ _ hs => nomatch hs⟩
      · change (resize ix.vector len).getD i .empty ≠ .empty at hne
        by_contra hc
        exact hne (getD_of_le (by rw [length_resize]; exact Nat.le_of_not_lt hc))
      · change (resize ix.vector len).length ≤ _
        rw [length_resize]
        omega
    · next hlen =>
      refine ⟨fun i hne => ⟨rfl, ?_⟩, h.size, fun _ _ _ => rfl, fun _ _ hs => nomatch hs⟩
      exact lt_of_lt_of_le (hlt i hne) (Nat.le_of_not_lt hlen)

end IndexedElements

end Starlight
