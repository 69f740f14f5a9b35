import Starlight.Vm.OwnKeys

/-!
# Setting the length of an array

A longer length changes the length alone, so it uncovers what the map still holds from before an earlier
cut. A shorter one removes elements: those of a dense array at once, those of a sparse array one by one,
from the end or, if the array shrinks a lot, in the reverse of the order in which the own keys are listed.
The last way does not look at the new length and goes on below it.
-/

namespace Starlight

open JsObject World Exec IndexedElements

namespace IndexedElements

variable {ix : IndexedElements} {i index n : ℕ}

def below (e : ℕ → Option StoredSlot) (n i : ℕ) : Option StoredSlot := if i < n then e i else none

/-- There is an element that cannot be deleted. -/
def Fixed (e : ℕ → Option StoredSlot) (i : ℕ) : Prop :=
  ∃ s, e i = some s ∧ s.attributes.configurable = false

theorem not_fixed_update (e : ℕ → Option StoredSlot) (h : ¬ Fixed e i) (index : ℕ) :
    ¬ Fixed (Function.update e index none) i := by
  rintro ⟨s, hs, hc⟩
  rw [Function.update_apply] at hs
  split at hs
  · cases hs
  · exact h ⟨s, hs, hc⟩

theorem Sound.fixed_iff (h : ix.Sound) : ix.fixed i = true ↔ Fixed ix.stored i := by
  by_cases hv : (ix.dense && decide (i < ix.vector.length)) = true
  · have hfixed : ix.fixed i = false := by simp [fixed, hv]
    rw [hfixed]
    refine iff_of_false Bool.false_ne_true ?_
    rintro ⟨s, hs, hc⟩
    rw [stored, if_pos hv] at hs
    split at hs
    · cases hs
    · cases hs
      cases hc
  · have hs : ix.stored i = if i < ix.length then ix.sparse i else none := if_neg hv
    rw [Fixed, hs]
    by_cases hlen : ix.length ≤ i
    · simp [fixed, hlen, Nat.not_lt.mpr hlen]
    · rw [if_pos (Nat.lt_of_not_le hlen)]
      by_cases hm : (ix.dense && decide (i < maxVectorSize)) = true
      · obtain ⟨hd, hlt⟩ := Bool.and_eq_true_iff.mp hm
        simp [fixed, hm, h.map hd i (of_decide_eq_true hlt)]
      · cases hsp : ix.sparse i <;> simp [fixed, hlen, hv, hm, hsp]

/-! ### Removing several elements -/

/-- What is left after deletes that are not refused. -/
def removeAll (ix : IndexedElements) (is : List ℕ) : IndexedElements := is.foldl remove ix

theorem length_remove (ix : IndexedElements) (index : ℕ) : (ix.remove index).length = ix.length := by
  unfold remove
  repeat' split
  all_goals rfl

theorem writable_remove (ix : IndexedElements) (index : ℕ) :
    (ix.remove index).writable = ix.writable := by
  unfold remove
  repeat' split
  all_goals rfl

theorem length_removeAll (ix : IndexedElements) (is : List ℕ) :
    (ix.removeAll is).length = ix.length := by
  induction is generalizing ix with
  | nil => rfl
  | cons index is ih => exact (ih _).trans (length_remove ix index)

theorem writable_removeAll (ix : IndexedElements) (is : List ℕ) :
    (ix.removeAll is).writable = ix.writable := by
  induction is generalizing ix with
  | nil => rfl
  | cons index is ih => exact (ih _).trans (writable_remove ix index)

theorem Sound.removeAll (h : ix.Sound) (is : List ℕ) : (ix.removeAll is).Sound := by
  induction is generalizing ix with
  | nil => exact h
  | cons index is ih => exact ih (h.remove index)

theorem Blank.removeAll (hb : ix.Blank) (h : ix.Sound) (is : List ℕ) : (ix.removeAll is).Blank := by
  induction is generalizing ix with
  | nil => exact hb
  | cons index is ih => exact ih (hb.remove h index) (h.remove index)

theorem Sound.stored_removeAll (h : ix.Sound) (is : List ℕ) :
    (ix.removeAll is).stored = fun i => if i ∈ is then none else ix.stored i := by
  induction is generalizing ix with
  | nil =>
    funext i
    rw [if_neg List.not_mem_nil]
    rfl
  | cons index is ih =>
    funext i
    rw [IndexedElements.removeAll, List.foldl_cons, ← IndexedElements.removeAll, ih (h.remove index),
      h.stored_remove]
    simp only [List.mem_cons, Function.update_apply]
    by_cases hi : i = index <;> by_cases his : i ∈ is <;> simp [hi, his]

theorem Sound.fixed_removeAll (h : ix.Sound) {is : List ℕ} (hi : Fixed ix.stored i) (hnot : i ∉ is) :
    Fixed (ix.removeAll is).stored i := by
  obtain ⟨s, hs, hc⟩ := hi
  refine ⟨s, ?_, hc⟩
  rw [h.stored_removeAll]
  exact (if_neg hnot).trans hs

/-! ### The elements under a new length -/

theorem Sound.stored_cut (h : ix.Sound) (hn : n ≤ ix.length)
    (hv : ∀ i, ix.vector.getD i .empty ≠ .empty → i < n) :
    (ix.setLength n).stored = below ix.stored n := by
  have h' : (ix.setLength n).Sound := h.setLength hv
  funext i
  by_cases hi : i < n
  · rw [below, if_pos hi]
    unfold stored
    have hlen : i < (ix.setLength n).length ↔ i < ix.length := iff_of_true hi (by omega)
    simp only [hlen]
    rfl
  · rw [below, if_neg hi]
    exact h'.stored_eq_none (Nat.le_of_not_lt hi)

theorem Sound.stored_setLength_of_le (h : ix.Sound) (hn : ix.length ≤ n) :
    (ix.setLength n).stored = fun i =>
      if ix.length ≤ i ∧ i < n then ix.sparse i else ix.stored i := by
  have h' : (ix.setLength n).Sound := h.setLength fun i hne => (h.vector i hne).2.trans_le hn
  funext i
  by_cases hm : ix.dense = true ∧ i < maxVectorSize
  · rw [h'.stored_vector hm.1 hm.2]
    change (if (ix.vector.getD i .empty).isEmpty then none
      else some (StoredSlot.mk (ix.vector.getD i .empty) objectData)) = _
    rw [← h.stored_vector hm.1 hm.2]
    split
    · next hi => rw [h.stored_eq_none hi.1, h.map hm.1 i hm.2]
    · rfl
  · have hd : ix.dense = true → maxVectorSize ≤ i := fun hd => by
      by_contra hlt
      exact hm ⟨hd, by omega⟩
    rw [h'.stored_map hd, h.stored_map hd]
    change (if i < n then ix.sparse i else none) = _
    by_cases hlt : i < ix.length
    · rw [if_pos (by omega), if_neg (by omega), if_pos hlt]
    · rw [if_neg hlt]
      have hle : ix.length ≤ i := by omega
      simp only [hle, true_and]

theorem lookup_shrinkMap_of_lt (xs : List ℕ) (m : Finmap fun _ : ℕ => StoredSlot) (hi : i < n) :
    (shrinkMap n xs m).lookup i = m.lookup i := by
  induction xs generalizing m with
  | nil => rfl
  | cons x xs ih =>
    unfold shrinkMap
    split
    · rw [ih, lookup_erase_eq, if_neg (by omega)]
    · rfl

theorem writable_shrinkDense (n : ℕ) (ix : IndexedElements) :
    (shrinkDense n ix).writable = ix.writable := by
  unfold shrinkDense
  dsimp only
  repeat' split
  all_goals rfl

theorem dense_shrinkDense (n : ℕ) (ix : IndexedElements) (hd : ix.dense = true) :
    (shrinkDense n ix).dense = true := by
  unfold shrinkDense
  dsimp only
  repeat' split
  all_goals first | rfl | exact hd

theorem getD_shrinkDense (hi : i < n) :
    (shrinkDense n ix).vector.getD i .empty = ix.vector.getD i .empty := by
  unfold shrinkDense
  split
  · cases ix.map with
    | none => rfl
    | some m =>
      dsimp only
      split <;> rfl
  · dsimp only
    split
    · next hlt =>
      have hlt : i < ix.vector.length := hi.trans hlt
      change (resize ix.vector n).getD i .empty = _
      rw [List.getD_eq_getElem?_getD, getElem?_resize hi hlt, ← List.getD_eq_getElem?_getD]
    · rfl

theorem sparse_shrinkDense (hi : i < n) (hle : maxVectorSize ≤ i) :
    (shrinkDense n ix).sparse i = ix.sparse i := by
  unfold shrinkDense
  rw [if_pos (by omega)]
  cases hm : ix.map with
  | none => rfl
  | some m =>
    have hlook := lookup_shrinkMap_of_lt (m.keys.sort (· ≤ ·)) m hi
    rw [sparse_eq_of_map hm, ← hlook]
    dsimp only
    split
    · next ht => exact (lookup_eq_none_of_tableLen ht i).symm
    · rfl

theorem Sound.stored_shrinkDense (h : ix.Sound) (hd : ix.dense = true) (hn : n ≤ ix.length) :
    ((shrinkDense n ix).setLength n).stored = below ix.stored n := by
  have h' := h.setLength_shrinkDense hd n
  funext i
  by_cases hi : i < n
  swap
  · rw [below, if_neg hi]
    exact h'.stored_eq_none (Nat.le_of_not_lt hi)
  rw [below, if_pos hi]
  by_cases hm : i < maxVectorSize
  · rw [h'.stored_vector (hd ▸ dense_shrinkDense n ix hd) hm, h.stored_vector hd hm]
    change (if ((shrinkDense n ix).vector.getD i .empty).isEmpty then none
      else some (StoredSlot.mk ((shrinkDense n ix).vector.getD i .empty) objectData)) = _
    rw [getD_shrinkDense hi]
  · have hle : maxVectorSize ≤ i := by omega
    have hlen : i < ix.length := by omega
    rw [h'.stored_map fun _ => hle, h.stored_map fun _ => hle, if_pos hlen]
    change (if i < n then (shrinkDense n ix).sparse i else none) = _
    rw [if_pos hi, sparse_shrinkDense hi hle]

theorem below_removed_iff {e : ℕ → Option StoredSlot} {is : List ℕ} :
    below (fun i => if i ∈ is then none else e i) n = below e n ↔ ∀ i ∈ is, i < n → e i = none := by
  constructor
  · intro heq i hi hlt
    have := congrFun heq i
    rw [below, below, if_pos hlt, if_pos hlt, if_pos hi] at this
    exact this.symm
  · intro hnone
    funext i
    unfold below
    by_cases hlt : i < n
    · rw [if_pos hlt, if_pos hlt]
      by_cases hi : i ∈ is
      · exact (if_pos hi).trans (hnone i hi hlt).symm
      · exact if_neg hi
    · rw [if_neg hlt, if_neg hlt]

theorem Sound.stored_removeAll_cut (h : ix.Sound) (hb : ix.Blank) (hn : n ≤ ix.length) (is : List ℕ) :
    ((ix.removeAll is).setLength n).stored =
      below (fun i => if i ∈ is then none else ix.stored i) n := by
  have hlen : n ≤ (ix.removeAll is).length := by rwa [length_removeAll]
  rw [(h.removeAll is).stored_cut hlen fun i hne => absurd (hb.removeAll h is i) hne,
    h.stored_removeAll]

end IndexedElements

/-! ### The loops -/

variable {w w' : World} {o n k : ℕ} {ix : IndexedElements} {throwable : Bool}

theorem deleteIndexedInternal_withElements (w : World) (h : ix.Sound) {i : ℕ}
    (hi : ¬ Fixed ix.stored i) :
    deleteIndexedInternal o i throwable (w.withElements o ix) =
      .ok true (w.withElements o (ix.remove i)) := by
  rw [deleteIndexedInternal_eq, indexed_withElements_self, if_neg (mt h.fixed_iff.mp hi),
    World.withElements_withElements]

theorem deleteIndexedInternal_fixed (w : World) (h : ix.Sound) {i : ℕ} (hi : Fixed ix.stored i) :
    deleteIndexedInternal o i false (w.withElements o ix) = .ok false (w.withElements o ix) := by
  rw [deleteIndexedInternal_eq, indexed_withElements_self, if_pos (h.fixed_iff.mpr hi)]
  rfl

theorem setLength_withElements (w : World) (o n : ℕ) (ix : IndexedElements) :
    modifyIndexed o (fun ix => ix.setLength n) (w.withElements o ix) =
      .ok () (w.withElements o (ix.setLength n)) := by
  rw [modifyIndexed_apply, indexed_withElements_self, World.withElements_withElements]

theorem shrinkFromEnd_skip (w : World) (throwable : Bool) {mid old : ℕ} (hn : n ≤ mid)
    (hle : mid ≤ old) (h : ix.Sound) (hfree : ∀ i, mid ≤ i → i < old → ¬ Fixed ix.stored i) :
    ∃ is : List ℕ, (∀ i, i ∈ is ↔ mid ≤ i ∧ i < old) ∧
      shrinkFromEnd o n throwable old (w.withElements o ix) =
        shrinkFromEnd o n throwable mid (w.withElements o (ix.removeAll is)) := by
  induction old, hle using Nat.le_induction generalizing ix with
  | base => exact ⟨[], fun i => by simp, rfl⟩
  | succ old hle ih =>
    have hlast : ¬ Fixed ix.stored old := hfree old hle (Nat.lt_succ_self old)
    obtain ⟨is, his, hrun⟩ := ih (h.remove old) fun i hi hlt => by
      rw [h.stored_remove]
      exact not_fixed_update _ (hfree i hi (by omega)) old
    refine ⟨old :: is, fun i => ?_, ?_⟩
    · rw [List.mem_cons, his]
      omega
    · rw [shrinkFromEnd, if_pos (by omega),
        Exec.bind_of_ok (deleteIndexedInternal_withElements w h hlast), if_pos rfl, hrun]
      rfl

theorem shrinkFromEnd_all (w : World) (o : ℕ) (throwable : Bool) (hn : n ≤ ix.length) (h : ix.Sound)
    (hfree : ∀ i, n ≤ i → ¬ Fixed ix.stored i) :
    ∃ is : List ℕ, (∀ i ∈ is, n ≤ i) ∧
      shrinkFromEnd o n throwable ix.length (w.withElements o ix) =
        .ok true (w.withElements o ((ix.removeAll is).setLength n)) := by
  obtain ⟨is, his, hrun⟩ :=
    shrinkFromEnd_skip (o := o) w throwable le_rfl hn h fun i hi _ => hfree i hi
  refine ⟨is, fun i hi => ((his i).mp hi).1, ?_⟩
  have hend : ∀ ix', shrinkFromEnd o n throwable n (w.withElements o ix') =
      .ok true (w.withElements o (ix'.setLength n)) := by
    intro ix'
    cases n with
    | zero =>
      rw [shrinkFromEnd, Exec.bind_of_ok (setLength_withElements w o 0 ix')]
      rfl
    | succ n =>
      rw [shrinkFromEnd, if_neg (lt_irrefl _), Exec.bind_of_ok (setLength_withElements w o _ ix')]
      rfl
  rw [hrun, hend]

theorem shrinkFromEnd_stop (w : World) (o : ℕ) (throwable : Bool) (hn : n ≤ k) (h : ix.Sound)
    (hk : Fixed ix.stored k) (hfree : ∀ i, k < i → ¬ Fixed ix.stored i) :
    ∃ is : List ℕ, (∀ i ∈ is, k < i) ∧
      shrinkFromEnd o n throwable ix.length (w.withElements o ix) =
        Vm.reject throwable "failed to shrink array" false
          (w.withElements o ((ix.removeAll is).setLength (k + 1))) := by
  obtain ⟨s, hs, -⟩ := id hk
  obtain ⟨is, his, hrun⟩ := shrinkFromEnd_skip (o := o) (n := n) w throwable
    (show n ≤ k + 1 by omega) (h.lt_of_stored hs) h fun i hi _ => hfree i hi
  have hnot : k ∉ is := fun hmem => by
    have := (his k).mp hmem
    omega
  have hk' : Fixed (ix.removeAll is).stored k := h.fixed_removeAll hk hnot
  refine ⟨is, fun i hi => ((his i).mp hi).1, ?_⟩
  rw [hrun, shrinkFromEnd, if_pos (by omega),
    Exec.bind_of_ok (deleteIndexedInternal_fixed w (h.removeAll is) hk'), if_neg Bool.false_ne_true,
    Exec.bind_of_ok (setLength_withElements w o (k + 1) (ix.removeAll is))]

theorem shrinkByNames_skip (w : World) (o n : ℕ) (throwable : Bool) (rest : List Symbol)
    (names : List Symbol) (h : ix.Sound)
    (hfree : ∀ i, Symbol.index i ∈ names → ¬ Fixed ix.stored i) :
    ∃ is : List ℕ, (∀ i, i ∈ is ↔ Symbol.index i ∈ names) ∧
      shrinkByNames o n throwable (names ++ rest) (w.withElements o ix) =
        shrinkByNames o n throwable rest (w.withElements o (ix.removeAll is)) := by
  induction names generalizing ix with
  | nil => exact ⟨[], fun i => by simp, rfl⟩
  | cons name names ih =>
    cases name with
    | index index =>
      obtain ⟨is, his, hrun⟩ := ih (h.remove index) fun i hi => by
        rw [h.stored_remove]
        exact not_fixed_update _ (hfree i (List.mem_cons_of_mem _ hi)) index
      refine ⟨index :: is, fun i => by simp [his], ?_⟩
      have hfirst : ¬ Fixed ix.stored index := hfree index List.mem_cons_self
      rw [List.cons_append, shrinkByNames,
        Exec.bind_of_ok (deleteIndexedInternal_withElements w h hfirst), if_pos rfl, hrun]
      rfl
    | key text | priv id =>
      obtain ⟨is, his, hrun⟩ := ih h fun i hi => hfree i (List.mem_cons_of_mem _ hi)
      exact ⟨is, fun i => by simp [his], hrun⟩

theorem shrinkByNames_all (w : World) (o n : ℕ) (throwable : Bool) (names : List Symbol)
    (h : ix.Sound) (hfree : ∀ i, Symbol.index i ∈ names → ¬ Fixed ix.stored i) :
    ∃ is : List ℕ, (∀ i, i ∈ is ↔ Symbol.index i ∈ names) ∧
      shrinkByNames o n throwable names (w.withElements o ix) =
        .ok true (w.withElements o ((ix.removeAll is).setLength n)) := by
  obtain ⟨is, his, hrun⟩ := shrinkByNames_skip w o n throwable [] names h hfree
  refine ⟨is, his, ?_⟩
  rw [List.append_nil] at hrun
  rw [hrun, shrinkByNames, Exec.bind_of_ok (setLength_withElements w o n (ix.removeAll is))]
  rfl

theorem shrinkByNames_stop (w : World) (o n : ℕ) (throwable : Bool) {names : List Symbol}
    (rest : List Symbol) (h : ix.Sound) (hk : Fixed ix.stored k) (hne : Symbol.index k ∉ names)
    (hfree : ∀ i, Symbol.index i ∈ names → ¬ Fixed ix.stored i) :
    ∃ is : List ℕ, (∀ i, i ∈ is ↔ Symbol.index i ∈ names) ∧
      shrinkByNames o n throwable (names ++ .index k :: rest) (w.withElements o ix) =
        Vm.reject throwable "failed to shrink array" false
          (w.withElements o ((ix.removeAll is).setLength (k + 1))) := by
  obtain ⟨is, his, hrun⟩ := shrinkByNames_skip w o n throwable (.index k :: rest) names h hfree
  have hnot : k ∉ is := fun hmem => hne ((his k).mp hmem)
  have hk' : Fixed (ix.removeAll is).stored k := h.fixed_removeAll hk hnot
  refine ⟨is, his, ?_⟩
  rw [hrun, shrinkByNames, Exec.bind_of_ok (deleteIndexedInternal_fixed w (h.removeAll is) hk'),
    if_neg Bool.false_ne_true,
    Exec.bind_of_ok (setLength_withElements w o (k + 1) (ix.removeAll is))]

/-! ### Setting the length -/

theorem setLength_of_le (hle : (w.objects o).indexed.length ≤ n) (hn : n ≠ 4294967295)
    (throwable : Bool) :
    JsObject.setLength o n throwable w =
      .ok true (w.withElements o ((w.objects o).indexed.setLength n)) := by
  rw [JsObject.setLength, if_neg hn, Vm.object_bind, if_pos hle,
    Exec.bind_of_ok (modifyIndexed_apply o _ w)]
  rfl

theorem setLength_of_dense (hlt : n < (w.objects o).indexed.length) (hn : n ≠ 4294967295)
    (hd : (w.objects o).indexed.dense = true) (throwable : Bool) :
    JsObject.setLength o n throwable w =
      .ok true (w.withElements o ((shrinkDense n (w.objects o).indexed).setLength n)) := by
  rw [JsObject.setLength, if_neg hn, Vm.object_bind, if_neg (Nat.not_le.mpr hlt), if_pos hd,
    Exec.bind_of_ok (modifyIndexed_apply o _ w)]
  rfl

theorem setLength_of_small (hlt : n < (w.objects o).indexed.length) (hn : n ≠ 4294967295)
    (hd : (w.objects o).indexed.dense = false)
    (hsmall : (w.objects o).indexed.length - n < 1 <<< 24) (throwable : Bool) :
    JsObject.setLength o n throwable w =
      shrinkFromEnd o n throwable (w.objects o).indexed.length
        (w.withElements o (w.objects o).indexed) := by
  rw [JsObject.setLength, if_neg hn, Vm.object_bind, if_neg (Nat.not_le.mpr hlt),
    if_neg (hd ▸ Bool.false_ne_true), if_pos hsmall, World.withElements_self]

theorem setLength_of_huge (h : Sane w o) (hlt : n < (w.objects o).indexed.length)
    (hn : n ≠ 4294967295) (hd : (w.objects o).indexed.dense = false)
    (hhuge : ¬ (w.objects o).indexed.length - n < 1 <<< 24) (throwable : Bool) :
    ∃ w₀ : World, w₀.objects = w.objects ∧ JsObject.setLength o n throwable w =
      shrinkByNames o n throwable (ownNames w o true).reverse
        (w₀.withElements o (w.objects o).indexed) := by
  obtain ⟨w₀, hr, hrun⟩ := getOwnPropertyNames_eq h.inv h.lt true
  refine ⟨w₀, hr.objects, ?_⟩
  rw [JsObject.setLength, if_neg hn, Vm.object_bind, if_neg (Nat.not_le.mpr hlt),
    if_neg (hd ▸ Bool.false_ne_true), if_neg hhuge, Exec.bind_of_ok hrun, ← hr.objects,
    World.withElements_self]

/-- A descriptor that asks for the length `n` and for no other change than perhaps of `writable`. -/
structure AsksLength (desc : PropertyDescriptor) (n : ℕ) : Prop where
  configurable : desc.attrs.configurable = false
  enumerable : desc.attrs.enumerable = false
  accessor : desc.attrs.accessor = false
  value : desc.attrs.undefValue = false
  number : ∃ d : F64, toNumber desc.fst = pure d ∧ d.toU32 = n ∧ (F64.ofInt n).eq d = true

theorem asksLength_assignDesc (hn : n < 2 ^ 32) : AsksLength (assignDesc (.newF64 n)) n where
  configurable := rfl
  enumerable := rfl
  accessor := rfl
  value := rfl
  number := by
    refine ⟨F64.ofInt n, rfl, ?_, ?_⟩
    · rw [F64.ofInt, F64.toU32, Rat.floor_intCast, Int.toNat_natCast]
      omega
    · simp [F64.eq, F64.ofInt]

variable {desc : PropertyDescriptor}

theorem changeLengthWritable_eq (hw : (w.objects o).indexed.writable = true)
    (writable throwable : Bool) :
    changeLengthWritable o writable throwable w =
      .ok true (w.withElements o { (w.objects o).indexed with writable := writable }) := by
  rw [changeLengthWritable, Vm.object_bind]
  cases writable with
  | false => rfl
  | true =>
    have hself := w.withElements_self o
    rw [hw]
    change Result.ok true w = _
    rw [← hw, hself]

/-- What the new length leaves as soon as `writable` is set, too. -/
def afterLength (ix : IndexedElements) (desc : PropertyDescriptor) : IndexedElements :=
  { ix with writable := desc.attrs.undefWritable || desc.attrs.writable }

theorem lockLength_eq (hw : (w.objects o).indexed.writable = true) (desc : PropertyDescriptor)
    (throwable succ : Bool) :
    (if !desc.attrs.undefWritable then changeLengthWritable o desc.attrs.writable throwable
      else pure succ : Vm Bool) w =
      .ok (succ || !desc.attrs.undefWritable)
        (w.withElements o (afterLength (w.objects o).indexed desc)) := by
  cases hu : desc.attrs.undefWritable with
  | false =>
    rw [Bool.not_false, if_pos rfl, changeLengthWritable_eq hw, Bool.or_true, afterLength, hu,
      Bool.false_or]
  | true =>
    have hself := w.withElements_self o
    rw [Bool.not_true, if_neg Bool.false_ne_true, Bool.or_false, afterLength, hu, Bool.true_or, ← hw]
    exact congrArg (Result.ok succ) hself.symm

theorem length_slot_eq (hc : (w.objects o).class_ = .array) (desc : PropertyDescriptor) (slot : Slot)
    (throwable : Bool) :
    defineOwnNonIndexedPropertySlot o Symbol.length desc slot throwable w =
      (do return (← defineLengthProperty o desc throwable, slot) : Vm (Bool × Slot)) w := by
  rw [defineOwnNonIndexedPropertySlot, Vm.object_bind, hc]
  exact congrFun (if_pos rfl) w

theorem length_method_eq (hc : (w.objects o).class_ = .array) (desc : PropertyDescriptor)
    (throwable : Bool) :
    defineOwnProperty o Symbol.length desc throwable w = defineLengthProperty o desc throwable w := by
  have hslot := length_slot_eq hc desc Slot.new throwable
  change (defineOwnNonIndexedPropertySlot o Symbol.length desc Slot.new throwable >>= fun r =>
    pure r.1 : Vm Bool) w = _
  rw [Exec.bind_apply, hslot, Exec.bind_apply]
  cases defineLengthProperty o desc throwable w <;> rfl

section Define

variable (hc : (w.objects o).class_ = .array) (ha : AsksLength desc n)
  (hw : (w.objects o).indexed.writable = true)

include hc ha

theorem defineOwnProperty_length (throwable : Bool) :
    defineOwnProperty o Symbol.length desc throwable w =
      (do
        let obj ← Vm.object o
        if n = obj.indexed.length then
          if !desc.attrs.undefWritable then changeLengthWritable o desc.attrs.writable throwable
          else return true
        else if !obj.indexed.writable then
          Vm.reject throwable "'length' not writable" false
        else
          let succ ← JsObject.setLength o n throwable
          if !desc.attrs.undefWritable then changeLengthWritable o desc.attrs.writable throwable
          else return succ : Vm Bool) w := by
  obtain ⟨d, hd, hn, heq⟩ := ha.number
  rw [length_method_eq hc, defineLengthProperty, ha.configurable, ha.enumerable, ha.accessor, ha.value, hd]
  simp only [Bool.false_eq_true, if_false, Exec.pure_bind_apply, defineLengthTo, hn, heq, Bool.not_true]

include hw

theorem defineOwnProperty_length_eq (hn : n = (w.objects o).indexed.length) (throwable : Bool) :
    defineOwnProperty o Symbol.length desc throwable w =
      .ok true (w.withElements o (afterLength (w.objects o).indexed desc)) := by
  rw [defineOwnProperty_length hc ha, Vm.object_bind, if_pos hn]
  exact lockLength_eq hw desc throwable true

theorem defineOwnProperty_length_ok (hn : n ≠ (w.objects o).indexed.length) {w₀ : World} {succ : Bool}
    (hset : JsObject.setLength o n throwable w = .ok succ (w₀.withElements o ix))
    (hix : ix.writable = true) :
    defineOwnProperty o Symbol.length desc throwable w =
      .ok (succ || !desc.attrs.undefWritable) (w₀.withElements o (afterLength ix desc)) := by
  have hlock := lockLength_eq (w := w₀.withElements o ix) (o := o)
    (by rw [indexed_withElements_self]; exact hix) desc throwable succ
  rw [indexed_withElements_self, World.withElements_withElements] at hlock
  rw [defineOwnProperty_length hc ha, Vm.object_bind, if_neg hn, hw]
  exact (Exec.bind_of_ok hset _).trans hlock

theorem defineOwnProperty_length_reject (hn : n ≠ (w.objects o).indexed.length) {w₀ : World}
    {msg : String} (hset : JsObject.setLength o n throwable w =
      Vm.reject throwable msg false (w₀.withElements o ix)) (hix : ix.writable = true) :
    defineOwnProperty o Symbol.length desc throwable w =
      if throwable then .error (.throw (.typeError msg)) (w₀.withElements o ix)
      else .ok (!desc.attrs.undefWritable) (w₀.withElements o (afterLength ix desc)) := by
  cases throwable with
  | true =>
    rw [defineOwnProperty_length hc ha, Vm.object_bind, if_neg hn, hw, Bool.not_true,
      if_neg Bool.false_ne_true, Exec.bind_apply, hset]
    rfl
  | false => exact defineOwnProperty_length_ok hc ha hw hn hset hix

theorem defineOwnProperty_length_error (hn : n ≠ (w.objects o).indexed.length) {w₀ : World} {e : Fault}
    (hset : JsObject.setLength o n throwable w = .error e w₀) :
    defineOwnProperty o Symbol.length desc throwable w = .error e w₀ := by
  rw [defineOwnProperty_length hc ha, Vm.object_bind, if_neg hn, hw, Bool.not_true,
    if_neg Bool.false_ne_true, Exec.bind_apply, hset]

end Define

/-! ### Lengths that nothing holds up -/

/-- Setting the length to `n` succeeds and leaves just the elements below `n`. -/
def SetsLength (w : World) (o : ℕ) (desc : PropertyDescriptor) (throwable : Bool) (n : ℕ) : Prop :=
  ∃ w', defineOwnProperty o Symbol.length desc throwable w = .ok true w' ∧
    (w'.objects o).indexed.stored = below (w.objects o).indexed.stored n ∧
    (w'.objects o).indexed.length = n

def LastBelow (names : List Symbol) (e : ℕ → Option StoredSlot) (k : ℕ) : Prop :=
  ∃ before after, names = before ++ .index k :: after ∧
    ∀ i, Symbol.index i ∈ after → i ≤ k → e i = none

/-- The loop over the names stops below the new length, but right below it and with nothing else removed
there, and its answer is lost because `writable` is set afterwards. -/
def StopsRightBelow (w : World) (o : ℕ) (desc : PropertyDescriptor) (throwable : Bool) (n : ℕ) : Prop :=
  throwable = false ∧ desc.attrs.undefWritable = false ∧
    ∃ k, n = k + 1 ∧ Fixed (w.objects o).indexed.stored k ∧
      LastBelow (ownNames w o true) (w.objects o).indexed.stored k

/-- The length `n` uncovers nothing, and it is reached without going on below `n`. -/
def FitsLength (w : World) (o : ℕ) (desc : PropertyDescriptor) (throwable : Bool) (n : ℕ) : Prop :=
  let ix := (w.objects o).indexed
  n = ix.length ∨ n ≠ 4294967295 ∧
    (ix.length < n → ∀ i, ix.length ≤ i → i < n → ix.sparse i = none) ∧
    (n < ix.length → ix.dense = true ∨ ix.length - n < 1 <<< 24 ∨
      (∀ i, i < n → ix.stored i = none) ∨ StopsRightBelow w o desc throwable n)

theorem IndexedElements.Sound.below_length (h : ix.Sound) (hn : ix.length ≤ n) :
    below ix.stored n = ix.stored := by
  funext i
  unfold below
  split
  · rfl
  · exact (h.stored_eq_none (by omega)).symm

theorem index_mem_ownNames (hl : w.hashOrder.Lawful) {i : ℕ} {s : StoredSlot}
    (hs : (w.objects o).indexed.stored i = some s) : Symbol.index i ∈ ownNames w o true := by
  unfold ownNames
  simp only [List.mem_append]
  rw [IndexedElements.stored] at hs
  split at hs
  · next hv =>
    split at hs
    · cases hs
    · next hne =>
      refine .inl (.inl (.inr (mem_denseNames.mpr ⟨i, rfl, (Bool.and_eq_true_iff.mp hv).1, ?_⟩)))
      exact fun he => hne (isEmpty_iff.mpr he)
  · split at hs
    · exact .inl (.inr ((mem_sparseNames hl).mpr ⟨i, s, rfl, hs, rfl⟩))
    · cases hs

theorem exists_first_fixed {names : List Symbol} {e : ℕ → Option StoredSlot}
    (h : ∃ i, Symbol.index i ∈ names ∧ Fixed e i) :
    ∃ before k after, names = before ++ .index k :: after ∧ Fixed e k ∧
      ∀ i, Symbol.index i ∈ before → ¬ Fixed e i := by
  induction names with
  | nil =>
    obtain ⟨i, hi, -⟩ := h
    cases hi
  | cons name names ih =>
    by_cases hfirst : ∃ i, name = .index i ∧ Fixed e i
    · obtain ⟨i, rfl, hi⟩ := hfirst
      exact ⟨[], i, names, rfl, hi, fun _ hmem => by cases hmem⟩
    · obtain ⟨i, hi, hfix⟩ := h
      rcases List.mem_cons.mp hi with rfl | hi
      · exact absurd ⟨i, rfl, hfix⟩ hfirst
      · obtain ⟨before, k, after, rfl, hk, hfree⟩ := ih ⟨i, hi, hfix⟩
        refine ⟨name :: before, k, after, rfl, hk, fun j hj => ?_⟩
        rcases List.mem_cons.mp hj with rfl | hj
        · exact fun hf => hfirst ⟨j, rfl, hf⟩
        · exact hfree j hj

theorem shrinkByNames_lastBelow (w : World) (o n : ℕ) (throwable : Bool) {names : List Symbol}
    (h : ix.Sound) (hk : Fixed ix.stored k) (hfree : ∀ i, k < i → ¬ Fixed ix.stored i)
    (hlast : LastBelow names ix.stored k) :
    ∃ is : List ℕ, (∀ i ∈ is, i < k + 1 → ix.stored i = none) ∧
      shrinkByNames o n throwable names.reverse (w.withElements o ix) =
        Vm.reject throwable "failed to shrink array" false
          (w.withElements o ((ix.removeAll is).setLength (k + 1))) := by
  obtain ⟨before, after, rfl, hafter⟩ := hlast
  have hne : Symbol.index k ∉ after.reverse := fun hmem => by
    obtain ⟨s, hs, -⟩ := hk
    rw [hafter k (List.mem_reverse.mp hmem) le_rfl] at hs
    cases hs
  have hbefore : ∀ i, Symbol.index i ∈ after.reverse → ¬ Fixed ix.stored i := fun i hi hf => by
    by_cases hik : i ≤ k
    · obtain ⟨s, hs, -⟩ := hf
      rw [hafter i (List.mem_reverse.mp hi) hik] at hs
      cases hs
    · exact hfree i (by omega) hf
  obtain ⟨is, his, hrun⟩ :=
    shrinkByNames_stop w o n throwable before.reverse h hk hne hbefore
  refine ⟨is, fun i hi hlt => hafter i (List.mem_reverse.mp ((his i).mp hi)) (by omega), ?_⟩
  rw [List.reverse_append, List.reverse_cons, List.append_assoc, List.singleton_append, hrun]

theorem shrinkByNames_fixed (w : World) (o n : ℕ) (throwable : Bool) {names : List Symbol}
    (h : ix.Sound) (hf : ∃ i, Symbol.index i ∈ names ∧ Fixed ix.stored i) :
    ∃ (k : ℕ) (is : List ℕ), Fixed ix.stored k ∧
      ((∀ i ∈ is, i < k + 1 → ix.stored i = none) → LastBelow names ix.stored k) ∧
      shrinkByNames o n throwable names.reverse (w.withElements o ix) =
        Vm.reject throwable "failed to shrink array" false
          (w.withElements o ((ix.removeAll is).setLength (k + 1))) := by
  obtain ⟨i, hi, hfix⟩ := hf
  obtain ⟨before, k, after, heq, hk, hfree⟩ :=
    exists_first_fixed ⟨i, List.mem_reverse.mpr hi, hfix⟩
  have hne : Symbol.index k ∉ before := fun hmem => hfree k hmem hk
  obtain ⟨is, his, hrun⟩ := shrinkByNames_stop w o n throwable after h hk hne hfree
  refine ⟨k, is, hk, fun hnone => ⟨after.reverse, before.reverse, ?_, fun i hi hik => ?_⟩, ?_⟩
  · rw [← List.reverse_reverse names, heq]
    simp
  · exact hnone i ((his i).mpr (List.mem_reverse.mp hi)) (by omega)
  · rw [heq, hrun]

theorem setsLength_huge (h : Sane w o) (hl : w.hashOrder.Lawful)
    (hc : (w.objects o).class_ = .array) (hw : (w.objects o).indexed.writable = true)
    (ha : AsksLength desc n) (hfree : ∀ i, n ≤ i → ¬ Fixed (w.objects o).indexed.stored i)
    (hlt : n < (w.objects o).indexed.length) (hmax : n ≠ 4294967295)
    (hd : (w.objects o).indexed.dense = false)
    (hhuge : ¬ (w.objects o).indexed.length - n < 1 <<< 24) :
    SetsLength w o desc throwable n ↔
      (∀ i, i < n → (w.objects o).indexed.stored i = none) ∨ StopsRightBelow w o desc throwable n := by
  have hix := h.sound o
  have hb := hix.blank hd
  obtain ⟨w₀, -, hset⟩ := setLength_of_huge h hlt hmax hd hhuge throwable
  have hlisted : ∀ i, Fixed (w.objects o).indexed.stored i → Symbol.index i ∈ ownNames w o true :=
    fun i ⟨s, hs, _⟩ => index_mem_ownNames hl hs
  by_cases hf : ∃ i, Symbol.index i ∈ ownNames w o true ∧ Fixed (w.objects o).indexed.stored i
  · constructor
    · -- the loop stops below the new length
      rintro ⟨w', hw', hstored, hlen⟩
      obtain ⟨k, is, hk, hlast, hrun⟩ := shrinkByNames_fixed w₀ o n throwable hix hf
      rw [defineOwnProperty_length_reject hc ha hw hlt.ne (hset.trans hrun)
        (by rw [IndexedElements.setLength, writable_removeAll, hw])] at hw'
      have hkn : k < n := by
        by_contra hge
        exact hfree k (by omega) hk
      cases throwable with
      | true => cases hw'
      | false =>
        obtain ⟨hu, rfl⟩ : (!desc.attrs.undefWritable) = true ∧ _ = w' := by
          injection hw' with hu hw'
          exact ⟨hu, hw'⟩
        rw [indexed_withElements_self] at hstored hlen
        change k + 1 = n at hlen
        subst hlen
        change (((w.objects o).indexed.removeAll is).setLength (k + 1)).stored = _ at hstored
        rw [hix.stored_removeAll_cut hb hlt.le, below_removed_iff] at hstored
        exact .inr ⟨rfl, by simpa using hu, k, rfl, hk, hlast hstored⟩
    · rintro (hnone | ⟨rfl, hu, k, rfl, hk, hlast⟩)
      · obtain ⟨i, -, s, hs, hc'⟩ := hf
        have hin : i < n := by
          by_contra hge
          exact hfree i (by omega) ⟨s, hs, hc'⟩
        rw [hnone i hin] at hs
        cases hs
      · obtain ⟨is, his, hrun⟩ := shrinkByNames_lastBelow w₀ o (k + 1) false hix hk
          (fun i hi => hfree i hi) hlast
        have hdef := defineOwnProperty_length_reject hc ha hw hlt.ne (hset.trans hrun)
          (by rw [IndexedElements.setLength, writable_removeAll, hw])
        refine ⟨_, hdef.trans (by rw [hu]; rfl), ?_, ?_⟩ <;> rw [indexed_withElements_self]
        · exact (hix.stored_removeAll_cut hb hlt.le is).trans (below_removed_iff.mpr his)
        · rfl
  · obtain ⟨is, his, hrun⟩ := shrinkByNames_all w₀ o n throwable (ownNames w o true).reverse hix
      fun i hi hfix => hf ⟨i, List.mem_reverse.mp hi, hfix⟩
    have hdef := defineOwnProperty_length_ok hc ha hw hlt.ne (hset.trans hrun)
      (by rw [IndexedElements.setLength, writable_removeAll, hw])
    constructor
    · rintro ⟨w', hw', hstored, -⟩
      obtain rfl : _ = w' := by
        injection hdef.symm.trans hw'
      rw [indexed_withElements_self] at hstored
      change (((w.objects o).indexed.removeAll is).setLength n).stored = _ at hstored
      rw [hix.stored_removeAll_cut hb hlt.le, below_removed_iff] at hstored
      refine .inl fun i hi => ?_
      by_contra hne
      obtain ⟨s, hs⟩ := Option.ne_none_iff_exists'.mp hne
      have hmem := (his i).mpr (List.mem_reverse.mpr (index_mem_ownNames hl hs))
      exact hne (hstored i hmem hi)
    · rintro (hnone | ⟨-, -, k, -, hk, -⟩)
      · refine ⟨_, hdef, ?_, ?_⟩ <;> rw [indexed_withElements_self]
        · exact (hix.stored_removeAll_cut hb hlt.le is).trans
            (below_removed_iff.mpr fun i _ hi => hnone i hi)
        · rfl
      · exact absurd ⟨k, hlisted k hk, hk⟩ hf

/-- **Truncation succeeds** in removing just the elements from the new length on. -/
theorem length_truncation_exact (h : Reachable (fun w op => op.KeepsSlots w) w) (ho : o < w.nextObject)
    (hl : w.hashOrder.Lawful) (hc : (w.objects o).class_ = .array)
    (hw : (w.objects o).indexed.writable = true) (ha : AsksLength desc n) (throwable : Bool)
    (hfree : ∀ i, n ≤ i → ¬ Fixed (w.objects o).indexed.stored i) :
    SetsLength w o desc throwable n ↔ FitsLength w o desc throwable n := by
  have hsane := h.sane ho
  have hix := hsane.sound o
  -- what is known of the elements that `set_length` leaves decides
  have hdone : ∀ {w₀ : World} {ix : IndexedElements}, n ≠ (w.objects o).indexed.length →
      JsObject.setLength o n throwable w = .ok true (w₀.withElements o (ix.setLength n)) →
      ix.writable = true →
      (SetsLength w o desc throwable n ↔
        (ix.setLength n).stored = below (w.objects o).indexed.stored n) := by
    intro w₀ ix hn hset hwr
    have hrun := defineOwnProperty_length_ok hc ha hw hn hset hwr
    rw [SetsLength, hrun]
    constructor
    · rintro ⟨w', hw', hstored, -⟩
      cases hw'
      rwa [indexed_withElements_self] at hstored
    · intro hstored
      refine ⟨_, rfl, ?_, ?_⟩ <;> rw [indexed_withElements_self]
      · exact hstored
      · rfl
  by_cases hn : n = (w.objects o).indexed.length
  · refine iff_of_true ⟨_, defineOwnProperty_length_eq hc ha hw hn throwable, ?_, ?_⟩ (.inl hn) <;>
      rw [indexed_withElements_self]
    · exact (hix.below_length hn.ge).symm
    · exact hn.symm
  by_cases hmax : n = 4294967295
  · have hset : JsObject.setLength o n throwable w =
        .error (.throw (.rangeError "Out of memory for array values")) w := by
      rw [JsObject.setLength, if_pos hmax]
      rfl
    refine iff_of_false ?_ fun hf => (hf.resolve_left hn).1 hmax
    rintro ⟨w', hw', -⟩
    rw [defineOwnProperty_length_error hc ha hw hn hset] at hw'
    cases hw'
  rcases Nat.lt_or_ge n (w.objects o).indexed.length with hlt | hle
  swap
  · -- a longer length uncovers the map
    rw [hdone hn (setLength_of_le hle hmax throwable) hw, hix.below_length hle,
      hix.stored_setLength_of_le hle]
    constructor
    · intro heq
      refine .inr ⟨hmax, fun _ i hi hin => ?_, fun hlt => absurd hlt (by omega)⟩
      have := congrFun heq i
      rwa [if_pos ⟨hi, hin⟩, hix.stored_eq_none hi] at this
    · intro hf
      funext i
      split
      · next hi =>
        rw [hix.stored_eq_none hi.1]
        exact (hf.resolve_left hn).2.1 (by omega) i hi.1 hi.2
      · rfl
  cases hd : (w.objects o).indexed.dense with
  | true =>
    rw [hdone hn (setLength_of_dense hlt hmax hd throwable) (by rw [writable_shrinkDense, hw]),
      hix.stored_shrinkDense hd hlt.le]
    exact iff_of_true rfl (.inr ⟨hmax, fun hgt => absurd hgt (by omega), fun _ => .inl hd⟩)
  | false =>
    have hb := hix.blank hd
    by_cases hsmall : (w.objects o).indexed.length - n < 1 <<< 24
    · obtain ⟨is, his, hrun⟩ := shrinkFromEnd_all w o throwable hlt.le hix hfree
      have hset := (setLength_of_small hlt hmax hd hsmall throwable).trans hrun
      rw [hdone hn hset (by rw [writable_removeAll, hw]), hix.stored_removeAll_cut hb hlt.le,
        below_removed_iff]
      exact iff_of_true (fun i hi hin => absurd (his i hi) (by omega))
        (.inr ⟨hmax, fun hgt => absurd hgt (by omega), fun _ => .inr (.inl hsmall)⟩)
    · have hfits : FitsLength w o desc throwable n ↔
          (∀ i, i < n → (w.objects o).indexed.stored i = none) ∨
            StopsRightBelow w o desc throwable n := by
        have hne : n ≠ (w.objects o).indexed.length := hn
        simp only [FitsLength, hne, false_or, hd, hsmall, Bool.false_eq_true, hlt, true_imp_iff,
          hmax, ne_eq, not_false_iff, true_and, Nat.not_lt.mpr hlt.le, false_imp_iff]
      rw [hfits]
      exact setsLength_huge hsane hl hc hw ha hfree hlt hmax hd hsmall

/-- An array of length `16777217` whose only element, under `0`, is sparse. -/
noncomputable def grownWorld : World :=
  ((loneWorld .array).after
    (.on 0 (.define (.index 0) (.dataDescriptor .null { configurable := true }) true))).after
      (.on 0 (.defineLengthTo (assignDesc (.newF64 16777217)) (.fin 16777217) true))

theorem reachable_grownWorld : Reachable (fun w op => op.KeepsSlots w) grownWorld := by
  have h₁ := (reachable_loneWorld .array).step
    (.on 0 (.define (.index 0) (.dataDescriptor .null { configurable := true }) true))
    (show 0 < 1 by decide) (fun h => nomatch h.2) rfl
  exact h₁.step (.on 0 (.defineLengthTo (assignDesc (.newF64 16777217)) (.fin 16777217) true))
    (show 0 < 1 by decide) trivial rfl

theorem not_fixed_grownWorld (i : ℕ) : ¬ Fixed (grownWorld.objects 0).indexed.stored i := by
  obtain ⟨s, hmap, hs⟩ : ∃ s, (grownWorld.objects 0).indexed.map =
      some ((∅ : Finmap fun _ : ℕ => StoredSlot).insert 0 s) ∧ s.attributes.configurable = true :=
    ⟨_, rfl, by decide⟩
  have hsound := reachable_grownWorld.soundElements 0
  rintro ⟨s', hs', hc⟩
  rw [hsound.stored_map (fun hd => nomatch (show false = true from hd)), sparse_eq_of_map hmap,
    lookup_insert_eq] at hs'
  split at hs'
  · split at hs'
    · cases hs'
      rw [hs] at hc
      cases hc
    · cases hs'
  · cases hs'

theorem length_truncation_exact_grownWorld :
    SetsLength grownWorld 0 (assignDesc (.newF64 5)) true 5 ↔
      FitsLength grownWorld 0 (assignDesc (.newF64 5)) true 5 :=
  length_truncation_exact reachable_grownWorld (show 0 < 1 by decide) lawful_someOrder rfl rfl
    (asksLength_assignDesc (by decide)) true fun i _ => not_fixed_grownWorld i

/-- An array that shrinks by `2 ^ 24` loses the element below its new length, too. -/
theorem not_length_truncation_exact :
    ¬ ∀ w, Reachable (fun w op => op.KeepsSlots w) w → ∀ o, o < w.nextObject →
      w.hashOrder.Lawful → (w.objects o).class_ = .array → (w.objects o).indexed.writable = true →
      ∀ desc n, AsksLength desc n → ∀ throwable,
        (∀ i, n ≤ i → ¬ Fixed (w.objects o).indexed.stored i) → SetsLength w o desc throwable n := by
  intro h
  have ha : AsksLength (assignDesc (.newF64 1)) 1 := asksLength_assignDesc (by decide)
  have hfree : ∀ i, 1 ≤ i → ¬ Fixed (grownWorld.objects 0).indexed.stored i :=
    fun i _ => not_fixed_grownWorld i
  have hset := h grownWorld reachable_grownWorld 0 (show 0 < 1 by decide) lawful_someOrder rfl rfl _ 1
    ha true hfree
  rw [setsLength_huge (reachable_grownWorld.sane (show 0 < 1 by decide)) lawful_someOrder rfl rfl ha
    hfree (show 1 < 16777217 by decide) (by decide) rfl (show ¬ 16777217 - 1 < 1 <<< 24 by decide)]
    at hset
  rcases hset with hnone | ⟨hthrow, -⟩
  · exact absurd (hnone 0 Nat.one_pos) (by decide)
  · cases hthrow

/-! ### Lengths that an element holds up -/

/-- The answer of an operation that is refused. -/
def RefusesLength (throwable : Bool) (r : Result Fault World Bool) : Prop :=
  if throwable then ∃ msg w', r = .error (.throw (.typeError msg)) w' else ∃ w', r = .ok false w'

def StopsAt (w : World) (o : ℕ) (desc : PropertyDescriptor) (throwable : Bool) (k : ℕ) : Prop :=
  RefusesLength throwable (defineOwnProperty o Symbol.length desc throwable w) ∧
    (defineOwnProperty o Symbol.length desc throwable w).Leaves fun w' =>
      (w'.objects o).indexed.stored = below (w.objects o).indexed.stored (k + 1) ∧
      (w'.objects o).indexed.length = k + 1 ∧
      (desc.attrs.undefWritable = false → desc.attrs.writable = false →
        (w'.objects o).indexed.writable = false)

/-- Setting `writable`, too, neither covers up the failure nor is left out because of it. -/
def ReportsStop (desc : PropertyDescriptor) (throwable : Bool) : Prop :=
  desc.attrs.undefWritable = true ∨ throwable = true ∧ desc.attrs.writable = true

/-- The loop stops at `k` and removes nothing below it. -/
def StopsInOrder (w : World) (o n k : ℕ) : Prop :=
  let ix := (w.objects o).indexed
  ix.dense = false ∧ (ix.length - n < 1 <<< 24 ∨ LastBelow (ownNames w o true) ix.stored k)

theorem stopsAt_iff_of_reject (hc : (w.objects o).class_ = .array) (ha : AsksLength desc n)
    (hw : (w.objects o).indexed.writable = true) (hn : n ≠ (w.objects o).indexed.length) {w₀ : World}
    {msg : String} (hset : JsObject.setLength o n throwable w =
      Vm.reject throwable msg false (w₀.withElements o ix)) (hix : ix.writable = true) :
    StopsAt w o desc throwable k ↔ ReportsStop desc throwable ∧
      ix.stored = below (w.objects o).indexed.stored (k + 1) ∧ ix.length = k + 1 := by
  rw [StopsAt, defineOwnProperty_length_reject hc ha hw hn hset hix]
  cases throwable with
  | true =>
    have hreport : ReportsStop desc true ↔
        (desc.attrs.undefWritable = false → desc.attrs.writable = false → ix.writable = false) := by
      rw [ReportsStop, hix]
      cases desc.attrs.undefWritable <;> cases desc.attrs.writable <;> simp
    have hrefuses : RefusesLength true
        (Result.error (.throw (.typeError msg)) (w₀.withElements o ix) : Result Fault World Bool) :=
      ⟨msg, _, rfl⟩
    rw [if_pos rfl, Result.Leaves, indexed_withElements_self, hreport]
    constructor
    · rintro ⟨-, hstored, hlen, hlock⟩
      exact ⟨hlock, hstored, hlen⟩
    · rintro ⟨hlock, hstored, hlen⟩
      exact ⟨hrefuses, hstored, hlen, hlock⟩
  | false =>
    rw [if_neg Bool.false_ne_true, Result.Leaves, indexed_withElements_self]
    constructor
    · rintro ⟨⟨w', hw'⟩, hstored, hlen, -⟩
      have hu : (!desc.attrs.undefWritable) = false := by
        injection hw'
      exact ⟨.inl (by simpa using hu), hstored, hlen⟩
    · rintro ⟨hreport, hstored, hlen⟩
      have hu : desc.attrs.undefWritable = true :=
        hreport.resolve_right fun h => Bool.false_ne_true h.1
      refine ⟨⟨_, by rw [hu]; rfl⟩, hstored, hlen, fun hu' => ?_⟩
      rw [hu] at hu'
      cases hu'

/-- **Truncation stops** at the last element that cannot be deleted. -/
theorem length_stop_exact (h : Reachable (fun w op => op.KeepsSlots w) w) (ho : o < w.nextObject)
    (hl : w.hashOrder.Lawful) (hc : (w.objects o).class_ = .array)
    (hw : (w.objects o).indexed.writable = true)
    (hlen : (w.objects o).indexed.length < 2 ^ 32) (ha : AsksLength desc n) (throwable : Bool)
    (hnk : n ≤ k) (hk : Fixed (w.objects o).indexed.stored k)
    (hfree : ∀ i, k < i → ¬ Fixed (w.objects o).indexed.stored i) :
    StopsAt w o desc throwable k ↔ ReportsStop desc throwable ∧ StopsInOrder w o n k := by
  have hsane := h.sane ho
  have hix := hsane.sound o
  have hlt : k < (w.objects o).indexed.length := by
    obtain ⟨s, hs, -⟩ := id hk
    exact hix.lt_of_stored hs
  have hn : n < (w.objects o).indexed.length := by omega
  have hmax : n ≠ 4294967295 := by omega
  cases hd : (w.objects o).indexed.dense with
  | true =>
    -- dense elements are cut off without a look at them
    have hset := setLength_of_dense hn hmax hd throwable
    have hrun := defineOwnProperty_length_ok hc ha hw hn.ne hset
      (by rw [IndexedElements.setLength, writable_shrinkDense, hw])
    refine iff_of_false ?_ fun hf => absurd (hd.symm.trans hf.2.1) (by decide)
    rintro ⟨hrefuses, -⟩
    rw [hrun, RefusesLength] at hrefuses
    split at hrefuses
    · obtain ⟨msg, w', hw'⟩ := hrefuses
      cases hw'
    · obtain ⟨w', hw'⟩ := hrefuses
      cases hw'
  | false =>
    have hb := hix.blank hd
    -- what the loop removed decides where it stopped
    have hstop : ∀ {w₀ : World} {j : ℕ} {is : List ℕ}, j < (w.objects o).indexed.length →
        JsObject.setLength o n throwable w = Vm.reject throwable "failed to shrink array" false
          (w₀.withElements o (((w.objects o).indexed.removeAll is).setLength (j + 1))) →
        (StopsAt w o desc throwable k ↔ ReportsStop desc throwable ∧ j = k ∧
          ∀ i ∈ is, i < k + 1 → (w.objects o).indexed.stored i = none) := by
      intro w₀ j is hj hset
      rw [stopsAt_iff_of_reject hc ha hw hn.ne hset
        (by rw [IndexedElements.setLength, writable_removeAll, hw]),
        hix.stored_removeAll_cut hb hj, and_congr_right_iff]
      intro _
      change _ ∧ j + 1 = k + 1 ↔ _
      constructor
      · rintro ⟨hstored, hjk⟩
        obtain rfl : j = k := by omega
        exact ⟨rfl, below_removed_iff.mp hstored⟩
      · rintro ⟨rfl, hnone⟩
        exact ⟨below_removed_iff.mpr hnone, rfl⟩
    by_cases hsmall : (w.objects o).indexed.length - n < 1 <<< 24
    · obtain ⟨is, his, hrun⟩ := shrinkFromEnd_stop w o throwable hnk hix hk hfree
      rw [hstop hlt ((setLength_of_small hn hmax hd hsmall throwable).trans hrun)]
      refine and_congr_right fun _ => iff_of_true ⟨rfl, fun i hi hik => ?_⟩ ⟨hd, .inl hsmall⟩
      exact absurd (his i hi) (by omega)
    · obtain ⟨w₀, -, hset⟩ := setLength_of_huge hsane hn hmax hd hsmall throwable
      have horder : StopsInOrder w o n k ↔
          LastBelow (ownNames w o true) (w.objects o).indexed.stored k := by
        simp only [StopsInOrder, hd, hsmall, false_or, true_and]
      rw [horder]
      constructor
      · intro hs
        have hlisted : ∃ i, Symbol.index i ∈ ownNames w o true ∧
            Fixed (w.objects o).indexed.stored i := by
          obtain ⟨s, hstored, -⟩ := id hk
          exact ⟨k, index_mem_ownNames hl hstored, hk⟩
        obtain ⟨j, is, ⟨s, hj, -⟩, hlast, hrun⟩ := shrinkByNames_fixed w₀ o n throwable hix hlisted
        obtain ⟨hreport, rfl, hnone⟩ := (hstop (hix.lt_of_stored hj) (hset.trans hrun)).mp hs
        exact ⟨hreport, hlast hnone⟩
      · rintro ⟨hreport, hlast⟩
        obtain ⟨is, his, hrun⟩ := shrinkByNames_lastBelow w₀ o n throwable hix hk hfree hlast
        exact (hstop hlt (hset.trans hrun)).mpr ⟨hreport, rfl, his⟩

/-- An array with an element that cannot be deleted. -/
noncomputable def fixedWorld : World :=
  (loneWorld .array).after (.on 0 (.define (.index 0) (.dataDescriptor .null {}) true))

theorem reachable_fixedWorld : Reachable (fun w op => op.KeepsSlots w) fixedWorld :=
  (reachable_loneWorld .array).step (.on 0 (.define (.index 0) (.dataDescriptor .null {}) true))
    (show 0 < 1 by decide) (fun h => nomatch h.2) rfl

theorem fixed_fixedWorld : Fixed (fixedWorld.objects 0).indexed.stored 0 :=
  ⟨_, rfl, by decide⟩

theorem not_fixed_fixedWorld {i : ℕ} (hi : 0 < i) : ¬ Fixed (fixedWorld.objects 0).indexed.stored i := by
  rintro ⟨s, hs, -⟩
  have hlt : i < 1 := (reachable_fixedWorld.soundElements 0).lt_of_stored hs
  omega

theorem length_stop_exact_fixedWorld :
    StopsAt fixedWorld 0 (assignDesc (.newF64 0)) true 0 ↔
      ReportsStop (assignDesc (.newF64 0)) true ∧ StopsInOrder fixedWorld 0 0 0 :=
  length_stop_exact reachable_fixedWorld (show 0 < 1 by decide) lawful_someOrder rfl rfl
    (show 1 < 2 ^ 32 by decide) (asksLength_assignDesc (by decide)) true le_rfl fixed_fixedWorld
    fun _ => not_fixed_fixedWorld

/-- The descriptor that sets the length to `0` and makes it read-only. -/
def lockedAtZero : PropertyDescriptor :=
  .dataDescriptor (.newF64 0) { undefEnumerable := true, undefConfigurable := true }

/-- A length that stops is not made read-only. -/
theorem not_length_stop_exact :
    ¬ ∀ w, Reachable (fun w op => op.KeepsSlots w) w → ∀ o, o < w.nextObject →
      w.hashOrder.Lawful → (w.objects o).class_ = .array → (w.objects o).indexed.writable = true →
      (w.objects o).indexed.length < 2 ^ 32 → ∀ desc n, AsksLength desc n → ∀ throwable k, n ≤ k →
        Fixed (w.objects o).indexed.stored k →
        (∀ i, k < i → ¬ Fixed (w.objects o).indexed.stored i) → StopsAt w o desc throwable k := by
  intro h
  have ha : AsksLength lockedAtZero 0 := ⟨rfl, rfl, rfl, rfl, F64.ofInt 0, rfl, rfl, rfl⟩
  obtain ⟨-, hleft⟩ := h fixedWorld reachable_fixedWorld 0 (show 0 < 1 by decide) lawful_someOrder rfl
    rfl (show 1 < 2 ^ 32 by decide) lockedAtZero 0 ha true 0 le_rfl fixed_fixedWorld
    fun _ => not_fixed_fixedWorld
  obtain ⟨-, -, hlocked⟩ := hleft
  cases hlocked rfl rfl

end Starlight
