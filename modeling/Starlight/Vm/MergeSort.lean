import Starlight.Lib.Loop
import Starlight.Lib.StableSort
import Starlight.Vm.Double

/-!
# Merge sort

`Array.prototype.sort` with a comparator sorts the values bottom-up: every pass merges the runs of one
width out of one array into another, and the two change places. The arrays are dense; the slots that `new
Array` leaves empty read as `undefined`, the default value of the type.
-/

namespace Starlight

variable {α : Type*}

/-- What a comparator returns. -/
inductive ComparisonResult where
  | bool (b : Bool)
  | number (x : F64)

def ComparisonResult.takesRight : ComparisonResult → Bool
  | .bool b => !b
  | .number x => x.lt (.fin 0)

section Functions

variable [Inhabited α] (src : List α) (comparator : α → α → ComparisonResult)

/-- The loop of `sortMerge`, with as many turns as there are elements left. -/
def mergeLoop (leftEnd rightEnd : ℕ) : ℕ → ℕ → ℕ → ℕ → List α → List α
  | 0, _, _, _, dst => dst
  | n + 1, dstIndex, left, right, dst =>
    if right < rightEnd ∧
        (left ≥ leftEnd ∨ (comparator (src.getD right default) (src.getD left default)).takesRight) then
      mergeLoop leftEnd rightEnd n (dstIndex + 1) left (right + 1) (dst.set dstIndex (src.getD right default))
    else
      mergeLoop leftEnd rightEnd n (dstIndex + 1) (left + 1) right (dst.set dstIndex (src.getD left default))

def sortMerge (dst : List α) (srcIndex srcEnd width : ℕ) : List α :=
  let leftEnd := min (srcIndex + width) srcEnd
  let rightEnd := min (leftEnd + width) srcEnd
  mergeLoop src comparator leftEnd rightEnd (rightEnd - srcIndex) srcIndex srcIndex leftEnd dst

def mergePass (valueCount width : ℕ) : ℕ → ℕ → List α → Option (List α)
  | 0, _, _ => none
  | fuel + 1, srcIndex, dst =>
    if srcIndex < valueCount then
      mergePass valueCount width fuel (srcIndex + 2 * width) (sortMerge src comparator dst srcIndex valueCount width)
    else some dst

end Functions

section Passes

variable [Inhabited α] (comparator : α → α → ComparisonResult)

/-- The passes of `sortMergeSort`. After each the arrays change places. -/
def mergePasses (valueCount fuel : ℕ) : ℕ → ℕ → List α → List α → Option (List α)
  | 0, _, _, _ => none
  | n + 1, width, src, dst =>
    if width < valueCount then do
      let dst ← mergePass src comparator valueCount width fuel 0 dst
      mergePasses valueCount fuel n (width * 2) dst src
    else some src

def sortMergeSort (fuel : ℕ) (array : List α) : Option (List α) :=
  mergePasses comparator array.length fuel fuel 1 array (List.replicate array.length default)

end Passes

/-! ### What a comparator says -/

/-- The comparator returns numbers, and is negative exactly when its first argument comes strictly first in
the total preorder `le`. -/
structure Induces (comparator : α → α → ComparisonResult) (le : α → α → Bool) : Prop where
  number : ∀ x y, ∃ r, comparator x y = .number r
  lt_zero : ∀ x y r, comparator x y = .number r → (r.lt (.fin 0) = true ↔ le y x = false)
  trans : ∀ x y z, le x y = true → le y z = true → le x z = true
  total : ∀ x y, (le x y || le y x) = true

theorem Induces.takesRight {comparator : α → α → ComparisonResult} {le : α → α → Bool}
    (h : Induces comparator le) (x y : α) : (comparator y x).takesRight = !le x y := by
  obtain ⟨r, hr⟩ := h.number y x
  have hlt := h.lt_zero y x r hr
  rw [hr, ComparisonResult.takesRight]
  cases hle : le x y with
  | true =>
    rw [hle] at hlt
    exact Bool.eq_false_iff.mpr fun hneg => Bool.noConfusion (hlt.mp hneg)
  | false => exact hlt.mpr hle

/-! ### One merge -/

section Merge

variable {src : List α} {comparator : α → α → ComparisonResult} {le : α → α → Bool}
  {left leftEnd right rightEnd n srcIndex width : ℕ}

def run (l : List α) (i j : ℕ) : List α := (l.drop i).take (j - i)

theorem run_eq_nil {l : List α} {i j : ℕ} (h : j ≤ i) : run l i j = [] := by
  rw [run, Nat.sub_eq_zero_of_le h, List.take_zero]

theorem run_eq_cons [Inhabited α] {l : List α} {i j : ℕ} (h : i < j) (hj : j ≤ l.length) :
    run l i j = l.getD i default :: run l (i + 1) j := by
  have hi : i < l.length := by omega
  obtain ⟨k, hk⟩ : ∃ k, j - i = k + 1 := ⟨j - i - 1, by omega⟩
  have hget : l.getD i default = l[i] := by simp [hi]
  rw [run, run, hk, List.drop_eq_getElem_cons hi, List.take_succ_cons, hget, show j - (i + 1) = k by omega]

theorem length_run {l : List α} {i j : ℕ} (hj : j ≤ l.length) : (run l i j).length = j - i := by
  rw [run, List.length_take, List.length_drop]
  omega

theorem set_append_cons (pre mid post : List α) (x v : α) :
    (pre ++ x :: mid ++ post).set pre.length v = (pre ++ [v]) ++ mid ++ post := by
  simp

theorem mergeLoop_eq [Inhabited α] (h : Induces comparator le) (hleftEnd : leftEnd ≤ src.length)
    (hrightEnd : rightEnd ≤ src.length) {pre mid post : List α} (hleft : left ≤ leftEnd)
    (hright : right ≤ rightEnd) (hn : n = (leftEnd - left) + (rightEnd - right)) (hmid : mid.length = n) :
    mergeLoop src comparator leftEnd rightEnd n pre.length left right (pre ++ mid ++ post) =
      pre ++ (run src left leftEnd).merge (run src right rightEnd) le ++ post := by
  induction n generalizing pre mid left right with
  | zero =>
    rw [run_eq_nil (by omega), run_eq_nil (by omega), List.nil_merge, List.eq_nil_of_length_eq_zero hmid]
    rfl
  | succ n ih =>
    obtain ⟨x, mid, rfl⟩ := List.exists_cons_of_length_eq_add_one hmid
    have hlength : mid.length = n := Nat.succ.inj hmid
    rw [mergeLoop, set_append_cons, set_append_cons]
    -- the two ways on, with what they leave in front
    have takeRight : ∀ v, right < rightEnd →
        mergeLoop src comparator leftEnd rightEnd n (pre.length + 1) left (right + 1) (pre ++ [v] ++ mid ++ post) =
          (pre ++ [v]) ++ (run src left leftEnd).merge (run src (right + 1) rightEnd) le ++ post := by
      intro v hlt
      have := @ih left (right + 1) (pre ++ [v]) mid hleft hlt (by omega) hlength
      rwa [List.length_append] at this
    have takeLeft : ∀ v, left < leftEnd →
        mergeLoop src comparator leftEnd rightEnd n (pre.length + 1) (left + 1) right (pre ++ [v] ++ mid ++ post) =
          (pre ++ [v]) ++ (run src (left + 1) leftEnd).merge (run src right rightEnd) le ++ post := by
      intro v hlt
      have := @ih (left + 1) right (pre ++ [v]) mid hlt hright (by omega) hlength
      rwa [List.length_append] at this
    by_cases hr : right < rightEnd
    · by_cases hl : left < leftEnd
      · rw [h.takesRight, run_eq_cons hl hleftEnd, run_eq_cons hr hrightEnd, List.cons_merge_cons]
        by_cases hle : le (src.getD left default) (src.getD right default) = true
        · have hstay : ¬ (!le (src.getD left default) (src.getD right default)) = true := by
            rw [hle]
            exact Bool.false_ne_true
          rw [if_neg fun hif => hif.2.elim (by omega) hstay, if_pos hle, takeLeft _ hl,
            ← run_eq_cons hr hrightEnd]
          simp
        · have hgo : (!le (src.getD left default) (src.getD right default)) = true := by
            rw [(Bool.not_eq_true _).mp hle]
            rfl
          rw [if_pos ⟨hr, Or.inr hgo⟩, if_neg hle, takeRight _ hr, ← run_eq_cons hl hleftEnd]
          simp
      · rw [if_pos ⟨hr, Or.inl (by omega)⟩, takeRight _ hr, run_eq_nil (by omega), run_eq_cons hr hrightEnd,
          List.nil_merge, List.nil_merge]
        simp
    · have hl : left < leftEnd := by omega
      rw [if_neg (by omega), takeLeft _ hl, run_eq_nil (i := right) (by omega), run_eq_cons hl hleftEnd,
        List.merge_right, List.merge_right]
      simp

theorem sortMerge_eq [Inhabited α] (h : Induces comparator le) {dst : List α}
    (hlength : dst.length = src.length) (hindex : srcIndex ≤ src.length) :
    sortMerge src comparator dst srcIndex src.length width =
      dst.take srcIndex ++ ((src.drop srcIndex).take width).merge ((src.drop (srcIndex + width)).take width) le ++
        dst.drop (srcIndex + 2 * width) := by
  set leftEnd := min (srcIndex + width) src.length with hleftEnd
  set rightEnd := min (leftEnd + width) src.length with hrightEnd
  have hleft : run src srcIndex leftEnd = (src.drop srcIndex).take width := by
    rw [run, List.take_eq_take_iff, List.length_drop]
    omega
  have hright : run src leftEnd rightEnd = (src.drop (srcIndex + width)).take width := by
    by_cases hw : srcIndex + width ≤ src.length
    · rw [run, show leftEnd = srcIndex + width by omega, List.take_eq_take_iff, List.length_drop]
      omega
    · rw [run_eq_nil (by omega), List.drop_eq_nil_of_le (by omega), List.take_nil]
  have hend : dst.drop rightEnd = dst.drop (srcIndex + 2 * width) := by
    by_cases hw : srcIndex + 2 * width ≤ src.length
    · rw [show rightEnd = srcIndex + 2 * width by omega]
    · rw [List.drop_eq_nil_of_le (by omega), List.drop_eq_nil_of_le (by omega)]
  have hsplit : dst.take srcIndex ++ run dst srcIndex rightEnd ++ dst.drop rightEnd = dst := by
    have hdrop : dst.drop rightEnd = (dst.drop srcIndex).drop (rightEnd - srcIndex) := by
      rw [List.drop_drop, show srcIndex + (rightEnd - srcIndex) = rightEnd by omega]
    rw [run, hdrop, List.append_assoc, List.take_append_drop, List.take_append_drop]
  have hpre : (dst.take srcIndex).length = srcIndex := by
    rw [List.length_take]
    omega
  have hcount : rightEnd - srcIndex = leftEnd - srcIndex + (rightEnd - leftEnd) := by omega
  have hmid : (run dst srcIndex rightEnd).length = rightEnd - srcIndex := length_run (by omega)
  calc sortMerge src comparator dst srcIndex src.length width
      = mergeLoop src comparator leftEnd rightEnd (rightEnd - srcIndex) (dst.take srcIndex).length srcIndex
          leftEnd (dst.take srcIndex ++ run dst srcIndex rightEnd ++ dst.drop rightEnd) := by
        rw [hsplit, hpre, sortMerge]
    _ = _ := by
        rw [mergeLoop_eq h (by omega) (by omega) (by omega) (by omega) hcount hmid, hleft, hright, hend]

end Merge

/-! ### Passes -/

section Passes

variable [Inhabited α] {src dst array : List α} {comparator : α → α → ComparisonResult} {le : α → α → Bool}
  {width k : ℕ}

omit [Inhabited α] in
theorem block_append_left {pre post : List α} {w j : ℕ} (h : (j + 1) * w ≤ pre.length) :
    block (pre ++ post) w j = block pre w j := by
  have hw : j * w + w ≤ pre.length := by rwa [← Nat.succ_mul]
  rw [block, block, List.drop_append_of_le_length (by omega), List.take_append_of_le_length]
  rw [List.length_drop]
  omega

theorem sortMerge_block (h : Induces comparator le) (hblocks : SortedBlocks le width array src)
    (hlength : dst.length = src.length) (hindex : k * (2 * width) ≤ src.length)
    (hbefore : ∀ j < k, IsStableSort le (block array (2 * width) j) (block dst (2 * width) j)) :
    ∀ j < k + 1, IsStableSort le (block array (2 * width) j)
      (block (sortMerge src comparator dst (k * (2 * width)) src.length width) (2 * width) j) := by
  intro j hj
  rw [sortMerge_eq h hlength hindex]
  have hpre : (dst.take (k * (2 * width))).length = k * (2 * width) := by
    rw [List.length_take]
    omega
  rcases Nat.lt_succ_iff_lt_or_eq.mp hj with hj | rfl
  · have hle : (j + 1) * (2 * width) ≤ k * (2 * width) := Nat.mul_le_mul_right _ hj
    rw [List.append_assoc, block_append_left (by rw [hpre]; exact hle)]
    have hsame : block (dst.take (k * (2 * width)) ++ dst.drop (k * (2 * width))) (2 * width) j =
        block (dst.take (k * (2 * width))) (2 * width) j := block_append_left (by rw [hpre]; exact hle)
    rw [List.take_append_drop] at hsame
    rw [← hsame]
    exact hbefore j hj
  · rw [block_double]
    have hmerge := IsStableSort.merge h.trans h.total (hblocks.block (2 * j)) (hblocks.block (2 * j + 1))
    have heven : (src.drop (j * (2 * width))).take width = block src width (2 * j) := by
      rw [block, show j * (2 * width) = 2 * j * width by ring]
    have hodd : (src.drop (j * (2 * width) + width)).take width = block src width (2 * j + 1) := by
      rw [block, show j * (2 * width) + width = (2 * j + 1) * width by ring]
    rw [heven, hodd]
    set merged := (block src width (2 * j)).merge (block src width (2 * j + 1)) le with hmerged
    have hcount : merged.length = min (2 * width) (src.length - j * (2 * width)) := by
      rw [hmerged, List.length_merge, ← heven, ← hodd, List.length_take, List.length_take, List.length_drop,
        List.length_drop]
      omega
    have hblock : block (dst.take (j * (2 * width)) ++ merged ++ dst.drop (j * (2 * width) + 2 * width))
        (2 * width) j = merged := by
      rw [block, List.append_assoc, List.drop_append_of_le_length hpre.ge, List.drop_eq_nil_of_le hpre.le,
        List.nil_append]
      by_cases hfull : j * (2 * width) + 2 * width ≤ src.length
      · rw [List.take_append_of_le_length (by omega), List.take_of_length_le (by omega)]
      · rw [List.drop_eq_nil_of_le (by omega), List.append_nil, List.take_of_length_le (by omega)]
    rw [hblock]
    exact hmerge

theorem length_sortMerge (h : Induces comparator le) {srcIndex : ℕ} (hlength : dst.length = src.length)
    (hindex : srcIndex ≤ src.length) :
    (sortMerge src comparator dst srcIndex src.length width).length = src.length := by
  rw [sortMerge_eq h hlength hindex, List.length_append, List.length_append, List.length_merge, List.length_take,
    List.length_take, List.length_take, List.length_drop, List.length_drop, List.length_drop]
  omega

theorem exists_mergePass (h : Induces comparator le) (hblocks : SortedBlocks le width array src)
    (hwidth : 0 < width) {fuel : ℕ} (hfuel : src.length - k * (2 * width) < fuel)
    (hlength : dst.length = src.length)
    (hbefore : ∀ j < k, IsStableSort le (block array (2 * width) j) (block dst (2 * width) j)) :
    ∃ out, mergePass src comparator src.length width fuel (k * (2 * width)) dst = some out ∧
      SortedBlocks le (2 * width) array out := by
  induction fuel generalizing k dst with
  | zero => exact absurd hfuel (Nat.not_lt_zero _)
  | succ fuel ih =>
    rw [mergePass]
    by_cases hindex : k * (2 * width) < src.length
    · have hnext : k * (2 * width) + 2 * width = (k + 1) * (2 * width) := (Nat.succ_mul _ _).symm
      rw [if_pos hindex, hnext]
      exact ih (by omega) (length_sortMerge h hlength hindex.le) (sortMerge_block h hblocks hlength hindex.le hbefore)
    · rw [if_neg hindex]
      refine ⟨dst, rfl, hlength.trans hblocks.length, fun j => ?_⟩
      by_cases hj : j < k
      · exact hbefore j hj
      · -- the block is past the end
        have hend : src.length ≤ j * (2 * width) :=
          (not_lt.mp hindex).trans (Nat.mul_le_mul_right _ (not_lt.mp hj))
        rw [block_eq_nil (by rw [← hblocks.length]; exact hend), block_eq_nil (by rw [hlength]; exact hend)]
        exact IsStableSort.of_length_le_one (Nat.zero_le 1)

theorem exists_mergePasses (h : Induces comparator le) {fuel n : ℕ} (hfuel : array.length < fuel)
    (hn : array.length - width < n) (hwidth : 0 < width) (hblocks : SortedBlocks le width array src)
    (hlength : dst.length = src.length) :
    ∃ out, mergePasses comparator array.length fuel n width src dst = some out ∧ IsStableSort le array out := by
  induction n generalizing width src dst with
  | zero => exact absurd hn (Nat.not_lt_zero _)
  | succ n ih =>
    rw [mergePasses]
    by_cases hlt : width < array.length
    · obtain ⟨out, hpass, hout⟩ := @exists_mergePass _ _ src dst array comparator le width 0 h hblocks hwidth
        fuel (by rw [hblocks.length]; omega) hlength (fun j hj => absurd hj (Nat.not_lt_zero j))
      rw [Nat.zero_mul, hblocks.length] at hpass
      rw [if_pos hlt, hpass, Option.bind_eq_bind, Option.bind_some, Nat.mul_comm]
      exact ih (by omega) (by omega) hout (hblocks.length.trans hout.length.symm)
    · rw [if_neg hlt]
      exact ⟨src, rfl, hblocks.isStableSort (not_lt.mp hlt)⟩

end Passes

theorem exists_sortMergeSort [Inhabited α] {comparator : α → α → ComparisonResult} {le : α → α → Bool}
    (h : Induces comparator le) {array : List α} {fuel : ℕ} (hfuel : array.length < fuel) :
    ∃ out, sortMergeSort comparator fuel array = some out ∧ IsStableSort le array out :=
  exists_mergePasses h hfuel (by omega) Nat.one_pos (SortedBlocks.one array) List.length_replicate

/-- **Merge sort** ends, and its result is the stable sort of the array, whatever its length. -/
theorem sortMergeSort_isStableSort [Inhabited α] {comparator : α → α → ComparisonResult} {le : α → α → Bool}
    (h : Induces comparator le) (array : List α) :
    ∃ out, IsStableSort le array out ∧
      ∀ fuel, array.length < fuel → sortMergeSort comparator fuel array = some out := by
  obtain ⟨out, -, hout⟩ := exists_sortMergeSort h (Nat.lt_succ_self array.length)
  refine ⟨out, hout, fun fuel hfuel => ?_⟩
  obtain ⟨out', hrun, hout'⟩ := exists_sortMergeSort h hfuel
  have hrefl : ∀ x, le x x = true := fun x => by simpa using h.total x x
  rw [hrun, hout'.unique hrefl hout]

/-- Five numbers compared by their tens, in two runs of four and one. -/
theorem sortMergeSort_tens : ∃ out, IsStableSort (fun x y : ℕ => x / 10 ≤ y / 10) [31, 12, 30, 11, 25] out ∧
    ∀ fuel, 5 < fuel →
      sortMergeSort (fun x y : ℕ => .number (.ofInt ((x / 10 : ℕ) - (y / 10 : ℕ) : ℤ))) fuel
        [31, 12, 30, 11, 25] = some out := by
  refine sortMergeSort_isStableSort ⟨fun x y => ⟨_, rfl⟩, ?_, ?_, ?_⟩ [31, 12, 30, 11, 25]
  · intro x y r hr
    cases hr
    have hlt : (F64.ofInt ((x / 10 : ℕ) - (y / 10 : ℕ) : ℤ)).lt (.fin 0) =
        decide ((((x / 10 : ℕ) - (y / 10 : ℕ) : ℤ) : ℚ) < 0) := rfl
    rw [hlt, decide_eq_true_iff, decide_eq_false_iff_not, not_le, Int.cast_lt_zero, sub_neg, Nat.cast_lt]
  · intro x y z hxy hyz
    exact decide_eq_true ((of_decide_eq_true hxy).trans (of_decide_eq_true hyz))
  · intro x y
    rw [Bool.or_eq_true, decide_eq_true_iff, decide_eq_true_iff]
    exact Nat.le_total _ _

end Starlight
