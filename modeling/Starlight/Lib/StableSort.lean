import Mathlib.Algebra.Order.BigOperators.Group.List
import Mathlib.Tactic.Ring

/-!
# Stable sorting

`IsStableSort le l l'` says that `l'` is `l` sorted by `le`, and that elements neither of which comes before
the other keep their order. The merge of two sorted lists is sorted so, and so are the blocks of a list of
twice the width when those of the width are.
-/

namespace Starlight

variable {α : Type*} {le : α → α → Bool}

/-- The elements that are as great as `x`. -/
def sameRank (le : α → α → Bool) (x y : α) : Bool := le x y && le y x

/-- `l'` is a permutation of `l`, sorted, and keeps the order of the elements of one rank. -/
structure IsStableSort (le : α → α → Bool) (l l' : List α) : Prop where
  perm : l'.Perm l
  sorted : l'.Pairwise fun x y => le x y = true
  stable : ∀ x, l'.filter (sameRank le x) = l.filter (sameRank le x)

def block (l : List α) (w k : ℕ) : List α := (l.drop (k * w)).take w

structure SortedBlocks (le : α → α → Bool) (w : ℕ) (l l' : List α) : Prop where
  length : l'.length = l.length
  block : ∀ k, IsStableSort le (block l w k) (block l' w k)

namespace IsStableSort

theorem of_length_le_one {l : List α} (h : l.length ≤ 1) : IsStableSort le l l where
  perm := List.Perm.refl l
  sorted := by
    match l, h with
    | [], _ => exact List.Pairwise.nil
    | [x], _ => exact List.pairwise_singleton _ x
  stable _ := rfl

theorem of_sorted {l : List α} (h : l.Pairwise fun x y => le x y = true) : IsStableSort le l l where
  perm := List.Perm.refl l
  sorted := h
  stable _ := rfl

theorem length {l l' : List α} (h : IsStableSort le l l') : l'.length = l.length := h.perm.length_eq

theorem unique {l l' l'' : List α} (hrefl : ∀ x, le x x = true) (h' : IsStableSort le l l')
    (h'' : IsStableSort le l l'') : l' = l'' := by
  induction l' generalizing l l'' with
  | nil => exact (h''.perm.trans h'.perm.symm).eq_nil.symm
  | cons x t ih =>
    have hperm : l''.Perm (x :: t) := h''.perm.trans h'.perm.symm
    cases l'' with
    | nil => exact absurd hperm.symm.eq_nil (List.cons_ne_nil x t)
    | cons y u =>
      have hx := List.pairwise_cons.mp h'.sorted
      have hy := List.pairwise_cons.mp h''.sorted
      -- the two heads are of one rank, and the first elements of it
      have hxy : le x y = true := by
        rcases List.mem_cons.mp (hperm.subset List.mem_cons_self) with rfl | hmem
        · exact hrefl y
        · exact hx.1 y hmem
      have hyx : le y x = true := by
        rcases List.mem_cons.mp (hperm.symm.subset List.mem_cons_self) with rfl | hmem
        · exact hrefl x
        · exact hy.1 x hmem
      have hrankx : sameRank le x x = true := by rw [sameRank, hrefl]; rfl
      have hranky : sameRank le x y = true := by rw [sameRank, hxy, hyx]; rfl
      have hheads := (h'.stable x).trans (h''.stable x).symm
      rw [List.filter_cons_of_pos hrankx, List.filter_cons_of_pos hranky] at hheads
      obtain ⟨rfl, -⟩ := List.cons.inj hheads
      refine congrArg (x :: ·) (ih ⟨List.Perm.refl t, hx.2, fun _ => rfl⟩ ⟨hperm.cons_inv, hy.2, ?_⟩)
      intro z
      have htails := (h''.stable z).trans (h'.stable z).symm
      rw [List.filter_cons, List.filter_cons] at htails
      split at htails
      · exact (List.cons.inj htails).2
      · exact htails

end IsStableSort

section Merge

variable (htrans : ∀ x y z, le x y = true → le y z = true → le x z = true)
  (htotal : ∀ x y, (le x y || le y x) = true)
include htrans

theorem filter_merge (x : α) : ∀ {l m : List α}, l.Pairwise (fun y z => le y z = true) →
    (l.merge m le).filter (sameRank le x) = l.filter (sameRank le x) ++ m.filter (sameRank le x)
  | [], m, _ => by rw [List.nil_merge, List.filter_nil, List.nil_append]
  | y :: l, [], _ => by rw [List.merge_right, List.filter_nil, List.append_nil]
  | y :: l, z :: m, hl => by
    by_cases hyz : le y z = true
    · rw [List.cons_merge_cons_pos _ _ _ hyz, List.filter_cons, List.filter_cons,
        filter_merge x (List.pairwise_cons.mp hl).2]
      split <;> rfl
    · rw [List.cons_merge_cons_neg _ _ _ hyz, List.filter_cons, filter_merge x hl]
      split
      · next hz =>
        -- nothing of the rank of `z` is on the left
        have hnone : (y :: l).filter (sameRank le x) = [] := by
          rw [List.filter_eq_nil_iff]
          intro v hv hrank
          rw [sameRank, Bool.and_eq_true] at hz hrank
          have hvz : le v z = true := htrans v x z hrank.2 hz.1
          rcases List.mem_cons.mp hv with rfl | hv
          · exact hyz hvz
          · exact hyz (htrans y v z ((List.pairwise_cons.mp hl).1 v hv) hvz)
        rw [hnone, List.nil_append, List.nil_append, List.filter_cons, if_pos hz]
      · next hz =>
        rw [List.filter_cons_of_neg hz]

include htotal

theorem IsStableSort.merge {l l' m m' : List α} (hl : IsStableSort le l l') (hm : IsStableSort le m m') :
    IsStableSort le (l ++ m) (l'.merge m' le) where
  perm := (List.merge_perm_append le).trans (hl.perm.append hm.perm)
  sorted := List.pairwise_merge htrans htotal l' m' hl.sorted hm.sorted
  stable x := by rw [filter_merge htrans x hl.sorted, hl.stable, hm.stable, List.filter_append]

end Merge

/-! ### Blocks -/

section Block

variable {l l' : List α} {w k : ℕ}

theorem block_double (l : List α) (w k : ℕ) :
    block l (2 * w) k = block l w (2 * k) ++ block l w (2 * k + 1) := by
  rw [block, block, block, Nat.two_mul w, List.take_add, List.drop_drop]
  congr 3 <;> ring

theorem block_eq_nil (h : l.length ≤ k * w) : block l w k = [] := by
  rw [block, List.drop_eq_nil_of_le h, List.take_nil]

theorem SortedBlocks.one (l : List α) : SortedBlocks le 1 l l where
  length := rfl
  block k := IsStableSort.of_length_le_one (by rw [Starlight.block, List.length_take]; omega)

/-- When one block holds everything, the list is sorted. -/
theorem SortedBlocks.isStableSort (h : SortedBlocks le w l l') (hw : l.length ≤ w) : IsStableSort le l l' := by
  have hzero := h.block 0
  rwa [Starlight.block, Starlight.block, Nat.zero_mul, List.drop_zero, List.drop_zero, List.take_of_length_le hw,
    List.take_of_length_le (by rw [h.length]; exact hw)] at hzero

end Block

/-! ### Buckets -/

section Buckets

variable {l : List α} {rank : α → ℕ} {n : ℕ}

/-- The buckets of a list, one after the other, are the elements that are in one of them. -/
theorem flatMap_filter_perm (l : List α) (rank : α → ℕ) (n : ℕ) :
    ((List.range n).flatMap fun i => l.filter fun x => rank x = i).Perm (l.filter fun x => rank x < n) := by
  induction n with
  | zero => simp
  | succ n ih =>
    have hsplit := List.filter_append_perm (fun x => decide (rank x < n)) (l.filter fun x => rank x < n + 1)
    have hlow : (l.filter fun x => rank x < n + 1).filter (fun x => decide (rank x < n)) =
        l.filter fun x => rank x < n := by
      rw [List.filter_filter]
      refine List.filter_congr fun x _ => ?_
      rw [← Bool.decide_and, decide_eq_decide]
      omega
    have hlast : (l.filter fun x => rank x < n + 1).filter (fun x => !decide (rank x < n)) =
        l.filter fun x => rank x = n := by
      rw [List.filter_filter]
      refine List.filter_congr fun x _ => ?_
      rw [← decide_not, ← Bool.decide_and, decide_eq_decide]
      omega
    rw [hlow, hlast] at hsplit
    rw [List.range_succ, List.flatMap_append, List.flatMap_singleton]
    exact (ih.append_right _).trans hsplit

theorem flatMap_range_eq {f : ℕ → List α} {r : ℕ} (hr : r < n) (hf : ∀ i, i ≠ r → f i = []) :
    (List.range n).flatMap f = f r := by
  induction n with
  | zero => exact absurd hr (Nat.not_lt_zero r)
  | succ n ih =>
    rw [List.range_succ, List.flatMap_append, List.flatMap_singleton]
    rcases Nat.lt_succ_iff_lt_or_eq.mp hr with hlt | rfl
    · rw [ih hlt, hf n hlt.ne', List.append_nil]
    · have hnil : (List.range r).flatMap f = [] :=
        List.flatMap_eq_nil_iff.mpr fun i hi => hf i (List.mem_range.mp hi).ne
      rw [hnil, List.nil_append]

theorem flatMap_range_of_le {f : ℕ → List α} {m : ℕ} (hle : n ≤ m) (hf : ∀ i, n ≤ i → f i = []) :
    (List.range m).flatMap f = (List.range n).flatMap f := by
  induction m, hle using Nat.le_induction with
  | base => rfl
  | succ m hm ih => rw [List.range_succ, List.flatMap_append, List.flatMap_singleton, hf m hm, List.append_nil, ih]

/-- Parts of buckets are no longer than the list, and when they are as long each is a whole bucket and no
element is left out. -/
theorem length_flatMap_le {out : ℕ → List α} (l : List α) (rank : α → ℕ)
    (hout : ∀ i < n, (out i).length ≤ (l.filter fun x => rank x = i).length) :
    ((List.range n).flatMap out).length ≤ l.length ∧
      (((List.range n).flatMap out).length = l.length →
        (∀ x ∈ l, rank x < n) ∧ ∀ i < n, (out i).length = (l.filter fun x => rank x = i).length) := by
  have hbuckets := (flatMap_filter_perm l rank n).length_eq
  have hkept : (l.filter fun x => rank x < n).length ≤ l.length := List.length_filter_le _ _
  rw [List.length_flatMap] at hbuckets ⊢
  have hle : ((List.range n).map fun i => (out i).length).sum ≤
      ((List.range n).map fun i => (l.filter fun x => rank x = i).length).sum :=
    List.sum_le_sum fun i hi => hout i (List.mem_range.mp hi)
  refine ⟨hle.trans (hbuckets.trans_le hkept), fun heq => ⟨?_, ?_⟩⟩
  · have hall : (l.filter fun x => rank x < n).length = l.length := by omega
    exact fun x hx => of_decide_eq_true (List.length_filter_eq_length_iff.mp hall x hx)
  · intro i hi
    refine (hout i hi).antisymm (not_lt.mp fun hlt => ?_)
    have hless := List.sum_lt_sum (fun i => (out i).length)
      (fun i => (l.filter fun x => rank x = i).length) (fun i hi => hout i (List.mem_range.mp hi))
      ⟨i, List.mem_range.mpr hi, hlt⟩
    omega

/-- Sorted buckets, the lower elements in the lower ones, are a sorted list. -/
theorem isStableSort_flatMap (htrans : ∀ x y z, le x y = true → le y z = true → le x z = true)
    (hrank : ∀ x ∈ l, ∀ y ∈ l, rank x < rank y → le x y = true ∧ le y x = false) (hlt : ∀ x ∈ l, rank x < n)
    {out : ℕ → List α} (hout : ∀ i < n, IsStableSort le (l.filter fun x => rank x = i) (out i)) :
    IsStableSort le l ((List.range n).flatMap out) where
  perm := by
    have hperm : ((List.range n).flatMap out).Perm ((List.range n).flatMap fun i => l.filter fun x => rank x = i) :=
      List.Perm.flatMap_left _ fun i hi => (hout i (List.mem_range.mp hi)).perm
    have hall : (l.filter fun x => rank x < n) = l := List.filter_eq_self.mpr fun x hx => decide_eq_true (hlt x hx)
    rw [← hall]
    exact (hperm.trans (flatMap_filter_perm l rank n)).trans (by rw [hall])
  sorted := by
    have hmem : ∀ i < n, ∀ x ∈ out i, x ∈ l ∧ rank x = i := by
      intro i hi x hx
      have hx := (hout i hi).perm.subset hx
      rw [List.mem_filter, decide_eq_true_iff] at hx
      exact hx
    rw [List.flatMap, List.pairwise_flatten]
    refine ⟨fun m hm => ?_, ?_⟩
    · obtain ⟨i, hi, rfl⟩ := List.mem_map.mp hm
      exact (hout i (List.mem_range.mp hi)).sorted
    · rw [List.pairwise_map]
      refine List.pairwise_lt_range.imp_of_mem fun {i j} hi hj hij x hx y hy => ?_
      obtain ⟨hxl, hxi⟩ := hmem i (List.mem_range.mp hi) x hx
      obtain ⟨hyl, hyj⟩ := hmem j (List.mem_range.mp hj) y hy
      exact (hrank x hxl y hyl (by omega)).1
  stable x := by
    have hfilter : ((List.range n).flatMap out).filter (sameRank le x) =
        (List.range n).flatMap fun i => (l.filter (sameRank le x)).filter fun y => rank y = i := by
      rw [List.filter_flatMap, List.flatMap_def, List.flatMap_def]
      congr 1
      refine List.map_congr_left fun i hi => ?_
      rw [(hout i (List.mem_range.mp hi)).stable, List.filter_filter, List.filter_filter]
      simp only [Bool.and_comm]
    rw [hfilter]
    cases hsame : l.filter (sameRank le x) with
    | nil => simp
    | cons y ys =>
      have hmem : ∀ z ∈ y :: ys, z ∈ l ∧ sameRank le x z = true := by
        rw [← hsame]
        exact fun z hz => List.mem_filter.mp hz
      -- all elements of the rank of `x` are in the bucket of the first
      have hone : ∀ z ∈ y :: ys, rank z = rank y := by
        intro z hz
        obtain ⟨hzl, hxz⟩ := hmem z hz
        obtain ⟨hyl, hxy⟩ := hmem y List.mem_cons_self
        rw [sameRank, Bool.and_eq_true] at hxz hxy
        have hzy : le z y = true := htrans z x y hxz.2 hxy.1
        have hyz : le y z = true := htrans y x z hxy.2 hxz.1
        rcases Nat.lt_trichotomy (rank z) (rank y) with h | h | h
        · rw [(hrank z hzl y hyl h).2] at hyz
          cases hyz
        · exact h
        · rw [(hrank y hyl z hzl h).2] at hzy
          cases hzy
      rw [flatMap_range_eq (hlt y (hmem y List.mem_cons_self).1) fun i hi => List.filter_eq_nil_iff.mpr fun z hz h =>
        hi ((of_decide_eq_true h).symm.trans (hone z hz))]
      exact List.filter_eq_self.mpr fun z hz => decide_eq_true (hone z hz)

end Buckets

end Starlight
