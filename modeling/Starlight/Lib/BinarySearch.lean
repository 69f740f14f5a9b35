import Mathlib.Data.List.Sort

/-!
# Binary search

The search of a sorted vector halves a window `[left, right)` until it meets the element or the window
is empty. On a strictly sorted vector a hit is at the element, and a miss is at the place that keeps the
vector sorted.
-/

namespace Starlight

variable {α : Type} [LinearOrder α] {v : List α} {x : α}

/-- The loop of the search; `.ok` is the place of the element, `.error` where it would go. -/
def bisect (v : List α) (x : α) (left right : ℕ) (h : right ≤ v.length) : Except ℕ ℕ :=
  if hlt : left < right then
    let mid := left + (right - left) / 2
    have hmid : mid < v.length := by omega
    if v[mid] < x then bisect v x (mid + 1) right h
    else if x < v[mid] then bisect v x left mid hmid.le
    else .ok mid
  else .error left
termination_by right - left

def binarySearch (v : List α) (x : α) : Except ℕ ℕ := bisect v x 0 v.length le_rfl

/-- What a search may answer. -/
def Located (v : List α) (x : α) : Except ℕ ℕ → Prop
  | .ok i => ∃ h : i < v.length, v[i] = x
  | .error i => i ≤ v.length ∧ (∀ y ∈ v.take i, y < x) ∧ ∀ y ∈ v.drop i, x < y

theorem located_bisect (hv : v.Pairwise (· < ·)) (left right : ℕ) (h : right ≤ v.length)
    (hle : left ≤ right) (hleft : ∀ y ∈ v.take left, y < x) (hright : ∀ y ∈ v.drop right, x < y) :
    Located v x (bisect v x left right h) := by
  fun_induction bisect v x left right h with
  | case1 left right h hlt mid hmid hless ih =>
    refine ih (by omega) (fun y hy => ?_) hright
    have hsplit := hv.sublist (List.take_sublist (mid + 1) v)
    rw [← List.take_append_getElem hmid] at hy hsplit
    rcases List.mem_append.mp hy with hy | hy
    · exact ((List.pairwise_append.mp hsplit).2.2 y hy _ (List.mem_singleton_self _)).trans hless
    · rw [List.mem_singleton.mp hy]
      exact hless
  | case2 left right h hlt mid hmid _ hgreater ih =>
    refine ih (by omega) hleft fun y hy => ?_
    have hsplit := hv.sublist (List.drop_sublist mid v)
    rw [List.drop_eq_getElem_cons hmid] at hy hsplit
    rcases List.mem_cons.mp hy with rfl | hy
    · exact hgreater
    · exact hgreater.trans (List.rel_of_pairwise_cons hsplit hy)
  | case3 left right h hlt mid hmid hless hgreater =>
    exact ⟨hmid, le_antisymm (not_lt.mp hgreater) (not_lt.mp hless)⟩
  | case4 left right h hlt =>
    obtain rfl : left = right := by omega
    exact ⟨h, hleft, hright⟩

theorem located_binarySearch (hv : v.Pairwise (· < ·)) (x : α) :
    Located v x (binarySearch v x) :=
  located_bisect hv 0 v.length le_rfl (Nat.zero_le _) (by simp) (by simp)

/-- A search that misses says that the element is not there. -/
theorem Located.not_mem {i : ℕ} (h : Located v x (.error i)) : x ∉ v := by
  intro hx
  rw [← List.take_append_drop i v] at hx
  rcases List.mem_append.mp hx with hx | hx
  · exact lt_irrefl _ (h.2.1 x hx)
  · exact lt_irrefl _ (h.2.2 x hx)

theorem insertIdx_eq_append {β : Type} {v : List β} {x : β} {i : ℕ} (hi : i ≤ v.length) :
    v.insertIdx i x = v.take i ++ x :: v.drop i := by
  induction v generalizing i with
  | nil =>
    obtain rfl := Nat.le_zero.mp hi
    rfl
  | cons y v ih =>
    cases i with
    | zero => rfl
    | succ i => exact congrArg (y :: ·) (ih (Nat.le_of_succ_le_succ hi))

end Starlight
