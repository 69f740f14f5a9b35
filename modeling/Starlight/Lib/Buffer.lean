import Mathlib.Tactic.Common

/-!
# Buffers

A block of memory with a fixed number of cells. A write outside the block has no result. The loops that
fill a range and that copy a range go cell by cell, in the order in which a program writes them, so that
a range may be copied over itself: what is read is what the loop has left there.

A forward copy is right when the destination does not start inside the source, a backward copy (whose
destination is given by its end) when it does not end inside it.
-/

namespace Starlight

/-- A block of `size` cells. -/
structure Buffer (α : Type) where
  size : ℕ
  cell : ℕ → α

namespace Buffer

variable {α : Type} {b b' : Buffer α} {v : α} {n start first result : ℕ}

/-- Write one cell. -/
def write (b : Buffer α) (i : ℕ) (v : α) : Option (Buffer α) :=
  if i < b.size then some { b with cell := Function.update b.cell i v } else none

def fill (v : α) : ℕ → Buffer α → ℕ → Option (Buffer α)
  | 0, b, _ => some b
  | n + 1, b, start => do
    let b ← b.write start v
    fill v n b (start + 1)

def copy : ℕ → Buffer α → ℕ → ℕ → Option (Buffer α)
  | 0, b, _, _ => some b
  | n + 1, b, first, result => do
    let b ← b.write result (b.cell first)
    copy n b (first + 1) (result + 1)

def copyBackward : ℕ → Buffer α → ℕ → ℕ → Option (Buffer α)
  | 0, b, _, _ => some b
  | _ + 1, _, _, 0 => none
  | n + 1, b, first, result + 1 => do
    let b ← b.write result (b.cell (first + n))
    copyBackward n b first result

def copyFrom (source : Buffer α) : ℕ → Buffer α → ℕ → ℕ → Option (Buffer α)
  | 0, b, _, _ => some b
  | n + 1, b, first, result => do
    let b ← b.write result (source.cell first)
    copyFrom source n b (first + 1) (result + 1)

theorem write_eq {i : ℕ} (h : i < b.size) (v : α) :
    b.write i v = some { b with cell := Function.update b.cell i v } := if_pos h

/-- **Filling a range** changes the range. -/
theorem fill_eq (h : start + n ≤ b.size) : fill v n b start =
    some { b with cell := fun i => if start ≤ i ∧ i < start + n then v else b.cell i } := by
  induction n generalizing b start with
  | zero =>
    have hnone : ∀ i, ¬ (start ≤ i ∧ i < start + 0) := fun i => by omega
    simp only [fill, hnone, if_false]
  | succ n ih =>
    rw [fill, write_eq (by omega), Option.bind_eq_bind, Option.bind_some,
      ih (b := { b with cell := Function.update b.cell start v }) (by dsimp only; omega)]
    congr 2
    funext i
    dsimp only
    by_cases hi : i = start
    · subst hi
      rw [if_neg (by omega), if_pos (by omega), Function.update_self]
    · rw [Function.update_of_ne hi]
      exact if_congr (by omega) rfl rfl

/-- **An upward copy** moves the range unless the destination starts inside it. -/
theorem copy_eq (h : result + n ≤ b.size) (hdir : result ≤ first ∨ first + n ≤ result) :
    copy n b first result = some { b with cell := fun i =>
      if result ≤ i ∧ i < result + n then b.cell (first + (i - result)) else b.cell i } := by
  induction n generalizing b first result with
  | zero =>
    have hnone : ∀ i, ¬ (result ≤ i ∧ i < result + 0) := fun i => by omega
    simp only [copy, hnone, if_false]
  | succ n ih =>
    rw [copy, write_eq (by omega), Option.bind_eq_bind, Option.bind_some,
      ih (b := { b with cell := Function.update b.cell result (b.cell first) })
        (by dsimp only; omega) (by omega)]
    congr 2
    funext i
    dsimp only
    by_cases hi : i = result
    · subst hi
      rw [if_neg (by omega), if_pos (by omega), Function.update_self, Nat.sub_self, Nat.add_zero]
    · by_cases hin : result + 1 ≤ i ∧ i < result + 1 + n
      · rw [if_pos hin, if_pos (by omega), Function.update_of_ne (by omega)]
        congr 1
        omega
      · rw [if_neg hin, if_neg (by omega), Function.update_of_ne hi]

theorem copyFrom_eq (source : Buffer α) (h : result + n ≤ b.size) :
    copyFrom source n b first result = some { b with cell := fun i =>
      if result ≤ i ∧ i < result + n then source.cell (first + (i - result)) else b.cell i } := by
  induction n generalizing b first result with
  | zero =>
    have hnone : ∀ i, ¬ (result ≤ i ∧ i < result + 0) := fun i => by omega
    simp only [copyFrom, hnone, if_false]
  | succ n ih =>
    rw [copyFrom, write_eq (by omega), Option.bind_eq_bind, Option.bind_some,
      ih (b := { b with cell := Function.update b.cell result (source.cell first) })
        (by dsimp only; omega)]
    congr 2
    funext i
    dsimp only
    by_cases hi : i = result
    · subst hi
      rw [if_neg (by omega), if_pos (by omega), Function.update_self, Nat.sub_self, Nat.add_zero]
    · by_cases hin : result + 1 ≤ i ∧ i < result + 1 + n
      · rw [if_pos hin, if_pos (by omega)]
        congr 1
        omega
      · rw [if_neg hin, if_neg (by omega), Function.update_of_ne hi]

/-! ### Downward copies -/

/-- A downward copy fails when it would write in front of the buffer. -/
theorem copyBackward_eq_none (h : result < n) (hsize : result ≤ b.size) :
    copyBackward n b first result = none := by
  induction n generalizing b result with
  | zero => omega
  | succ n ih =>
    cases result with
    | zero => rfl
    | succ result =>
      rw [copyBackward, write_eq (by omega), Option.bind_eq_bind, Option.bind_some]
      exact ih (by omega) (by dsimp only; omega)

theorem copyBackward_isSome (h : n ≤ result) (hsize : result ≤ b.size) :
    ∃ b', copyBackward n b first result = some b' := by
  induction n generalizing b result with
  | zero => exact ⟨b, rfl⟩
  | succ n ih =>
    obtain ⟨r, rfl⟩ : ∃ r, result = r + 1 := ⟨result - 1, by omega⟩
    rw [copyBackward, write_eq (by omega), Option.bind_eq_bind, Option.bind_some]
    exact ih (by omega) (by dsimp only; omega)

/-- Outside of its destination a downward copy changes nothing. -/
theorem copyBackward_frame (h : copyBackward n b first result = some b') :
    b'.size = b.size ∧ ∀ i, i < result - n ∨ result ≤ i → b'.cell i = b.cell i := by
  induction n generalizing b result with
  | zero =>
    cases h
    exact ⟨rfl, fun _ _ => rfl⟩
  | succ n ih =>
    cases result with
    | zero => exact absurd h (by simp [copyBackward])
    | succ r =>
      rw [copyBackward, Option.bind_eq_bind, Option.bind_eq_some_iff] at h
      obtain ⟨b₁, hw, h⟩ := h
      obtain ⟨hsize, hcell⟩ := ih h
      rw [write] at hw
      split at hw
      · cases hw
        refine ⟨hsize, fun i hi => ?_⟩
        rw [hcell i (by omega)]
        exact Function.update_of_ne (by omega) _ _
      · cases hw

/-- **A downward copy leaves `v` everywhere** just when it reads nothing else: the whole source if the
destination ends above it, otherwise the part of the source from the end of the destination on. -/
theorem copyBackward_const_iff (h : copyBackward n b first result = some b') :
    (∀ i, result - n ≤ i → i < result → b'.cell i = v) ↔
      ∀ x, first ≤ x → x < first + n → (first + n ≤ result ∨ result ≤ x) → b.cell x = v := by
  induction n generalizing b result with
  | zero => exact ⟨fun _ x _ _ => by omega, fun _ i _ _ => by omega⟩
  | succ n ih =>
    cases result with
    | zero => exact absurd h (by simp [copyBackward])
    | succ r =>
      rw [copyBackward, Option.bind_eq_bind, Option.bind_eq_some_iff] at h
      obtain ⟨b₁, hw, h⟩ := h
      have htop : b'.cell r = b₁.cell r := (copyBackward_frame h).2 r (by omega)
      rw [write] at hw
      split at hw
      case isFalse => cases hw
      cases hw
      dsimp only at htop
      rw [Function.update_self] at htop
      have hlow := ih h
      constructor
      · intro hall x hx hlt hdir
        have hlast : b.cell (first + n) = v := by
          rw [← htop]
          exact hall r (by omega) (by omega)
        by_cases hxl : x = first + n
        · rw [hxl, hlast]
        · have hx' := hlow.mp (fun i hi hlt => hall i (by omega) (by omega)) x hx (by omega) (by omega)
          have hkept : x ≠ r := by omega
          dsimp only at hx'
          rwa [Function.update_of_ne hkept] at hx'
      · intro hsource i hi hlt
        have hlast : b.cell (first + n) = v := hsource _ (by omega) (by omega) (by omega)
        by_cases hir : i = r
        · rw [hir, htop, hlast]
        · refine hlow.mpr (fun x hx hlt' hdir => ?_) i (by omega) (by omega)
          dsimp only
          -- the cell that was written last may lie in the source, and holds `v` then
          by_cases hxr : x = r
          · rw [hxr, Function.update_self, hlast]
          · rw [Function.update_of_ne hxr]
            exact hsource x hx (by omega) (by omega)

end Buffer

end Starlight
