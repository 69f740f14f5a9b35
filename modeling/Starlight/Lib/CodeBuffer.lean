import Mathlib.Algebra.GroupWithZero.Nat
import Mathlib.Data.Set.Basic
import Mathlib.Data.List.Infix

/-!
# Code that is emitted and patched

A code buffer is a list of instructions of different sizes, addressed by byte. `fetch` finds the
instruction that starts at an address, `setAt` overwrites it, and new instructions go to the end.

Overwriting by an instruction of the same size changes nothing else.
-/

namespace Starlight

/-- Instructions that take up space. -/
class Sized (ι : Type) where
  size : ι → ℕ
  size_pos : ∀ i, 0 < size i

variable {ι : Type} [Sized ι]

open Sized

def codeSize (c : List ι) : ℕ := (c.map size).sum

/-- The instruction that starts at address `p`. -/
def fetch : List ι → ℕ → Option ι
  | [], _ => none
  | i :: c, p => if p = 0 then some i else if p < size i then none else fetch c (p - size i)

/-- Overwrite the instruction that starts at address `p`. -/
def setAt : List ι → ℕ → ι → List ι
  | [], _, _ => []
  | j :: c, p, i =>
    if p = 0 then i :: c else if p < size j then j :: c else j :: setAt c (p - size j) i

@[simp] theorem codeSize_nil : codeSize ([] : List ι) = 0 := rfl

@[simp] theorem codeSize_cons (i : ι) (c : List ι) : codeSize (i :: c) = size i + codeSize c := by
  simp [codeSize]

@[simp] theorem fetch_cons_zero (i : ι) (c : List ι) : fetch (i :: c) 0 = some i := by
  simp [fetch]

theorem fetch_cons_add (i : ι) (c : List ι) (p : ℕ) : fetch (i :: c) (size i + p) = fetch c p := by
  have := size_pos i
  rw [fetch, if_neg (by omega), if_neg (by omega), Nat.add_sub_cancel_left]

/-- An instruction lies inside the code. -/
theorem fetch_size_le {c : List ι} {p : ℕ} {i : ι} (h : fetch c p = some i) :
    p + size i ≤ codeSize c := by
  induction c generalizing p with
  | nil => cases h
  | cons j c ih =>
    rw [fetch] at h
    split at h
    · next hp =>
      obtain rfl := Option.some_inj.mp h
      simp [hp]
    · split at h
      · cases h
      · have := ih h
        rw [codeSize_cons]
        omega

theorem fetch_lt {c : List ι} {p : ℕ} {i : ι} (h : fetch c p = some i) : p < codeSize c :=
  lt_of_lt_of_le (Nat.lt_add_of_pos_right (size_pos i)) (fetch_size_le h)

theorem fetch_append_left {c d : List ι} {p : ℕ} (h : p < codeSize c) :
    fetch (c ++ d) p = fetch c p := by
  induction c generalizing p with
  | nil => exact absurd h (Nat.not_lt_zero p)
  | cons i c ih =>
    rw [List.cons_append, fetch, fetch]
    rw [codeSize_cons] at h
    split
    · rfl
    · split
      · rfl
      · exact ih (by omega)

theorem fetch_append_right (c d : List ι) (p : ℕ) : fetch (c ++ d) (codeSize c + p) = fetch d p := by
  induction c with
  | nil => rw [List.nil_append, codeSize_nil, Nat.zero_add]
  | cons i c ih => rw [List.cons_append, codeSize_cons, Nat.add_assoc, fetch_cons_add, ih]

/-- The instruction emitted last. -/
@[simp] theorem fetch_concat (c : List ι) (i : ι) : fetch (c ++ [i]) (codeSize c) = some i := by
  have := fetch_append_right c [i] 0
  rwa [Nat.add_zero, fetch_cons_zero] at this

theorem fetch_setAt_self {c : List ι} {p : ℕ} {i j : ι} (hj : fetch c p = some j) :
    fetch (setAt c p i) p = some i := by
  induction c generalizing p with
  | nil => cases hj
  | cons k c ih =>
    rw [fetch] at hj
    rw [setAt]
    split
    · next hp => rw [hp, fetch_cons_zero]
    · next hp =>
      rw [if_neg hp] at hj
      split
      · next hk =>
        rw [if_pos hk] at hj
        cases hj
      · next hk =>
        rw [if_neg hk] at hj
        rw [fetch, if_neg hp, if_neg hk]
        exact ih hj

theorem fetch_setAt_ne {c : List ι} {p q : ℕ} {i j : ι} (hj : fetch c p = some j)
    (hs : size i = size j) (hq : q ≠ p) : fetch (setAt c p i) q = fetch c q := by
  induction c generalizing p q with
  | nil => rfl
  | cons k c ih =>
    rw [fetch] at hj
    rw [setAt]
    split
    · next hp =>
      rw [if_pos hp] at hj
      obtain rfl := Option.some_inj.mp hj
      have hq0 : q ≠ 0 := fun h => hq (h.trans hp.symm)
      rw [fetch, fetch, hs, if_neg hq0, if_neg hq0]
    · next hp =>
      rw [if_neg hp] at hj
      split
      · rfl
      · next hk =>
        rw [if_neg hk] at hj
        rw [fetch, fetch]
        split
        · rfl
        · split
          · rfl
          · exact ih hj (by omega)

end Starlight
