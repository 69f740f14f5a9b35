import Mathlib.Data.Option.Basic
import Mathlib.Data.Nat.Notation

/-!
# Loops with fuel

A loop takes steps until one of them is the last. Run with fuel it is a function by structural recursion;
that it ends with a result is that some fuel gives this result, and does not depend on which.
-/

namespace Starlight

/-- The function `f` takes steps until one gives a result, and at most as many as it has fuel. -/
structure IsLoop {σ ρ : Type*} (step : σ → Option (ρ ⊕ σ)) (f : ℕ → σ → Option ρ) : Prop where
  zero : ∀ a, f 0 a = none
  succ : ∀ n a, f (n + 1) a = (step a).bind (Sum.elim some (f n))

namespace IsLoop

variable {σ ρ : Type*} {step : σ → Option (ρ ⊕ σ)} {f : ℕ → σ → Option ρ} {a b : σ} {x y : ρ} {n : ℕ}

/-- The step is the last one. -/
theorem exists_iff_of_inl (hf : IsLoop step f) (h : step a = some (.inl y)) :
    (∃ n, f n a = some x) ↔ x = y := by
  constructor
  · rintro ⟨n, hn⟩
    cases n with
    | zero =>
      rw [hf.zero] at hn
      cases hn
    | succ n =>
      rw [hf.succ, h] at hn
      exact (Option.some.inj hn).symm
  · rintro rfl
    exact ⟨1, by rw [hf.succ, h]; rfl⟩

theorem exists_iff_of_inr (hf : IsLoop step f) (h : step a = some (.inr b)) :
    (∃ n, f n a = some x) ↔ ∃ n, f n b = some x := by
  constructor
  · rintro ⟨n, hn⟩
    cases n with
    | zero =>
      rw [hf.zero] at hn
      cases hn
    | succ n =>
      rw [hf.succ, h] at hn
      exact ⟨n, hn⟩
  · rintro ⟨n, hn⟩
    exact ⟨n + 1, by rw [hf.succ, h]; exact hn⟩

/-- What every step keeps holds at the last one. -/
theorem invariant (hf : IsLoop step f) {I : σ → Prop} {P : ρ → Prop}
    (hstep : ∀ {a b}, I a → step a = some (.inr b) → I b)
    (hlast : ∀ {a x}, I a → step a = some (.inl x) → P x) (hI : I a) (h : f n a = some x) : P x := by
  induction n generalizing a with
  | zero =>
    rw [hf.zero] at h
    cases h
  | succ n ih =>
    rw [hf.succ] at h
    obtain ⟨r, hr, h⟩ := Option.bind_eq_some_iff.mp h
    cases r with
    | inl y =>
      obtain rfl := Option.some.inj h
      exact hlast hI hr
    | inr b => exact ih (hstep hI hr) h

/-- The result does not depend on the fuel. -/
theorem unique (hf : IsLoop step f) {k : ℕ} (h : f n a = some x) (h' : f k a = some y) : x = y := by
  induction n generalizing a k with
  | zero =>
    rw [hf.zero] at h
    cases h
  | succ n ih =>
    cases k with
    | zero =>
      rw [hf.zero] at h'
      cases h'
    | succ k =>
      rw [hf.succ] at h h'
      obtain ⟨r, hr, h⟩ := Option.bind_eq_some_iff.mp h
      rw [hr, Option.bind_some] at h'
      cases r with
      | inl z => exact (Option.some.inj h).symm.trans (Option.some.inj h')
      | inr b => exact ih h h'

end IsLoop

end Starlight
