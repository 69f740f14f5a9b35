import Mathlib.Tactic.Common

/-!
# Transducers

A deterministic machine that answers each input. A step that the machine cannot take gives `none`.

`run_simulates` is the refinement rule: what a step of one machine preserves of its relation to another one
holds along a whole run, and the answers correspond. The rule asks for the step only where the run meets a
condition.
-/

namespace Starlight

structure Transducer (ι ω σ : Type) where
  step : σ → ι → Option (ω × σ)

namespace Transducer

variable {ι ω σ ι' ω' τ : Type} (M : Transducer ι ω σ)

/-- The answers of a run, and the state after it. -/
def run : σ → List ι → Option (List ω × σ)
  | s, [] => some ([], s)
  | s, i :: is => (M.step s i).bind fun x => (run x.2 is).map fun y => (x.1 :: y.1, y.2)

/-- Each step of the run meets the condition in the state that it is taken in. -/
def Along (P : σ → ι → Prop) : σ → List ι → Prop
  | _, [] => True
  | s, i :: is => P s i ∧ ∀ x, M.step s i = some x → Along P x.2 is

variable {M} {N : Transducer ι' ω' τ} {s s' : σ} {t : τ} {i : ι} {is : List ι}

theorem along_of_forall {P : σ → ι → Prop} (h : ∀ s i, P s i) : M.Along P s is := by
  induction is generalizing s with
  | nil => trivial
  | cons i is ih => exact ⟨h s i, fun _ _ => ih⟩

/-- A machine that can take every step runs to the end. -/
theorem run_isSome (h : ∀ s i, (M.step s i).isSome) (s : σ) (is : List ι) : (M.run s is).isSome := by
  induction is generalizing s with
  | nil => rfl
  | cons i is ih =>
    obtain ⟨x, hx⟩ := Option.isSome_iff_exists.mp (h s i)
    rw [run, hx, Option.bind_some, Option.isSome_map]
    exact ih x.2

/-- Related computations that may fail, one after the other. -/
theorem rel_bind {α β γ δ : Type} {r : α → β → Prop} {q : γ → δ → Prop} {x : Option α} {y : Option β}
    {f : α → Option γ} {g : β → Option δ} (h : Option.Rel r x y)
    (hfg : ∀ {a b}, x = some a → r a b → Option.Rel q (f a) (g b)) :
    Option.Rel q (x.bind f) (y.bind g) := by
  cases h with
  | none => exact .none
  | some hr => exact hfg rfl hr

theorem exists_of_rel {α β : Type} {r : α → β → Prop} {a : α} {y : Option β} (h : Option.Rel r (some a) y) :
    ∃ b, y = some b ∧ r a b := by
  cases h with
  | some hr => exact ⟨_, rfl, hr⟩

/-- **Refinement.** -/
theorem run_simulates {R : σ → τ → Prop} {P : σ → ι → Prop} {f : ι → ι'} {g : ω → ω'}
    (hstep : ∀ {s t i}, R s t → P s i →
      Option.Rel (fun x y => y.1 = g x.1 ∧ R x.2 y.2) (M.step s i) (N.step t (f i)))
    (h : R s t) (hP : M.Along P s is) :
    Option.Rel (fun x y => y.1 = x.1.map g ∧ R x.2 y.2) (M.run s is) (N.run t (is.map f)) := by
  induction is generalizing s t with
  | nil => exact .some ⟨rfl, h⟩
  | cons i is ih =>
    refine rel_bind (hstep h hP.1) fun {x y} hx ⟨hout, hR⟩ => ?_
    rw [Option.map_eq_bind, Option.map_eq_bind]
    refine rel_bind (ih hR (hP.2 x hx)) fun {x' y'} _ ⟨houts, hR'⟩ => .some ⟨?_, hR'⟩
    exact congrArg₂ List.cons hout houts

/-- A state that a run does not leave, with an answer to every input. -/
theorem run_invariant {I : σ → Prop} {Q : ι → ω → Prop}
    (hstep : ∀ {s i x}, I s → M.step s i = some x → I x.2 ∧ Q i x.1) (hs : I s) {y : List ω × σ}
    (h : M.run s is = some y) : I y.2 ∧ List.Forall₂ Q is y.1 := by
  induction is generalizing s y with
  | nil =>
    cases h
    exact ⟨hs, .nil⟩
  | cons i is ih =>
    obtain ⟨x, hx, h⟩ := Option.bind_eq_some_iff.mp h
    obtain ⟨y', hy, rfl⟩ := Option.map_eq_some_iff.mp h
    obtain ⟨hI, hQ⟩ := hstep hs hx
    obtain ⟨hI', hQ'⟩ := ih hI hy
    exact ⟨hI', .cons hQ hQ'⟩

end Transducer

end Starlight
