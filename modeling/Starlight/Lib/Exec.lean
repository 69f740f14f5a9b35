import Mathlib.Tactic.Common

/-!
# Executions of stateful code with faults

`Exec ε σ α` is the type of a piece of stateful code: from a state it finishes with a value, stops
with a fault of type `ε`, fails an assertion (`stuck`), or runs forever (`diverge`). The first two
outcomes carry the state they were reached in, so the effects made before a fault are kept.

`Result.Sat r Q E` is the total-correctness reading of an outcome: `Q` holds of a normal end, `E` of
a fault, no assertion failed, and nothing is asked of code that does not end.
-/

namespace Starlight

/-- What running a piece of code can come to. -/
inductive Result (ε σ α : Type) where
  | ok (a : α) (s : σ)
  | error (e : ε) (s : σ)
  | stuck
  | diverge

/-- Code over a state `σ` whose faults have type `ε`. -/
def Exec (ε σ α : Type) := σ → Result ε σ α

namespace Exec

variable {ε σ α β : Type}

/-- Return a value and leave the state alone. -/
def ret (a : α) : Exec ε σ α := fun s => .ok a s

/-- Sequencing: only a normal end continues. -/
def andThen (x : Exec ε σ α) (f : α → Exec ε σ β) : Exec ε σ β := fun s =>
  match x s with
  | .ok a s' => f a s'
  | .error e s' => .error e s'
  | .stuck => .stuck
  | .diverge => .diverge

instance : Monad (Exec ε σ) where
  pure := ret
  bind := andThen

/-- Read a component of the state. -/
def gets (f : σ → α) : Exec ε σ α := fun s => .ok (f s) s

/-- Change the state. -/
def modify (f : σ → σ) : Exec ε σ Unit := fun s => .ok () (f s)

/-- Change the state and return a value computed on the way. -/
def update (f : σ → α × σ) : Exec ε σ α := fun s => .ok (f s).1 (f s).2

/-- Stop with a fault. -/
def fail (e : ε) : Exec ε σ α := fun s => .error e s

/-- A failed assertion. -/
def stuck : Exec ε σ α := fun _ => .stuck

/-- A loop that never ends. -/
def diverge : Exec ε σ α := fun _ => .diverge

/-- Unwrap an optional value; `none` is a failed assertion. -/
def unwrap : Option α → Exec ε σ α
  | some a => ret a
  | none => stuck

@[simp] theorem pure_apply (a : α) (s : σ) : (pure a : Exec ε σ α) s = .ok a s := rfl

@[simp] theorem modify_apply (f : σ → σ) (s : σ) : (modify f : Exec ε σ Unit) s = .ok () (f s) :=
  rfl

@[simp] theorem update_apply (f : σ → α × σ) (s : σ) :
    (update f : Exec ε σ α) s = .ok (f s).1 (f s).2 := rfl

@[simp] theorem fail_apply (e : ε) (s : σ) : (fail e : Exec ε σ α) s = .error e s := rfl

theorem bind_apply (x : Exec ε σ α) (f : α → Exec ε σ β) (s : σ) :
    (x >>= f) s = match x s with
      | .ok a s' => f a s'
      | .error e s' => .error e s'
      | .stuck => .stuck
      | .diverge => .diverge := rfl

theorem bind_of_ok {x : Exec ε σ α} {s s' : σ} {a : α} (h : x s = .ok a s')
    (f : α → Exec ε σ β) : (x >>= f) s = f a s' := by
  rw [bind_apply, h]

theorem bind_bind {γ : Type} (x : Exec ε σ α) (f : α → Exec ε σ β) (g : β → Exec ε σ γ) :
    (x >>= f >>= g) = x >>= fun a => f a >>= g := by
  funext s
  simp only [bind_apply]
  cases x s <;> rfl

@[simp] theorem gets_bind (g : σ → α) (f : α → Exec ε σ β) (s : σ) :
    (gets g >>= f) s = f (g s) s := rfl

@[simp] theorem modify_bind (g : σ → σ) (f : Unit → Exec ε σ β) (s : σ) :
    (modify g >>= f) s = f () (g s) := rfl

@[simp] theorem update_bind (g : σ → α × σ) (f : α → Exec ε σ β) (s : σ) :
    (update g >>= f) s = f (g s).1 (g s).2 := rfl

@[simp] theorem pure_bind_apply (a : α) (f : α → Exec ε σ β) (s : σ) :
    ((pure a : Exec ε σ α) >>= f) s = f a s := rfl

end Exec

namespace Result

variable {ε σ α β : Type}

/-- The outcome `r` meets its specification: a normal end satisfies `Q`, a fault satisfies `E`,
and no assertion failed. Code that does not end meets every specification. -/
def Sat (r : Result ε σ α) (Q : α → σ → Prop) (E : ε → σ → Prop) : Prop :=
  match r with
  | .ok a s => Q a s
  | .error e s => E e s
  | .stuck => False
  | .diverge => True

variable {Q Q' : α → σ → Prop} {E E' : ε → σ → Prop}

/-- The rule of consequence. -/
theorem Sat.mono {r : Result ε σ α} (h : r.Sat Q E) (hQ : ∀ a s, Q a s → Q' a s)
    (hE : ∀ e s, E e s → E' e s) : r.Sat Q' E' := by
  cases r with
  | ok a s => exact hQ a s h
  | error e s => exact hE e s h
  | stuck => exact h
  | diverge => trivial

/-- The sequencing rule. -/
theorem Sat.bind {x : Exec ε σ α} {f : α → Exec ε σ β} {s : σ} {R : β → σ → Prop}
    (hx : (x s).Sat Q E) (hf : ∀ a s', Q a s' → (f a s').Sat R E) :
    ((x >>= f) s).Sat R E := by
  rw [Exec.bind_apply]
  cases h : x s with
  | ok a s' => rw [h] at hx; exact hf a s' hx
  | error e s' => rw [h] at hx; exact hx
  | stuck => rw [h] at hx; exact hx.elim
  | diverge => trivial

/-- A normal end reached by code that meets its specification satisfies the postcondition. -/
theorem Sat.of_ok {r : Result ε σ α} {a : α} {s : σ} (h : r.Sat Q E) (hr : r = .ok a s) : Q a s := by
  rw [hr] at h; exact h

/-- Code that meets its specification fails no assertion. -/
theorem Sat.ne_stuck {r : Result ε σ α} (h : r.Sat Q E) : r ≠ .stuck := by
  rintro rfl; exact h

/-- The state in which an outcome was reached, when there is one. -/
def state? : Result ε σ α → Option σ
  | .ok _ s => some s
  | .error _ s => some s
  | .stuck => none
  | .diverge => none

/-- A specification of the state alone covers normal ends and faults alike. -/
theorem Sat.state {r : Result ε σ α} {P : σ → Prop} (h : r.Sat (fun _ => P) (fun _ => P))
    {s : σ} (hs : r.state? = some s) : P s := by
  cases r with
  | ok a s' | error e s' => cases hs; exact h
  | stuck => exact h.elim
  | diverge => cases hs

end Result

/-! ### Traces -/

/-- The parts of a program that were run, with the states before them, and what the run came to. -/
abbrev Traced (π σ β : Type) := List (π × σ) × β

namespace Traced

variable {π σ β : Type}

/-- Put a part before a run. -/
def record (part : π) (s : σ) (r : Traced π σ β) : Traced π σ β := ((part, s) :: r.1, r.2)

theorem record_inj {part part' : π} {s s' : σ} {r r' : Traced π σ β} :
    record part s r = record part' s' r' ↔ part = part' ∧ s = s' ∧ r = r' := by
  simp [record, Prod.ext_iff, and_assoc]

end Traced

end Starlight
