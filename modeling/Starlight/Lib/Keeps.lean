import Starlight.Lib.Exec

/-!
# Predicates of the state that code keeps

`x.Keeps I` says that code started in a state with `I` ends, normally or with a fault, in a state with
`I`. Nothing is asked of a failed assertion or of code that does not end.
-/

namespace Starlight

namespace Result

variable {ε σ α : Type}

/-- The state in which the outcome was reached, if there is one, satisfies `I`. -/
def Leaves (I : σ → Prop) : Result ε σ α → Prop
  | .ok _ s => I s
  | .error _ s => I s
  | .stuck => True
  | .diverge => True

theorem Leaves.state {I : σ → Prop} {r : Result ε σ α} (h : r.Leaves I) {s : σ}
    (hs : r.state? = some s) : I s := by
  cases r with
  | ok a s' | error e s' => cases hs; exact h
  | stuck => cases hs
  | diverge => cases hs

theorem Leaves.mono {I J : σ → Prop} {r : Result ε σ α} (h : r.Leaves I) (hIJ : ∀ s, I s → J s) :
    r.Leaves J := by
  cases r with
  | ok a s => exact hIJ s h
  | error e s => exact hIJ s h
  | stuck => trivial
  | diverge => trivial

end Result

namespace Exec

variable {ε σ α β : Type} {I : σ → Prop}

def Keeps (I : σ → Prop) (x : Exec ε σ α) : Prop := ∀ s, I s → (x s).Leaves I

theorem keeps_pure (a : α) : (pure a : Exec ε σ α).Keeps I := fun _ h => h

theorem keeps_fail (e : ε) : (fail e : Exec ε σ α).Keeps I := fun _ h => h

theorem keeps_stuck : (stuck : Exec ε σ α).Keeps I := fun _ _ => trivial

theorem keeps_diverge : (diverge : Exec ε σ α).Keeps I := fun _ _ => trivial

theorem keeps_gets (f : σ → α) : (gets f : Exec ε σ α).Keeps I := fun _ h => h

theorem keeps_modify {f : σ → σ} (hf : ∀ s, I s → I (f s)) :
    (modify f : Exec ε σ Unit).Keeps I := hf

theorem keeps_update {f : σ → α × σ} (hf : ∀ s, I s → I (f s).2) :
    (update f : Exec ε σ α).Keeps I := hf

/-- The sequencing rule, with the first result at hand. -/
theorem leaves_bind {x : Exec ε σ α} {f : α → Exec ε σ β} {s : σ} (hx : (x s).Leaves I)
    (hf : ∀ a s', x s = .ok a s' → I s' → (f a s').Leaves I) : ((x >>= f) s).Leaves I := by
  rw [bind_apply]
  cases h : x s with
  | ok a s' => rw [h] at hx; exact hf a s' h hx
  | error e s' => rw [h] at hx; exact hx
  | stuck => trivial
  | diverge => trivial

/-- A normal end of a sequence is one of both parts. -/
theorem bind_eq_ok {x : Exec ε σ α} {f : α → Exec ε σ β} {s s' : σ} {b : β}
    (h : (x >>= f) s = .ok b s') : ∃ a s₁, x s = .ok a s₁ ∧ f a s₁ = .ok b s' := by
  rw [bind_apply] at h
  cases hx : x s with
  | ok a s₁ => rw [hx] at h; exact ⟨a, s₁, rfl, h⟩
  | error e s₁ | stuck | diverge => rw [hx] at h; cases h

theorem Keeps.bind {x : Exec ε σ α} {f : α → Exec ε σ β} (hx : x.Keeps I)
    (hf : ∀ a, (f a).Keeps I) : (x >>= f).Keeps I := fun s h =>
  leaves_bind (hx s h) fun a s' _ h' => hf a s' h'

theorem Keeps.ite {c : Prop} [Decidable c] {x y : Exec ε σ α} (hx : x.Keeps I) (hy : y.Keeps I) :
    (if c then x else y).Keeps I := by
  split
  · exact hx
  · exact hy

def Answers (Q : α → Prop) (x : Exec ε σ α) : Prop := ∀ s s' a, x s = .ok a s' → Q a

theorem answers_pure {Q : α → Prop} {a : α} (h : Q a) : (pure a : Exec ε σ α).Answers Q :=
  fun _ _ _ hr => (Result.ok.inj hr).1 ▸ h

theorem Answers.bind {Q : β → Prop} {x : Exec ε σ α} {f : α → Exec ε σ β}
    (hf : ∀ a, (f a).Answers Q) : (x >>= f).Answers Q := fun _ s' b hr => by
  obtain ⟨a, s₁, -, h⟩ := bind_eq_ok hr
  exact hf a s₁ s' b h

theorem Answers.ite {Q : α → Prop} {c : Prop} [Decidable c] {x y : Exec ε σ α}
    (hx : x.Answers Q) (hy : y.Answers Q) : (if c then x else y).Answers Q := by
  split
  · exact hx
  · exact hy

end Exec

end Starlight
