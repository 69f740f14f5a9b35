import Starlight.Compiler.Compile
import Starlight.Lib.Keeps

/-!
# Code that leaves the scopes as they are

The scopes at the end of a piece of the compiler are those of its beginning.
-/

namespace Starlight

namespace ByteCompiler

variable {α β : Type}

/-- The scopes at the end are those of the beginning. -/
def KeepsScopes (x : Comp α) : Prop :=
  ∀ s a s', x s = .ok a s' → s'.scope = s.scope ∧ s'.parents = s.parents

/-! ### Rules -/

theorem keepsScopes_pure (a : α) : KeepsScopes (pure a) := by
  rintro s _ _ ⟨⟩
  exact ⟨rfl, rfl⟩

theorem KeepsScopes.seq {x : Comp α} {f : α → Comp β} (hx : KeepsScopes x) (hf : ∀ a, KeepsScopes (f a)) :
    KeepsScopes (x >>= f) := by
  intro s b s' h
  obtain ⟨a, s₁, h₁, h₂⟩ := Exec.bind_eq_ok h
  obtain ⟨hscope, hparents⟩ := hx s a s₁ h₁
  obtain ⟨hscope', hparents'⟩ := hf a s₁ b s' h₂
  exact ⟨hscope'.trans hscope, hparents'.trans hparents⟩

theorem keepsScopes_gets (f : ByteCompiler → α) : KeepsScopes (Exec.gets f) := by
  rintro s _ _ ⟨⟩
  exact ⟨rfl, rfl⟩

theorem keepsScopes_fail (e : CompileError) : KeepsScopes (Exec.fail e : Comp α) := nofun

theorem keepsScopes_modify {f : ByteCompiler → ByteCompiler} (hscope : ∀ s, (f s).scope = s.scope)
    (hparents : ∀ s, (f s).parents = s.parents) : KeepsScopes (Exec.modify f) := by
  rintro s _ _ ⟨⟩
  exact ⟨hscope s, hparents s⟩

/-! ### Emission and tables -/

theorem keepsScopes_emit (i : Instr) : KeepsScopes (emit i) :=
  keepsScopes_modify (fun _ => rfl) fun _ => rfl

theorem keepsScopes_emitFeedback (i : ℕ → Instr) : KeepsScopes (emitFeedback i) :=
  keepsScopes_modify (fun _ => rfl) fun _ => rfl

theorem keepsScopes_hole (placeholder op : JumpOp) : KeepsScopes (hole placeholder op) := by
  rintro s _ _ ⟨⟩
  exact ⟨rfl, rfl⟩

theorem keepsScopes_getSym (name : Symbol) : KeepsScopes (getSym name) := by
  intro s a s' h
  unfold getSym at h
  split at h <;> cases h <;> exact ⟨rfl, rfl⟩

theorem keepsScopes_getVal (val : Val) : KeepsScopes (getVal val) := by
  intro s a s' h
  unfold getVal at h
  split at h <;> cases h <;> exact ⟨rfl, rfl⟩

theorem keepsScopes_getVal2 (val : Val) : KeepsScopes (getVal2 val) := by
  rintro s _ _ ⟨⟩
  exact ⟨rfl, rfl⟩

theorem keepsScopes_pushCode (block : CodeBlock) : KeepsScopes (pushCode block) := by
  rintro s _ _ ⟨⟩
  exact ⟨rfl, rfl⟩

/-! ### Functions -/

theorem keepsScopes_nested (init : ByteCompiler → ByteCompiler) (x : Comp Unit) :
    KeepsScopes (nested init x) := by
  intro s block s' h
  unfold nested at h
  split at h <;> cases h
  exact ⟨rfl, rfl⟩

theorem keepsScopes_inScope (cx : Ctx) {x : Comp Unit} (hx : KeepsScopes x) :
    KeepsScopes (do pushScope; x; popScope cx) := by
  intro s a s' h
  obtain ⟨_, s₁, h₁, h⟩ := Exec.bind_eq_ok h
  cases h₁
  obtain ⟨_, s₂, h₂, h⟩ := Exec.bind_eq_ok h
  have hparents := (hx _ _ _ h₂).2
  unfold popScope at h
  rw [hparents] at h
  cases h
  exact ⟨rfl, rfl⟩

end ByteCompiler

end Starlight
