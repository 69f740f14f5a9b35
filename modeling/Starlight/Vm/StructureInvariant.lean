import Starlight.Vm.Structure

/-!
# What a structure denotes, and the invariant of the structure store

`Shapes.view` is the property table a structure stands for, whether or not it has been built: the
table cell if there is one, otherwise the table of the predecessor with the added property.

`Shapes.Inv σ L` is the invariant of the store, where `L` says which structures are held by objects.
A structure is *live* when it is shared or held. Its two load-bearing clauses are about sharing:
live structures have different table cells (`excl`), and a structure without a table hangs off a
shared structure or off an abandoned unique structure that has no table either (`anchored`). So an
in-place change of a unique structure's table is seen by no other live structure.
-/

namespace Starlight

namespace Shapes

/-! ### The denotation of a structure -/

/-- `view` with a bound on the length of the chain it follows. -/
def viewAux (σ : Shapes) : ℕ → ℕ → TargetTable
  | 0, _ => ∅
  | fuel + 1, s =>
    match (σ.structures s).table with
    | some t => σ.tables t
    | none =>
      match (σ.structures s).previous with
      | none => ∅
      | some p =>
        match (σ.structures s).added with
        | some it => (σ.viewAux fuel p).insert it.1 it.2
        | none => σ.viewAux fuel p

def view (σ : Shapes) (s : ℕ) : TargetTable := σ.viewAux (s + 1) s

/-- Predecessors are older cells. -/
def Acyclic (σ : Shapes) : Prop :=
  ∀ ⦃s p⦄, s < σ.nextStructure → (σ.structures s).previous = some p → p < s

theorem viewAux_eq_view {σ : Shapes} (h : σ.Acyclic) {s : ℕ} (hs : s < σ.nextStructure) {fuel : ℕ}
    (hf : s < fuel) : σ.viewAux fuel s = σ.view s := by
  induction s using Nat.strong_induction_on generalizing fuel with
  | _ s ih =>
    obtain ⟨fuel, rfl⟩ : ∃ f, fuel = f + 1 := ⟨fuel - 1, by omega⟩
    unfold view
    rw [viewAux, viewAux]
    split
    · rfl
    · split
      · rfl
      · next p hp =>
        have hlt := h hs hp
        rw [ih p hlt (by omega) (show p < fuel by omega), ih p hlt (by omega) hlt]

theorem view_of_table {σ : Shapes} {s t : ℕ} (h : (σ.structures s).table = some t) :
    σ.view s = σ.tables t := by
  rw [view, viewAux, h]

theorem view_root {σ : Shapes} {s : ℕ} (h : (σ.structures s).table = none)
    (hp : (σ.structures s).previous = none) : σ.view s = ∅ := by
  rw [view, viewAux, h, hp]

theorem view_of_previous {σ : Shapes} (h : σ.Acyclic) {s p : ℕ} (hs : s < σ.nextStructure)
    (ht : (σ.structures s).table = none) (hp : (σ.structures s).previous = some p) :
    σ.view s = match (σ.structures s).added with
      | some it => (σ.view p).insert it.1 it.2
      | none => σ.view p := by
  have hlt := h hs hp
  rw [view, viewAux, ht, hp]
  dsimp only
  rw [viewAux_eq_view h (by omega) hlt]

/-- Views depend only on the chains they are computed from: if the cells of a family `P` that is
closed under predecessors did not change, neither did their views. -/
theorem view_congr {σ σ' : Shapes} (P : ℕ → Prop)
    (hcell : ∀ r, P r → (σ'.structures r).table = (σ.structures r).table ∧
      (σ'.structures r).previous = (σ.structures r).previous ∧
      (σ'.structures r).added = (σ.structures r).added)
    (htable : ∀ r t, P r → (σ.structures r).table = some t → σ'.tables t = σ.tables t)
    (hprev : ∀ r p, P r → (σ.structures r).table = none →
      (σ.structures r).previous = some p → P p)
    {r : ℕ} (hr : P r) : σ'.view r = σ.view r := by
  have key : ∀ fuel r, P r → σ'.viewAux fuel r = σ.viewAux fuel r := by
    intro fuel
    induction fuel with
    | zero => intro r _; rfl
    | succ fuel ih =>
      intro r hr
      obtain ⟨h₁, h₂, h₃⟩ := hcell r hr
      rw [viewAux, viewAux, h₁, h₂, h₃]
      cases ht : (σ.structures r).table with
      | some t => exact htable r t hr ht
      | none =>
        cases hp : (σ.structures r).previous with
        | none => rfl
        | some p => simp only [ih p (hprev r p hr ht hp)]
  exact key _ r hr

/-! ### The invariant -/

/-- The structure is shared between the objects built the same way. -/
def Shared (σ : Shapes) (s : ℕ) : Prop := (σ.structures s).transitions.enabled = true

instance (σ : Shapes) (s : ℕ) : Decidable (σ.Shared s) :=
  inferInstanceAs (Decidable (_ = true))

/-- The structure is allocated and is shared or held by an object. -/
def Live (σ : Shapes) (L : ℕ → Prop) (s : ℕ) : Prop :=
  s < σ.nextStructure ∧ (σ.Shared s ∨ L s)

/-- The structure is live, or has been left behind without ever getting a table. -/
def Tracked (σ : Shapes) (L : ℕ → Prop) (s : ℕ) : Prop :=
  s < σ.nextStructure ∧ (σ.Shared s ∨ L s ∨ (σ.structures s).table = none)

/-- The invariant of the structure store; `L` are the structures held by objects. -/
structure Inv (σ : Shapes) (L : ℕ → Prop) : Prop where
  acyclic : σ.Acyclic
  held_lt : ∀ {s}, L s → s < σ.nextStructure
  table_lt : ∀ {s t}, s < σ.nextStructure → (σ.structures s).table = some t → t < σ.nextTable
  /-- Only a structure with a predecessor can add a property, and the property is new. -/
  added_fresh : ∀ {s it}, s < σ.nextStructure → (σ.structures s).table = none →
    (σ.structures s).added = some it → ∃ p, (σ.structures s).previous = some p ∧ it.1 ∉ σ.view p
  anchored : ∀ {s p}, s < σ.nextStructure → (σ.structures s).table = none →
    (σ.structures s).previous = some p →
    σ.Shared p ∨ (¬ L p ∧ (σ.structures p).table = none)
  excl : ∀ {r s t}, σ.Live L r → σ.Live L s → (σ.structures r).table = some t →
    (σ.structures s).table = some t → r = s
  size : ∀ {s}, σ.Live L s → (σ.structures s).table = none →
    (σ.structures s).calculatedSize = tableLen (σ.view s) + (σ.structures s).deleted.length
  layout : ∀ {s}, σ.Live L s → SlotLayout MapEntry.offset (σ.view s) (σ.structures s).deleted
  typed : ∀ {s n e}, σ.Live L s → (σ.view s).lookup n = some e → e.attrs.Typed
  shared_deleted : ∀ {s}, s < σ.nextStructure → σ.Shared s → (σ.structures s).deleted = []
  /-- A transition adds its property just past the end. -/
  transition : ∀ {s m n a}, s < σ.nextStructure → σ.Shared s →
    (σ.structures s).transitions.find n a = some m →
    m < σ.nextStructure ∧ σ.Shared m ∧
      (σ.structures m).added = some (n, ⟨tableLen (σ.view s), a⟩) ∧
      σ.view m = (σ.view s).insert n ⟨tableLen (σ.view s), a⟩ ∧
      (σ.structures m).prototype = (σ.structures s).prototype
  not_flattened : ∀ {s}, s < σ.nextStructure → (σ.structures s).transitions.unique = false

theorem Live.tracked {σ : Shapes} {L : ℕ → Prop} {s : ℕ} (h : σ.Live L s) : σ.Tracked L s :=
  ⟨h.1, h.2.imp_right Or.inl⟩

theorem Shared.live {σ : Shapes} {L : ℕ → Prop} {s : ℕ} (h : σ.Shared s)
    (hs : s < σ.nextStructure) : σ.Live L s := ⟨hs, .inl h⟩

section Inv

variable {σ : Shapes} {L : ℕ → Prop}

theorem Inv.held (h : σ.Inv L) {s : ℕ} (hs : L s) : σ.Live L s := ⟨h.held_lt hs, .inr hs⟩

theorem Inv.tracked_previous (h : σ.Inv L) {s p : ℕ} (hs : s < σ.nextStructure)
    (ht : (σ.structures s).table = none) (hp : (σ.structures s).previous = some p) :
    σ.Tracked L p := by
  have hlt := h.acyclic hs hp
  refine ⟨by omega, ?_⟩
  rcases h.anchored hs ht hp with hsh | ⟨-, htp⟩
  · exact .inl hsh
  · exact .inr (.inr htp)

theorem Inv.getSlotsSize_eq (h : σ.Inv L) {s : ℕ} (hs : σ.Live L s) :
    σ.getSlotsSize s = tableLen (σ.view s) + (σ.structures s).deleted.length := by
  unfold getSlotsSize
  cases ht : (σ.structures s).table with
  | some t => rw [view_of_table ht]
  | none => exact h.size hs ht

theorem Inv.mono (h : σ.Inv L) {L' : ℕ → Prop} (hL : ∀ s, L' s → s < σ.nextStructure ∧
    (σ.Shared s ∨ L s)) : σ.Inv L' := by
  have live : ∀ {s}, σ.Live L' s → σ.Live L s := by
    rintro s ⟨hs, hsh | hl⟩
    · exact ⟨hs, .inl hsh⟩
    · exact hL s hl
  exact
    { h with
      held_lt := fun hs => (hL _ hs).1
      anchored := by
        intro s p hs ht hp
        rcases h.anchored hs ht hp with hsh | ⟨hn, htp⟩
        · exact .inl hsh
        · by_cases hsh : σ.Shared p
          · exact .inl hsh
          · exact .inr ⟨fun hl => ((hL p hl).2.elim hsh hn), htp⟩
      excl := fun hr hs => h.excl (live hr) (live hs)
      size := fun hs => h.size (live hs)
      layout := fun hs => h.layout (live hs)
      typed := fun hs => h.typed (live hs) }

end Inv

theorem inv_init : init.Inv fun _ => False where
  acyclic _ _ hs := by simp [init] at hs
  held_lt hs := hs.elim
  table_lt hs := by simp [init] at hs
  added_fresh hs := by simp [init] at hs
  anchored hs := by simp [init] at hs
  excl hr := by simp [init, Live] at hr
  size hs := by simp [init, Live] at hs
  layout hs := by simp [init, Live] at hs
  typed hs := by simp [init, Live] at hs
  shared_deleted hs := by simp [init] at hs
  transition hs := by simp [init] at hs
  not_flattened hs := by simp [init] at hs

end Shapes

end Starlight
