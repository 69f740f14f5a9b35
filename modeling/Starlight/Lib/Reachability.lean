import Mathlib.Data.Set.Insert
import Mathlib.Data.List.Nodup

/-!
# Reachability by marking

A search of a graph marks nodes, keeps the marked nodes it has still to look at, and scans them one
after the other. `Marks edge roots marked pending scanned` is the invariant of any such search:
what is marked is reachable, a marked node is pending or scanned, and the successors of a scanned
node are marked. A search that keeps it and has nothing pending has marked exactly `Reach edge
roots`.
-/

namespace Starlight.Graph

variable {α : Type*} {edge : α → α → Prop} {roots : Set α}

def Reach (edge : α → α → Prop) (roots : Set α) : Set α :=
  {b | ∃ a ∈ roots, Relation.ReflTransGen edge a b}

theorem reach_root {a : α} (ha : a ∈ roots) : a ∈ Reach edge roots :=
  ⟨a, ha, Relation.ReflTransGen.refl⟩

theorem reach_step {a b : α} (ha : a ∈ Reach edge roots) (hab : edge a b) :
    b ∈ Reach edge roots := by
  obtain ⟨r, hr, hra⟩ := ha
  exact ⟨r, hr, hra.tail hab⟩

theorem reach_subset {s : Set α} (hroots : roots ⊆ s) (hclosed : ∀ a ∈ s, ∀ b, edge a b → b ∈ s) :
    Reach edge roots ⊆ s := by
  rintro b ⟨a, ha, hab⟩
  induction hab with
  | refl => exact hroots ha
  | tail _ hbc ih => exact hclosed _ ih _ hbc

/-- The invariant of a search for the nodes reachable from `roots`. -/
structure Marks (edge : α → α → Prop) (roots marked pending scanned : Set α) : Prop where
  sound : marked ⊆ Reach edge roots
  split : marked = pending ∪ scanned
  closed : ∀ a ∈ scanned, ∀ b, edge a b → b ∈ marked

namespace Marks

variable {marked pending scanned : Set α}

/-- **The search is exact.** When the roots are marked and nothing is pending, the marked nodes are
the reachable ones. -/
theorem eq_reach (h : Marks edge roots marked pending scanned) (hroots : roots ⊆ marked)
    (hpending : pending = ∅) : marked = Reach edge roots := by
  apply Set.Subset.antisymm h.sound
  refine reach_subset hroots ?_
  intro a ha b hab
  have hscanned : a ∈ scanned := by
    have hmem := h.split ▸ ha
    rwa [hpending, Set.empty_union] at hmem
  exact h.closed a hscanned b hab

end Marks

end Starlight.Graph
