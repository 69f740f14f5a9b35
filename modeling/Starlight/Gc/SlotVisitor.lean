import Starlight.Lib.Reachability
import Starlight.Gc.SpaceRuns

/-!
# The slot visitor

Marking visits pointers. A visited pointer that is a heap pointer to a white cell turns the cell
grey, marks it and pushes it on the mark stack; `process_worklist` pops a cell, turns it black and
visits what its `trace` reports. The colour is changed with `compare_exchange_weak`, which may fail
although the colour is the expected one: `spurious n` says whether the exchange number `n` does.
-/

namespace Starlight.Gc

/-- `SlotVisitor`, with the space it marks. `queue` is the mark stack, its top first; `exchanges`
counts the exchanges tried so far, and `traced` records the cells that were traced, the last one
first. -/
structure SlotVisitor where
  space : Space
  queue : List ℕ
  exchanges : ℕ
  traced : List ℕ

namespace SlotVisitor

def start (s : Space) : SlotVisitor := ⟨s, [], 0, []⟩

section Definitions

variable (spurious : ℕ → Bool)

def setState (v : SlotVisitor) (p : ℕ) (current new : CellState) : Bool × SlotVisitor :=
  if (v.space.objects p).state = current ∧ spurious v.exchanges = false then
    (true, { v with space := v.space.forceSetState p new, exchanges := v.exchanges + 1 })
  else (false, { v with exchanges := v.exchanges + 1 })

def visit (v : SlotVisitor) (p : ℕ) : SlotVisitor :=
  if v.space.isHeapPointer p then
    let (changed, v) := v.setState spurious p .white .grey
    if changed then { v with space := v.space.mark p, queue := p :: v.queue } else v
  else v

/-- The calls of `visit` that a `trace` makes, or those for the roots. -/
def visitAll (v : SlotVisitor) (ps : List ℕ) : SlotVisitor := ps.foldl (visit spurious) v

theorem visitAll_cons (v : SlotVisitor) (p : ℕ) (ps : List ℕ) :
    visitAll spurious v (p :: ps) = visitAll spurious (visit spurious v p) ps := rfl

/-- One round of `process_worklist`, for the popped cell `p`. -/
def scan (v : SlotVisitor) (p : ℕ) (rest : List ℕ) : SlotVisitor :=
  let v := (setState spurious { v with queue := rest } p .grey .black).2
  visitAll spurious { v with traced := p :: v.traced } (v.space.objects p).payload.trace

def processWorklist (fuel : ℕ) (v : SlotVisitor) : Option SlotVisitor :=
  match v.queue, fuel with
  | [], _ => some v
  | _ :: _, 0 => none
  | p :: rest, fuel + 1 => processWorklist fuel (scan spurious v p rest)

end Definitions

end SlotVisitor

namespace Space

def Edge (s : Space) (p q : ℕ) : Prop :=
  q ∈ (s.objects p).payload.trace ∧ s.isHeapPointer q = true

/-- The heap pointers among the roots. -/
def rootSet (s : Space) (roots : List ℕ) : Set ℕ := {p | p ∈ roots ∧ s.isHeapPointer p = true}

/-- The cells that strong references reach from the roots. -/
def reachable (s : Space) (roots : List ℕ) : Set ℕ := Graph.Reach s.Edge (s.rootSet roots)

variable {s s' : Space} {p c : ℕ} {roots : List ℕ}

/-! ### What marking leaves alone -/

/-- Two spaces that differ in colours and marks only. -/
structure SameGraph (s s' : Space) : Prop where
  directory : s'.allocatorForSizeClass = s.allocatorForSizeClass
  classes : s'.sizeClassForSizeStep = s.sizeClassForSizeStep
  blockAllocator : s'.blockAllocator = s.blockAllocator
  allocators : s'.allocators = s.allocators
  live : s'.liveBitmap = s.liveBitmap
  large : s'.preciseAllocations.map (·.cell) = s.preciseAllocations.map (·.cell)
  payload : ∀ p, (s'.objects p).payload = (s.objects p).payload
  mark_begin : s'.markBitmap.heapBegin = s.markBitmap.heapBegin
  beyond : ∀ i, s.liveBitmap.size ≤ i → s'.markBitmap.word i = s.markBitmap.word i

namespace SameGraph

theorem refl (s : Space) : s.SameGraph s :=
  ⟨rfl, rfl, rfl, rfl, rfl, rfl, fun _ => rfl, rfl, fun _ _ => rfl⟩

theorem trans {s₁ s₂ s₃ : Space} (h : s₁.SameGraph s₂) (h' : s₂.SameGraph s₃) : s₁.SameGraph s₃ :=
  ⟨h'.1.trans h.1, h'.2.trans h.2, h'.3.trans h.3, h'.4.trans h.4, h'.5.trans h.5, h'.6.trans h.6,
    fun p => (h'.7 p).trans (h.7 p), h'.8.trans h.8,
    fun i hi => (h'.9 i (h.live ▸ hi)).trans (h.9 i hi)⟩

theorem containsLarge (h : s.SameGraph s') (p : ℕ) : s'.containsLarge p = s.containsLarge p := by
  have hany : ∀ t : Space, t.containsLarge p = (t.preciseAllocations.map (·.cell)).contains p := by
    intro t
    rw [Space.containsLarge, Bool.eq_iff_iff, List.any_eq_true, List.contains_iff_mem, List.mem_map]
    simp only [beq_iff_eq]
  rw [hany, hany, h.large]

theorem isHeapPointer (h : s.SameGraph s') (p : ℕ) : s'.isHeapPointer p = s.isHeapPointer p := by
  rw [Space.isHeapPointer, h.live, h.containsLarge, Space.isHeapPointer]

theorem cells (h : s.SameGraph s') : s'.cells = s.cells := by
  rw [Space.cells, h.allocators, h.directory, h.blockAllocator, h.live, h.large, Space.cells]

end SameGraph

theorem sameGraph_forceSetState (s : Space) (p : ℕ) (state : CellState) :
    s.SameGraph (s.forceSetState p state) := by
  refine ⟨rfl, rfl, rfl, rfl, rfl, rfl, fun q => ?_, rfl, fun _ _ => rfl⟩
  rw [objects_forceSetState]
  split
  · next h => rw [h]
  · rfl

theorem sameGraph_mark (s : Space) (hg : s.Geometry) (p : ℕ) : s.SameGraph (s.mark p) := by
  cases hp : s.liveBitmap.hasAddress p with
  | true =>
    rw [mark_eq_of_hasAddress hp]
    refine ⟨rfl, rfl, rfl, rfl, rfl, rfl, fun _ => rfl, rfl, fun i hi => ?_⟩
    refine SpaceBitmap.word_modify_of_not_index true ?_
    rw [SpaceBitmap.hasAddress_iff, ← hg.granule_eq] at hp
    omega
  | false =>
    have hmap := precise_mark_map s p
    rw [mark_eq_of_not_hasAddress hp] at hmap ⊢
    exact ⟨rfl, rfl, rfl, rfl, rfl, hmap, fun _ => rfl, rfl, fun _ _ => rfl⟩

theorem inv_forceSetState (h : s.Inv) {state : CellState} : (s.forceSetState p state).Inv :=
  inv_setObject h

theorem ordered_forceSetState (ho : s.Ordered) {state : CellState} :
    (s.forceSetState p state).Ordered := ordered_setObject ho

end Space

namespace SlotVisitor

variable {spurious : ℕ → Bool} {v v' : SlotVisitor} {p : ℕ} {ps rest : List ℕ}

/-- The visitor changed colours and marks only, and its space is still consistent. -/
structure Keeps (v v' : SlotVisitor) : Prop where
  graph : v.space.SameGraph v'.space
  inv : v'.space.Inv
  ordered : v'.space.Ordered

theorem Keeps.refl (h : v.space.Inv) (ho : v.space.Ordered) : v.Keeps v := ⟨.refl _, h, ho⟩

theorem Keeps.trans {v₁ v₂ v₃ : SlotVisitor} (h : v₁.Keeps v₂) (h' : v₂.Keeps v₃) : v₁.Keeps v₃ :=
  ⟨h.graph.trans h'.graph, h'.inv, h'.ordered⟩

theorem keeps_setState (h : v.space.Inv) (ho : v.space.Ordered) (current new : CellState) :
    v.Keeps (v.setState spurious p current new).2 := by
  rw [setState]
  split
  · exact ⟨Space.sameGraph_forceSetState _ _ _, Space.inv_forceSetState h,
      Space.ordered_forceSetState ho⟩
  · exact ⟨.refl _, h, ho⟩

theorem keeps_visit (h : v.space.Inv) (ho : v.space.Ordered) : v.Keeps (v.visit spurious p) := by
  rw [visit]
  split
  · next hp =>
    have hset := @keeps_setState spurious v p h ho .white .grey
    dsimp only
    split
    · have hp' := (hset.graph.isHeapPointer p).trans hp
      exact hset.trans ⟨Space.sameGraph_mark _ hset.inv.geometry p, Space.inv_mark hset.inv hp',
        Space.ordered_mark hset.ordered⟩
    · exact hset
  · exact .refl h ho

theorem keeps_visitAll (ps : List ℕ) (h : v.space.Inv) (ho : v.space.Ordered) :
    v.Keeps (v.visitAll spurious ps) := by
  induction ps generalizing v with
  | nil => exact .refl h ho
  | cons p ps ih =>
    have hone := @keeps_visit spurious v p h ho
    rw [visitAll_cons]
    exact hone.trans (ih hone.inv hone.ordered)

theorem keeps_scan (h : v.space.Inv) (ho : v.space.Ordered) :
    v.Keeps (v.scan spurious p rest) := by
  have hset := @keeps_setState spurious { v with queue := rest } p h ho .grey .black
  have hrest := @keeps_visitAll spurious
    { (setState spurious { v with queue := rest } p .grey .black).2 with
      traced := p :: (setState spurious { v with queue := rest } p .grey .black).2.traced }
    (((setState spurious { v with queue := rest } p .grey .black).2).space.objects p).payload.trace
    hset.inv hset.ordered
  exact ⟨hset.graph.trans hrest.graph, hrest.inv, hrest.ordered⟩

theorem keeps_processWorklist {fuel : ℕ} (h : v.space.Inv) (ho : v.space.Ordered)
    (hv : v.processWorklist spurious fuel = some v') : v.Keeps v' := by
  induction fuel generalizing v with
  | zero =>
    rw [processWorklist.eq_def] at hv
    cases hq : v.queue with
    | nil =>
      rw [hq] at hv
      exact Option.some.inj hv ▸ .refl h ho
    | cons p rest =>
      rw [hq] at hv
      exact absurd hv (by simp)
  | succ fuel ih =>
    rw [processWorklist.eq_def] at hv
    cases hq : v.queue with
    | nil =>
      rw [hq] at hv
      exact Option.some.inj hv ▸ .refl h ho
    | cons p rest =>
      rw [hq] at hv
      have hone := @keeps_scan spurious v p rest h ho
      exact hone.trans (ih hone.inv hone.ordered hv)

end SlotVisitor

end Starlight.Gc
