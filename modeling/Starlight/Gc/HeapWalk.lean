import Starlight.Gc.Collection

/-!
# Walking a heap

`walk_in_context` marks from what a context reports, calls back on the cells that were traced and turns them
white again. The marks that it has set stay set, so the next collection takes a cell that was walked for one
that is reachable.
-/

namespace Starlight.Gc

namespace Space

variable {s s' : Space} {roots : List ℕ} {g : ℕ}

theorem SameGraph.edge (h : s.SameGraph s') : s'.Edge = s.Edge := by
  funext p q
  rw [Edge, h.payload, h.isHeapPointer, Edge]

theorem SameGraph.reachable (h : s.SameGraph s') (roots : List ℕ) :
    s'.reachable roots = s.reachable roots := by
  have hroots : s'.rootSet roots = s.rootSet roots :=
    Set.ext fun p => and_congr_right fun _ => by rw [h.isHeapPointer]
  rw [Space.reachable, Space.reachable, h.edge, hroots]

theorem bit_mark_iff (h : s.Inv) (hg : g / 64 < s.liveBitmap.size) : s.markBitmap.bit g = true ↔
    ∃ c ∈ s.cells, s.liveBitmap.hasAddress c = true ∧ s.liveBitmap.granule c = g ∧ s.isMarked c = true := by
  constructor
  · intro hbit
    have hlive := h.liveCells.mark_live g hg hbit
    obtain ⟨i, base, hb, c, hc, rfl⟩ := h.liveCells.live_cell g hg hlive
    have hin := h.hasAddress_cell hb hc
    refine ⟨c, (mem_cells h).mpr (.inl ⟨i, base, hb, hc, ?_⟩), hin, rfl, ?_⟩
    · rwa [SpaceBitmap.test_eq_bit]
    · rwa [isMarked, if_pos hin, SpaceBitmap.test_eq_bit, h.geometry.granule_eq]
  · rintro ⟨c, -, hin, rfl, hmark⟩
    rwa [isMarked, if_pos hin, SpaceBitmap.test_eq_bit, h.geometry.granule_eq] at hmark

/-- The colours and the marks are the same, those of large cells among them. -/
structure SameMarks (s s' : Space) : Prop where
  state : ∀ p, (s'.objects p).state = (s.objects p).state
  bit : ∀ g, s'.markBitmap.bit g = s.markBitmap.bit g
  marked : ∀ c ∈ s.cells, s'.isMarked c = s.isMarked c

theorem SameGraph.sameMarks (h : s.SameGraph s') (hs : s.Inv) (hs' : s'.Inv)
    (hstate : ∀ p, (s'.objects p).state = (s.objects p).state)
    (hmark : ∀ c ∈ s.cells, s'.isMarked c = s.isMarked c) : s.SameMarks s' := by
  refine ⟨hstate, fun g => ?_, hmark⟩
  by_cases hg : g / 64 < s.liveBitmap.size
  · rw [Bool.eq_iff_iff, bit_mark_iff hs hg, bit_mark_iff hs' (by rwa [h.live]), h.cells, h.live]
    refine exists_congr fun c => and_congr_right fun hc => ?_
    rw [hmark c hc]
  · have hword := h.beyond (g / 64) (Nat.le_of_not_lt hg)
    exact congrArg (fun word : BitVec 64 => word.getLsbD (g % 64)) hword

end Space

namespace Heap

open SlotVisitor

variable {h h' : Heap} {spurious : ℕ → Bool} {beyond : ℕ → BitVec 64} {roots roots' : List ℕ}
  {fuel fuel' c : ℕ} {v : SlotVisitor}

/-- The cells that `walk_in_context` calls back on, in this order. -/
def walked (h : Heap) (spurious : ℕ → Bool) (roots : List ℕ) (fuel : ℕ) : Option (List ℕ) :=
  (SlotVisitor.marking spurious h.space roots fuel).map (·.traced)

def CollectsAlike (h h' : Heap) (spurious : ℕ → Bool) (beyond : ℕ → BitVec 64) (roots : List ℕ) (fuel : ℕ) :
    Prop :=
  ∃ k k', h.collect spurious beyond roots fuel = some k ∧ h'.collect spurious beyond roots fuel = some k' ∧
    ∀ c, c ∈ k'.space.cells ↔ c ∈ k.space.cells

/-- The walk visits every reachable cell once, leaves the marks as they were, and changes no collection. -/
def WalksReadOnly (h : Heap) (spurious : ℕ → Bool) (roots : List ℕ) (fuel : ℕ) : Prop :=
  ∃ ps h', h.walked spurious roots fuel = some ps ∧ h.walkInContext spurious roots fuel = some h' ∧
    ps.Nodup ∧ (∀ c, c ∈ ps ↔ c ∈ h.space.reachable roots) ∧ h.space.SameMarks h'.space ∧
    ∀ spurious', Strong spurious' → ∀ beyond roots', PointsToCells h.space roots' →
      ∀ fuel', h.space.cells.length ≤ fuel' → h.CollectsAlike h' spurious' beyond roots' fuel'

structure Walk (h : Heap) (roots ps : List ℕ) (h' : Heap) : Prop where
  keeps : (start h.space).Keeps (start h'.space)
  weakRefs : h'.weakRefs = h.weakRefs
  defers : h'.defers = h.defers
  nodup : ps.Nodup
  visited : ∀ c, c ∈ ps ↔ c ∈ h.space.reachable roots
  state : ∀ p, (h'.space.objects p).state = (h.space.objects p).state
  marked : ∀ c ∈ h.space.cells,
    (h'.space.isMarked c = true ↔ h.space.isMarked c = true ∨ c ∈ h.space.reachable roots)

theorem isMarked_whiten (l : List ℕ) (v : SlotVisitor) (c : ℕ) :
    (whiten spurious v l).space.isMarked c = v.space.isMarked c := by
  induction l generalizing v with
  | nil => rfl
  | cons p l ih =>
    have hstep : whiten spurious v (p :: l) =
        whiten spurious (v.setState spurious p .black .white).2 l := rfl
    rw [hstep, ih, setState]
    split
    · exact Space.isMarked_forceSetState _ _ _ _
    · rfl

/-- **The walk ends**, and its result. -/
theorem exists_walk (hstrong : Strong spurious) (hready : Ready h.space)
    (hwf : PointsToCells h.space roots) (hfuel : h.space.cells.length ≤ fuel) :
    ∃ ps h', h.walked spurious roots fuel = some ps ∧ h.walkInContext spurious roots fuel = some h' ∧
      h.Walk roots ps h' := by
  obtain ⟨v, hv⟩ := @exists_marking spurious h.space roots hready.inv hready.ordered hwf fuel hfuel
  obtain ⟨hmark, hnil⟩ := marking_spec hready.inv hready.ordered hwf hv
  have hkeeps := keeps_marking hready.inv hready.ordered hv
  have hwhiten := @keeps_whiten spurious v v.traced hkeeps.inv hkeeps.ordered
  have hseen : ∀ c, c ∈ v.seen ↔ c ∈ v.traced := by
    intro c
    rw [mem_seen, hnil]
    exact or_iff_right List.not_mem_nil
  have hreach : ∀ c, c ∈ v.traced ↔ c ∈ h.space.reachable roots := by
    intro c
    rw [← traced_marking hstrong hready hwf hv]
    exact Iff.rfl
  refine ⟨v.traced, { h with space := (whiten spurious v v.traced).space }, ?_, ?_, ?_⟩
  · rw [walked, hv, Option.map_some]
  · rw [walkInContext, hv]
    rfl
  · have hall := hkeeps.trans hwhiten
    refine ⟨⟨hall.graph, hall.inv, hall.ordered⟩, rfl, rfl, (List.nodup_append.mp hmark.nodup).2.1, hreach,
      fun p => ?_, fun c hc => ?_⟩
    · change ((whiten spurious v v.traced).space.objects p).state = _
      rw [state_whiten hstrong]
      by_cases hp : p ∈ v.traced
      · rw [if_pos ⟨hp, black_marking hstrong hready hwf hv p hp⟩,
          hready.white p (hwf p ((hreach p).mp hp))]
      · rw [if_neg fun hb => hp hb.1, hmark.untouched p fun hs => hp ((hseen p).mp hs)]
    · change (whiten spurious v v.traced).space.isMarked c = true ↔ _
      rw [isMarked_whiten, hmark.marked c hc, hseen, hreach]

namespace Walk

variable {ps : List ℕ} (hw : h.Walk roots ps h')

include hw

theorem ready (hready : Ready h.space) : Ready h'.space where
  __ := hw.keeps
  white c hc := by
    rw [hw.state]
    exact hready.white c (hw.keeps.graph.cells ▸ hc)

theorem pointsToCells (hwf : PointsToCells h.space roots') : PointsToCells h'.space roots' := by
  intro p hp
  have hreach : h'.space.reachable roots' = h.space.reachable roots' := hw.keeps.graph.reachable roots'
  rw [hreach] at hp
  exact hw.keeps.graph.cells ▸ hwf p hp

end Walk

theorem exists_collect (hstrong : Strong spurious) (hready : Ready h.space) (hdefers : h.defers = 0)
    (hwf : PointsToCells h.space roots) (hfuel : h.space.cells.length ≤ fuel)
    (beyond : ℕ → BitVec 64) :
    ∃ k, h.collect spurious beyond roots fuel = some k ∧ ∀ c, c ∈ k.space.cells ↔
      c ∈ h.space.cells ∧ (h.space.isMarked c = true ∨ c ∈ h.space.reachable roots) := by
  obtain ⟨v, hv⟩ := @exists_marking spurious h.space roots hready.inv hready.ordered hwf fuel hfuel
  have hk := keeps_marking hready.inv hready.ordered hv
  refine ⟨_, collect_eq_collected hdefers hv, fun c => (mem_cells_collect hk).trans ?_⟩
  refine and_congr_right fun hc => ?_
  obtain ⟨hmark, hnil⟩ := marking_spec hready.inv hready.ordered hwf hv
  rw [hmark.marked c hc, mem_seen, hnil, ← traced_marking hstrong hready hwf hv]
  exact or_congr_right (or_iff_right List.not_mem_nil)

theorem Walk.collectsAlike_iff {ps : List ℕ} (hw : h.Walk roots ps h') (hstrong : Strong spurious)
    (hready : Ready h.space) (hdefers : h.defers = 0) (hwf : PointsToCells h.space roots)
    (hwf' : PointsToCells h.space roots') (hfuel : h.space.cells.length ≤ fuel) :
    h.CollectsAlike h' spurious beyond roots' fuel ↔
      ∀ c ∈ h.space.reachable roots, h.space.isMarked c = true ∨ c ∈ h.space.reachable roots' := by
  have hcells : h'.space.cells = h.space.cells := hw.keeps.graph.cells
  have hreach : h'.space.reachable roots' = h.space.reachable roots' := hw.keeps.graph.reachable roots'
  obtain ⟨k, hk, hkept⟩ := exists_collect hstrong hready hdefers hwf' hfuel beyond
  obtain ⟨k', hk', hkept'⟩ := exists_collect hstrong (hw.ready hready) (hw.defers.trans hdefers)
    (hw.pointsToCells hwf') (hcells ▸ hfuel) beyond
  rw [hcells, hreach] at hkept'
  constructor
  · rintro ⟨l, l', hl, hl', hsame⟩ c hc
    obtain rfl := Option.some.inj (hk.symm.trans hl)
    obtain rfl := Option.some.inj (hk'.symm.trans hl')
    have hcell := hwf c hc
    have hc' := (hkept' c).mpr ⟨hcell, .inl ((hw.marked c hcell).mpr (.inr hc))⟩
    exact ((hkept c).mp ((hsame c).mp hc')).2
  · intro hall
    refine ⟨k, k', hk, hk', fun c => ?_⟩
    rw [hkept, hkept']
    refine and_congr_right fun hcell => ?_
    rw [hw.marked c hcell, or_assoc]
    exact ⟨fun hc => hc.elim .inl fun hc => hc.elim (hall c) .inr, fun hc => hc.imp_right .inr⟩

/-- **When a walk is read-only**: all cells that it visits were marked before. A collection after it frees
the same cells as without it if each of them was marked before or is reachable from the roots of the
collection. -/
theorem walks_read_only_iff (hr : Reachable Strong h) (hstrong : Strong spurious)
    (hwf : PointsToCells h.space roots) (hfuel : h.space.cells.length ≤ fuel) :
    (h.WalksReadOnly spurious roots fuel ↔ ∀ c ∈ h.space.reachable roots, h.space.isMarked c = true) ∧
    (h.defers = 0 → PointsToCells h.space roots' → ((∃ h', h.walkInContext spurious roots fuel = some h' ∧
        h.CollectsAlike h' spurious beyond roots' fuel) ↔
      ∀ c ∈ h.space.reachable roots, h.space.isMarked c = true ∨ c ∈ h.space.reachable roots')) := by
  have hready := hr.ready
  obtain ⟨ps, h', hps, hwalk, hw⟩ := exists_walk hstrong hready hwf hfuel
  refine ⟨⟨?_, fun hall => ?_⟩, fun hdefers hwf' => ?_⟩
  · rintro ⟨qs, k, -, hk, -, -, hsame, -⟩ c hc
    obtain rfl := Option.some.inj (hwalk.symm.trans hk)
    have hcell := hwf c hc
    rw [← hsame.marked c hcell, hw.marked c hcell]
    exact .inr hc
  · have hmark : ∀ c ∈ h.space.cells, h'.space.isMarked c = h.space.isMarked c := by
      intro c hc
      rw [Bool.eq_iff_iff, hw.marked c hc]
      exact ⟨fun hm => hm.elim id (hall c), .inl⟩
    refine ⟨ps, h', hps, hwalk, hw.nodup, hw.visited,
      hw.keeps.graph.sameMarks hready.inv hw.keeps.inv hw.state hmark, ?_⟩
    intro spurious' hstrong' beyond roots' hwf' fuel' hfuel'
    by_cases hdefers : h.defers = 0
    · exact (hw.collectsAlike_iff hstrong' hready hdefers hwf hwf' hfuel').mpr fun c hc => .inl (hall c hc)
    · have hcells : h'.space.cells = h.space.cells := hw.keeps.graph.cells
      refine ⟨h, h', if_pos (Nat.pos_of_ne_zero hdefers), if_pos ?_, fun c => by rw [hcells]⟩
      rw [hw.defers]
      exact Nat.pos_of_ne_zero hdefers
  · rw [← hw.collectsAlike_iff hstrong hready hdefers hwf hwf' hfuel]
    constructor
    · rintro ⟨k, hk, halike⟩
      obtain rfl := Option.some.inj (hwalk.symm.trans hk)
      exact halike
    · exact fun halike => ⟨h', hwalk, halike⟩

theorem walks_read_only_iff_selfLoop :
    (selfLoop.WalksReadOnly (fun _ => false) [32680] 1 ↔
      ∀ c ∈ selfLoop.space.reachable [32680], selfLoop.space.isMarked c = true) ∧
    (selfLoop.defers = 0 → PointsToCells selfLoop.space [32680] →
      ((∃ h', selfLoop.walkInContext (fun _ => false) [32680] 1 = some h' ∧
        selfLoop.CollectsAlike h' (fun _ => false) (fun _ => 0#64) [32680] 1) ↔
      ∀ c ∈ selfLoop.space.reachable [32680],
        selfLoop.space.isMarked c = true ∨ c ∈ selfLoop.space.reachable [32680])) :=
  walks_read_only_iff reachable_selfLoop (fun _ => rfl) pointsToCells_selfLoop
    (by rw [cells_selfLoop]; decide)

set_option maxRecDepth 4000 in
/-- The walk leaves the cell marked, and a collection without roots frees it only if there was no walk. -/
theorem not_walksReadOnly_selfLoop : Reachable Strong selfLoop ∧
    ¬ selfLoop.WalksReadOnly (fun _ => false) [32680] 1 ∧
    ∀ h', selfLoop.walkInContext (fun _ => false) [32680] 1 = some h' →
      ¬ selfLoop.CollectsAlike h' (fun _ => false) (fun _ => 0#64) [] 1 := by
  have hready := reachable_selfLoop.ready
  have hcell : 32680 ∈ selfLoop.space.cells := by
    rw [cells_selfLoop]
    exact List.mem_singleton_self _
  have hold : selfLoop.space.isMarked 32680 = false := by decide
  have hroot : 32680 ∈ selfLoop.space.reachable [32680] :=
    Graph.reach_root ⟨List.mem_singleton_self _, Space.isHeapPointer_of_mem_cells hready.inv hcell⟩
  have hnone : 32680 ∉ selfLoop.space.reachable [] := by
    rintro ⟨r, hr, -⟩
    exact absurd hr.1 List.not_mem_nil
  have hempty : PointsToCells selfLoop.space [] := by
    rintro p ⟨r, hr, -⟩
    exact absurd hr.1 List.not_mem_nil
  have hfuel : selfLoop.space.cells.length ≤ 1 := by rw [cells_selfLoop]; decide
  obtain ⟨ps, h', -, hwalk, hw⟩ := @exists_walk selfLoop (fun _ => false) _ 1 (fun _ => rfl) hready
    pointsToCells_selfLoop hfuel
  have hcollect : ¬ selfLoop.CollectsAlike h' (fun _ => false) (fun _ => 0#64) [] 1 := by
    rw [hw.collectsAlike_iff (fun _ => rfl) hready rfl pointsToCells_selfLoop hempty hfuel]
    intro hall
    rcases hall 32680 hroot with hm | hm
    · rw [hold] at hm
      exact Bool.false_ne_true hm
    · exact hnone hm
  have hsame : ∀ k, selfLoop.walkInContext (fun _ => false) [32680] 1 = some k → k = h' := fun k hk =>
    Option.some.inj (hk.symm.trans hwalk)
  refine ⟨reachable_selfLoop, ?_, fun k hk => hsame k hk ▸ hcollect⟩
  rintro ⟨-, k, -, hk, -, -, -, halike⟩
  exact hcollect (hsame k hk ▸ halike (fun _ => false) (fun _ => rfl) (fun _ => 0#64) [] hempty 1 hfuel)

end Heap

end Starlight.Gc
