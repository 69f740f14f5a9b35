import Starlight.Gc.HeapInvariant

/-!
# What a collection frees, and what it does to weak references

A collection keeps the cells that are marked when marking ends: the reachable ones, and those that
carried a mark before. The sweep clears the bits of the mark bitmap, but the flag of a large cell is
never cleared. So a collection frees exactly the garbage, and leaves no mark, exactly if no large
cell is reachable and no unreachable cell was marked before it (`collects_garbage_iff`).

Whatever it frees, a collection leaves alone what the roots reach, and a weak reference keeps its
target until it is cleared. So a program that stores only what it gets at never gets at a freed cell.
-/

namespace Starlight.Gc

namespace Heap

open SlotVisitor

variable {h : Heap} {spurious : ℕ → Bool} {beyond : ℕ → BitVec 64} {roots : List ℕ} {fuel : ℕ}
  {v : SlotVisitor} {c w t : ℕ} {allowed : (ℕ → Bool) → Prop} {h' : Heap}

/-- The heap at the end of a collection whose marking was `v`. -/
def collected (h : Heap) (v : SlotVisitor) (beyond : ℕ → BitVec 64) : Heap :=
  { h.weakPhase v beyond with space := (h.weakPhase v beyond).space.sweep }

theorem collect_eq_collected (hdefers : h.defers = 0)
    (hv : marking spurious h.space roots fuel = some v) :
    h.collect spurious beyond roots fuel = some (h.collected v beyond) := by
  rw [collect, hdefers, if_neg (lt_irrefl 0), hv]
  rfl

/-! ### Small heaps -/

def oneLarge : Heap :=
  (((new Space.threeBlocks).allocate 9000 (.cell []) 1000008).get (by decide)).2

theorem reachable_threeBlocks {allowed : (ℕ → Bool) → Prop} :
    Reachable allowed (new Space.threeBlocks) :=
  .new ⟨by decide, by decide⟩ fun _ h => absurd h List.not_mem_nil

theorem reachable_oneLarge {allowed : (ℕ → Bool) → Prop} : Reachable allowed oneLarge :=
  reachable_threeBlocks.step
    (@Step.allocate allowed (new Space.threeBlocks) oneLarge 9000 1000008 1000008 []
      (fun _ => ⟨by decide, by decide⟩) rfl)

set_option maxRecDepth 4000 in
theorem isSome_allocate_self :
    ((new Space.threeBlocks).allocate 0 (.cell [32680]) 0).isSome = true := by decide

/-- A heap with one small cell, which refers to itself. -/
def selfLoop : Heap :=
  (((new Space.threeBlocks).allocate 0 (.cell [32680]) 0).get isSome_allocate_self).2

theorem reachable_selfLoop {allowed : (ℕ → Bool) → Prop} : Reachable allowed selfLoop :=
  reachable_threeBlocks.step
    (.allocate (fun h => absurd h (by decide)) (Option.some_get isSome_allocate_self).symm)

set_option maxRecDepth 4000 in
theorem cells_selfLoop : selfLoop.space.cells = [32680] := by decide

/-! ### Garbage -/

/-- A collection ends, frees the unreachable cells and no other, and leaves no mark. -/
def CollectsGarbage (h : Heap) (spurious : ℕ → Bool) (beyond : ℕ → BitVec 64) (roots : List ℕ)
    (fuel : ℕ) : Prop :=
  ∃ h', h.collect spurious beyond roots fuel = some h' ∧
    (∀ c ∈ h.space.cells, c ∈ h'.space.cells ↔ c ∈ h.space.reachable roots) ∧
    (∀ g, g / 64 < h'.space.markBitmap.size → h'.space.markBitmap.bit g = false) ∧
    ∀ a ∈ h'.space.preciseAllocations, a.isMarked = false

theorem bit_mark_sweep {s : Space} (hs : s.Inv) (ho : s.Ordered) {g : ℕ}
    (hg : g / 64 < s.sweep.markBitmap.size) : s.sweep.markBitmap.bit g = false := by
  have hswept := Space.swept_sweep hs ho
  cases hbit : s.sweep.markBitmap.bit g with
  | false => rfl
  | true =>
    rw [hswept.inv.geometry.mark_size] at hg
    have hlive := hswept.inv.liveCells.mark_live g hg hbit
    obtain ⟨i, base, hb, c, hc, rfl⟩ := hswept.inv.liveCells.live_cell g hg hlive
    have hmark := hswept.mark i base (hswept.dirBlocks i base hb) c
      (hswept.cells i base hb ▸ hc)
    rw [SpaceBitmap.test_eq_bit, hswept.inv.geometry.granule_eq, hbit] at hmark
    exact hmark

theorem precise_collected (hk : (start h.space).Keeps v) :
    (h.collected v beyond).space.preciseAllocations =
      v.space.preciseAllocations.filter (·.isMarked) := by
  have hphase := @weakPhase_spec h v beyond hk.inv hk.ordered
  have hswept := Space.swept_sweep hphase.inv hphase.ordered
  exact hswept.precise.trans (congrArg (List.filter (·.isMarked)) hphase.precise)

/-- **A collection is exact only without large cells.** It frees exactly the unreachable cells and
leaves no mark, exactly if no large cell is reachable and no unreachable cell was marked before. -/
theorem collects_garbage_iff (hr : Reachable Strong h) (hstrong : Strong spurious)
    (hdefers : h.defers = 0) (hwf : PointsToCells h.space roots)
    (hfuel : h.space.cells.length ≤ fuel) :
    h.CollectsGarbage spurious beyond roots fuel ↔
      (∀ c ∈ h.space.reachable roots, h.space.liveBitmap.hasAddress c = true) ∧
        ∀ c ∈ h.space.cells, h.space.isMarked c = true → c ∈ h.space.reachable roots := by
  have hready := hr.ready
  obtain ⟨v, hv⟩ := @exists_marking spurious h.space roots hready.inv hready.ordered hwf fuel hfuel
  have hk := keeps_marking hready.inv hready.ordered hv
  have hmarked : ∀ c ∈ h.space.cells, (v.space.isMarked c = true ↔
      h.space.isMarked c = true ∨ c ∈ h.space.reachable roots) := by
    intro c hc
    obtain ⟨hmark, hnil⟩ := marking_spec hready.inv hready.ordered hwf hv
    rw [hmark.marked c hc, mem_seen, hnil, ← traced_marking hstrong hready hwf hv]
    exact or_congr_right (or_iff_right List.not_mem_nil)
  have hprecise := @precise_collected h beyond v hk
  have hcells : ∀ c, c ∈ (h.collected v beyond).space.cells ↔
      c ∈ h.space.cells ∧ v.space.isMarked c = true := fun c => mem_cells_collect hk
  constructor
  · rintro ⟨h', hcollect, hfreed, -, hflags⟩
    rw [collect_eq_collected hdefers hv, Option.some.injEq] at hcollect
    subst hcollect
    refine ⟨fun c hc => ?_, fun c hc hold => ?_⟩
    · -- a reachable large cell keeps its flag
      by_contra hlarge
      rw [Bool.not_eq_true] at hlarge
      have hout : v.space.liveBitmap.hasAddress c = false := by
        rw [hk.graph.live]
        exact hlarge
      have hflag := (hmarked c (hwf c hc)).mpr (Or.inr hc)
      rw [Space.isMarked, hout, if_neg Bool.false_ne_true, List.any_eq_true] at hflag
      obtain ⟨a, ha, hac⟩ := hflag
      rw [Bool.and_eq_true] at hac
      have hclear := hflags a (by rw [hprecise]; exact List.mem_filter.mpr ⟨ha, hac.2⟩)
      rw [hac.2] at hclear
      exact Bool.false_ne_true hclear.symm
    · exact (hfreed c hc).mp ((hcells c).mpr ⟨hc, (hmarked c hc).mpr (Or.inl hold)⟩)
  · rintro ⟨hsmall, hstale⟩
    refine ⟨h.collected v beyond, collect_eq_collected hdefers hv, fun c hc => ?_, fun g hg => ?_,
      fun a ha => ?_⟩
    · rw [hcells c, hmarked c hc]
      exact ⟨fun h => h.2.elim (hstale c hc) id, fun hreach => ⟨hc, Or.inr hreach⟩⟩
    · have hphase := @weakPhase_spec h v beyond hk.inv hk.ordered
      exact bit_mark_sweep hphase.inv hphase.ordered hg
    · rw [hprecise] at ha
      obtain ⟨ha, hflag⟩ := List.mem_filter.mp ha
      have hout := hk.inv.largeCells.outside a ha
      have hcell : a.cell ∈ h.space.cells := by
        have hlarge : a.cell ∈ (start h.space).space.preciseAllocations.map (·.cell) :=
          hk.graph.large ▸ List.mem_map_of_mem ha
        exact (Space.mem_cells hready.inv).mpr (Or.inr hlarge)
      have hmark : v.space.isMarked a.cell = true := by
        rw [Space.isMarked, hout, if_neg Bool.false_ne_true, List.any_eq_true]
        refine ⟨a, ha, ?_⟩
        rw [hflag, Bool.and_true]
        exact beq_self_eq_true _
      have hreach := ((hmarked _ hcell).mp hmark).elim (hstale _ hcell) id
      rw [hk.graph.live] at hout
      exact absurd ((hsmall _ hreach).symm.trans hout) (by simp)

set_option maxRecDepth 4000 in
theorem pointsToCells_selfLoop : PointsToCells selfLoop.space [32680] :=
  pointsToCells_of_closed (by rw [cells_selfLoop]; decide) (by rw [cells_selfLoop]; decide)

theorem collects_garbage_iff_selfLoop :
    selfLoop.CollectsGarbage (fun _ => false) (fun _ => 0#64) [32680] 1 ↔
      (∀ c ∈ selfLoop.space.reachable [32680], selfLoop.space.liveBitmap.hasAddress c = true) ∧
        ∀ c ∈ selfLoop.space.cells, selfLoop.space.isMarked c = true →
          c ∈ selfLoop.space.reachable [32680] :=
  collects_garbage_iff reachable_selfLoop (fun _ => rfl) rfl pointsToCells_selfLoop
    (by rw [cells_selfLoop]; decide)

/-- The heap after a collection that has the large cell as a root. -/
def keptLarge : Heap :=
  (oneLarge.collect (fun _ => false) (fun _ => 0#64) [1000008] 1).get (by decide)

/-- The next collection, without roots, does not free the large cell. -/
theorem not_collectsGarbage_keptLarge : Reachable Strong keptLarge ∧
    ¬ keptLarge.CollectsGarbage (fun _ => false) (fun _ => 0#64) [] 1 := by
  refine ⟨reachable_oneLarge.step (.collect (fun _ => rfl) (Option.some_get _).symm), ?_⟩
  rintro ⟨h', hcollect, hfreed, -⟩
  have hkept : (keptLarge.collect (fun _ => false) (fun _ => 0#64) [] 1).map (·.space.cells) =
      some [1000008] := by decide
  have hcell : 1000008 ∈ keptLarge.space.cells := by decide
  rw [hcollect, Option.map_some, Option.some.injEq] at hkept
  obtain ⟨r, hr, -⟩ := (hfreed 1000008 hcell).mp (hkept ▸ List.mem_singleton_self _)
  exact absurd hr.1 List.not_mem_nil

/-! ### Weak references -/

/-- The weak phase after the marking `v` is exact: a slot is cleared exactly if its target is not
marked; afterwards no slot leads to a freed cell, and none has lost a live one. -/
structure WeakExact (h : Heap) (v : SlotVisitor) (beyond : ℕ → BitVec 64) : Prop where
  cleared : ∀ w ∈ h.weakRefs, ∀ t, h.upgrade w = some t →
    ((h.weakPhase v beyond).upgrade w = none ↔ v.space.isMarked t = false)
  live : ∀ w ∈ (h.collected v beyond).weakRefs, ∀ t, (h.collected v beyond).upgrade w = some t →
    t ∈ (h.collected v beyond).space.cells
  kept : ∀ w ∈ (h.collected v beyond).weakRefs, ∀ t, h.upgrade w = some t →
    t ∈ (h.collected v beyond).space.cells → (h.collected v beyond).upgrade w = some t

theorem upgrade_collected (hk : (start h.space).Keeps v) (w : ℕ) :
    (h.collected v beyond).upgrade w = (h.weakPhase v beyond).upgrade w := by
  have hphase := @weakPhase_spec h v beyond hk.inv hk.ordered
  exact upgrade_congr ((Space.swept_sweep hphase.inv hphase.ordered).payload w)

theorem test_beyond {s : Space} (hg : s.Geometry) (hout : s.liveBitmap.hasAddress t = false) :
    (s.withBeyond beyond).markBitmap.test t =
      (beyond (s.markBitmap.granule t / 64)).getLsbD (s.markBitmap.granule t % 64) := by
  rw [← Bool.not_eq_true, SpaceBitmap.hasAddress_iff, ← hg.granule_eq, ← hg.mark_size] at hout
  have hword : (s.withBeyond beyond).markBitmap.word (s.markBitmap.granule t / 64) =
      beyond (s.markBitmap.granule t / 64) := if_neg hout
  rw [SpaceBitmap.test_eq_bit, SpaceBitmap.bit]
  exact congrArg (fun word : BitVec 64 => word.getLsbD (s.markBitmap.granule t % 64)) hword

/-- **Weak references are exact only for small targets.** In every reachable heap and after every
marking, the weak phase is exact, whatever lies behind the bitmap, exactly if no registered slot has
a large target. -/
theorem weak_references_exact_iff (hr : Reachable (fun _ => True) h)
    (hv : marking spurious h.space roots fuel = some v) :
    (∀ beyond, h.WeakExact v beyond) ↔
      ∀ w ∈ h.weakRefs, ∀ t, h.upgrade w = some t → h.space.liveBitmap.hasAddress t = true := by
  have hc := hr.consistent
  have hk := keeps_marking hc.inv hc.ordered hv
  constructor
  · intro hexact w hw t ht
    by_contra hlarge
    rw [Bool.not_eq_true] at hlarge
    have hout : v.space.liveBitmap.hasAddress t = false := by
      rw [hk.graph.live]
      exact hlarge
    -- memory behind the bitmap that says the opposite of the flag of the target
    have hcleared := (hexact fun _ => if v.space.isMarked t then 0#64 else BitVec.allOnes 64).cleared
      w hw t ht
    rw [upgrade_weakPhase hc hk hw, ht, Option.filter_some,
      test_beyond hk.inv.geometry hout] at hcleared
    have hlt : v.space.markBitmap.granule t % 64 < 64 := Nat.mod_lt _ (by decide)
    cases hm : v.space.isMarked t with
    | true => simp [hm] at hcleared
    | false =>
      rw [hm, if_neg Bool.false_ne_true, BitVec.getLsbD_allOnes, decide_eq_true hlt,
        if_pos rfl] at hcleared
      simp at hcleared
  · intro hsmall beyond
    have htest : ∀ w ∈ h.weakRefs, ∀ t, h.upgrade w = some t →
        (v.space.withBeyond beyond).markBitmap.test t = v.space.isMarked t := by
      intro w hw t ht
      have hin : v.space.liveBitmap.hasAddress t = true := by
        rw [hk.graph.live]
        exact hsmall w hw t ht
      rw [test_withBeyond hk.inv.geometry hin, Space.isMarked, hin, if_pos rfl]
    have hrefs : ∀ w ∈ (h.collected v beyond).weakRefs, w ∈ h.weakRefs := by
      intro w hw
      have hw' : w ∈ (h.weakPhase v beyond).weakRefs := hw
      rw [(@weakPhase_spec h v beyond hk.inv hk.ordered).weakRefs] at hw'
      exact List.mem_of_mem_filter hw'
    refine ⟨fun w hw t ht => ?_, fun w hw t ht => ?_, fun w hw t ht hlive => ?_⟩
    · rw [upgrade_weakPhase hc hk hw, ht, Option.filter_some, htest w hw t ht]
      cases v.space.isMarked t with
      | true => simp
      | false => simp
    · rw [upgrade_collected hk, upgrade_weakPhase hc hk (hrefs w hw),
        Option.filter_eq_some_iff] at ht
      have hmarked := ht.2
      rw [htest w (hrefs w hw) t ht.1] at hmarked
      exact (mem_cells_collect hk).mpr
        ⟨hc.target w (hrefs w hw) t ht.1 (hsmall w (hrefs w hw) t ht.1), hmarked⟩
    · rw [upgrade_collected hk, upgrade_weakPhase hc hk (hrefs w hw), ht, Option.filter_some,
        htest w (hrefs w hw) t ht, ((mem_cells_collect hk).mp hlive).2, if_pos rfl]

set_option maxRecDepth 4000 in
theorem isSome_makeWeak_selfLoop : (selfLoop.makeWeak (some 32680)).isSome = true := by decide

def weakToSmall : Heap := ((selfLoop.makeWeak (some 32680)).get isSome_makeWeak_selfLoop).2

theorem reachable_weakToSmall : Reachable (fun _ => True) weakToSmall :=
  reachable_selfLoop.step (.makeWeak (by
      rintro t ht
      rw [← Option.some.inj ht, cells_selfLoop]
      exact List.mem_singleton_self _)
    (Option.some_get isSome_makeWeak_selfLoop).symm)

theorem weak_references_exact_iff_weakToSmall :
    (∀ beyond, weakToSmall.WeakExact (start weakToSmall.space) beyond) ↔
      ∀ w ∈ weakToSmall.weakRefs, ∀ t, weakToSmall.upgrade w = some t →
        weakToSmall.space.liveBitmap.hasAddress t = true :=
  @weak_references_exact_iff weakToSmall (fun _ => false) [] 0 _ reachable_weakToSmall rfl

set_option maxRecDepth 4000 in
theorem isSome_makeWeak_oneLarge : (oneLarge.makeWeak (some 1000008)).isSome = true := by decide

def weakToLarge : Heap := ((oneLarge.makeWeak (some 1000008)).get isSome_makeWeak_oneLarge).2

set_option maxRecDepth 4000 in
theorem isSome_marking_weakToLarge :
    (marking (fun _ => false) weakToLarge.space [1000008, 32664] 2).isSome = true := by decide

def markingWeakToLarge : SlotVisitor :=
  (marking (fun _ => false) weakToLarge.space [1000008, 32664] 2).get isSome_marking_weakToLarge

set_option maxRecDepth 4000 in
/-- The slot is cleared although its large target is marked. -/
theorem not_weakExact_weakToLarge : Reachable (fun _ => True) weakToLarge ∧
    marking (fun _ => false) weakToLarge.space [1000008, 32664] 2 = some markingWeakToLarge ∧
    ¬ weakToLarge.WeakExact markingWeakToLarge (fun _ => 0#64) := by
  refine ⟨reachable_oneLarge.step (.makeWeak ?_ (Option.some_get isSome_makeWeak_oneLarge).symm),
    (Option.some_get _).symm, fun h => ?_⟩
  · rintro t ht
    rw [← Option.some.inj ht]
    decide
  · have hslot : 32664 ∈ weakToLarge.weakRefs := by decide
    have hcleared : (weakToLarge.weakPhase markingWeakToLarge fun _ => 0#64).upgrade 32664 = none :=
      by decide
    have hmarked : markingWeakToLarge.space.isMarked 1000008 = true := by decide
    have hfalse := (h.cleared 32664 hslot 1000008 (by decide)).mp hcleared
    rw [hmarked] at hfalse
    exact Bool.false_ne_true hfalse.symm

/-! ### Runs -/

theorem upgrade_step (hc : h.Consistent) (hstep : Step allowed h h') (hw : w ∈ h.weakRefs) :
    h'.upgrade w = h.upgrade w ∨ h'.upgrade w = none := by
  have hothers : ∀ {value p h₁}, h.Allocates value p h₁ → h₁.upgrade w = h.upgrade w := fun ha =>
    upgrade_congr (congrArg Obj.payload (ha.others w (ne_of_mem_of_not_mem (hc.slot_cell w hw) ha.fresh)))
  cases hstep with
  | allocate hcell heq => exact .inl (hothers (allocates_allocate hc hcell heq).1)
  | makeWeak htarget heq =>
    obtain ⟨h₁, halloc, rfl⟩ := makeWeak_cases heq
    have hsame := hothers (allocates_allocate hc (fun h => absurd h (by decide)) halloc).1
    exact .inl hsame
  | @write p old fields hp =>
    obtain ⟨value, hvalue⟩ := hc.slot_payload w hw
    have hne : w ≠ p := by
      rintro rfl
      exact Payload.noConfusion (hvalue.symm.trans hp)
    exact .inl (upgrade_congr (congrArg Obj.payload (Space.objects_setObject.trans (if_neg hne))))
  | defer => exact .inl rfl
  | undefer heq =>
    rw [undefer_cases heq]
    exact .inl rfl
  | walkInContext _ _ heq =>
    obtain ⟨v, hv, rfl⟩ := walkInContext_cases heq
    have hk := keeps_marking hc.inv hc.ordered hv
    exact .inl (upgrade_congr ((hk.trans (keeps_whiten v.traced hk.inv hk.ordered)).graph.payload w))
  | @collect _ _ beyond _ _ _ heq =>
    rcases collect_cases heq with ⟨-, rfl⟩ | ⟨-, v, hv, rfl⟩
    · exact .inl rfl
    · have hk := keeps_marking hc.inv hc.ordered hv
      have hfilter : (h.collected v beyond).upgrade w = _ :=
        (upgrade_collected hk w).trans (upgrade_weakPhase hc hk hw)
      change (h.collected v beyond).upgrade w = _ ∨ (h.collected v beyond).upgrade w = none
      rw [hfilter]
      cases h.upgrade w with
      | none => exact .inr rfl
      | some t =>
        rw [Option.filter_some]
        split
        · exact .inl rfl
        · exact .inr rfl

/-- **A weak reference is never given another target.** In every run through which its slot is registered, it
keeps its target or is cleared for good. -/
theorem upgrade_of_run (hr : Reachable allowed h)
    (hrun : Relation.ReflTransGen (fun h h' => Step allowed h h' ∧ w ∈ h'.weakRefs) h h')
    (hw : w ∈ h.weakRefs) : h'.upgrade w = h.upgrade w ∨ h'.upgrade w = none := by
  have hall : Reachable allowed h' ∧ w ∈ h'.weakRefs ∧
      (h'.upgrade w = h.upgrade w ∨ h'.upgrade w = none) := by
    induction hrun with
    | refl => exact ⟨hr, hw, .inl rfl⟩
    | tail _ hstep ih =>
      obtain ⟨hr₁, hw₁, hsame⟩ := ih
      refine ⟨hr₁.step hstep.1, hstep.2, ?_⟩
      rcases upgrade_step hr₁.consistent hstep.1 hw₁ with h₁ | h₁
      · rwa [h₁]
      · exact .inr h₁
  exact hall.2.2

set_option maxRecDepth 4000 in
theorem upgrade_of_run_weakToSmall : ∃ h',
    weakToSmall.collect (fun _ => false) (fun _ => 0#64) [49048] 1 = some h' ∧
      (h'.upgrade 49048 = weakToSmall.upgrade 49048 ∨ h'.upgrade 49048 = none) := by
  have hrun : (weakToSmall.collect (fun _ => false) (fun _ => 0#64) [49048] 1).any
      (fun h' => 49048 ∈ h'.weakRefs) = true := by decide
  obtain ⟨h', heq, hw⟩ := (Option.any_eq_true _ _).mp hrun
  exact ⟨h', heq, upgrade_of_run reachable_weakToSmall
    (.single ⟨.collect trivial heq, of_decide_eq_true hw⟩) (by decide)⟩

/-! ### What the mutator sees -/

theorem isHeapPointer_of_sweep {s : Space} (hs : s.Inv) (ho : s.Ordered)
    (hp : s.sweep.isHeapPointer c = true) : s.isHeapPointer c = true := by
  have hswept := Space.swept_sweep hs ho
  have hgranule : ∀ p, s.sweep.liveBitmap.granule p = s.liveBitmap.granule p := by
    intro p
    rw [SpaceBitmap.granule, SpaceBitmap.granule, SpaceBitmap.offset, SpaceBitmap.offset, hswept.live_begin]
  rw [Space.isHeapPointer, SpaceBitmap.hasAddress, SpaceBitmap.offset, hswept.live_begin,
    hswept.live_size] at hp
  rw [Space.isHeapPointer, SpaceBitmap.hasAddress, SpaceBitmap.offset]
  split at hp
  · next hin =>
    rw [if_pos hin, SpaceBitmap.test_eq_bit, ← hgranule]
    rw [SpaceBitmap.test_eq_bit] at hp
    obtain ⟨i, base, hb, d, hd, hg⟩ := hswept.inv.liveCells.live_cell _
      (by rw [hswept.live_size, hgranule]; exact of_decide_eq_true hin) hp
    have hlive := hswept.live i base (hswept.dirBlocks i base hb) d (hswept.cells i base hb ▸ hd)
    rw [SpaceBitmap.test_eq_bit, hg, hp] at hlive
    obtain ⟨hlive, -⟩ := (Bool.and_eq_true _ _).mp hlive.symm
    rwa [SpaceBitmap.test_eq_bit, ← hgranule, hg] at hlive
  · next hin =>
    rw [Space.containsLarge, hswept.precise, List.any_filter, List.any_eq_true] at hp
    obtain ⟨a, ha, hac⟩ := hp
    rw [if_neg hin, Space.containsLarge, List.any_eq_true]
    exact ⟨a, ha, ((Bool.and_eq_true _ _).mp hac).2⟩

/-- The reachable cells are still there with their contents, and no other cell has become reachable. -/
structure Intact (h h' : Heap) (roots : List ℕ) : Prop where
  kept : ∀ c ∈ h.space.reachable roots, c ∈ h'.space.cells
  payload : ∀ c ∈ h.space.reachable roots, c ∉ h.weakRefs →
    (h'.space.objects c).payload = (h.space.objects c).payload
  reachable : h'.space.reachable roots = h.space.reachable roots

theorem trace_collected (hc : h.Consistent) (hk : (start h.space).Keeps v) (a : ℕ) :
    ((h.collected v beyond).space.objects a).payload.trace = (h.space.objects a).payload.trace ∧
      (a ∉ h.weakRefs →
        ((h.collected v beyond).space.objects a).payload = (h.space.objects a).payload) := by
  have hphase := @weakPhase_spec h v beyond hk.inv hk.ordered
  rw [collected, (Space.swept_sweep hphase.inv hphase.ordered).payload a]
  by_cases ha : a ∈ h.weakRefs
  · obtain ⟨value, hvalue⟩ := hc.slot_payload a ha
    refine ⟨?_, fun hno => absurd ha hno⟩
    rw [hphase.slots a ha, hvalue, Space.keepMarked.eq_def]
    split
    · split <;> rfl
    · rfl
  · have hpayload : ((h.weakPhase v beyond).space.objects a).payload = (h.space.objects a).payload := by
      rw [hphase.others a ha]
      exact hk.graph.payload a
    exact ⟨congrArg _ hpayload, fun _ => hpayload⟩

theorem intact_collected (hr : Reachable Strong h) (hstrong : Strong spurious)
    (hwf : PointsToCells h.space roots) (hv : marking spurious h.space roots fuel = some v) :
    h.Intact (h.collected v beyond) roots := by
  have hready := hr.ready
  have hk := keeps_marking hready.inv hready.ordered hv
  have hphase := @weakPhase_spec h v beyond hk.inv hk.ordered
  have hswept := Space.swept_sweep hphase.inv hphase.ordered
  have htrace := @trace_collected h beyond v hr.consistent hk
  have hback : ∀ p, (h.collected v beyond).space.isHeapPointer p = true →
      h.space.isHeapPointer p = true := by
    intro p hp
    have hp := isHeapPointer_of_sweep hphase.inv hphase.ordered hp
    rw [Space.isHeapPointer, Space.containsLarge, hphase.live, hphase.precise] at hp
    exact (hk.graph.isHeapPointer p).symm.trans hp
  have hkept : ∀ c ∈ h.space.reachable roots, c ∈ (h.collected v beyond).space.cells := by
    intro c hc
    obtain ⟨hmark, -⟩ := marking_spec hready.inv hready.ordered hwf hv
    refine (mem_cells_collect hk).mpr ⟨hwf c hc, (hmark.marked c (hwf c hc)).mpr (.inr ?_)⟩
    rw [← traced_marking hstrong hready hwf hv] at hc
    exact mem_seen.mpr (.inr hc)
  have hsub : (h.collected v beyond).space.reachable roots ⊆ h.space.reachable roots :=
    Graph.reach_subset (fun r hroot => Graph.reach_root ⟨hroot.1, hback r hroot.2⟩) fun a ha b hab =>
      Graph.reach_step ha ⟨(htrace a).1 ▸ hab.1, hback b hab.2⟩
  have hheap : ∀ c ∈ h.space.reachable roots, (h.collected v beyond).space.isHeapPointer c = true :=
    fun c hc => Space.isHeapPointer_of_mem_cells hswept.inv (hkept c hc)
  refine ⟨hkept, fun c _ hc => (htrace c).2 hc, hsub.antisymm (Graph.reach_subset ?_ ?_)⟩
  · exact fun r hroot => Graph.reach_root ⟨hroot.1, hheap r (Graph.reach_root hroot)⟩
  · intro a ha b hab
    exact Graph.reach_step ha ⟨(htrace a).1.symm ▸ hab.1, hheap b (Graph.reach_step (hsub ha) hab)⟩

/-- **No collection touches what the roots reach.** -/
theorem intact_of_collect (hr : Reachable Strong h) (hstrong : Strong spurious)
    (hwf : PointsToCells h.space roots) (heq : h.collect spurious beyond roots fuel = some h') :
    h.Intact h' roots := by
  rcases collect_cases heq with ⟨-, rfl⟩ | ⟨-, v, hv, rfl⟩
  · exact ⟨hwf, fun _ _ _ => rfl, rfl⟩
  · exact intact_collected hr hstrong hwf hv

theorem intact_selfLoop : ∃ h', selfLoop.collect (fun _ => false) (fun _ => 0#64) [32680] 1 = some h' ∧
    selfLoop.Intact h' [32680] := by
  obtain ⟨v, hv⟩ := @exists_marking (fun _ => false) selfLoop.space [32680] reachable_selfLoop.ready.inv
    reachable_selfLoop.ready.ordered pointsToCells_selfLoop 1 (by rw [cells_selfLoop]; decide)
  have heq := @collect_eq_collected selfLoop _ (fun _ => 0#64) _ _ _ rfl hv
  exact ⟨_, heq, intact_of_collect reachable_selfLoop (fun _ => rfl) pointsToCells_selfLoop heq⟩

/-! ### No dangling pointers -/

/-- What a program gets at from `roots` by following fields, be it a cell or not. -/
def live (h : Heap) (roots : List ℕ) : Set ℕ :=
  Graph.Reach (fun a b => b ∈ (h.space.objects a).payload.trace) {r | r ∈ roots}

/-- The heaps and roots of a program that stores, and takes as roots, only what it gets at. What else happens
between its steps and the collections changes colours and marks only. -/
inductive Program : Heap → List ℕ → Prop
  | new {start size : ℕ} {approximate : List ℕ} {beyond : ℕ → BitVec 64} {memory : ℕ → Obj}
      (hmap : Space.ValidMapping start size) (happrox : ∀ a ∈ approximate, PRECISE_CUTOFF ≤ a) :
      Program (new (.new start size approximate beyond memory)) []
  | hold {h : Heap} {roots roots' : List ℕ} (hr : Program h roots)
      (hroots : ∀ r ∈ roots', r ∈ h.live roots) : Program h roots'
  | allocate {h h' : Heap} {roots fields : List ℕ} {computeSize cell p : ℕ} (hr : Program h roots)
      (hcell : LARGE_CUTOFF < computeSize + 48 → h.space.FreshLarge cell)
      (hfields : ∀ q ∈ fields, q ∈ h.live roots)
      (heq : h.allocate computeSize (.cell fields) cell = some (p, h')) : Program h' (p :: roots)
  | makeWeak {h h' : Heap} {roots : List ℕ} {target : Option ℕ} {p : ℕ} (hr : Program h roots)
      (htarget : ∀ t ∈ target, t ∈ h.live roots) (heq : h.makeWeak target = some (p, h')) :
      Program h' (p :: roots)
  | write {h : Heap} {roots old fields : List ℕ} {p : ℕ} (hr : Program h roots)
      (hp : (h.space.objects p).payload = .cell old) (hfields : ∀ q ∈ fields, q ∈ h.live roots) :
      Program (h.write p fields) roots
  | other {h h' : Heap} {roots : List ℕ} (hr : Program h roots) (hstep : Step Strong h h')
      (hsame : h.space.SameGraph h'.space) : Program h' roots
  | collect {h h' : Heap} {roots : List ℕ} {spurious : ℕ → Bool} {beyond : ℕ → BitVec 64} {fuel : ℕ}
      (hr : Program h roots) (hstrong : Strong spurious)
      (heq : h.collect spurious beyond roots fuel = some h') : Program h' roots

theorem live_subset {L : Set ℕ} (hroots : ∀ r ∈ roots, r ∈ L)
    (hclosed : ∀ a ∈ L, ∀ q ∈ (h.space.objects a).payload.trace, q ∈ L) : h.live roots ⊆ L :=
  Graph.reach_subset hroots hclosed

theorem live_field {a q : ℕ} (ha : a ∈ h.live roots) (hq : q ∈ (h.space.objects a).payload.trace) :
    q ∈ h.live roots :=
  Graph.reach_step ha hq

theorem live_congr (htrace : ∀ a, ∀ q ∈ (h'.space.objects a).payload.trace,
    q ∈ (h.space.objects a).payload.trace ∨ q ∈ h.live roots) : h'.live roots ⊆ h.live roots :=
  live_subset (fun _ hr => Graph.reach_root hr) fun a ha q hq => (htrace a q hq).elim (live_field ha) id

theorem reachable_eq_live (hinv : h.space.Inv) (hlive : h.live roots ⊆ {c | c ∈ h.space.cells}) :
    h.space.reachable roots = h.live roots := by
  have hpointer : ∀ c ∈ h.live roots, h.space.isHeapPointer c = true :=
    fun c hc => Space.isHeapPointer_of_mem_cells hinv (hlive hc)
  have hsub : h.space.reachable roots ⊆ h.live roots :=
    Graph.reach_subset (fun _ hr => Graph.reach_root hr.1) fun _ ha _ hab => live_field ha hab.1
  refine hsub.antisymm (live_subset ?_ fun a ha q hq => ?_)
  · exact fun r hr => Graph.reach_root ⟨hr, hpointer r (Graph.reach_root hr)⟩
  · exact Graph.reach_step ha ⟨hq, hpointer q (live_field (hsub ha) hq)⟩

theorem live_allocates {value : Payload} {p : ℕ} (ha : h.Allocates value p h')
    (hlive : h.live roots ⊆ {c | c ∈ h.space.cells}) (hvalue : ∀ q ∈ value.trace, q ∈ h.live roots) :
    h'.live (p :: roots) ⊆ {c | c ∈ h'.space.cells} := by
  have hsub : h'.live (p :: roots) ⊆ {c | c ∈ h.live roots ∨ c = p} := by
    refine live_subset (fun r hr => ?_) fun a hmem q hq => .inl ?_
    · exact (List.mem_cons.mp hr).symm.imp_left Graph.reach_root
    · by_cases hap : a = p
      · rw [hap, ha.object] at hq
        exact hvalue q hq
      · rw [ha.others a hap] at hq
        exact live_field (hmem.resolve_right hap) hq
  exact fun c hc => (ha.cells c).mpr ((hsub hc).imp_left fun hc => hlive hc)

theorem Program.live_subset_cells (hr : Program h roots) :
    Reachable Strong h ∧ h.live roots ⊆ {c | c ∈ h.space.cells} := by
  induction hr with
  | new hmap happrox =>
    exact ⟨.new hmap happrox, fun c hc =>
      absurd (live_subset (fun _ hr => absurd hr List.not_mem_nil) (fun _ => False.elim) hc) id⟩
  | hold _ hroots ih => exact ⟨ih.1, (live_subset hroots fun _ ha _ => live_field ha).trans ih.2⟩
  | allocate _ hcell hfields heq ih =>
    exact ⟨ih.1.step (.allocate hcell heq),
      live_allocates (allocates_allocate ih.1.consistent hcell heq).1 ih.2 hfields⟩
  | makeWeak _ htarget heq ih =>
    refine ⟨ih.1.step (.makeWeak (fun t ht => ih.2 (htarget t ht)) heq), ?_⟩
    obtain ⟨h₁, halloc, rfl⟩ := makeWeak_cases heq
    have ha := (allocates_allocate ih.1.consistent (fun h => absurd h (by decide)) halloc).1
    have hlive := live_allocates ha ih.2 fun q hq => absurd hq List.not_mem_nil
    exact hlive
  | write _ hp hfields ih =>
    refine ⟨ih.1.step (.write hp), (live_congr fun a q hq => ?_).trans ih.2⟩
    rw [Heap.write, Space.objects_setObject] at hq
    split at hq
    · exact .inr (hfields q hq)
    · exact .inl hq
  | other _ hstep hsame ih =>
    refine ⟨ih.1.step hstep, fun c hc => hsame.cells ▸ ih.2 (live_congr (fun a q hq => ?_) hc)⟩
    exact .inl (hsame.payload a ▸ hq)
  | @collect h h' roots _ beyond _ _ hstrong heq ih =>
    have hc := ih.1.consistent
    have hlive := reachable_eq_live hc.inv ih.2
    refine ⟨ih.1.step (.collect hstrong heq), ?_⟩
    rcases collect_cases heq with ⟨-, rfl⟩ | ⟨-, v, hv, rfl⟩
    · exact ih.2
    · have hwf : PointsToCells h.space roots := fun p hp => ih.2 (hlive ▸ hp)
      have htrace := @trace_collected h beyond v hc (keeps_marking hc.inv hc.ordered hv)
      refine fun c hmem => (intact_collected ih.1 hstrong hwf hv).kept c ?_
      exact hlive ▸ live_congr (fun a q hq => .inl ((htrace a).1 ▸ hq)) hmem

/-- **No dangling pointers.** Whenever collections run, all that a program gets at are cells of the heap, and
the collector reaches the same cells. -/
theorem live_of_program (hr : Program h roots) :
    (∀ c ∈ h.live roots, c ∈ h.space.cells) ∧ h.space.reachable roots = h.live roots :=
  have hlive := hr.live_subset_cells
  ⟨fun _ hc => hlive.2 hc, reachable_eq_live hlive.1.consistent.inv hlive.2⟩

theorem live_of_program_keptLarge : (∀ c ∈ keptLarge.live [1000008], c ∈ keptLarge.space.cells) ∧
    keptLarge.space.reachable [1000008] = keptLarge.live [1000008] := by
  have hone : Program oneLarge [1000008] :=
    @Program.allocate (new Space.threeBlocks) oneLarge [] [] 9000 1000008 1000008
      (.new ⟨by decide, by decide⟩ fun _ h => absurd h List.not_mem_nil) (fun _ => ⟨by decide, by decide⟩)
      (fun _ h => absurd h List.not_mem_nil) rfl
  exact live_of_program (.collect hone (fun _ => rfl) (Option.some_get _).symm)

end Heap

end Starlight.Gc
