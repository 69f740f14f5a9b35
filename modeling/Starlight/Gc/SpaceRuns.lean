import Starlight.Gc.SweepRuns

/-!
# Runs of allocations and collections

A run of the heap space is any sequence of allocations, writes to cells, marks and sweeps; a
collection is some marks followed by a sweep.
-/

namespace Starlight.Gc

namespace Space

variable {s s' : Space} {i j base c d p size cell : ℕ}

/-! ### Marks -/

theorem precise_mark_map (s : Space) (p : ℕ) :
    (s.mark p).preciseAllocations.map (·.cell) = s.preciseAllocations.map (·.cell) := by
  rw [mark]
  split
  · rfl
  · rw [List.map_map]
    refine List.map_congr_left fun a _ => ?_
    rw [Function.comp_apply]
    split <;> rfl

theorem mark_eq_of_hasAddress (h : s.liveBitmap.hasAddress p = true) :
    s.mark p = { s with markBitmap := s.markBitmap.set p } := if_pos h

theorem mark_eq_of_not_hasAddress (h : s.liveBitmap.hasAddress p = false) :
    s.mark p = { s with preciseAllocations :=
      s.preciseAllocations.map fun a => if a.cell = p then { a with isMarked := true } else a } := by
  rw [mark, if_neg]
  rw [h]
  exact Bool.false_ne_true

theorem test_of_isHeapPointer (h : s.isHeapPointer p = true)
    (hp : s.liveBitmap.hasAddress p = true) : s.liveBitmap.test p = true := by
  rwa [isHeapPointer, if_pos hp] at h

theorem inv_mark (h : s.Inv) (hp : s.isHeapPointer p = true) : (s.mark p).Inv := by
  cases hin : s.liveBitmap.hasAddress p with
  | true =>
    rw [mark_eq_of_hasAddress hin]
    refine ⟨{ h.geometry with },
      { h.directories with },
      { h.liveCells with mark_live := ?_ }, { h.largeCells with }⟩
    intro g hg hbit
    change (s.markBitmap.set p).bit g = true at hbit
    rw [SpaceBitmap.bit_set, Bool.or_eq_true, decide_eq_true_iff, h.geometry.granule_eq] at hbit
    rcases hbit with rfl | hbit
    · have hlive := test_of_isHeapPointer hp hin
      rwa [SpaceBitmap.test_eq_bit] at hlive
    · exact h.liveCells.mark_live g hg hbit
  | false =>
    have hmap := precise_mark_map s p
    rw [mark_eq_of_not_hasAddress hin] at hmap ⊢
    refine ⟨{ h.geometry with },
      { h.directories with },
      { h.liveCells with }, ?_, ?_⟩
    · rw [hmap]
      exact h.largeCells.nodup
    · intro a ha
      have hcell : a.cell ∈ s.preciseAllocations.map (·.cell) := hmap ▸ List.mem_map_of_mem ha
      obtain ⟨b, hb, hba⟩ := List.mem_map.mp hcell
      rw [← hba]
      exact h.largeCells.outside b hb

theorem ordered_mark (ho : s.Ordered) : (s.mark p).Ordered := by
  rw [mark]
  split
  · exact ⟨ho.behind_current, ho.unavail_full⟩
  · exact ⟨ho.behind_current, ho.unavail_full⟩

/-- The memory of a cell is written. -/
def setObject (s : Space) (a : ℕ) (obj : Obj) : Space :=
  { s with objects := Function.update s.objects a obj }

theorem inv_setObject (h : s.Inv) {a : ℕ} {obj : Obj} : (s.setObject a obj).Inv where
  geometry := { h.geometry with }
  directories := { h.directories with }
  liveCells := { h.liveCells with }
  largeCells := { h.largeCells with }

theorem ordered_setObject (ho : s.Ordered) {a : ℕ} {obj : Obj} : (s.setObject a obj).Ordered :=
  ⟨ho.behind_current, ho.unavail_full⟩

/-! ### Runs -/

/-- Where the system allocator can put a large cell: at no other large cell, and outside the
mapping. -/
def FreshLarge (s : Space) (cell : ℕ) : Prop :=
  cell ∉ s.preciseAllocations.map (·.cell) ∧ s.liveBitmap.hasAddress cell = false

inductive Step : Space → Space → Prop
  | allocate {s s' : Space} {size cell : ℕ} {ptr : Option ℕ}
      (hcell : LARGE_CUTOFF < size → s.FreshLarge cell)
      (h : s.allocate size cell = some (ptr, s')) : Step s s'
  | write {s : Space} (a : ℕ) (obj : Obj) : Step s (s.setObject a obj)
  | mark {s : Space} {p : ℕ} (hp : s.isHeapPointer p = true) : Step s (s.mark p)
  | sweep {s : Space} : Step s s.sweep

inductive Reachable : Space → Prop
  | new {start size : ℕ} {approximate : List ℕ} {beyond : ℕ → BitVec 64} {memory : ℕ → Obj}
      (hmap : ValidMapping start size) (happrox : ∀ a ∈ approximate, PRECISE_CUTOFF ≤ a) :
      Reachable (.new start size approximate beyond memory)
  | step {s s' : Space} (h : Reachable s) (hstep : Step s s') : Reachable s'

theorem inv_step (h : s.Inv) (ho : s.Ordered) (hstep : Step s s') : s'.Inv ∧ s'.Ordered := by
  cases hstep with
  | @allocate _ size cell ptr hcell halloc =>
    by_cases hsize : size ≤ LARGE_CUTOFF
    · obtain ⟨p, -, hp⟩ := allocatesSmall_allocate h ho hsize halloc
      exact ⟨hp.inv, hp.ordered⟩
    · rw [allocate, if_neg hsize, Option.some.injEq, Prod.mk.injEq] at halloc
      obtain ⟨-, rfl⟩ := halloc
      obtain ⟨hfresh, hout⟩ := hcell (not_le.mp hsize)
      exact ⟨inv_allocateLarge h hfresh hout, ordered_allocateLarge ho⟩
  | write a obj => exact ⟨inv_setObject h, ordered_setObject ho⟩
  | mark hp => exact ⟨inv_mark h hp, ordered_mark ho⟩
  | sweep => exact ⟨(swept_sweep h ho).inv, (swept_sweep h ho).ordered⟩

theorem Reachable.inv (h : Reachable s) : s.Inv ∧ s.Ordered := by
  induction h with
  | new hmap happrox => exact ⟨inv_new hmap happrox, ordered_new⟩
  | step _ hstep ih => exact inv_step ih.1 ih.2 hstep

/-! ### The partition of the blocks -/

inductive BlockList
  | current (index : ℕ)
  | unavail (index : ℕ)
  | free
  deriving DecidableEq

def blocksOn (s : Space) : BlockList → List ℕ
  | .current index => (s.allocatorForSizeClass index).elim [] (·.current)
  | .unavail index => (s.allocatorForSizeClass index).elim [] (·.unavail)
  | .free => s.blockAllocator.freeBlocks

/-- Every block that was handed out is on exactly one list, and once. -/
structure Partitioned (s : Space) : Prop where
  on_some : ∀ base, s.blockAllocator.Built base ↔ ∃ list, base ∈ s.blocksOn list
  on_one : ∀ base list list', base ∈ s.blocksOn list → base ∈ s.blocksOn list' → list = list'
  once : ∀ list, (s.blocksOn list).Nodup

theorem dirBlocks_eq_append (s : Space) (i : ℕ) :
    s.dirBlocks i = s.blocksOn (.current i) ++ s.blocksOn (.unavail i) := by
  rw [dirBlocks, blocksOn, blocksOn]
  cases s.allocatorForSizeClass i with
  | none => rfl
  | some la => rfl

theorem Inv.partitioned (h : s.Inv) : s.Partitioned := by
  have hd := h.directories
  have hcurrent : ∀ {i base}, base ∈ s.blocksOn (.current i) → base ∈ s.dirBlocks i := by
    intro i base hb
    rw [dirBlocks_eq_append]
    exact List.mem_append_left _ hb
  have hunavail : ∀ {i base}, base ∈ s.blocksOn (.unavail i) → base ∈ s.dirBlocks i := by
    intro i base hb
    rw [dirBlocks_eq_append]
    exact List.mem_append_right _ hb
  have happart : ∀ {i base}, base ∈ s.blocksOn (.current i) → base ∉ s.blocksOn (.unavail i) := by
    intro i base hb hb'
    have hnodup := hd.nodup i
    rw [dirBlocks_eq_append, List.nodup_append] at hnodup
    exact hnodup.2.2 base hb base hb' rfl
  refine ⟨fun base => ?_, fun base list list' hb hb' => ?_, fun list => ?_⟩
  · rw [hd.built_iff]
    constructor
    · rintro (hfree | ⟨i, hi⟩)
      · exact ⟨.free, hfree⟩
      · rw [dirBlocks_eq_append] at hi
        rcases List.mem_append.mp hi with hi | hi
        · exact ⟨.current i, hi⟩
        · exact ⟨.unavail i, hi⟩
    · rintro ⟨list, hb⟩
      cases list with
      | current i => exact Or.inr ⟨i, hcurrent hb⟩
      | unavail i => exact Or.inr ⟨i, hunavail hb⟩
      | free => exact Or.inl hb
  · cases list with
    | current i =>
      cases list' with
      | current j => rw [hd.disjoint i j base (hcurrent hb) (hcurrent hb')]
      | unavail j =>
        obtain rfl := hd.disjoint i j base (hcurrent hb) (hunavail hb')
        exact absurd hb' (happart hb)
      | free => exact absurd hb' (hd.not_free i base (hcurrent hb))
    | unavail i =>
      cases list' with
      | current j =>
        obtain rfl := hd.disjoint i j base (hunavail hb) (hcurrent hb')
        exact absurd hb (happart hb')
      | unavail j => rw [hd.disjoint i j base (hunavail hb) (hunavail hb')]
      | free => exact absurd hb' (hd.not_free i base (hunavail hb))
    | free =>
      cases list' with
      | current j => exact absurd hb (hd.not_free j base (hcurrent hb'))
      | unavail j => exact absurd hb (hd.not_free j base (hunavail hb'))
      | free => rfl
  · cases list with
    | current i =>
      have hnodup := hd.nodup i
      rw [dirBlocks_eq_append, List.nodup_append] at hnodup
      exact hnodup.1
    | unavail i =>
      have hnodup := hd.nodup i
      rw [dirBlocks_eq_append, List.nodup_append] at hnodup
      exact hnodup.2.1
    | free => exact hd.blockAllocator.nodup

/-! ### What a sweep frees -/

/-- The free lists and the live bits after a sweep, by the marks before it. -/
structure FreesUnmarked (s s' : Space) : Prop where
  freelist_nodup : ∀ i, ∀ base ∈ s'.dirBlocks i, (s'.blockAllocator.block base).freelist.Nodup
  mem_freelist : ∀ i, ∀ base ∈ s'.dirBlocks i, ∀ c,
    c ∈ (s'.blockAllocator.block base).freelist ↔
      c ∈ s.blockCells base ∧ s.markBitmap.test c = false
  live : ∀ i, ∀ base ∈ s.dirBlocks i, ∀ c ∈ s.blockCells base,
    s'.liveBitmap.test c = s.markBitmap.test c
  live_bits : ∀ g, g / 64 < s.liveBitmap.size → s'.liveBitmap.bit g = s.markBitmap.bit g
  released : ∀ i, ∀ base ∈ s.dirBlocks i, base ∈ s'.dirBlocks i ∨
    base ∈ s'.blockAllocator.freeBlocks ∧ ∀ c ∈ s.blockCells base, s.markBitmap.test c = false

theorem Inv.keeps_eq (h : s.Inv) (hb : base ∈ s.dirBlocks i) (hc : c ∈ s.blockCells base) :
    s.keeps c = s.markBitmap.test c := by
  have hhas := (SpaceBitmap.hasAddress_iff _ _).mp (h.hasAddress_cell hb hc)
  rw [keeps]
  cases hm : s.markBitmap.test c with
  | false => rw [Bool.and_false]
  | true =>
    rw [SpaceBitmap.test_eq_bit, h.geometry.granule_eq] at hm
    rw [SpaceBitmap.test_eq_bit, h.liveCells.mark_live _ hhas hm]
    rfl

theorem freesUnmarked_sweep (h : s.Inv) (ho : s.Ordered) : s.FreesUnmarked s.sweep := by
  have hswept := swept_sweep h ho
  have hlive : ∀ i, ∀ base ∈ s.dirBlocks i, ∀ c ∈ s.blockCells base,
      s.sweep.liveBitmap.test c = s.markBitmap.test c := by
    intro i base hb c hc
    rw [hswept.live i base hb c hc, h.keeps_eq hb hc]
  have hgranule : ∀ a, s.sweep.liveBitmap.granule a = s.liveBitmap.granule a := by
    intro a
    rw [SpaceBitmap.granule, SpaceBitmap.granule, SpaceBitmap.offset, SpaceBitmap.offset,
      hswept.live_begin]
  refine ⟨hswept.inv.liveCells.freelist_nodup, fun i base hb c => ?_, hlive, fun g hg => ?_,
    fun i base hb => ?_⟩
  · rw [hswept.freelist i base hb, List.mem_reverse, List.mem_filter]
    refine and_congr_right fun hc => ?_
    rw [h.keeps_eq (hswept.dirBlocks i base hb) hc, Bool.not_eq_true']
  · rw [Bool.eq_iff_iff]
    constructor
    · intro hbit
      obtain ⟨i, base, hb, c, hc, rfl⟩ :=
        hswept.inv.liveCells.live_cell g (by rwa [hswept.live_size]) hbit
      have hb₀ := hswept.dirBlocks i base hb
      rw [hswept.cells i base hb] at hc
      have hmark := hlive i base hb₀ c hc
      rw [SpaceBitmap.test_eq_bit, SpaceBitmap.test_eq_bit, hbit, h.geometry.granule_eq] at hmark
      rw [hgranule, ← hmark]
    · intro hbit
      obtain ⟨i, base, hb, c, hc, rfl⟩ :=
        h.liveCells.live_cell g hg (h.liveCells.mark_live g hg hbit)
      have hmark := hlive i base hb c hc
      rw [SpaceBitmap.test_eq_bit, SpaceBitmap.test_eq_bit, h.geometry.granule_eq, hbit,
        hgranule] at hmark
      exact hmark
  · rcases hswept.kept i base hb with hkept | hdead
    · exact Or.inl hkept
    · by_cases hin : base ∈ s.sweep.dirBlocks i
      · exact Or.inl hin
      · refine Or.inr ⟨?_, fun c hc => (h.keeps_eq hb hc).symm.trans (hdead c hc)⟩
        have hbuilt := (hswept.built base).mpr (h.directories.built hb)
        rcases (hswept.inv.directories.built_iff base).mp hbuilt with hfree | ⟨j, hj⟩
        · exact hfree
        · obtain rfl := h.directories.disjoint i j base hb (hswept.dirBlocks j base hj)
          exact absurd hj hin

/-! ### No cell is lost, none is handed out twice -/

/-- Every cell of a directory is live or on the free list of its block, not both; a block that is
taken over from the block allocator has all its cells on the free list. -/
structure Accounted (s : Space) : Prop where
  free_or_live : ∀ i, ∀ base ∈ s.dirBlocks i, ∀ c ∈ s.blockCells base,
    (c ∈ (s.blockAllocator.block base).freelist ↔ s.liveBitmap.test c = false)
  refilled : ∀ cellSize base ba, s.blockAllocator.getBlockFor cellSize = some (base, ba) →
    ∀ c, c ∈ (ba.block base).freelist ↔ c ∈ (ba.block base).walk base

theorem Inv.accounted (h : s.Inv) : s.Accounted where
  free_or_live := by
    intro i base hb c hc
    rw [h.liveCells.mem_freelist i base hb c]
    exact and_iff_right hc
  refilled := by
    intro cellSize base ba hget c
    have ht := BlockAllocator.takes_getBlockFor h.directories.blockAllocator hget
    rw [ht.freelist_eq, List.mem_reverse, Block.walk_eq_cellsOf, ht.cellSize_eq]

/-- An allocation of `size` bytes hands out the cell `p`: it is a cell of a block, it is large
enough, and no live cell overlaps it. -/
structure HandsOutFree (s s' : Space) (size p : ℕ) : Prop where
  cell : ∃ base ∈ s'.dirBlocks (sizeClassToIndex size), p ∈ s'.blockCells base
  fits : size ≤ s'.sizeClassForSizeStep (sizeClassToIndex size)
  disjoint : ∀ j, ∀ base ∈ s.dirBlocks j, ∀ c ∈ s.blockCells base, s.liveBitmap.test c = true →
    p + s'.sizeClassForSizeStep (sizeClassToIndex size) ≤ c ∨ c + s.sizeClassForSizeStep j ≤ p

theorem AllocatesSmall.handsOutFree (h : s.AllocatesSmall size p s') :
    s.HandsOutFree s' size p where
  cell := h.cell
  fits := h.fits
  disjoint := by
    intro j base hb c hc hlive
    obtain ⟨base', hb', hp⟩ := h.cell
    have hne : p ≠ c := by
      rintro rfl
      rw [h.dead] at hlive
      exact Bool.false_ne_true hlive
    have hb₁ := h.grows.dirBlocks j base hb
    have hc₁ : c ∈ s'.blockCells base := (h.grows.blockCells j base hb).symm ▸ hc
    rw [← h.grows.classes]
    exact h.inv.directories.cells_separated hb' hb₁ hp hc₁ hne

/-- **The blocks are shared out and reused safely.** In every space that allocations and collections
reach, each block is on exactly one list, each cell is free or live, a sweep frees exactly the
unmarked cells, and a small allocation hands out a cell that overlaps no live one. -/
theorem blocks_reused_safely (h : Reachable s) :
    s.Partitioned ∧ s.Accounted ∧ s.FreesUnmarked s.sweep ∧
      ∀ size cell ptr s', size ≤ LARGE_CUTOFF → s.allocate size cell = some (ptr, s') →
        ∃ p, ptr = some p ∧ s.HandsOutFree s' size p := by
  obtain ⟨hinv, hord⟩ := h.inv
  refine ⟨hinv.partitioned, hinv.accounted, freesUnmarked_sweep hinv hord, ?_⟩
  intro size cell ptr s' hsize halloc
  obtain ⟨p, rfl, hp⟩ := allocatesSmall_allocate hinv hord hsize halloc
  exact ⟨p, rfl, hp.handsOutFree⟩

/-! ### A small space -/

def threeBlocks : Space := new 4096 65536 [] (fun _ => 0#64) (fun _ => ⟨.white, .cell []⟩)

theorem reachable_threeBlocks : Reachable threeBlocks :=
  .new ⟨by decide, by decide⟩ fun _ h => absurd h List.not_mem_nil

set_option maxRecDepth 4000 in
theorem isSome_allocate_threeBlocks : (threeBlocks.allocate 48 0).isSome = true := by decide

/-- The same space after the allocation of one cell, which gets the address 32680. -/
def oneCell : Space := ((threeBlocks.allocate 48 0).get isSome_allocate_threeBlocks).2

theorem step_oneCell : Step threeBlocks oneCell :=
  .allocate (fun h => absurd h (by decide))
    (Option.some_get isSome_allocate_threeBlocks).symm

set_option maxRecDepth 4000 in
theorem isHeapPointer_oneCell : oneCell.isHeapPointer 32680 = true := by decide

theorem blocks_reused_safely_oneCell :
    (oneCell.mark 32680).sweep.Partitioned ∧ (oneCell.mark 32680).sweep.Accounted ∧
      (oneCell.mark 32680).sweep.FreesUnmarked (oneCell.mark 32680).sweep.sweep ∧
      ∀ size cell ptr s', size ≤ LARGE_CUTOFF →
        (oneCell.mark 32680).sweep.allocate size cell = some (ptr, s') →
        ∃ p, ptr = some p ∧ (oneCell.mark 32680).sweep.HandsOutFree s' size p :=
  blocks_reused_safely
    (((reachable_threeBlocks.step step_oneCell).step (.mark isHeapPointer_oneCell)).step .sweep)

end Space

end Starlight.Gc
