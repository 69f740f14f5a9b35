import Starlight.Gc.Space

/-!
# The invariant of the heap space

`Space.Inv` relates the four records of the small-object space that different functions update: the
lists of blocks, the free list in each block, the live bitmap and the mark bitmap. Every block that
was handed out is in exactly one directory or is released; the free list of a block in a directory
holds exactly its cells that are not live; the live bits are those of such cells; and only live
cells are marked.

`Space.Ordered` says how a directory keeps its blocks: those behind the current one have a free
cell and the unavailable ones have none. It fails only inside a sweep.
-/

namespace Starlight.Gc

namespace Space

/-- The blocks of the directory of a size step. -/
def dirBlocks (s : Space) (i : ℕ) : List ℕ := (s.allocatorForSizeClass i).elim [] (·.blocks)

def blockCells (s : Space) (base : ℕ) : List ℕ := (s.blockAllocator.block base).walk base

/-- Where the bitmaps and the mapping lie. -/
structure Geometry (s : Space) : Prop where
  live_begin : s.liveBitmap.heapBegin = s.blockAllocator.mmapStart
  mark_begin : s.markBitmap.heapBegin = s.blockAllocator.mmapStart
  page : 4096 ∣ s.blockAllocator.mmapStart
  start_le : s.blockAllocator.mmapStart ≤ s.blockAllocator.dataBound
  bound_lt : s.blockAllocator.dataBound < 2 ^ 64
  live_size : s.liveBitmap.size =
    SpaceBitmap.computeBitmapSize (s.blockAllocator.dataBound - s.blockAllocator.mmapStart)
  mark_size : s.markBitmap.size = s.liveBitmap.size

/-- The directories and the block allocator share out the blocks. -/
structure Directories (s : Space) : Prop where
  blockAllocator : s.blockAllocator.Inv
  classes : ∀ i < NUM_SIZE_CLASSES, GoodClass i (s.sizeClassForSizeStep i)
  index_lt : ∀ i ∈ s.allocators, i < NUM_SIZE_CLASSES
  mem_allocators : ∀ i, i ∈ s.allocators ↔ (s.allocatorForSizeClass i).isSome
  allocators_nodup : s.allocators.Nodup
  cellSize_eq : ∀ i la, s.allocatorForSizeClass i = some la → la.cellSize = s.sizeClassForSizeStep i
  nodup : ∀ i, (s.dirBlocks i).Nodup
  disjoint : ∀ i j base, base ∈ s.dirBlocks i → base ∈ s.dirBlocks j → i = j
  not_free : ∀ i, ∀ base ∈ s.dirBlocks i, base ∉ s.blockAllocator.freeBlocks
  built_iff : ∀ base, s.blockAllocator.Built base ↔
    base ∈ s.blockAllocator.freeBlocks ∨ ∃ i, base ∈ s.dirBlocks i
  block_size : ∀ i, ∀ base ∈ s.dirBlocks i,
    (s.blockAllocator.block base).cellSize = s.sizeClassForSizeStep i

/-- The free lists and the bitmaps agree on the cells of the directories. -/
structure LiveCells (s : Space) : Prop where
  freelist_nodup : ∀ i, ∀ base ∈ s.dirBlocks i, (s.blockAllocator.block base).freelist.Nodup
  mem_freelist : ∀ i, ∀ base ∈ s.dirBlocks i, ∀ c,
    c ∈ (s.blockAllocator.block base).freelist ↔
      c ∈ s.blockCells base ∧ s.liveBitmap.test c = false
  live_cell : ∀ g, g / 64 < s.liveBitmap.size → s.liveBitmap.bit g = true →
    ∃ i, ∃ base ∈ s.dirBlocks i, ∃ c ∈ s.blockCells base, s.liveBitmap.granule c = g
  mark_live : ∀ g, g / 64 < s.liveBitmap.size → s.markBitmap.bit g = true →
    s.liveBitmap.bit g = true

/-- The large cells are different from each other, and no bitmap covers them. -/
structure LargeCells (s : Space) : Prop where
  nodup : (s.preciseAllocations.map (·.cell)).Nodup
  outside : ∀ a ∈ s.preciseAllocations, s.liveBitmap.hasAddress a.cell = false

/-- The invariant of the heap space. -/
structure Inv (s : Space) : Prop where
  geometry : s.Geometry
  directories : s.Directories
  liveCells : s.LiveCells
  largeCells : s.LargeCells

/-- Blocks behind the current one have a free cell, unavailable ones have none. -/
structure Ordered (s : Space) : Prop where
  behind_current : ∀ i la, s.allocatorForSizeClass i = some la → ∀ base ∈ la.current.tail,
    (s.blockAllocator.block base).freelist ≠ []
  unavail_full : ∀ i la, s.allocatorForSizeClass i = some la → ∀ base ∈ la.unavail,
    (s.blockAllocator.block base).freelist = []

theorem dirBlocks_of_eq {s : Space} {i : ℕ} {la : LocalAllocator}
    (h : s.allocatorForSizeClass i = some la) : s.dirBlocks i = la.blocks := by
  rw [dirBlocks, h]
  rfl

theorem exists_of_mem_dirBlocks {s : Space} {i base : ℕ} (h : base ∈ s.dirBlocks i) :
    ∃ la, s.allocatorForSizeClass i = some la ∧ base ∈ la.blocks := by
  cases hla : s.allocatorForSizeClass i with
  | none => rw [dirBlocks, hla] at h; exact absurd h List.not_mem_nil
  | some la => exact ⟨la, rfl, dirBlocks_of_eq hla ▸ h⟩

/-! ### Where the cells of a directory lie -/

section Cells

variable {s : Space} {i j base base' c d : ℕ}

theorem Directories.built (h : s.Directories) (hb : base ∈ s.dirBlocks i) :
    s.blockAllocator.Built base := (h.built_iff base).mpr (Or.inr ⟨i, hb⟩)

theorem Directories.isSizeClass (h : s.Directories) (hb : base ∈ s.dirBlocks i) :
    IsSizeClass (s.sizeClassForSizeStep i) := by
  obtain ⟨la, hla, -⟩ := exists_of_mem_dirBlocks hb
  have hi : i ∈ s.allocators := (h.mem_allocators i).mpr (by rw [hla]; rfl)
  exact (h.classes i (h.index_lt i hi)).toIsSizeClass

theorem Directories.blockCells_eq (h : s.Directories) (hb : base ∈ s.dirBlocks i) :
    s.blockCells base = cellsOf base (s.sizeClassForSizeStep i) := by
  rw [blockCells, Block.walk_eq_cellsOf, h.block_size i base hb]

/-- A block inside the mapping. -/
structure InMapping (s : Space) (base : ℕ) : Prop where
  dvd : BLOCK_SIZE ∣ base
  low : s.blockAllocator.mmapStart ≤ base
  high : base + BLOCK_SIZE ≤ s.blockAllocator.dataBound

theorem inMapping_of_built (h : s.blockAllocator.Inv) (hb : s.blockAllocator.Built base) :
    s.InMapping base := by
  have hlow := hb.1
  rw [BlockAllocator.aligned] at hlow
  exact ⟨hb.2.1, by omega, hb.le_bound h⟩

theorem Directories.inMapping (h : s.Directories) (hb : base ∈ s.dirBlocks i) :
    s.InMapping base := inMapping_of_built h.blockAllocator (h.built hb)

theorem Geometry.heapBegin_le (h : s.Geometry) {cs : ℕ} (hb : s.InMapping base)
    (hc : c ∈ cellsOf base cs) : s.liveBitmap.heapBegin ≤ c := by
  have hbounds := cellsOf_bounds hc
  have hlow := hb.low
  rw [h.live_begin]
  omega

theorem Geometry.hasAddress_cell (h : s.Geometry) {cs : ℕ} (hb : s.InMapping base) (hcs : 16 ≤ cs)
    (hc : c ∈ cellsOf base cs) : s.liveBitmap.hasAddress c = true := by
  have hbounds := cellsOf_bounds hc
  have hblock : BLOCK_SIZE = 16384 := rfl
  obtain ⟨hdvd, hlow, hhigh⟩ := hb
  have hpage := h.page
  have hstart := h.live_begin
  have hlt := h.bound_lt
  rw [hblock] at hdvd hbounds hhigh
  obtain ⟨n, hn⟩ : ∃ n, base + 16384 - s.blockAllocator.mmapStart = 4096 * n :=
    ⟨(base + 16384 - s.blockAllocator.mmapStart) / 4096, by omega⟩
  have hcover := @SpaceBitmap.le_computeBitmapSize
    (s.blockAllocator.dataBound - s.blockAllocator.mmapStart) n (by omega)
  rw [← h.live_size] at hcover
  exact SpaceBitmap.hasAddress_of_lt (by omega) (by omega) (by omega)

theorem Geometry.granule_ne (h : s.Geometry) {cs cs' : ℕ} (hb : s.InMapping base)
    (hb' : s.InMapping base') (hcs : 16 ≤ cs) (hcs' : 16 ≤ cs') (hc : c ∈ cellsOf base cs)
    (hd : d ∈ cellsOf base' cs') (hsep : c + cs ≤ d ∨ d + cs' ≤ c) :
    s.liveBitmap.granule c ≠ s.liveBitmap.granule d := by
  have hlt := h.bound_lt
  have hboundc := cellsOf_bounds hc
  have hboundd := cellsOf_bounds hd
  have hhigh := hb.high
  have hhigh' := hb'.high
  rcases hsep with hsep | hsep
  · exact SpaceBitmap.granule_ne (h.heapBegin_le hb hc) (by omega) (by omega)
  · exact (SpaceBitmap.granule_ne (h.heapBegin_le hb' hd) (by omega) (by omega)).symm

theorem Inv.hasAddress_cell (h : s.Inv) (hb : base ∈ s.dirBlocks i) (hc : c ∈ s.blockCells base) :
    s.liveBitmap.hasAddress c = true := by
  rw [h.directories.blockCells_eq hb] at hc
  exact h.geometry.hasAddress_cell (h.directories.inMapping hb) (h.directories.isSizeClass hb).lower
    hc

theorem Directories.cells_separated (h : s.Directories) (hb : base ∈ s.dirBlocks i)
    (hb' : base' ∈ s.dirBlocks j) (hc : c ∈ s.blockCells base) (hd : d ∈ s.blockCells base')
    (hne : c ≠ d) :
    c + s.sizeClassForSizeStep i ≤ d ∨ d + s.sizeClassForSizeStep j ≤ c := by
  rw [h.blockCells_eq hb] at hc
  rw [h.blockCells_eq hb'] at hd
  by_cases heq : base = base'
  · subst heq
    obtain rfl := h.disjoint i j base hb hb'
    exact cellsOf_separated hc hd hne
  · exact cellsOf_separated_of_ne (h.built hb).2.1 (h.built hb').2.1 heq hc hd

theorem Directories.block_unique (h : s.Directories) (hb : base ∈ s.dirBlocks i)
    (hb' : base' ∈ s.dirBlocks j) (hc : c ∈ s.blockCells base) (hc' : c ∈ s.blockCells base') :
    base = base' := by
  by_contra hne
  have hpos := (h.isSizeClass hb).lower
  have hpos' := (h.isSizeClass hb').lower
  rw [h.blockCells_eq hb] at hc
  rw [h.blockCells_eq hb'] at hc'
  have hsep := cellsOf_separated_of_ne (h.built hb).2.1 (h.built hb').2.1 hne hc hc'
  omega

theorem Inv.granule_inj (h : s.Inv) (hb : base ∈ s.dirBlocks i) (hb' : base' ∈ s.dirBlocks j)
    (hc : c ∈ s.blockCells base) (hd : d ∈ s.blockCells base')
    (hg : s.liveBitmap.granule c = s.liveBitmap.granule d) : c = d := by
  by_contra hne
  have hsep := h.directories.cells_separated hb hb' hc hd hne
  rw [h.directories.blockCells_eq hb] at hc
  rw [h.directories.blockCells_eq hb'] at hd
  exact h.geometry.granule_ne (h.directories.inMapping hb) (h.directories.inMapping hb')
    (h.directories.isSizeClass hb).lower (h.directories.isSizeClass hb').lower hc hd hsep hg

theorem Geometry.granule_eq (h : s.Geometry) (a : ℕ) :
    s.markBitmap.granule a = s.liveBitmap.granule a := by
  rw [SpaceBitmap.granule, SpaceBitmap.granule, SpaceBitmap.offset, SpaceBitmap.offset,
    h.live_begin, h.mark_begin]

theorem Inv.nodup_granule (h : s.Inv) (hb : base ∈ s.dirBlocks i) :
    ((s.blockCells base).map s.liveBitmap.granule).Nodup := by
  refine List.Nodup.map_on (fun c hc d hd hg => h.granule_inj hb hb hc hd hg) ?_
  rw [h.directories.blockCells_eq hb]
  exact cellsOf_nodup (lt_of_lt_of_le (by decide) (h.directories.isSizeClass hb).lower)

end Cells

/-! ### A new space -/

/-- A mapping the operating system can hand out: it starts on a page and ends below 2^64. -/
structure ValidMapping (start size : ℕ) : Prop where
  page : 4096 ∣ start
  fits : start + size < 2 ^ 64

section New

variable {start size : ℕ} {approximate : List ℕ} {beyond : ℕ → BitVec 64} {memory : ℕ → Obj}

theorem bit_create {g : ℕ} (hg : g / 64 < (SpaceBitmap.create start size beyond).size) :
    (SpaceBitmap.create start size beyond).bit g = false := by
  have hword : (SpaceBitmap.create start size beyond).word (g / 64) = 0#64 := if_pos hg
  rw [SpaceBitmap.bit, show SpaceBitmap.BITS_PER_INTPTR = 64 from rfl, hword]
  exact BitVec.getLsbD_zero

theorem inv_new (hmap : ValidMapping start size) (happrox : ∀ a ∈ approximate, PRECISE_CUTOFF ≤ a) :
    (new start size approximate beyond memory).Inv where
  geometry := {
    live_begin := rfl
    mark_begin := rfl
    page := hmap.page
    start_le := Nat.le_add_right _ _
    bound_lt := hmap.fits
    live_size := by
      change SpaceBitmap.computeBitmapSize size =
        SpaceBitmap.computeBitmapSize (start + size - start)
      rw [Nat.add_sub_cancel_left]
    mark_size := rfl }
  directories := {
    blockAllocator := BlockAllocator.inv_new start size
    classes := fun i hi => sizeClassForSizeStep_good happrox hi
    index_lt := fun i hi => absurd hi List.not_mem_nil
    mem_allocators := fun i => ⟨fun hi => absurd hi List.not_mem_nil, fun hi => absurd hi (by simp [new])⟩
    allocators_nodup := List.nodup_nil
    cellSize_eq := fun i la h => absurd h (by simp [new])
    nodup := fun i => List.nodup_nil
    disjoint := fun i j base h => absurd h List.not_mem_nil
    not_free := fun i base h => absurd h List.not_mem_nil
    built_iff := by
      intro base
      constructor
      · rintro ⟨hlow, -, hlt⟩
        exact absurd hlt (not_lt.mpr hlow)
      · rintro (h | ⟨i, h⟩) <;> exact absurd h List.not_mem_nil
    block_size := fun i base h => absurd h List.not_mem_nil }
  liveCells := {
    freelist_nodup := fun i base h => absurd h List.not_mem_nil
    mem_freelist := fun i base h => absurd h List.not_mem_nil
    live_cell := by
      intro g hg hbit
      have hzero : (new start size approximate beyond memory).liveBitmap.bit g = false :=
        bit_create hg
      rw [hzero] at hbit
      exact absurd hbit Bool.false_ne_true
    mark_live := by
      intro g hg hbit
      have hzero : (new start size approximate beyond memory).markBitmap.bit g = false :=
        bit_create hg
      rw [hzero] at hbit
      exact absurd hbit Bool.false_ne_true }
  largeCells := {
    nodup := List.nodup_nil
    outside := fun a h => absurd h List.not_mem_nil }

theorem ordered_new : (new start size approximate beyond memory).Ordered where
  behind_current := fun i la h => absurd h (by simp [new])
  unavail_full := fun i la h => absurd h (by simp [new])

end New

end Space

end Starlight.Gc
