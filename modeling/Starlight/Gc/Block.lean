import Mathlib.Algebra.Group.Nat.Defs
import Mathlib.Data.List.Range
import Starlight.Gc.SizeClass

/-!
# Blocks and the block allocator

A block is 16 KB of the mapped region, aligned to its size: a header, then cells of one size. Its
free list is threaded through the free cells; the model lists their addresses in link order. The
block allocator hands out blocks, the released ones first, and takes back blocks that a sweep has
emptied. Releasing a block discards its pages, header included.
-/

namespace Starlight.Gc

def DATA_START : ℕ := 24

/-- `Block`, without its `next` link: the lists a block is on are lists of addresses. -/
structure Block where
  cellSize : ℕ
  freelist : List ℕ

namespace Block

def new : Block := ⟨2 ^ 16 - 1, []⟩

def cellCount (b : Block) : ℕ := (BLOCK_SIZE - DATA_START) / b.cellSize

def cell (base : ℕ) (b : Block) (idx : ℕ) : ℕ := base + DATA_START + idx * b.cellSize

/-- The cells `walk` visits, in order. -/
def walk (base : ℕ) (b : Block) : List ℕ := (List.range b.cellCount).map (b.cell base)

def init (base : ℕ) (b : Block) (cellSize : ℕ) : Block :=
  let b := { b with cellSize := cellSize }
  { b with freelist := (b.walk base).foldl (fun freelist cell => cell :: freelist) [] }

/-- `allocate`: the first cell of the free list. -/
def allocate (b : Block) : Option ℕ × Block :=
  match b.freelist with
  | [] => (none, b)
  | cell :: rest => (some cell, { b with freelist := rest })

end Block

def cellsOf (base cellSize : ℕ) : List ℕ := Block.walk base ⟨cellSize, []⟩

theorem Block.walk_eq_cellsOf (base : ℕ) (b : Block) : b.walk base = cellsOf base b.cellSize := rfl

theorem Block.freelist_init (base : ℕ) (b : Block) (cellSize : ℕ) :
    (b.init base cellSize).freelist = (cellsOf base cellSize).reverse := by
  have hfold : ∀ (l acc : List ℕ),
      l.foldl (fun freelist cell => cell :: freelist) acc = l.reverse ++ acc := by
    intro l
    induction l with
    | nil => exact fun acc => rfl
    | cons c l ih => exact fun acc => by rw [List.foldl_cons, ih, List.reverse_cons,
        List.append_assoc, List.singleton_append]
  exact (hfold _ []).trans (List.append_nil _)

@[simp] theorem Block.cellSize_init (base : ℕ) (b : Block) (cellSize : ℕ) :
    (b.init base cellSize).cellSize = cellSize := rfl

/-! ### The cells of a block -/

section Cells

variable {base base' cs cs' c d : ℕ}

theorem mem_cellsOf : c ∈ cellsOf base cs ↔
    ∃ i < (BLOCK_SIZE - DATA_START) / cs, c = base + DATA_START + i * cs := by
  simp only [cellsOf, Block.walk, Block.cellCount, Block.cell, List.mem_map, List.mem_range]
  exact ⟨fun ⟨i, hi, h⟩ => ⟨i, hi, h.symm⟩, fun ⟨i, hi, h⟩ => ⟨i, hi, h.symm⟩⟩

theorem cellsOf_bounds (hc : c ∈ cellsOf base cs) :
    base + DATA_START ≤ c ∧ c + cs ≤ base + BLOCK_SIZE := by
  obtain ⟨i, hi, rfl⟩ := mem_cellsOf.mp hc
  have hmul : (i + 1) * cs ≤ (BLOCK_SIZE - DATA_START) / cs * cs := Nat.mul_le_mul_right _ hi
  have hdiv : (BLOCK_SIZE - DATA_START) / cs * cs ≤ BLOCK_SIZE - DATA_START := Nat.div_mul_le_self _ _
  have hblock : BLOCK_SIZE = 16384 := rfl
  have hdata : DATA_START = 24 := rfl
  rw [Nat.add_mul] at hmul
  omega

theorem cellsOf_separated (hc : c ∈ cellsOf base cs) (hd : d ∈ cellsOf base cs) (hne : c ≠ d) :
    c + cs ≤ d ∨ d + cs ≤ c := by
  obtain ⟨i, _, rfl⟩ := mem_cellsOf.mp hc
  obtain ⟨j, _, rfl⟩ := mem_cellsOf.mp hd
  rcases Nat.lt_trichotomy i j with hij | rfl | hij
  · have hmul : (i + 1) * cs ≤ j * cs := Nat.mul_le_mul_right _ hij
    rw [Nat.add_mul] at hmul
    omega
  · exact absurd rfl hne
  · have hmul : (j + 1) * cs ≤ i * cs := Nat.mul_le_mul_right _ hij
    rw [Nat.add_mul] at hmul
    omega

theorem cellsOf_separated_of_ne (hb : BLOCK_SIZE ∣ base) (hb' : BLOCK_SIZE ∣ base')
    (hne : base ≠ base') (hc : c ∈ cellsOf base cs) (hd : d ∈ cellsOf base' cs') :
    c + cs ≤ d ∨ d + cs' ≤ c := by
  have hboundc := cellsOf_bounds hc
  have hboundd := cellsOf_bounds hd
  have hblock : BLOCK_SIZE = 16384 := rfl
  rw [hblock] at hb hb'
  omega

theorem cellsOf_nodup (hcs : 0 < cs) : (cellsOf base cs).Nodup := by
  refine List.Nodup.map (fun i j hij => ?_) List.nodup_range
  have hmul : i * cs = j * cs := Nat.add_left_cancel hij
  exact Nat.eq_of_mul_eq_mul_right hcs hmul

theorem cellsOf_ne_nil (hcs : IsSizeClass cs) : cellsOf base cs ≠ [] := by
  have hupper := hcs.upper
  have hlower := hcs.lower
  have hcount : 0 < (BLOCK_SIZE - DATA_START) / cs := by
    rw [LARGE_CUTOFF_eq] at hupper
    exact Nat.div_pos (by rw [show BLOCK_SIZE - DATA_START = 16360 from rfl]; omega) (by omega)
  exact List.ne_nil_of_mem (mem_cellsOf.mpr ⟨0, hcount, rfl⟩)

end Cells

/-! ### The block allocator -/

/-- `BlockAllocator`, with the mapped region and the headers of the blocks in it. The released
blocks form a stack, its top first. -/
structure BlockAllocator where
  freeBlocks : List ℕ
  data : ℕ
  dataBound : ℕ
  mmapStart : ℕ
  block : ℕ → Block

namespace BlockAllocator

def aligned (start : ℕ) : ℕ := start + (BLOCK_SIZE - start % BLOCK_SIZE)

def new (start size : ℕ) : BlockAllocator where
  freeBlocks := []
  data := aligned start
  dataBound := start + size
  mmapStart := start
  block := fun _ => ⟨0, []⟩

/-- `build_block`: the next block of the mapping that was never handed out. -/
def buildBlock (ba : BlockAllocator) : Option (ℕ × BlockAllocator) :=
  if ba.data + BLOCK_SIZE > ba.dataBound then none
  else some (ba.data, { ba with data := ba.data + BLOCK_SIZE })

def write (ba : BlockAllocator) (base : ℕ) (b : Block) : BlockAllocator :=
  { ba with block := Function.update ba.block base b }

@[simp] theorem block_write_self (ba : BlockAllocator) (base : ℕ) (b : Block) :
    (ba.write base b).block base = b := Function.update_self _ _ _

theorem block_write_of_ne (ba : BlockAllocator) {base base' : ℕ} (b : Block) (h : base' ≠ base) :
    (ba.write base b).block base' = ba.block base' := Function.update_of_ne h _ _

/-- `get_block`: a released block, with a new header, or else the next block of the mapping. -/
def getBlock (ba : BlockAllocator) : Option (ℕ × BlockAllocator) :=
  match ba.freeBlocks with
  | [] => ba.buildBlock
  | base :: rest => some (base, { ba with freeBlocks := rest }.write base Block.new)

def getBlockFor (ba : BlockAllocator) (cellSize : ℕ) : Option (ℕ × BlockAllocator) :=
  ba.getBlock.map fun (base, ba) => (base, ba.write base ((ba.block base).init base cellSize))

/-- `return_block`: the pages of the block are discarded, and it can be handed out again. -/
def returnBlock (ba : BlockAllocator) (base : ℕ) : BlockAllocator :=
  { ba.write base ⟨0, []⟩ with freeBlocks := base :: ba.freeBlocks }

/-- The blocks that were handed out at some time, whether they are in use or released. -/
def Built (ba : BlockAllocator) (base : ℕ) : Prop :=
  aligned ba.mmapStart ≤ base ∧ BLOCK_SIZE ∣ base ∧ base < ba.data

/-- The block allocator is consistent: released blocks were handed out before, each is on the stack
once, and every block lies in the mapping. -/
structure Inv (ba : BlockAllocator) : Prop where
  nodup : ba.freeBlocks.Nodup
  free_built : ∀ base ∈ ba.freeBlocks, ba.Built base
  dvd : BLOCK_SIZE ∣ ba.data
  aligned_le : aligned ba.mmapStart ≤ ba.data
  bound : ba.data = aligned ba.mmapStart ∨ ba.data ≤ ba.dataBound

theorem dvd_aligned (start : ℕ) : BLOCK_SIZE ∣ aligned start := by
  have hlt : start % BLOCK_SIZE < BLOCK_SIZE := Nat.mod_lt _ (by decide)
  have hblock : BLOCK_SIZE = 16384 := rfl
  rw [hblock] at hlt
  rw [aligned, hblock]
  omega

theorem inv_new (start size : ℕ) : (new start size).Inv where
  nodup := List.nodup_nil
  free_built := fun _ h => absurd h List.not_mem_nil
  dvd := dvd_aligned start
  aligned_le := le_refl _
  bound := Or.inl rfl

variable {ba ba' : BlockAllocator} {base : ℕ}

theorem Built.le_bound (h : ba.Built base) (hinv : ba.Inv) : base + BLOCK_SIZE ≤ ba.dataBound := by
  obtain ⟨hlow, hdvd, hlt⟩ := h
  have hdata := hinv.dvd
  have hblock : BLOCK_SIZE = 16384 := rfl
  rw [hblock] at hdvd hdata ⊢
  rcases hinv.bound with hb | hb
  · omega
  · omega

/-- What taking a block for a directory does: the block was on the stack of released blocks or was
never handed out, it is on the stack no longer, and only its header changes. -/
structure Takes (ba : BlockAllocator) (cellSize base : ℕ) (ba' : BlockAllocator) : Prop where
  fresh : base ∈ ba.freeBlocks ∨ ¬ ba.Built base
  notMem : base ∉ ba'.freeBlocks
  free_iff : ∀ b, b ≠ base → (b ∈ ba'.freeBlocks ↔ b ∈ ba.freeBlocks)
  built_iff : ∀ b, ba'.Built b ↔ ba.Built b ∨ b = base
  bound_eq : ba'.dataBound = ba.dataBound
  start_eq : ba'.mmapStart = ba.mmapStart
  cellSize_eq : (ba'.block base).cellSize = cellSize
  freelist_eq : (ba'.block base).freelist = (cellsOf base cellSize).reverse
  block_eq : ∀ b, b ≠ base → ba'.block b = ba.block b
  inv : ba'.Inv

theorem takes_getBlockFor (hinv : ba.Inv) {cellSize : ℕ}
    (h : ba.getBlockFor cellSize = some (base, ba')) : ba.Takes cellSize base ba' := by
  obtain ⟨⟨base₁, ba₁⟩, hget, heq⟩ := Option.map_eq_some_iff.mp h
  obtain ⟨rfl, rfl⟩ : base₁ = base ∧
      ba₁.write base₁ ((ba₁.block base₁).init base₁ cellSize) = ba' := by
    rw [Prod.mk.injEq] at heq
    exact heq
  have hblock : BLOCK_SIZE = 16384 := rfl
  cases hfree : ba.freeBlocks with
  | nil =>
    rw [getBlock, hfree] at hget
    simp only [buildBlock] at hget
    split at hget
    · exact absurd hget (by simp)
    · next hroom =>
      obtain ⟨rfl, rfl⟩ := Prod.mk.injEq _ _ _ _ ▸ Option.some.inj hget
      have hdvd := hinv.dvd
      have hlow := hinv.aligned_le
      exact {
        fresh := Or.inr fun hb => absurd hb.2.2 (lt_irrefl _)
        notMem := by
          change _ ∉ ba.freeBlocks
          rw [hfree]
          exact List.not_mem_nil
        free_iff := fun b _ => Iff.rfl
        built_iff := by
          intro b
          change (aligned ba.mmapStart ≤ b ∧ BLOCK_SIZE ∣ b ∧ b < ba.data + BLOCK_SIZE) ↔
            (aligned ba.mmapStart ≤ b ∧ BLOCK_SIZE ∣ b ∧ b < ba.data) ∨ b = ba.data
          rw [hblock] at hdvd ⊢
          omega
        bound_eq := rfl
        start_eq := rfl
        cellSize_eq := by rw [block_write_self, Block.cellSize_init]
        freelist_eq := by rw [block_write_self, Block.freelist_init]
        block_eq := fun b hb => block_write_of_ne _ _ hb
        inv := {
          nodup := hinv.nodup
          free_built := by
            change ∀ b ∈ ba.freeBlocks, _
            rw [hfree]
            exact fun _ h => absurd h List.not_mem_nil
          dvd := by
            change BLOCK_SIZE ∣ ba.data + BLOCK_SIZE
            exact Nat.dvd_add hdvd (Nat.dvd_refl _)
          aligned_le := le_trans hlow (Nat.le_add_right _ _)
          bound := Or.inr (Nat.le_of_not_lt hroom) } }
  | cons top rest =>
    rw [getBlock, hfree] at hget
    obtain ⟨rfl, rfl⟩ := Prod.mk.injEq _ _ _ _ ▸ Option.some.inj hget
    have hnodup := hinv.nodup
    rw [hfree, List.nodup_cons] at hnodup
    have htop : ba.Built top := hinv.free_built top (by rw [hfree]; exact List.mem_cons_self)
    exact {
      fresh := Or.inl (by rw [hfree]; exact List.mem_cons_self)
      notMem := hnodup.1
      free_iff := by
        intro b hb
        change b ∈ rest ↔ _
        rw [hfree, List.mem_cons]
        exact ⟨Or.inr, fun h => h.resolve_left hb⟩
      built_iff := fun b => ⟨Or.inl, fun h => h.elim id fun h => h ▸ htop⟩
      bound_eq := rfl
      start_eq := rfl
      cellSize_eq := by rw [block_write_self, Block.cellSize_init]
      freelist_eq := by rw [block_write_self, Block.freelist_init]
      block_eq := fun b hb => by
        rw [block_write_of_ne _ _ hb, block_write_of_ne _ _ hb]
      inv := {
        nodup := hnodup.2
        free_built := fun b hb => hinv.free_built b (by rw [hfree]; exact List.mem_cons_of_mem _ hb)
        dvd := hinv.dvd
        aligned_le := hinv.aligned_le
        bound := hinv.bound } }

theorem inv_returnBlock (hinv : ba.Inv) (hbuilt : ba.Built base) (hnot : base ∉ ba.freeBlocks) :
    (ba.returnBlock base).Inv where
  __ := hinv
  nodup := List.nodup_cons.mpr ⟨hnot, hinv.nodup⟩
  free_built := by
    intro b hb
    rcases List.mem_cons.mp hb with rfl | hb
    · exact hbuilt
    · exact hinv.free_built b hb

end BlockAllocator

end Starlight.Gc
