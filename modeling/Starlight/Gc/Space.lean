import Starlight.Gc.Block
import Starlight.Gc.SpaceBitmap

/-!
# The heap space

Small cells live in blocks, one directory of blocks for each size step; larger ones are allocated
one by one and listed in the large object space. A cell starts with a header that holds its colour,
and the rest of it is seen by the collector only through `trace`. A sweep frees every cell without
a mark: in a block by rebuilding the free list, in the large object space by dropping the
allocation.
-/

namespace Starlight.Gc

inductive CellState
  | black
  | white
  | grey
  deriving DecidableEq, Repr

/-- The contents of a cell: the pointers its `trace` visits, or a `WeakSlot`. -/
inductive Payload
  | cell (fields : List ℕ)
  | weakSlot (value : Option ℕ)
  deriving DecidableEq, Repr

def Payload.trace : Payload → List ℕ
  | .cell fields => fields
  | .weakSlot _ => []

/-- A cell in memory. -/
structure Obj where
  state : CellState
  payload : Payload

structure PreciseAllocation where
  cell : ℕ
  cellSize : ℕ
  isMarked : Bool
  indexInSpace : ℕ

/-- `LocalAllocator`: the directory of one size step. `current` is the block it allocates from,
followed by the other blocks with free cells; the blocks of `unavail` are full. -/
structure LocalAllocator where
  cellSize : ℕ
  current : List ℕ
  unavail : List ℕ

namespace LocalAllocator

def new (cellSize : ℕ) : LocalAllocator := ⟨cellSize, [], []⟩

def blocks (la : LocalAllocator) : List ℕ := la.current ++ la.unavail

/-- The first block of `allocate`, its successors, and the block allocator after it was fetched
when there was none. -/
def head (la : LocalAllocator) (ba : BlockAllocator) : Option (ℕ × List ℕ × BlockAllocator) :=
  match la.current with
  | [] => (ba.getBlockFor la.cellSize).map fun (base, ba) => (base, [], ba)
  | base :: next => some (base, next, ba)

/-- `allocate`: a cell of the current block; when that is full it becomes unavailable, and the cell
comes from the next block. `none` is the out-of-memory panic, an inner `none` a null pointer. -/
def allocate (la : LocalAllocator) (ba : BlockAllocator) :
    Option (Option ℕ × LocalAllocator × BlockAllocator) := do
  let (base, next, ba) ← la.head ba
  match (ba.block base).allocate with
  | (some ptr, block) => some (some ptr, { la with current := base :: next }, ba.write base block)
  | (none, _) =>
    let la := { la with unavail := base :: la.unavail, current := next }
    let (base, next, ba) ← la.head ba
    let (ptr, block) := (ba.block base).allocate
    some (ptr, { la with current := base :: next }, ba.write base block)

end LocalAllocator

/-- `Space`, with the memory of its cells. `allocators` links the directories that exist, the
newest first. -/
structure Space where
  preciseAllocations : List PreciseAllocation
  allocatorForSizeClass : ℕ → Option LocalAllocator
  sizeClassForSizeStep : ℕ → ℕ
  blockAllocator : BlockAllocator
  allocators : List ℕ
  liveBitmap : SpaceBitmap
  markBitmap : SpaceBitmap
  objects : ℕ → Obj

namespace Space

/-- `Space::new`, for a mapping at `start`. What lies behind the two bitmaps and in the memory of
the cells is left open. -/
def new (start size : ℕ) (approximate : List ℕ) (beyond : ℕ → BitVec 64) (memory : ℕ → Obj) :
    Space where
  preciseAllocations := []
  allocatorForSizeClass := fun _ => none
  sizeClassForSizeStep := Gc.sizeClassForSizeStep approximate
  blockAllocator := BlockAllocator.new start size
  allocators := []
  liveBitmap := SpaceBitmap.create start size beyond
  markBitmap := SpaceBitmap.create start size beyond
  objects := memory

/-! ### Allocation -/

/-- The directory of a size step; `allocator_for_slow` creates it. -/
def allocatorFor (s : Space) (index : ℕ) : LocalAllocator × List ℕ :=
  match s.allocatorForSizeClass index with
  | some la => (la, s.allocators)
  | none => (.new (s.sizeClassForSizeStep index), index :: s.allocators)

def allocateSmall (s : Space) (size : ℕ) : Option (Option ℕ × Space) := do
  let index := sizeClassToIndex size
  let (la, allocators) := s.allocatorFor index
  let (ptr, la, ba) ← la.allocate s.blockAllocator
  some (ptr, { s with
    allocatorForSizeClass := Function.update s.allocatorForSizeClass index (some la)
    blockAllocator := ba
    allocators := allocators })

/-- `LargeObjectSpace::alloc`: `cell` is where the system allocator put the cell. -/
def allocateLarge (s : Space) (size cell : ℕ) : Space :=
  { s with preciseAllocations :=
      s.preciseAllocations ++ [⟨cell, size, false, s.preciseAllocations.length⟩] }

/-- `allocate`: a small cell becomes live. `cell` is used for a large one only. -/
def allocate (s : Space) (size cell : ℕ) : Option (Option ℕ × Space) :=
  if size ≤ LARGE_CUTOFF then do
    let (ptr, s) ← s.allocateSmall size
    some (ptr, { s with liveBitmap := s.liveBitmap.set (ptr.getD 0) })
  else some (some cell, s.allocateLarge size cell)

/-! ### Marks -/

def containsLarge (s : Space) (p : ℕ) : Bool := s.preciseAllocations.any fun a => a.cell == p

def isHeapPointer (s : Space) (p : ℕ) : Bool :=
  if s.liveBitmap.hasAddress p then s.liveBitmap.test p else s.containsLarge p

/-- `mark`: the bit of a small cell, the flag of a large one. -/
def mark (s : Space) (p : ℕ) : Space :=
  if s.liveBitmap.hasAddress p then { s with markBitmap := s.markBitmap.set p }
  else { s with preciseAllocations :=
      s.preciseAllocations.map fun a => if a.cell = p then { a with isMarked := true } else a }

/-- Whether a cell carries a mark. -/
def isMarked (s : Space) (p : ℕ) : Bool :=
  if s.liveBitmap.hasAddress p then s.markBitmap.test p
  else s.preciseAllocations.any fun a => a.cell == p && a.isMarked

def forceSetState (s : Space) (p : ℕ) (state : CellState) : Space :=
  { s with objects := Function.update s.objects p { s.objects p with state := state } }

theorem objects_forceSetState (s : Space) (p : ℕ) (state : CellState) (a : ℕ) :
    (s.forceSetState p state).objects a =
      if a = p then { s.objects p with state := state } else s.objects a :=
  Function.update_apply _ _ _ _

def cells (s : Space) : List ℕ :=
  (s.allocators.flatMap fun index => ((s.allocatorForSizeClass index).elim [] (·.blocks)).flatMap
    fun base => ((s.blockAllocator.block base).walk base).filter s.liveBitmap.test) ++
  s.preciseAllocations.map (·.cell)

/-! ### Sweeping -/

/-- `LargeObjectSpace::sweep`: what carries the flag is kept and turns white. The flag stays. -/
def sweepLarge (s : Space) : Space :=
  let kept := s.preciseAllocations.filter (·.isMarked)
  kept.foldl (fun s a => s.forceSetState a.cell .white) { s with preciseAllocations := kept }

/-- The state of the loop over the cells of a block. -/
structure BlockSweep where
  space : Space
  freelist : List ℕ
  fullyFree : Bool

/-- One cell: a marked one loses its mark and turns white, any other goes on the free list. -/
def sweepCell (st : BlockSweep) (cell : ℕ) : BlockSweep :=
  let s := st.space
  if s.liveBitmap.test cell then
    let (wasMarked, markBitmap) := s.markBitmap.clear cell
    let s := { s with markBitmap := markBitmap }
    if wasMarked then { st with space := s.forceSetState cell .white, fullyFree := false }
    else { st with
      space := { s with liveBitmap := (s.liveBitmap.clear cell).2 }
      freelist := cell :: st.freelist }
  else { st with freelist := cell :: st.freelist }

/-- The state of the loops over the blocks of a directory. -/
structure DirectorySweep where
  space : Space
  available : List ℕ
  unavailable : List ℕ

/-- One block: it is full, fully free and released, or available. -/
def sweepBlock (st : DirectorySweep) (base : ℕ) : DirectorySweep :=
  let block := st.space.blockAllocator.block base
  let swept := (block.walk base).foldl sweepCell ⟨st.space, [], true⟩
  let s := { swept.space with blockAllocator :=
    swept.space.blockAllocator.write base { block with freelist := swept.freelist } }
  if swept.freelist = [] then { st with space := s, unavailable := base :: st.unavailable }
  else if swept.fullyFree then
    { st with space := { s with blockAllocator := s.blockAllocator.returnBlock base } }
  else { st with space := s, available := base :: st.available }

/-- `LocalAllocator::sweep`: first the current blocks, then the unavailable ones. -/
def sweepDirectory (s : Space) (index : ℕ) : Space :=
  match s.allocatorForSizeClass index with
  | none => s
  | some la =>
    let st := la.unavail.foldl sweepBlock (la.current.foldl sweepBlock ⟨s, [], []⟩)
    let la := { la with current := st.available, unavail := st.unavailable }
    { st.space with
      allocatorForSizeClass := Function.update st.space.allocatorForSizeClass index (some la) }

def sweep (s : Space) : Space := s.allocators.foldl sweepDirectory s.sweepLarge

end Space

end Starlight.Gc
