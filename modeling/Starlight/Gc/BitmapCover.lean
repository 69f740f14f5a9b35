import Starlight.Gc.Block
import Starlight.Gc.SpaceBitmap

/-!
# What the bitmap of a heap covers

`Space::new` sizes both bitmaps for the mapping of the block allocator. `computeBitmapSize` drops
the last word of a capacity whose number of 1024-byte granules is odd. A block never needs that
word: it ends at a multiple of 4096 from the start of a page-aligned mapping. Within a word the
bitmap does not tell the heap from what follows it, so `hasAddress` may accept the addresses
between the end of the heap and the next multiple of 1024.
-/

namespace Starlight.Gc

namespace BlockAllocator

inductive Reached (start size : ℕ) : BlockAllocator → Prop
  | new : Reached start size (new start size)
  | getBlock {ba ba' : BlockAllocator} {cellSize base : ℕ} : Reached start size ba →
      ba.getBlockFor cellSize = some (base, ba') → Reached start size ba'
  | returnBlock {ba : BlockAllocator} {base : ℕ} : Reached start size ba → ba.Built base →
      base ∉ ba.freeBlocks → Reached start size (ba.returnBlock base)

variable {start size : ℕ} {ba : BlockAllocator}

theorem Reached.inv (h : Reached start size ba) :
    ba.Inv ∧ ba.mmapStart = start ∧ ba.dataBound = start + size := by
  induction h with
  | new => exact ⟨inv_new start size, rfl, rfl⟩
  | getBlock _ hget ih =>
    have htakes := takes_getBlockFor ih.1 hget
    exact ⟨htakes.inv, htakes.start_eq.trans ih.2.1, htakes.bound_eq.trans ih.2.2⟩
  | returnBlock _ hbuilt hnot ih => exact ⟨inv_returnBlock ih.1 hbuilt hnot, ih.2⟩

end BlockAllocator

/-- A cell start that the block allocator of a mapping can hand out. -/
def IsCell (start size c : ℕ) : Prop :=
  ∃ ba cellSize base ba', BlockAllocator.Reached start size ba ∧ IsSizeClass cellSize ∧
    ba.getBlockFor cellSize = some (base, ba') ∧ c ∈ cellsOf base cellSize

variable {start size c d : ℕ}

/-- Where a cell lies: in a block of the mapping, a multiple of 16 past the block's header. -/
theorem IsCell.bounds (h : IsCell start size c) :
    ∃ base, BLOCK_SIZE ∣ base ∧ start < base ∧ base + BLOCK_SIZE ≤ start + size ∧
      base + DATA_START ≤ c ∧ c + 16 ≤ base + BLOCK_SIZE ∧ 16 ∣ c - (base + DATA_START) := by
  obtain ⟨ba, cs, base, ba', hreached, hcs, hget, hc⟩ := h
  obtain ⟨hinv, hstart, hbound⟩ := hreached.inv
  have htakes := BlockAllocator.takes_getBlockFor hinv hget
  have hbuilt : ba'.Built base := (htakes.built_iff base).mpr (Or.inr rfl)
  have hend := hbuilt.le_bound htakes.inv
  have hlow := hbuilt.1
  rw [htakes.bound_eq, hbound] at hend
  rw [htakes.start_eq, hstart, BlockAllocator.aligned] at hlow
  have hmod : start % BLOCK_SIZE < BLOCK_SIZE := Nat.mod_lt _ (by decide)
  have hcell := cellsOf_bounds hc
  have hlower := hcs.lower
  refine ⟨base, hbuilt.2.1, by omega, hend, hcell.1, by omega, ?_⟩
  obtain ⟨i, -, rfl⟩ := mem_cellsOf.mp hc
  rw [Nat.add_sub_cancel_left]
  exact Dvd.dvd.mul_left hcs.step i

/-- All cells are 8 modulo 16, in whatever block they are and of whatever class. -/
theorem IsCell.mod_sixteen (h : IsCell start size c) : c % 16 = 8 := by
  obtain ⟨base, hbase, -, -, hlow, -, hdvd⟩ := h.bounds
  have hblock : BLOCK_SIZE = 16384 := rfl
  have hdata : DATA_START = 24 := rfl
  rw [hblock] at hbase
  rw [hdata] at hlow hdvd
  omega

theorem IsCell.lt_bound (h : IsCell start size c) : start ≤ c ∧ c < start + size := by
  obtain ⟨base, -, hlow, hend, hcell, hup, -⟩ := h.bounds
  omega

namespace SpaceBitmap

variable {b : SpaceBitmap}

theorem hasAddress_create_of_isCell (beyond : ℕ → BitVec 64) (hpage : 4096 ∣ start)
    (hend : start + size ≤ 2 ^ 64) (h : IsCell start size c) :
    (create start size beyond).hasAddress c = true := by
  obtain ⟨base, hbase, hlow, hblock, hcell, hup, -⟩ := h.bounds
  have hB : BLOCK_SIZE = 16384 := rfl
  rw [hB] at hbase hblock hup
  -- the block ends a multiple of the page size past the start of the mapping
  obtain ⟨n, hn⟩ : ∃ n, base + 16384 - start = 4096 * n := ⟨(base + 16384 - start) / 4096, by omega⟩
  have hcover : 4096 * n ≤ 1024 * computeBitmapSize size := le_computeBitmapSize (by omega)
  refine hasAddress_of_lt (by change start ≤ c; omega) (by omega) ?_
  change c - start < 1024 * computeBitmapSize size
  omega

theorem granule_ne_of_isCell (hb : b.heapBegin = start) (hend : start + size ≤ 2 ^ 64)
    (hc : IsCell start size c) (hd : IsCell start size d) (hne : c ≠ d) :
    b.granule c ≠ b.granule d := by
  have hcmod := hc.mod_sixteen
  have hdmod := hd.mod_sixteen
  have hcb := hc.lt_bound
  have hdb := hd.lt_bound
  rcases Nat.lt_or_gt_of_ne hne with hlt | hlt
  · exact granule_ne (by omega) (by omega) (by omega)
  · exact (granule_ne (by omega) (by omega) (by omega)).symm

def atomicTestAndSet (b : SpaceBitmap) (obj : ℕ) : Bool × SpaceBitmap :=
  let index := offsetToIndex (b.offset obj)
  let mask := offsetToMask (b.offset obj)
  let oldWord := b.word index
  if oldWord &&& mask ≠ 0#64 then (true, b)
  else (false, { b with word := Function.update b.word index (oldWord ||| mask) })

theorem bit_atomicTestAndSet (b : SpaceBitmap) (obj g : ℕ) :
    (b.atomicTestAndSet obj).2.bit g = if g = b.granule obj then true else b.bit g := by
  rw [← bit_modify b true obj g, atomicTestAndSet]
  split
  · next hset =>
    have htest : b.bit (b.granule obj) = true := by
      rw [← test_eq_bit, test, decide_eq_true_iff]
      exact hset
    rw [bit_modify]
    split
    · next hg => rw [hg, htest]
    · rfl
  · rfl

/-- An operation on the bit of a cell. -/
inductive BitOp
  | set (c : ℕ)
  | clear (c : ℕ)
  | atomicTestAndSet (c : ℕ)

namespace BitOp

def cell : BitOp → ℕ
  | set c | clear c | atomicTestAndSet c => c

def bit : BitOp → Bool
  | clear _ => false
  | set _ | atomicTestAndSet _ => true

def apply (b : SpaceBitmap) : BitOp → SpaceBitmap
  | set c => b.set c
  | clear c => (b.clear c).2
  | atomicTestAndSet c => (b.atomicTestAndSet c).2

/-- The answer of the last operation on a cell; `before` if there was none. -/
def last (ops : List BitOp) (c : ℕ) (before : Bool) : Bool :=
  ops.foldl (fun answer op => if op.cell = c then op.bit else answer) before

theorem heapBegin_apply (b : SpaceBitmap) (op : BitOp) : (apply b op).heapBegin = b.heapBegin := by
  cases op with
  | set c => rfl
  | clear c => rfl
  | atomicTestAndSet c =>
    rw [apply, SpaceBitmap.atomicTestAndSet]
    split <;> rfl

theorem bit_apply (b : SpaceBitmap) (op : BitOp) (g : ℕ) :
    (apply b op).bit g = if g = b.granule op.cell then op.bit else b.bit g := by
  cases op with
  | set c => exact bit_modify b true c g
  | clear c => exact bit_modify b false c g
  | atomicTestAndSet c => exact bit_atomicTestAndSet b c g

end BitOp

theorem test_foldl_apply (hend : start + size ≤ 2 ^ 64) (hc : IsCell start size c)
    (ops : List BitOp) (hops : ∀ op ∈ ops, IsCell start size op.cell) (hb : b.heapBegin = start) :
    (ops.foldl BitOp.apply b).test c = BitOp.last ops c (b.test c) := by
  induction ops generalizing b with
  | nil => rfl
  | cons op ops ih =>
    have hop := hops op List.mem_cons_self
    have hbegin : (BitOp.apply b op).heapBegin = b.heapBegin := BitOp.heapBegin_apply b op
    rw [List.foldl_cons, ih (fun o ho => hops o (List.mem_cons_of_mem _ ho)) (hbegin.trans hb)]
    have htest : (BitOp.apply b op).test c = if op.cell = c then op.bit else b.test c := by
      have hgranule : (BitOp.apply b op).granule c = b.granule c := by
        rw [granule, offset, hbegin]; rfl
      rw [test_eq_bit, hgranule, BitOp.bit_apply, test_eq_bit b]
      by_cases heq : op.cell = c
      · rw [if_pos heq, if_pos (by rw [heq])]
      · rw [if_neg heq, if_neg (granule_ne_of_isCell hb hend hc hop fun h => heq h.symm)]
    rw [htest]
    rfl

/-- Addresses that share no word with the heap are not in the bitmap. -/
theorem hasAddress_create_of_outside (beyond : ℕ → BitVec 64) (hpage : 4096 ∣ start)
    (hend : start + size ≤ 2 ^ 64) (hc : c < 2 ^ 64)
    (hout : c < start ∨ start + (size + 1023) / 1024 * 1024 ≤ c) :
    (create start size beyond).hasAddress c = false := by
  have hsize : 1024 * computeBitmapSize size ≤ (size + 1023) / 1024 * 1024 := by
    have hround : computeBitmapSize size = roundDown (size + 1023) 1024 / 1024 := rfl
    rw [hround, roundDown_1024]
    omega
  have hoffset : (size + 1023) / 1024 * 1024 ≤ wrappingSub c start := by
    rcases hout with hlt | hle
    · rw [wrappingSub, Nat.mod_eq_of_lt (by omega)]
      omega
    · rw [wrappingSub_of_le (by omega) hc]
      omega
  refine decide_eq_false ?_
  change ¬ wrappingSub c start / 16 / 64 < computeBitmapSize size
  omega

/-- The bitmap of a mapping: it has a word for each cell the allocator can hand out, keeps cells
apart, and answers the last operation on a cell. -/
theorem create_covers (start size : ℕ) (beyond : ℕ → BitVec 64) (hpage : 4096 ∣ start)
    (hend : start + size ≤ 2 ^ 64) :
    (∀ c, IsCell start size c → (create start size beyond).hasAddress c = true ∧
      offsetToIndex ((create start size beyond).offset c) < computeBitmapSize size) ∧
    (∀ c d, IsCell start size c → IsCell start size d → c ≠ d →
      (create start size beyond).granule c ≠ (create start size beyond).granule d) ∧
    (∀ (ops : List BitOp) (c : ℕ), (∀ op ∈ ops, IsCell start size op.cell) → IsCell start size c →
      (ops.foldl BitOp.apply (create start size beyond)).test c = BitOp.last ops c false) ∧
    (∀ a < 2 ^ 64, a < start ∨ start + (size + 1023) / 1024 * 1024 ≤ a →
      (create start size beyond).hasAddress a = false) := by
  refine ⟨fun c hc => ?_, fun c d hc hd hne => granule_ne_of_isCell rfl hend hc hd hne,
    fun ops c hops hc => ?_, fun a ha hout =>
      hasAddress_create_of_outside beyond hpage hend ha hout⟩
  · have haddress := hasAddress_create_of_isCell beyond hpage hend hc
    exact ⟨haddress, of_decide_eq_true haddress⟩
  · rw [test_foldl_apply hend hc ops hops rfl]
    have hindex : offsetToIndex ((create start size beyond).offset c) < computeBitmapSize size :=
      of_decide_eq_true (hasAddress_create_of_isCell beyond hpage hend hc)
    have hword : (create start size beyond).test c = false := by
      refine decide_eq_false (not_not.mpr ?_)
      change (if offsetToIndex ((create start size beyond).offset c) < computeBitmapSize size
        then 0#64 else _) &&& _ = 0#64
      rw [if_pos hindex, BitVec.zero_and]
    rw [hword]

theorem create_covers_two_blocks :
    IsCell 4096 45056 16408 ∧ (create 4096 45056 fun _ => 0#64).hasAddress 16408 = true := by
  have hcell : IsCell 4096 45056 16408 :=
    ⟨BlockAllocator.new 4096 45056, 16, 16384, _, .new, ⟨by decide, by decide, by decide⟩, rfl,
      mem_cellsOf.mpr ⟨0, by decide, rfl⟩⟩
  exact ⟨hcell, ((create_covers 4096 45056 (fun _ => 0#64) (by decide) (by decide)).1 _ hcell).1⟩

/-- A heap of 20000 bytes: the bitmap has 20 words, and the last one reaches past the heap. -/
theorem hasAddress_past_heap :
    ∃ a, 65536 + 20000 ≤ a ∧ a < 2 ^ 64 ∧
      (create 65536 20000 fun _ => 0#64).hasAddress a = true :=
  ⟨85536, by decide, by decide, by decide⟩

end SpaceBitmap

end Starlight.Gc
