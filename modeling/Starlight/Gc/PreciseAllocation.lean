import Starlight.Gc.SpaceBitmap
import Starlight.Lib.Transducer

/-!
# Addresses in the large object space

A large cell has a block of its own from the allocator underneath. The header is put at the first
16-byte boundary of the block, and the cell after the header: the size of the header has the bit of
half an atom, so cells are 8 modulo 16. The header and the block are found again by subtraction.
The allocator answers with any block that overlaps no block in use; what it knows about a pointer
is a parameter.
-/

namespace Starlight.Gc

namespace LargeObjectSpace

/-- `PreciseAllocation`, the header in front of a large cell. -/
structure PreciseAllocation where
  cellSize : ℕ
  isMarked : Bool
  indexInSpace : ℕ
  adjustedAlignment : Bool
  hasValidCell : Bool

def ALIGNMENT : ℕ := 16

def HALF_ALIGNMENT : ℕ := ALIGNMENT / 2

/-- `size_of::<PreciseAllocation>()`, with the field order of C. -/
def SIZE_OF_HEADER : ℕ := 24

def headerSize : ℕ :=
  (SIZE_OF_HEADER + HALF_ALIGNMENT - 1) / HALF_ALIGNMENT * HALF_ALIGNMENT ||| HALF_ALIGNMENT

/-- `is_aligned_for_precise_allocation` -/
def isAligned (mem : ℕ) : Bool := mem &&& (ALIGNMENT - 1) == 0

def fromCell (ptr : ℕ) : ℕ := wrappingSub ptr headerSize

def cell (alloc : ℕ) : ℕ := alloc + headerSize

def basePointer (h : PreciseAllocation) (alloc : ℕ) : ℕ :=
  if h.adjustedAlignment then alloc - HALF_ALIGNMENT else alloc

/-- The bytes that `try_create` asks for. -/
def requestSize (size : ℕ) : ℕ := headerSize + size + HALF_ALIGNMENT

/-- Where `try_create` puts the header in a block at `space`. -/
def headerAddress (space : ℕ) : ℕ := if isAligned space then space else space + HALF_ALIGNMENT

/-- `try_create`, where the allocator has answered `space`: the header and its address. The result
is `none` where an assertion fails. -/
def tryCreate (space size indexInSpace : ℕ) : Option (ℕ × PreciseAllocation) :=
  if isAligned (headerAddress space) = false then none
  else if size = 0 then none
  else some (headerAddress space, ⟨size, false, indexInSpace, !isAligned space, true⟩)

/-! ### One allocation -/

theorem headerSize_eq : headerSize = 24 := by decide

theorem requestSize_eq (size : ℕ) : requestSize size = size + 32 := by
  rw [requestSize, headerSize_eq, show HALF_ALIGNMENT = 8 from rfl]
  omega

theorem isAligned_iff (mem : ℕ) : isAligned mem = true ↔ mem % 16 = 0 := by
  rw [isAligned, beq_iff_eq, show ALIGNMENT - 1 = 2 ^ 4 - 1 from rfl, Nat.and_two_pow_sub_one_eq_mod]

theorem headerAddress_eq (space : ℕ) :
    headerAddress space = if space % 16 = 0 then space else space + 8 := by
  simp only [headerAddress, isAligned_iff, show HALF_ALIGNMENT = 8 from rfl]

theorem fromCell_eq_iff {p a : ℕ} (hp : p < 2 ^ 64) (ha : a + 24 < 2 ^ 64) :
    fromCell p = a ↔ p = cell a := by
  rw [fromCell, cell, wrappingSub, headerSize_eq]
  omega

theorem tryCreate_spec {space size indexInSpace : ℕ} (hspace : 8 ∣ space)
    (hfits : space + requestSize size ≤ 2 ^ 64) :
    ((tryCreate space size indexInSpace).isSome ↔ size ≠ 0) ∧
    ∀ a h, tryCreate space size indexInSpace = some (a, h) → a = headerAddress space ∧
      h.cellSize = size ∧ basePointer h a = space ∧ fromCell (cell a) = a ∧ cell a % 16 = 8 ∧
      space ≤ cell a ∧ cell a + size ≤ space + requestSize size := by
  have haddr := headerAddress_eq space
  have haligned : isAligned (headerAddress space) = true := by
    rw [isAligned_iff, haddr]
    split <;> omega
  rw [requestSize_eq] at hfits ⊢
  rw [tryCreate, haligned, if_neg Bool.true_eq_false_eq_False]
  refine ⟨by split <;> simp [*], fun a h heq => ?_⟩
  split at heq
  · cases heq
  · obtain ⟨rfl, rfl⟩ := Prod.mk.inj (Option.some.inj heq)
    have hcell : cell (headerAddress space) = headerAddress space + 24 := by
      rw [cell, headerSize_eq]
    refine ⟨rfl, rfl, ?_, ?_, ?_, ?_, ?_⟩
    · rw [basePointer, headerAddress]
      cases isAligned space <;> rfl
    · refine (fromCell_eq_iff ?_ ?_).mpr rfl
      · rw [hcell, haddr]
        split <;> omega
      · rw [haddr]
        split <;> omega
    all_goals
      rw [hcell, haddr]
      split <;> omega

/-! ### The space -/

end LargeObjectSpace

/-- `LargeObjectSpace`: the addresses of the headers, the headers, and the blocks in use of the heap
underneath, each an address and a size. -/
structure LargeObjectSpace where
  allocations : List ℕ
  header : ℕ → LargeObjectSpace.PreciseAllocation
  blocks : List (ℕ × ℕ)

namespace LargeObjectSpace

def new : LargeObjectSpace := ⟨[], fun _ => ⟨0, false, 0, false, false⟩, []⟩

/-- A block that the allocator can answer: it is aligned to 8, and it overlaps no block in use. -/
def CanMalloc (blocks : List (ℕ × ℕ)) (base len : ℕ) : Prop :=
  8 ∣ base ∧ base + len ≤ 2 ^ 64 ∧ ∀ b ∈ blocks, base + len ≤ b.1 ∨ b.1 + b.2 ≤ base

instance (blocks : List (ℕ × ℕ)) (base len : ℕ) : Decidable (CanMalloc blocks base len) :=
  inferInstanceAs (Decidable (_ ∧ _ ∧ _))

def alloc (s : LargeObjectSpace) (size space : ℕ) : Option (ℕ × LargeObjectSpace) :=
  if CanMalloc s.blocks space (requestSize size) then
    (tryCreate space size (s.allocations.length % 2 ^ 32)).map fun (a, h) =>
      (cell a, ⟨s.allocations ++ [a], Function.update s.header a h,
        s.blocks ++ [(space, requestSize size)]⟩)
  else none

def setMarked (s : LargeObjectSpace) (a : ℕ) (marked : Bool) : LargeObjectSpace :=
  { s with header := Function.update s.header a { s.header a with isMarked := marked } }

/-- `destroy`: the block goes back to the allocator. -/
def destroy (s : LargeObjectSpace) (a : ℕ) : LargeObjectSpace :=
  { s with blocks := s.blocks.filter fun b => b.1 != basePointer (s.header a) a }

/-- `sweep`: allocations without a mark are destroyed. The result is the size of the others. -/
def sweep (s : LargeObjectSpace) : ℕ × LargeObjectSpace :=
  let kept := s.allocations.filter fun a => (s.header a).isMarked
  let dead := s.allocations.filter fun a => !(s.header a).isMarked
  ((kept.map fun a => (s.header a).cellSize).sum, { dead.foldl destroy s with allocations := kept })

def contains (inHeapRegion containsBlock : List (ℕ × ℕ) → ℕ → Bool) (s : LargeObjectSpace)
    (p : ℕ) : Bool :=
  if s.allocations.isEmpty then false
  else inHeapRegion s.blocks (fromCell p) && containsBlock s.blocks (fromCell p) &&
    s.allocations.contains (fromCell p)

inductive Op
  | alloc (size space : ℕ)
  | setMarked (a : ℕ) (marked : Bool)
  | sweep

/-- The space as a machine. `alloc` answers the cell and `sweep` the size that stays in use. -/
def machine : Transducer Op ℕ LargeObjectSpace where
  step s
    | .alloc size space => s.alloc size space
    | .setMarked a marked => if a ∈ s.allocations then some (0, s.setMarked a marked) else none
    | .sweep => some s.sweep

/-- The block that an allocation was put in. -/
def blockOf (s : LargeObjectSpace) (a : ℕ) : ℕ × ℕ :=
  (basePointer (s.header a) a, requestSize (s.header a).cellSize)

/-- The allocations and the blocks in use correspond. -/
structure Inv (s : LargeObjectSpace) : Prop where
  placed : ∀ a ∈ s.allocations, s.blockOf a ∈ s.blocks ∧ a = headerAddress (s.blockOf a).1
  owned : ∀ b ∈ s.blocks, headerAddress b.1 ∈ s.allocations ∧ s.blockOf (headerAddress b.1) = b ∧
    b.1 + b.2 ≤ 2 ^ 64

variable {s s' : LargeObjectSpace}

theorem inv_new : new.Inv := ⟨fun _ h => absurd h List.not_mem_nil, fun _ h => absurd h List.not_mem_nil⟩

theorem headerAddress_le (base : ℕ) : base ≤ headerAddress base ∧ headerAddress base ≤ base + 8 := by
  rw [headerAddress_eq]
  split <;> omega

theorem Inv.alloc (h : s.Inv) {size space c : ℕ} (heq : s.alloc size space = some (c, s')) :
    s'.Inv := by
  rw [LargeObjectSpace.alloc] at heq
  split at heq
  · next hcan =>
    obtain ⟨⟨a, hd⟩, hcreate, heq⟩ := Option.map_eq_some_iff.mp heq
    obtain ⟨-, hs'⟩ := Prod.mk.inj heq
    obtain ⟨hspace, hend, hapart⟩ := hcan
    obtain ⟨rfl, hsize, hbase, -⟩ := (tryCreate_spec hspace hend).2 a hd hcreate
    have hself := headerAddress_le space
    -- no header in use lies in the new block
    have hne : ∀ a ∈ s.allocations, a ≠ headerAddress space := by
      intro a ha
      obtain ⟨hmem, haddr⟩ := h.placed a ha
      have hout := hapart _ hmem
      have hhead := headerAddress_le (s.blockOf a).1
      have hlen : (s.blockOf a).2 = (s.header a).cellSize + 32 := requestSize_eq _
      rw [requestSize_eq] at hout
      omega
    have hnew : s'.blockOf (headerAddress space) = (space, requestSize size) := by
      rw [← hs', blockOf]
      dsimp only
      rw [Function.update_self, hbase, hsize]
    have hold : ∀ a ∈ s.allocations, s'.blockOf a = s.blockOf a := by
      intro a ha
      rw [← hs', blockOf]
      dsimp only
      rw [Function.update_of_ne (hne a ha)]
      rfl
    subst hs'
    constructor
    · intro a ha
      rcases List.mem_append.mp ha with ha | ha
      · rw [hold a ha]
        exact ⟨List.mem_append_left _ (h.placed a ha).1, (h.placed a ha).2⟩
      · rw [List.mem_singleton.mp ha, hnew]
        exact ⟨List.mem_append_right _ (List.mem_singleton_self _), rfl⟩
    · intro b hb
      rcases List.mem_append.mp hb with hb | hb
      · obtain ⟨hmem, hof, hle⟩ := h.owned b hb
        rw [hold _ hmem]
        exact ⟨List.mem_append_left _ hmem, hof, hle⟩
      · rw [List.mem_singleton.mp hb, hnew]
        exact ⟨List.mem_append_right _ (List.mem_singleton_self _), rfl, hend⟩
  · cases heq

theorem blockOf_setMarked (s : LargeObjectSpace) (a : ℕ) (marked : Bool) (a' : ℕ) :
    (s.setMarked a marked).blockOf a' = s.blockOf a' := by
  rw [blockOf, blockOf, setMarked]
  dsimp only
  by_cases heq : a' = a
  · rw [heq, Function.update_self]
    rfl
  · rw [Function.update_of_ne heq]

theorem Inv.setMarked (h : s.Inv) (a : ℕ) (marked : Bool) : (s.setMarked a marked).Inv := by
  constructor
  · intro a' ha'
    rw [blockOf_setMarked]
    exact h.placed a' ha'
  · intro b hb
    rw [blockOf_setMarked]
    exact h.owned b hb

theorem foldl_destroy (dead : List ℕ) (s : LargeObjectSpace) :
    (dead.foldl destroy s).header = s.header ∧ ∀ b, b ∈ (dead.foldl destroy s).blocks ↔
      b ∈ s.blocks ∧ ∀ a ∈ dead, b.1 ≠ (s.blockOf a).1 := by
  induction dead generalizing s with
  | nil => exact ⟨rfl, fun b => ⟨fun hb => ⟨hb, fun _ h => absurd h List.not_mem_nil⟩, And.left⟩⟩
  | cons d dead ih =>
    obtain ⟨hheader, hblocks⟩ := ih (s.destroy d)
    refine ⟨hheader, fun b => (hblocks b).trans ?_⟩
    rw [destroy, List.mem_filter, List.forall_mem_cons, and_assoc, bne_iff_ne]
    rfl

theorem Inv.sweep (h : s.Inv) : s.sweep.2.Inv := by
  obtain ⟨hheader, hblocks⟩ := foldl_destroy (s.allocations.filter fun a => !(s.header a).isMarked) s
  have hof : ∀ a, s.sweep.2.blockOf a = s.blockOf a := by
    intro a
    change (basePointer ((List.foldl destroy s _).header a) a, requestSize
      ((List.foldl destroy s _).header a).cellSize) = _
    rw [hheader]
    rfl
  constructor
  · intro a ha
    obtain ⟨hmem, hmarked⟩ := List.mem_filter.mp ha
    obtain ⟨hb, haddr⟩ := h.placed a hmem
    rw [hof]
    refine ⟨(hblocks _).mpr ⟨hb, fun d hd heq => ?_⟩, haddr⟩
    obtain ⟨hdmem, hdead⟩ := List.mem_filter.mp hd
    rw [(h.placed d hdmem).2, ← heq, ← haddr, hmarked] at hdead
    cases hdead
  · intro b hb
    obtain ⟨hb, hlive⟩ := (hblocks b).mp hb
    obtain ⟨hmem, hback, hle⟩ := h.owned b hb
    rw [hof]
    refine ⟨List.mem_filter.mpr ⟨hmem, ?_⟩, hback, hle⟩
    by_contra hdead
    exact hlive _ (List.mem_filter.mpr ⟨hmem, by simpa using hdead⟩) (by rw [hback])

theorem inv_step (h : s.Inv) {op : Op} {x : ℕ × LargeObjectSpace} (heq : machine.step s op = some x) :
    x.2.Inv := by
  cases op with
  | alloc size space => exact h.alloc heq
  | setMarked a marked =>
    obtain ⟨-, heq⟩ := Option.ite_none_right_eq_some.mp heq
    rw [← Option.some.inj heq]
    exact h.setMarked a marked
  | sweep =>
    rw [← Option.some.inj heq]
    exact h.sweep

/-- The answer of the allocator on a pointer into a block in use. -/
def Knows (answer : List (ℕ × ℕ) → ℕ → Bool) : Prop :=
  ∀ blocks, ∀ b ∈ blocks, ∀ q, b.1 ≤ q → q < b.1 + b.2 → answer blocks q = true

theorem Inv.contains_iff (h : s.Inv) {inHeapRegion containsBlock : List (ℕ × ℕ) → ℕ → Bool}
    (hregion : Knows inHeapRegion) (hblock : Knows containsBlock) {p : ℕ} (hp : p < 2 ^ 64) :
    s.contains inHeapRegion containsBlock p = true ↔
      ∃ b ∈ s.blocks, p = cell (headerAddress b.1) := by
  have hplace : ∀ b ∈ s.blocks, headerAddress b.1 + 24 < 2 ^ 64 ∧
      headerAddress b.1 < b.1 + b.2 := by
    intro b hb
    obtain ⟨-, hof, hle⟩ := h.owned b hb
    have hlen : b.2 = (s.header (headerAddress b.1)).cellSize + 32 := by
      rw [← requestSize_eq]
      exact (congrArg Prod.snd hof).symm
    rw [hlen] at hle ⊢
    rw [headerAddress_eq] at hle ⊢
    split <;> omega
  rw [contains]
  constructor
  · intro hc
    split at hc
    · cases hc
    · obtain ⟨-, hmem⟩ := Bool.and_eq_true_iff.mp hc
      obtain ⟨hb, haddr⟩ := h.placed _ (List.contains_iff_mem.mp hmem)
      refine ⟨_, hb, ?_⟩
      rw [← haddr]
      refine (fromCell_eq_iff hp ?_).mp rfl
      rw [haddr]
      exact (hplace _ hb).1
  · rintro ⟨b, hb, heq⟩
    have hmem := (h.owned b hb).1
    have hhead := (headerAddress_le b.1).1
    rw [(fromCell_eq_iff hp (hplace b hb).1).mpr heq, if_neg, hregion _ b hb _ hhead (hplace b hb).2,
      hblock _ b hb _ hhead (hplace b hb).2, Bool.true_and, Bool.true_and]
    · exact List.contains_iff_mem.mpr hmem
    · rw [List.isEmpty_iff]
      exact List.ne_nil_of_mem hmem

/-- Every allocation is put where its header and its block are found again, and `contains` accepts
the cells of the blocks in use and nothing else. -/
theorem preciseAllocation_run {inHeapRegion containsBlock : List (ℕ × ℕ) → ℕ → Bool}
    (hregion : Knows inHeapRegion) (hblock : Knows containsBlock) :
    (∀ space size index, 8 ∣ space → space + requestSize size ≤ 2 ^ 64 →
      ((tryCreate space size index).isSome ↔ size ≠ 0) ∧
      ∀ a h, tryCreate space size index = some (a, h) → a = headerAddress space ∧
        h.cellSize = size ∧ basePointer h a = space ∧ fromCell (cell a) = a ∧ cell a % 16 = 8 ∧
        space ≤ cell a ∧ cell a + size ≤ space + requestSize size) ∧
    ∀ (ops : List Op) (answers : List ℕ) (s : LargeObjectSpace),
      machine.run new ops = some (answers, s) → ∀ p < 2 ^ 64,
        (s.contains inHeapRegion containsBlock p = true ↔
          ∃ b ∈ s.blocks, p = cell (headerAddress b.1)) := by
  refine ⟨fun space size index => tryCreate_spec, fun ops answers s hrun p hp => ?_⟩
  have hinv : s.Inv := (Transducer.run_invariant (I := Inv) (Q := fun _ _ => True)
    (fun h heq => ⟨inv_step h heq, trivial⟩) inv_new hrun).1
  exact hinv.contains_iff hregion hblock hp

/-- Two allocations, the second in a block that is not aligned to 16. A sweep keeps the first. -/
theorem preciseAllocation_run_two :
    let knows : List (ℕ × ℕ) → ℕ → Bool := fun blocks q =>
      blocks.any fun b => decide (b.1 ≤ q) && decide (q < b.1 + b.2)
    ∃ answers s, machine.run new [.alloc 9000 65536, .alloc 8192 80008, .setMarked 65536 true, .sweep]
      = some (answers, s) ∧ s.contains knows knows 65560 = true ∧
      ¬ s.contains knows knows 80040 = true := by
  intro knows
  have hknows : Knows knows := fun blocks b hb q hlow hup =>
    List.any_eq_true.mpr ⟨b, hb, by simp [hlow, hup]⟩
  obtain ⟨⟨answers, s⟩, hrun⟩ := Option.isSome_iff_exists.mp (show (machine.run new
    [.alloc 9000 65536, .alloc 8192 80008, .setMarked 65536 true, .sweep]).isSome from by decide)
  have hcontains := (preciseAllocation_run hknows hknows).2 _ answers s hrun
  have hblocks : s.blocks = [(65536, 9032)] := by
    have h := congrArg (Option.map fun x => x.2.blocks) hrun
    exact (Option.some.inj h).symm
  refine ⟨answers, s, hrun, ?_, ?_⟩
  · rw [hcontains 65560 (by decide), hblocks]
    exact ⟨_, List.mem_singleton_self _, by decide⟩
  · rw [hcontains 80040 (by decide), hblocks]
    decide

end LargeObjectSpace

end Starlight.Gc
