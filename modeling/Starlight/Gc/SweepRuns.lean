import Starlight.Gc.SpaceSweep

/-!
# What a whole sweep does

`Sweeps s₀ s done` compares the space before a sweep with the space at some point of it, when the
blocks `done` have been swept: their cells are live exactly if they were live and marked, and carry
no mark; every other block is as it was.
-/

namespace Starlight.Gc

namespace Space

variable {s₀ s s' : Space} {i base : ℕ} {la la' : LocalAllocator} {done : Set ℕ}

/-- The sweep so far, with the blocks of `done` swept. -/
structure Sweeps (s₀ s : Space) (done : Set ℕ) : Prop where
  classes : s.sizeClassForSizeStep = s₀.sizeClassForSizeStep
  allocators : s.allocators = s₀.allocators
  precise : s.preciseAllocations = s₀.preciseAllocations
  live_begin : s.liveBitmap.heapBegin = s₀.liveBitmap.heapBegin
  live_size : s.liveBitmap.size = s₀.liveBitmap.size
  built : ∀ b, s.blockAllocator.Built b ↔ s₀.blockAllocator.Built b
  dirBlocks : ∀ j, ∀ b ∈ s.dirBlocks j, b ∈ s₀.dirBlocks j
  kept : ∀ j, ∀ b ∈ s₀.dirBlocks j,
    b ∈ s.dirBlocks j ∨ b ∈ done ∧ ∀ c ∈ s₀.blockCells b, s₀.keeps c = false
  cells : ∀ j, ∀ b ∈ s.dirBlocks j, s.blockCells b = s₀.blockCells b
  live_done : ∀ j, ∀ b ∈ s₀.dirBlocks j, b ∈ done → ∀ c ∈ s₀.blockCells b,
    s.liveBitmap.test c = s₀.keeps c
  live_todo : ∀ j, ∀ b ∈ s₀.dirBlocks j, b ∉ done → ∀ c ∈ s₀.blockCells b,
    s.liveBitmap.test c = s₀.liveBitmap.test c
  mark_done : ∀ j, ∀ b ∈ s₀.dirBlocks j, b ∈ done → ∀ c ∈ s₀.blockCells b,
    s.markBitmap.test c = false
  mark_todo : ∀ j, ∀ b ∈ s₀.dirBlocks j, b ∉ done → ∀ c ∈ s₀.blockCells b,
    s.markBitmap.test c = s₀.markBitmap.test c
  freelist_done : ∀ j, ∀ b ∈ s.dirBlocks j, b ∈ done → (s.blockAllocator.block b).freelist =
    ((s₀.blockCells b).filter fun c => !s₀.keeps c).reverse
  objects_kept : ∀ j, ∀ b ∈ s₀.dirBlocks j, b ∈ done → ∀ c ∈ s₀.blockCells b, s₀.keeps c = true →
    s.objects c = { s₀.objects c with state := .white }
  objects_payload : ∀ a, (s.objects a).payload = (s₀.objects a).payload
  objects_other : ∀ a, (∀ j, ∀ b ∈ s₀.dirBlocks j, a ∉ s₀.blockCells b) →
    s.objects a = s₀.objects a

theorem Sweeps.refl (s : Space) : s.Sweeps s ∅ where
  classes := rfl
  allocators := rfl
  precise := rfl
  live_begin := rfl
  live_size := rfl
  built := fun _ => Iff.rfl
  dirBlocks := fun _ _ h => h
  kept := fun _ _ h => Or.inl h
  cells := fun _ _ _ => rfl
  live_done := fun _ _ _ h => absurd h (Set.notMem_empty _)
  live_todo := fun _ _ _ _ _ _ => rfl
  mark_done := fun _ _ _ h => absurd h (Set.notMem_empty _)
  mark_todo := fun _ _ _ _ _ _ => rfl
  freelist_done := fun _ _ _ h => absurd h (Set.notMem_empty _)
  objects_kept := fun _ _ _ h => absurd h (Set.notMem_empty _)
  objects_payload := fun _ => rfl
  objects_other := fun _ _ => rfl

theorem Sweeps.keeps_todo (h : s₀.Sweeps s done) (hb : base ∈ s₀.dirBlocks i) (hnot : base ∉ done)
    {c : ℕ} (hc : c ∈ s₀.blockCells base) : s.keeps c = s₀.keeps c := by
  rw [keeps, h.live_todo i base hb hnot c hc, h.mark_todo i base hb hnot c hc, keeps]

theorem Sweeps.sweptBlock (h : s₀.Sweeps s done) (hs₀ : s₀.Inv) (hs : s.Inv)
    (hb : base ∈ s.dirBlocks i) (hnot : base ∉ done) (hswept : s.SweptBlock base s') :
    s₀.Sweeps s' (insert base done) := by
  have hb₀ := h.dirBlocks i base hb
  have hcells := h.cells i base hb
  have hkeeps : ∀ c ∈ s₀.blockCells base, s.keeps c = s₀.keeps c :=
    fun c hc => h.keeps_todo hb₀ hnot hc
  -- the cells of a block that is still in a directory, or was released, are not touched
  have hother : ∀ j, ∀ b ∈ s₀.dirBlocks j, b ≠ base → ∀ c ∈ s₀.blockCells b,
      s.liveBitmap.granule c ∉ (s.blockCells base).map s.liveBitmap.granule := by
    intro j b hj hne c hc hmem
    obtain ⟨d, hd, hdg⟩ := List.mem_map.mp hmem
    have hg : ∀ a, s.liveBitmap.granule a = s₀.liveBitmap.granule a := by
      intro a
      rw [SpaceBitmap.granule, SpaceBitmap.granule, SpaceBitmap.offset, SpaceBitmap.offset,
        h.live_begin]
    rw [hg, hg] at hdg
    rw [hcells] at hd
    have hdc := hs₀.granule_inj hb₀ hj hd hc hdg
    exact hne (hs₀.directories.block_unique hj hb₀ hc (hdc ▸ hd))
  have hlive_other : ∀ j, ∀ b ∈ s₀.dirBlocks j, b ≠ base → ∀ c ∈ s₀.blockCells b,
      s'.liveBitmap.test c = s.liveBitmap.test c := by
    intro j b hj hne c hc
    rw [SpaceBitmap.test_eq_bit, hswept.granule, hswept.live, if_neg (hother j b hj hne c hc),
      SpaceBitmap.test_eq_bit]
  have hmark_other : ∀ j, ∀ b ∈ s₀.dirBlocks j, b ≠ base → ∀ c ∈ s₀.blockCells b,
      s'.markBitmap.test c = s.markBitmap.test c := by
    intro j b hj hne c hc
    rw [SpaceBitmap.test_eq_bit, hswept.markGranule hs.geometry, hswept.mark,
      if_neg (hother j b hj hne c hc), SpaceBitmap.test_eq_bit, hs.geometry.granule_eq]
  have hobj_other : ∀ j, ∀ b ∈ s₀.dirBlocks j, b ≠ base → ∀ c ∈ s₀.blockCells b,
      s'.objects c = s.objects c := by
    intro j b hj hne c hc
    rw [hswept.objects, if_neg]
    rintro ⟨hc', -⟩
    rw [hcells] at hc'
    exact hne (hs₀.directories.block_unique hj hb₀ hc hc')
  exact {
    classes := hswept.classes.trans h.classes
    allocators := hswept.allocators.trans h.allocators
    precise := hswept.precise.trans h.precise
    live_begin := hswept.live_begin.trans h.live_begin
    live_size := hswept.live_size.trans h.live_size
    built := fun b => by
      rw [← h.built b, hswept.blockAllocator]
      exact Iff.rfl
    dirBlocks := fun j b hj => h.dirBlocks j b (hswept.dirBlocks j ▸ hj)
    kept := by
      intro j b hj
      rw [hswept.dirBlocks]
      rcases h.kept j b hj with hin | ⟨hdone, hdead⟩
      · exact Or.inl hin
      · exact Or.inr ⟨Set.mem_insert_of_mem _ hdone, hdead⟩
    cells := fun j b hj =>
      (hswept.blockCells b).trans (h.cells j b (hswept.dirBlocks j ▸ hj))
    live_done := by
      intro j b hj hdone c hc
      by_cases hbb : b = base
      · subst hbb
        rw [hswept.live_self hs.geometry (hcells ▸ hc), hkeeps c hc]
      · rw [hlive_other j b hj hbb c hc]
        exact h.live_done j b hj (Set.mem_of_mem_insert_of_ne hdone hbb) c hc
    live_todo := by
      intro j b hj hdone c hc
      rw [Set.mem_insert_iff, not_or] at hdone
      rw [hlive_other j b hj hdone.1 c hc]
      exact h.live_todo j b hj hdone.2 c hc
    mark_done := by
      intro j b hj hdone c hc
      by_cases hbb : b = base
      · subst hbb
        exact hswept.mark_self hs hb (hcells ▸ hc)
      · rw [hmark_other j b hj hbb c hc]
        exact h.mark_done j b hj (Set.mem_of_mem_insert_of_ne hdone hbb) c hc
    mark_todo := by
      intro j b hj hdone c hc
      rw [Set.mem_insert_iff, not_or] at hdone
      rw [hmark_other j b hj hdone.1 c hc]
      exact h.mark_todo j b hj hdone.2 c hc
    freelist_done := by
      intro j b hj hdone
      rw [hswept.dirBlocks] at hj
      by_cases hbb : b = base
      · subst hbb
        rw [hswept.freelist_self, hcells]
        congr 1
        exact List.filter_congr fun c hc => by rw [hkeeps c hc]
      · rw [hswept.block_of_ne hbb]
        exact h.freelist_done j b hj (Set.mem_of_mem_insert_of_ne hdone hbb)
    objects_kept := by
      intro j b hj hdone c hc hk
      by_cases hbb : b = base
      · subst hbb
        rw [hswept.objects, if_pos ⟨hcells ▸ hc, (hkeeps c hc).trans hk⟩]
        exact congrArg (Obj.mk .white) (h.objects_payload c)
      · rw [hobj_other j b hj hbb c hc]
        exact h.objects_kept j b hj (Set.mem_of_mem_insert_of_ne hdone hbb) c hc hk
    objects_payload := by
      intro a
      rw [hswept.objects]
      split
      · exact h.objects_payload a
      · exact h.objects_payload a
    objects_other := by
      intro a ha
      rw [hswept.objects, if_neg]
      · exact h.objects_other a ha
      · rintro ⟨hmem, -⟩
        rw [hcells] at hmem
        exact ha i base hb₀ hmem }

theorem Sweeps.rearrange (h : s₀.Sweeps s done) (hla : s.allocatorForSizeClass i = some la)
    (hperm : la'.blocks.Perm la.blocks) :
    s₀.Sweeps (s.withDirectory i la' s.blockAllocator) done := by
  have hdir : ∀ j b, b ∈ (s.withDirectory i la' s.blockAllocator).dirBlocks j ↔
      b ∈ s.dirBlocks j := by
    intro j b
    by_cases hj : j = i
    · subst hj
      rw [dirBlocks_withDirectory_self, dirBlocks_of_eq hla, hperm.mem_iff]
    · rw [dirBlocks_withDirectory_of_ne hj]
  exact { h with
    dirBlocks := fun j b hj => h.dirBlocks j b ((hdir j b).mp hj)
    kept := fun j b hj => (h.kept j b hj).imp_left (hdir j b).mpr
    cells := fun j b hj => h.cells j b ((hdir j b).mp hj)
    freelist_done := fun j b hj => h.freelist_done j b ((hdir j b).mp hj) }

theorem Sweeps.release (h : s₀.Sweeps s done) (hs : s.Inv)
    (hla : s.allocatorForSizeClass i = some la) (hperm : la.blocks.Perm (base :: la'.blocks))
    (hdone : base ∈ done) (hdead : ∀ c ∈ s₀.blockCells base, s₀.keeps c = false) :
    s₀.Sweeps (s.withDirectory i la' (s.blockAllocator.returnBlock base)) done := by
  have hdir := mem_dirBlocks_withDirectory_iff hs.directories hla hperm
    (s.blockAllocator.returnBlock base)
  have hblock : ∀ {b}, b ≠ base →
      (s.blockAllocator.returnBlock base).block b = s.blockAllocator.block b :=
    fun hne => BlockAllocator.block_write_of_ne _ _ hne
  exact { h with
    built := fun b => h.built b
    dirBlocks := fun j b hj => h.dirBlocks j b ((hdir j b).mp hj).1
    kept := by
      intro j b hj
      by_cases hbb : b = base
      · exact Or.inr ⟨hbb ▸ hdone, hbb ▸ hdead⟩
      · exact (h.kept j b hj).imp_left fun hmem => (hdir j b).mpr ⟨hmem, hbb⟩
    cells := by
      intro j b hj
      obtain ⟨hj, hne⟩ := (hdir j b).mp hj
      exact (congrArg (Block.walk b) (hblock hne)).trans (h.cells j b hj)
    freelist_done := by
      intro j b hj
      obtain ⟨hj, hne⟩ := (hdir j b).mp hj
      intro hin
      exact (congrArg Block.freelist (hblock hne)).trans (h.freelist_done j b hj hin) }

/-! ### The loop over the blocks of a directory -/

/-- The space in the middle of the sweep of a directory: the blocks of `rest` are still to be swept,
the others were put aside. -/
def midSweep (i cellSize : ℕ) (st : DirectorySweep) (rest : List ℕ) : Space :=
  st.space.withDirectory i ⟨cellSize, rest ++ st.available, st.unavailable⟩ st.space.blockAllocator

structure SweepsDirectory (s₀ : Space) (i cellSize : ℕ) (st : DirectorySweep) (rest : List ℕ)
    (done : Set ℕ) : Prop where
  inv : (midSweep i cellSize st rest).Inv
  sweeps : s₀.Sweeps (midSweep i cellSize st rest) done
  available_free : ∀ b ∈ st.available, (st.space.blockAllocator.block b).freelist ≠ []
  unavailable_full : ∀ b ∈ st.unavailable, (st.space.blockAllocator.block b).freelist = []
  behind_current : ∀ j l, j ≠ i → st.space.allocatorForSizeClass j = some l →
    ∀ b ∈ l.current.tail, (st.space.blockAllocator.block b).freelist ≠ []
  unavail_full : ∀ j l, j ≠ i → st.space.allocatorForSizeClass j = some l →
    ∀ b ∈ l.unavail, (st.space.blockAllocator.block b).freelist = []

def sweepCells (st : DirectorySweep) (base : ℕ) : BlockSweep :=
  ((st.space.blockAllocator.block base).walk base).foldl sweepCell ⟨st.space, [], true⟩

/-- The space after that loop, with the new free list in the header of the block. -/
def sweptSpace (st : DirectorySweep) (base : ℕ) : Space :=
  let swept := sweepCells st base
  let block := { st.space.blockAllocator.block base with freelist := swept.freelist }
  { swept.space with blockAllocator := swept.space.blockAllocator.write base block }

theorem sweepBlock_eq (st : DirectorySweep) (base : ℕ) : sweepBlock st base =
    if (sweepCells st base).freelist = [] then
      ⟨sweptSpace st base, st.available, base :: st.unavailable⟩
    else if (sweepCells st base).fullyFree then
      ⟨{ sweptSpace st base with
          blockAllocator := (sweptSpace st base).blockAllocator.returnBlock base },
        st.available, st.unavailable⟩
    else ⟨sweptSpace st base, base :: st.available, st.unavailable⟩ := rfl

variable {st : DirectorySweep} {rest : List ℕ} {cellSize : ℕ}

theorem sweptBlock_midSweep (hs : (midSweep i cellSize st rest).Inv)
    (hb : base ∈ (midSweep i cellSize st rest).dirBlocks i) :
    (midSweep i cellSize st rest).SweptBlock base
      (midSweep i cellSize { st with space := sweptSpace st base } rest) ∧
    (sweepCells st base).freelist =
      (((midSweep i cellSize st rest).blockCells base).filter
        fun c => !(midSweep i cellSize st rest).keeps c).reverse ∧
    (sweepCells st base).fullyFree = ((midSweep i cellSize st rest).blockCells base).all
        fun c => !(midSweep i cellSize st rest).keeps c := by
  have hcells := sweptCells_foldl ((st.space.blockAllocator.block base).walk base)
    ⟨st.space, [], true⟩ hs.geometry.granule_eq (hs.nodup_granule hb)
  have hl := hcells.layout
  have hfree : (sweepCells st base).freelist =
      (((midSweep i cellSize st rest).blockCells base).filter
        fun c => !(midSweep i cellSize st rest).keeps c).reverse :=
    hcells.freelist.trans (List.append_nil _)
  refine ⟨?_, hfree, hcells.fullyFree.trans (Bool.true_and _)⟩
  exact { hl, hcells with
    directory := congrArg (fun f => Function.update f i _) hl.directory
    blockAllocator := by
      rw [← hfree]
      exact congrArg (fun ba : BlockAllocator => ba.write base
        { st.space.blockAllocator.block base with
          freelist := (sweepCells st base).freelist }) hl.blockAllocator }

theorem directory_sweptSpace (hs : (midSweep i cellSize st rest).Inv)
    (hb : base ∈ (midSweep i cellSize st rest).dirBlocks i) :
    (sweptSpace st base).allocatorForSizeClass = st.space.allocatorForSizeClass :=
  (sweptCells_foldl ((st.space.blockAllocator.block base).walk base)
    ⟨st.space, [], true⟩ hs.geometry.granule_eq (hs.nodup_granule hb)).layout.directory

theorem dirBlocks_midSweep : (midSweep i cellSize st rest).dirBlocks i =
    (⟨cellSize, rest ++ st.available, st.unavailable⟩ : LocalAllocator).blocks :=
  dirBlocks_of_eq allocatorForSizeClass_withDirectory_self

theorem SweepsDirectory.ne_base (h : SweepsDirectory s₀ i cellSize st (base :: rest) done) :
    (∀ b, b ∈ rest ∨ b ∈ st.available ∨ b ∈ st.unavailable → b ≠ base) ∧
      ∀ j l b, j ≠ i → st.space.allocatorForSizeClass j = some l → b ∈ l.blocks → b ≠ base := by
  constructor
  · rintro b hmem rfl
    have hnodup := h.inv.directories.nodup i
    rw [dirBlocks_midSweep] at hnodup
    refine (List.nodup_cons.mp hnodup).1 ?_
    change b ∈ rest ++ st.available ++ st.unavailable
    rw [List.mem_append, List.mem_append]
    exact or_assoc.mpr hmem
  · rintro j l b hj hl hbl rfl
    have hl' : (midSweep i cellSize st (b :: rest)).allocatorForSizeClass j = some l :=
      (allocatorForSizeClass_withDirectory_of_ne hj).trans hl
    refine hj (h.inv.directories.disjoint j i b (dirBlocks_of_eq hl' ▸ hbl) ?_)
    rw [dirBlocks_midSweep]
    exact List.mem_cons_self

theorem SweepsDirectory.freelists (h : SweepsDirectory s₀ i cellSize st (base :: rest) done)
    {blocks : BlockAllocator} (hblocks : ∀ b, b ≠ base → blocks.block b = st.space.blockAllocator.block b) :
    (∀ b ∈ st.available, (blocks.block b).freelist ≠ []) ∧
      (∀ b ∈ st.unavailable, (blocks.block b).freelist = []) ∧
      ∀ j l, j ≠ i → st.space.allocatorForSizeClass j = some l →
        (∀ b ∈ l.current.tail, (blocks.block b).freelist ≠ []) ∧
          ∀ b ∈ l.unavail, (blocks.block b).freelist = [] := by
  obtain ⟨hput, hother⟩ := h.ne_base
  refine ⟨fun b hbl => ?_, fun b hbl => ?_, fun j l hj hl => ⟨fun b hbl => ?_, fun b hbl => ?_⟩⟩
  · rw [hblocks b (hput b (Or.inr (Or.inl hbl)))]
    exact h.available_free b hbl
  · rw [hblocks b (hput b (Or.inr (Or.inr hbl)))]
    exact h.unavailable_full b hbl
  · rw [hblocks b (hother j l b hj hl (List.mem_append_left _ (List.mem_of_mem_tail hbl)))]
    exact h.behind_current j l hj hl b hbl
  · rw [hblocks b (hother j l b hj hl (List.mem_append_right _ hbl))]
    exact h.unavail_full j l hj hl b hbl

theorem SweepsDirectory.step (h : SweepsDirectory s₀ i cellSize st (base :: rest) done)
    (hs₀ : s₀.Inv) (hnot : base ∉ done) :
    SweepsDirectory s₀ i cellSize (sweepBlock st base) rest (insert base done) := by
  have hb : base ∈ (midSweep i cellSize st (base :: rest)).dirBlocks i := by
    rw [dirBlocks_midSweep]
    exact List.mem_cons_self
  obtain ⟨hswept, hfree, hfully⟩ := sweptBlock_midSweep h.inv hb
  have hinv := hswept.inv h.inv hb
  have hsweeps := h.sweeps.sweptBlock hs₀ h.inv hb hnot hswept
  have hself : ((sweptSpace st base).blockAllocator.block base).freelist =
      (sweepCells st base).freelist := by
    rw [hfree]
    exact hswept.freelist_self
  have hdirectory := directory_sweptSpace h.inv hb
  have hla' : (midSweep i cellSize { st with space := sweptSpace st base }
      (base :: rest)).allocatorForSizeClass i =
      some ⟨cellSize, base :: rest ++ st.available, st.unavailable⟩ :=
    allocatorForSizeClass_withDirectory_self
  have hblock : ∀ b, b ≠ base →
      (sweptSpace st base).blockAllocator.block b = st.space.blockAllocator.block b :=
    fun b hne => hswept.block_of_ne hne
  obtain ⟨havailable, hunavailable, hothers⟩ := h.freelists hblock
  rw [sweepBlock_eq]
  by_cases hnil : (sweepCells st base).freelist = []
  · -- the block is full
    rw [if_pos hnil]
    have hperm : (LocalAllocator.blocks
        ⟨cellSize, rest ++ st.available, base :: st.unavailable⟩).Perm
        (LocalAllocator.blocks ⟨cellSize, base :: rest ++ st.available, st.unavailable⟩) :=
      List.perm_middle
    have hspace : midSweep i cellSize ⟨sweptSpace st base, st.available, base :: st.unavailable⟩
        rest = (midSweep i cellSize { st with space := sweptSpace st base }
          (base :: rest)).withDirectory i
            ⟨cellSize, rest ++ st.available, base :: st.unavailable⟩
            (sweptSpace st base).blockAllocator :=
      withDirectory_withDirectory.symm
    refine ⟨hspace ▸ inv_rearrange hinv hla' rfl hperm, hspace ▸ hsweeps.rearrange hla' hperm,
      havailable, ?_, fun j l hj hl => (hothers j l hj (hdirectory ▸ hl)).1,
      fun j l hj hl => (hothers j l hj (hdirectory ▸ hl)).2⟩
    intro b hbl
    rcases List.mem_cons.mp hbl with rfl | hbl
    · exact hself.trans hnil
    · exact hunavailable b hbl
  · rw [if_neg hnil]
    by_cases hfree' : (sweepCells st base).fullyFree = true
    · -- no cell of the block is left: it is released
      rw [if_pos hfree']
      have hdead : ∀ c ∈ (midSweep i cellSize st (base :: rest)).blockCells base,
          (midSweep i cellSize st (base :: rest)).keeps c = false := by
        intro c hc
        have hall := List.all_eq_true.mp (hfully ▸ hfree') c hc
        simpa using hall
      have hperm : (LocalAllocator.blocks
          ⟨cellSize, base :: rest ++ st.available, st.unavailable⟩).Perm
          (base :: LocalAllocator.blocks ⟨cellSize, rest ++ st.available, st.unavailable⟩) :=
        List.Perm.refl _
      have hspace : midSweep i cellSize
          ⟨{ sweptSpace st base with
              blockAllocator := (sweptSpace st base).blockAllocator.returnBlock base },
            st.available, st.unavailable⟩ rest =
          (midSweep i cellSize { st with space := sweptSpace st base }
            (base :: rest)).withDirectory i ⟨cellSize, rest ++ st.available, st.unavailable⟩
              ((sweptSpace st base).blockAllocator.returnBlock base) :=
        withDirectory_withDirectory.symm
      have hcells := h.sweeps.cells i base hb
      have hdead' : ∀ c ∈ (midSweep i cellSize { st with space := sweptSpace st base }
          (base :: rest)).blockCells base, (midSweep i cellSize
            { st with space := sweptSpace st base } (base :: rest)).liveBitmap.test c = false := by
        intro c hc
        rw [hswept.blockCells] at hc
        rw [hswept.live_self h.inv.geometry hc]
        exact hdead c hc
      have hdead₀ : ∀ c ∈ s₀.blockCells base, s₀.keeps c = false := by
        intro c hc
        rw [← h.sweeps.keeps_todo (h.sweeps.dirBlocks i base hb) hnot hc]
        exact hdead c (hcells ▸ hc)
      have hret : ∀ b, b ≠ base → ((sweptSpace st base).blockAllocator.returnBlock base).block b =
          st.space.blockAllocator.block b :=
        fun b hne => (BlockAllocator.block_write_of_ne _ _ hne).trans (hblock b hne)
      obtain ⟨havailable', hunavailable', hothers'⟩ := h.freelists hret
      exact ⟨hspace ▸ inv_release hinv hla' rfl hperm hdead',
        hspace ▸ hsweeps.release hinv hla' hperm (Set.mem_insert _ _) hdead₀, havailable', hunavailable',
        fun j l hj hl => (hothers' j l hj (hdirectory ▸ hl)).1,
        fun j l hj hl => (hothers' j l hj (hdirectory ▸ hl)).2⟩
    · -- the block has free and live cells
      rw [if_neg hfree']
      have hperm : (LocalAllocator.blocks
          ⟨cellSize, rest ++ base :: st.available, st.unavailable⟩).Perm
          (LocalAllocator.blocks ⟨cellSize, base :: rest ++ st.available, st.unavailable⟩) :=
        List.Perm.append_right _ List.perm_middle
      have hspace : midSweep i cellSize ⟨sweptSpace st base, base :: st.available, st.unavailable⟩
          rest = (midSweep i cellSize { st with space := sweptSpace st base }
            (base :: rest)).withDirectory i
              ⟨cellSize, rest ++ base :: st.available, st.unavailable⟩
              (sweptSpace st base).blockAllocator :=
        withDirectory_withDirectory.symm
      refine ⟨hspace ▸ inv_rearrange hinv hla' rfl hperm, hspace ▸ hsweeps.rearrange hla' hperm,
        ?_, hunavailable, fun j l hj hl => (hothers j l hj (hdirectory ▸ hl)).1,
        fun j l hj hl => (hothers j l hj (hdirectory ▸ hl)).2⟩
      intro b hbl
      rcases List.mem_cons.mp hbl with rfl | hbl
      · exact hself ▸ hnil
      · exact havailable b hbl

theorem SweepsDirectory.run (hs₀ : s₀.Inv) (rest : List ℕ) (st : DirectorySweep) (done : Set ℕ)
    (h : SweepsDirectory s₀ i cellSize st rest done) (hnot : ∀ b ∈ rest, b ∉ done)
    (hnodup : rest.Nodup) :
    SweepsDirectory s₀ i cellSize (rest.foldl sweepBlock st) [] (done ∪ {b | b ∈ rest}) := by
  induction rest generalizing st done with
  | nil =>
    simp only [List.not_mem_nil, Set.ofPred_false, Set.union_empty]
    exact h
  | cons base rest ih =>
    rw [List.nodup_cons] at hnodup
    have hset : done ∪ {b | b ∈ base :: rest} = insert base done ∪ {b | b ∈ rest} := by
      ext b
      simp only [Set.mem_union, Set.mem_ofPred_eq, List.mem_cons, Set.mem_insert_iff]
      tauto
    rw [List.foldl_cons, hset]
    refine ih _ _ (h.step hs₀ (hnot base List.mem_cons_self)) ?_ hnodup.2
    intro b hb hmem
    rcases Set.mem_insert_iff.mp hmem with rfl | hmem
    · exact hnodup.1 hb
    · exact hnot b (List.mem_cons_of_mem _ hb) hmem

theorem sweeps_sweepDirectory (hs₀ : s₀.Inv) (hs : s.Inv) (ho : s.Ordered)
    (h : s₀.Sweeps s done) (hnot : ∀ b ∈ s.dirBlocks i, b ∉ done) :
    (sweepDirectory s i).Inv ∧ (sweepDirectory s i).Ordered ∧
      s₀.Sweeps (sweepDirectory s i) (done ∪ {b | b ∈ s.dirBlocks i}) := by
  cases hla : s.allocatorForSizeClass i with
  | none =>
    have hswept : sweepDirectory s i = s := by rw [sweepDirectory, hla]
    have hset : done ∪ {b | b ∈ s.dirBlocks i} = done := by
      rw [dirBlocks, hla]
      simp
    rw [hswept, hset]
    exact ⟨hs, ho, h⟩
  | some la =>
    have hstart : midSweep i la.cellSize ⟨s, [], []⟩ la.blocks =
        s.withDirectory i ⟨la.cellSize, la.blocks, []⟩ s.blockAllocator := by
      rw [midSweep, List.append_nil]
    have hperm : (LocalAllocator.blocks ⟨la.cellSize, la.blocks, []⟩).Perm la.blocks := by
      rw [LocalAllocator.blocks, List.append_nil]
    have hfirst : SweepsDirectory s₀ i la.cellSize ⟨s, [], []⟩ la.blocks done :=
      ⟨hstart ▸ inv_rearrange hs hla rfl hperm, hstart ▸ h.rearrange hla hperm,
        fun b hb => absurd hb List.not_mem_nil, fun b hb => absurd hb List.not_mem_nil,
        fun j l _ hl => ho.behind_current j l hl, fun j l _ hl => ho.unavail_full j l hl⟩
    have hdir := dirBlocks_of_eq hla
    have hnodup := hs.directories.nodup i
    rw [hdir] at hnot hnodup ⊢
    have hlast := SweepsDirectory.run hs₀ la.blocks ⟨s, [], []⟩ done hfirst hnot hnodup
    have hswept : sweepDirectory s i =
        midSweep i la.cellSize (la.blocks.foldl sweepBlock ⟨s, [], []⟩) [] := by
      rw [sweepDirectory, hla, LocalAllocator.blocks, List.foldl_append]
      rfl
    refine ⟨hswept ▸ hlast.inv, ?_, hswept ▸ hlast.sweeps⟩
    rw [hswept]
    constructor
    · refine forall_directory hlast.behind_current ?_
      exact fun b hb => hlast.available_free b (List.mem_of_mem_tail hb)
    · exact forall_directory hlast.unavail_full hlast.unavailable_full

/-! ### The loop over the directories -/

theorem sweeps_foldl (hs₀ : s₀.Inv) (l : List ℕ) (s : Space) (done : Set ℕ) (hs : s.Inv)
    (ho : s.Ordered) (h : s₀.Sweeps s done) (hnodup : l.Nodup)
    (hnot : ∀ i ∈ l, ∀ b ∈ s₀.dirBlocks i, b ∉ done) :
    (l.foldl sweepDirectory s).Inv ∧ (l.foldl sweepDirectory s).Ordered ∧
      ∃ done', (∀ b ∈ done, b ∈ done') ∧ (∀ i ∈ l, ∀ b ∈ s₀.dirBlocks i, b ∈ done') ∧
        s₀.Sweeps (l.foldl sweepDirectory s) done' := by
  induction l generalizing s done with
  | nil => exact ⟨hs, ho, done, fun _ hb => hb, fun _ hi => absurd hi List.not_mem_nil, h⟩
  | cons i l ih =>
    rw [List.nodup_cons] at hnodup
    obtain ⟨hs₁, ho₁, h₁⟩ := sweeps_sweepDirectory hs₀ hs ho h
      (fun b hb => hnot i List.mem_cons_self b (h.dirBlocks i b hb))
    obtain ⟨hinv, hord, done', hsub, hall, hfinal⟩ := ih (sweepDirectory s i) _ hs₁ ho₁ h₁ hnodup.2
      (by
        rintro j hj b hb (hmem | hmem)
        · exact hnot j (List.mem_cons_of_mem _ hj) b hb hmem
        · obtain rfl := hs₀.directories.disjoint i j b (h.dirBlocks i b hmem) hb
          exact hnodup.1 hj)
    refine ⟨hinv, hord, done', fun b hb => hsub b (Or.inl hb), ?_, hfinal⟩
    intro j hj b hb
    rcases List.mem_cons.mp hj with rfl | hj
    · refine hsub b (Or.inr ?_)
      rcases h.kept j b hb with hin | ⟨hdone, -⟩
      · exact hin
      · exact absurd hdone (hnot j List.mem_cons_self b hb)
    · exact hall j hj b hb

/-! ### The whole sweep -/

/-- What a sweep does to the space. -/
structure Swept (s s' : Space) : Prop where
  inv : s'.Inv
  ordered : s'.Ordered
  classes : s'.sizeClassForSizeStep = s.sizeClassForSizeStep
  allocators : s'.allocators = s.allocators
  precise : s'.preciseAllocations = s.preciseAllocations.filter (·.isMarked)
  live_begin : s'.liveBitmap.heapBegin = s.liveBitmap.heapBegin
  live_size : s'.liveBitmap.size = s.liveBitmap.size
  built : ∀ b, s'.blockAllocator.Built b ↔ s.blockAllocator.Built b
  dirBlocks : ∀ j, ∀ b ∈ s'.dirBlocks j, b ∈ s.dirBlocks j
  kept : ∀ j, ∀ b ∈ s.dirBlocks j, b ∈ s'.dirBlocks j ∨ ∀ c ∈ s.blockCells b, s.keeps c = false
  cells : ∀ j, ∀ b ∈ s'.dirBlocks j, s'.blockCells b = s.blockCells b
  live : ∀ j, ∀ b ∈ s.dirBlocks j, ∀ c ∈ s.blockCells b, s'.liveBitmap.test c = s.keeps c
  mark : ∀ j, ∀ b ∈ s.dirBlocks j, ∀ c ∈ s.blockCells b, s'.markBitmap.test c = false
  freelist : ∀ j, ∀ b ∈ s'.dirBlocks j, (s'.blockAllocator.block b).freelist =
    ((s.blockCells b).filter fun c => !s.keeps c).reverse
  payload : ∀ a, (s'.objects a).payload = (s.objects a).payload
  white_small : ∀ j, ∀ b ∈ s.dirBlocks j, ∀ c ∈ s.blockCells b, s.keeps c = true →
    (s'.objects c).state = .white
  white_large : ∀ a ∈ s'.preciseAllocations, (s'.objects a.cell).state = .white

theorem foldl_forceSetState (l : List PreciseAllocation) (s : Space) :
    ∃ objects, l.foldl (fun s a => s.forceSetState a.cell .white) s = { s with objects := objects } ∧
      (∀ c, (objects c).payload = (s.objects c).payload) ∧
      (∀ c, (s.objects c).state = .white → (objects c).state = .white) ∧
      ∀ a ∈ l, (objects a.cell).state = .white := by
  induction l generalizing s with
  | nil => exact ⟨s.objects, rfl, fun _ => rfl, fun _ h => h, fun _ h => absurd h List.not_mem_nil⟩
  | cons a l ih =>
    obtain ⟨objects, heq, hpayload, hstay, hwhite⟩ := ih (s.forceSetState a.cell .white)
    have hself : ((s.forceSetState a.cell .white).objects a.cell).state = .white := by
      rw [objects_forceSetState, if_pos rfl]
    have hone : ∀ c, ((s.forceSetState a.cell .white).objects c).payload = (s.objects c).payload ∧
        ((s.objects c).state = .white →
          ((s.forceSetState a.cell .white).objects c).state = .white) := by
      intro c
      rw [objects_forceSetState]
      split
      · next hc => exact ⟨hc ▸ rfl, fun _ => rfl⟩
      · exact ⟨rfl, id⟩
    refine ⟨objects, ?_, fun c => (hpayload c).trans (hone c).1,
      fun c hc => hstay c ((hone c).2 hc), ?_⟩
    · rw [List.foldl_cons, heq]
      rfl
    · intro b hb
      rcases List.mem_cons.mp hb with rfl | hb
      · exact hstay b.cell hself
      · exact hwhite b hb

theorem sweepLarge_eq (s : Space) : ∃ objects, s.sweepLarge =
    { s with preciseAllocations := s.preciseAllocations.filter (·.isMarked), objects := objects } ∧
      (∀ a, (objects a).payload = (s.objects a).payload) ∧
      ∀ a ∈ s.preciseAllocations.filter (·.isMarked), (objects a.cell).state = .white := by
  obtain ⟨objects, heq, hpayload, -, hwhite⟩ := foldl_forceSetState
    (s.preciseAllocations.filter (·.isMarked))
    { s with preciseAllocations := s.preciseAllocations.filter (·.isMarked) }
  exact ⟨objects, heq, hpayload, hwhite⟩

/-- **A sweep frees exactly the unmarked cells.** -/
theorem swept_sweep (hs : s.Inv) (ho : s.Ordered) : s.Swept s.sweep := by
  obtain ⟨objects, hlarge, hpayload, hwhite⟩ := sweepLarge_eq s
  obtain ⟨s₀, hs₀⟩ : ∃ s₀, s₀ = s.sweepLarge := ⟨_, rfl⟩
  rw [← hs₀] at hlarge
  have hinv₀ : s₀.Inv := by
    rw [hlarge]
    refine ⟨{ hs.geometry with },
      { hs.directories with },
      { hs.liveCells with }, ?_, ?_⟩
    · exact (List.Sublist.map _ List.filter_sublist).nodup hs.largeCells.nodup
    · exact fun a ha => hs.largeCells.outside a (List.mem_of_mem_filter ha)
  have hord₀ : s₀.Ordered := by
    rw [hlarge]
    exact ⟨ho.behind_current, ho.unavail_full⟩
  have hall : ∀ {j b}, b ∈ s.dirBlocks j → j ∈ s.allocators := by
    intro j b hb
    obtain ⟨la, hla, -⟩ := exists_of_mem_dirBlocks hb
    exact (hs.directories.mem_allocators j).mpr (by rw [hla]; rfl)
  obtain ⟨hinv, hord, done, -, hdone, hsweeps⟩ := sweeps_foldl hinv₀ s.allocators s₀ ∅ hinv₀ hord₀
    (.refl s₀) hs.directories.allocators_nodup (fun _ _ _ _ => Set.notMem_empty _)
  have hsweep : s.sweep = s.allocators.foldl sweepDirectory s₀ := by rw [sweep, hs₀]
  rw [← hsweep] at hinv hord hsweeps
  have hdone' : ∀ j, ∀ b ∈ s.dirBlocks j, b ∈ done := by
    intro j b hb
    refine hdone j (hall hb) b ?_
    rw [hlarge]
    exact hb
  rw [hlarge] at hsweeps
  exact { hsweeps with
    inv := hinv
    ordered := hord
    kept := fun j b hb => (hsweeps.kept j b hb).imp_right fun h => h.2
    live := fun j b hb => hsweeps.live_done j b hb (hdone' j b hb)
    mark := fun j b hb => hsweeps.mark_done j b hb (hdone' j b hb)
    freelist := fun j b hb => hsweeps.freelist_done j b hb
      (hdone' j b (hsweeps.dirBlocks j b hb))
    payload := fun a => (hsweeps.objects_payload a).trans (hpayload a)
    white_small := fun j b hb c hc hk => by
      rw [hsweeps.objects_kept j b hb (hdone' j b hb) c hc hk]
    white_large := by
      intro a ha
      rw [hsweeps.precise] at ha
      rw [hsweeps.objects_other a.cell]
      · exact hwhite a ha
      · intro j b hb hc
        have hin := hs.hasAddress_cell hb hc
        rw [hs.largeCells.outside a (List.mem_of_mem_filter ha)] at hin
        exact Bool.false_ne_true hin }

end Space

end Starlight.Gc
