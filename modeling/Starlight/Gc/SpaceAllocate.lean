import Starlight.Gc.SpaceInvariant

/-!
# Allocation keeps the invariant

`LocalAllocator::allocate` is three steps one after the other: a directory without a current block
takes one from the block allocator, a full current block becomes unavailable, and a cell comes
off the free list of the current block.
-/

namespace Starlight.Gc

namespace Space

variable {s : Space} {i base c : ℕ} {la la' : LocalAllocator} {ba : BlockAllocator}

def withDirectory (s : Space) (i : ℕ) (la : LocalAllocator) (ba : BlockAllocator) : Space :=
  { s with
    allocatorForSizeClass := Function.update s.allocatorForSizeClass i (some la)
    blockAllocator := ba }

@[simp] theorem allocatorForSizeClass_withDirectory_self :
    (s.withDirectory i la ba).allocatorForSizeClass i = some la := Function.update_self _ _ _

theorem allocatorForSizeClass_withDirectory_of_ne {j : ℕ} (h : j ≠ i) :
    (s.withDirectory i la ba).allocatorForSizeClass j = s.allocatorForSizeClass j :=
  Function.update_of_ne h _ _

@[simp] theorem dirBlocks_withDirectory_self : (s.withDirectory i la ba).dirBlocks i = la.blocks :=
  dirBlocks_of_eq allocatorForSizeClass_withDirectory_self

theorem dirBlocks_withDirectory_of_ne {j : ℕ} (h : j ≠ i) :
    (s.withDirectory i la ba).dirBlocks j = s.dirBlocks j := by
  rw [dirBlocks, allocatorForSizeClass_withDirectory_of_ne h, dirBlocks]

theorem withDirectory_withDirectory {ba' : BlockAllocator} :
    (s.withDirectory i la ba).withDirectory i la' ba' = s.withDirectory i la' ba' := by
  simp only [withDirectory, Function.update_idem]

theorem withDirectory_self (h : s.allocatorForSizeClass i = some la) :
    s.withDirectory i la s.blockAllocator = s := by
  rw [withDirectory, ← h, Function.update_eq_self]

theorem forall_directory {p : ℕ → LocalAllocator → Prop}
    (hothers : ∀ j la, j ≠ i → s.allocatorForSizeClass j = some la → p j la) (hself : p i la) :
    ∀ j l, (s.withDirectory i la ba).allocatorForSizeClass j = some l → p j l := by
  intro j l hl
  by_cases hj : j = i
  · subst hj
    rw [allocatorForSizeClass_withDirectory_self] at hl
    exact Option.some.inj hl ▸ hself
  · rw [allocatorForSizeClass_withDirectory_of_ne hj] at hl
    exact hothers j l hj hl

theorem mem_allocators_withDirectory (hd : s.Directories) (hla : s.allocatorForSizeClass i = some la)
    (la' : LocalAllocator) (ba : BlockAllocator) (j : ℕ) :
    j ∈ s.allocators ↔ ((s.withDirectory i la' ba).allocatorForSizeClass j).isSome = true := by
  rw [hd.mem_allocators]
  by_cases hj : j = i
  · subst hj
    rw [allocatorForSizeClass_withDirectory_self, hla]
    rfl
  · rw [allocatorForSizeClass_withDirectory_of_ne hj]

theorem nodup_withDirectory (hd : s.Directories) (hself : la'.blocks.Nodup) (ba : BlockAllocator) (j : ℕ) :
    ((s.withDirectory i la' ba).dirBlocks j).Nodup := by
  by_cases hj : j = i
  · subst hj
    rw [dirBlocks_withDirectory_self]
    exact hself
  · rw [dirBlocks_withDirectory_of_ne hj]
    exact hd.nodup j

/-! ### Rearranging a directory -/

theorem inv_rearrange (h : s.Inv) (hla : s.allocatorForSizeClass i = some la)
    (hsize : la'.cellSize = la.cellSize) (hperm : la'.blocks.Perm la.blocks) :
    (s.withDirectory i la' s.blockAllocator).Inv := by
  have hdir : ∀ j base, base ∈ (s.withDirectory i la' s.blockAllocator).dirBlocks j ↔
      base ∈ s.dirBlocks j := by
    intro j base
    by_cases hj : j = i
    · subst hj
      rw [dirBlocks_withDirectory_self, dirBlocks_of_eq hla, hperm.mem_iff]
    · rw [dirBlocks_withDirectory_of_ne hj]
  have hd := h.directories
  have hl := h.liveCells
  exact {
    geometry := { h.geometry with }
    directories := { hd with
      mem_allocators := mem_allocators_withDirectory hd hla _ _
      cellSize_eq := forall_directory (fun j l _ hl => hd.cellSize_eq j l hl)
        (hsize.trans (hd.cellSize_eq i la hla))
      nodup := nodup_withDirectory hd (hperm.nodup_iff.mpr (dirBlocks_of_eq hla ▸ hd.nodup i)) _
      disjoint := fun j k b hj hk => hd.disjoint j k b ((hdir j b).mp hj) ((hdir k b).mp hk)
      not_free := fun j b hj => hd.not_free j b ((hdir j b).mp hj)
      built_iff := fun b => by simp only [hdir]; exact hd.built_iff b
      block_size := fun j b hj => hd.block_size j b ((hdir j b).mp hj) }
    liveCells := {
      freelist_nodup := fun j b hj => hl.freelist_nodup j b ((hdir j b).mp hj)
      mem_freelist := fun j b hj => hl.mem_freelist j b ((hdir j b).mp hj)
      live_cell := by
        intro g hg hbit
        obtain ⟨j, b, hb, c, hc, hcg⟩ := hl.live_cell g hg hbit
        exact ⟨j, b, (hdir j b).mpr hb, c, hc, hcg⟩
      mark_live := hl.mark_live }
    largeCells := { h.largeCells with } }

theorem inv_retire (h : s.Inv) (ho : s.Ordered) (hla : s.allocatorForSizeClass i = some la)
    {next : List ℕ} (hcur : la.current = base :: next)
    (hfull : (s.blockAllocator.block base).freelist = []) :
    (s.withDirectory i { la with unavail := base :: la.unavail, current := next }
        s.blockAllocator).Inv ∧
      (s.withDirectory i { la with unavail := base :: la.unavail, current := next }
        s.blockAllocator).Ordered := by
  refine ⟨inv_rearrange h hla rfl ?_, ?_, ?_⟩
  · rw [LocalAllocator.blocks, LocalAllocator.blocks, hcur]
    exact List.perm_middle
  · refine forall_directory (fun j l _ hl => ho.behind_current j l hl) ?_
    intro b hb
    refine ho.behind_current i la hla b ?_
    rw [hcur]
    exact List.mem_of_mem_tail hb
  · refine forall_directory (fun j l _ hl => ho.unavail_full j l hl) ?_
    intro b hb
    rcases List.mem_cons.mp hb with rfl | hb
    · exact hfull
    · exact ho.unavail_full i la hla b hb

/-! ### A directory is created -/

/-- The space in which `allocator_for_slow` has created the directory of a size step. -/
def addDirectory (s : Space) (i : ℕ) : Space :=
  { s.withDirectory i (.new (s.sizeClassForSizeStep i)) s.blockAllocator with
    allocators := i :: s.allocators }

theorem inv_create (h : s.Inv) (hi : i < NUM_SIZE_CLASSES)
    (hnone : s.allocatorForSizeClass i = none) : (s.addDirectory i).Inv := by
  have hd := h.directories
  have hl := h.liveCells
  have hnot : i ∉ s.allocators := by
    rw [hd.mem_allocators, hnone]
    exact Bool.false_ne_true
  have hempty : s.dirBlocks i = [] := by rw [dirBlocks, hnone]; rfl
  have hdir : ∀ j, (s.addDirectory i).dirBlocks j = s.dirBlocks j := by
    intro j
    by_cases hj : j = i
    · subst hj
      rw [hempty]
      exact @dirBlocks_withDirectory_self s j _ s.blockAllocator
    · exact @dirBlocks_withDirectory_of_ne s i _ s.blockAllocator j hj
  exact {
    geometry := { h.geometry with }
    directories := { hd with
      index_lt := by
        intro j hj
        rcases List.mem_cons.mp hj with rfl | hj
        · exact hi
        · exact hd.index_lt j hj
      mem_allocators := by
        intro j
        change j ∈ i :: s.allocators ↔ (Function.update s.allocatorForSizeClass i _ j).isSome
        rw [List.mem_cons]
        by_cases hj : j = i
        · subst hj
          simp
        · rw [Function.update_of_ne hj, hd.mem_allocators]
          simp [hj]
      allocators_nodup := List.nodup_cons.mpr ⟨hnot, hd.allocators_nodup⟩
      cellSize_eq := by
        intro j l hl
        change Function.update s.allocatorForSizeClass i _ j = some l at hl
        by_cases hj : j = i
        · subst hj
          rw [Function.update_self] at hl
          exact (Option.some.inj hl) ▸ rfl
        · rw [Function.update_of_ne hj] at hl
          exact hd.cellSize_eq j l hl
      nodup := fun j => by rw [hdir]; exact hd.nodup j
      disjoint := fun j k b hj hk => hd.disjoint j k b (hdir j ▸ hj) (hdir k ▸ hk)
      not_free := fun j b hj => hd.not_free j b (hdir j ▸ hj)
      built_iff := fun b => by simp only [hdir]; exact hd.built_iff b
      block_size := fun j b hj => hd.block_size j b (hdir j ▸ hj) }
    liveCells := {
      freelist_nodup := fun j b hj => hl.freelist_nodup j b (hdir j ▸ hj)
      mem_freelist := fun j b hj => hl.mem_freelist j b (hdir j ▸ hj)
      live_cell := by
        intro g hg hbit
        obtain ⟨j, b, hb, c, hc, hcg⟩ := hl.live_cell g hg hbit
        exact ⟨j, b, by rw [hdir]; exact hb, c, hc, hcg⟩
      mark_live := hl.mark_live }
    largeCells := { h.largeCells with } }

theorem ordered_create (ho : s.Ordered) : (s.addDirectory i).Ordered where
  behind_current := @forall_directory s i _ s.blockAllocator _
    (fun j l _ hl => ho.behind_current j l hl) (fun _ h => absurd h List.not_mem_nil)
  unavail_full := @forall_directory s i _ s.blockAllocator _
    (fun j l _ hl => ho.unavail_full j l hl) (fun _ h => absurd h List.not_mem_nil)

/-! ### A block is fetched -/

theorem inv_fetch (h : s.Inv) (hla : s.allocatorForSizeClass i = some la) (hcur : la.current = [])
    (ht : s.blockAllocator.Takes la.cellSize base ba) :
    (s.withDirectory i { la with current := [base] } ba).Inv := by
  have hd := h.directories
  have hl := h.liveCells
  have hsize := hd.cellSize_eq i la hla
  have hi : i < NUM_SIZE_CLASSES := hd.index_lt i ((hd.mem_allocators i).mpr (by rw [hla]; rfl))
  have hunavail : s.dirBlocks i = la.unavail := by
    rw [dirBlocks_of_eq hla, LocalAllocator.blocks, hcur, List.nil_append]
  have hnew : ∀ j, base ∉ s.dirBlocks j := by
    intro j hb
    rcases ht.fresh with hfree | hbuilt
    · exact hd.not_free j base hb hfree
    · exact hbuilt (hd.built hb)
  have hdir : ∀ j b, b ∈ (s.withDirectory i { la with current := [base] } ba).dirBlocks j ↔
      b ∈ s.dirBlocks j ∨ j = i ∧ b = base := by
    intro j b
    by_cases hj : j = i
    · subst hj
      rw [dirBlocks_withDirectory_self, hunavail]
      simp [LocalAllocator.blocks, or_comm]
    · rw [dirBlocks_withDirectory_of_ne hj]
      simp [hj]
  have hne : ∀ {j b}, b ∈ s.dirBlocks j → b ≠ base := fun hb heq => hnew _ (heq ▸ hb)
  have hcells : ∀ {j b}, b ∈ s.dirBlocks j → ba.block b = s.blockAllocator.block b :=
    fun hb => ht.block_eq _ (hne hb)
  have hbuilt : ba.Built base := (ht.built_iff base).mpr (Or.inr rfl)
  have hgeometry : (s.withDirectory i { la with current := [base] } ba).Geometry :=
    ⟨h.geometry.1.trans ht.start_eq.symm, h.geometry.2.trans ht.start_eq.symm,
      ht.start_eq ▸ h.geometry.3, by
        change ba.mmapStart ≤ ba.dataBound
        rw [ht.start_eq, ht.bound_eq]
        exact h.geometry.4,
      ht.bound_eq ▸ h.geometry.5, by
        change s.liveBitmap.size =
          SpaceBitmap.computeBitmapSize (ba.dataBound - ba.mmapStart)
        rw [ht.start_eq, ht.bound_eq]
        exact h.geometry.6, h.geometry.7⟩
  -- no bit of the fetched block is live: live bits belong to cells of other blocks
  have hdead : ∀ c ∈ cellsOf base la.cellSize, s.liveBitmap.test c = false := by
    intro c hc
    by_contra hlive
    rw [Bool.not_eq_false] at hlive
    have hclass := (hd.classes i hi).toIsSizeClass
    rw [← hsize] at hclass
    have hin : (s.withDirectory i { la with current := [base] } ba).InMapping base :=
      inMapping_of_built ht.inv hbuilt
    have hhas : s.liveBitmap.hasAddress c = true :=
      hgeometry.hasAddress_cell hin hclass.lower hc
    rw [SpaceBitmap.hasAddress_iff] at hhas
    rw [SpaceBitmap.test_eq_bit] at hlive
    obtain ⟨j, b, hb, d, hdc, hg⟩ := hl.live_cell _ hhas hlive
    have hin' : (s.withDirectory i { la with current := [base] } ba).InMapping b :=
      inMapping_of_built ht.inv ((ht.built_iff b).mpr (Or.inl (hd.built hb)))
    rw [hd.blockCells_eq hb] at hdc
    exact hgeometry.granule_ne hin' hin (hd.isSizeClass hb).lower hclass.lower hdc hc
      (cellsOf_separated_of_ne hin'.dvd hin.dvd (hne hb) hdc hc) hg
  exact {
    geometry := hgeometry
    directories := { hd with
      blockAllocator := ht.inv
      mem_allocators := mem_allocators_withDirectory hd hla _ _
      cellSize_eq := forall_directory (fun j l _ hl => hd.cellSize_eq j l hl) hsize
      nodup := by
        refine nodup_withDirectory hd ?_ _
        change (base :: la.unavail).Nodup
        rw [← hunavail]
        exact List.nodup_cons.mpr ⟨hnew i, hd.nodup i⟩
      disjoint := by
        intro j k b hj hk
        rcases (hdir j b).mp hj with hj' | ⟨hji, hbj⟩
        · rcases (hdir k b).mp hk with hk' | ⟨hki, hbk⟩
          · exact hd.disjoint j k b hj' hk'
          · exact absurd (hbk ▸ hj') (hnew j)
        · rcases (hdir k b).mp hk with hk' | ⟨hki, -⟩
          · exact absurd (hbj ▸ hk') (hnew k)
          · rw [hji, hki]
      not_free := by
        intro j b hj
        rcases (hdir j b).mp hj with hj | ⟨-, rfl⟩
        · exact fun hfree => hd.not_free j b hj ((ht.free_iff b (hne hj)).mp hfree)
        · exact ht.notMem
      built_iff := by
        intro b
        change ba.Built b ↔ b ∈ ba.freeBlocks ∨ _
        simp only [hdir]
        rw [ht.built_iff, hd.built_iff]
        by_cases hb : b = base
        · subst hb
          simp
        · rw [ht.free_iff b hb]
          simp [hb]
      block_size := by
        intro j b hj
        change (ba.block b).cellSize = s.sizeClassForSizeStep j
        rcases (hdir j b).mp hj with hj | ⟨rfl, rfl⟩
        · rw [hcells hj]
          exact hd.block_size j b hj
        · rw [ht.cellSize_eq, hsize] }
    liveCells := {
      freelist_nodup := by
        intro j b hj
        change (ba.block b).freelist.Nodup
        rcases (hdir j b).mp hj with hj | ⟨-, rfl⟩
        · rw [hcells hj]
          exact hl.freelist_nodup j b hj
        · rw [ht.freelist_eq, List.nodup_reverse]
          refine cellsOf_nodup ?_
          rw [hsize]
          exact lt_of_lt_of_le (by decide) (hd.classes i hi).lower
      mem_freelist := by
        intro j b hj c
        change c ∈ (ba.block b).freelist ↔ c ∈ (ba.block b).walk b ∧ s.liveBitmap.test c = false
        rcases (hdir j b).mp hj with hj | ⟨-, rfl⟩
        · rw [hcells hj]
          exact hl.mem_freelist j b hj c
        · rw [ht.freelist_eq, List.mem_reverse, Block.walk_eq_cellsOf, ht.cellSize_eq]
          exact ⟨fun hc => ⟨hc, hdead c hc⟩, fun hc => hc.1⟩
      live_cell := by
        intro g hg hbit
        obtain ⟨j, b, hb, c, hc, hcg⟩ := hl.live_cell g hg hbit
        refine ⟨j, b, (hdir j b).mpr (Or.inl hb), c, ?_, hcg⟩
        change c ∈ (ba.block b).walk b
        rw [hcells hb]
        exact hc
      mark_live := hl.mark_live }
    largeCells := { h.largeCells with } }

theorem ordered_fetch (h : s.Inv) (ho : s.Ordered)
    (ht : s.blockAllocator.Takes la.cellSize base ba)
    (hla : s.allocatorForSizeClass i = some la) :
    (s.withDirectory i { la with current := [base] } ba).Ordered := by
  have hne : ∀ {j l b}, s.allocatorForSizeClass j = some l → b ∈ l.blocks →
      ba.block b = s.blockAllocator.block b := by
    intro j l b hl hb
    refine ht.block_eq b ?_
    rintro rfl
    have hb' : b ∈ s.dirBlocks j := dirBlocks_of_eq hl ▸ hb
    rcases ht.fresh with hfree | hbuilt
    · exact h.directories.not_free j b hb' hfree
    · exact hbuilt (h.directories.built hb')
  constructor
  · refine forall_directory (fun j l _ hl b hb => ?_) (fun b hb => absurd hb List.not_mem_nil)
    change (ba.block b).freelist ≠ []
    rw [hne hl (List.mem_append_left _ (List.mem_of_mem_tail hb))]
    exact ho.behind_current j l hl b hb
  · refine forall_directory (fun j l _ hl b hb => ?_) (fun b hb => ?_)
    · change (ba.block b).freelist = []
      rw [hne hl (List.mem_append_right _ hb)]
      exact ho.unavail_full j l hl b hb
    · change (ba.block b).freelist = []
      rw [hne hla (List.mem_append_right _ hb)]
      exact ho.unavail_full i la hla b hb

/-! ### A cell is taken -/

/-- The space after the cell `c` was taken off the free list of a block and became live. -/
def takeCell (s : Space) (base c : ℕ) (rest : List ℕ) : Space :=
  { s with
    blockAllocator := s.blockAllocator.write base
      { s.blockAllocator.block base with freelist := rest }
    liveBitmap := s.liveBitmap.set c }

variable {rest : List ℕ}

@[simp] theorem cellSize_block_takeCell (b : ℕ) :
    ((s.takeCell base c rest).blockAllocator.block b).cellSize =
      (s.blockAllocator.block b).cellSize := by
  by_cases hb : b = base
  · subst hb
    have hself := BlockAllocator.block_write_self s.blockAllocator b
      { s.blockAllocator.block b with freelist := rest }
    have hsize := congrArg Block.cellSize hself
    exact hsize
  · exact congrArg Block.cellSize (BlockAllocator.block_write_of_ne _ _ hb)

@[simp] theorem blockCells_takeCell (b : ℕ) :
    (s.takeCell base c rest).blockCells b = s.blockCells b := by
  rw [blockCells, Block.walk_eq_cellsOf, cellSize_block_takeCell, ← Block.walk_eq_cellsOf,
    blockCells]

theorem freelist_takeCell_self :
    ((s.takeCell base c rest).blockAllocator.block base).freelist = rest :=
  congrArg Block.freelist (BlockAllocator.block_write_self _ _ _)

theorem freelist_takeCell_of_ne {b : ℕ} (h : b ≠ base) :
    ((s.takeCell base c rest).blockAllocator.block b).freelist =
      (s.blockAllocator.block b).freelist :=
  congrArg Block.freelist (BlockAllocator.block_write_of_ne _ _ h)

theorem test_takeCell (d : ℕ) : (s.takeCell base c rest).liveBitmap.test d =
    (decide (s.liveBitmap.granule d = s.liveBitmap.granule c) || s.liveBitmap.test d) := by
  rw [takeCell, SpaceBitmap.test_eq_bit, SpaceBitmap.granule_set, SpaceBitmap.bit_set,
    SpaceBitmap.test_eq_bit]

theorem inv_takeCell (h : s.Inv) (hb : base ∈ s.dirBlocks i)
    (hfree : (s.blockAllocator.block base).freelist = c :: rest) :
    (s.takeCell base c rest).Inv := by
  have hd := h.directories
  have hl := h.liveCells
  have hmem := hl.mem_freelist i base hb
  have hnodup := hl.freelist_nodup i base hb
  rw [hfree] at hnodup
  have hc : c ∈ s.blockCells base := ((hmem c).mp (hfree ▸ List.mem_cons_self)).1
  have hba : (s.takeCell base c rest).blockAllocator.Inv := { hd.blockAllocator with }
  exact {
    geometry := { h.geometry with }
    directories := { hd with
      blockAllocator := hba
      block_size := fun j b hj => (cellSize_block_takeCell b).trans (hd.block_size j b hj) }
    liveCells := {
      freelist_nodup := by
        intro j b hj
        by_cases hbb : b = base
        · subst hbb
          rw [freelist_takeCell_self]
          exact (List.nodup_cons.mp hnodup).2
        · rw [freelist_takeCell_of_ne hbb]
          exact hl.freelist_nodup j b hj
      mem_freelist := by
        intro j b hj d
        rw [blockCells_takeCell, test_takeCell, Bool.or_eq_false_iff, decide_eq_false_iff_not]
        by_cases hbb : b = base
        · subst hbb
          have hold := hmem d
          rw [hfree, List.mem_cons] at hold
          rw [freelist_takeCell_self]
          constructor
          · intro hd'
            obtain ⟨hcell, hdead⟩ := hold.mp (Or.inr hd')
            refine ⟨hcell, fun hg => ?_, hdead⟩
            have heq := h.granule_inj hb hb hcell hc hg
            exact (List.nodup_cons.mp hnodup).1 (heq ▸ hd')
          · rintro ⟨hcell, hg, hdead⟩
            rcases hold.mpr ⟨hcell, hdead⟩ with rfl | hd'
            · exact absurd rfl hg
            · exact hd'
        · rw [freelist_takeCell_of_ne hbb, hl.mem_freelist j b hj d]
          constructor
          · rintro ⟨hcell, hdead⟩
            refine ⟨hcell, fun hg => ?_, hdead⟩
            have heq := h.granule_inj hj hb hcell hc hg
            exact hbb (hd.block_unique hj hb hcell (heq ▸ hc))
          · exact fun ⟨hcell, _, hdead⟩ => ⟨hcell, hdead⟩
      live_cell := by
        intro g hg hbit
        change (s.liveBitmap.set c).bit g = true at hbit
        rw [SpaceBitmap.bit_set, Bool.or_eq_true, decide_eq_true_iff] at hbit
        rcases hbit with rfl | hbit
        · exact ⟨i, base, hb, c, by rw [blockCells_takeCell]; exact hc, rfl⟩
        · obtain ⟨j, b, hj, d, hdc, hdg⟩ := hl.live_cell g hg hbit
          exact ⟨j, b, hj, d, by rw [blockCells_takeCell]; exact hdc, hdg⟩
      mark_live := by
        intro g hg hbit
        change (s.liveBitmap.set c).bit g = true
        rw [SpaceBitmap.bit_set, hl.mark_live g hg hbit, Bool.or_true] }
    largeCells := { h.largeCells with } }

theorem ordered_takeCell (h : s.Inv) (ho : s.Ordered) (hla : s.allocatorForSizeClass i = some la)
    {next : List ℕ} (hcur : la.current = base :: next)
    (hfree : (s.blockAllocator.block base).freelist = c :: rest) :
    (s.takeCell base c rest).Ordered := by
  have hb : base ∈ s.dirBlocks i := by
    rw [dirBlocks_of_eq hla, LocalAllocator.blocks, hcur]
    exact List.mem_append_left _ List.mem_cons_self
  have hnodup := h.directories.nodup i
  rw [dirBlocks_of_eq hla, LocalAllocator.blocks, hcur] at hnodup
  constructor
  · intro j l hl b hbl
    have hne : b ≠ base := by
      rintro rfl
      obtain rfl : j = i := h.directories.disjoint j i b
        (dirBlocks_of_eq hl ▸ List.mem_append_left _ (List.mem_of_mem_tail hbl)) hb
      obtain rfl : la = l := Option.some.inj (hla.symm.trans hl)
      rw [hcur] at hbl
      exact (List.nodup_cons.mp hnodup).1 (List.mem_append_left _ hbl)
    rw [freelist_takeCell_of_ne hne]
    exact ho.behind_current j l hl b hbl
  · intro j l hl b hbl
    have hne : b ≠ base := by
      rintro rfl
      rw [ho.unavail_full j l hl b hbl] at hfree
      exact absurd hfree (by simp)
    rw [freelist_takeCell_of_ne hne]
    exact ho.unavail_full j l hl b hbl

/-! ### The frame of an allocation -/

/-- What an allocation leaves as it is: the blocks of the directories and their cells, the marks,
the large cells and the memory. -/
structure Grows (s s' : Space) : Prop where
  dirBlocks : ∀ j, ∀ b ∈ s.dirBlocks j, b ∈ s'.dirBlocks j
  blockCells : ∀ j, ∀ b ∈ s.dirBlocks j, s'.blockCells b = s.blockCells b
  markBitmap : s'.markBitmap = s.markBitmap
  precise : s'.preciseAllocations = s.preciseAllocations
  objects : s'.objects = s.objects
  classes : s'.sizeClassForSizeStep = s.sizeClassForSizeStep

theorem Grows.refl (s : Space) : s.Grows s :=
  ⟨fun _ _ h => h, fun _ _ _ => rfl, rfl, rfl, rfl, rfl⟩

theorem Grows.trans {s₁ s₂ s₃ : Space} (h : s₁.Grows s₂) (h' : s₂.Grows s₃) : s₁.Grows s₃ where
  dirBlocks := fun j b hb => h'.dirBlocks j b (h.dirBlocks j b hb)
  blockCells := fun j b hb => (h'.blockCells j b (h.dirBlocks j b hb)).trans (h.blockCells j b hb)
  markBitmap := h'.markBitmap.trans h.markBitmap
  precise := h'.precise.trans h.precise
  objects := h'.objects.trans h.objects
  classes := h'.classes.trans h.classes

theorem grows_rearrange (hla : s.allocatorForSizeClass i = some la)
    (hperm : la'.blocks.Perm la.blocks) : s.Grows (s.withDirectory i la' s.blockAllocator) where
  dirBlocks := by
    intro j b hb
    by_cases hj : j = i
    · subst hj
      rw [dirBlocks_withDirectory_self, hperm.mem_iff]
      exact dirBlocks_of_eq hla ▸ hb
    · rw [dirBlocks_withDirectory_of_ne hj]
      exact hb
  blockCells := fun _ _ _ => rfl
  markBitmap := rfl
  precise := rfl
  objects := rfl
  classes := rfl

theorem grows_create (hnone : s.allocatorForSizeClass i = none) : s.Grows (s.addDirectory i) where
  dirBlocks := by
    intro j b hb
    by_cases hj : j = i
    · subst hj
      rw [Space.dirBlocks, hnone] at hb
      exact absurd hb List.not_mem_nil
    · have hdir := @dirBlocks_withDirectory_of_ne s i (.new (s.sizeClassForSizeStep i))
        s.blockAllocator j hj
      exact hdir ▸ hb
  blockCells := fun _ _ _ => rfl
  markBitmap := rfl
  precise := rfl
  objects := rfl
  classes := rfl

theorem grows_fetch (h : s.Inv) (hla : s.allocatorForSizeClass i = some la)
    (hcur : la.current = []) (ht : s.blockAllocator.Takes la.cellSize base ba) :
    s.Grows (s.withDirectory i { la with current := [base] } ba) where
  dirBlocks := by
    intro j b hb
    by_cases hj : j = i
    · subst hj
      rw [dirBlocks_of_eq hla, LocalAllocator.blocks, hcur, List.nil_append] at hb
      rw [dirBlocks_withDirectory_self]
      exact List.mem_append_right _ hb
    · rw [dirBlocks_withDirectory_of_ne hj]
      exact hb
  blockCells := by
    intro j b hb
    refine congrArg (Block.walk b) (ht.block_eq b ?_)
    rintro rfl
    rcases ht.fresh with hfree | hbuilt
    · exact h.directories.not_free j b hb hfree
    · exact hbuilt (h.directories.built hb)
  markBitmap := rfl
  precise := rfl
  objects := rfl
  classes := rfl

theorem grows_takeCell : s.Grows (s.takeCell base c rest) :=
  ⟨fun _ _ h => h, fun _ b _ => blockCells_takeCell b, rfl, rfl, rfl, rfl⟩

/-! ### The head of a directory -/

theorem inv_head (h : s.Inv) (ho : s.Ordered) (hla : s.allocatorForSizeClass i = some la)
    {next : List ℕ} (hhead : la.head s.blockAllocator = some (base, next, ba)) :
    (s.withDirectory i { la with current := base :: next } ba).Inv ∧
      (s.withDirectory i { la with current := base :: next } ba).Ordered ∧
      s.Grows (s.withDirectory i { la with current := base :: next } ba) ∧
      (la.current = [] → (ba.block base).freelist ≠ []) ∧
      (∀ b l, la.current = b :: l → base = b ∧ ba = s.blockAllocator) := by
  cases hcur : la.current with
  | nil =>
    rw [LocalAllocator.head, hcur] at hhead
    obtain ⟨⟨b, ba₁⟩, hget, heq⟩ := Option.map_eq_some_iff.mp hhead
    obtain ⟨rfl, rfl, rfl⟩ : b = base ∧ [] = next ∧ ba₁ = ba := by
      simpa only [Prod.mk.injEq] using heq
    have ht := BlockAllocator.takes_getBlockFor h.directories.blockAllocator hget
    refine ⟨inv_fetch h hla hcur ht, ordered_fetch h ho ht hla, grows_fetch h hla hcur ht, ?_, ?_⟩
    · intro _
      rw [ht.freelist_eq, Ne, List.reverse_eq_nil_iff]
      have hi := (h.directories.mem_allocators i).mpr (by rw [hla]; rfl)
      refine cellsOf_ne_nil ?_
      rw [h.directories.cellSize_eq i la hla]
      exact (h.directories.classes i (h.directories.index_lt i hi)).toIsSizeClass
    · exact fun b l h => absurd h (by simp)
  | cons b l =>
    rw [LocalAllocator.head, hcur] at hhead
    obtain ⟨rfl, rfl, rfl⟩ : b = base ∧ l = next ∧ s.blockAllocator = ba := by
      simpa only [Option.some.injEq, Prod.mk.injEq] using hhead
    have heq : ({ la with current := b :: l } : LocalAllocator) = la := by rw [← hcur]
    rw [heq, withDirectory_self hla]
    refine ⟨h, ho, .refl s, fun hnil => absurd hnil (by simp), fun b' l' heq => ?_⟩
    exact ⟨(List.cons.inj heq).1, rfl⟩

/-- A cell that a directory hands out: it lies in a block of the directory, it was not live, and
the space afterwards is consistent. -/
structure HandsOut (s : Space) (i : ℕ) (la : LocalAllocator) (ba : BlockAllocator) (p : ℕ) :
    Prop where
  inv : ({ s.withDirectory i la ba with liveBitmap := s.liveBitmap.set p } : Space).Inv
  ordered : ({ s.withDirectory i la ba with liveBitmap := s.liveBitmap.set p } : Space).Ordered
  grows : s.Grows { s.withDirectory i la ba with liveBitmap := s.liveBitmap.set p }
  cell : ∃ base ∈ (s.withDirectory i la ba).dirBlocks i, p ∈ (s.withDirectory i la ba).blockCells base
  dead : s.liveBitmap.test p = false

theorem handsOut_takeCell {s₀ : Space} (h : s.Inv) (ho : s.Ordered) (hg : s₀.Grows s)
    (hla : s.allocatorForSizeClass i = some la) {next : List ℕ} (hcur : la.current = base :: next)
    (hfree : (s.blockAllocator.block base).freelist = c :: rest)
    (hs : s = s₀.withDirectory i la s.blockAllocator) :
    s₀.HandsOut i la (s.blockAllocator.write base
      { s.blockAllocator.block base with freelist := rest }) c := by
  have hb : base ∈ s.dirBlocks i := by
    rw [dirBlocks_of_eq hla, LocalAllocator.blocks, hcur]
    exact List.mem_append_left _ List.mem_cons_self
  have hlive : s.liveBitmap = s₀.liveBitmap := by rw [hs]; rfl
  have hspace : ({ s₀.withDirectory i la (s.blockAllocator.write base
        { s.blockAllocator.block base with freelist := rest }) with
      liveBitmap := s₀.liveBitmap.set c } : Space) = s.takeCell base c rest := by
    rw [takeCell]
    conv_rhs => rw [hs]
    rfl
  have hmem := (h.liveCells.mem_freelist i base hb c).mp (hfree ▸ List.mem_cons_self)
  refine ⟨hspace ▸ inv_takeCell h hb hfree, hspace ▸ ordered_takeCell h ho hla hcur hfree,
    hspace ▸ hg.trans grows_takeCell, ?_, hlive ▸ hmem.2⟩
  refine ⟨base, ?_, ?_⟩
  · rw [dirBlocks_withDirectory_self, ← dirBlocks_of_eq hla]
    exact hb
  · have hcells := @blockCells_takeCell s base c rest base
    rw [← hspace] at hcells
    exact hcells ▸ hmem.1

/-- **A directory hands out a dead cell.** -/
theorem handsOut_allocate {ptr : Option ℕ} (h : s.Inv) (ho : s.Ordered)
    (hla : s.allocatorForSizeClass i = some la)
    (halloc : la.allocate s.blockAllocator = some (ptr, la', ba)) :
    ∃ p, ptr = some p ∧ s.HandsOut i la' ba p := by
  rw [LocalAllocator.allocate] at halloc
  simp only [Option.bind_eq_bind, Option.bind_eq_some_iff, Prod.exists] at halloc
  obtain ⟨base, next, ba₁, hhead, hrest⟩ := halloc
  obtain ⟨hinv, hord, hgrows, -, -⟩ := inv_head h ho hla hhead
  obtain ⟨s₁, hs₁⟩ : ∃ s₁, s₁ = s.withDirectory i { la with current := base :: next } ba₁ :=
    ⟨_, rfl⟩
  have hla₁ : s₁.allocatorForSizeClass i = some { la with current := base :: next } := by
    rw [hs₁, allocatorForSizeClass_withDirectory_self]
  have hba₁ : s₁.blockAllocator = ba₁ := by rw [hs₁]; rfl
  rw [← hs₁] at hinv hord hgrows
  rw [← hba₁] at hs₁ hrest
  cases hfree : (s₁.blockAllocator.block base).freelist with
  | cons c rest =>
    -- the current block has a free cell
    simp only [Block.allocate, hfree, Option.some.injEq, Prod.mk.injEq] at hrest
    obtain ⟨rfl, rfl, rfl⟩ := hrest
    exact ⟨c, rfl, handsOut_takeCell hinv hord hgrows hla₁ rfl hfree hs₁⟩
  | nil =>
    -- the current block is full: the cell comes from the next block, or a fetched one
    simp only [Block.allocate, hfree, Option.bind_eq_some_iff, Prod.exists] at hrest
    obtain ⟨base', next', ba₂, hhead', hlast⟩ := hrest
    obtain ⟨hinv₂, hord₂⟩ := inv_retire hinv hord hla₁ rfl hfree
    have hgrows₂ := hgrows.trans (@grows_rearrange s₁ i _
      { la with unavail := base :: la.unavail, current := next } hla₁ List.perm_middle)
    obtain ⟨s₂, hs₂⟩ : ∃ s₂, s₂ = s₁.withDirectory i
        { la with unavail := base :: la.unavail, current := next } s₁.blockAllocator := ⟨_, rfl⟩
    have hla₂ : s₂.allocatorForSizeClass i =
        some { la with unavail := base :: la.unavail, current := next } := by
      rw [hs₂, allocatorForSizeClass_withDirectory_self]
    have hba₂ : s₂.blockAllocator = s₁.blockAllocator := by rw [hs₂]; rfl
    rw [← hs₂] at hinv₂ hord₂ hgrows₂
    rw [← hba₂] at hhead'
    obtain ⟨hinv₃, hord₃, hgrows₃, hfresh, hsame⟩ := inv_head hinv₂ hord₂ hla₂ hhead'
    obtain ⟨s₃, hs₃⟩ : ∃ s₃, s₃ = s₂.withDirectory i
        { la with unavail := base :: la.unavail, current := base' :: next' } ba₂ := ⟨_, rfl⟩
    have hla₃ : s₃.allocatorForSizeClass i =
        some { la with unavail := base :: la.unavail, current := base' :: next' } := by
      rw [hs₃, allocatorForSizeClass_withDirectory_self]
    have hba₃ : s₃.blockAllocator = ba₂ := by rw [hs₃]; rfl
    have hs₃' : s₃ = s.withDirectory i
        { la with unavail := base :: la.unavail, current := base' :: next' }
        s₃.blockAllocator := by
      rw [hba₃, hs₃, hs₂, hs₁]
      simp only [withDirectory_withDirectory]
    have hgrows₃' := hgrows₂.trans hgrows₃
    rw [← hs₃] at hinv₃ hord₃ hgrows₃'
    have hne : (ba₂.block base').freelist ≠ [] := by
      cases hnext : next with
      | nil => exact hfresh hnext
      | cons b l =>
        obtain ⟨rfl, rfl⟩ := hsame b l hnext
        rw [hba₂]
        refine hord.behind_current i _ hla₁ base' ?_
        rw [List.tail_cons, hnext]
        exact List.mem_cons_self
    cases hfree₃ : (ba₂.block base').freelist with
    | nil => exact absurd hfree₃ hne
    | cons c rest =>
      simp only [hfree₃, Option.some.injEq, Prod.mk.injEq] at hlast
      obtain ⟨rfl, rfl, rfl⟩ := hlast
      rw [← hba₃] at hfree₃ ⊢
      exact ⟨c, rfl, handsOut_takeCell hinv₃ hord₃ hgrows₃' hla₃ rfl hfree₃ hs₃'⟩

structure AllocatesSmall (s : Space) (size p : ℕ) (s' : Space) : Prop where
  inv : s'.Inv
  ordered : s'.Ordered
  grows : s.Grows s'
  cell : ∃ base ∈ s'.dirBlocks (sizeClassToIndex size), p ∈ s'.blockCells base
  fits : size ≤ s'.sizeClassForSizeStep (sizeClassToIndex size)
  dead : s.liveBitmap.test p = false
  live : s'.liveBitmap = s.liveBitmap.set p

/-- **Allocation of a small cell.** It succeeds with a cell of its size class that was not live. -/
theorem allocatesSmall_allocate {size at' : ℕ} {ptr : Option ℕ} {s' : Space} (h : s.Inv)
    (ho : s.Ordered) (hsize : size ≤ LARGE_CUTOFF) (halloc : s.allocate size at' = some (ptr, s')) :
    ∃ p, ptr = some p ∧ s.AllocatesSmall size p s' := by
  have hindex : sizeClassToIndex size < NUM_SIZE_CLASSES := by
    rw [LARGE_CUTOFF_eq] at hsize
    change (size + 15) / 16 < 512
    omega
  have hfits : size ≤ s.sizeClassForSizeStep (sizeClassToIndex size) := by
    have hgood := (h.directories.classes _ hindex).fits
    change (size + 15) / 16 * 16 ≤ _ at hgood
    omega
  rw [allocate, if_pos hsize] at halloc
  simp only [allocateSmall, Option.bind_eq_bind, Option.bind_eq_some_iff, Prod.exists,
    Option.some.injEq, Prod.mk.injEq] at halloc
  obtain ⟨_, s₁, ⟨ptr', la', ba, hlocal, rfl, rfl⟩, rfl, rfl⟩ := halloc
  cases hla : s.allocatorForSizeClass (sizeClassToIndex size) with
  | some la =>
    simp only [allocatorFor, hla] at hlocal ⊢
    obtain ⟨p, rfl, hp⟩ := handsOut_allocate h ho hla hlocal
    exact ⟨p, rfl, hp.inv, hp.ordered, hp.grows, hp.cell, hfits, hp.dead, rfl⟩
  | none =>
    simp only [allocatorFor, hla] at hlocal ⊢
    have hinv := inv_create h hindex hla
    have hla₁ : (s.addDirectory (sizeClassToIndex size)).allocatorForSizeClass
        (sizeClassToIndex size) =
        some (.new (s.sizeClassForSizeStep (sizeClassToIndex size))) := Function.update_self _ _ _
    obtain ⟨p, rfl, hp⟩ := handsOut_allocate hinv (ordered_create ho) hla₁ hlocal
    have hspace : (s.addDirectory (sizeClassToIndex size)).withDirectory (sizeClassToIndex size)
        la' ba = { s with
          allocatorForSizeClass :=
            Function.update s.allocatorForSizeClass (sizeClassToIndex size) (some la')
          blockAllocator := ba
          allocators := sizeClassToIndex size :: s.allocators } := by
      simp only [addDirectory, withDirectory, Function.update_idem]
    obtain ⟨hp₁, hp₂, hp₃, hp₄, hp₅⟩ := hp
    rw [hspace] at hp₁ hp₂ hp₃ hp₄
    exact ⟨p, rfl, hp₁, hp₂, (grows_create hla).trans hp₃, hp₄, hfits, hp₅, rfl⟩

theorem inv_allocateLarge {size cell : ℕ} (h : s.Inv)
    (hcell : cell ∉ s.preciseAllocations.map (·.cell))
    (hout : s.liveBitmap.hasAddress cell = false) : (s.allocateLarge size cell).Inv where
  geometry := { h.geometry with }
  directories := { h.directories with }
  liveCells := { h.liveCells with }
  largeCells := {
    nodup := by
      change ((s.preciseAllocations ++ _).map _).Nodup
      rw [List.map_append, List.nodup_append]
      refine ⟨h.largeCells.nodup, List.nodup_singleton _, ?_⟩
      intro a ha b hb
      rw [List.map_singleton, List.mem_singleton] at hb
      have hbc : b = cell := hb
      rintro rfl
      exact hcell (hbc ▸ ha)
    outside := by
      intro a ha
      rcases List.mem_append.mp ha with ha | ha
      · exact h.largeCells.outside a ha
      · rw [List.mem_singleton.mp ha]
        exact hout }

theorem ordered_allocateLarge {size cell : ℕ} (ho : s.Ordered) :
    (s.allocateLarge size cell).Ordered := ⟨ho.behind_current, ho.unavail_full⟩

end Space

end Starlight.Gc
