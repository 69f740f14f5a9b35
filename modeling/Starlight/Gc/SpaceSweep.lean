import Starlight.Gc.SpaceAllocate

/-!
# A sweep keeps the invariant

A sweep goes through the blocks of every directory. `SweptBlock` says what it does to one block: a
cell that is live and marked loses its mark, turns white and stays live, and every other cell goes
on the free list. A block that is left without a live cell is released (`inv_release`).
-/

namespace Starlight.Gc

namespace Space

variable {s s' : Space} {i base c : ℕ} {la la' : LocalAllocator}

/-- The cells a sweep keeps. -/
def keeps (s : Space) (c : ℕ) : Bool := s.liveBitmap.test c && s.markBitmap.test c

/-- Two spaces that differ in the bits and in the memory of the cells only. -/
structure SameLayout (s s' : Space) : Prop where
  directory : s'.allocatorForSizeClass = s.allocatorForSizeClass
  classes : s'.sizeClassForSizeStep = s.sizeClassForSizeStep
  blockAllocator : s'.blockAllocator = s.blockAllocator
  allocators : s'.allocators = s.allocators
  precise : s'.preciseAllocations = s.preciseAllocations
  live_begin : s'.liveBitmap.heapBegin = s.liveBitmap.heapBegin
  live_size : s'.liveBitmap.size = s.liveBitmap.size
  mark_begin : s'.markBitmap.heapBegin = s.markBitmap.heapBegin
  mark_size : s'.markBitmap.size = s.markBitmap.size

theorem SameLayout.refl (s : Space) : s.SameLayout s := ⟨rfl, rfl, rfl, rfl, rfl, rfl, rfl, rfl, rfl⟩

theorem SameLayout.trans {s₁ s₂ s₃ : Space} (h : s₁.SameLayout s₂) (h' : s₂.SameLayout s₃) :
    s₁.SameLayout s₃ :=
  ⟨h'.1.trans h.1, h'.2.trans h.2, h'.3.trans h.3, h'.4.trans h.4, h'.5.trans h.5, h'.6.trans h.6,
    h'.7.trans h.7, h'.8.trans h.8, h'.9.trans h.9⟩

theorem SameLayout.granule (h : s.SameLayout s') (a : ℕ) :
    s'.liveBitmap.granule a = s.liveBitmap.granule a := by
  rw [SpaceBitmap.granule, SpaceBitmap.granule, SpaceBitmap.offset, SpaceBitmap.offset, h.live_begin]

/-! ### The loop over the cells of a block -/

structure SweptCells (st : BlockSweep) (l : List ℕ) (st' : BlockSweep) : Prop where
  layout : st.space.SameLayout st'.space
  live : ∀ g, st'.space.liveBitmap.bit g =
    if g ∈ l.map st.space.liveBitmap.granule
      then st.space.liveBitmap.bit g && st.space.markBitmap.bit g
      else st.space.liveBitmap.bit g
  mark : ∀ g, st'.space.markBitmap.bit g =
    if g ∈ l.map st.space.liveBitmap.granule
      then !st.space.liveBitmap.bit g && st.space.markBitmap.bit g
      else st.space.markBitmap.bit g
  objects : ∀ a, st'.space.objects a =
    if a ∈ l ∧ st.space.keeps a = true then { st.space.objects a with state := .white }
      else st.space.objects a
  freelist : st'.freelist = (l.filter fun c => !st.space.keeps c).reverse ++ st.freelist
  fullyFree : st'.fullyFree = (st.fullyFree && l.all fun c => !st.space.keeps c)

theorem sweptCells_singleton (st : BlockSweep) (c : ℕ)
    (hg : st.space.markBitmap.granule c = st.space.liveBitmap.granule c) :
    SweptCells st [c] (sweepCell st c) := by
  obtain ⟨s, freelist, fullyFree⟩ := st
  change s.markBitmap.granule c = s.liveBitmap.granule c at hg
  have hmem : ∀ g, g ∈ [c].map s.liveBitmap.granule ↔ g = s.liveBitmap.granule c := fun g => by simp
  have hlive := SpaceBitmap.test_eq_bit s.liveBitmap c
  have hmark := SpaceBitmap.test_eq_bit s.markBitmap c
  rw [hg] at hmark
  cases hl : s.liveBitmap.test c with
  | false =>
    rw [hl] at hlive
    have hswept : sweepCell ⟨s, freelist, fullyFree⟩ c = ⟨s, c :: freelist, fullyFree⟩ := by
      simp [sweepCell, hl]
    rw [hswept]
    refine ⟨.refl s, fun g => ?_, fun g => ?_, fun a => ?_, ?_, ?_⟩
    · simp only [hmem]
      split
      · next h => rw [h, ← hlive, Bool.false_and]
      · rfl
    · simp only [hmem]
      split
      · next h => rw [h, ← hlive, Bool.not_false, Bool.true_and]
      · rfl
    · simp only [List.mem_singleton]
      rw [if_neg]
      rintro ⟨rfl, hk⟩
      rw [keeps, hl, Bool.false_and] at hk
      exact Bool.false_ne_true hk
    · simp [keeps, hl]
    · simp [keeps, hl]
  | true =>
    rw [hl] at hlive
    cases hm : s.markBitmap.test c with
    | true =>
      rw [hm] at hmark
      have hswept : sweepCell ⟨s, freelist, fullyFree⟩ c =
          ⟨{ s with markBitmap := (s.markBitmap.clear c).2 }.forceSetState c .white, freelist,
            false⟩ := by
        simp [sweepCell, hl, SpaceBitmap.clear_fst, hm]
      rw [hswept]
      refine ⟨⟨rfl, rfl, rfl, rfl, rfl, rfl, rfl, rfl, rfl⟩, fun g => ?_, fun g => ?_, fun a => ?_,
        ?_, ?_⟩
      · simp only [hmem]
        change s.liveBitmap.bit g = _
        split
        · next h => rw [h, ← hlive, ← hmark, Bool.and_true]
        · rfl
      · simp only [hmem]
        change (s.markBitmap.clear c).2.bit g = _
        rw [SpaceBitmap.bit_clear, hg]
        split
        · next h => rw [h, ← hlive]; simp
        · next h => simp [h]
      · change Function.update s.objects c _ a = _
        by_cases ha : a = c
        · subst ha
          rw [Function.update_self, if_pos ⟨List.mem_singleton_self _, by rw [keeps, hl, hm]; rfl⟩]
        · rw [Function.update_of_ne ha, if_neg (fun h => ha (List.mem_singleton.mp h.1))]
      · simp [keeps, hl, hm]
      · simp [keeps, hl, hm]
    | false =>
      rw [hm] at hmark
      have hswept : sweepCell ⟨s, freelist, fullyFree⟩ c =
          ⟨{ s with
            markBitmap := (s.markBitmap.clear c).2
            liveBitmap := (s.liveBitmap.clear c).2 }, c :: freelist, fullyFree⟩ := by
        simp [sweepCell, hl, SpaceBitmap.clear_fst, hm]
      rw [hswept]
      refine ⟨⟨rfl, rfl, rfl, rfl, rfl, rfl, rfl, rfl, rfl⟩, fun g => ?_, fun g => ?_, fun a => ?_,
        ?_, ?_⟩
      · simp only [hmem]
        rw [SpaceBitmap.bit_clear]
        split
        · next h => rw [h, ← hmark]; simp
        · next h => simp [h]
      · simp only [hmem]
        rw [SpaceBitmap.bit_clear, hg]
        split
        · next h => rw [h, ← hmark]; simp
        · next h => simp [h]
      · change s.objects a = _
        rw [if_neg]
        rintro ⟨ha, hk⟩
        rw [List.mem_singleton.mp ha, keeps, hm, Bool.and_false] at hk
        exact Bool.false_ne_true hk
      · simp [keeps, hl, hm]
      · simp [keeps, hl, hm]

theorem SweptCells.cons {st st₁ st₂ : BlockSweep} {l : List ℕ} (h : SweptCells st [c] st₁)
    (h' : SweptCells st₁ l st₂) (hg : ∀ a, st.space.markBitmap.granule a = st.space.liveBitmap.granule a)
    (hc : ∀ d ∈ l, st.space.liveBitmap.granule d ≠ st.space.liveBitmap.granule c) :
    SweptCells st (c :: l) st₂ := by
  have hgranule : ∀ a, st₁.space.liveBitmap.granule a = st.space.liveBitmap.granule a :=
    h.layout.granule
  have hgranule' : ∀ a, st₁.space.markBitmap.granule a = st.space.liveBitmap.granule a := by
    intro a
    rw [← hg, SpaceBitmap.granule, SpaceBitmap.granule, SpaceBitmap.offset, SpaceBitmap.offset,
      h.layout.mark_begin]
  have hmap : l.map st₁.space.liveBitmap.granule = l.map st.space.liveBitmap.granule :=
    List.map_congr_left fun a _ => hgranule a
  have hmem : ∀ g, g ∈ (c :: l).map st.space.liveBitmap.granule ↔
      g = st.space.liveBitmap.granule c ∨ g ∈ l.map st.space.liveBitmap.granule := by
    intro g
    rw [List.map_cons, List.mem_cons]
  have hone : ∀ g, g ∈ [c].map st.space.liveBitmap.granule ↔ g = st.space.liveBitmap.granule c :=
    fun g => by simp
  have hnot : ∀ g, g ∈ l.map st.space.liveBitmap.granule → g ≠ st.space.liveBitmap.granule c := by
    rintro g hmem rfl
    obtain ⟨d, hd, hdg⟩ := List.mem_map.mp hmem
    exact hc d hd hdg
  -- the first cell does not change what the loop finds at the others
  have hkeeps : ∀ d ∈ l, st₁.space.keeps d = st.space.keeps d := by
    intro d hd
    have hne := hc d hd
    simp only [keeps, SpaceBitmap.test_eq_bit, hgranule, hgranule', h.live, h.mark, hone, hg,
      if_neg hne]
  refine ⟨h.layout.trans h'.layout, fun g => ?_, fun g => ?_, fun a => ?_, ?_, ?_⟩
  · rw [h'.live, hmap]
    by_cases hl : g ∈ l.map st.space.liveBitmap.granule
    · have hnot' : g ∉ [c].map st.space.liveBitmap.granule := (hone g).not.mpr (hnot g hl)
      rw [if_pos hl, if_pos ((hmem g).mpr (Or.inr hl)), h.live, h.mark, if_neg hnot', if_neg hnot']
    · rw [if_neg hl, h.live]
      simp only [hone, hmem, hl, or_false]
  · rw [h'.mark, hmap]
    by_cases hl : g ∈ l.map st.space.liveBitmap.granule
    · have hnot' : g ∉ [c].map st.space.liveBitmap.granule := (hone g).not.mpr (hnot g hl)
      rw [if_pos hl, if_pos ((hmem g).mpr (Or.inr hl)), h.live, h.mark, if_neg hnot', if_neg hnot']
    · rw [if_neg hl, h.mark]
      simp only [hone, hmem, hl, or_false]
  · rw [h'.objects]
    by_cases hl : a ∈ l
    · have hac : a ≠ c := fun hac => hc a hl (by rw [hac])
      have hobj : st₁.space.objects a = st.space.objects a := by
        rw [h.objects, if_neg (fun hx => hac (List.mem_singleton.mp hx.1))]
      simp only [hl, true_and, hkeeps a hl, hobj, List.mem_cons, or_true]
    · rw [if_neg (fun hx => hl hx.1), h.objects]
      simp only [List.mem_cons, List.not_mem_nil, hl, or_false]
  · rw [h'.freelist, h.freelist]
    have hfilter : l.filter (fun d => !st₁.space.keeps d) = l.filter (fun d => !st.space.keeps d) :=
      List.filter_congr fun d hd => by rw [hkeeps d hd]
    rw [hfilter, ← List.singleton_append (l := l), List.filter_append, List.reverse_append,
      List.append_assoc]
  · rw [h'.fullyFree, h.fullyFree]
    have hall : (l.all fun d => !st₁.space.keeps d) = l.all fun d => !st.space.keeps d := by
      rw [Bool.eq_iff_iff, List.all_eq_true, List.all_eq_true]
      exact ⟨fun hx d hd => hkeeps d hd ▸ hx d hd, fun hx d hd => (hkeeps d hd).symm ▸ hx d hd⟩
    rw [hall, List.all_cons, List.all_cons, List.all_nil, Bool.and_true, Bool.and_assoc]

theorem sweptCells_foldl (l : List ℕ) (st : BlockSweep)
    (hg : ∀ a, st.space.markBitmap.granule a = st.space.liveBitmap.granule a)
    (hnodup : (l.map st.space.liveBitmap.granule).Nodup) :
    SweptCells st l (l.foldl sweepCell st) := by
  induction l generalizing st with
  | nil =>
    exact ⟨.refl _, fun g => by simp, fun g => by simp, fun a => by simp, rfl, by simp⟩
  | cons c l ih =>
    have hone := sweptCells_singleton st c (hg c)
    have hgranule := hone.layout.granule
    have hgranule' : ∀ a, (sweepCell st c).space.markBitmap.granule a =
        st.space.liveBitmap.granule a := by
      intro a
      rw [← hg, SpaceBitmap.granule, SpaceBitmap.granule, SpaceBitmap.offset, SpaceBitmap.offset,
        hone.layout.mark_begin]
    rw [List.map_cons, List.nodup_cons] at hnodup
    have hrest := ih (sweepCell st c) (fun a => (hgranule' a).trans (hgranule a).symm) (by
      rw [List.map_congr_left fun a _ => hgranule a]
      exact hnodup.2)
    exact hone.cons hrest hg fun d hd heq => hnodup.1 (heq ▸ List.mem_map_of_mem hd)

/-! ### One block -/

/-- What the sweep of one block does to the space, wherever the block is put afterwards. -/
structure SweptBlock (s : Space) (base : ℕ) (s' : Space) : Prop where
  directory : s'.allocatorForSizeClass = s.allocatorForSizeClass
  classes : s'.sizeClassForSizeStep = s.sizeClassForSizeStep
  allocators : s'.allocators = s.allocators
  precise : s'.preciseAllocations = s.preciseAllocations
  live_begin : s'.liveBitmap.heapBegin = s.liveBitmap.heapBegin
  live_size : s'.liveBitmap.size = s.liveBitmap.size
  mark_begin : s'.markBitmap.heapBegin = s.markBitmap.heapBegin
  mark_size : s'.markBitmap.size = s.markBitmap.size
  blockAllocator : s'.blockAllocator = s.blockAllocator.write base { s.blockAllocator.block base with
    freelist := ((s.blockCells base).filter fun c => !s.keeps c).reverse }
  live : ∀ g, s'.liveBitmap.bit g =
    if g ∈ (s.blockCells base).map s.liveBitmap.granule
      then s.liveBitmap.bit g && s.markBitmap.bit g else s.liveBitmap.bit g
  mark : ∀ g, s'.markBitmap.bit g =
    if g ∈ (s.blockCells base).map s.liveBitmap.granule
      then !s.liveBitmap.bit g && s.markBitmap.bit g else s.markBitmap.bit g
  objects : ∀ a, s'.objects a =
    if a ∈ s.blockCells base ∧ s.keeps a = true then { s.objects a with state := .white }
      else s.objects a

namespace SweptBlock

variable {j b d : ℕ}

theorem granule (h : s.SweptBlock base s') (a : ℕ) :
    s'.liveBitmap.granule a = s.liveBitmap.granule a := by
  rw [SpaceBitmap.granule, SpaceBitmap.granule, SpaceBitmap.offset, SpaceBitmap.offset, h.live_begin]

theorem markGranule (h : s.SweptBlock base s') (hg : s.Geometry) (a : ℕ) :
    s'.markBitmap.granule a = s.liveBitmap.granule a := by
  rw [← hg.granule_eq, SpaceBitmap.granule, SpaceBitmap.granule, SpaceBitmap.offset,
    SpaceBitmap.offset, h.mark_begin]

theorem dirBlocks (h : s.SweptBlock base s') (j : ℕ) : s'.dirBlocks j = s.dirBlocks j := by
  rw [Space.dirBlocks, h.directory, Space.dirBlocks]

theorem freelist_self (h : s.SweptBlock base s') : (s'.blockAllocator.block base).freelist =
    ((s.blockCells base).filter fun c => !s.keeps c).reverse := by
  rw [h.blockAllocator, BlockAllocator.block_write_self]

theorem block_of_ne (h : s.SweptBlock base s') (hb : b ≠ base) :
    s'.blockAllocator.block b = s.blockAllocator.block b := by
  rw [h.blockAllocator, BlockAllocator.block_write_of_ne _ _ hb]

theorem cellSize (h : s.SweptBlock base s') (b : ℕ) :
    (s'.blockAllocator.block b).cellSize = (s.blockAllocator.block b).cellSize := by
  by_cases hb : b = base
  · subst hb
    rw [h.blockAllocator, BlockAllocator.block_write_self]
  · rw [h.block_of_ne hb]

theorem blockCells (h : s.SweptBlock base s') (b : ℕ) : s'.blockCells b = s.blockCells b := by
  rw [Space.blockCells, Block.walk_eq_cellsOf, h.cellSize, ← Block.walk_eq_cellsOf,
    Space.blockCells]

theorem live_self (h : s.SweptBlock base s') (hg : s.Geometry) (hc : c ∈ s.blockCells base) :
    s'.liveBitmap.test c = s.keeps c := by
  rw [SpaceBitmap.test_eq_bit, h.granule, h.live, if_pos (List.mem_map_of_mem hc), keeps,
    SpaceBitmap.test_eq_bit, SpaceBitmap.test_eq_bit, hg.granule_eq]

theorem mark_self (h : s.SweptBlock base s') (hs : s.Inv) (hb : base ∈ s.dirBlocks i)
    (hc : c ∈ s.blockCells base) : s'.markBitmap.test c = false := by
  rw [SpaceBitmap.test_eq_bit, h.markGranule hs.geometry, h.mark,
    if_pos (List.mem_map_of_mem hc)]
  have hhas := (SpaceBitmap.hasAddress_iff _ _).mp (hs.hasAddress_cell hb hc)
  cases hm : s.markBitmap.bit (s.liveBitmap.granule c) with
  | false => rw [Bool.and_false]
  | true => rw [hs.liveCells.mark_live _ hhas hm]; rfl

theorem granule_notMem (hs : s.Inv) (hb : base ∈ s.dirBlocks i) (hj : b ∈ s.dirBlocks j)
    (hne : b ≠ base) (hd : d ∈ s.blockCells b) :
    s.liveBitmap.granule d ∉ (s.blockCells base).map s.liveBitmap.granule := by
  intro hmem
  obtain ⟨e, he, heg⟩ := List.mem_map.mp hmem
  have hed := hs.granule_inj hb hj he hd heg
  exact hne (hs.directories.block_unique hj hb hd (hed ▸ he))

theorem live_other (h : s.SweptBlock base s') (hs : s.Inv) (hb : base ∈ s.dirBlocks i)
    (hj : b ∈ s.dirBlocks j) (hne : b ≠ base) (hd : d ∈ s.blockCells b) :
    s'.liveBitmap.test d = s.liveBitmap.test d := by
  rw [SpaceBitmap.test_eq_bit, h.granule, h.live, if_neg (granule_notMem hs hb hj hne hd),
    SpaceBitmap.test_eq_bit]

theorem inv (h : s.SweptBlock base s') (hs : s.Inv) (hb : base ∈ s.dirBlocks i) : s'.Inv := by
  have hd := hs.directories
  have hl := hs.liveCells
  have hstart : s'.blockAllocator.mmapStart = s.blockAllocator.mmapStart := by
    rw [h.blockAllocator]; rfl
  have hbound : s'.blockAllocator.dataBound = s.blockAllocator.dataBound := by
    rw [h.blockAllocator]; rfl
  have hfree : s'.blockAllocator.freeBlocks = s.blockAllocator.freeBlocks := by
    rw [h.blockAllocator]; rfl
  have hbuilt : ∀ b, s'.blockAllocator.Built b ↔ s.blockAllocator.Built b := by
    intro b
    rw [h.blockAllocator]
    exact Iff.rfl
  have hba := hd.blockAllocator
  exact {
    geometry := by
      have hg := hs.geometry
      refine ⟨?_, ?_, ?_, ?_, ?_, ?_, ?_⟩
      · rw [h.live_begin, hstart]; exact hg.live_begin
      · rw [h.mark_begin, hstart]; exact hg.mark_begin
      · rw [hstart]; exact hg.page
      · rw [hstart, hbound]; exact hg.start_le
      · rw [hbound]; exact hg.bound_lt
      · rw [h.live_size, hstart, hbound]; exact hg.live_size
      · rw [h.mark_size, h.live_size]; exact hg.mark_size
    directories := {
      blockAllocator := by
        rw [h.blockAllocator]
        exact { hba with }
      classes := h.classes ▸ hd.classes
      index_lt := h.allocators ▸ hd.index_lt
      mem_allocators := by rw [h.allocators, h.directory]; exact hd.mem_allocators
      allocators_nodup := h.allocators ▸ hd.allocators_nodup
      cellSize_eq := by rw [h.directory, h.classes]; exact hd.cellSize_eq
      nodup := fun j => by rw [h.dirBlocks]; exact hd.nodup j
      disjoint := fun j k b hj hk => hd.disjoint j k b (h.dirBlocks j ▸ hj) (h.dirBlocks k ▸ hk)
      not_free := fun j b hj => by
        rw [hfree]
        exact hd.not_free j b (h.dirBlocks j ▸ hj)
      built_iff := fun b => by
        rw [hbuilt, hfree, hd.built_iff]
        simp only [h.dirBlocks]
      block_size := fun j b hj => by
        rw [h.cellSize, h.classes]
        exact hd.block_size j b (h.dirBlocks j ▸ hj) }
    liveCells := {
      freelist_nodup := by
        intro j b hj
        rw [h.dirBlocks] at hj
        by_cases hbb : b = base
        · subst hbb
          rw [h.freelist_self, List.nodup_reverse]
          exact (hs.nodup_granule hj).of_map.filter _
        · rw [h.block_of_ne hbb]
          exact hl.freelist_nodup j b hj
      mem_freelist := by
        intro j b hj d
        rw [h.dirBlocks] at hj
        rw [h.blockCells]
        by_cases hbb : b = base
        · subst hbb
          rw [h.freelist_self, List.mem_reverse, List.mem_filter]
          constructor
          · rintro ⟨hcell, hk⟩
            refine ⟨hcell, ?_⟩
            rw [h.live_self hs.geometry hcell]
            simpa using hk
          · rintro ⟨hcell, hdead⟩
            refine ⟨hcell, ?_⟩
            rw [h.live_self hs.geometry hcell] at hdead
            rw [hdead]
            rfl
        · rw [h.block_of_ne hbb, hl.mem_freelist j b hj d]
          constructor
          · rintro ⟨hcell, hdead⟩
            exact ⟨hcell, by rw [h.live_other hs hb hj hbb hcell]; exact hdead⟩
          · rintro ⟨hcell, hdead⟩
            exact ⟨hcell, by rw [← h.live_other hs hb hj hbb hcell]; exact hdead⟩
      live_cell := by
        intro g hg hbit
        rw [h.live_size] at hg
        rw [h.live] at hbit
        have hold : s.liveBitmap.bit g = true := by
          split at hbit
          · exact (Bool.and_eq_true _ _ ▸ hbit).1
          · exact hbit
        obtain ⟨j, b, hj, d, hdc, hdg⟩ := hl.live_cell g hg hold
        exact ⟨j, b, by rw [h.dirBlocks]; exact hj, d, by rw [h.blockCells]; exact hdc,
          by rw [h.granule]; exact hdg⟩
      mark_live := by
        intro g hg hbit
        rw [h.live_size] at hg
        rw [h.mark] at hbit
        rw [h.live]
        split at hbit
        · next hin =>
          rw [Bool.and_eq_true] at hbit
          rw [hl.mark_live g hg hbit.2] at hbit
          exact absurd hbit.1 Bool.false_ne_true
        · next hout =>
          rw [if_neg hout]
          exact hl.mark_live g hg hbit }
    largeCells := by
      refine ⟨h.precise ▸ hs.largeCells.nodup, fun a ha => ?_⟩
      rw [h.precise] at ha
      have hout := hs.largeCells.outside a ha
      rw [← Bool.not_eq_true, SpaceBitmap.hasAddress_iff] at hout ⊢
      rw [h.granule, h.live_size]
      exact hout }

end SweptBlock

/-! ### A block is released -/

theorem mem_dirBlocks_withDirectory_iff (hd : s.Directories)
    (hla : s.allocatorForSizeClass i = some la) (hperm : la.blocks.Perm (base :: la'.blocks))
    (ba : BlockAllocator) (j b : ℕ) :
    b ∈ (s.withDirectory i la' ba).dirBlocks j ↔ b ∈ s.dirBlocks j ∧ b ≠ base := by
  have hnodup := hd.nodup i
  rw [dirBlocks_of_eq hla, hperm.nodup_iff, List.nodup_cons] at hnodup
  have hb : base ∈ s.dirBlocks i := by
    rw [dirBlocks_of_eq hla, hperm.mem_iff]
    exact List.mem_cons_self
  by_cases hj : j = i
  · subst hj
    rw [dirBlocks_withDirectory_self, dirBlocks_of_eq hla, hperm.mem_iff, List.mem_cons]
    constructor
    · intro hmem
      exact ⟨Or.inr hmem, fun heq => hnodup.1 (heq ▸ hmem)⟩
    · exact fun ⟨hmem, hne⟩ => hmem.resolve_left hne
  · rw [dirBlocks_withDirectory_of_ne hj]
    refine ⟨fun hmem => ⟨hmem, ?_⟩, fun hmem => hmem.1⟩
    rintro rfl
    exact hj (hd.disjoint j i b hmem hb)

theorem inv_release (h : s.Inv) (hla : s.allocatorForSizeClass i = some la)
    (hsize : la'.cellSize = la.cellSize) (hperm : la.blocks.Perm (base :: la'.blocks))
    (hdead : ∀ c ∈ s.blockCells base, s.liveBitmap.test c = false) :
    (s.withDirectory i la' (s.blockAllocator.returnBlock base)).Inv := by
  have hd := h.directories
  have hl := h.liveCells
  have hnodup := hd.nodup i
  rw [dirBlocks_of_eq hla, hperm.nodup_iff, List.nodup_cons] at hnodup
  have hb : base ∈ s.dirBlocks i := by
    rw [dirBlocks_of_eq hla, hperm.mem_iff]
    exact List.mem_cons_self
  have hdir := mem_dirBlocks_withDirectory_iff hd hla hperm (s.blockAllocator.returnBlock base)
  have hblock : ∀ {b}, b ≠ base →
      (s.blockAllocator.returnBlock base).block b = s.blockAllocator.block b :=
    fun hne => BlockAllocator.block_write_of_ne _ _ hne
  exact {
    geometry := { h.geometry with }
    directories := { hd with
      blockAllocator := BlockAllocator.inv_returnBlock hd.blockAllocator (hd.built hb)
        (hd.not_free i base hb)
      mem_allocators := mem_allocators_withDirectory hd hla _ _
      cellSize_eq := forall_directory (fun j l _ hl => hd.cellSize_eq j l hl)
        (hsize.trans (hd.cellSize_eq i la hla))
      nodup := nodup_withDirectory hd hnodup.2 _
      disjoint := fun j k b hj hk => hd.disjoint j k b ((hdir j b).mp hj).1 ((hdir k b).mp hk).1
      not_free := by
        intro j b hj
        obtain ⟨hj, hne⟩ := (hdir j b).mp hj
        intro hmem
        rcases List.mem_cons.mp hmem with rfl | hmem
        · exact hne rfl
        · exact hd.not_free j b hj hmem
      built_iff := by
        intro b
        change s.blockAllocator.Built b ↔ b ∈ base :: s.blockAllocator.freeBlocks ∨ _
        rw [hd.built_iff, List.mem_cons]
        simp only [hdir]
        constructor
        · rintro (hmem | ⟨j, hj⟩)
          · exact Or.inl (Or.inr hmem)
          · by_cases hbb : b = base
            · exact Or.inl (Or.inl hbb)
            · exact Or.inr ⟨j, hj, hbb⟩
        · rintro ((rfl | hmem) | ⟨j, hj, -⟩)
          · exact Or.inr ⟨i, hb⟩
          · exact Or.inl hmem
          · exact Or.inr ⟨j, hj⟩
      block_size := by
        intro j b hj
        obtain ⟨hj, hne⟩ := (hdir j b).mp hj
        change ((s.blockAllocator.returnBlock base).block b).cellSize = _
        rw [hblock hne]
        exact hd.block_size j b hj }
    liveCells := {
      freelist_nodup := by
        intro j b hj
        obtain ⟨hj, hne⟩ := (hdir j b).mp hj
        change ((s.blockAllocator.returnBlock base).block b).freelist.Nodup
        rw [hblock hne]
        exact hl.freelist_nodup j b hj
      mem_freelist := by
        intro j b hj c
        obtain ⟨hj, hne⟩ := (hdir j b).mp hj
        change c ∈ ((s.blockAllocator.returnBlock base).block b).freelist ↔
          c ∈ ((s.blockAllocator.returnBlock base).block b).walk b ∧ _
        rw [hblock hne]
        exact hl.mem_freelist j b hj c
      live_cell := by
        intro g hg hbit
        obtain ⟨j, b, hj, d, hdc, rfl⟩ := hl.live_cell g hg hbit
        have hne : b ≠ base := by
          rintro rfl
          have hlive := hdead d hdc
          rw [SpaceBitmap.test_eq_bit] at hlive
          exact absurd (hlive.symm.trans hbit) Bool.false_ne_true
        refine ⟨j, b, (hdir j b).mpr ⟨hj, hne⟩, d, ?_, rfl⟩
        change d ∈ ((s.blockAllocator.returnBlock base).block b).walk b
        rw [hblock hne]
        exact hdc
      mark_live := hl.mark_live }
    largeCells := { h.largeCells with } }

end Space

end Starlight.Gc
