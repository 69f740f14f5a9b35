import Starlight.Gc.SlotVisitor

/-!
# Marking computes reachability

The stack and the traced cells are, together, the cells that were turned from white. They are
reachable and each of them is pushed once (`Marking`), so the loop ends after at most as many rounds
as there are cells. When no exchange fails spuriously, every heap pointer that is visited ends up
among them, and they are exactly the reachable cells (`Graph.Marks`).

Marking never clears a mark: a cell that carried one before it started keeps it, reachable or not.
-/

namespace Starlight.Gc

namespace Space

variable {s s' : Space} {p q c : ℕ} {roots : List ℕ}

/-! ### The cells of a space -/

theorem mem_cells (h : s.Inv) : c ∈ s.cells ↔
    (∃ i, ∃ base ∈ s.dirBlocks i, c ∈ s.blockCells base ∧ s.liveBitmap.test c = true) ∨
      c ∈ s.preciseAllocations.map (·.cell) := by
  rw [cells, List.mem_append, List.mem_flatMap]
  refine or_congr_left ⟨?_, ?_⟩
  · rintro ⟨i, -, hc⟩
    obtain ⟨base, hb, hc⟩ := List.mem_flatMap.mp hc
    obtain ⟨hcell, hlive⟩ := List.mem_filter.mp hc
    exact ⟨i, base, hb, hcell, hlive⟩
  · rintro ⟨i, base, hb, hcell, hlive⟩
    obtain ⟨la, hla, -⟩ := exists_of_mem_dirBlocks hb
    refine ⟨i, (h.directories.mem_allocators i).mpr (by rw [hla]; rfl), List.mem_flatMap.mpr
      ⟨base, hb, List.mem_filter.mpr ⟨hcell, hlive⟩⟩⟩

theorem small_of_mem_cells (h : s.Inv) (hc : c ∈ s.cells) (hin : s.liveBitmap.hasAddress c = true) :
    ∃ i, ∃ base ∈ s.dirBlocks i, c ∈ s.blockCells base ∧ s.liveBitmap.test c = true := by
  rcases (mem_cells h).mp hc with hsmall | hlarge
  · exact hsmall
  · obtain ⟨a, ha, rfl⟩ := List.mem_map.mp hlarge
    rw [h.largeCells.outside a ha] at hin
    exact absurd hin Bool.false_ne_true

theorem large_of_mem_cells (h : s.Inv) (hc : c ∈ s.cells) (hout : s.liveBitmap.hasAddress c = false) :
    ∃ a ∈ s.preciseAllocations, a.cell = c := by
  rcases (mem_cells h).mp hc with ⟨i, base, hb, hcell, -⟩ | hlarge
  · rw [h.hasAddress_cell hb hcell] at hout
    exact absurd hout.symm Bool.false_ne_true
  · exact List.mem_map.mp hlarge

theorem isHeapPointer_of_mem_cells (h : s.Inv) (hc : c ∈ s.cells) : s.isHeapPointer c = true := by
  cases hin : s.liveBitmap.hasAddress c with
  | true =>
    obtain ⟨-, -, -, -, hlive⟩ := small_of_mem_cells h hc hin
    rwa [isHeapPointer, if_pos hin]
  | false =>
    obtain ⟨a, ha, rfl⟩ := large_of_mem_cells h hc hin
    rw [isHeapPointer, hin, if_neg Bool.false_ne_true, containsLarge, List.any_eq_true]
    exact ⟨a, ha, beq_self_eq_true _⟩

@[simp] theorem objects_mark (s : Space) (p : ℕ) : (s.mark p).objects = s.objects := by
  rw [mark]
  split <;> rfl

@[simp] theorem isMarked_forceSetState (s : Space) (p : ℕ) (state : CellState) (c : ℕ) :
    (s.forceSetState p state).isMarked c = s.isMarked c := by
  rw [isMarked, isMarked]
  exact rfl

theorem isMarked_mark (h : s.Inv) (hp : p ∈ s.cells) (hq : q ∈ s.cells) :
    (s.mark p).isMarked q = (decide (q = p) || s.isMarked q) := by
  cases hin : s.liveBitmap.hasAddress p with
  | true =>
    rw [mark_eq_of_hasAddress hin, isMarked, isMarked]
    change (if s.liveBitmap.hasAddress q = true then (s.markBitmap.set p).test q else _) = _
    cases hin' : s.liveBitmap.hasAddress q with
    | true =>
      rw [if_pos rfl, if_pos rfl, SpaceBitmap.test_eq_bit, SpaceBitmap.granule_set,
        SpaceBitmap.bit_set, ← SpaceBitmap.test_eq_bit]
      obtain ⟨i, base, hb, hcp, -⟩ := small_of_mem_cells h hp hin
      obtain ⟨j, base', hb', hcq, -⟩ := small_of_mem_cells h hq hin'
      congr 1
      rw [decide_eq_decide, h.geometry.granule_eq, h.geometry.granule_eq]
      exact ⟨fun hg => h.granule_inj hb' hb hcq hcp hg, fun hqp => by rw [hqp]⟩
    | false =>
      have hne : q ≠ p := by
        rintro rfl
        rw [hin] at hin'
        exact Bool.false_ne_true hin'.symm
      rw [if_neg Bool.false_ne_true, if_neg Bool.false_ne_true, decide_eq_false hne, Bool.false_or]
  | false =>
    rw [mark_eq_of_not_hasAddress hin, isMarked, isMarked]
    change (if s.liveBitmap.hasAddress q = true then s.markBitmap.test q else
      List.any (s.preciseAllocations.map _) _) = _
    cases hin' : s.liveBitmap.hasAddress q with
    | true =>
      have hne : q ≠ p := by
        rintro rfl
        rw [hin] at hin'
        exact Bool.false_ne_true hin'
      rw [if_pos rfl, if_pos rfl, decide_eq_false hne, Bool.false_or]
    | false =>
      rw [if_neg Bool.false_ne_true, if_neg Bool.false_ne_true, Bool.eq_iff_iff, Bool.or_eq_true,
        decide_eq_true_iff, List.any_map, List.any_eq_true, List.any_eq_true]
      obtain ⟨a, ha, hap⟩ := large_of_mem_cells h hp hin
      constructor
      · rintro ⟨b, hb, hbq⟩
        rw [Function.comp_apply] at hbq
        split at hbq
        · next hbp =>
          simp only [Bool.and_eq_true, beq_iff_eq] at hbq
          exact Or.inl (hbq.1.symm.trans hbp)
        · exact Or.inr ⟨b, hb, hbq⟩
      · rintro (hqp | ⟨b, hb, hbq⟩)
        · refine ⟨a, ha, ?_⟩
          rw [Function.comp_apply, if_pos hap]
          simp only [Bool.and_eq_true, beq_iff_eq, and_true]
          exact hap.trans hqp.symm
        · refine ⟨b, hb, ?_⟩
          rw [Function.comp_apply]
          split
          · simp only [Bool.and_eq_true, beq_iff_eq] at hbq ⊢
            exact ⟨hbq.1, trivial⟩
          · exact hbq

end Space

namespace SlotVisitor

variable {spurious : ℕ → Bool} {s : Space} {roots ps rest : List ℕ} {v v' : SlotVisitor} {p q : ℕ}

/-- The cells that were turned from white: those on the mark stack and those that were traced. -/
def seen (v : SlotVisitor) : List ℕ := v.queue ++ v.traced

theorem mem_seen : p ∈ v.seen ↔ p ∈ v.queue ∨ p ∈ v.traced := List.mem_append

/-! ### One visit -/

theorem visit_cases (spurious : ℕ → Bool) (v : SlotVisitor) (p : ℕ) :
    (v.space.isHeapPointer p = false ∧ v.visit spurious p = v) ∨
    (v.space.isHeapPointer p = true ∧
      ¬ ((v.space.objects p).state = .white ∧ spurious v.exchanges = false) ∧
      v.visit spurious p = { v with exchanges := v.exchanges + 1 }) ∨
    (v.space.isHeapPointer p = true ∧ (v.space.objects p).state = .white ∧
      v.visit spurious p =
        ⟨(v.space.forceSetState p .grey).mark p, p :: v.queue, v.exchanges + 1, v.traced⟩) := by
  cases hp : v.space.isHeapPointer p with
  | false =>
    refine Or.inl ⟨rfl, ?_⟩
    rw [visit, hp, if_neg Bool.false_ne_true]
  | true =>
    right
    by_cases hok : (v.space.objects p).state = .white ∧ spurious v.exchanges = false
    · refine Or.inr ⟨rfl, hok.1, ?_⟩
      rw [visit, hp, if_pos rfl, setState, if_pos hok]
      rfl
    · refine Or.inl ⟨rfl, hok, ?_⟩
      rw [visit, hp, if_pos rfl, setState, if_neg hok]
      rfl

@[simp] theorem traced_visit : (v.visit spurious p).traced = v.traced := by
  rcases visit_cases spurious v p with ⟨-, h⟩ | ⟨-, -, h⟩ | ⟨-, -, h⟩ <;> rw [h]

theorem seen_visit (hq : q ∈ v.seen) : q ∈ (v.visit spurious p).seen := by
  rcases visit_cases spurious v p with ⟨-, h⟩ | ⟨-, -, h⟩ | ⟨-, -, h⟩
  · rwa [h]
  · rw [h]
    exact hq
  · rw [h]
    exact List.mem_cons_of_mem _ hq

@[simp] theorem traced_visitAll (ps : List ℕ) : (v.visitAll spurious ps).traced = v.traced := by
  induction ps generalizing v with
  | nil => rfl
  | cons p ps ih => rw [visitAll_cons, ih, traced_visit]

theorem seen_visitAll (ps : List ℕ) (hq : q ∈ v.seen) : q ∈ (v.visitAll spurious ps).seen := by
  induction ps generalizing v with
  | nil => exact hq
  | cons p ps ih =>
    rw [visitAll_cons]
    exact ih (seen_visit hq)

/-! ### The invariant -/

/-- The invariant of marking: what was turned from white is reachable, each cell was pushed once,
and the marks are the earlier ones and those of the cells turned from white. -/
structure Marking (s : Space) (roots : List ℕ) (v : SlotVisitor) : Prop where
  keeps : (start s).Keeps v
  sound : ∀ p ∈ v.seen, p ∈ s.reachable roots
  nodup : v.seen.Nodup
  colour : ∀ p ∈ v.seen, (v.space.objects p).state ≠ .white
  grey : ∀ p ∈ v.queue, (v.space.objects p).state = .grey
  untouched : ∀ p, p ∉ v.seen → (v.space.objects p).state = (s.objects p).state
  marked : ∀ c ∈ s.cells, (v.space.isMarked c = true ↔ s.isMarked c = true ∨ c ∈ v.seen)

theorem marking_start (h : s.Inv) (ho : s.Ordered) : Marking s roots (start s) where
  keeps := .refl h ho
  sound := fun _ hp => absurd hp List.not_mem_nil
  nodup := List.nodup_nil
  colour := fun _ hp => absurd hp List.not_mem_nil
  grey := fun _ hp => absurd hp List.not_mem_nil
  untouched := fun _ _ => rfl
  marked := fun _ _ => ⟨Or.inl, fun h => h.resolve_right List.not_mem_nil⟩

/-- Every reachable heap pointer is a cell: no pointer leads into the middle of one. -/
def PointsToCells (s : Space) (roots : List ℕ) : Prop := ∀ p ∈ s.reachable roots, p ∈ s.cells

theorem Marking.visit (h : Marking s roots v) (hwf : PointsToCells s roots)
    (hp : s.isHeapPointer p = true → p ∈ s.reachable roots) :
    Marking s roots (v.visit spurious p) := by
  have hkeeps := h.keeps.trans (@keeps_visit spurious v p h.keeps.inv h.keeps.ordered)
  rcases visit_cases spurious v p with ⟨-, hv⟩ | ⟨-, -, hv⟩ | ⟨hheap, hwhite, hv⟩
  · rwa [hv]
  · rw [hv] at hkeeps ⊢
    exact ⟨hkeeps, h.sound, h.nodup, h.colour, h.grey, h.untouched, h.marked⟩
  · rw [hv] at hkeeps ⊢
    have hreach := hp ((h.keeps.graph.isHeapPointer p).symm.trans hheap)
    have hnew : p ∉ v.seen := fun hmem => h.colour p hmem hwhite
    have hgrey := Space.sameGraph_forceSetState v.space p .grey
    have hinv : (v.space.forceSetState p .grey).Inv := Space.inv_forceSetState h.keeps.inv
    have hcells : ∀ c ∈ s.cells, c ∈ (v.space.forceSetState p .grey).cells := by
      intro c hc
      rw [hgrey.cells, h.keeps.graph.cells]
      exact hc
    obtain ⟨w, hw⟩ : ∃ w, w = (v.space.forceSetState p .grey).mark p := ⟨_, rfl⟩
    have hobjects : ∀ a, (w.objects a).state =
        if a = p then CellState.grey else (v.space.objects a).state := by
      intro a
      rw [hw, Space.objects_mark, Space.objects_forceSetState]
      split <;> rfl
    have hmarked : ∀ c ∈ s.cells, w.isMarked c = (decide (c = p) || v.space.isMarked c) := by
      intro c hc
      rw [hw, Space.isMarked_mark hinv (hcells p (hwf p hreach)) (hcells c hc),
        Space.isMarked_forceSetState]
    rw [← hw] at hkeeps ⊢
    refine { keeps := hkeeps, sound := ?sound, nodup := List.nodup_cons.mpr ⟨hnew, h.nodup⟩,
             colour := ?colour, grey := ?grey, untouched := ?untouched, marked := ?marked }
    case sound =>
      intro q hq
      rcases List.mem_cons.mp hq with rfl | hq
      · exact hreach
      · exact h.sound q hq
    case colour =>
      intro q hq
      rw [hobjects]
      split
      · exact fun h => CellState.noConfusion h
      · next hne => exact h.colour q ((List.mem_cons.mp hq).resolve_left hne)
    case grey =>
      intro q hq
      rw [hobjects]
      split
      · rfl
      · next hne => exact h.grey q ((List.mem_cons.mp hq).resolve_left hne)
    case untouched =>
      intro q hq
      have hne : q ≠ p := fun heq => hq (heq ▸ List.mem_cons_self)
      rw [hobjects, if_neg hne]
      exact h.untouched q fun hmem => hq (List.mem_cons_of_mem _ hmem)
    case marked =>
      intro c hc
      have hmem : c ∈ seen ⟨w, p :: v.queue, v.exchanges + 1, v.traced⟩ ↔ c = p ∨ c ∈ v.seen :=
        List.mem_cons
      rw [hmarked c hc, Bool.or_eq_true, decide_eq_true_iff, hmem, h.marked c hc]
      exact or_left_comm

theorem Marking.visitAll (h : Marking s roots v) (hwf : PointsToCells s roots) (ps : List ℕ)
    (hps : ∀ p ∈ ps, s.isHeapPointer p = true → p ∈ s.reachable roots) :
    Marking s roots (v.visitAll spurious ps) := by
  induction ps generalizing v with
  | nil => exact h
  | cons p ps ih =>
    rw [visitAll_cons]
    exact ih (h.visit hwf (hps p List.mem_cons_self))
      fun q hq => hps q (List.mem_cons_of_mem _ hq)

/-! ### One round of the loop -/

/-- The visitor after a cell was popped and turned black, before it is traced. -/
def popped (spurious : ℕ → Bool) (v : SlotVisitor) (p : ℕ) (rest : List ℕ) : SlotVisitor :=
  let v := (setState spurious { v with queue := rest } p .grey .black).2
  { v with traced := p :: v.traced }

theorem scan_eq (v : SlotVisitor) (p : ℕ) (rest : List ℕ) : v.scan spurious p rest =
    (v.popped spurious p rest).visitAll spurious
      ((v.popped spurious p rest).space.objects p).payload.trace := rfl

theorem popped_cases (spurious : ℕ → Bool) (v : SlotVisitor) (p : ℕ) (rest : List ℕ) :
    v.popped spurious p rest = ⟨v.space, rest, v.exchanges + 1, p :: v.traced⟩ ∨
    v.popped spurious p rest =
      ⟨v.space.forceSetState p .black, rest, v.exchanges + 1, p :: v.traced⟩ := by
  rw [popped, setState]
  split
  · exact Or.inr rfl
  · exact Or.inl rfl

theorem Marking.popped (h : Marking s roots v) (hq : v.queue = p :: rest) :
    Marking s roots (v.popped spurious p rest) := by
  have hperm : (rest ++ p :: v.traced).Perm v.seen := by
    rw [seen, hq]
    exact List.perm_middle
  have hseen : (v.popped spurious p rest).seen = rest ++ p :: v.traced := by
    rcases popped_cases spurious v p rest with hv | hv <;> rw [hv] <;> rfl
  have hmem : ∀ q, q ∈ (v.popped spurious p rest).seen ↔ q ∈ v.seen := by
    intro q
    rw [hseen, hperm.mem_iff]
  have hp : p ∈ v.seen := by
    rw [seen, hq]
    exact List.mem_cons_self
  have hkeeps : (start s).Keeps (v.popped spurious p rest) := by
    have hset := @keeps_setState spurious { v with queue := rest } p h.keeps.inv h.keeps.ordered
      .grey .black
    exact ⟨h.keeps.graph.trans hset.graph, hset.inv, hset.ordered⟩
  have hcolour : ∀ q, ((v.popped spurious p rest).space.objects q).state =
      (v.space.objects q).state ∨
        q = p ∧ ((v.popped spurious p rest).space.objects q).state = .black := by
    intro q
    rcases popped_cases spurious v p rest with hv | hv
    · rw [hv]
      exact Or.inl rfl
    · rw [hv]
      change ((v.space.forceSetState p .black).objects q).state = _ ∨ _ ∧
        ((v.space.forceSetState p .black).objects q).state = _
      rw [Space.objects_forceSetState]
      split
      · next hqp => exact Or.inr ⟨hqp, rfl⟩
      · exact Or.inl rfl
  have hnodup := h.nodup
  rw [seen, hq, List.cons_append, List.nodup_cons] at hnodup
  refine { keeps := hkeeps, sound := fun q hq' => h.sound q ((hmem q).mp hq'), nodup := ?nodup,
           colour := ?colour, grey := ?grey, untouched := ?untouched, marked := ?marked }
  case nodup =>
    rw [hseen, hperm.nodup_iff]
    exact h.nodup
  case colour =>
    intro q hq'
    rcases hcolour q with hc | ⟨-, hc⟩
    · rw [hc]
      exact h.colour q ((hmem q).mp hq')
    · rw [hc]
      exact fun h => CellState.noConfusion h
  case grey =>
    intro q hq'
    have hrest : q ∈ rest := by
      rcases popped_cases spurious v p rest with hv | hv
      · rwa [hv] at hq'
      · rwa [hv] at hq'
    rcases hcolour q with hc | ⟨rfl, -⟩
    · rw [hc]
      exact h.grey q (hq ▸ List.mem_cons_of_mem _ hrest)
    · exact absurd (List.mem_append_left _ hrest) hnodup.1
  case untouched =>
    intro q hq'
    rw [hmem] at hq'
    rcases hcolour q with hc | ⟨rfl, -⟩
    · rw [hc]
      exact h.untouched q hq'
    · exact absurd hp hq'
  case marked =>
    intro c hc
    rw [hmem, ← h.marked c hc]
    rcases popped_cases spurious v p rest with hv | hv
    · rw [hv]
    · rw [hv, Space.isMarked_forceSetState]

theorem Marking.trace_reachable (h : Marking s roots v) (hp : p ∈ v.seen) (q : ℕ)
    (hq : q ∈ (v.space.objects p).payload.trace) (hheap : s.isHeapPointer q = true) :
    q ∈ s.reachable roots := by
  rw [h.keeps.graph.payload p] at hq
  exact Graph.reach_step (h.sound p hp) ⟨hq, hheap⟩

theorem mem_seen_popped : p ∈ (v.popped spurious p rest).seen := by
  refine mem_seen.mpr (Or.inr ?_)
  rcases popped_cases spurious v p rest with hv | hv <;> rw [hv] <;> exact List.mem_cons_self

theorem traced_scan : (v.scan spurious p rest).traced = p :: v.traced := by
  rw [scan_eq, traced_visitAll]
  rcases popped_cases spurious v p rest with hv | hv <;> rw [hv]

theorem Marking.scan (h : Marking s roots v) (hwf : PointsToCells s roots)
    (hq : v.queue = p :: rest) : Marking s roots (v.scan spurious p rest) := by
  have hpop := @Marking.popped spurious s roots rest v p h hq
  rw [scan_eq]
  exact hpop.visitAll hwf _ fun q hq' hheap => hpop.trace_reachable mem_seen_popped q hq' hheap

/-! ### The loop -/

theorem Marking.length_le (h : Marking s roots v) (hwf : PointsToCells s roots) :
    v.queue.length + v.traced.length ≤ s.cells.length := by
  rw [← List.length_append]
  exact (List.subperm_of_subset h.nodup fun p hp => hwf p (h.sound p hp)).length_le

/-- **The loop terminates**, on cyclic graphs too: a round traces a cell, and none twice. -/
theorem Marking.exists_processWorklist (h : Marking s roots v) (hwf : PointsToCells s roots)
    {fuel : ℕ} (hfuel : s.cells.length ≤ fuel + v.traced.length) :
    ∃ v', v.processWorklist spurious fuel = some v' := by
  induction fuel generalizing v with
  | zero =>
    have hle := h.length_le hwf
    have hnil : v.queue = [] := List.length_eq_zero_iff.mp (by omega)
    exact ⟨v, by rw [processWorklist.eq_def, hnil]⟩
  | succ fuel ih =>
    cases hq : v.queue with
    | nil => exact ⟨v, by rw [processWorklist.eq_def, hq]⟩
    | cons p rest =>
      obtain ⟨v', hv'⟩ := ih (@Marking.scan spurious s roots rest v p h hwf hq) (by
        rw [traced_scan, List.length_cons]
        omega)
      exact ⟨v', by rw [processWorklist.eq_def, hq]; exact hv'⟩

theorem processWorklist_induction {motive : SlotVisitor → Prop} {fuel : ℕ}
    (hv : v.processWorklist spurious fuel = some v') (hstart : motive v)
    (hstep : ∀ v p rest, motive v → v.queue = p :: rest → motive (v.scan spurious p rest)) :
    motive v' ∧ v'.queue = [] := by
  induction fuel generalizing v with
  | zero =>
    rw [processWorklist.eq_def] at hv
    cases hq : v.queue with
    | nil =>
      rw [hq] at hv
      exact Option.some.inj hv ▸ ⟨hstart, hq⟩
    | cons p rest =>
      rw [hq] at hv
      exact absurd hv (by simp)
  | succ fuel ih =>
    rw [processWorklist.eq_def] at hv
    cases hq : v.queue with
    | nil =>
      rw [hq] at hv
      exact Option.some.inj hv ▸ ⟨hstart, hq⟩
    | cons p rest =>
      rw [hq] at hv
      exact ih hv (hstep v p rest hstart hq)

/-! ### Exchanges that do not fail spuriously -/

/-- A space in which marking can start: it is consistent and all its cells are white. -/
structure Ready (s : Space) : Prop where
  inv : s.Inv
  ordered : s.Ordered
  white : ∀ c ∈ s.cells, (s.objects c).state = .white

section Strong

variable (hstrong : ∀ n, spurious n = false)

include hstrong

theorem Marking.mem_seen_visit (h : Marking s roots v) (hready : Ready s)
    (hp : s.isHeapPointer p = true) (hcell : p ∈ s.cells) : p ∈ (v.visit spurious p).seen := by
  have hheap : v.space.isHeapPointer p = true := (h.keeps.graph.isHeapPointer p).trans hp
  rcases visit_cases spurious v p with ⟨hnot, -⟩ | ⟨-, hnot, hv⟩ | ⟨-, -, hv⟩
  · rw [hheap] at hnot
    exact absurd hnot.symm Bool.false_ne_true
  · rw [hv]
    by_contra hmem
    refine hnot ⟨?_, hstrong _⟩
    rw [h.untouched p hmem]
    exact hready.white p hcell
  · rw [hv]
    exact List.mem_cons_self

theorem Marking.mem_seen_visitAll (h : Marking s roots v) (hready : Ready s)
    (hwf : PointsToCells s roots) (ps : List ℕ)
    (hps : ∀ p ∈ ps, s.isHeapPointer p = true → p ∈ s.reachable roots) (hp : p ∈ ps)
    (hheap : s.isHeapPointer p = true) : p ∈ (v.visitAll spurious ps).seen := by
  induction ps generalizing v with
  | nil => exact absurd hp List.not_mem_nil
  | cons q ps ih =>
    have hone := @Marking.visit spurious s roots v q h hwf (hps q List.mem_cons_self)
    rw [visitAll_cons]
    by_cases heq : p = q
    · subst heq
      exact seen_visitAll ps (h.mem_seen_visit hstrong hready hheap
        (hwf p (hps p List.mem_cons_self hheap)))
    · exact ih hone (fun r hr => hps r (List.mem_cons_of_mem _ hr))
        ((List.mem_cons.mp hp).resolve_left heq)

omit hstrong in
theorem state_visitAll (ps : List ℕ) (hq : (v.space.objects q).state ≠ .white) :
    ((v.visitAll spurious ps).space.objects q).state = (v.space.objects q).state := by
  induction ps generalizing v with
  | nil => rfl
  | cons p ps ih =>
    have hone : ((v.visit spurious p).space.objects q).state = (v.space.objects q).state := by
      rcases visit_cases spurious v p with ⟨-, hv⟩ | ⟨-, -, hv⟩ | ⟨-, hwhite, hv⟩
      · rw [hv]
      · rw [hv]
      · have hspace : (v.visit spurious p).space = (v.space.forceSetState p .grey).mark p := by
          rw [hv]
        have hne : q ≠ p := by
          rintro rfl
          exact hq hwhite
        rw [hspace, Space.objects_mark, Space.objects_forceSetState, if_neg hne]
    have hq' : ((v.visit spurious p).space.objects q).state ≠ .white := by
      rw [hone]
      exact hq
    rw [visitAll_cons, ih hq', hone]

theorem Marking.popped_eq (h : Marking s roots v) (hq : v.queue = p :: rest) :
    v.popped spurious p rest =
      ⟨v.space.forceSetState p .black, rest, v.exchanges + 1, p :: v.traced⟩ := by
  have hgrey := h.grey p (hq ▸ List.mem_cons_self)
  have hset : setState spurious { v with queue := rest } p .grey .black =
      (true, ⟨v.space.forceSetState p .black, rest, v.exchanges + 1, v.traced⟩) :=
    if_pos ⟨hgrey, hstrong _⟩
  rw [SlotVisitor.popped, hset]

theorem Marking.black_scan (h : Marking s roots v) (hq : v.queue = p :: rest)
    (hblack : ∀ q ∈ v.traced, (v.space.objects q).state = .black) :
    ∀ q ∈ (v.scan spurious p rest).traced,
      ((v.scan spurious p rest).space.objects q).state = .black := by
  intro q hq'
  rw [traced_scan] at hq'
  have hb : ((v.popped spurious p rest).space.objects q).state = .black := by
    rw [h.popped_eq hstrong hq, Space.objects_forceSetState]
    split
    · rfl
    · next hne => exact hblack q ((List.mem_cons.mp hq').resolve_left hne)
  have hne : ((v.popped spurious p rest).space.objects q).state ≠ .white := by
    rw [hb]
    exact fun h => CellState.noConfusion h
  exact (state_visitAll _ hne).trans hb

theorem Marking.closed_scan (h : Marking s roots v) (hready : Ready s)
    (hwf : PointsToCells s roots) (hq : v.queue = p :: rest)
    (hclosed : ∀ a ∈ v.traced, ∀ b, s.Edge a b → b ∈ v.seen) :
    ∀ a ∈ (v.scan spurious p rest).traced, ∀ b, s.Edge a b →
      b ∈ (v.scan spurious p rest).seen := by
  have hpop := @Marking.popped spurious s roots rest v p h hq
  intro a ha b hab
  rw [traced_scan] at ha
  rw [scan_eq]
  rcases List.mem_cons.mp ha with rfl | ha
  · refine hpop.mem_seen_visitAll hstrong hready hwf _
      (fun q hq' hheap => hpop.trace_reachable mem_seen_popped q hq' hheap) ?_ hab.2
    rw [hpop.keeps.graph.payload]
    exact hab.1
  · refine seen_visitAll _ (mem_seen.mpr ?_)
    have hb := mem_seen.mp (hclosed a ha b hab)
    rw [hq, List.mem_cons] at hb
    rcases popped_cases spurious v p rest with hv | hv
    · rw [hv, List.mem_cons]
      tauto
    · rw [hv, List.mem_cons]
      tauto

end Strong

/-! ### Marking from the roots -/

/-- Marking as a collection does it: the roots are visited, then the stack is worked off. -/
def marking (spurious : ℕ → Bool) (s : Space) (roots : List ℕ) (fuel : ℕ) : Option SlotVisitor :=
  ((start s).visitAll spurious roots).processWorklist spurious fuel

theorem marking_visitAll_roots (hs : s.Inv) (ho : s.Ordered) (hwf : PointsToCells s roots) :
    Marking s roots ((start s).visitAll spurious roots) :=
  (marking_start hs ho).visitAll hwf roots fun _ hp hheap => Graph.reach_root ⟨hp, hheap⟩

theorem keeps_marking (hs : s.Inv) (ho : s.Ordered) {fuel : ℕ}
    (hv : marking spurious s roots fuel = some v) : (start s).Keeps v := by
  have hroots := @keeps_visitAll spurious (start s) roots hs ho
  exact hroots.trans (keeps_processWorklist hroots.inv hroots.ordered hv)

theorem exists_marking (hs : s.Inv) (ho : s.Ordered) (hwf : PointsToCells s roots) {fuel : ℕ}
    (hfuel : s.cells.length ≤ fuel) : ∃ v, marking spurious s roots fuel = some v :=
  (marking_visitAll_roots hs ho hwf).exists_processWorklist hwf (by
    rw [traced_visitAll]
    exact hfuel)

theorem marking_spec (hs : s.Inv) (ho : s.Ordered) (hwf : PointsToCells s roots) {fuel : ℕ}
    (hv : marking spurious s roots fuel = some v) : Marking s roots v ∧ v.queue = [] :=
  processWorklist_induction hv (marking_visitAll_roots hs ho hwf)
    fun _ _ _ h hq => h.scan hwf hq

theorem black_marking (hstrong : ∀ n, spurious n = false) (hready : Ready s)
    (hwf : PointsToCells s roots) {fuel : ℕ} (hv : marking spurious s roots fuel = some v) :
    ∀ p ∈ v.traced, (v.space.objects p).state = .black := by
  obtain ⟨⟨-, hblack⟩, -⟩ := processWorklist_induction
    (motive := fun v => Marking s roots v ∧ ∀ p ∈ v.traced, (v.space.objects p).state = .black) hv
    ⟨marking_visitAll_roots hready.inv hready.ordered hwf,
      fun p hp => absurd (traced_visitAll roots ▸ hp) List.not_mem_nil⟩
    (fun v p rest ⟨h, hblack⟩ hq => ⟨h.scan hwf hq, h.black_scan hstrong hq hblack⟩)
  exact hblack

theorem traced_marking (hstrong : ∀ n, spurious n = false) (hready : Ready s)
    (hwf : PointsToCells s roots) {fuel : ℕ} (hv : marking spurious s roots fuel = some v) :
    {p | p ∈ v.traced} = s.reachable roots := by
  have hroots := @marking_visitAll_roots spurious s roots hready.inv hready.ordered hwf
  obtain ⟨⟨hmark, hclosed, hmem⟩, hnil⟩ := processWorklist_induction
    (motive := fun v => Marking s roots v ∧ (∀ a ∈ v.traced, ∀ b, s.Edge a b → b ∈ v.seen) ∧
      ∀ r ∈ s.rootSet roots, r ∈ v.seen) hv
    ⟨hroots, fun a ha => absurd (traced_visitAll roots ▸ ha) List.not_mem_nil,
      fun r hr => (marking_start hready.inv hready.ordered).mem_seen_visitAll hstrong hready hwf
        roots (fun _ hp hheap => Graph.reach_root ⟨hp, hheap⟩) hr.1 hr.2⟩
    (fun v p rest ⟨h, hclosed, hmem⟩ hq => ⟨h.scan hwf hq,
      h.closed_scan hstrong hready hwf hq hclosed, fun r hr => by
        rw [scan_eq]
        refine seen_visitAll _ ?_
        have hr' := mem_seen.mp (hmem r hr)
        rw [hq, List.mem_cons] at hr'
        rw [mem_seen]
        rcases popped_cases spurious v p rest with hv | hv
        · rw [hv, List.mem_cons]
          tauto
        · rw [hv, List.mem_cons]
          tauto⟩)
  have hseen : ∀ p, p ∈ v.seen ↔ p ∈ v.traced := by
    intro p
    rw [mem_seen, hnil]
    exact or_iff_right List.not_mem_nil
  have hmarks : Graph.Marks s.Edge (s.rootSet roots) {p | p ∈ v.traced} ∅ {p | p ∈ v.traced} :=
    ⟨fun p hp => hmark.sound p ((hseen p).mpr hp), (Set.empty_union _).symm,
      fun a ha b hab => (hseen b).mp (hclosed a ha b hab)⟩
  exact hmarks.eq_reach (fun r hr => (hseen r).mp (hmem r hr)) rfl

/-- Marking from `roots` ends; the marked cells are then the reachable ones, and each of those was
traced once. -/
structure MarksReachable (spurious : ℕ → Bool) (s : Space) (roots : List ℕ) : Prop where
  terminates : ∀ fuel, s.cells.length ≤ fuel → ∃ v, marking spurious s roots fuel = some v
  marked : ∀ fuel v, marking spurious s roots fuel = some v →
    ∀ c, c ∈ s.cells ∧ v.space.isMarked c = true ↔ c ∈ s.reachable roots
  traced : ∀ fuel v, marking spurious s roots fuel = some v →
    ∀ c, c ∈ v.traced ↔ c ∈ s.reachable roots
  once : ∀ fuel v, marking spurious s roots fuel = some v → v.traced.Nodup

/-- **Marking computes reachability** on every graph, exactly if no cell that carries a mark before
it starts is unreachable. -/
theorem marks_reachable_iff (hstrong : ∀ n, spurious n = false) (hready : Ready s)
    (hwf : PointsToCells s roots) :
    MarksReachable spurious s roots ↔
      ∀ c ∈ s.cells, s.isMarked c = true → c ∈ s.reachable roots := by
  have hfinal : ∀ fuel v, marking spurious s roots fuel = some v →
      ∀ c ∈ s.cells, (v.space.isMarked c = true ↔ s.isMarked c = true ∨ c ∈ s.reachable roots) := by
    intro fuel v hv c hc
    obtain ⟨hmark, hnil⟩ := marking_spec hready.inv hready.ordered hwf hv
    rw [hmark.marked c hc, mem_seen, hnil, ← traced_marking hstrong hready hwf hv]
    exact or_congr_right (or_iff_right List.not_mem_nil)
  constructor
  · intro h c hc hmarked
    obtain ⟨v, hv⟩ := h.terminates s.cells.length le_rfl
    exact (h.marked _ v hv c).mp ⟨hc, (hfinal _ v hv c hc).mpr (Or.inl hmarked)⟩
  · intro hstale
    refine ⟨fun fuel hfuel => exists_marking hready.inv hready.ordered hwf hfuel, fun fuel v hv c => ?_,
      fun fuel v hv c => ?_, fun fuel v hv => ?_⟩
    · constructor
      · rintro ⟨hc, hmarked⟩
        rcases (hfinal fuel v hv c hc).mp hmarked with hold | hreach
        · exact hstale c hc hold
        · exact hreach
      · intro hreach
        exact ⟨hwf c hreach, (hfinal fuel v hv c (hwf c hreach)).mpr (Or.inr hreach)⟩
    · rw [← traced_marking hstrong hready hwf hv]
      exact Iff.rfl
    · exact (List.nodup_append.mp (marking_spec hready.inv hready.ordered hwf hv).1.nodup).2.1

/-! ### A mark from an earlier cycle -/

theorem pointsToCells_of_closed (hroots : ∀ p ∈ roots, s.isHeapPointer p = true → p ∈ s.cells)
    (hclosed : ∀ c ∈ s.cells, ∀ q ∈ (s.objects c).payload.trace, s.isHeapPointer q = true →
      q ∈ s.cells) : PointsToCells s roots :=
  Graph.reach_subset (fun p hp => hroots p hp.1 hp.2) fun c hc q hq => hclosed c hc q hq.1 hq.2

/-- A space with one large cell, which an earlier collection marked and kept. -/
def staleLarge : Space := ((Space.threeBlocks.allocateLarge 9048 1000008).mark 1000008).sweep

theorem cells_staleLarge : staleLarge.cells = [1000008] := by decide

theorem reachable_staleLarge : Space.Reachable staleLarge := by
  have hlarge : Space.Step Space.threeBlocks (Space.threeBlocks.allocateLarge 9048 1000008) :=
    @Space.Step.allocate _ _ 9048 1000008 (some 1000008) (fun _ => ⟨by decide, by decide⟩) rfl
  exact ((Space.reachable_threeBlocks.step hlarge).step (.mark (by decide))).step .sweep

theorem ready_staleLarge : Ready staleLarge where
  inv := reachable_staleLarge.inv.1
  ordered := reachable_staleLarge.inv.2
  white := by
    rw [cells_staleLarge]
    decide

theorem marks_reachable_iff_staleLarge : MarksReachable (fun _ => false) staleLarge [1000008] ↔
    ∀ c ∈ staleLarge.cells, staleLarge.isMarked c = true → c ∈ staleLarge.reachable [1000008] :=
  marks_reachable_iff (fun _ => rfl) ready_staleLarge
    (pointsToCells_of_closed (by rw [cells_staleLarge]; decide) (by rw [cells_staleLarge]; decide))

/-- Without roots nothing is reachable, yet the large cell is still marked. -/
theorem not_marksReachable_staleLarge : ¬ MarksReachable (fun _ => false) staleLarge [] := by
  intro h
  have hcell : 1000008 ∈ staleLarge.cells := by
    rw [cells_staleLarge]
    exact List.mem_singleton_self _
  obtain ⟨r, hr, -⟩ := (h.marked 0 (start staleLarge) rfl 1000008).mp ⟨hcell, by decide⟩
  exact absurd hr.1 List.not_mem_nil

end SlotVisitor

end Starlight.Gc
