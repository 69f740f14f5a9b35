import Starlight.Gc.Collection

/-!
# The conservative scan of the stack

A collection starts with `add_conservative`, which visits the words of a stack range that are heap pointers.
Its loop stops one word before the end of the range, so that the last word is not read; the loop of the
marking threads is the same but for that.

`is_heap_pointer` reads the live bit of 16 bytes. Cells start 8 bytes behind a multiple of 16, so that each
address less than 8 bytes before or behind a live cell is a heap pointer as well, and a word that holds it
marks the cell if what is read there as a header is white.
-/

namespace Starlight.Gc

namespace Space

variable {s : Space} {i base c p q : ℕ}

/-- A small cell whose live bit an address shares. -/
def NearCell (s : Space) (p c : ℕ) : Prop :=
  s.liveBitmap.hasAddress c = true ∧ c ≤ p + 8 ∧ p < c + 8

def Hits (s : Space) (p c : ℕ) : Prop := p = c ∨ s.NearCell p c

instance (s : Space) (p c : ℕ) : Decidable (s.Hits p c) :=
  inferInstanceAs (Decidable (_ ∨ _ ∧ _ ∧ _))

/-- `is_heap_pointer` answers whether `p` is the start of a cell that is allocated. -/
def ExactAt (s : Space) (p : ℕ) : Prop := s.isHeapPointer p = true ↔ p ∈ s.cells

/-! ### Cells and granules -/

/-- Where a small cell lies in the bitmaps. -/
structure Placed (s : Space) (c : ℕ) : Prop where
  low : s.liveBitmap.heapBegin + 16 ≤ c
  high : c + 16 < 2 ^ 64
  offset : (c - s.liveBitmap.heapBegin) % 16 = 8

theorem Inv.placed (h : s.Inv) (hb : base ∈ s.dirBlocks i) (hc : c ∈ s.blockCells base) : s.Placed c := by
  have hsize := h.directories.isSizeClass hb
  obtain ⟨hdvd, hlow, hhigh⟩ := h.directories.inMapping hb
  have hlt := h.geometry.bound_lt
  have hpage := h.geometry.page
  have hbegin := h.geometry.live_begin
  have hblock : BLOCK_SIZE = 16384 := rfl
  have hdata : DATA_START = 24 := rfl
  rw [h.directories.blockCells_eq hb] at hc
  have hbounds := cellsOf_bounds hc
  obtain ⟨k, -, hk⟩ := mem_cellsOf.mp hc
  have hstep : 16 ∣ k * s.sizeClassForSizeStep i := Dvd.dvd.mul_left hsize.step k
  have hlower := hsize.lower
  rw [hblock] at hdvd hbounds hhigh
  exact ⟨by omega, by omega, by omega⟩

theorem Placed.granule_eq (h : s.Placed c) (hp : p < 2 ^ 64) :
    s.liveBitmap.granule p = s.liveBitmap.granule c ↔ c ≤ p + 8 ∧ p < c + 8 := by
  obtain ⟨hlow, hhigh, hoffset⟩ := h
  have hc : s.liveBitmap.granule c = (c - s.liveBitmap.heapBegin) / 16 :=
    SpaceBitmap.granule_of_le (by omega) (by omega)
  rw [hc]
  by_cases hle : s.liveBitmap.heapBegin ≤ p
  · rw [SpaceBitmap.granule_of_le hle hp]
    omega
  · -- the offset of an address before the mapping wraps around
    have hwrap : s.liveBitmap.granule p = (p + 2 ^ 64 - s.liveBitmap.heapBegin) / 16 := by
      rw [SpaceBitmap.granule, SpaceBitmap.offset, wrappingSub, Nat.mod_eq_of_lt (by omega)]
      rfl
    rw [hwrap]
    omega

theorem Inv.placed_of_mem_cells (h : s.Inv) (hc : c ∈ s.cells) (hin : s.liveBitmap.hasAddress c = true) :
    s.Placed c := by
  obtain ⟨i, base, hb, hcell, -⟩ := small_of_mem_cells h hc hin
  exact h.placed hb hcell

theorem isHeapPointer_iff (h : s.Inv) (hp : p < 2 ^ 64) :
    s.isHeapPointer p = true ↔ ∃ c ∈ s.cells, s.Hits p c := by
  constructor
  · intro hheap
    cases hin : s.liveBitmap.hasAddress p with
    | true =>
      have hbit := test_of_isHeapPointer hheap hin
      rw [SpaceBitmap.test_eq_bit] at hbit
      obtain ⟨i, base, hb, c, hc, hg⟩ := h.liveCells.live_cell _
        ((SpaceBitmap.hasAddress_iff _ _).mp hin) hbit
      have hlive : s.liveBitmap.test c = true := by rw [SpaceBitmap.test_eq_bit, hg, hbit]
      exact ⟨c, (mem_cells h).mpr (.inl ⟨i, base, hb, hc, hlive⟩),
        .inr ⟨h.hasAddress_cell hb hc, ((h.placed hb hc).granule_eq hp).mp hg.symm⟩⟩
    | false =>
      rw [isHeapPointer, hin, if_neg Bool.false_ne_true, containsLarge, List.any_eq_true] at hheap
      obtain ⟨a, ha, hap⟩ := hheap
      exact ⟨p, (mem_cells h).mpr (.inr (List.mem_map.mpr ⟨a, ha, beq_iff_eq.mp hap⟩)), .inl rfl⟩
  · rintro ⟨c, hc, rfl | ⟨hin, hnear⟩⟩
    · exact isHeapPointer_of_mem_cells h hc
    · have hg := ((h.placed_of_mem_cells hc hin).granule_eq hp).mpr hnear
      obtain ⟨i, base, hb, hcell, hlive⟩ := small_of_mem_cells h hc hin
      have hinp : s.liveBitmap.hasAddress p = true := by
        rw [SpaceBitmap.hasAddress_iff, hg]
        exact (SpaceBitmap.hasAddress_iff _ _).mp hin
      rw [isHeapPointer, if_pos hinp, SpaceBitmap.test_eq_bit, hg, ← SpaceBitmap.test_eq_bit]
      exact hlive

theorem exactAt_iff (h : s.Inv) (hp : p < 2 ^ 64) :
    s.ExactAt p ↔ ¬ ∃ c ∈ s.cells, c ≠ p ∧ s.NearCell p c := by
  unfold ExactAt
  rw [isHeapPointer_iff h hp]
  constructor
  · rintro hexact ⟨c, hc, hne, hin, hnear⟩
    have hpc := hexact.mp ⟨c, hc, .inr ⟨hin, hnear⟩⟩
    -- two cells do not share a bit
    have hg := ((h.placed_of_mem_cells hc hin).granule_eq hp).mpr hnear
    have hinp : s.liveBitmap.hasAddress p = true := by
      rw [SpaceBitmap.hasAddress_iff, hg]
      exact (SpaceBitmap.hasAddress_iff _ _).mp hin
    obtain ⟨i, base, hb, hcell, -⟩ := small_of_mem_cells h hc hin
    obtain ⟨j, base', hb', hcell', -⟩ := small_of_mem_cells h hpc hinp
    exact hne (h.granule_inj hb hb' hcell hcell' hg.symm)
  · intro hnone
    refine ⟨?_, fun hc => ⟨p, hc, .inl rfl⟩⟩
    rintro ⟨c, hc, rfl | hnear⟩
    · exact hc
    · by_contra hpc
      exact hnone ⟨c, hc, fun heq => hpc (heq ▸ hc), hnear⟩

theorem isMarked_mark_heapPointer (h : s.Inv) (hp : s.isHeapPointer p = true) (hlt : p < 2 ^ 64)
    (hq : q ∈ s.cells) : (s.mark p).isMarked q = (decide (s.Hits p q) || s.isMarked q) := by
  by_cases hpc : p ∈ s.cells
  · -- a cell hits itself only
    rw [isMarked_mark h hpc hq]
    congr 1
    rw [decide_eq_decide]
    refine ⟨fun heq => .inl heq.symm, ?_⟩
    rintro (heq | hnear)
    · exact heq.symm
    · by_contra hne
      have hexact := (exactAt_iff h hlt).mp ⟨fun _ => hpc, fun _ => hp⟩
      exact hexact ⟨q, hq, hne, hnear⟩
  · have hin : s.liveBitmap.hasAddress p = true := by
      by_contra hout
      rw [Bool.not_eq_true] at hout
      rw [isHeapPointer, hout, if_neg Bool.false_ne_true, containsLarge, List.any_eq_true] at hp
      obtain ⟨a, ha, hap⟩ := hp
      exact hpc ((mem_cells h).mpr (.inr (List.mem_map.mpr ⟨a, ha, beq_iff_eq.mp hap⟩)))
    have hne : p ≠ q := fun heq => hpc (heq ▸ hq)
    rw [mark_eq_of_hasAddress hin, isMarked, isMarked]
    change (if s.liveBitmap.hasAddress q = true then (s.markBitmap.set p).test q else _) = _
    cases hin' : s.liveBitmap.hasAddress q with
    | true =>
      rw [if_pos rfl, if_pos rfl, SpaceBitmap.test_eq_bit, SpaceBitmap.granule_set,
        SpaceBitmap.bit_set, ← SpaceBitmap.test_eq_bit]
      congr 1
      rw [decide_eq_decide, h.geometry.granule_eq, h.geometry.granule_eq, eq_comm,
        (h.placed_of_mem_cells hq hin').granule_eq hlt]
      exact ⟨fun hnear => .inr ⟨hin', hnear⟩, fun hhit => (hhit.resolve_left hne).2⟩
    | false =>
      have hno : ¬ s.Hits p q := by
        rintro (heq | hnear)
        · exact hne heq
        · rw [hnear.1] at hin'
          cases hin'
      rw [if_neg Bool.false_ne_true, if_neg Bool.false_ne_true, decide_eq_false hno, Bool.false_or]

end Space

/-! ### The scan -/

namespace SlotVisitor

section Definitions

variable (spurious : ℕ → Bool) (memory : ℕ → BitVec 64)

/-- The loop of `add_conservative` over the words from `scan` on. -/
def scanWords (limit scan : ℕ) (v : SlotVisitor) : SlotVisitor :=
  if scan < limit then
    let ptr := (memory scan).toNat
    scanWords limit (scan + 8) (if v.space.isHeapPointer ptr then v.visit spurious ptr else v)
  else v
termination_by limit - scan

/-- `add_conservative`. The range may be given from either end. -/
def addConservative (v : SlotVisitor) (start stop : ℕ) : SlotVisitor :=
  if start > stop then scanWords spurious memory (wrappingSub start 8) stop v
  else scanWords spurious memory (wrappingSub stop 8) start v

/-- The words that the loop reads. -/
def wordsFrom (limit scan : ℕ) : List ℕ :=
  if scan < limit then (memory scan).toNat :: wordsFrom limit (scan + 8) else []
termination_by limit - scan

def wordsRead (start stop : ℕ) : List ℕ :=
  wordsFrom memory (wrappingSub (max start stop) 8) (min start stop)

end Definitions

variable {spurious : ℕ → Bool} {memory : ℕ → BitVec 64} {v : SlotVisitor} {limit scan start stop c w : ℕ}

theorem scanWords_eq (limit scan : ℕ) (v : SlotVisitor) :
    scanWords spurious memory limit scan v = v.visitAll spurious (wordsFrom memory limit scan) := by
  fun_induction wordsFrom memory limit scan generalizing v with
  | case1 scan hlt ih =>
    rw [scanWords, if_pos hlt, visitAll_cons]
    dsimp only
    rw [ih]
    congr 1
    split
    · rfl
    · next hp => rw [visit, if_neg hp]
  | case2 scan hlt =>
    rw [scanWords, if_neg hlt]
    rfl

theorem addConservative_eq (v : SlotVisitor) (start stop : ℕ) :
    v.addConservative spurious memory start stop = v.visitAll spurious (wordsRead memory start stop) := by
  unfold addConservative wordsRead
  split
  · next h => rw [scanWords_eq, max_eq_left h.le, min_eq_right h.le]
  · next h => rw [scanWords_eq, max_eq_right (not_lt.mp h), min_eq_left (not_lt.mp h)]

theorem mem_wordsFrom : w ∈ wordsFrom memory limit scan ↔
    ∃ k, scan + 8 * k < limit ∧ (memory (scan + 8 * k)).toNat = w := by
  fun_induction wordsFrom memory limit scan with
  | case1 scan hlt ih =>
    rw [List.mem_cons, ih]
    constructor
    · rintro (rfl | ⟨k, hk, rfl⟩)
      · exact ⟨0, hlt, rfl⟩
      · exact ⟨k + 1, by omega, by rw [show scan + 8 * (k + 1) = scan + 8 + 8 * k by omega]⟩
    · rintro ⟨_ | k, hk, rfl⟩
      · exact .inl rfl
      · exact .inr ⟨k, by omega, by rw [show scan + 8 * (k + 1) = scan + 8 + 8 * k by omega]⟩
  | case2 scan hlt =>
    refine ⟨fun h => absurd h List.not_mem_nil, ?_⟩
    rintro ⟨k, hk, -⟩
    omega

theorem lt_of_mem_wordsRead (h : w ∈ wordsRead memory start stop) : w < 2 ^ 64 := by
  obtain ⟨k, -, rfl⟩ := mem_wordsFrom.mp h
  exact (memory _).isLt

/-! ### What the visits mark -/

/-- The number of the exchange that is tried for a heap pointer counts the heap pointers before it. -/
def Marks (spurious : ℕ → Bool) (v : SlotVisitor) (ps : List ℕ) (c : ℕ) : Prop :=
  ∃ k p, (ps.filter v.space.isHeapPointer)[k]? = some p ∧ v.space.Hits p c ∧
    (v.space.objects p).state = .white ∧ spurious (v.exchanges + k) = false

theorem visit_heapPointer {p : ℕ} (hp : v.space.isHeapPointer p = true) : v.visit spurious p =
    if (v.space.objects p).state = .white ∧ spurious v.exchanges = false then
      ⟨(v.space.forceSetState p .grey).mark p, p :: v.queue, v.exchanges + 1, v.traced⟩
    else { v with exchanges := v.exchanges + 1 } := by
  rw [visit, if_pos hp, setState]
  by_cases hok : (v.space.objects p).state = .white ∧ spurious v.exchanges = false
  · rw [if_pos hok, if_pos hok]
    rfl
  · rw [if_neg hok, if_neg hok]
    rfl

/-- **What visiting some words marks**, for a cell: it was marked before, or one of the words is a heap
pointer that hits it and finds a white header, with an exchange that does not fail. -/
theorem isMarked_visitAll (hinv : v.space.Inv) (hord : v.space.Ordered) (hc : c ∈ v.space.cells)
    (ps : List ℕ) (hps : ∀ p ∈ ps, p < 2 ^ 64) :
    (v.visitAll spurious ps).space.isMarked c = true ↔
      v.space.isMarked c = true ∨ Marks spurious v ps c := by
  induction ps generalizing v with
  | nil =>
    have hno : ¬ Marks spurious v [] c := by
      rintro ⟨k, p, hk, -⟩
      cases hk
    exact (or_iff_left hno).symm
  | cons p ps ih =>
    obtain ⟨hp, hps⟩ := List.forall_mem_cons.mp hps
    have hkeeps := @keeps_visit spurious v p hinv hord
    rw [visitAll_cons, ih hkeeps.inv hkeeps.ordered (hkeeps.graph.cells.symm ▸ hc) hps]
    have hfilter : ps.filter (v.visit spurious p).space.isHeapPointer =
        ps.filter v.space.isHeapPointer :=
      List.filter_congr fun q _ => hkeeps.graph.isHeapPointer q
    have hhits : ∀ q, (v.visit spurious p).space.Hits q c ↔ v.space.Hits q c := fun q => by
      unfold Space.Hits Space.NearCell
      rw [hkeeps.graph.live]
    unfold Marks
    simp only [hfilter, hhits]
    cases hheap : v.space.isHeapPointer p with
    | false =>
      have hsame : v.visit spurious p = v := by rw [visit, hheap, if_neg Bool.false_ne_true]
      rw [hsame, List.filter_cons_of_neg (by rw [hheap]; exact Bool.false_ne_true)]
    | true =>
      rw [List.filter_cons_of_pos hheap, visit_heapPointer hheap]
      split
      · next hok =>
        have hgrey : ((v.space.forceSetState p .grey).mark p).isMarked c =
            (decide (v.space.Hits p c) || v.space.isMarked c) := by
          have hgraph := Space.sameGraph_forceSetState v.space p .grey
          rw [Space.isMarked_mark_heapPointer (Space.inv_forceSetState hinv)
            ((hgraph.isHeapPointer p).trans hheap) hp (hgraph.cells.symm ▸ hc),
            Space.isMarked_forceSetState]
          rfl
        have hstate : ∀ q, (((v.space.forceSetState p .grey).mark p).objects q).state =
            if q = p then CellState.grey else (v.space.objects q).state := fun q => by
          rw [Space.objects_mark, Space.objects_forceSetState]
          split <;> rfl
        simp only [hgrey, hstate, Bool.or_eq_true, decide_eq_true_eq]
        constructor
        · rintro ((hhit | hmarked) | ⟨k, q, hk, hq, hwhite, hex⟩)
          · exact .inr ⟨0, p, rfl, hhit, hok⟩
          · exact .inl hmarked
          · split at hwhite
            · cases hwhite
            · exact .inr ⟨k + 1, q, hk, hq, hwhite, by rwa [← Nat.add_assoc, Nat.add_right_comm]⟩
        · rintro (hmarked | ⟨_ | k, q, hk, hq, hwhite, hex⟩)
          · exact .inl (.inr hmarked)
          · cases hk
            exact .inl (.inl hq)
          · by_cases hqp : q = p
            · exact .inl (.inl (hqp ▸ hq))
            · refine .inr ⟨k, q, hk, hq, ?_, by rwa [Nat.add_right_comm, Nat.add_assoc]⟩
              rw [if_neg hqp]
              exact hwhite
      · next hno =>
        refine or_congr_right ⟨?_, ?_⟩
        · rintro ⟨k, q, hk, hq, hwhite, hex⟩
          exact ⟨k + 1, q, hk, hq, hwhite, by rwa [← Nat.add_assoc, Nat.add_right_comm]⟩
        · rintro ⟨_ | k, q, hk, hq, hwhite, hex⟩
          · cases hk
            exact absurd ⟨hwhite, hex⟩ hno
          · exact ⟨k, q, hk, hq, hwhite, by rwa [Nat.add_right_comm, Nat.add_assoc]⟩

end SlotVisitor

/-! ### Complete scans -/

namespace Heap

open SlotVisitor Space

variable {allowed : (ℕ → Bool) → Prop} {h : Heap} {spurious : ℕ → Bool} {memory : ℕ → BitVec 64}
  {start stop p : ℕ}

/-- A word of a range, at an aligned address. -/
structure InRange (start stop a : ℕ) : Prop where
  aligned : 8 ∣ a
  low : min start stop ≤ a
  high : a + 8 ≤ max start stop

/-- The scan at the start of a collection marks each cell that a word of the range points to. -/
def ScansAll (h : Heap) (spurious : ℕ → Bool) (memory : ℕ → BitVec 64) (start stop : ℕ) : Prop :=
  ∀ a, InRange start stop a → (memory a).toNat ∈ h.space.cells →
    ((SlotVisitor.start h.space).addConservative spurious memory start stop).space.isMarked
      (memory a).toNat = true

/-- A cell that is marked, or that the words that are read mark. -/
def Covered (h : Heap) (spurious : ℕ → Bool) (memory : ℕ → BitVec 64) (start stop c : ℕ) : Prop :=
  h.space.isMarked c = true ∨
    Marks spurious (SlotVisitor.start h.space) (wordsRead memory start stop) c

theorem isMarked_addConservative (hr : Reachable allowed h) {c : ℕ} (hc : c ∈ h.space.cells) :
    ((SlotVisitor.start h.space).addConservative spurious memory start stop).space.isMarked c = true ↔
      h.Covered spurious memory start stop c := by
  have hconsistent := hr.consistent
  rw [addConservative_eq, Covered]
  exact @isMarked_visitAll spurious (SlotVisitor.start h.space) c hconsistent.inv hconsistent.ordered hc
    (wordsRead memory start stop) fun p hp => lt_of_mem_wordsRead hp

theorem mem_wordsRead_of_aligned (hstart : 8 ∣ start) (hstop : 8 ∣ stop) (hne : start ≠ stop)
    (hlt : max start stop < 2 ^ 64) {w : ℕ} : w ∈ wordsRead memory start stop ↔
      ∃ a, InRange start stop a ∧ a + 8 ≠ max start stop ∧ (memory a).toNat = w := by
  have hlimit : wrappingSub (max start stop) 8 = max start stop - 8 :=
    wrappingSub_of_le (by omega) hlt
  rw [wordsRead, mem_wordsFrom, hlimit]
  constructor
  · rintro ⟨k, hk, rfl⟩
    exact ⟨min start stop + 8 * k, ⟨by omega, by omega, by omega⟩, by omega, rfl⟩
  · rintro ⟨a, ⟨haligned, hlow, hhigh⟩, hlast, rfl⟩
    have ha : min start stop + 8 * ((a - min start stop) / 8) = a := by omega
    exact ⟨(a - min start stop) / 8, by omega, by rw [ha]⟩

theorem covered_of_mem (hstrong : ∀ n, spurious n = false) (hready : Ready h.space) {c : ℕ}
    (hc : c ∈ h.space.cells) (hw : c ∈ wordsRead memory start stop) :
    h.Covered spurious memory start stop c := by
  have hheap := isHeapPointer_of_mem_cells hready.inv hc
  obtain ⟨k, hk⟩ := List.mem_iff_getElem?.mp (List.mem_filter.mpr ⟨hw, hheap⟩)
  exact .inr ⟨k, c, hk, .inl rfl, hready.white c hc, hstrong _⟩

def oneWord (a : ℕ) : BitVec 64 := if a = 8 then 32680 else 0

end Heap

end Starlight.Gc
