import Starlight.Gc.Heap

/-!
# The invariant of the heap

In every reachable heap the space is consistent and the registered weak slots are live small cells,
whose small targets are live (`Consistent`). When no exchange fails spuriously, all cells are white
between collections, so marking can start.
-/

namespace Starlight.Gc

namespace Space

variable {s s' : Space} {p c size cell : ℕ}

/-! ### The cells after an allocation -/

theorem mem_cells_allocatesSmall (h : s.Inv) (hp : s.AllocatesSmall size p s') :
    c ∈ s'.cells ↔ c ∈ s.cells ∨ c = p := by
  obtain ⟨base', hb', hp'⟩ := hp.cell
  have hgranule : ∀ a, s'.liveBitmap.granule a = s.liveBitmap.granule a := by
    intro a
    rw [hp.live, SpaceBitmap.granule_set]
  have htest : ∀ a, s'.liveBitmap.test a =
      (decide (s.liveBitmap.granule a = s.liveBitmap.granule p) || s.liveBitmap.test a) := by
    intro a
    rw [SpaceBitmap.test_eq_bit, SpaceBitmap.test_eq_bit, hp.live, SpaceBitmap.granule_set,
      SpaceBitmap.bit_set]
  rw [mem_cells hp.inv, mem_cells h, hp.grows.precise, or_right_comm]
  refine or_congr_left ⟨?_, ?_⟩
  · rintro ⟨i, base, hb, hc, hlive⟩
    rw [htest, Bool.or_eq_true, decide_eq_true_iff] at hlive
    rcases hlive with hg | hlive
    · exact Or.inr (hp.inv.granule_inj hb hb' hc hp' (by rw [hgranule, hgranule, hg]))
    · -- the old live bit belongs to a cell of an old block, and that is the same cell
      have hhas := (SpaceBitmap.hasAddress_iff _ _).mp (hp.inv.hasAddress_cell hb hc)
      rw [hgranule, hp.live, SpaceBitmap.size_set] at hhas
      rw [SpaceBitmap.test_eq_bit] at hlive
      obtain ⟨j, b, hj, d, hd, hdg⟩ := h.liveCells.live_cell _ hhas hlive
      have hd' : d ∈ s'.blockCells b := (hp.grows.blockCells j b hj).symm ▸ hd
      have hdc : d = c := hp.inv.granule_inj (hp.grows.dirBlocks j b hj) hb hd' hc (by
        rw [hgranule, hgranule, hdg])
      subst hdc
      exact Or.inl ⟨j, b, hj, hd, by rw [SpaceBitmap.test_eq_bit]; exact hlive⟩
  · rintro (⟨i, base, hb, hc, hlive⟩ | rfl)
    · refine ⟨i, base, hp.grows.dirBlocks i base hb, ?_, ?_⟩
      · exact (hp.grows.blockCells i base hb).symm ▸ hc
      · rw [htest, hlive, Bool.or_true]
    · exact ⟨_, base', hb', hp', by rw [htest, decide_eq_true rfl, Bool.true_or]⟩

theorem notMem_cells_of_dead (h : s.Inv) (hp : s.AllocatesSmall size p s') : p ∉ s.cells := by
  intro hmem
  obtain ⟨base', hb', hp'⟩ := hp.cell
  have hin := hp.inv.hasAddress_cell hb' hp'
  rw [hp.live, SpaceBitmap.hasAddress_set] at hin
  obtain ⟨-, -, -, -, hlive⟩ := small_of_mem_cells h hmem hin
  rw [hp.dead] at hlive
  exact Bool.false_ne_true hlive

/-- What an allocation does to the cells: one is added, and no other changes. -/
structure AddsCell (s : Space) (p : ℕ) (s' : Space) : Prop where
  inv : s'.Inv
  ordered : s'.Ordered
  cells : ∀ c, c ∈ s'.cells ↔ c ∈ s.cells ∨ c = p
  fresh : p ∉ s.cells
  objects : s'.objects = s.objects
  hasAddress : ∀ a, s'.liveBitmap.hasAddress a = s.liveBitmap.hasAddress a
  small : size ≤ LARGE_CUTOFF → s.liveBitmap.hasAddress p = true

theorem addsCell_allocate {ptr : Option ℕ} (h : s.Inv) (ho : s.Ordered)
    (hcell : LARGE_CUTOFF < size → s.FreshLarge cell)
    (halloc : s.allocate size cell = some (ptr, s')) :
    @AddsCell size s (ptr.getD 0) s' := by
  by_cases hsize : size ≤ LARGE_CUTOFF
  · obtain ⟨p, rfl, hp⟩ := allocatesSmall_allocate h ho hsize halloc
    obtain ⟨base', hb', hp'⟩ := hp.cell
    have hin := hp.inv.hasAddress_cell hb' hp'
    rw [hp.live, SpaceBitmap.hasAddress_set] at hin
    refine ⟨hp.inv, hp.ordered, fun c => mem_cells_allocatesSmall h hp, notMem_cells_of_dead h hp,
      hp.grows.objects, fun a => by rw [hp.live, SpaceBitmap.hasAddress_set], fun _ => hin⟩
  · rw [allocate, if_neg hsize, Option.some.injEq, Prod.mk.injEq] at halloc
    obtain ⟨rfl, rfl⟩ := halloc
    obtain ⟨hfresh, hout⟩ := hcell (not_le.mp hsize)
    have hinv := @inv_allocateLarge s size cell h hfresh hout
    refine ⟨hinv, ordered_allocateLarge ho, fun c => ?_, fun hmem => ?_, rfl, fun _ => rfl,
      fun h => absurd h hsize⟩
    · rw [mem_cells hinv, mem_cells h, or_assoc]
      refine or_congr_right ?_
      change c ∈ (s.preciseAllocations ++ _).map _ ↔ _
      rw [List.map_append, List.mem_append, List.map_singleton, List.mem_singleton]
      exact Iff.rfl
    · obtain ⟨a, ha, hac⟩ := large_of_mem_cells h hmem hout
      have hac' : a.cell = cell := hac
      exact hfresh (hac' ▸ List.mem_map_of_mem ha)

/-! ### Writing to a cell -/

theorem objects_setObject {a b : ℕ} {obj : Obj} :
    (s.setObject a obj).objects b = if b = a then obj else s.objects b :=
  Function.update_apply _ _ _ _

/-! ### The weak phase -/

theorem updateWeakReferences_spec (refs : List ℕ) (s : Space) :
    ∃ objects, refs.foldl updateWeakReference s = { s with objects := objects } ∧
      (∀ a, (objects a).state = (s.objects a).state) ∧
      (∀ a ∉ refs, objects a = s.objects a) ∧
      ∀ a ∈ refs, (objects a).payload = s.keepMarked (s.objects a).payload := by
  induction refs generalizing s with
  | nil => exact ⟨s.objects, rfl, fun _ => rfl, fun _ _ => rfl, fun _ h => absurd h List.not_mem_nil⟩
  | cons w refs ih =>
    obtain ⟨objects, heq, hstate, hother, hslot⟩ := ih (s.updateWeakReference w)
    have hone : ∀ a, (s.updateWeakReference w).objects a =
        if a = w then { s.objects w with payload := s.keepMarked (s.objects w).payload }
        else s.objects a := fun a => objects_setObject
    have hkeep : ∀ payload, (s.updateWeakReference w).keepMarked payload = s.keepMarked payload :=
      fun _ => rfl
    have hidem : ∀ payload, s.keepMarked (s.keepMarked payload) = s.keepMarked payload := by
      intro payload
      cases payload with
      | cell fields => rfl
      | weakSlot value =>
        cases value with
        | none => rfl
        | some val =>
          cases hm : s.markBitmap.test val with
          | true => simp only [keepMarked, hm, if_true]
          | false => simp only [keepMarked, hm, Bool.false_eq_true, if_false]
    refine ⟨objects, ?_, fun a => ?_, fun a ha => ?_, fun a ha => ?_⟩
    · rw [List.foldl_cons, heq]
      rfl
    · rw [hstate a, hone a]
      split
      · next h => rw [h]
      · rfl
    · rw [List.mem_cons, not_or] at ha
      rw [hother a ha.2, hone a, if_neg ha.1]
    · by_cases hmem : a ∈ refs
      · rw [hslot a hmem, hkeep, hone a]
        split
        · next h => rw [hidem, h]
        · rfl
      · have haw := (List.mem_cons.mp ha).resolve_right hmem
        rw [hother a hmem, hone a, if_pos haw, haw]

/-! ### The cells after a sweep -/

theorem mem_cells_sweep (h : s.Inv) (ho : s.Ordered) :
    c ∈ s.sweep.cells ↔ c ∈ s.cells ∧ s.isMarked c = true := by
  have hswept := swept_sweep h ho
  rw [mem_cells hswept.inv, mem_cells h]
  constructor
  · rintro (⟨i, base, hb, hc, hlive⟩ | hlarge)
    · have hb₀ := hswept.dirBlocks i base hb
      rw [hswept.cells i base hb] at hc
      rw [hswept.live i base hb₀ c hc, keeps, Bool.and_eq_true] at hlive
      refine ⟨Or.inl ⟨i, base, hb₀, hc, hlive.1⟩, ?_⟩
      rw [isMarked, h.hasAddress_cell hb₀ hc, if_pos rfl]
      exact hlive.2
    · obtain ⟨a, ha, rfl⟩ := List.mem_map.mp hlarge
      rw [hswept.precise] at ha
      obtain ⟨ha, hmarked⟩ := List.mem_filter.mp ha
      refine ⟨Or.inr (List.mem_map_of_mem ha), ?_⟩
      rw [isMarked, h.largeCells.outside a ha, if_neg Bool.false_ne_true, List.any_eq_true]
      refine ⟨a, ha, ?_⟩
      rw [hmarked, Bool.and_true]
      exact beq_self_eq_true _
  · rintro ⟨⟨i, base, hb, hc, hlive⟩ | hlarge, hmarked⟩
    · rw [isMarked, h.hasAddress_cell hb hc, if_pos rfl] at hmarked
      have hkeeps : s.keeps c = true := by rw [keeps, hlive, hmarked]; rfl
      rcases hswept.kept i base hb with hkept | hdead
      · refine Or.inl ⟨i, base, hkept, ?_, ?_⟩
        · rw [hswept.cells i base hkept]
          exact hc
        · rw [hswept.live i base hb c hc]
          exact hkeeps
      · rw [hdead c hc] at hkeeps
        exact absurd hkeeps Bool.false_ne_true
    · obtain ⟨a, ha, rfl⟩ := List.mem_map.mp hlarge
      rw [isMarked, h.largeCells.outside a ha, if_neg Bool.false_ne_true, List.any_eq_true] at hmarked
      obtain ⟨b, hb, hba⟩ := hmarked
      simp only [Bool.and_eq_true, beq_iff_eq] at hba
      refine Or.inr ?_
      rw [hswept.precise, ← hba.1]
      exact List.mem_map_of_mem (List.mem_filter.mpr ⟨hb, hba.2⟩)

theorem white_sweep (h : s.Inv) (ho : s.Ordered) (hc : c ∈ s.sweep.cells) :
    (s.sweep.objects c).state = .white := by
  have hswept := swept_sweep h ho
  rcases (mem_cells hswept.inv).mp hc with ⟨i, base, hb, hcell, hlive⟩ | hlarge
  · have hb₀ := hswept.dirBlocks i base hb
    rw [hswept.cells i base hb] at hcell
    rw [hswept.live i base hb₀ c hcell] at hlive
    exact hswept.white_small i base hb₀ c hcell hlive
  · obtain ⟨a, ha, rfl⟩ := List.mem_map.mp hlarge
    exact hswept.white_large a ha

end Space

/-! ### The invariant -/

namespace Heap

variable {h h' : Heap} {allowed : (ℕ → Bool) → Prop} {p c w t : ℕ}

/-- The space is consistent; the registered weak slots are live small cells, and their small targets
are live cells. -/
structure Consistent (h : Heap) : Prop where
  inv : h.space.Inv
  ordered : h.space.Ordered
  slot_cell : ∀ w ∈ h.weakRefs, w ∈ h.space.cells
  slot_small : ∀ w ∈ h.weakRefs, h.space.liveBitmap.hasAddress w = true
  slot_payload : ∀ w ∈ h.weakRefs, ∃ value, (h.space.objects w).payload = .weakSlot value
  target : ∀ w ∈ h.weakRefs, ∀ t, h.upgrade w = some t →
    h.space.liveBitmap.hasAddress t = true → t ∈ h.space.cells

theorem upgrade_eq {value : Option ℕ} (hw : (h.space.objects w).payload = .weakSlot value) :
    h.upgrade w = value := by
  rw [upgrade, hw]

theorem upgrade_congr (heq : (h'.space.objects w).payload = (h.space.objects w).payload) :
    h'.upgrade w = h.upgrade w := by
  rw [upgrade, heq, upgrade]

structure Allocates (h : Heap) (value : Payload) (p : ℕ) (h' : Heap) : Prop where
  inv : h'.space.Inv
  ordered : h'.space.Ordered
  cells : ∀ c, c ∈ h'.space.cells ↔ c ∈ h.space.cells ∨ c = p
  fresh : p ∉ h.space.cells
  object : h'.space.objects p = ⟨.white, value⟩
  others : ∀ c, c ≠ p → h'.space.objects c = h.space.objects c
  hasAddress : ∀ a, h'.space.liveBitmap.hasAddress a = h.space.liveBitmap.hasAddress a
  weakRefs : h'.weakRefs = h.weakRefs

theorem allocates_allocate {computeSize cell : ℕ} {value : Payload} (hc : h.Consistent)
    (hcell : LARGE_CUTOFF < computeSize + 48 → h.space.FreshLarge cell)
    (heq : h.allocate computeSize value cell = some (p, h')) :
    h.Allocates value p h' ∧
      (computeSize + 48 ≤ LARGE_CUTOFF → h.space.liveBitmap.hasAddress p = true) := by
  simp only [allocate, Option.bind_eq_bind, Option.bind_eq_some_iff, Prod.exists,
    Option.some.injEq, Prod.mk.injEq] at heq
  obtain ⟨ptr, s, halloc, rfl, rfl⟩ := heq
  have hadds := Space.addsCell_allocate hc.inv hc.ordered hcell halloc
  refine ⟨⟨Space.inv_setObject hadds.inv, Space.ordered_setObject hadds.ordered, hadds.cells,
    hadds.fresh, ?_, fun c hne => ?_, hadds.hasAddress, rfl⟩, hadds.small⟩
  · exact Space.objects_setObject.trans (if_pos rfl)
  · rw [← hadds.objects]
    exact Space.objects_setObject.trans (if_neg hne)

theorem consistent_allocates {value : Payload} (hc : h.Consistent) (ha : h.Allocates value p h') :
    h'.Consistent := by
  have hne : ∀ w ∈ h.weakRefs, w ≠ p := by
    rintro w hw rfl
    exact ha.fresh (hc.slot_cell w hw)
  refine ⟨ha.inv, ha.ordered, ?_, ?_, ?_, ?_⟩
  · intro w hw
    rw [ha.weakRefs] at hw
    exact (ha.cells w).mpr (Or.inl (hc.slot_cell w hw))
  · intro w hw
    rw [ha.weakRefs] at hw
    rw [ha.hasAddress]
    exact hc.slot_small w hw
  · intro w hw
    rw [ha.weakRefs] at hw
    rw [ha.others w (hne w hw)]
    exact hc.slot_payload w hw
  · intro w hw t ht hin
    rw [ha.weakRefs] at hw
    rw [ha.hasAddress] at hin
    rw [upgrade_congr (congrArg Obj.payload (ha.others w (hne w hw)))] at ht
    exact (ha.cells t).mpr (Or.inl (hc.target w hw t ht hin))

theorem makeWeak_cases {target : Option ℕ} (heq : h.makeWeak target = some (p, h')) :
    ∃ h₁, h.allocate 8 (.weakSlot target) 0 = some (p, h₁) ∧
      h' = { h₁ with weakRefs := h₁.weakRefs ++ [p] } := by
  obtain ⟨⟨w, h₁⟩, halloc, heq⟩ := Option.bind_eq_some_iff.mp heq
  obtain ⟨rfl, rfl⟩ := Prod.mk.inj (Option.some.inj heq)
  exact ⟨h₁, halloc, rfl⟩

theorem undefer_cases (heq : h.undefer = some h') : h' = { h with defers := h.defers - 1 } := by
  rw [undefer] at heq
  split at heq
  · cases heq
  · exact (Option.some.inj heq).symm

theorem consistent_makeWeak {target : Option ℕ} (hc : h.Consistent)
    (htarget : ∀ t ∈ target, t ∈ h.space.cells) (heq : h.makeWeak target = some (p, h')) :
    h'.Consistent := by
  obtain ⟨h₁, halloc, rfl⟩ := makeWeak_cases heq
  obtain ⟨ha, hsmall⟩ := allocates_allocate hc (fun h => absurd h (by decide)) halloc
  have hc₁ := consistent_allocates hc ha
  have hpayload : (h₁.space.objects p).payload = .weakSlot target := by rw [ha.object]
  have hslots : ∀ x, x ∈ h₁.weakRefs ++ [p] → x ∈ h₁.weakRefs ∨ x = p := by
    intro x hx
    exact (List.mem_append.mp hx).imp_right List.mem_singleton.mp
  refine ⟨ha.inv, ha.ordered, fun x hx => ?_, fun x hx => ?_, fun x hx => ?_, fun x hx t ht hin => ?_⟩
  · rcases hslots x hx with hx | rfl
    · exact hc₁.slot_cell x hx
    · exact (ha.cells x).mpr (Or.inr rfl)
  · rcases hslots x hx with hx | rfl
    · exact hc₁.slot_small x hx
    · exact (ha.hasAddress x).trans (hsmall (by decide))
  · rcases hslots x hx with hx | rfl
    · exact hc₁.slot_payload x hx
    · exact ⟨target, hpayload⟩
  · rcases hslots x hx with hx | rfl
    · exact hc₁.target x hx t ht hin
    · have hvalue : target = some t := (upgrade_eq hpayload).symm.trans ht
      exact (ha.cells t).mpr (Or.inl (htarget t hvalue))

theorem consistent_write {old fields : List ℕ} (hc : h.Consistent)
    (hp : (h.space.objects p).payload = .cell old) : (h.write p fields).Consistent := by
  have hne : ∀ w ∈ h.weakRefs, w ≠ p := by
    rintro w hw rfl
    obtain ⟨value, hvalue⟩ := hc.slot_payload w hw
    exact Payload.noConfusion (hvalue.symm.trans hp)
  have hobjects : ∀ w ∈ h.weakRefs, (h.write p fields).space.objects w = h.space.objects w :=
    fun w hw => Space.objects_setObject.trans (if_neg (hne w hw))
  refine ⟨Space.inv_setObject hc.inv, Space.ordered_setObject hc.ordered, hc.slot_cell,
    hc.slot_small, fun w hw => ?_, fun w hw t ht hin => ?_⟩
  · rw [hobjects w hw]
    exact hc.slot_payload w hw
  · rw [upgrade_congr (congrArg Obj.payload (hobjects w hw))] at ht
    exact hc.target w hw t ht hin

theorem consistent_sameGraph {s : Space} (hc : h.Consistent) (hg : h.space.SameGraph s)
    (hinv : s.Inv) (hord : s.Ordered) : ({ h with space := s } : Heap).Consistent := by
  refine ⟨hinv, hord, fun w hw => ?_, fun w hw => ?_, fun w hw => ?_, fun w hw t ht hin => ?_⟩
  · change w ∈ s.cells
    rw [hg.cells]
    exact hc.slot_cell w hw
  · change s.liveBitmap.hasAddress w = true
    rw [hg.live]
    exact hc.slot_small w hw
  · change ∃ value, (s.objects w).payload = _
    rw [hg.payload]
    exact hc.slot_payload w hw
  · rw [upgrade_congr (h := h) (hg.payload w)] at ht
    change t ∈ s.cells
    change s.liveBitmap.hasAddress t = true at hin
    rw [hg.live] at hin
    rw [hg.cells]
    exact hc.target w hw t ht hin

/-! ### Walking a context -/

open SlotVisitor

variable {spurious : ℕ → Bool} {v : SlotVisitor} {roots : List ℕ} {fuel : ℕ}
  {beyond : ℕ → BitVec 64}

/-- `walk_in_context` turns the cells it traced white again. -/
def whiten (spurious : ℕ → Bool) (v : SlotVisitor) (l : List ℕ) : SlotVisitor :=
  l.foldl (fun v p => (v.setState spurious p .black .white).2) v

theorem keeps_whiten (l : List ℕ) (hs : v.space.Inv) (ho : v.space.Ordered) :
    v.Keeps (whiten spurious v l) := by
  induction l generalizing v with
  | nil => exact .refl hs ho
  | cons p l ih =>
    have hone := @keeps_setState spurious v p hs ho .black .white
    exact hone.trans (ih hone.inv hone.ordered)

theorem state_whiten (hstrong : ∀ n, spurious n = false) (l : List ℕ) (v : SlotVisitor) (c : ℕ) :
    ((whiten spurious v l).space.objects c).state =
      if c ∈ l ∧ (v.space.objects c).state = .black then .white else (v.space.objects c).state := by
  induction l generalizing v with
  | nil => simp [whiten]
  | cons p l ih =>
    have hone : ((v.setState spurious p .black .white).2.space.objects c).state =
        if c = p ∧ (v.space.objects c).state = .black then .white
        else (v.space.objects c).state := by
      rw [setState]
      by_cases hb : (v.space.objects p).state = .black ∧ spurious v.exchanges = false
      · rw [if_pos hb]
        change ((v.space.forceSetState p .white).objects c).state = _
        rw [Space.objects_forceSetState]
        by_cases hcp : c = p
        · rw [if_pos hcp, if_pos ⟨hcp, hcp ▸ hb.1⟩]
        · rw [if_neg hcp, if_neg fun h => hcp h.1]
      · rw [if_neg hb, if_neg]
        rintro ⟨rfl, hblack⟩
        exact hb ⟨hblack, hstrong _⟩
    have hstep : whiten spurious v (p :: l) =
        whiten spurious (v.setState spurious p .black .white).2 l := rfl
    rw [hstep, ih, hone]
    by_cases hcp : c = p
    · by_cases hb : (v.space.objects c).state = .black
      · simp [hcp, hcp ▸ hb]
      · simp [hcp, hcp ▸ hb]
    · simp [hcp]

theorem walkInContext_cases (heq : h.walkInContext spurious roots fuel = some h') :
    ∃ v, marking spurious h.space roots fuel = some v ∧
      h' = { h with space := (whiten spurious v v.traced).space } := by
  obtain ⟨v, hv, heq⟩ := Option.bind_eq_some_iff.mp heq
  exact ⟨v, hv, (Option.some.inj heq).symm⟩

theorem consistent_walkInContext (hc : h.Consistent)
    (heq : h.walkInContext spurious roots fuel = some h') : h'.Consistent := by
  obtain ⟨v, hv, rfl⟩ := walkInContext_cases heq
  have hkeeps := keeps_marking hc.inv hc.ordered hv
  have hwhiten := @keeps_whiten spurious v v.traced hkeeps.inv hkeeps.ordered
  have hall := hkeeps.trans hwhiten
  exact consistent_sameGraph hc hall.graph hall.inv hall.ordered

theorem white_walkInContext (hstrong : ∀ n, spurious n = false) (hready : Ready h.space)
    (hwf : PointsToCells h.space roots) (heq : h.walkInContext spurious roots fuel = some h') :
    ∀ c ∈ h'.space.cells, (h'.space.objects c).state = .white := by
  obtain ⟨v, hv, rfl⟩ := walkInContext_cases heq
  have hkeeps := keeps_marking hready.inv hready.ordered hv
  have hall := hkeeps.trans (@keeps_whiten spurious v v.traced hkeeps.inv hkeeps.ordered)
  obtain ⟨hmark, hnil⟩ := marking_spec hready.inv hready.ordered hwf hv
  intro c hcell
  have hcell' : c ∈ h.space.cells := hall.graph.cells ▸ hcell
  change ((whiten spurious v v.traced).space.objects c).state = .white
  rw [state_whiten hstrong]
  by_cases ht : c ∈ v.traced
  · rw [if_pos ⟨ht, black_marking hstrong hready hwf hv c ht⟩]
  · rw [if_neg fun h => ht h.1, hmark.untouched c ?_]
    · exact hready.white c hcell'
    · rw [mem_seen, hnil]
      exact fun h => h.elim List.not_mem_nil ht

/-! ### The weak phase -/

theorem test_withBeyond {s : Space} (hg : s.Geometry) (hin : s.liveBitmap.hasAddress p = true) :
    (s.withBeyond beyond).markBitmap.test p = s.markBitmap.test p := by
  have hword : (s.withBeyond beyond).markBitmap.word (s.markBitmap.granule p / 64) =
      s.markBitmap.word (s.markBitmap.granule p / 64) := by
    refine if_pos ?_
    rw [SpaceBitmap.hasAddress_iff] at hin
    rwa [hg.granule_eq, hg.mark_size]
  rw [SpaceBitmap.test_eq_bit, SpaceBitmap.test_eq_bit, SpaceBitmap.bit, SpaceBitmap.bit]
  exact congrArg (fun word : BitVec 64 => word.getLsbD (s.markBitmap.granule p % 64)) hword

theorem inv_withBeyond {s : Space} (hs : s.Inv) : (s.withBeyond beyond).Inv where
  geometry := { hs.geometry with }
  directories := { hs.directories with }
  liveCells := by
    refine { hs.liveCells with mark_live := fun g hg hbit => ?_ }
    refine hs.liveCells.mark_live g hg ?_
    have hword : (s.withBeyond beyond).markBitmap.word (g / 64) = s.markBitmap.word (g / 64) := by
      refine if_pos ?_
      rw [hs.geometry.mark_size]
      exact hg
    rw [SpaceBitmap.bit, show SpaceBitmap.BITS_PER_INTPTR = 64 from rfl, hword] at hbit
    exact hbit
  largeCells := { hs.largeCells with }

/-- What the weak phase does: slots keep the targets whose bit is set, and nothing else changes. -/
structure WeakPhase (h : Heap) (s : Space) (h' : Heap) : Prop where
  inv : h'.space.Inv
  ordered : h'.space.Ordered
  cells : h'.space.cells = s.cells
  live : h'.space.liveBitmap = s.liveBitmap
  mark : h'.space.markBitmap = s.markBitmap
  precise : h'.space.preciseAllocations = s.preciseAllocations
  slots : ∀ w ∈ h.weakRefs, (h'.space.objects w).payload = s.keepMarked (s.objects w).payload
  others : ∀ a ∉ h.weakRefs, h'.space.objects a = s.objects a
  weakRefs : h'.weakRefs = h.weakRefs.filter s.markBitmap.test

theorem weakPhase_spec (hs : v.space.Inv) (ho : v.space.Ordered) :
    WeakPhase h (v.space.withBeyond beyond) (h.weakPhase v beyond) := by
  obtain ⟨objects, heq, hstate, hother, hslot⟩ :=
    Space.updateWeakReferences_spec h.weakRefs (v.space.withBeyond beyond)
  have hspace : (h.weakPhase v beyond).space =
      { v.space.withBeyond beyond with objects := objects } := heq
  have hinv := @inv_withBeyond beyond v.space hs
  have hrefs : (h.weakPhase v beyond).weakRefs =
      h.weakRefs.filter (h.weakPhase v beyond).space.markBitmap.test := rfl
  refine { inv := ?inv, ordered := ?ordered, cells := ?cells, live := ?live, mark := ?mark,
           precise := ?precise, slots := ?slots, others := ?others, weakRefs := ?weakRefs }
  case inv =>
    rw [hspace]
    exact ⟨{ hinv.geometry with },
      { hinv.directories with },
      { hinv.liveCells with },
      ⟨hinv.largeCells.1, hinv.largeCells.2⟩⟩
  case ordered =>
    rw [hspace]
    exact ⟨ho.behind_current, ho.unavail_full⟩
  case cells =>
    rw [hspace]
    rfl
  case live =>
    rw [hspace]
  case mark =>
    rw [hspace]
  case precise =>
    rw [hspace]
  case slots =>
    rw [hspace]
    exact hslot
  case others =>
    rw [hspace]
    exact hother
  case weakRefs =>
    rw [hrefs, hspace]

theorem upgrade_weakPhase (hc : h.Consistent) (hk : (start h.space).Keeps v)
    (hw : w ∈ h.weakRefs) : (h.weakPhase v beyond).upgrade w =
      (h.upgrade w).filter (v.space.withBeyond beyond).markBitmap.test := by
  have hphase := @weakPhase_spec h v beyond hk.inv hk.ordered
  obtain ⟨value, hvalue⟩ := hc.slot_payload w hw
  have hpayload : ((v.space.withBeyond beyond).objects w).payload = .weakSlot value :=
    (hk.graph.payload w).trans hvalue
  have hslot := hphase.slots w hw
  rw [hpayload] at hslot
  rw [upgrade_eq hvalue]
  cases value with
  | none => exact upgrade_eq hslot
  | some t =>
    rw [Space.keepMarked] at hslot
    rw [Option.filter_some]
    split at hslot
    · next hm => rw [upgrade_eq hslot, if_pos hm]
    · next hm => rw [upgrade_eq hslot, if_neg hm]

/-! ### A collection -/

theorem collect_cases (heq : h.collect spurious beyond roots fuel = some h') :
    0 < h.defers ∧ h' = h ∨ h.defers = 0 ∧ ∃ v, marking spurious h.space roots fuel = some v ∧
      h' = { h.weakPhase v beyond with space := (h.weakPhase v beyond).space.sweep } := by
  rw [collect] at heq
  split at heq
  · next hd => exact Or.inl ⟨hd, (Option.some.inj heq).symm⟩
  · next hd =>
    simp only [Option.bind_eq_bind, Option.bind_eq_some_iff, Option.some.injEq] at heq
    obtain ⟨v, hv, rfl⟩ := heq
    exact Or.inr ⟨Nat.eq_zero_of_not_pos hd, v, hv, rfl⟩

theorem isMarked_weakPhase (hk : (start h.space).Keeps v) (c : ℕ) :
    (h.weakPhase v beyond).space.isMarked c = v.space.isMarked c := by
  have hphase := @weakPhase_spec h v beyond hk.inv hk.ordered
  rw [Space.isMarked, Space.isMarked, hphase.live, hphase.mark, hphase.precise]
  cases hin : v.space.liveBitmap.hasAddress c with
  | true =>
    have hin' : (v.space.withBeyond beyond).liveBitmap.hasAddress c = true := hin
    rw [hin', if_pos rfl, if_pos rfl, test_withBeyond hk.inv.geometry hin]
  | false =>
    have hin' : (v.space.withBeyond beyond).liveBitmap.hasAddress c = false := hin
    rw [hin', if_neg Bool.false_ne_true, if_neg Bool.false_ne_true]
    rfl

theorem mem_cells_collect (hk : (start h.space).Keeps v) :
    c ∈ (h.weakPhase v beyond).space.sweep.cells ↔
      c ∈ h.space.cells ∧ v.space.isMarked c = true := by
  have hphase := @weakPhase_spec h v beyond hk.inv hk.ordered
  have hcells : (h.weakPhase v beyond).space.cells = h.space.cells :=
    hphase.cells.trans hk.graph.cells
  rw [Space.mem_cells_sweep hphase.inv hphase.ordered, hcells]
  rw [isMarked_weakPhase hk c]

theorem consistent_collect (hc : h.Consistent)
    (heq : h.collect spurious beyond roots fuel = some h') : h'.Consistent := by
  rcases collect_cases heq with ⟨-, rfl⟩ | ⟨-, v, hv, rfl⟩
  · exact hc
  have hk := keeps_marking hc.inv hc.ordered hv
  have hphase := @weakPhase_spec h v beyond hk.inv hk.ordered
  have hswept := Space.swept_sweep hphase.inv hphase.ordered
  have hin : ∀ a, (h.weakPhase v beyond).space.sweep.liveBitmap.hasAddress a =
      h.space.liveBitmap.hasAddress a := by
    intro a
    have hlive : (h.weakPhase v beyond).space.liveBitmap = h.space.liveBitmap :=
      hphase.live.trans hk.graph.live
    rw [Bool.eq_iff_iff, SpaceBitmap.hasAddress_iff, SpaceBitmap.hasAddress_iff,
      SpaceBitmap.granule, SpaceBitmap.offset, hswept.live_begin, hswept.live_size, hlive]
    rfl
  -- a slot that is kept was registered before, and its bit is set
  have hslots : ∀ w ∈ (h.weakPhase v beyond).weakRefs, w ∈ h.weakRefs ∧
      v.space.isMarked w = true := by
    intro w hw
    rw [hphase.weakRefs] at hw
    obtain ⟨hw, hbit⟩ := List.mem_filter.mp hw
    have hsmall : v.space.liveBitmap.hasAddress w = true := by
      rw [hk.graph.live]
      exact hc.slot_small w hw
    rw [test_withBeyond hk.inv.geometry hsmall] at hbit
    exact ⟨hw, by rw [Space.isMarked, hsmall, if_pos rfl, hbit]⟩
  have hpayload : ∀ w, ((h.weakPhase v beyond).space.sweep.objects w).payload =
      ((h.weakPhase v beyond).space.objects w).payload := hswept.payload
  refine ⟨hswept.inv, hswept.ordered, fun w hw => ?_, fun w hw => ?_, fun w hw => ?_,
    fun w hw t ht hsmall => ?_⟩
  · obtain ⟨hw, hmarked⟩ := hslots w hw
    exact (mem_cells_collect hk).mpr ⟨hc.slot_cell w hw, hmarked⟩
  · rw [hin]
    exact hc.slot_small w (hslots w hw).1
  · obtain ⟨value, hvalue⟩ := hc.slot_payload w (hslots w hw).1
    have hkept := hphase.slots w (hslots w hw).1
    rw [hpayload, hkept]
    have hold : ((v.space.withBeyond beyond).objects w).payload = .weakSlot value :=
      (hk.graph.payload w).trans hvalue
    rw [hold, Space.keepMarked.eq_def]
    cases value with
    | none => exact ⟨none, rfl⟩
    | some val =>
      dsimp only
      split
      · exact ⟨some val, rfl⟩
      · exact ⟨none, rfl⟩
  · have hup : ({ h.weakPhase v beyond with space := (h.weakPhase v beyond).space.sweep } :
        Heap).upgrade w = (h.weakPhase v beyond).upgrade w := upgrade_congr (hpayload w)
    rw [hup, upgrade_weakPhase hc hk (hslots w hw).1, Option.filter_eq_some_iff] at ht
    have hsmall' : h.space.liveBitmap.hasAddress t = true := (hin t).symm.trans hsmall
    have hsmall'' : v.space.liveBitmap.hasAddress t = true := by rw [hk.graph.live]; exact hsmall'
    rw [test_withBeyond hk.inv.geometry hsmall''] at ht
    refine (mem_cells_collect hk).mpr ⟨hc.target w (hslots w hw).1 t ht.1 hsmall', ?_⟩
    rw [Space.isMarked, hsmall'', if_pos rfl]
    exact ht.2

/-! ### Runs -/

theorem consistent_step (hc : h.Consistent) (hstep : Step allowed h h') : h'.Consistent := by
  cases hstep with
  | allocate hcell heq => exact consistent_allocates hc (allocates_allocate hc hcell heq).1
  | makeWeak htarget heq => exact consistent_makeWeak hc htarget heq
  | write hp => exact consistent_write hc hp
  | defer => exact { hc with }
  | undefer heq =>
    rw [undefer_cases heq]
    exact { hc with }
  | walkInContext _ _ heq => exact consistent_walkInContext hc heq
  | collect _ heq => exact consistent_collect hc heq

theorem Reachable.consistent (hr : Reachable allowed h) : h.Consistent := by
  induction hr with
  | new hmap happrox =>
    exact ⟨Space.inv_new hmap happrox, Space.ordered_new, fun w hw => absurd hw List.not_mem_nil,
      fun w hw => absurd hw List.not_mem_nil, fun w hw => absurd hw List.not_mem_nil,
      fun w hw => absurd hw List.not_mem_nil⟩
  | step _ hstep ih => exact consistent_step ih hstep

/-- The exchanges of a target on which `compare_exchange_weak` fails only when the comparison
does. -/
def Strong (spurious : ℕ → Bool) : Prop := ∀ n, spurious n = false

theorem white_allocates {value : Payload} (ha : h.Allocates value p h')
    (hwhite : ∀ c ∈ h.space.cells, (h.space.objects c).state = .white) :
    ∀ c ∈ h'.space.cells, (h'.space.objects c).state = .white := by
  intro c hcell
  by_cases hcp : c = p
  · rw [hcp, ha.object]
  · rw [ha.others c hcp]
    exact hwhite c (((ha.cells c).mp hcell).resolve_right hcp)

theorem white_step (hc : h.Consistent)
    (hwhite : ∀ c ∈ h.space.cells, (h.space.objects c).state = .white)
    (hstep : Step Strong h h') : ∀ c ∈ h'.space.cells, (h'.space.objects c).state = .white := by
  cases hstep with
  | allocate hcell heq => exact white_allocates (allocates_allocate hc hcell heq).1 hwhite
  | makeWeak htarget heq =>
    obtain ⟨h₁, halloc, rfl⟩ := makeWeak_cases heq
    have hw := white_allocates (allocates_allocate hc (fun h => absurd h (by decide)) halloc).1 hwhite
    exact hw
  | @write p old fields hp =>
    intro c hcell
    have hobject := @Space.objects_setObject h.space p c
      { h.space.objects p with payload := .cell fields }
    change (Space.objects _ c).state = .white
    rw [write, hobject]
    split
    · next hcp => exact hcp ▸ hwhite c hcell
    · exact hwhite c hcell
  | defer => exact hwhite
  | undefer heq =>
    rw [undefer_cases heq]
    exact hwhite
  | walkInContext hallowed hwf heq =>
    exact white_walkInContext hallowed ⟨hc.inv, hc.ordered, hwhite⟩ hwf heq
  | @collect _ _ beyond _ _ _ heq =>
    rcases collect_cases heq with ⟨-, rfl⟩ | ⟨-, v, hv, rfl⟩
    · exact hwhite
    · have hk := keeps_marking hc.inv hc.ordered hv
      have hphase := @weakPhase_spec h v beyond hk.inv hk.ordered
      exact fun c hcell => Space.white_sweep hphase.inv hphase.ordered hcell

/-- **Marking can start in every reachable heap.** -/
theorem Reachable.ready (hr : Reachable Strong h) : Ready h.space := by
  refine ⟨hr.consistent.inv, hr.consistent.ordered, ?_⟩
  induction hr with
  | new hmap happrox =>
    intro c hc
    exact absurd hc List.not_mem_nil
  | step hr hstep ih => exact white_step hr.consistent ih hstep

end Heap

end Starlight.Gc
