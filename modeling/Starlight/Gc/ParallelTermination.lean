import Mathlib.Algebra.Order.BigOperators.Group.Finset
import Starlight.Gc.ParallelInvariant

/-!
# Parallel marking terminates only when nothing is left

The terminator counts the workers that are not idle, and a worker leaves the loop only when it saw the
count at zero. A worker on its way out found its stack and its deque empty, and nobody fills them
again; the injector is empty or some worker has still to look at it (`Counted`). So when one worker
has left, all are idle and no list holds a cell, and the invariant of marking says that the traced
cells are the reachable ones and that the marks are those of the sequential marking.

This needs that no store to the mark bitmap is lost: `SpaceBitmap::modify` loads and stores a word in
two steps, and two workers that mark cells of one word can undo each other's mark.
-/

namespace Starlight.Gc

/-- The worker has found its stack empty since it last traced. -/
def Pc.pastLocal : Pc → Bool
  | .popLocal => false
  | .popped _ => false
  | .trace _ => false
  | .mark _ _ => false
  | .store _ _ _ => false
  | _ => true

/-- The worker has also found its deque empty. -/
def Pc.pastWorker : Pc → Bool
  | .popWorker => false
  | pc => pc.pastLocal

/-- Whether the terminator counts the worker. -/
def Pc.active (pc : Pc) : ℕ := if pc.idle then 0 else 1

/-- The worker leaves the loop, or is about to. -/
def Pc.exiting : Pc → Bool
  | .increase 0 => true
  | .finished => true
  | _ => false

namespace ParallelMarking

open SlotVisitor

variable {n : ℕ} {σ σ' : ParallelMarking n} {w u : Fin n} {choice : Choice n} {s : Space} {roots : List ℕ}

/-! ### The lists of a worker on its way out -/

/-- What the worker has found empty is empty. -/
structure Drained (t : MarkingTask) : Prop where
  queue : t.pc.pastLocal = true → t.queue = []
  worker : t.pc.pastWorker = true → t.worker = []

theorem Drained.of_not_pastLocal {t : MarkingTask} (h : t.pc.pastLocal = false)
    (h' : t.pc.pastWorker = false) : Drained t :=
  ⟨fun ht => absurd (h.symm.trans ht) Bool.false_ne_true,
    fun ht => absurd (h'.symm.trans ht) Bool.false_ne_true⟩

theorem Drained.goto {t : MarkingTask} {pc : Pc} (h : Drained t)
    (hlocal : t.pc.pastLocal = true) (hworker : t.pc.pastWorker = true) :
    Drained { t with pc := pc } :=
  ⟨fun _ => h.queue hlocal, fun _ => h.worker hworker⟩

theorem drained_step (hstep : Step σ w σ') (h : Drained (σ.task w)) : Drained (σ'.task w) := by
  cases hstep with
  | stay => exact h
  | emptyLocal hpc hq =>
    rw [task_setTask_self]
    exact ⟨fun _ => hq, fun ht => absurd ht Bool.false_ne_true⟩
  | emptyWorker hpc hq =>
    rw [task_setTask_self]
    exact ⟨fun _ => h.queue (by rw [hpc]; rfl), fun _ => hq⟩
  | blacken hpc =>
    rw [blacken]
    split <;> rw [task_setTask_self] <;> exact .of_not_pastLocal rfl rfl
  | visitField hpc =>
    rw [visitField]
    split <;> rw [task_setTask_self] <;> exact .of_not_pastLocal rfl rfl
  | emptyGlobal hpc | giveUp hpc | emptyVictim hpc | leave hpc | decrease hpc | wake hpc
    | finish hpc | reload hpc =>
    rw [task_setTask_self]
    exact h.goto (by rw [hpc]; rfl) (by rw [hpc]; rfl)
  | _ =>
    rw [task_setTask_self]
    exact .of_not_pastLocal rfl rfl

/-! ### The injector -/

theorem injector_step (hstep : Step σ w σ')
    (h : σ.injector = [] ∨ ∃ u, (σ.task u).pc.working = true) :
    σ'.injector = [] ∨ ∃ u, (σ'.task u).pc.working = true := by
  have hcases : (σ'.task w).pc.working = true ∨
      σ'.injector = σ.injector ∧ (σ.injector = [] ∨ (σ.task w).pc.working = false) ∨ σ' = σ := by
    cases hstep with
    | stay => exact Or.inr (Or.inr rfl)
    | emptyGlobal hpc hq => exact Or.inr (Or.inl ⟨rfl, Or.inl hq⟩)
    | giveUp hpc | emptyVictim hpc | leave hpc | decrease hpc | wake hpc | finish hpc
      | reload hpc =>
      exact Or.inr (Or.inl ⟨rfl, Or.inr (by rw [hpc]; rfl)⟩)
    | blacken hpc =>
      rw [blacken]
      split <;> exact Or.inl (by rw [task_setTask_self]; rfl)
    | visitField hpc =>
      rw [visitField]
      split <;> exact Or.inl (by rw [task_setTask_self]; rfl)
    | _ => exact Or.inl (by rw [task_setTask_self]; rfl)
  rcases hcases with hw | ⟨hinjector, hor⟩ | rfl
  · exact Or.inr ⟨w, hw⟩
  · rw [hinjector]
    rcases hor with hnil | hw
    · exact Or.inl hnil
    · refine h.imp_right fun hex => ?_
      obtain ⟨u, hu⟩ := hex
      refine ⟨u, ?_⟩
      have hne : u ≠ w := by
        rintro rfl
        exact Bool.false_ne_true (hw.symm.trans hu)
      rwa [(others_of_step hstep u hne).1]
  · exact h

/-! ### The count of the terminator -/

theorem active_of_others (h : Others σ w σ') :
    ∑ u, (σ'.task u).pc.active + (σ.task w).pc.active =
      ∑ u, (σ.task u).pc.active + (σ'.task w).pc.active := by
  have hrest : ∑ u ∈ Finset.univ.erase w, (σ'.task u).pc.active =
      ∑ u ∈ Finset.univ.erase w, (σ.task u).pc.active :=
    Finset.sum_congr rfl fun u hu => by rw [(h u (Finset.ne_of_mem_erase hu)).1]
  rw [← Finset.add_sum_erase _ _ (Finset.mem_univ w), hrest,
    ← Finset.add_sum_erase _ (fun u => (σ.task u).pc.active) (Finset.mem_univ w)]
  omega

theorem nworkers_step (hstep : Step σ w σ') (hn : n ≠ 1)
    (hpos : (σ.task w).pc.active ≤ σ.nworkers) :
    σ'.nworkers + (σ.task w).pc.active = σ.nworkers + (σ'.task w).pc.active := by
  cases hstep with
  | stay => rfl
  | emptyGlobal hpc hq =>
    rw [task_setTask_self, hpc, if_neg hn]
    rfl
  | blacken hpc =>
    rw [blacken, hpc]
    split <;> rw [task_setTask_self] <;> rfl
  | visitField hpc =>
    rw [visitField, hpc]
    split <;> rw [task_setTask_self] <;> rfl
  | leave hpc hone => exact absurd hone hn
  | decrease hpc _ =>
    rw [hpc] at hpos
    have hactive : Pc.tryTerminate.active = 1 := rfl
    have hidle : (if σ.nworkers = 1 then Pc.finished else Pc.sleep).active = 0 := by
      split <;> rfl
    rw [task_setTask_self, hpc, hactive]
    rw [hactive] at hpos
    change σ.nworkers - 1 + 1 = σ.nworkers + _
    rw [hidle]
    omega
  | increase hpc hk =>
    rw [task_setTask_self, hpc, hk]
    rfl
  | _ hpc =>
    rw [task_setTask_self, hpc]
    rfl

theorem exiting_step (hstep : Step σ w σ') (h : (σ'.task w).pc.exiting = true) :
    n = 1 ∨ σ'.nworkers = 0 ∨ σ'.nworkers = σ.nworkers ∧ (σ.task w).pc.exiting = true := by
  cases hstep with
  | stay => exact Or.inr (Or.inr ⟨rfl, h⟩)
  | emptyGlobal hpc hq =>
    rw [task_setTask_self] at h
    split at h <;> exact absurd h Bool.false_ne_true
  | blacken hpc =>
    rw [blacken] at h
    split at h <;> rw [task_setTask_self] at h <;> exact absurd h Bool.false_ne_true
  | visitField hpc =>
    rw [visitField] at h
    split at h <;> rw [task_setTask_self] at h <;> exact absurd h Bool.false_ne_true
  | leave hpc hone => exact Or.inl hone
  | decrease hpc hn =>
    rw [task_setTask_self] at h
    by_cases hlast : σ.nworkers = 1
    · refine Or.inr (Or.inl ?_)
      change σ.nworkers - 1 = 0
      omega
    · rw [if_neg hlast] at h
      exact absurd h Bool.false_ne_true
  | wake hpc =>
    rw [task_setTask_self] at h
    refine Or.inr (Or.inl ?_)
    change σ.nworkers = 0
    cases hk : σ.nworkers with
    | zero => rfl
    | succ k =>
      rw [hk] at h
      exact absurd h Bool.false_ne_true
  | finish hpc => exact Or.inr (Or.inr ⟨rfl, by rw [hpc]; rfl⟩)
  | reload hpc hn =>
    rw [task_setTask_self] at h
    refine Or.inr (Or.inl ?_)
    change σ.nworkers = 0
    cases hk : σ.nworkers with
    | zero => rfl
    | succ k =>
      rw [hk] at h
      exact absurd h Bool.false_ne_true
  | _ =>
    rw [task_setTask_self] at h
    exact absurd h Bool.false_ne_true

theorem nworkers_eq_zero_step (hstep : Step σ w σ') (h : σ.nworkers = 0) : σ'.nworkers = 0 := by
  cases hstep with
  | blacken hpc =>
    rw [blacken]
    split <;> exact h
  | visitField hpc =>
    rw [visitField]
    split <;> exact h
  | decrease hpc hn =>
    change σ.nworkers - 1 = 0
    omega
  | increase hpc hk => exact absurd (hk.symm.trans h) (Nat.succ_ne_zero _)
  | _ => exact h

/-! ### The invariant of the terminator -/

/-- The invariant of the terminator. -/
structure Counted (σ : ParallelMarking n) : Prop where
  drained : ∀ u, Drained (σ.task u)
  injector : σ.injector = [] ∨ ∃ u, (σ.task u).pc.working = true
  count : n ≠ 1 → σ.nworkers = ∑ u, (σ.task u).pc.active
  exit : ∀ u, (σ.task u).pc.exiting = true → n = 1 ∨ σ.nworkers = 0

theorem Counted.step (h : Counted σ) (hstep : Step σ w σ') : Counted σ' := by
  have hothers := others_of_step hstep
  refine ⟨fun u => ?_, injector_step hstep h.injector, fun hn => ?_, fun u hu => ?_⟩
  · by_cases hu : u = w
    · subst hu
      exact drained_step hstep (h.drained u)
    · obtain ⟨worker, htask, hnil⟩ := task_of_step hstep hu
      rw [htask]
      exact ⟨(h.drained u).queue, fun hpast => hnil ((h.drained u).worker hpast)⟩
  · have hle : (σ.task w).pc.active ≤ σ.nworkers := by
      rw [h.count hn]
      exact Finset.single_le_sum (fun u _ => Nat.zero_le ((σ.task u).pc.active))
        (Finset.mem_univ w)
    have hstep' := nworkers_step hstep hn hle
    have hsum := active_of_others hothers
    have hcount := h.count hn
    omega
  · by_cases hw : u = w
    · subst hw
      rcases exiting_step hstep hu with hone | hzero | ⟨hsame, hold⟩
      · exact Or.inl hone
      · exact Or.inr hzero
      · rw [hsame]
        exact h.exit u hold
    · rw [(hothers u hw).1] at hu
      exact (h.exit u hu).imp_right (nworkers_eq_zero_step hstep)

theorem Counted.idle (h : Counted σ) (hw : (σ.task w).pc = .finished) (u : Fin n) :
    (σ.task u).pc.idle = true := by
  by_cases hn : n = 1
  · subst hn
    rw [Subsingleton.elim u w, hw]
    rfl
  · have hzero := (h.exit w (by rw [hw]; rfl)).resolve_left hn
    rw [h.count hn, Finset.sum_eq_zero_iff] at hzero
    have hactive := hzero u (Finset.mem_univ u)
    rw [Pc.active] at hactive
    by_contra hidle
    rw [if_neg hidle] at hactive
    exact absurd hactive Nat.one_ne_zero

/-! ### Runs -/

theorem storesSmall_step (hstep : Step σ w σ') (hlive : σ'.space.liveBitmap = σ.space.liveBitmap)
    (h : σ.StoresSmall) : σ'.StoresSmall := by
  intro u p oldWord fields hpc
  rw [hlive]
  by_cases hu : u = w
  · subst hu
    rcases store_of_step hstep hpc with hin | hold
    · exact hin
    · exact h u p oldWord fields hold
  · rw [(others_of_step hstep u hu).1] at hpc
    exact h u p oldWord fields hpc

section Runs

variable {spurious : ℕ → Bool} (hstrong : ∀ k, spurious k = false) (hready : Ready s)
  (hwf : PointsToCells s roots)

include hstrong hready hwf

theorem shared_start : Shared s roots (start n ((SlotVisitor.start s).visitAll spurious roots)) := by
  obtain ⟨v, hv⟩ : ∃ v, v = (SlotVisitor.start s).visitAll spurious roots := ⟨_, rfl⟩
  have hmark : Marking s roots v :=
    hv ▸ marking_visitAll_roots hready.inv hready.ordered hwf
  have htraced : v.traced = [] := by
    rw [hv, traced_visitAll]
    rfl
  have hpending : (start n v).pending = v.queue := by
    rw [pending]
    refine (congrArg ((v.queue : Multiset ℕ) + ·) (Finset.sum_eq_zero fun u _ => ?_)).trans
      (add_zero _)
    rfl
  have hall : (start n v).allTraced = 0 := Finset.sum_eq_zero fun u _ => rfl
  have hturned : ∀ p, p ∈ (start n v).turned ↔ p ∈ v.seen := by
    intro p
    rw [turned, hpending, hall, add_zero, Multiset.mem_coe, mem_seen, htraced]
    exact (or_iff_left List.not_mem_nil).symm
  have hroot : ∀ r ∈ s.rootSet roots, r ∈ v.seen := by
    intro r hr
    rw [hv]
    exact (marking_start hready.inv hready.ordered).mem_seen_visitAll hstrong hready hwf roots
      (fun _ hp hheap => Graph.reach_root ⟨hp, hheap⟩) hr.1 hr.2
  rw [← hv]
  refine ⟨hmark.keeps.graph, hmark.keeps.inv, hmark.keeps.ordered,
    fun p hp => hmark.sound p ((hturned p).mp hp), ?_, ?_, ?_, ?_, ?_, ?_, ?_,
    fun r hr => (hturned r).mpr (hroot r hr)⟩
  · rw [turned, hpending, hall, add_zero, Multiset.coe_nodup]
    exact (List.nodup_append.mp hmark.nodup).1
  · rw [hpending]
    exact hmark.grey
  · rw [hall]
    exact fun p hp => absurd hp (Multiset.notMem_zero p)
  · exact fun p hp => hmark.untouched p fun hmem => hp ((hturned p).mpr hmem)
  · intro c hc
    rw [hturned]
    exact (hmark.marked c hc).trans
      (or_congr_right ⟨fun h => ⟨h, fun _ => List.not_mem_nil⟩, fun h => h.1⟩)
  · exact fun u q hq => absurd hq List.not_mem_nil
  · rw [hall]
    exact fun a ha => absurd ha (Multiset.notMem_zero a)

omit hstrong hready hwf in
theorem counted_start (w : Fin n) (v : SlotVisitor) : Counted (start n v) := by
  refine ⟨fun u => .of_not_pastLocal rfl rfl, Or.inr ⟨w, rfl⟩, fun _ => ?_,
    fun u hu => absurd hu Bool.false_ne_true⟩
  · have hactive : ∀ u, ((start n v).task u).pc.active = 1 := fun _ => rfl
    simp only [hactive, Finset.sum_const, Finset.card_univ, Fintype.card_fin, smul_eq_mul, mul_one]
    rfl

theorem shared_counted_of_reaches (w : Fin n)
    (h : Reaches Undisturbed (start n ((SlotVisitor.start s).visitAll spurious roots)) σ) :
    Shared s roots σ ∧ Counted σ ∧ σ.StoresSmall := by
  induction h with
  | refl =>
    refine ⟨shared_start hstrong hready hwf, counted_start w _, fun u p oldWord fields hpc => ?_⟩
    exact absurd hpc (fun h => Pc.noConfusion h)
  | step _ hok hadvance ih =>
    have hstep := step_of_advance hok hadvance
    have hshared := ih.1.step hready hwf ih.2.2 hstep
    refine ⟨hshared, ih.2.1.step hstep, storesSmall_step hstep ?_ ih.2.2⟩
    rw [hshared.graph.live, ih.1.graph.live]

end Runs

/-- What the end of parallel marking from `roots` promises: no list holds a cell and no worker is
tracing, each reachable cell was traced by one worker and nothing else was traced, and the marks are
those of the sequential marking. -/
structure Terminated (spurious : ℕ → Bool) (s : Space) (roots : List ℕ) (σ : ParallelMarking n) :
    Prop where
  injector : σ.injector = []
  queues : ∀ u, (σ.task u).queue = [] ∧ (σ.task u).worker = []
  idle : ∀ u, (σ.task u).pc.idle = true
  traced : ∀ u, ∀ c ∈ (σ.task u).traced, c ∈ s.reachable roots
  once : ∀ c ∈ s.reachable roots, ∃! u, c ∈ (σ.task u).traced
  nodup : ∀ u, (σ.task u).traced.Nodup
  marked : ∀ fuel v, marking spurious s roots fuel = some v →
    ∀ c ∈ s.cells, σ.space.isMarked c = v.space.isMarked c

/-- **Parallel marking agrees with the sequential one** at any number of workers and in every run in
which no exchange fails spuriously and no store to the mark bitmap overwrites another one. -/
theorem terminated_of_undisturbed {spurious : ℕ → Bool} (hstrong : ∀ k, spurious k = false)
    (hready : Ready s) (hwf : PointsToCells s roots)
    (h : Reaches Undisturbed (start n ((SlotVisitor.start s).visitAll spurious roots)) σ)
    (hw : (σ.task w).pc = .finished) : Terminated spurious s roots σ := by
  obtain ⟨hshared, hcounted, -⟩ := shared_counted_of_reaches hstrong hready hwf w h
  have hidle := hcounted.idle hw
  have hpast : ∀ pc : Pc, pc.idle = true → pc.working = false ∧ pc.pastLocal = true ∧
      pc.pastWorker = true ∧ pc.flight = [] ∧ pc.fields = [] ∧ pc.unmarked = [] := by
    intro pc hpc
    cases pc with
    | sleep | increase | finished => exact ⟨rfl, rfl, rfl, rfl, rfl, rfl⟩
    | _ => exact absurd hpc Bool.false_ne_true
  have hinjector : σ.injector = [] := by
    refine hcounted.injector.resolve_right fun ⟨u, hu⟩ => ?_
    exact Bool.false_ne_true ((hpast _ (hidle u)).1.symm.trans hu)
  have hqueues : ∀ u, (σ.task u).queue = [] ∧ (σ.task u).worker = [] := fun u =>
    ⟨(hcounted.drained u).queue (hpast _ (hidle u)).2.1,
      (hcounted.drained u).worker (hpast _ (hidle u)).2.2.1⟩
  have hpending : σ.pending = 0 := by
    rw [pending, hinjector]
    refine (zero_add _).trans (Finset.sum_eq_zero fun u _ => ?_)
    rw [held, (hqueues u).1, (hqueues u).2, (hpast _ (hidle u)).2.2.2.1]
    rfl
  have hturned : σ.turned = σ.allTraced := by rw [turned, hpending, zero_add]
  have hreach : {c | c ∈ σ.allTraced} = s.reachable roots := by
    have hmarks : Graph.Marks s.Edge (s.rootSet roots) {c | c ∈ σ.allTraced} ∅
        {c | c ∈ σ.allTraced} := by
      refine ⟨fun c hc => hshared.sound c (hturned ▸ hc), (Set.empty_union _).symm,
        fun a ha b hab => ?_⟩
      rcases hshared.closed a ha b hab with hb | ⟨u, hb⟩
      · exact hturned ▸ hb
      · rw [(hpast _ (hidle u)).2.2.2.2.1] at hb
        exact absurd hb List.not_mem_nil
    exact hmarks.eq_reach (fun r hr => hturned ▸ hshared.roots r hr) rfl
  have hmem : ∀ c, c ∈ s.reachable roots ↔ ∃ u, c ∈ (σ.task u).traced := by
    intro c
    rw [← hreach]
    exact mem_allTraced
  have hnodup := hshared.nodup
  rw [hturned, allTraced] at hnodup
  refine ⟨hinjector, hqueues, hidle, fun u c hc => (hmem c).mpr ⟨u, hc⟩, fun c hc => ?_,
    fun u => ?_, fun fuel v hv c hc => ?_⟩
  · obtain ⟨u, hu⟩ := (hmem c).mp hc
    refine ⟨u, hu, fun u' hu' => ?_⟩
    by_contra hne
    exact disjoint_of_nodup_sum hnodup hne hu' hu
  · rw [← Finset.add_sum_erase _ _ (Finset.mem_univ u)] at hnodup
    exact Multiset.coe_nodup.mp (Multiset.nodup_add.mp hnodup).1
  · obtain ⟨hmark, hnil⟩ := marking_spec hready.inv hready.ordered hwf hv
    have htraced := traced_marking hstrong hready hwf hv
    rw [Bool.eq_iff_iff, hshared.marked c hc, hmark.marked c hc, mem_seen, hnil, hturned,
      mem_allTraced, ← hmem, ← htraced]
    refine or_congr_right ⟨fun hc' => Or.inr hc'.1, fun hc' =>
      ⟨hc'.resolve_left List.not_mem_nil, fun u => ?_⟩⟩
    rw [(hpast _ (hidle u)).2.2.2.2.2]
    exact List.not_mem_nil

/-! ### A lost mark -/

def allocateCells : ℕ → Space → Option Space
  | 0, s => some s
  | k + 1, s => (s.allocate 48 0).bind fun r => allocateCells k r.2

theorem reachable_allocateCells {k : ℕ} {s s' : Space} (h : Space.Reachable s)
    (hs' : allocateCells k s = some s') : Space.Reachable s' := by
  induction k generalizing s with
  | zero => exact Option.some.inj hs' ▸ h
  | succ k ih =>
    obtain ⟨⟨ptr, s₁⟩, hstep, hrest⟩ := Option.bind_eq_some_iff.mp hs'
    exact ih (h.step (.allocate (fun h => absurd h (by decide)) hstep)) hrest

/-- The cell at 32680 refers to the one at 32584, and the cell at 32632 to the one at 32536. -/
def twoEdges : ℕ → Obj
  | 32680 => ⟨.white, .cell [32584]⟩
  | 32632 => ⟨.white, .cell [32536]⟩
  | _ => ⟨.white, .cell []⟩

/-- A new space with this memory. -/
def emptySpace : Space := .new 4096 65536 [] (fun _ => 0#64) twoEdges

theorem isSome_fourCells : (allocateCells 4 emptySpace).isSome = true := by decide +kernel

/-- The space with the four cells. One word of the mark bitmap has their bits. -/
def fourCells : Space := (allocateCells 4 emptySpace).get isSome_fourCells

theorem cells_fourCells : fourCells.cells = [32536, 32584, 32632, 32680] := by decide +kernel

theorem ready_fourCells : Ready fourCells := by
  have hreach : Space.Reachable fourCells :=
    reachable_allocateCells (.new ⟨by decide, by decide⟩ fun _ h => absurd h List.not_mem_nil)
      (Option.some_get isSome_fourCells).symm
  refine ⟨hreach.inv.1, hreach.inv.2, ?_⟩
  rw [cells_fourCells]
  decide +kernel

theorem pointsToCells_fourCells : PointsToCells fourCells [32680, 32632] :=
  pointsToCells_of_closed (by rw [cells_fourCells]; decide +kernel) (by rw [cells_fourCells]; decide +kernel)

/-- The workers at the start, with the two referring cells as roots. -/
def twoWorkers : ParallelMarking 2 :=
  start 2 ((SlotVisitor.start fourCells).visitAll (fun _ => false) [32680, 32632])

/-- A worker finds nothing, neither on its lists nor at the other worker, and terminates. -/
def giveUp (w victim : Fin 2) : List (Fin 2 × Choice 2) :=
  [(w, .go), (w, .go), (w, .empty victim), (w, .empty victim), (w, .empty victim),
    (w, .empty victim), (w, .empty victim), (w, .go), (w, .go)]

/-- A worker takes a cell from the injector and turns its only child grey; then it marks the child,
in two steps. -/
def takeAndVisit (w : Fin 2) (p : ℕ) (rest : List ℕ) : List (Fin 2 × Choice 2) :=
  [(w, .go), (w, .go), (w, .batch 0 p [] rest), (w, .go), (w, .go)]

def traceChild (w : Fin 2) : List (Fin 2 × Choice 2) := [(w, .go), (w, .go), (w, .go), (w, .go)]

/-- The workers mark one after the other. -/
def apart : List (Fin 2 × Choice 2) :=
  takeAndVisit 0 32632 [32680] ++ [(0, .go), (0, .go)] ++ takeAndVisit 1 32680 [] ++
    [(1, .go), (1, .go)] ++ traceChild 0 ++ traceChild 1 ++ giveUp 0 1 ++ giveUp 1 0

/-- Both workers load the word of the mark bitmap before either stores it. -/
def together : List (Fin 2 × Choice 2) :=
  takeAndVisit 0 32632 [32680] ++ takeAndVisit 1 32680 [] ++
    [(0, .go), (1, .go), (0, .go), (1, .go)] ++ traceChild 0 ++ traceChild 1 ++ giveUp 0 1 ++
    giveUp 1 0

theorem exists_of_any {α : Type*} {o : Option α} {q : α → Bool} (h : o.any q = true) :
    ∃ a, o = some a ∧ q a = true := by
  cases o with
  | none => exact absurd h Bool.false_ne_true
  | some a => exact ⟨a, rfl, h⟩

theorem terminated_apart : ∃ σ, run Undisturbed twoWorkers apart = some σ ∧
    Terminated (fun _ => false) fourCells [32680, 32632] σ := by
  have hany : (run Undisturbed twoWorkers apart).any
      (fun σ => (σ.task 1).pc = .finished) = true := by
    decide +kernel
  obtain ⟨σ, hrun, hfinished⟩ := exists_of_any hany
  exact ⟨σ, hrun, terminated_of_undisturbed (fun _ => rfl) ready_fourCells
    pointsToCells_fourCells (reaches_of_run .refl hrun) (of_decide_eq_true hfinished)⟩

/-- A worker overwrites the mark of the other one: marking terminates, but the cell at 32536, which is
reachable and was traced, has no mark. -/
theorem not_terminated_together : Ready fourCells ∧ PointsToCells fourCells [32680, 32632] ∧
    ∃ σ, Reaches (fun _ _ choice => choice ≠ .spurious) twoWorkers σ ∧
      (σ.task 1).pc = .finished ∧
      ¬ Terminated (fun _ => false) fourCells [32680, 32632] σ := by
  have hany : (run (fun _ _ choice => choice ≠ .spurious) twoWorkers together).any
      (fun σ => (σ.task 1).pc = .finished && !σ.space.isMarked 32536) = true := by
    decide +kernel
  have hseq : (marking (fun _ => false) fourCells [32680, 32632] 4).any
      (fun v => v.space.isMarked 32536) = true := by
    decide +kernel
  obtain ⟨σ, hrun, hσ⟩ := exists_of_any hany
  obtain ⟨v, hv, hmarked⟩ := exists_of_any hseq
  rw [Bool.and_eq_true, decide_eq_true_iff, Bool.not_eq_true'] at hσ
  refine ⟨ready_fourCells, pointsToCells_fourCells, σ, reaches_of_run .refl hrun, hσ.1, fun h => ?_⟩
  have hcell : 32536 ∈ fourCells.cells := by
    rw [cells_fourCells]
    exact List.mem_cons_self
  have hlost := h.marked 4 v hv 32536 hcell
  rw [hσ.2, hmarked] at hlost
  exact Bool.false_ne_true hlost

/-! ### Every interleaving -/

/-- Apart from colours and marks, every step is one of an undisturbed worker: an exchange that fails is one
that comes too late. -/
theorem exists_step (h : σ.advance w choice = some σ') :
    ∃ s s', Step { σ with space := s } w { σ' with space := s' } := by
  by_cases hok : σ.Undisturbed w choice
  · exact ⟨σ.space, σ'.space, step_of_advance hok h⟩
  let s : Space := { σ.space with objects := fun a => { σ.space.objects a with state := .black } }
  cases hpc : (σ.task w).pc with
  | store p oldWord fields =>
    have hstore : Step { σ with space := { σ.space with markBitmap :=
        { σ.space.markBitmap with word := fun _ => oldWord } } } w _ := .storeMark hpc rfl rfl
    cases choice <;> simp only [advance, hpc, Option.some.injEq, reduceCtorEq] at h
    subst h
    exact ⟨_, _, hstore⟩
  | popped p =>
    have hlate : Step { σ with space := s } w _ := .blacken hpc
    cases choice <;> simp only [advance, hpc, Option.some.injEq, reduceCtorEq] at h
    · exact absurd ⟨by rintro ⟨⟩, by rw [hpc]; rfl⟩ hok
    · subst h
      exact ⟨s, s, by simpa [blacken, setTask, s] using hlate⟩
  | trace fields =>
    cases fields with
    | nil =>
      cases choice <;> simp only [advance, hpc, Option.some.injEq, reduceCtorEq] at h
      exact absurd ⟨by rintro ⟨⟩, by rw [hpc]; rfl⟩ hok
    | cons q fields =>
      have hlate : Step { σ with space := s } w _ := .visitField hpc
      cases choice <;> simp only [advance, hpc, Option.some.injEq, reduceCtorEq] at h
      · exact absurd ⟨by rintro ⟨⟩, by rw [hpc]; rfl⟩ hok
      · subst h
        exact ⟨s, s, by simpa [visitField, setTask, s] using hlate⟩
  | _ =>
    refine absurd ⟨?_, by rw [hpc]; rfl⟩ hok
    rintro rfl
    rw [advance.eq_def] at h
    split at h <;> simp_all

theorem counted_of_reaches {v : SlotVisitor} (w : Fin n)
    (h : Reaches (fun _ _ _ => True) (start n v) σ) : Counted σ := by
  induction h with
  | refl => exact counted_start w v
  | step _ _ hstep ih =>
    obtain ⟨s, s', hstep⟩ := exists_step hstep
    have h := Counted.step (by exact ⟨ih.drained, ih.injector, ih.count, ih.exit⟩) hstep
    exact { h with }

/-- **Termination detection is sound in every interleaving**, also where exchanges fail spuriously and
stores to the mark bitmap overwrite one another: when one worker has finished, no list holds a cell and
every worker is out of the loop. -/
theorem quiescent_of_finished {v : SlotVisitor} (h : Reaches (fun _ _ _ => True) (start n v) σ)
    (hw : (σ.task w).pc = .finished) :
    σ.injector = [] ∧ ∀ u, (σ.task u).pc.idle = true ∧ (σ.task u).queue = [] ∧ (σ.task u).worker = [] := by
  have hcounted := counted_of_reaches w h
  have hpast : ∀ pc : Pc, pc.idle = true →
      pc.working = false ∧ pc.pastLocal = true ∧ pc.pastWorker = true := by
    intro pc hpc
    cases pc with
    | sleep | increase | finished => exact ⟨rfl, rfl, rfl⟩
    | _ => exact absurd hpc Bool.false_ne_true
  have hidle := hcounted.idle hw
  refine ⟨hcounted.injector.resolve_right fun hex => ?_, fun u => ⟨hidle u, ?_, ?_⟩⟩
  · obtain ⟨u, hu⟩ := hex
    exact Bool.false_ne_true ((hpast _ (hidle u)).1.symm.trans hu)
  · exact (hcounted.drained u).queue (hpast _ (hidle u)).2.1
  · exact (hcounted.drained u).worker (hpast _ (hidle u)).2.2

theorem quiescent_together : ∃ σ, run (fun _ _ _ => True) twoWorkers together = some σ ∧
    σ.injector = [] ∧ ∀ u, (σ.task u).pc.idle = true ∧ (σ.task u).queue = [] ∧ (σ.task u).worker = [] := by
  have hany : (run (fun _ _ _ => True) twoWorkers together).any
      (fun σ => (σ.task 1).pc = .finished) = true := by
    decide +kernel
  obtain ⟨σ, hrun, hfinished⟩ := exists_of_any hany
  exact ⟨σ, hrun, quiescent_of_finished (reaches_of_run .refl hrun) (of_decide_eq_true hfinished)⟩

/-- What the colours say in every state of an undisturbed run. -/
structure Coloured (s : Space) (σ : ParallelMarking n) : Prop where
  grey : ∀ c ∈ s.cells, ((σ.space.objects c).state = .grey ↔ σ.pending.count c = 1)
  black : ∀ c ∈ s.cells, ((σ.space.objects c).state = .black ↔ ∃! u, c ∈ (σ.task u).traced)
  edge : ∀ a ∈ s.cells, (σ.space.objects a).state = .black → ∀ b, s.Edge a b →
    (σ.space.objects b).state = .white → ∃ u, b ∈ (σ.task u).pc.fields

/-- **The tri-colour invariant.** At any number of workers and in every state of an undisturbed run a grey
cell waits at exactly one place, a black cell was traced by exactly one worker, and a pointer from a black
cell to a white one is still to be visited by some worker. -/
theorem coloured_of_undisturbed {spurious : ℕ → Bool} (hstrong : ∀ k, spurious k = false)
    (hready : Ready s) (hwf : PointsToCells s roots) (w : Fin n)
    (h : Reaches Undisturbed (start n ((SlotVisitor.start s).visitAll spurious roots)) σ) :
    Coloured s σ := by
  have hs := (shared_counted_of_reaches hstrong hready hwf w h).1
  have hdisjoint := (Multiset.nodup_add.mp hs.nodup)
  have hturned : ∀ c ∈ s.cells, (σ.space.objects c).state ≠ .white → c ∈ σ.pending ∨ c ∈ σ.allTraced := by
    intro c hc hstate
    by_contra hno
    exact hstate ((hs.untouched c (mt mem_turned.mp hno)).trans (hready.white c hc))
  have hgrey : ∀ c ∈ s.cells, (σ.space.objects c).state = .grey → c ∈ σ.pending := fun c hc hstate =>
    (hturned c hc (by rw [hstate]; decide)).resolve_right fun h => by cases (hs.black c h).symm.trans hstate
  have hblack : ∀ c ∈ s.cells, (σ.space.objects c).state = .black → c ∈ σ.allTraced := fun c hc hstate =>
    (hturned c hc (by rw [hstate]; decide)).resolve_left fun h => by cases (hs.grey c h).symm.trans hstate
  refine ⟨fun c hc => ⟨fun hstate => ?_, fun hcount => ?_⟩, fun c hc => ⟨fun hstate => ?_, fun hex => ?_⟩,
    fun a ha hstate b hab hwhite => ?_⟩
  · exact Multiset.count_eq_one_of_mem hdisjoint.1 (hgrey c hc hstate)
  · exact hs.grey c (Multiset.count_pos.mp (hcount ▸ Nat.one_pos))
  · obtain ⟨u, hu⟩ := mem_allTraced.mp (hblack c hc hstate)
    refine ⟨u, hu, fun u' hu' => ?_⟩
    by_contra hne
    exact disjoint_of_nodup_sum hdisjoint.2.1 hne hu' hu
  · exact hs.black c (mem_allTraced.mpr hex.exists)
  · refine (hs.closed a (hblack a ha hstate) b hab).resolve_left fun hb => ?_
    rcases mem_turned.mp hb with hb | hb
    · cases (hs.grey b hb).symm.trans hwhite
    · cases (hs.black b hb).symm.trans hwhite

theorem coloured_apart : ∃ σ, run Undisturbed twoWorkers apart = some σ ∧ Coloured fourCells σ := by
  have hany : (run Undisturbed twoWorkers apart).any (fun _ => true) = true := by decide +kernel
  obtain ⟨σ, hrun, -⟩ := exists_of_any hany
  exact ⟨σ, hrun, coloured_of_undisturbed (fun _ => rfl) ready_fourCells pointsToCells_fourCells 0
    (reaches_of_run .refl hrun)⟩

end ParallelMarking

end Starlight.Gc
