import Starlight.Gc.ParallelStep

/-!
# The invariant of parallel marking

Whatever the workers do, the cells that were turned from white are reachable, and each of them is
either pending at one place or was traced by one worker. The marks are the earlier ones and those of
the turned cells, but for the cells that a worker has just turned grey and not marked yet; a successor
of a traced cell was turned, or the worker that traced the cell has still to visit it.
-/

namespace Starlight.Gc

namespace ParallelMarking

open SlotVisitor

variable {n : ℕ} {σ σ' : ParallelMarking n} {w u : Fin n} {s : Space} {roots : List ℕ} {p : ℕ}

/-- The cells that were turned from white. -/
def turned (σ : ParallelMarking n) : Multiset ℕ := σ.pending + σ.allTraced

theorem mem_turned : p ∈ σ.turned ↔ p ∈ σ.pending ∨ p ∈ σ.allTraced := Multiset.mem_add

theorem mem_allTraced : p ∈ σ.allTraced ↔ ∃ u, p ∈ (σ.task u).traced := by
  rw [allTraced, Multiset.mem_sum]
  simp only [Finset.mem_univ, true_and, Multiset.mem_coe]

theorem disjoint_of_nodup_sum {f : Fin n → Multiset ℕ} (h : (∑ v, f v).Nodup) (hne : u ≠ w)
    (hu : p ∈ f u) : p ∉ f w := by
  rw [← Finset.add_sum_erase _ _ (Finset.mem_univ w)] at h
  have hmem : p ∈ ∑ v ∈ Finset.univ.erase w, f v :=
    Multiset.mem_sum.mpr ⟨u, Finset.mem_erase.mpr ⟨hne, Finset.mem_univ u⟩, hu⟩
  exact fun hw => Multiset.disjoint_left.mp (Multiset.nodup_add.mp h).2.2 hw hmem

theorem unmarked_subset_flight {pc : Pc} (hp : p ∈ pc.unmarked) : p ∈ pc.flight := by
  cases pc with
  | mark q fields => exact hp
  | store q oldWord fields => exact hp
  | _ => exact absurd hp List.not_mem_nil

theorem not_unmarked_of_nodup (h : σ.pending.Nodup) (hne : u ≠ w)
    (hw : p ∈ (σ.task w).pc.unmarked) : p ∉ (σ.task u).pc.unmarked := by
  intro hu
  rw [pending] at h
  have hheld : ∀ v, p ∈ (σ.task v).pc.unmarked → p ∈ held (σ.task v) := by
    intro v hv
    rw [held, Multiset.mem_add]
    exact Or.inr (unmarked_subset_flight hv)
  exact disjoint_of_nodup_sum (Multiset.nodup_add.mp h).2.1 hne (hheld u hu) (hheld w hw)

/-! ### The invariant -/

structure Shared (s : Space) (roots : List ℕ) (σ : ParallelMarking n) : Prop where
  graph : s.SameGraph σ.space
  inv : σ.space.Inv
  ordered : σ.space.Ordered
  sound : ∀ p ∈ σ.turned, p ∈ s.reachable roots
  nodup : σ.turned.Nodup
  grey : ∀ p ∈ σ.pending, (σ.space.objects p).state = .grey
  black : ∀ p ∈ σ.allTraced, (σ.space.objects p).state = .black
  untouched : ∀ p, p ∉ σ.turned → (σ.space.objects p).state = (s.objects p).state
  marked : ∀ c ∈ s.cells, (σ.space.isMarked c = true ↔
    s.isMarked c = true ∨ c ∈ σ.turned ∧ ∀ u, c ∉ (σ.task u).pc.unmarked)
  fields : ∀ u, ∀ q ∈ (σ.task u).pc.fields, s.isHeapPointer q = true → q ∈ s.reachable roots
  closed : ∀ a ∈ σ.allTraced, ∀ b, s.Edge a b → b ∈ σ.turned ∨ ∃ u, b ∈ (σ.task u).pc.fields
  roots : ∀ r ∈ s.rootSet roots, r ∈ σ.turned

/-- The workers other than `w` stay where they are and trace nothing. -/
def Others (σ : ParallelMarking n) (w : Fin n) (σ' : ParallelMarking n) : Prop :=
  ∀ u, u ≠ w → (σ'.task u).pc = (σ.task u).pc ∧ (σ'.task u).traced = (σ.task u).traced

theorem others_of_step (hstep : Step σ w σ') : Others σ w σ' := by
  intro u hne
  obtain ⟨worker, hu, -⟩ := task_of_step hstep hne
  rw [hu]
  exact ⟨rfl, rfl⟩

theorem Others.unmarked (h : Others σ w σ')
    (hunmarked : (σ'.task w).pc.unmarked = (σ.task w).pc.unmarked) (u : Fin n) :
    (σ'.task u).pc.unmarked = (σ.task u).pc.unmarked := by
  by_cases hu : u = w
  · rw [hu, hunmarked]
  · rw [(h u hu).1]

theorem Others.allTraced (h : Others σ w σ') (htraced : (σ'.task w).traced = (σ.task w).traced) :
    σ'.allTraced = σ.allTraced := by
  refine Finset.sum_congr rfl fun u _ => ?_
  by_cases hu : u = w
  · rw [hu, htraced]
  · rw [(h u hu).2]

theorem Others.allTraced_cons (h : Others σ w σ')
    (htraced : (σ'.task w).traced = p :: (σ.task w).traced) :
    σ'.allTraced = p ::ₘ σ.allTraced := by
  have hrest : ∑ u ∈ Finset.univ.erase w, ((σ'.task u).traced : Multiset ℕ) =
      ∑ u ∈ Finset.univ.erase w, ((σ.task u).traced : Multiset ℕ) :=
    Finset.sum_congr rfl fun u hu => by rw [(h u (Finset.ne_of_mem_erase hu)).2]
  rw [ParallelMarking.allTraced, ParallelMarking.allTraced,
    ← Finset.add_sum_erase _ _ (Finset.mem_univ w), hrest, htraced, ← Multiset.cons_coe,
    Multiset.cons_add, Finset.add_sum_erase _ (fun u => ((σ.task u).traced : Multiset ℕ))
      (Finset.mem_univ w)]

namespace Shared

theorem mem_turned_of_not_white (h : Shared s roots σ) (hready : Ready s)
    (hwf : PointsToCells s roots) (hreach : p ∈ s.reachable roots)
    (hstate : (σ.space.objects p).state ≠ .white) : p ∈ σ.turned := by
  by_contra hmem
  exact hstate ((h.untouched p hmem).trans (hready.white p (hwf p hreach)))

theorem same (h : Shared s roots σ) (hspace : σ'.space = σ.space)
    (hpending : σ'.pending = σ.pending) (htraced : σ'.allTraced = σ.allTraced)
    (hunmarked : ∀ u, (σ'.task u).pc.unmarked = (σ.task u).pc.unmarked)
    (hfields : ∀ u, ∀ q ∈ (σ'.task u).pc.fields, q ∈ (σ.task u).pc.fields)
    (hdropped : ∀ u, ∀ q ∈ (σ.task u).pc.fields, s.isHeapPointer q = true →
      q ∈ σ.turned ∨ q ∈ (σ'.task u).pc.fields) : Shared s roots σ' := by
  have hturned : σ'.turned = σ.turned := by rw [turned, turned, hpending, htraced]
  refine ⟨hspace ▸ h.graph, hspace ▸ h.inv, hspace ▸ h.ordered, hturned ▸ h.sound,
    hturned ▸ h.nodup, ?_, ?_, ?_, ?_, fun u q hq => h.fields u q (hfields u q hq), ?_,
    hturned ▸ h.roots⟩
  · rw [hspace, hpending]
    exact h.grey
  · rw [hspace, htraced]
    exact h.black
  · rw [hspace, hturned]
    exact h.untouched
  · intro c hc
    rw [hspace, hturned, h.marked c hc]
    simp only [hunmarked]
  · intro a ha b hab
    rw [htraced] at ha
    rw [hturned]
    rcases h.closed a ha b hab with hb | ⟨u, hb⟩
    · exact Or.inl hb
    · exact (hdropped u b hb hab.2).imp_right fun hb' => ⟨u, hb'⟩

theorem blacken (h : Shared s roots σ) (hothers : Others σ w σ')
    (hspace : σ'.space = σ.space.forceSetState p .black) (hpending : σ.pending = p ::ₘ σ'.pending)
    (htraced : (σ'.task w).traced = p :: (σ.task w).traced)
    (hfields : (σ.task w).pc.fields = [])
    (hfields' : (σ'.task w).pc.fields = (σ.space.objects p).payload.trace)
    (hunmarked : (σ'.task w).pc.unmarked = (σ.task w).pc.unmarked) : Shared s roots σ' := by
  have hall := hothers.allTraced_cons htraced
  have hturned : σ'.turned = σ.turned := by
    rw [turned, turned, hall, hpending, Multiset.add_cons, Multiset.cons_add]
  have hp : p ∈ σ.pending := hpending ▸ Multiset.mem_cons_self p _
  have hnodup := h.nodup
  rw [turned, hpending, Multiset.cons_add, Multiset.nodup_cons, Multiset.mem_add, not_or] at hnodup
  have hobjects : ∀ a, (σ'.space.objects a).state =
      if a = p then CellState.black else (σ.space.objects a).state := by
    intro a
    rw [hspace, Space.objects_forceSetState]
    split <;> rfl
  have hgraph := h.graph.trans (Space.sameGraph_forceSetState σ.space p .black)
  have hinv : (σ.space.forceSetState p .black).Inv := Space.inv_forceSetState h.inv
  have hordered : (σ.space.forceSetState p .black).Ordered := Space.ordered_forceSetState h.ordered
  refine ⟨hspace ▸ hgraph, hspace ▸ hinv, hspace ▸ hordered, hturned ▸ h.sound, hturned ▸ h.nodup,
    ?_, ?_, ?_, ?_, ?_, ?_, hturned ▸ h.roots⟩
  · intro q hq
    have hne : q ≠ p := by
      rintro rfl
      exact hnodup.1.1 hq
    rw [hobjects, if_neg hne]
    exact h.grey q (hpending ▸ Multiset.mem_cons_of_mem hq)
  · intro q hq
    rw [hobjects]
    split
    · rfl
    · next hne =>
      rw [hall] at hq
      exact h.black q ((Multiset.mem_cons.mp hq).resolve_left hne)
  · intro q hq
    rw [hturned] at hq
    have hne : q ≠ p := by
      rintro rfl
      exact hq (mem_turned.mpr (Or.inl hp))
    rw [hobjects, if_neg hne]
    exact h.untouched q hq
  · intro c hc
    rw [hspace, Space.isMarked_forceSetState, hturned, h.marked c hc]
    simp only [hothers.unmarked hunmarked]
  · intro u q hq hheap
    by_cases hu : u = w
    · subst hu
      rw [hfields', h.graph.payload] at hq
      exact Graph.reach_step (h.sound p (mem_turned.mpr (Or.inl hp))) ⟨hq, hheap⟩
    · rw [(hothers u hu).1] at hq
      exact h.fields u q hq hheap
  · intro a ha b hab
    rw [hturned]
    rw [hall] at ha
    rcases Multiset.mem_cons.mp ha with rfl | ha
    · refine Or.inr ⟨w, ?_⟩
      rw [hfields', h.graph.payload]
      exact hab.1
    · rcases h.closed a ha b hab with hb | ⟨u, hb⟩
      · exact Or.inl hb
      · have hu : u ≠ w := by
          rintro rfl
          rw [hfields] at hb
          exact List.not_mem_nil hb
        exact Or.inr ⟨u, by rwa [(hothers u hu).1]⟩

theorem greyed {q : ℕ} (h : Shared s roots σ) (hothers : Others σ w σ')
    (hspace : σ'.space = σ.space.forceSetState q .grey)
    (hpending : σ'.pending = q ::ₘ σ.pending)
    (htraced : (σ'.task w).traced = (σ.task w).traced)
    (hfields : (σ.task w).pc.fields = q :: (σ'.task w).pc.fields)
    (hunmarked : (σ.task w).pc.unmarked = []) (hunmarked' : (σ'.task w).pc.unmarked = [q])
    (hheap : σ.space.isHeapPointer q = true) (hwhite : (σ.space.objects q).state = .white) :
    Shared s roots σ' := by
  have hall := hothers.allTraced htraced
  have hturned : σ'.turned = q ::ₘ σ.turned := by
    rw [turned, turned, hall, hpending, Multiset.cons_add]
  have hnew : q ∉ σ.turned := by
    intro hmem
    rcases mem_turned.mp hmem with hq | hq
    · exact CellState.noConfusion (hwhite.symm.trans (h.grey q hq))
    · exact CellState.noConfusion (hwhite.symm.trans (h.black q hq))
  have hreach : q ∈ s.reachable roots :=
    h.fields w q (hfields ▸ List.mem_cons_self) ((h.graph.isHeapPointer q).symm.trans hheap)
  have hobjects : ∀ a, (σ'.space.objects a).state =
      if a = q then CellState.grey else (σ.space.objects a).state := by
    intro a
    rw [hspace, Space.objects_forceSetState]
    split <;> rfl
  have hgraph := h.graph.trans (Space.sameGraph_forceSetState σ.space q .grey)
  have hinv : (σ.space.forceSetState q .grey).Inv := Space.inv_forceSetState h.inv
  have hordered : (σ.space.forceSetState q .grey).Ordered := Space.ordered_forceSetState h.ordered
  refine { graph := hspace ▸ hgraph, inv := hspace ▸ hinv, ordered := hspace ▸ hordered,
           sound := ?sound, nodup := ?nodup, grey := ?grey, black := ?black,
           untouched := ?untouched, marked := ?marked, fields := ?fields, closed := ?closed,
           roots := ?roots }
  case sound =>
    intro c hc
    rw [hturned] at hc
    rcases Multiset.mem_cons.mp hc with rfl | hc
    · exact hreach
    · exact h.sound c hc
  case nodup =>
    rw [hturned, Multiset.nodup_cons]
    exact ⟨hnew, h.nodup⟩
  case grey =>
    intro c hc
    rw [hobjects]
    split
    · rfl
    · next hne =>
      rw [hpending] at hc
      exact h.grey c ((Multiset.mem_cons.mp hc).resolve_left hne)
  case black =>
    intro c hc
    rw [hall] at hc
    have hne : c ≠ q := by
      rintro rfl
      exact hnew (mem_turned.mpr (Or.inr hc))
    rw [hobjects, if_neg hne]
    exact h.black c hc
  case untouched =>
    intro c hc
    rw [hturned, Multiset.mem_cons, not_or] at hc
    rw [hobjects, if_neg hc.1]
    exact h.untouched c hc.2
  case marked =>
    intro c hc
    rw [hspace, Space.isMarked_forceSetState, h.marked c hc, hturned]
    refine or_congr_right ⟨?_, ?_⟩
    · rintro ⟨hmem, hnot⟩
      refine ⟨Multiset.mem_cons_of_mem hmem, fun u => ?_⟩
      by_cases hu : u = w
      · subst hu
        rw [hunmarked', List.mem_singleton]
        rintro rfl
        exact hnew hmem
      · rw [(hothers u hu).1]
        exact hnot u
    · rintro ⟨hmem, hnot⟩
      have hne : c ≠ q := by
        rintro rfl
        refine hnot w ?_
        rw [hunmarked']
        exact List.mem_singleton_self c
      refine ⟨(Multiset.mem_cons.mp hmem).resolve_left hne, fun u => ?_⟩
      by_cases hu : u = w
      · subst hu
        rw [hunmarked]
        exact List.not_mem_nil
      · rw [← (hothers u hu).1]
        exact hnot u
  case fields =>
    intro u c hc hcheap
    by_cases hu : u = w
    · subst hu
      exact h.fields u c (hfields ▸ List.mem_cons_of_mem _ hc) hcheap
    · rw [(hothers u hu).1] at hc
      exact h.fields u c hc hcheap
  case closed =>
    intro a ha b hab
    rw [hall] at ha
    rw [hturned]
    rcases h.closed a ha b hab with hb | ⟨u, hb⟩
    · exact Or.inl (Multiset.mem_cons_of_mem hb)
    · by_cases hu : u = w
      · subst hu
        rw [hfields] at hb
        rcases List.mem_cons.mp hb with rfl | hb
        · exact Or.inl (Multiset.mem_cons_self _ _)
        · exact Or.inr ⟨u, hb⟩
      · exact Or.inr ⟨u, by rwa [(hothers u hu).1]⟩
  case roots =>
    intro r hr
    rw [hturned]
    exact Multiset.mem_cons_of_mem (h.roots r hr)

theorem mark (h : Shared s roots σ) (hwf : PointsToCells s roots) (hothers : Others σ w σ')
    (hspace : σ'.space = σ.space.mark p) (hpending : σ'.pending = σ.pending)
    (htraced : (σ'.task w).traced = (σ.task w).traced)
    (hfields : (σ'.task w).pc.fields = (σ.task w).pc.fields)
    (hunmarked : (σ.task w).pc.unmarked = [p]) (hunmarked' : (σ'.task w).pc.unmarked = []) :
    Shared s roots σ' := by
  have hall := hothers.allTraced htraced
  have hturned : σ'.turned = σ.turned := by rw [turned, turned, hpending, hall]
  have hw : p ∈ (σ.task w).pc.unmarked := by
    rw [hunmarked]
    exact List.mem_singleton_self p
  have hp : p ∈ σ.turned :=
    mem_turned.mpr (Or.inl (mem_pending_of_flight (unmarked_subset_flight hw)))
  have hpending_nodup : σ.pending.Nodup := (Multiset.nodup_add.mp h.nodup).1
  have hcell := hwf p (h.sound p hp)
  have hcells : ∀ c ∈ s.cells, c ∈ σ.space.cells := fun c hc => h.graph.cells ▸ hc
  have hheap := Space.isHeapPointer_of_mem_cells h.inv (hcells p hcell)
  have hfields' : ∀ u, (σ'.task u).pc.fields = (σ.task u).pc.fields := by
    intro u
    by_cases hu : u = w
    · rw [hu, hfields]
    · rw [(hothers u hu).1]
  have hgraph := h.graph.trans (Space.sameGraph_mark σ.space h.inv.geometry p)
  have hinv := Space.inv_mark h.inv hheap
  have hordered := Space.ordered_mark (p := p) h.ordered
  have hmarked := fun c hc => Space.isMarked_mark h.inv (hcells p hcell) (hcells c hc)
  have hobjects := Space.objects_mark σ.space p
  obtain ⟨s', hs'⟩ : ∃ s', s' = σ.space.mark p := ⟨_, rfl⟩
  rw [← hs'] at hspace hgraph hinv hordered hmarked hobjects
  refine ⟨hspace ▸ hgraph, hspace ▸ hinv, hspace ▸ hordered, hturned ▸ h.sound, hturned ▸ h.nodup,
    ?_, ?_, ?_, ?_, ?_, ?_, hturned ▸ h.roots⟩
  · rw [hspace, hobjects, hpending]
    exact h.grey
  · rw [hspace, hobjects, hall]
    exact h.black
  · rw [hspace, hobjects, hturned]
    exact h.untouched
  · intro c hc
    rw [hspace, hmarked c hc, Bool.or_eq_true, decide_eq_true_iff, h.marked c hc, hturned,
      or_left_comm]
    refine or_congr_right ⟨?_, ?_⟩
    · rintro (rfl | ⟨hmem, hnot⟩)
      · refine ⟨hp, fun u => ?_⟩
        by_cases hu : u = w
        · subst hu
          rw [hunmarked']
          exact List.not_mem_nil
        · rw [(hothers u hu).1]
          exact not_unmarked_of_nodup hpending_nodup hu hw
      · refine ⟨hmem, fun u => ?_⟩
        by_cases hu : u = w
        · subst hu
          rw [hunmarked']
          exact List.not_mem_nil
        · rw [(hothers u hu).1]
          exact hnot u
    · rintro ⟨hmem, hnot⟩
      by_cases hcp : c = p
      · exact Or.inl hcp
      · refine Or.inr ⟨hmem, fun u => ?_⟩
        by_cases hu : u = w
        · subst hu
          rw [hunmarked, List.mem_singleton]
          exact hcp
        · rw [← (hothers u hu).1]
          exact hnot u
  · intro u q hq hqheap
    rw [hfields'] at hq
    exact h.fields u q hq hqheap
  · intro a ha b hab
    rw [hall] at ha
    rw [hturned]
    simp only [hfields']
    exact h.closed a ha b hab

theorem step (h : Shared s roots σ) (hready : Ready s) (hwf : PointsToCells s roots)
    (hsmall : σ.StoresSmall) (hstep : Step σ w σ') : Shared s roots σ' := by
  have hothers := others_of_step hstep
  have hother_fields : ∀ u, u ≠ w → (σ'.task u).pc.fields = (σ.task u).pc.fields :=
    fun u hu => by rw [(hothers u hu).1]
  cases effect_of_step hstep hsmall with
  | quiet hspace hpending htraced hfields hunmarked =>
    have hsame : ∀ u, (σ'.task u).pc.fields = (σ.task u).pc.fields := by
      intro u
      by_cases hu : u = w
      · rw [hu, hfields]
      · exact hother_fields u hu
    refine h.same hspace hpending (hothers.allTraced htraced) (hothers.unmarked hunmarked)
      (fun u q hq => hsame u ▸ hq) fun u q hq _ => Or.inr (hsame u ▸ hq)
  | drop hp hstate => exact absurd (h.grey _ hp) hstate
  | blacken hspace hpending htraced hfields hfields' hunmarked =>
    exact h.blacken hothers hspace hpending htraced hfields hfields' hunmarked
  | @skip q hspace hpending htraced hfields hunmarked hq =>
    refine h.same hspace hpending (hothers.allTraced htraced) (hothers.unmarked hunmarked) ?_ ?_
    · intro u c hc
      by_cases hu : u = w
      · subst hu
        rw [hfields]
        exact List.mem_cons_of_mem _ hc
      · rwa [← hother_fields u hu]
    · intro u c hc hheap
      by_cases hu : u = w
      · subst hu
        have hreach := h.fields u c hc hheap
        rw [hfields] at hc
        rcases List.mem_cons.mp hc with rfl | hc
        · refine Or.inl (h.mem_turned_of_not_white hready hwf hreach fun hwhite => hq ⟨?_, hwhite⟩)
          exact (h.graph.isHeapPointer c).trans hheap
        · exact Or.inr hc
      · exact Or.inr (by rwa [hother_fields u hu])
  | grey hspace hpending htraced hfields hunmarked hunmarked' hheap hwhite =>
    exact h.greyed hothers hspace hpending htraced hfields hunmarked hunmarked' hheap hwhite
  | mark hspace hpending htraced hfields hunmarked hunmarked' =>
    exact h.mark hwf hothers hspace hpending htraced hfields hunmarked hunmarked'

end Shared

end ParallelMarking

end Starlight.Gc
