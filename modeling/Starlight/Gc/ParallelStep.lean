import Mathlib.Tactic.Abel
import Starlight.Gc.ParallelMarking

/-!
# The undisturbed steps of a worker

`Step` lists what an undisturbed step can do, once and for all. Its effect on marking is one of five
(`Effect`): nothing, a cell that turns black, a pointer that is passed over, a cell that turns grey,
or a mark.
-/

namespace Starlight.Gc

/-- The cell a worker has in hand, on no list. -/
def Pc.flight : Pc → List ℕ
  | .popped p => [p]
  | .mark p _ => [p]
  | .store p _ _ => [p]
  | _ => []

/-- The pointers the worker has still to visit. -/
def Pc.fields : Pc → List ℕ
  | .trace fields => fields
  | .mark _ fields => fields
  | .store _ _ fields => fields
  | _ => []

/-- The cell in hand that is grey and not marked yet. -/
def Pc.unmarked : Pc → List ℕ
  | .mark p _ => [p]
  | .store p _ _ => [p]
  | _ => []

/-- The worker is out of the count of the terminator. -/
def Pc.idle : Pc → Bool
  | .sleep => true
  | .increase _ => true
  | .finished => true
  | _ => false

/-- The worker has not yet found the injector empty. -/
def Pc.working : Pc → Bool
  | .steal _ => false
  | .tryTerminate => false
  | .sleep => false
  | .increase _ => false
  | .finished => false
  | _ => true

namespace ParallelMarking

variable {n : ℕ} {σ σ' : ParallelMarking n} {w u : Fin n} {choice : Choice n}

inductive Step (σ : ParallelMarking n) (w : Fin n) : ParallelMarking n → Prop
  | stay : Step σ w σ
  | emptyLocal (hpc : (σ.task w).pc = .popLocal) (hq : (σ.task w).queue = []) :
      Step σ w (σ.setTask w { σ.task w with pc := .popWorker })
  | popLocal {p : ℕ} {queue : List ℕ} (hpc : (σ.task w).pc = .popLocal)
      (hq : (σ.task w).queue = p :: queue) :
      Step σ w (σ.setTask w { σ.task w with pc := .popped p, queue := queue })
  | emptyWorker (hpc : (σ.task w).pc = .popWorker) (hq : (σ.task w).worker = []) :
      Step σ w (σ.setTask w { σ.task w with pc := .popGlobal })
  | popWorker {p : ℕ} {worker : List ℕ} (hpc : (σ.task w).pc = .popWorker)
      (hq : (σ.task w).worker = p :: worker) :
      Step σ w (σ.setTask w { σ.task w with pc := .popped p, worker := worker })
  | emptyGlobal (hpc : (σ.task w).pc = .popGlobal) (hq : σ.injector = []) :
      Step σ w (σ.setTask w
        { σ.task w with pc := if n = 1 then .tryTerminate else .steal (2 * n) })
  | popGlobal {p : ℕ} {batch rest : List ℕ} (hpc : (σ.task w).pc = .popGlobal)
      (hq : σ.injector.Perm (p :: batch ++ rest)) :
      Step σ w ({ σ with injector := rest }.setTask w
        { σ.task w with pc := .popped p, worker := batch ++ (σ.task w).worker })
  | giveUp (hpc : (σ.task w).pc = .steal 0) :
      Step σ w (σ.setTask w { σ.task w with pc := .tryTerminate })
  | emptyVictim {attempts : ℕ} (hpc : (σ.task w).pc = .steal (attempts + 1)) :
      Step σ w (σ.setTask w { σ.task w with pc := .steal attempts })
  | stealBatch {attempts p : ℕ} {batch rest : List ℕ} {victim : Fin n}
      (hpc : (σ.task w).pc = .steal (attempts + 1)) (hne : victim ≠ w)
      (hq : (σ.task victim).worker.Perm (p :: batch ++ rest)) :
      Step σ w ((σ.setTask victim { σ.task victim with worker := rest }).setTask w
        { σ.task w with pc := .popped p, worker := batch ++ (σ.task w).worker })
  | blacken {p : ℕ} (hpc : (σ.task w).pc = .popped p) : Step σ w (σ.blacken w p false)
  | traced (hpc : (σ.task w).pc = .trace []) :
      Step σ w ({ σ with injector := (maybePushToInjector σ.injector (σ.task w)).1 }.setTask w
        { (maybePushToInjector σ.injector (σ.task w)).2 with pc := .popLocal })
  | visitField {q : ℕ} {fields : List ℕ} (hpc : (σ.task w).pc = .trace (q :: fields)) :
      Step σ w (σ.visitField w q fields false)
  | loadMark {p : ℕ} {fields : List ℕ} {oldWord : BitVec 64}
      (hpc : (σ.task w).pc = .mark p fields) (hin : σ.space.liveBitmap.hasAddress p = true) :
      Step σ w (σ.setTask w { σ.task w with pc := .store p oldWord fields })
  | setFlag {p : ℕ} {fields : List ℕ} {s : Space} (hpc : (σ.task w).pc = .mark p fields)
      (hout : ¬ σ.space.liveBitmap.hasAddress p = true) (hs : s = σ.space.mark p) :
      Step σ w ({ σ with space := s }.setTask w
        { σ.task w with pc := .trace fields, queue := p :: (σ.task w).queue })
  | storeMark {p : ℕ} {oldWord : BitVec 64} {fields : List ℕ} {s : Space}
      (hpc : (σ.task w).pc = .store p oldWord fields)
      (hword : σ.space.markBitmap.word
        (SpaceBitmap.offsetToIndex (σ.space.markBitmap.offset p)) = oldWord)
      (hs : s = storeMark σ.space p oldWord) :
      Step σ w ({ σ with space := s }.setTask w
        { σ.task w with pc := .trace fields, queue := p :: (σ.task w).queue })
  | leave (hpc : (σ.task w).pc = .tryTerminate) (hn : n = 1) :
      Step σ w (σ.setTask w { σ.task w with pc := .finished })
  | decrease (hpc : (σ.task w).pc = .tryTerminate) (hn : n ≠ 1) :
      Step σ w ({ σ with nworkers := σ.nworkers - 1 }.setTask w
        { σ.task w with pc := if σ.nworkers = 1 then .finished else .sleep })
  | wake (hpc : (σ.task w).pc = .sleep) :
      Step σ w (σ.setTask w { σ.task w with pc := .increase σ.nworkers })
  | finish (hpc : (σ.task w).pc = .increase 0) :
      Step σ w (σ.setTask w { σ.task w with pc := .finished })
  | increase {k : ℕ} (hpc : (σ.task w).pc = .increase (k + 1)) (hn : σ.nworkers = k + 1) :
      Step σ w ({ σ with nworkers := k + 2 }.setTask w { σ.task w with pc := .popLocal })
  | reload {k : ℕ} (hpc : (σ.task w).pc = .increase (k + 1)) (hn : σ.nworkers ≠ k + 1) :
      Step σ w (σ.setTask w { σ.task w with pc := .increase σ.nworkers })

theorem step_of_advance (hok : σ.Undisturbed w choice) (h : σ.advance w choice = some σ') :
    Step σ w σ' := by
  rw [advance.eq_def] at h
  dsimp only at h
  split at h
  · next hpc =>
    split at h
    · next hq => exact Option.some.inj h ▸ .emptyLocal hpc hq
    · next hq => exact Option.some.inj h ▸ .popLocal hpc hq
  · next hpc =>
    split at h
    · next hq => exact Option.some.inj h ▸ .emptyWorker hpc hq
    · next hq => exact Option.some.inj h ▸ .popWorker hpc hq
  · exact Option.some.inj h ▸ .stay
  · next hpc =>
    obtain ⟨hq, hσ⟩ := Option.ite_none_right_eq_some.mp h
    exact Option.some.inj hσ ▸ .emptyGlobal hpc hq
  · next hpc =>
    obtain ⟨hq, hσ⟩ := Option.ite_none_right_eq_some.mp h
    exact Option.some.inj hσ ▸ .popGlobal hpc hq
  · next hpc => exact Option.some.inj h ▸ .giveUp hpc
  · exact Option.some.inj h ▸ .stay
  · next hpc =>
    obtain ⟨-, hσ⟩ := Option.ite_none_right_eq_some.mp h
    exact Option.some.inj hσ ▸ .emptyVictim hpc
  · next hpc =>
    obtain ⟨⟨hne, hq⟩, hσ⟩ := Option.ite_none_right_eq_some.mp h
    exact Option.some.inj hσ ▸ .stealBatch hpc hne hq
  · next hpc => exact Option.some.inj h ▸ .blacken hpc
  · exact absurd rfl hok.1
  · next hpc => exact Option.some.inj h ▸ .traced hpc
  · next hpc => exact Option.some.inj h ▸ .visitField hpc
  · exact absurd rfl hok.1
  · next hpc =>
    split at h
    · next hin => exact Option.some.inj h ▸ .loadMark hpc hin
    · next hout => exact Option.some.inj h ▸ .setFlag hpc hout rfl
  · next hpc =>
    have hword := hok.2
    rw [hpc] at hword
    exact Option.some.inj h ▸ .storeMark hpc (of_decide_eq_true hword) rfl
  · next hpc =>
    split at h
    · next hn => exact Option.some.inj h ▸ .leave hpc hn
    · next hn => exact Option.some.inj h ▸ .decrease hpc hn
  · next hpc => exact Option.some.inj h ▸ .wake hpc
  · next hpc => exact Option.some.inj h ▸ .finish hpc
  · next hpc =>
    split at h
    · next hn => exact Option.some.inj h ▸ .increase hpc hn
    · next hn => exact Option.some.inj h ▸ .reload hpc hn
  · exact absurd h (by simp)

/-! ### Cells that wait to be traced -/

/-- The cells on the lists of a worker and in its hand. -/
def held (t : MarkingTask) : Multiset ℕ := t.queue + t.worker + t.pc.flight

/-- The grey cells that wait for some worker to trace them. -/
def pending (σ : ParallelMarking n) : Multiset ℕ := σ.injector + ∑ u, held (σ.task u)

/-- The cells some worker has traced. -/
def allTraced (σ : ParallelMarking n) : Multiset ℕ := ∑ u, ((σ.task u).traced : Multiset ℕ)

theorem coe_cons (p : ℕ) (l : List ℕ) : ((p :: l : List ℕ) : Multiset ℕ) = {p} + (l : Multiset ℕ) :=
  (Multiset.cons_coe p l).symm.trans (Multiset.singleton_add p l).symm

theorem coe_append (l l' : List ℕ) : ((l ++ l' : List ℕ) : Multiset ℕ) = (l : Multiset ℕ) + l' :=
  (Multiset.coe_add l l').symm

theorem sum_update {M : Type*} [AddCommMonoid M] (f : MarkingTask → M) {t : MarkingTask}
    (htask : σ'.task = Function.update σ.task w t) :
    ∑ u, f (σ'.task u) + f (σ.task w) = ∑ u, f (σ.task u) + f t := by
  have hrest : ∑ u ∈ Finset.univ.erase w, f (σ'.task u) =
      ∑ u ∈ Finset.univ.erase w, f (σ.task u) := by
    refine Finset.sum_congr rfl fun u hu => ?_
    rw [htask, Function.update_of_ne (Finset.ne_of_mem_erase hu)]
  rw [← Finset.add_sum_erase _ _ (Finset.mem_univ w), hrest, htask, Function.update_self,
    ← Finset.add_sum_erase _ (fun u => f (σ.task u)) (Finset.mem_univ w)]
  abel

theorem pending_update {t : MarkingTask} (htask : σ'.task = Function.update σ.task w t) :
    σ'.pending + (held (σ.task w) + σ.injector) = σ.pending + (held t + σ'.injector) := by
  have hsum := sum_update held htask
  calc σ'.pending + (held (σ.task w) + σ.injector)
      = ∑ u, held (σ'.task u) + held (σ.task w) + (σ'.injector + σ.injector) := by
        rw [pending]
        abel
    _ = σ.pending + (held t + σ'.injector) := by
      rw [hsum, pending]
      abel

theorem pending_eq {t : MarkingTask} (htask : σ'.task = Function.update σ.task w t)
    (hheld : held t + σ'.injector = held (σ.task w) + σ.injector) : σ'.pending = σ.pending := by
  have hpending := pending_update htask
  rw [hheld] at hpending
  exact add_right_cancel hpending

theorem pending_eq_cons {t : MarkingTask} {p : ℕ} (htask : σ'.task = Function.update σ.task w t)
    (hheld : held t + σ'.injector = {p} + (held (σ.task w) + σ.injector)) :
    σ'.pending = p ::ₘ σ.pending := by
  have hpending : σ'.pending = σ.pending + {p} :=
    add_right_cancel ((pending_update htask).trans (by rw [hheld, add_assoc]))
  rw [hpending, add_comm, Multiset.singleton_add]

theorem eq_cons_pending {t : MarkingTask} {p : ℕ} (htask : σ'.task = Function.update σ.task w t)
    (hheld : held (σ.task w) + σ.injector = {p} + (held t + σ'.injector)) :
    σ.pending = p ::ₘ σ'.pending := by
  have hpending : σ.pending = σ'.pending + {p} :=
    add_right_cancel ((pending_update htask).symm.trans (by rw [hheld, add_assoc]))
  rw [hpending, add_comm, Multiset.singleton_add]

theorem mem_pending_of_flight {p : ℕ} (hp : p ∈ (σ.task w).pc.flight) : p ∈ σ.pending := by
  rw [pending, Multiset.mem_add]
  refine Or.inr (Multiset.mem_sum.mpr ⟨w, Finset.mem_univ w, ?_⟩)
  rw [held, Multiset.mem_add]
  exact Or.inr hp

theorem pending_stealBatch {victim : Fin n} {t t' : MarkingTask} (hne : victim ≠ w)
    (hheld : held t + held t' = held (σ.task victim) + held (σ.task w)) :
    ((σ.setTask victim t).setTask w t').pending = σ.pending := by
  have hfirst := @pending_update n σ (σ.setTask victim t) victim t rfl
  have hsecond := @pending_update n (σ.setTask victim t) ((σ.setTask victim t).setTask w t') w t' rfl
  have hw : (σ.setTask victim t).task w = σ.task w := Function.update_of_ne hne.symm _ _
  have hinjector : (σ.setTask victim t).injector = σ.injector := rfl
  have hinjector' : ((σ.setTask victim t).setTask w t').injector = σ.injector := rfl
  rw [hinjector, ← add_assoc, ← add_assoc] at hfirst
  rw [hinjector, hinjector', hw, ← add_assoc, ← add_assoc] at hsecond
  refine add_right_cancel (b := held (σ.task victim) + held (σ.task w)) ?_
  calc _ = ((σ.setTask victim t).setTask w t').pending + held (σ.task w) + held (σ.task victim) := by
        abel
    _ = (σ.setTask victim t).pending + held (σ.task victim) + held t' := by
        rw [add_right_cancel hsecond]
        abel
    _ = σ.pending + (held t + held t') := by
        rw [add_right_cancel hfirst]
        abel
    _ = _ := by rw [hheld]

/-! ### The effect of a step on marking -/

/-- What a step does to the colours, the marks and the cells that wait. -/
inductive Effect (σ : ParallelMarking n) (w : Fin n) (σ' : ParallelMarking n) : Prop
  | quiet (hspace : σ'.space = σ.space) (hpending : σ'.pending = σ.pending)
      (htraced : (σ'.task w).traced = (σ.task w).traced)
      (hfields : (σ'.task w).pc.fields = (σ.task w).pc.fields)
      (hunmarked : (σ'.task w).pc.unmarked = (σ.task w).pc.unmarked)
  | drop {p : ℕ} (hp : p ∈ σ.pending) (hstate : (σ.space.objects p).state ≠ .grey)
  | blacken {p : ℕ} (hspace : σ'.space = σ.space.forceSetState p .black)
      (hpending : σ.pending = p ::ₘ σ'.pending)
      (htraced : (σ'.task w).traced = p :: (σ.task w).traced)
      (hfields : (σ.task w).pc.fields = [])
      (hfields' : (σ'.task w).pc.fields = (σ.space.objects p).payload.trace)
      (hunmarked : (σ'.task w).pc.unmarked = (σ.task w).pc.unmarked)
  | skip {q : ℕ} (hspace : σ'.space = σ.space) (hpending : σ'.pending = σ.pending)
      (htraced : (σ'.task w).traced = (σ.task w).traced)
      (hfields : (σ.task w).pc.fields = q :: (σ'.task w).pc.fields)
      (hunmarked : (σ'.task w).pc.unmarked = (σ.task w).pc.unmarked)
      (hq : ¬ (σ.space.isHeapPointer q = true ∧ (σ.space.objects q).state = .white))
  | grey {q : ℕ} (hspace : σ'.space = σ.space.forceSetState q .grey)
      (hpending : σ'.pending = q ::ₘ σ.pending)
      (htraced : (σ'.task w).traced = (σ.task w).traced)
      (hfields : (σ.task w).pc.fields = q :: (σ'.task w).pc.fields)
      (hunmarked : (σ.task w).pc.unmarked = [])
      (hunmarked' : (σ'.task w).pc.unmarked = [q])
      (hheap : σ.space.isHeapPointer q = true) (hwhite : (σ.space.objects q).state = .white)
  | mark {p : ℕ} (hspace : σ'.space = σ.space.mark p) (hpending : σ'.pending = σ.pending)
      (htraced : (σ'.task w).traced = (σ.task w).traced)
      (hfields : (σ'.task w).pc.fields = (σ.task w).pc.fields)
      (hunmarked : (σ.task w).pc.unmarked = [p])
      (hunmarked' : (σ'.task w).pc.unmarked = [])

/-- The worker that stores a word of the mark bitmap has a small cell in hand. -/
def StoresSmall (σ : ParallelMarking n) : Prop :=
  ∀ u p oldWord fields, (σ.task u).pc = .store p oldWord fields →
    σ.space.liveBitmap.hasAddress p = true

theorem task_setTask_self (σ : ParallelMarking n) (w : Fin n) (t : MarkingTask) :
    (σ.setTask w t).task w = t := Function.update_self _ _ _

theorem or_twoPow_of_and_ne_zero (word : BitVec 64) {k : ℕ} (hk : k < 64)
    (h : word &&& BitVec.twoPow 64 k ≠ 0#64) : word ||| BitVec.twoPow 64 k = word := by
  have hbit := (SpaceBitmap.and_twoPow_ne_zero word hk).mp h
  refine BitVec.eq_of_getLsbD_eq fun i hi => ?_
  rw [BitVec.getLsbD_or, BitVec.getLsbD_twoPow]
  by_cases hik : k = i
  · subst hik
    rw [hbit, Bool.true_or]
  · simp [hik]

theorem storeMark_eq {s : Space} {p : ℕ} {oldWord : BitVec 64}
    (hin : s.liveBitmap.hasAddress p = true)
    (hword : s.markBitmap.word (SpaceBitmap.offsetToIndex (s.markBitmap.offset p)) = oldWord) :
    storeMark s p oldWord = s.mark p := by
  rw [Space.mark_eq_of_hasAddress hin, SpaceBitmap.set, SpaceBitmap.modify, storeMark]
  dsimp only
  rw [if_pos rfl, hword]
  split
  · rfl
  · next hbit =>
    have hsame := or_twoPow_of_and_ne_zero oldWord (SpaceBitmap.offsetBitIndex_lt _) hbit
    rw [SpaceBitmap.offsetToMask, hsame, ← hword, Function.update_eq_self]

theorem Effect.move {t : MarkingTask} (htask : σ'.task = Function.update σ.task w t)
    (hspace : σ'.space = σ.space) (hheld : held t + σ'.injector = held (σ.task w) + σ.injector)
    (htraced : t.traced = (σ.task w).traced) (hfields : t.pc.fields = (σ.task w).pc.fields)
    (hunmarked : t.pc.unmarked = (σ.task w).pc.unmarked) : Effect σ w σ' := by
  have ht : σ'.task w = t := by rw [htask, Function.update_self]
  refine .quiet hspace (pending_eq htask hheld) ?_ ?_ ?_
  · rw [ht, htraced]
  · rw [ht, hfields]
  · rw [ht, hunmarked]

theorem Effect.goto {pc : Pc} (htask : σ'.task = Function.update σ.task w { σ.task w with pc := pc })
    (hspace : σ'.space = σ.space) (hinjector : σ'.injector = σ.injector)
    (hpc : (σ.task w).pc.flight = pc.flight ∧ (σ.task w).pc.fields = pc.fields ∧
      (σ.task w).pc.unmarked = pc.unmarked) : Effect σ w σ' := by
  refine .move htask hspace ?_ rfl hpc.2.1.symm hpc.2.2.symm
  rw [held, held, hpc.1, hinjector]

theorem Effect.marked {p : ℕ} {fields : List ℕ} {s : Space} (hspace : s = σ.space.mark p)
    (hflight : (σ.task w).pc.flight = [p]) (hfields : (σ.task w).pc.fields = fields)
    (hunmarked : (σ.task w).pc.unmarked = [p]) :
    Effect σ w ({ σ with space := s }.setTask w
      { σ.task w with pc := .trace fields, queue := p :: (σ.task w).queue }) := by
  refine .mark hspace (pending_eq rfl ?_) ?_ ?_ hunmarked ?_
  · have hnil : (Pc.trace fields).flight = [] := rfl
    simp only [held, hflight, hnil, coe_cons, Multiset.coe_nil, setTask]
    abel
  · rw [task_setTask_self]
  · rw [task_setTask_self, hfields]
    rfl
  · rw [task_setTask_self]
    rfl

theorem maybePushToInjector_snd_traced (injector : List ℕ) (t : MarkingTask) :
    (maybePushToInjector injector t).2.traced = t.traced := by
  rw [maybePushToInjector]
  split
  · split <;> rfl
  · rfl

theorem maybePushToInjector_snd_worker (injector : List ℕ) (t : MarkingTask) :
    (maybePushToInjector injector t).2.worker = t.worker := by
  rw [maybePushToInjector]
  split
  · split <;> rfl
  · rfl

theorem maybePushToInjector_perm (injector : List ℕ) (t : MarkingTask) :
    ((maybePushToInjector injector t).2.queue : Multiset ℕ) + (maybePushToInjector injector t).1 =
      t.queue + injector := by
  rw [maybePushToInjector]
  split
  · split
    · dsimp only
      obtain ⟨k, hk⟩ : ∃ k, t.queue.length - t.queue.length / 2 = k := ⟨_, rfl⟩
      have hsplit : (t.queue : Multiset ℕ) = t.queue.take k + t.queue.drop k := by
        rw [Multiset.coe_add, List.take_append_drop]
      rw [hk, coe_append, hsplit]
      abel
    · rfl
  · rfl

theorem effect_of_step (hstep : Step σ w σ') (hsmall : σ.StoresSmall) : Effect σ w σ' := by
  cases hstep with
  | stay => exact .quiet rfl rfl rfl rfl rfl
  | emptyLocal hpc hq =>
    exact .goto rfl rfl rfl (by rw [hpc]; exact ⟨rfl, rfl, rfl⟩)
  | popLocal hpc hq =>
    refine .move rfl rfl ?_ rfl (by rw [hpc]; rfl) (by rw [hpc]; rfl)
    simp only [held, hq, hpc, Pc.flight, coe_cons, Multiset.coe_nil, setTask]
    abel
  | emptyWorker hpc hq => exact .goto rfl rfl rfl (by rw [hpc]; exact ⟨rfl, rfl, rfl⟩)
  | popWorker hpc hq =>
    refine .move rfl rfl ?_ rfl (by rw [hpc]; rfl) (by rw [hpc]; rfl)
    simp only [held, hq, hpc, Pc.flight, coe_cons, Multiset.coe_nil, setTask]
    abel
  | emptyGlobal hpc hq =>
    refine .goto rfl rfl rfl ?_
    rw [hpc]
    split <;> exact ⟨rfl, rfl, rfl⟩
  | @popGlobal p batch rest hpc hq =>
    refine .move rfl rfl ?_ rfl (by rw [hpc]; rfl) (by rw [hpc]; rfl)
    have hinjector : (σ.injector : Multiset ℕ) = {p} + ↑batch + ↑rest := by
      rw [Multiset.coe_eq_coe.mpr hq, coe_append, coe_cons]
    simp only [held, hinjector, hpc, Pc.flight, coe_cons, coe_append, Multiset.coe_nil, setTask]
    abel
  | giveUp hpc | emptyVictim hpc => exact .goto rfl rfl rfl (by rw [hpc]; exact ⟨rfl, rfl, rfl⟩)
  | @stealBatch attempts p batch rest victim hpc hne hq =>
    have hvictim : ((σ.task victim).worker : Multiset ℕ) = {p} + ↑batch + ↑rest := by
      rw [Multiset.coe_eq_coe.mpr hq, coe_append, coe_cons]
    refine .quiet rfl (pending_stealBatch hne ?_) ?_ ?_ ?_
    · simp only [held, hvictim, hpc, Pc.flight, coe_cons, coe_append, Multiset.coe_nil]
      abel
    · rw [task_setTask_self]
    · rw [task_setTask_self, hpc]
      rfl
    · rw [task_setTask_self, hpc]
      rfl
  | @blacken p hpc =>
    rw [blacken]
    split
    · next hgrey =>
      refine .blacken rfl (eq_cons_pending rfl ?_) ?_ ?_ ?_ ?_
      · simp only [held, hpc, Pc.flight, coe_cons, Multiset.coe_nil, setTask]
        abel
      · rw [task_setTask_self]
      · rw [hpc]
        rfl
      · rw [task_setTask_self]
        rfl
      · rw [task_setTask_self, hpc]
        rfl
    · next hgrey =>
      refine .drop (mem_pending_of_flight (w := w) (p := p) ?_) fun hstate => hgrey ⟨hstate, rfl⟩
      rw [hpc]
      exact List.mem_singleton_self p
  | traced hpc =>
    refine .move rfl rfl ?_ (maybePushToInjector_snd_traced _ _) (by rw [hpc]; rfl)
      (by rw [hpc]; rfl)
    have hperm := maybePushToInjector_perm σ.injector (σ.task w)
    simp only [held, hpc, Pc.flight, Multiset.coe_nil, setTask, maybePushToInjector_snd_worker]
    calc _ = ((maybePushToInjector σ.injector (σ.task w)).2.queue : Multiset ℕ) +
          (maybePushToInjector σ.injector (σ.task w)).1 + (σ.task w).worker := by abel
      _ = _ := by
        rw [hperm]
        abel
  | @visitField q fields hpc =>
    rw [visitField]
    split
    · next hq =>
      refine .grey rfl (pending_eq_cons rfl ?_) ?_ ?_ ?_ ?_ hq.1 hq.2.1
      · simp only [held, hpc, Pc.flight, coe_cons, Multiset.coe_nil, setTask]
        abel
      · rw [task_setTask_self]
      · rw [task_setTask_self, hpc]
        rfl
      · rw [hpc]
        rfl
      · rw [task_setTask_self]
        rfl
    · next hq =>
      refine .skip rfl (pending_eq rfl ?_) ?_ ?_ ?_ fun hwhite => hq ⟨hwhite.1, hwhite.2, rfl⟩
      · simp only [held, hpc, Pc.flight, Multiset.coe_nil, setTask]
      · rw [task_setTask_self]
      · rw [task_setTask_self, hpc]
        rfl
      · rw [task_setTask_self, hpc]
        rfl
  | loadMark hpc hin => exact .goto rfl rfl rfl (by rw [hpc]; exact ⟨rfl, rfl, rfl⟩)
  | setFlag hpc hout hs =>
    exact .marked hs (by rw [hpc]; rfl) (by rw [hpc]; rfl) (by rw [hpc]; rfl)
  | storeMark hpc hword hs =>
    exact .marked (hs.trans (storeMark_eq (hsmall _ _ _ _ hpc) hword)) (by rw [hpc]; rfl)
      (by rw [hpc]; rfl) (by rw [hpc]; rfl)
  | leave hpc hn => exact .goto rfl rfl rfl (by rw [hpc]; exact ⟨rfl, rfl, rfl⟩)
  | decrease hpc hn =>
    refine .goto rfl rfl rfl ?_
    rw [hpc]
    split <;> exact ⟨rfl, rfl, rfl⟩
  | wake hpc | finish hpc | increase hpc hn
  | reload hpc hn => exact .goto rfl rfl rfl (by rw [hpc]; exact ⟨rfl, rfl, rfl⟩)

/-! ### What a step leaves alone -/

theorem task_setTask_of_ne (hne : u ≠ w) (σ : ParallelMarking n) (t : MarkingTask) :
    (σ.setTask w t).task u = σ.task u := Function.update_of_ne hne _ _

theorem task_of_step (hstep : Step σ w σ') (hne : u ≠ w) :
    ∃ worker, σ'.task u = { σ.task u with worker := worker } ∧
      ((σ.task u).worker = [] → worker = []) := by
  have hother : ∀ (s : Space) (injector : List ℕ) (k : ℕ) (t : MarkingTask),
      ∃ worker, ((⟨s, injector, k, σ.task⟩ : ParallelMarking n).setTask w t).task u =
        { σ.task u with worker := worker } ∧ ((σ.task u).worker = [] → worker = []) :=
    fun s injector k t => ⟨(σ.task u).worker, task_setTask_of_ne hne _ _, id⟩
  cases hstep with
  | stay => exact ⟨_, rfl, id⟩
  | @stealBatch _ _ _ rest victim _ _ hq =>
    rw [task_setTask_of_ne hne]
    by_cases hu : u = victim
    · subst hu
      refine ⟨rest, task_setTask_self _ _ _, fun hnil => ?_⟩
      rw [hnil, List.nil_perm] at hq
      exact absurd hq (List.cons_ne_nil _ _)
    · exact ⟨(σ.task u).worker, task_setTask_of_ne hu _ _, id⟩
  | blacken hpc =>
    rw [blacken]
    split <;> exact hother _ _ _ _
  | visitField hpc =>
    rw [visitField]
    split <;> exact hother _ _ _ _
  | _ => exact hother _ _ _ _

theorem store_of_step (hstep : Step σ w σ') {p : ℕ} {oldWord : BitVec 64} {fields : List ℕ}
    (hpc' : (σ'.task w).pc = .store p oldWord fields) :
    σ.space.liveBitmap.hasAddress p = true ∨ (σ.task w).pc = .store p oldWord fields := by
  cases hstep with
  | stay => exact Or.inr hpc'
  | loadMark hpc hin =>
    rw [task_setTask_self] at hpc'
    injection hpc' with hp
    exact Or.inl (hp ▸ hin)
  | blacken hpc =>
    rw [blacken] at hpc'
    split at hpc' <;> simp [task_setTask_self] at hpc'
  | visitField hpc =>
    rw [visitField] at hpc'
    split at hpc' <;> simp [task_setTask_self] at hpc'
  | emptyGlobal hpc hq | decrease hpc hn =>
    rw [task_setTask_self] at hpc'
    split at hpc' <;> cases hpc'
  | _ =>
    rw [task_setTask_self] at hpc'
    cases hpc'

end ParallelMarking

end Starlight.Gc
