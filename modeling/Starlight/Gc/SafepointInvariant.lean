import Mathlib.Data.Finset.Card
import Starlight.Gc.Safepoint

/-!
# The invariant of the safepoint protocol

The lock of the list of mutators is held through a safepoint scope, so that the protocol is in one of
six phases, and in each of them the mutators that have been asked to stop are known. A mutator that
was running when it was asked is pending until its thread has told the barrier that it parked; the
pending ones and the stopped ones make up the number the initiator waits for.

`Regular` keeps out the steps that break the protocol. Nothing arms the barrier, so that the assertion
of `disarm` fails whenever a thread gets to it.
-/

namespace Starlight.Gc

namespace GlobalSafepoint

variable {T : Type*} [DecidableEq T] {main : T → Bool} {σ σ' : GlobalSafepoint T} {t u i m : T}

/-! ### Regular runs -/

/-- The event does not take one of the branches that go wrong: the early return of
`enter_safepoint_scope`, the slow path of `unpark` on the main thread, its exchange of `Parked` on
another thread, and the assertion of `disarm` with a barrier that is not armed. -/
def Regular (main : T → Bool) (σ : GlobalSafepoint T) : Event T → Prop
  | .call _ _ => True
  | .advance t =>
    match (σ.thread t).pc with
    | .enterTest => ¬ 1 < σ.activeSafepointScopes
    | .unparkSlowpath => main t = false ∧ σ.state t ≠ .parked
    | .disarm => σ.armed = true
    | _ => True

/-- The states that regular events reach. -/
def RegularReachable (main : T → Bool) (σ : GlobalSafepoint T) : Prop :=
  Relation.ReflTransGen (fun τ τ' => ∃ e, Regular main τ e ∧ step main τ e = some τ') new σ

/-! ### Phases -/

/-- Who holds the lock of the list, and what for: a change of the list, the scan of
`enter_safepoint_scope` with the mutators it has still to ask, its wait for `running` threads, the
scope itself, or the scan of `leave_safepoint_scope` with the mutators it has still to park. -/
inductive Phase (T : Type*)
  | free
  | guarded (t : T)
  | scanning (i : T) (rest : List T) (running : ℕ)
  | waiting (i : T) (running : ℕ)
  | held (i : T)
  | leaving (i : T) (rest : List T)

namespace Phase

variable {φ : Phase T}

def holder : Phase T → Option T
  | .free => none
  | .guarded t => some t
  | .scanning i _ _ | .waiting i _ | .held i | .leaving i _ => some i

/-- The mutators that have been asked to stop and not been parked again. -/
def requested (mutators : List T) : Phase T → Set T
  | .free | .guarded _ => ∅
  | .scanning _ rest _ => {m | m ∈ mutators ∧ m ∉ rest}
  | .waiting _ _ | .held _ => {m | m ∈ mutators}
  | .leaving _ rest => {m | m ∈ rest}

/-- The number of mutators that were running when they were asked, until all of them have stopped. -/
def running : Phase T → Option ℕ
  | .free | .guarded _ => some 0
  | .scanning _ _ running | .waiting _ running => some running
  | .held _ | .leaving _ _ => none

end Phase

/-- The places at which a thread holds the lock. -/
def SafepointPc.inside : SafepointPc T → Bool
  | .addMutator | .removeMutator | .load _ _ | .exchange _ _ _ _ | .waitStopped _ | .leaveLoad
  | .leaveStore _ | .swap _ | .disarm | .unlock => true
  | _ => false

/-- Where the holder of the lock is. -/
def Phase.Holds (mutators : List T) (th : SafepointThread T) : Phase T → Prop
  | .free => False
  | .guarded _ => th.scopes = 0 ∧ (th.pc = .addMutator ∨ th.pc = .removeMutator)
  | .scanning _ rest r => th.scopes = 0 ∧ rest <:+ mutators ∧ (th.pc = .load rest r ∨
      ∃ m e next, rest = m :: next ∧ th.pc = .exchange m e next r ∧ (e = .running ∨ e = .parked))
  | .waiting _ r => th.scopes = 0 ∧ th.pc = .waitStopped r
  | .held _ => th.scopes = 1 ∧ SafepointPc.inside th.pc = false
  | .leaving _ rest => th.scopes = 0 ∧ rest <:+ mutators ∧
      (rest = mutators ∧ (th.pc = .leaveLoad ∨ ∃ n, th.pc = .leaveStore n) ∨
        th.pc = .swap rest ∨ rest = [] ∧ th.pc = .disarm)

/-- The mutator has been asked to stop. -/
def Requested (σ : GlobalSafepoint T) (t : T) : Prop :=
  σ.state t = .safepointRequested ∨ σ.state t = .parkedSafepointRequested

/-- The mutator was running when it was asked to stop, and the barrier does not count it yet. -/
def Pending (σ : GlobalSafepoint T) (t : T) : Prop :=
  σ.state t = .safepointRequested ∨ (σ.thread t).pc = .notifyPark

instance : DecidablePred σ.Pending := fun _ => inferInstanceAs (Decidable (_ ∨ _))

/-- The pending mutators of the list. -/
def pending (σ : GlobalSafepoint T) : Finset T := σ.mutators.toFinset.filter σ.Pending

theorem mem_pending : t ∈ σ.pending ↔ t ∈ σ.mutators ∧ σ.Pending t := by
  rw [pending, Finset.mem_filter, List.mem_toFinset]

def StateOk (th : SafepointThread T) (s : MutatorState) : Prop :=
  match th.pc with
  | .parkSlowpath => th.parked = false ∧ s = .safepointRequested
  | .notifyPark => th.parked = false ∧ s = .parkedSafepointRequested
  | .unparkSlowpath | .waitInUnpark =>
    th.parked = true ∧ (s = .parked ∨ s = .parkedSafepointRequested)
  | .unlock | .panicked => False
  | _ => if th.parked then s = .parked ∨ s = .parkedSafepointRequested
      else s = .running ∨ s = .safepointRequested

/-- The invariant of regular runs. -/
structure Inv (σ : GlobalSafepoint T) (φ : Phase T) : Prop where
  nodup : σ.mutators.Nodup
  armed : σ.armed = false
  lock : σ.lock = φ.holder
  holds : ∀ i, φ.holder = some i → φ.Holds σ.mutators (σ.thread i)
  others : ∀ t, φ.holder ≠ some t →
    SafepointPc.inside (σ.thread t).pc = false ∧ (σ.thread t).scopes = 0
  requested : ∀ t, σ.Requested t ↔ t ∈ φ.requested σ.mutators
  state : ∀ t, StateOk (σ.thread t) (σ.state t)
  counted : ∀ r, φ.running = some r → σ.stopped + σ.pending.card = r
  settled : φ.running = none → ∀ t, ¬ σ.Pending t
  adding : ∀ t, (σ.thread t).pc = .addLock ∨ (σ.thread t).pc = .addMutator → t ∉ σ.mutators

theorem inv_new : Inv (new : GlobalSafepoint T) .free where
  nodup := List.nodup_nil
  armed := rfl
  lock := rfl
  holds _ h := by cases h
  others _ _ := ⟨rfl, rfl⟩
  requested _ := by
    constructor
    · rintro (h | h) <;> cases h
    · exact fun h => h.elim
  state _ := .inl rfl
  counted r h := by
    cases h
    rfl
  settled h := by cases h
  adding _ _ := List.not_mem_nil

variable {φ φ' : Phase T}

/-! ### Steps -/

/-- Only the thread `t`, and the state word of the mutator `m`, change. -/
structure Moves (t m : T) (σ σ' : GlobalSafepoint T) : Prop where
  armed : σ'.armed = σ.armed
  thread : ∀ u, u ≠ t → σ'.thread u = σ.thread u
  state : ∀ u, u ≠ m → σ'.state u = σ.state u

theorem pending_congr (hm : σ'.mutators = σ.mutators) (h : ∀ u, σ'.Pending u ↔ σ.Pending u) :
    σ'.pending = σ.pending := by
  ext u
  rw [mem_pending, mem_pending, hm, h u]

omit [DecidableEq T] in
theorem Moves.pending_iff (h : Moves t t σ σ') (hu : u ≠ t) : σ'.Pending u ↔ σ.Pending u := by
  rw [Pending, Pending, h.state u hu, h.thread u hu]

omit [DecidableEq T] in
theorem Moves.requested_iff (h : Moves t m σ σ') (hu : u ≠ m) : σ'.Requested u ↔ σ.Requested u := by
  rw [Requested, Requested, h.state u hu]

theorem Inv.outer (h : Inv σ φ) (hmv : Moves t t σ σ') (hm : σ'.mutators = σ.mutators)
    (hl : σ'.lock = σ.lock) (hpc : SafepointPc.inside (σ.thread t).pc = false)
    (hpc' : SafepointPc.inside (σ'.thread t).pc = false)
    (hscopes : (σ'.thread t).scopes = (σ.thread t).scopes)
    (hstate : StateOk (σ'.thread t) (σ'.state t)) (hreq : σ'.Requested t ↔ σ.Requested t)
    (hcount : ∀ r, φ.running = some r → σ'.stopped + σ'.pending.card = r)
    (hpend : σ'.Pending t → σ.Pending t)
    (hadd : (σ'.thread t).pc = .addLock → t ∉ σ.mutators) : Inv σ' φ := by
  constructor
  case nodup => exact hm ▸ h.nodup
  case armed => exact hmv.armed.trans h.armed
  case lock => exact hl.trans h.lock
  case counted => exact hcount
  case holds =>
    intro i hi
    have hh := h.holds i hi
    by_cases hit : i = t
    · -- a holder that is at no place inside is in its scope
      subst hit
      cases φ with
      | held j => exact ⟨hscopes.trans hh.1, hpc'⟩
      | free => exact hh.elim
      | guarded j => rcases hh.2 with hp | hp <;> rw [hp] at hpc <;> cases hpc
      | scanning j rest r =>
        rcases hh.2.2 with hp | ⟨m, e, next, -, hp, -⟩ <;> rw [hp] at hpc <;> cases hpc
      | waiting j r => rw [hh.2] at hpc; cases hpc
      | leaving j rest =>
        rcases hh.2.2 with ⟨-, hp | ⟨n, hp⟩⟩ | hp | ⟨-, hp⟩ <;> rw [hp] at hpc <;> cases hpc
    · rw [hm, hmv.thread i hit]
      exact hh
  case others =>
    intro u hu
    by_cases hut : u = t
    · subst hut
      exact ⟨hpc', hscopes.trans (h.others u hu).2⟩
    · rw [hmv.thread u hut]
      exact h.others u hu
  case requested =>
    intro u
    rw [hm, ← h.requested u]
    by_cases hut : u = t
    · exact hut ▸ hreq
    · exact hmv.requested_iff hut
  case state =>
    intro u
    by_cases hut : u = t
    · exact hut ▸ hstate
    · rw [hmv.thread u hut, hmv.state u hut]
      exact h.state u
  case settled =>
    intro hr u hp
    by_cases hut : u = t
    · exact h.settled hr u (hut ▸ hpend (hut ▸ hp))
    · exact h.settled hr u ((hmv.pending_iff hut).mp hp)
  case adding =>
    intro u hu
    rw [hm]
    by_cases hut : u = t
    · subst hut
      rcases hu with hu | hu
      · exact hadd hu
      · rw [hu] at hpc'
        cases hpc'
    · rw [hmv.thread u hut] at hu
      exact h.adding u hu

theorem Inv.quiet (h : Inv σ φ) (hmv : Moves t t σ σ') (hm : σ'.mutators = σ.mutators)
    (hl : σ'.lock = σ.lock) (hs : σ'.stopped = σ.stopped)
    (hpc : SafepointPc.inside (σ.thread t).pc = false)
    (hpc' : SafepointPc.inside (σ'.thread t).pc = false)
    (hscopes : (σ'.thread t).scopes = (σ.thread t).scopes)
    (hstate : StateOk (σ'.thread t) (σ'.state t)) (hreq : σ'.Requested t ↔ σ.Requested t)
    (hpend : σ'.Pending t ↔ σ.Pending t)
    (hadd : (σ'.thread t).pc = .addLock → t ∉ σ.mutators) : Inv σ' φ := by
  refine h.outer hmv hm hl hpc hpc' hscopes hstate hreq ?_ hpend.mp hadd
  intro r hr
  rw [hs, pending_congr hm fun u => ?_]
  · exact h.counted r hr
  · by_cases hu : u = t
    · exact hu ▸ hpend
    · exact hmv.pending_iff hu

theorem Inv.requested_of_pending (h : Inv σ φ) (hp : σ.Pending t) : σ.Requested t := by
  rcases hp with hp | hp
  · exact .inl hp
  · have hs := h.state t
    unfold StateOk at hs
    rw [hp] at hs
    exact .inr hs.2

theorem Inv.notify (h : Inv σ φ) (hmv : Moves t t σ σ') (hm : σ'.mutators = σ.mutators)
    (hl : σ'.lock = σ.lock) (hs : σ'.stopped = σ.stopped + 1) (hst : σ'.state t = σ.state t)
    (hpc : (σ.thread t).pc = .notifyPark)
    (hth : σ'.thread t = ⟨.outside, true, (σ.thread t).scopes⟩) : Inv σ' φ := by
  have hok := h.state t
  unfold StateOk at hok
  rw [hpc] at hok
  have hnp : ¬ σ'.Pending t := by
    rw [Pending, hst, hok.2, hth]
    rintro (hp | hp) <;> cases hp
  have hreq : t ∈ φ.requested σ.mutators := (h.requested t).mp (.inr hok.2)
  refine h.outer hmv hm hl (by rw [hpc]; rfl) (by rw [hth]; rfl) (by rw [hth]) ?_ ?_ ?_ ?_ ?_
  · rw [hth, hst, hok.2]
    exact .inr rfl
  · rw [Requested, Requested, hst]
  · intro r hr
    have hmem : t ∈ σ.pending := by
      refine mem_pending.mpr ⟨?_, .inr hpc⟩
      cases φ with
      | scanning j rest r => exact hreq.1
      | waiting j r => exact hreq
      | free | guarded j => exact hreq.elim
      | held j => cases hr
      | leaving j rest => cases hr
    -- one mutator less is pending, one more has stopped
    have herase : σ'.pending = σ.pending.erase t := by
      ext u
      rw [Finset.mem_erase, mem_pending, mem_pending, hm]
      by_cases hu : u = t
      · subst hu
        exact ⟨fun hp => absurd hp.2 hnp, fun hp => absurd rfl hp.1⟩
      · rw [hmv.pending_iff hu]
        exact (and_iff_right hu).symm
    rw [hs, herase, Nat.add_assoc, Nat.add_comm 1, Finset.card_erase_add_one hmem]
    exact h.counted r hr
  · exact fun hp => absurd hp hnp
  · rw [hth]
    intro hp
    cases hp

/-- The thread `t` holds the lock before the step or takes it with the step, and changes no word that
the other threads read. -/
theorem Inv.own (h : Inv σ φ) (hmv : Moves t t σ σ') (hm : σ'.mutators = σ.mutators)
    (hs : σ'.stopped = σ.stopped) (hst : σ'.state t = σ.state t)
    (hfree : φ.holder = none ∨ φ.holder = some t) (hφ : φ'.holder = some t)
    (hl : σ'.lock = some t) (hholds : φ'.Holds σ.mutators (σ'.thread t))
    (hreq : φ'.requested σ.mutators = φ.requested σ.mutators)
    (hrun : φ'.running = φ.running ∨ φ'.running = none ∧ ∀ u, ¬ σ.Pending u)
    (hpend : σ'.Pending t ↔ σ.Pending t) (hstate : StateOk (σ'.thread t) (σ.state t))
    (hadd : (σ'.thread t).pc = .addMutator → t ∉ σ.mutators)
    (hlock : (σ'.thread t).pc ≠ .addLock) : Inv σ' φ' := by
  have hpending : ∀ u, σ'.Pending u ↔ σ.Pending u := by
    intro u
    by_cases hu : u = t
    · exact hu ▸ hpend
    · exact hmv.pending_iff hu
  -- no other thread had the lock
  have hother : ∀ u, u ≠ t → φ.holder ≠ some u := by
    intro u hu hh
    rcases hfree with hf | hf <;> rw [hf] at hh
    · cases hh
    · exact hu (Option.some.inj hh).symm
  constructor
  case nodup => exact hm ▸ h.nodup
  case armed => exact hmv.armed.trans h.armed
  case lock => exact hl.trans hφ.symm
  case holds =>
    intro i hi
    obtain rfl := Option.some.inj (hφ.symm.trans hi)
    rw [hm]
    exact hholds
  case others =>
    intro u hu
    have hut : u ≠ t := fun hut => hu (hut ▸ hφ)
    rw [hmv.thread u hut]
    exact h.others u (hother u hut)
  case requested =>
    intro u
    rw [hm, hreq, ← h.requested u]
    by_cases hut : u = t
    · rw [hut, Requested, Requested, hst]
    · exact hmv.requested_iff hut
  case state =>
    intro u
    by_cases hut : u = t
    · rw [hut, hst]
      exact hstate
    · rw [hmv.thread u hut, hmv.state u hut]
      exact h.state u
  case counted =>
    intro r hr
    rw [hs, pending_congr hm hpending]
    rcases hrun with hrun | ⟨hrun, -⟩
    · exact h.counted r (hrun ▸ hr)
    · rw [hrun] at hr
      cases hr
  case settled =>
    intro hr u
    rw [hpending]
    rcases hrun with hrun | ⟨-, hrun⟩
    · exact h.settled (hrun ▸ hr) u
    · exact hrun u
  case adding =>
    intro u hu
    rw [hm]
    by_cases hut : u = t
    · subst hut
      rcases hu with hu | hu
      · exact absurd hu hlock
      · exact hadd hu
    · rw [hmv.thread u hut] at hu
      exact h.adding u hu

/-! ### Where a thread is -/

theorem Inv.holder_of_inside (h : Inv σ φ) (hpc : SafepointPc.inside (σ.thread t).pc = true) :
    φ.holder = some t := by
  by_contra hne
  rw [(h.others t hne).1] at hpc
  cases hpc

theorem Inv.held (h : Inv σ φ) (hs : 0 < (σ.thread t).scopes) :
    φ = .held t ∧ (σ.thread t).scopes = 1 := by
  have hh : φ.holder = some t := by
    by_contra hne
    rw [(h.others t hne).2] at hs
    exact absurd hs (lt_irrefl 0)
  have hholds := h.holds t hh
  cases φ with
  | held j => exact ⟨congrArg _ (Option.some.inj hh), hholds.1⟩
  | free => cases hh
  | guarded j | scanning j rest r | waiting j r
  | leaving j rest => exact absurd hs (by rw [hholds.1]; exact lt_irrefl 0)

theorem Inv.stopped_of_settled (h : Inv σ φ) (hr : φ.running = none)
    (hm : m ∈ φ.requested σ.mutators) : σ.state m = .parkedSafepointRequested := by
  rcases (h.requested m).mpr hm with hs | hs
  · exact absurd (.inl hs) (h.settled hr m)
  · exact hs

theorem Inv.exclusive (h : Inv σ φ) : σ.Exclusive := by
  intro i m hi hm _ hrun
  obtain ⟨rfl, -⟩ := h.held hi
  have hstop : σ.state m = .parkedSafepointRequested := h.stopped_of_settled rfl hm
  rw [hstop] at hrun
  cases hrun

theorem Inv.noFailure (h : Inv σ φ) : σ.NoFailure := by
  intro t ht
  have hs := h.state t
  unfold StateOk at hs
  rw [ht] at hs
  exact hs

/-! ### The steps of the holder that change what the others read -/

theorem Inv.release (h : Inv σ (.guarded t)) (hmv : Moves t t σ σ') (hl : σ'.lock = none)
    (hs : σ'.stopped = σ.stopped) (hst : σ'.state t = σ.state t)
    (hth : σ'.thread t = { σ.thread t with pc := .outside }) (hnodup : σ'.mutators.Nodup)
    (hmem : ∀ u, u ≠ t → u ∈ σ'.mutators → u ∈ σ.mutators)
    (hok : StateOk (σ'.thread t) (σ.state t)) : Inv σ' .free := by
  -- while the lock is only guarding the list, no mutator is asked to stop
  have hreq : ∀ u, ¬ σ.Requested u := fun u hu => (h.requested u).mp hu
  have hpend : ∀ u, ¬ σ.Pending u := fun u hu => hreq u (h.requested_of_pending hu)
  have hreq' : ∀ u, ¬ σ'.Requested u := by
    intro u
    by_cases hut : u = t
    · rw [hut, Requested, hst]
      exact hreq t
    · rw [hmv.requested_iff hut]
      exact hreq u
  have hpend' : ∀ u, ¬ σ'.Pending u := by
    intro u
    by_cases hut : u = t
    · rw [hut, Pending, hst, hth]
      rintro (hp | hp)
      · exact hreq t (.inl hp)
      · cases hp
    · rw [hmv.pending_iff hut]
      exact hpend u
  have hempty : ∀ {τ : GlobalSafepoint T}, (∀ u, ¬ τ.Pending u) → τ.pending = ∅ :=
    fun hτ => Finset.filter_false_of_mem fun u _ => hτ u
  constructor
  case nodup => exact hnodup
  case armed => exact hmv.armed.trans h.armed
  case lock => exact hl
  case holds =>
    intro i hi
    cases hi
  case others =>
    intro u _
    by_cases hut : u = t
    · rw [hut, hth]
      exact ⟨rfl, (h.holds t rfl).1⟩
    · rw [hmv.thread u hut]
      exact h.others u fun hu => hut (Option.some.inj hu).symm
  case requested =>
    exact fun u => ⟨fun hu => hreq' u hu, fun hu => hu.elim⟩
  case state =>
    intro u
    by_cases hut : u = t
    · rw [hut, hst]
      exact hok
    · rw [hmv.thread u hut, hmv.state u hut]
      exact h.state u
  case counted =>
    intro r hr
    rw [hs, hempty hpend', ← hempty hpend]
    exact h.counted r hr
  case settled =>
    intro hr
    cases hr
  case adding =>
    intro u hu
    by_cases hut : u = t
    · rw [hut, hth] at hu
      rcases hu with hu | hu <;> cases hu
    · rw [hmv.thread u hut] at hu
      exact fun hmem' => h.adding u hu (hmem u hut hmem')

/-- The places that say nothing of the state word beyond whether the thread has parked its mutator. -/
def SafepointPc.plain : SafepointPc T → Bool
  | .parkSlowpath | .notifyPark | .unparkSlowpath | .waitInUnpark | .unlock | .panicked => false
  | _ => true

omit [DecidableEq T] in
theorem stateOk_plain_iff {th : SafepointThread T} {s : MutatorState}
    (hp : SafepointPc.plain th.pc = true) :
    StateOk th s ↔ if th.parked then s = .parked ∨ s = .parkedSafepointRequested
      else s = .running ∨ s = .safepointRequested := by
  obtain ⟨pc, parked, scopes⟩ := th
  cases pc <;> first | exact Iff.rfl | cases hp

omit [DecidableEq T] in
theorem stateOk_plain {th : SafepointThread T} {pc : SafepointPc T} {s : MutatorState}
    (h : StateOk th s) (hp : SafepointPc.plain th.pc = true) (hp' : SafepointPc.plain pc = true) :
    StateOk { th with pc := pc } s :=
  (stateOk_plain_iff hp').mpr ((stateOk_plain_iff hp).mp h)

omit [DecidableEq T] in
theorem stateOk_requested {th : SafepointThread T} {e : MutatorState} (h : StateOk th e)
    (he : e = .running ∨ e = .parked) : StateOk th (GlobalSafepoint.requested e) := by
  -- only the places at which a mutator runs or is parked are left
  unfold StateOk at h ⊢
  rcases he with rfl | rfl
  all_goals
    split at h
    all_goals first | exact h.elim | skip
  · cases h.2
  · cases h.2
  · rcases h.2 with h | h <;> cases h
  · rcases h.2 with h | h <;> cases h
  · split at h
    · rcases h with h | h <;> cases h
    · next hp =>
      rw [if_neg hp]
      exact .inr rfl
  · cases h.2
  · cases h.2
  · exact ⟨h.1, .inr rfl⟩
  · exact ⟨h.1, .inr rfl⟩
  · split at h
    · next hp =>
      rw [if_pos hp]
      exact .inr rfl
    · rcases h with h | h <;> cases h

theorem Inv.exchange {e : MutatorState} {next : List T} {r : ℕ}
    (h : Inv σ (.scanning t (m :: next) r)) (he : e = .running ∨ e = .parked)
    (hpc : (σ.thread t).pc = .exchange m e next r) (hst : σ.state m = e) (hmv : Moves t m σ σ')
    (hm : σ'.mutators = σ.mutators) (hl : σ'.lock = σ.lock) (hs : σ'.stopped = σ.stopped)
    (hst' : σ'.state m = GlobalSafepoint.requested e)
    (hth : σ'.thread t =
      { σ.thread t with pc := .load next (if e = .running then r + 1 else r) }) :
    Inv σ' (.scanning t next (if e = .running then r + 1 else r)) := by
  obtain ⟨hscopes, hsuf, -⟩ := h.holds t rfl
  have hmem : m ∈ σ.mutators := hsuf.subset List.mem_cons_self
  have hnext : m ∉ next := (List.nodup_cons.mp (h.nodup.sublist hsuf.sublist)).1
  have hnreq : ¬ σ.Requested m := fun hr => ((h.requested m).mp hr).2 List.mem_cons_self
  have hnp : ¬ σ.Pending m := fun hp => hnreq (h.requested_of_pending hp)
  have hpc' : ∀ u, (σ'.thread u).pc = .notifyPark ↔ (σ.thread u).pc = .notifyPark := by
    intro u
    by_cases hut : u = t
    · rw [hut, hth, hpc]
      constructor <;> intro hp <;> cases hp
    · rw [hmv.thread u hut]
  -- the barrier waits for `m` only if it was running
  have hpm : σ'.Pending m ↔ e = .running := by
    rw [Pending, hpc', hst']
    constructor
    · rintro (hp | hp)
      · rcases he with rfl | rfl
        · rfl
        · cases hp
      · exact absurd (.inr hp) hnp
    · rintro rfl
      exact .inl rfl
  have hpu : ∀ u, u ≠ m → (σ'.Pending u ↔ σ.Pending u) := by
    intro u hu
    rw [Pending, Pending, hmv.state u hu, hpc']
  constructor
  case nodup => exact hm ▸ h.nodup
  case armed => exact hmv.armed.trans h.armed
  case lock => exact hl.trans h.lock
  case holds =>
    intro i hi
    obtain rfl := Option.some.inj hi
    rw [hm, hth]
    exact ⟨hscopes, (List.suffix_cons m next).trans hsuf, .inl rfl⟩
  case others =>
    intro u hu
    have hut : u ≠ t := fun hut => hu (hut ▸ rfl)
    rw [hmv.thread u hut]
    exact h.others u hu
  case requested =>
    intro u
    rw [hm]
    by_cases hum : u = m
    · subst hum
      refine ⟨fun _ => ⟨hmem, hnext⟩, fun _ => ?_⟩
      rw [Requested, hst']
      rcases he with rfl | rfl
      · exact .inl rfl
      · exact .inr rfl
    · rw [hmv.requested_iff hum, h.requested u]
      show u ∈ σ.mutators ∧ u ∉ m :: next ↔ u ∈ σ.mutators ∧ u ∉ next
      rw [List.mem_cons, not_or, and_iff_right hum]
  case state =>
    intro u
    have hbase : StateOk (σ.thread u) (σ'.state u) := by
      by_cases hum : u = m
      · subst hum
        rw [hst']
        exact stateOk_requested (hst ▸ h.state u) he
      · rw [hmv.state u hum]
        exact h.state u
    by_cases hut : u = t
    · subst hut
      rw [hth]
      exact stateOk_plain hbase (by rw [hpc]; rfl) rfl
    · rw [hmv.thread u hut]
      exact hbase
  case counted =>
    intro r' hr
    obtain rfl := Option.some.inj hr
    have hcount : σ.stopped + σ.pending.card = r := h.counted r rfl
    rw [hs, ← hcount]
    -- the count of running mutators grows together with the pending ones
    by_cases her : e = .running
    · have hins : σ'.pending = insert m σ.pending := by
        ext u
        rw [Finset.mem_insert, mem_pending, mem_pending, hm]
        by_cases hum : u = m
        · subst hum
          exact ⟨fun _ => .inl rfl, fun _ => ⟨hmem, hpm.mpr her⟩⟩
        · rw [hpu u hum, or_iff_right hum]
      rw [hins, Finset.card_insert_of_notMem fun hp => hnp (mem_pending.mp hp).2, if_pos her]
      rfl
    · rw [if_neg her, pending_congr hm fun u => ?_]
      by_cases hum : u = m
      · rw [hum, hpm]
        exact ⟨fun h' => absurd h' her, fun h' => absurd h' hnp⟩
      · exact hpu u hum
  case settled =>
    intro hr
    cases hr
  case adding =>
    intro u hu
    rw [hm]
    by_cases hut : u = t
    · rw [hut, hth] at hu
      rcases hu with hu | hu <;> cases hu
    · rw [hmv.thread u hut] at hu
      exact h.adding u hu

theorem Inv.swap {next : List T} (h : Inv σ (.leaving t (m :: next)))
    (hpc : (σ.thread t).pc = .swap (m :: next)) (hmv : Moves t m σ σ')
    (hm : σ'.mutators = σ.mutators) (hl : σ'.lock = σ.lock) (hst : σ'.state m = .parked)
    (hth : σ'.thread t = { σ.thread t with pc := .swap next }) :
    Inv σ' (.leaving t next) := by
  obtain ⟨hscopes, hsuf, -⟩ := h.holds t rfl
  have hnext : m ∉ next := (List.nodup_cons.mp (h.nodup.sublist hsuf.sublist)).1
  -- once the scope is settled, everybody who was asked has parked
  have hold : σ.state m = .parkedSafepointRequested :=
    h.stopped_of_settled rfl List.mem_cons_self
  constructor
  case nodup => exact hm ▸ h.nodup
  case armed => exact hmv.armed.trans h.armed
  case lock => exact hl.trans h.lock
  case holds =>
    intro i hi
    obtain rfl := Option.some.inj hi
    rw [hm, hth]
    exact ⟨hscopes, (List.suffix_cons m next).trans hsuf, .inr (.inl rfl)⟩
  case others =>
    intro u hu
    have hut : u ≠ t := fun hut => hu (hut ▸ rfl)
    rw [hmv.thread u hut]
    exact h.others u hu
  case requested =>
    intro u
    by_cases hum : u = m
    · subst hum
      rw [Requested, hst]
      refine ⟨?_, fun hu => absurd hu hnext⟩
      rintro (hp | hp) <;> cases hp
    · rw [hmv.requested_iff hum, h.requested u]
      show u ∈ m :: next ↔ u ∈ next
      rw [List.mem_cons, or_iff_right hum]
  case state =>
    intro u
    have hbase : StateOk (σ.thread u) (σ'.state u) := by
      by_cases hum : u = m
      · subst hum
        rw [hst]
        have hok := h.state u
        have hnp : (σ.thread u).pc ≠ .notifyPark := fun hp => h.settled rfl u (.inr hp)
        rw [hold] at hok
        unfold StateOk at hok ⊢
        split at hok
        all_goals first | exact hok.elim | skip
        · cases hok.2
        · next hp => exact absurd hp hnp
        · exact ⟨hok.1, .inl rfl⟩
        · exact ⟨hok.1, .inl rfl⟩
        · split at hok
          · next hp =>
            rw [if_pos hp]
            exact .inl rfl
          · rcases hok with hok | hok <;> cases hok
      · rw [hmv.state u hum]
        exact h.state u
    by_cases hut : u = t
    · subst hut
      rw [hth]
      exact stateOk_plain hbase (by rw [hpc]; rfl) rfl
    · rw [hmv.thread u hut]
      exact hbase
  case counted =>
    intro r hr
    cases hr
  case settled =>
    intro _ u hp
    have hnp := h.settled rfl u
    rcases hp with hp | hp
    · by_cases hum : u = m
      · rw [hum, hst] at hp
        cases hp
      · exact hnp (.inl (hmv.state u hum ▸ hp))
    · by_cases hut : u = t
      · rw [hut, hth] at hp
        cases hp
      · exact hnp (.inr (hmv.thread u hut ▸ hp))
  case adding =>
    intro u hu
    rw [hm]
    by_cases hut : u = t
    · rw [hut, hth] at hu
      rcases hu with hu | hu <;> cases hu
    · rw [hmv.thread u hut] at hu
      exact h.adding u hu

end GlobalSafepoint

end Starlight.Gc
