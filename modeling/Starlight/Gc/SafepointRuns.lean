import Starlight.Gc.SafepointInvariant

/-!
# Runs of the safepoint protocol

Every regular event keeps the invariant, so that regular runs keep the other mutators out of a
safepoint scope and fail no assertion. A thread that leaves a scope and gets to `disarm` fails there.
-/

namespace Starlight.Gc

namespace GlobalSafepoint

variable {T : Type*} [DecidableEq T] {main : T → Bool} {σ σ' : GlobalSafepoint T} {t : T}
  {φ : Phase T}

/-! ### Calls -/

theorem moves_setThread (th : SafepointThread T) : Moves t t σ (σ.setThread t th) :=
  ⟨rfl, fun _ hu => Function.update_of_ne hu _ _, fun _ _ => rfl⟩

theorem moves_setState (m : T) (s : MutatorState) (th : SafepointThread T) :
    Moves t m σ ((σ.setState m s).setThread t th) :=
  ⟨rfl, fun _ hu => Function.update_of_ne hu _ _, fun _ hu => Function.update_of_ne hu _ _⟩

@[simp]
theorem setThread_thread (th : SafepointThread T) : (σ.setThread t th).thread t = th :=
  Function.update_self _ _ _

@[simp]
theorem goto_thread (pc : SafepointPc T) : (σ.goto t pc).thread t = { σ.thread t with pc := pc } :=
  Function.update_self _ _ _

@[simp]
theorem setState_state (m : T) (s : MutatorState) : (σ.setState m s).state m = s :=
  Function.update_self _ _ _

omit [DecidableEq T] in
theorem pending_iff_of_state (hst : σ'.state t = σ.state t)
    (hp : (σ.thread t).pc ≠ .notifyPark) (hp' : (σ'.thread t).pc ≠ .notifyPark) :
    σ'.Pending t ↔ σ.Pending t := by
  rw [Pending, Pending, hst, or_iff_left hp, or_iff_left hp']

theorem Inv.goto {pc : SafepointPc T} (h : Inv σ φ) (n : BitVec 64)
    (hpc : SafepointPc.inside (σ.thread t).pc = false) (hne : (σ.thread t).pc ≠ .notifyPark)
    (hpc' : SafepointPc.inside pc = false) (hne' : pc ≠ .notifyPark)
    (hok : StateOk { σ.thread t with pc := pc } (σ.state t))
    (hadd : pc = .addLock → t ∉ σ.mutators) :
    Inv ({ σ with activeSafepointScopes := n }.goto t pc) φ := by
  have hth : ({ σ with activeSafepointScopes := n }.goto t pc).thread t =
      { σ.thread t with pc := pc } := goto_thread pc
  refine h.quiet ⟨rfl, fun _ hu => Function.update_of_ne hu _ _, fun _ _ => rfl⟩ rfl rfl rfl hpc
    ?_ ?_ ?_ Iff.rfl (pending_iff_of_state rfl hne ?_) ?_
  · rw [hth]
    exact hpc'
  · rw [hth]
  · rw [hth]
    exact hok
  · rw [hth]
    exact hne'
  · rw [hth]
    exact hadd

theorem Inv.gotoPlain {pc : SafepointPc T} (h : Inv σ φ) (n : BitVec 64)
    (hout : SafepointPc.inside (σ.thread t).pc = false)
    (hplain : SafepointPc.plain (σ.thread t).pc = true) (hout' : SafepointPc.inside pc = false)
    (hplain' : SafepointPc.plain pc = true) (hadd : pc = .addLock → t ∉ σ.mutators) :
    Inv ({ σ with activeSafepointScopes := n }.goto t pc) φ := by
  have hne : ∀ {pc : SafepointPc T}, SafepointPc.plain pc = true → pc ≠ .notifyPark := by
    rintro pc hp rfl
    cases hp
  exact h.goto n hout (hne hplain) hout' (hne hplain') (stateOk_plain (h.state t) hplain hplain') hadd

theorem Inv.flip {s : MutatorState} {parked : Bool} (h : Inv σ φ)
    (hpc : (σ.thread t).pc = .outside) (hold : σ.state t = .running ∨ σ.state t = .parked)
    (hnew : s = if parked then .parked else .running) :
    Inv ((σ.setState t s).setThread t { σ.thread t with parked := parked }) φ := by
  have hst : ((σ.setState t s).setThread t { σ.thread t with parked := parked }).state t = s :=
    setState_state t s
  have hs : s = .running ∨ s = .parked := by
    rw [hnew]
    split
    · exact .inr rfl
    · exact .inl rfl
  have hnot : ∀ {s : MutatorState}, s = .running ∨ s = .parked →
      s ≠ .safepointRequested ∧ s ≠ .parkedSafepointRequested := by
    rintro s (rfl | rfl) <;> constructor <;> rintro ⟨⟩
  -- neither word asks for anything, so that no count changes
  refine h.quiet (moves_setState t s _) rfl rfl rfl (by rw [hpc]; rfl) ?_ ?_ ?_ ?_ ?_ ?_
  · rw [setThread_thread, hpc]
    rfl
  · rw [setThread_thread]
  · rw [setThread_thread, hst, stateOk_plain_iff (by rw [hpc]; rfl), hnew]
    cases parked
    · exact .inl rfl
    · exact .inl rfl
  · rw [Requested, Requested, hst, or_iff_right (hnot hs).1, or_iff_right (hnot hold).1]
    exact iff_of_false (hnot hs).2 (hnot hold).2
  · rw [Pending, Pending, hst, setThread_thread, or_iff_right (hnot hs).1,
      or_iff_right (hnot hold).1]
  · rw [setThread_thread, hpc]
    rintro ⟨⟩

theorem Inv.call {c : SafepointCall} (h : Inv σ φ) (hpc : (σ.thread t).pc = .outside)
    (hs : σ.call t c = some σ') : ∃ φ', Inv σ' φ' := by
  have hplain : SafepointPc.plain (σ.thread t).pc = true := by rw [hpc]; rfl
  have hout : SafepointPc.inside (σ.thread t).pc = false := by rw [hpc]; rfl
  have hne : (σ.thread t).pc ≠ .notifyPark := by rw [hpc]; exact nofun
  have hok := (stateOk_plain_iff hplain).mp (h.state t)
  have hgoto : ∀ {pc : SafepointPc T}, SafepointPc.inside pc = false →
      SafepointPc.plain pc = true → (pc = .addLock → t ∉ σ.mutators) → Inv (σ.goto t pc) φ :=
    h.gotoPlain _ hout hplain
  cases c with
  | addMutator =>
    obtain ⟨hm, hσ⟩ := Option.ite_none_left_eq_some.mp hs
    obtain rfl := Option.some.inj hσ
    exact ⟨φ, hgoto rfl rfl fun _ => hm⟩
  | removeMutator =>
    obtain ⟨-, hσ⟩ := Option.ite_none_right_eq_some.mp hs
    obtain rfl := Option.some.inj hσ
    exact ⟨φ, hgoto rfl rfl nofun⟩
  | safepoint =>
    obtain rfl := Option.some.inj hs
    exact ⟨φ, h⟩
  | park =>
    obtain ⟨hp, hσ⟩ := Option.ite_none_left_eq_some.mp hs
    rw [if_neg hp] at hok
    -- the fast path of `park`, or the start of its slow path
    by_cases hrun : σ.state t = .running
    · rw [if_pos hrun] at hσ
      obtain rfl := Option.some.inj hσ
      exact ⟨φ, h.flip hpc (.inl hrun) rfl⟩
    · rw [if_neg hrun] at hσ
      obtain rfl := Option.some.inj hσ
      exact ⟨φ, h.goto _ hout hne rfl nofun ⟨by simpa using hp, hok.resolve_left hrun⟩ nofun⟩
  | unpark =>
    obtain ⟨hp, hσ⟩ := Option.ite_none_right_eq_some.mp hs
    rw [if_pos hp] at hok
    -- the fast path of `unpark`, or the start of its slow path
    by_cases hpark : σ.state t = .parked
    · rw [if_pos hpark] at hσ
      obtain rfl := Option.some.inj hσ
      exact ⟨φ, h.flip hpc (.inr hpark) rfl⟩
    · rw [if_neg hpark] at hσ
      obtain rfl := Option.some.inj hσ
      exact ⟨φ, h.goto _ hout hne rfl nofun ⟨hp, hok⟩ nofun⟩
  | enterSafepointScope =>
    obtain rfl := Option.some.inj hs
    exact ⟨φ, hgoto rfl rfl nofun⟩
  | leaveSafepointScope =>
    obtain ⟨hpos, hσ⟩ := Option.ite_none_left_eq_some.mp hs
    obtain rfl := Option.some.inj hσ
    obtain ⟨rfl, hone⟩ := h.held (Nat.pos_of_ne_zero hpos)
    refine ⟨.leaving t σ.mutators, h.own (moves_setThread _) rfl rfl rfl (.inr rfl) rfl h.lock ?_
      rfl (.inl rfl) (pending_iff_of_state rfl hne ?_) ?_ ?_ ?_⟩
    · rw [setThread_thread, hone]
      exact ⟨rfl, List.suffix_rfl, .inl ⟨rfl, .inl rfl⟩⟩
    · rw [setThread_thread]
      exact nofun
    · rw [setThread_thread]
      exact (stateOk_plain_iff rfl).mpr hok
    · rw [setThread_thread]
      exact nofun
    · rw [setThread_thread]
      exact nofun

/-! ### Steps inside a call -/

/-- The phase a place inside belongs to. -/
def SafepointPc.phase (t : T) (mutators : List T) : SafepointPc T → Option (Phase T)
  | .addMutator | .removeMutator => some (.guarded t)
  | .load rest r => some (.scanning t rest r)
  | .exchange m _ next r => some (.scanning t (m :: next) r)
  | .waitStopped r => some (.waiting t r)
  | .leaveLoad | .leaveStore _ => some (.leaving t mutators)
  | .swap rest => some (.leaving t rest)
  | .disarm => some (.leaving t [])
  | _ => none

theorem Inv.phase_eq (h : Inv σ φ) (hpc : SafepointPc.inside (σ.thread t).pc = true) :
    SafepointPc.phase t σ.mutators (σ.thread t).pc = some φ := by
  have hh := h.holder_of_inside hpc
  have hholds := h.holds t hh
  cases φ with
  | free => cases hh
  | guarded j =>
    obtain rfl := Option.some.inj hh
    rcases hholds.2 with hp | hp <;> rw [hp] <;> rfl
  | scanning j rest r =>
    obtain rfl := Option.some.inj hh
    rcases hholds.2.2 with hp | ⟨m, e, next, rfl, hp, -⟩ <;> rw [hp] <;> rfl
  | waiting j r =>
    obtain rfl := Option.some.inj hh
    rw [hholds.2]
    rfl
  | held j =>
    rw [hholds.2] at hpc
    cases hpc
  | leaving j rest =>
    obtain rfl := Option.some.inj hh
    rcases hholds.2.2 with ⟨rfl, hp | ⟨n, hp⟩⟩ | hp | ⟨rfl, hp⟩ <;> rw [hp] <;> rfl

theorem Inv.phase_of {pc : SafepointPc T} (h : Inv σ φ) (hpc : (σ.thread t).pc = pc) {ψ : Phase T}
    (hψ : SafepointPc.phase t σ.mutators pc = some ψ) : φ = ψ := by
  have hin : SafepointPc.inside (σ.thread t).pc = true := by
    rw [hpc]
    cases pc <;> first | rfl | cases hψ
  have hφ := h.phase_eq hin
  rw [hpc, hψ] at hφ
  exact (Option.some.inj hφ).symm

theorem Inv.idle (h : Inv σ φ) (hr : ¬ σ.Requested t) :
    σ.state t = .running ∨ σ.state t = .parked := by
  have hok := h.state t
  unfold StateOk at hok
  split at hok
  · exact absurd (.inl hok.2) hr
  · exact absurd (.inr hok.2) hr
  · exact .inr (hok.2.resolve_right fun hs => hr (.inr hs))
  · exact .inr (hok.2.resolve_right fun hs => hr (.inr hs))
  · exact hok.elim
  · exact hok.elim
  · split at hok
    · exact .inr (hok.resolve_right fun hs => hr (.inr hs))
    · exact .inl (hok.resolve_right fun hs => hr (.inl hs))

theorem Inv.acquire {pc : SafepointPc T} (h : Inv σ φ) (hl : σ.lock = none)
    (hplain : SafepointPc.plain (σ.thread t).pc = true) (hpc : SafepointPc.plain pc = true)
    {φ' : Phase T} (hφ : φ'.holder = some t)
    (hholds : φ'.Holds σ.mutators ⟨pc, (σ.thread t).parked, 0⟩)
    (hreq : φ'.requested σ.mutators = ∅) (hrun : φ'.running = some 0)
    (hadd : pc = .addMutator → t ∉ σ.mutators) (hlock : pc ≠ .addLock) :
    Inv ({ σ with lock := some t }.goto t pc) φ' := by
  have hnone : φ.holder = none := h.lock.symm.trans hl
  -- a lock that is not held leaves one phase
  obtain rfl : φ = .free := by cases φ <;> first | rfl | cases hnone
  have hth : ({ σ with lock := some t }.goto t pc).thread t = { σ.thread t with pc := pc } :=
    goto_thread pc
  have hscopes : (σ.thread t).scopes = 0 := (h.others t nofun).2
  have hnp : ∀ {pc : SafepointPc T}, SafepointPc.plain pc = true → pc ≠ .notifyPark := by
    rintro pc hp rfl
    cases hp
  refine h.own ⟨rfl, fun _ hu => Function.update_of_ne hu _ _, fun _ _ => rfl⟩ rfl rfl rfl
    (.inl rfl) hφ rfl ?_ hreq (.inl hrun) (pending_iff_of_state rfl (hnp hplain) ?_) ?_ ?_ ?_
  · rw [hth]
    dsimp only
    rw [hscopes]
    exact hholds
  · rw [hth]
    exact hnp hpc
  · rw [hth]
    exact stateOk_plain (h.state t) hplain hpc
  · rw [hth]
    exact hadd
  · rw [hth]
    exact hlock

theorem Inv.proceed {pc : SafepointPc T} {φ' : Phase T} (h : Inv σ φ) (n : BitVec 64)
    (hin : SafepointPc.inside (σ.thread t).pc = true)
    (hplain : SafepointPc.plain (σ.thread t).pc = true)
    (hpc : SafepointPc.plain pc = true) (hφ : φ'.holder = some t)
    (hholds : φ'.Holds σ.mutators { σ.thread t with pc := pc })
    (hreq : φ'.requested σ.mutators = φ.requested σ.mutators) (hrun : φ'.running = φ.running)
    (hadd : pc ≠ .addMutator) (hlock : pc ≠ .addLock) :
    Inv ({ σ with activeSafepointScopes := n }.goto t pc) φ' := by
  have hth : ({ σ with activeSafepointScopes := n }.goto t pc).thread t =
      { σ.thread t with pc := pc } := goto_thread pc
  have hh := h.holder_of_inside hin
  have hnp : ∀ {pc : SafepointPc T}, SafepointPc.plain pc = true → pc ≠ .notifyPark := by
    rintro pc hp rfl
    cases hp
  refine h.own ⟨rfl, fun _ hu => Function.update_of_ne hu _ _, fun _ _ => rfl⟩ rfl rfl rfl
    (.inr hh) hφ (h.lock.trans hh) ?_ hreq (.inl hrun)
    (pending_iff_of_state rfl (hnp hplain) ?_) ?_ ?_ ?_
  · rw [hth]
    exact hholds
  · rw [hth]
    exact hnp hpc
  · rw [hth]
    exact stateOk_plain (h.state t) hplain hpc
  · rw [hth]
    exact fun hp => absurd hp hadd
  · rw [hth]
    exact hlock

theorem Inv.entered {r : ℕ} (h : Inv σ (.waiting t r)) (hs : ¬ σ.stopped < r) :
    σ.stopped = r ∧ Inv (σ.setThread t
      { σ.thread t with pc := .outside, scopes := (σ.thread t).scopes + 1 }) (.held t) := by
  obtain ⟨hscopes, hpc⟩ := h.holds t rfl
  have hcount : σ.stopped + σ.pending.card = r := h.counted r rfl
  have hcard : σ.pending.card = 0 := by omega
  have hok := (stateOk_plain_iff (by rw [hpc]; rfl)).mp (h.state t)
  -- the counts meet, so that nobody is left to wait for
  have hnone : ∀ u, ¬ σ.Pending u := by
    intro u hu
    have hmem : u ∈ σ.pending :=
      mem_pending.mpr ⟨(h.requested u).mp (h.requested_of_pending hu), hu⟩
    rw [Finset.card_eq_zero.mp hcard] at hmem
    exact absurd hmem (Finset.notMem_empty u)
  refine ⟨by omega, h.own (moves_setThread _) rfl rfl rfl (.inr rfl) rfl h.lock ?_ rfl
    (.inr ⟨rfl, hnone⟩) (pending_iff_of_state rfl ?_ ?_) ?_ ?_ ?_⟩
  · rw [setThread_thread, hscopes]
    exact ⟨rfl, rfl⟩
  · rw [hpc]
    exact nofun
  · rw [setThread_thread]
    exact nofun
  · rw [setThread_thread]
    exact (stateOk_plain_iff rfl).mpr hok
  · rw [setThread_thread]
    exact nofun
  · rw [setThread_thread]
    exact nofun

theorem Inv.changeMutators {mutators : List T} (h : Inv σ (.guarded t))
    (hplain : SafepointPc.plain (σ.thread t).pc = true) (hnodup : mutators.Nodup)
    (hmem : ∀ u, u ≠ t → u ∈ mutators → u ∈ σ.mutators) :
    Inv ({ σ with mutators := mutators, lock := none }.goto t .outside) .free := by
  refine h.release ⟨rfl, fun _ hu => Function.update_of_ne hu _ _, fun _ _ => rfl⟩ rfl rfl rfl
    (goto_thread _) hnodup hmem ?_
  rw [goto_thread]
  exact stateOk_plain (h.state t) hplain rfl

theorem Inv.parkSlow (h : Inv σ φ) (hpc : (σ.thread t).pc = .parkSlowpath) :
    σ.state t = .safepointRequested ∧
      Inv ((σ.setState t .parkedSafepointRequested).goto t .notifyPark) φ := by
  have hok := h.state t
  unfold StateOk at hok
  rw [hpc] at hok
  have hst : ((σ.setState t .parkedSafepointRequested).goto t .notifyPark).state t =
      .parkedSafepointRequested := setState_state t _
  have hth : ((σ.setState t .parkedSafepointRequested).goto t .notifyPark).thread t =
      { σ.thread t with pc := .notifyPark } := goto_thread _
  refine ⟨hok.2, h.quiet (moves_setState t _ _) rfl rfl rfl (by rw [hpc]; rfl) ?_ ?_ ?_ ?_ ?_ ?_⟩
  · rw [hth]
    rfl
  · rw [hth]
  · rw [hth, hst]
    exact ⟨hok.1, rfl⟩
  · exact iff_of_true (.inr hst) (.inl hok.2)
  · refine iff_of_true (.inr ?_) (.inl hok.2)
    rw [hth]
  · rw [hth]
    exact nofun

theorem Inv.advance (h : Inv σ φ) (hreg : Regular main σ (.advance t))
    (hs : σ.advance main t = some σ') : ∃ φ', Inv σ' φ' := by
  have hok := h.state t
  unfold GlobalSafepoint.advance at hs
  unfold Regular at hreg
  dsimp only at hreg
  unfold StateOk at hok
  cases hpc : (σ.thread t).pc with
  | outside | panicked =>
    rw [hpc] at hs
    cases hs
  | addLock =>
    rw [hpc] at hs
    obtain ⟨hl, hσ⟩ := Option.ite_none_right_eq_some.mp hs
    obtain rfl := Option.some.inj hσ
    exact ⟨.guarded t, h.acquire hl (by rw [hpc]; rfl) rfl rfl ⟨rfl, .inl rfl⟩ rfl rfl
      (fun _ => h.adding t (.inl hpc)) nofun⟩
  | addMutator =>
    rw [hpc] at hs
    obtain rfl := Option.some.inj hs
    obtain rfl := h.phase_of hpc rfl
    exact ⟨.free, h.changeMutators (by rw [hpc]; rfl)
      (List.nodup_cons.mpr ⟨h.adding t (.inr hpc), h.nodup⟩)
      fun u hu hmem => (List.mem_cons.mp hmem).resolve_left hu⟩
  | removeLock =>
    rw [hpc] at hs
    obtain ⟨hl, hσ⟩ := Option.ite_none_right_eq_some.mp hs
    obtain rfl := Option.some.inj hσ
    exact ⟨.guarded t, h.acquire hl (by rw [hpc]; rfl) rfl rfl ⟨rfl, .inr rfl⟩ rfl rfl nofun nofun⟩
  | removeMutator =>
    rw [hpc] at hs
    obtain rfl := Option.some.inj hs
    obtain rfl := h.phase_of hpc rfl
    exact ⟨.free, h.changeMutators (by rw [hpc]; rfl) (h.nodup.erase t)
      fun u _ hmem => List.mem_of_mem_erase hmem⟩
  | enterTest =>
    rw [hpc] at hs hreg
    dsimp only at hs
    rw [if_neg hreg] at hs
    obtain rfl := Option.some.inj hs
    exact ⟨φ, h.gotoPlain _ (by rw [hpc]; rfl) (by rw [hpc]; rfl) rfl rfl nofun⟩
  | enterLoad | enterStore n =>
    rw [hpc] at hs
    obtain rfl := Option.some.inj hs
    exact ⟨φ, h.gotoPlain _ (by rw [hpc]; rfl) (by rw [hpc]; rfl) rfl rfl nofun⟩
  | enterLock =>
    rw [hpc] at hs
    obtain ⟨hl, hσ⟩ := Option.ite_none_right_eq_some.mp hs
    obtain rfl := Option.some.inj hσ
    refine ⟨.scanning t σ.mutators 0, h.acquire hl (by rw [hpc]; rfl) rfl rfl
      ⟨rfl, List.suffix_rfl, .inl rfl⟩ ?_ rfl nofun nofun⟩
    exact Set.eq_empty_of_forall_notMem fun m hm => hm.2 hm.1
  | load rest r =>
    obtain rfl := h.phase_of hpc rfl
    have hholds := h.holds t rfl
    rw [hpc] at hs
    cases rest with
    | nil =>
      obtain rfl := Option.some.inj hs
      refine ⟨.waiting t r, h.proceed _ (by rw [hpc]; rfl) (by rw [hpc]; rfl) rfl rfl
        ⟨hholds.1, rfl⟩ ?_ rfl nofun nofun⟩
      exact Set.ext fun m => (and_iff_left List.not_mem_nil).symm
    | cons m next =>
      obtain rfl := Option.some.inj hs
      have hidle : σ.state m = .running ∨ σ.state m = .parked :=
        h.idle fun hm => ((h.requested m).mp hm).2 List.mem_cons_self
      exact ⟨.scanning t (m :: next) r, h.proceed _ (by rw [hpc]; rfl) (by rw [hpc]; rfl) rfl rfl
        ⟨hholds.1, hholds.2.1, .inr ⟨m, σ.state m, next, rfl, rfl, hidle⟩⟩ rfl rfl nofun nofun⟩
  | exchange m e next r =>
    obtain rfl := h.phase_of hpc rfl
    have he : e = .running ∨ e = .parked := by
      rcases (h.holds t rfl).2.2 with hp | ⟨m', e', next', -, hp, he⟩
      · rw [hpc] at hp
        cases hp
      · rw [hpc] at hp
        cases hp
        exact he
    rw [hpc] at hs
    dsimp only at hs
    by_cases hst : σ.state m = e
    · rw [if_pos hst] at hs
      obtain rfl := Option.some.inj hs
      refine ⟨_, h.exchange he hpc hst (moves_setState m _ _) rfl rfl rfl (setState_state m _) ?_⟩
      rw [goto_thread]
      rcases he with rfl | rfl <;> rfl
    · rw [if_neg hst] at hs
      obtain rfl := Option.some.inj hs
      exact ⟨_, h⟩
  | waitStopped r =>
    obtain rfl := h.phase_of hpc rfl
    rw [hpc] at hs
    obtain ⟨hlt, hσ⟩ := Option.ite_none_left_eq_some.mp hs
    obtain ⟨heq, hinv⟩ := h.entered hlt
    rw [if_pos heq] at hσ
    obtain rfl := Option.some.inj hσ
    exact ⟨_, hinv⟩
  | leaveLoad =>
    obtain rfl := h.phase_of hpc rfl
    rw [hpc] at hs
    obtain rfl := Option.some.inj hs
    exact ⟨.leaving t σ.mutators, h.proceed _ (by rw [hpc]; rfl) (by rw [hpc]; rfl) rfl rfl
      ⟨(h.holds t rfl).1, List.suffix_rfl, .inl ⟨rfl, .inr ⟨_, rfl⟩⟩⟩ rfl rfl nofun nofun⟩
  | leaveStore n =>
    obtain rfl := h.phase_of hpc rfl
    rw [hpc] at hs
    obtain rfl := Option.some.inj hs
    exact ⟨.leaving t σ.mutators, h.proceed _ (by rw [hpc]; rfl) (by rw [hpc]; rfl) rfl rfl
      ⟨(h.holds t rfl).1, List.suffix_rfl, .inr (.inl rfl)⟩ rfl rfl nofun nofun⟩
  | swap rest =>
    obtain rfl := h.phase_of hpc rfl
    rw [hpc] at hs
    cases rest with
    | nil =>
      obtain rfl := Option.some.inj hs
      exact ⟨.leaving t [], h.proceed _ (by rw [hpc]; rfl) (by rw [hpc]; rfl) rfl rfl
        ⟨(h.holds t rfl).1, List.nil_suffix, .inr (.inr ⟨rfl, rfl⟩)⟩ rfl rfl nofun nofun⟩
    | cons m next =>
      have hst : σ.state m = .parkedSafepointRequested :=
        h.stopped_of_settled rfl List.mem_cons_self
      dsimp only at hs
      rw [if_pos (.inl hst)] at hs
      obtain rfl := Option.some.inj hs
      exact ⟨_, h.swap hpc (moves_setState m _ _) rfl rfl (setState_state m _) (goto_thread _)⟩
  | disarm =>
    rw [hpc] at hreg
    rw [h.armed] at hreg
    cases hreg
  | unlock =>
    -- `unlock` follows `disarm`
    rw [hpc] at hok
    exact hok.elim
  | parkSlowpath =>
    obtain ⟨hst, hinv⟩ := h.parkSlow hpc
    rw [hpc, hst] at hs
    dsimp only at hs
    by_cases hmain : main t = true
    · rw [if_pos hmain, if_neg nofun] at hs
      obtain rfl := Option.some.inj hs
      exact ⟨φ, h⟩
    · rw [if_neg hmain, if_pos rfl] at hs
      obtain rfl := Option.some.inj hs
      exact ⟨φ, hinv⟩
  | notifyPark =>
    rw [hpc] at hs
    obtain rfl := Option.some.inj hs
    exact ⟨φ, h.notify ⟨rfl, fun _ hu => Function.update_of_ne hu _ _, fun _ _ => rfl⟩ rfl rfl rfl
      rfl hpc (setThread_thread _)⟩
  | unparkSlowpath =>
    rw [hpc] at hs hreg hok
    dsimp only at hs
    rw [hreg.1, if_neg Bool.false_ne_true, if_neg hreg.2] at hs
    obtain rfl := Option.some.inj hs
    exact ⟨φ, h.goto _ (by rw [hpc]; rfl) (by rw [hpc]; exact nofun) rfl nofun hok nofun⟩
  | waitInUnpark =>
    rw [hpc] at hs hok
    obtain ⟨-, hσ⟩ := Option.ite_none_left_eq_some.mp hs
    obtain rfl := Option.some.inj hσ
    exact ⟨φ, h.goto _ (by rw [hpc]; rfl) (by rw [hpc]; exact nofun) rfl nofun hok nofun⟩

/-! ### Runs -/

theorem Inv.step {e : Event T} (h : Inv σ φ) (hreg : Regular main σ e)
    (hs : σ.step main e = some σ') : ∃ φ', Inv σ' φ' := by
  cases e with
  | call t c =>
    obtain ⟨hpc, hσ⟩ := Option.ite_none_right_eq_some.mp hs
    exact h.call hpc hσ
  | advance t => exact h.advance hreg hs

theorem armed_of_step {e : Event T} (ha : σ.armed = false) (hs : σ.step main e = some σ') :
    σ'.armed = false := by
  have hsome : ∀ {τ : GlobalSafepoint T}, some τ = some σ' → τ.armed = false → σ'.armed = false :=
    fun hτ h => Option.some.inj hτ ▸ h
  cases e with
  | call t c =>
    obtain ⟨-, hσ⟩ := Option.ite_none_right_eq_some.mp hs
    unfold GlobalSafepoint.call at hσ
    split at hσ
    all_goals repeat' split at hσ
    all_goals first | exact hsome hσ ha | cases hσ
  | advance t =>
    have hσ : σ.advance main t = some σ' := hs
    unfold GlobalSafepoint.advance at hσ
    split at hσ
    all_goals repeat' split at hσ
    all_goals first | exact hsome hσ ha | exact hsome hσ rfl | cases hσ

theorem Reachable.armed (h : Reachable main σ) : σ.armed = false := by
  induction h with
  | refl => rfl
  | tail _ hstep ih =>
    obtain ⟨e, hs⟩ := hstep
    exact armed_of_step ih hs

theorem reachable_of_run {es : List (Event T)} (hσ : Reachable main σ)
    (hs : σ.run main es = some σ') : Reachable main σ' := by
  induction es generalizing σ with
  | nil => exact Option.some.inj hs ▸ hσ
  | cons e es ih =>
    obtain ⟨τ, hτ, hrest⟩ := Option.bind_eq_some_iff.mp hs
    exact ih (hσ.tail ⟨e, hτ⟩) hrest

instance (e : Event T) : Decidable (Regular main σ e) := by
  unfold Regular
  split
  · infer_instance
  · split <;> infer_instance

def runRegular (main : T → Bool) (σ : GlobalSafepoint T) (es : List (Event T)) :
    Option (GlobalSafepoint T) :=
  es.foldlM (fun τ e => if Regular main τ e then τ.step main e else none) σ

theorem regularReachable_of_run {es : List (Event T)} (hσ : RegularReachable main σ)
    (hs : runRegular main σ es = some σ') : RegularReachable main σ' := by
  induction es generalizing σ with
  | nil => exact Option.some.inj hs ▸ hσ
  | cons e es ih =>
    obtain ⟨τ, hτ, hrest⟩ := Option.bind_eq_some_iff.mp hs
    obtain ⟨hreg, hτ⟩ := Option.ite_none_right_eq_some.mp hτ
    exact ih (hσ.tail ⟨e, hreg, hτ⟩) hrest

theorem RegularReachable.inv (h : RegularReachable main σ) : ∃ φ, Inv σ φ := by
  induction h with
  | refl => exact ⟨.free, inv_new⟩
  | tail _ hstep ih =>
    obtain ⟨φ, hinv⟩ := ih
    obtain ⟨e, hreg, hs⟩ := hstep
    exact hinv.step hreg hs

/-- **The safepoint protocol.** In every regular run the other mutators are stopped while a thread is
in a safepoint scope, and no assertion fails. In any run, the assertion of `disarm` fails for every
thread that gets to it. -/
theorem safepoint_protocol (main : T → Bool) :
    (∀ σ, RegularReachable main σ → σ.Exclusive ∧ σ.NoFailure) ∧
    ∀ σ t, Reachable main σ → (σ.thread t).pc = .disarm →
      ∃ σ', σ.step main (.advance t) = some σ' ∧ ¬ σ'.NoFailure := by
  constructor
  · intro σ h
    obtain ⟨φ, hinv⟩ := h.inv
    exact ⟨hinv.exclusive, hinv.noFailure⟩
  · intro σ t h hpc
    refine ⟨σ.goto t .panicked, ?_, fun hno => hno t ?_⟩
    · show σ.advance main t = _
      rw [advance, hpc]
      dsimp only
      rw [h.armed, if_neg Bool.false_ne_true]
    · rw [goto_thread]

/-- A mutator that runs when it is asked to stop, and parks. -/
def enterWhileRunning : List (Event ℕ) :=
  [.call 1 .addMutator, .advance 1, .advance 1, .call 1 .unpark,
    .call 0 .enterSafepointScope, .advance 0, .advance 0, .advance 0, .advance 0, .advance 0,
    .advance 0, .advance 0, .call 1 .safepoint, .call 1 .park, .advance 1, .advance 1, .advance 0]

theorem safepoint_protocol_enterWhileRunning :
    ∃ σ, runRegular (fun _ => false) new enterWhileRunning = some σ ∧ (σ.thread 0).scopes = 1 ∧
      σ.mutators = [1] ∧ σ.Exclusive ∧ σ.NoFailure := by
  have hrun : ∃ σ, runRegular (fun _ => false) new enterWhileRunning = some σ ∧
      (σ.thread 0).scopes = 1 ∧ σ.mutators = [1] := ⟨_, rfl, rfl, rfl⟩
  obtain ⟨σ, hσ, hscopes, hm⟩ := hrun
  exact ⟨σ, hσ, hscopes, hm, (safepoint_protocol _).1 σ (regularReachable_of_run .refl hσ)⟩

/-- A thread that enters a scope and leaves it, with another mutator that is parked. -/
def enterAndLeave : List (Event ℕ) :=
  [.call 1 .addMutator, .advance 1, .advance 1,
    .call 0 .enterSafepointScope, .advance 0, .advance 0, .advance 0, .advance 0, .advance 0,
    .advance 0, .advance 0, .advance 0,
    .call 0 .leaveSafepointScope, .advance 0, .advance 0, .advance 0, .advance 0, .advance 0]

/-- The protocol breaks when a scope is left. -/
theorem not_safepoint_protocol :
    ¬ ∀ (main : ℕ → Bool) σ, Reachable main σ → σ.Exclusive ∧ σ.NoFailure := by
  intro h
  have hrun : ∃ σ, run (fun _ => false) new enterAndLeave = some σ ∧
      (σ.thread 0).pc = .panicked := ⟨_, rfl, rfl⟩
  obtain ⟨σ, hσ, hpc⟩ := hrun
  exact (h _ σ (reachable_of_run .refl hσ)).2 0 hpc

end GlobalSafepoint

end Starlight.Gc
