import Starlight.Promise.Invariant

/-!
# Adopted promises

A promise that is resolved with another one becomes its subscriber and keeps no mark of it. It follows
the other promise in every run in which nobody resolves or rejects it in between, it subscribes before
the job of the other promise has started, and the other promise is not rejected; `LocksIn` is that
condition on the actions of a run.

A second call of `resolve` settles the promise at once; a subscriber that comes after the job is never
called; and `pass_val` returns the reason of a rejection, so that the subscriber is fulfilled with it.
-/

namespace Starlight.Promise

variable {V F : Type} {s s' : State V F} {p q : ℕ}

def Adopts (s : State V F) (q k p : ℕ) : Prop := (s.promises q).subs[k]? = some (.adoption p)

/-- The job of promise `q` has not yet dealt with the entry `k` of its subscribers. -/
def Ahead (s : State V F) (q k : ℕ) : Prop :=
  (s.promises q).resolution = none ∨ q ∈ s.jobs ∨
    ∃ j, s.running = some j ∧ j.promise = q ∧ j.pass = .settle ∧ j.index ≤ k

/-- The job of promise `q` is over. -/
def Finished (s : State V F) (q : ℕ) : Prop :=
  (s.promises q).resolution ≠ none ∧ q ∉ s.jobs ∧ ∀ j, s.running = some j → j.promise ≠ q

/-- The adopting promises follow the adopted ones. -/
structure Locked (s : State V F) : Prop where
  unique : ∀ {q k q' k' p}, Adopts s q k p → Adopts s q' k' p → q = q' ∧ k = k'
  ahead : ∀ {q k p}, Adopts s q k p → Ahead s q k → (s.promises p).resolution = none
  behind : ∀ {q k p}, Adopts s q k p → ¬ Ahead s q k →
    (s.promises p).resolution = (s.promises q).resolution
  fulfilled : ∀ {q k p}, Adopts s q k p → ∀ e, (s.promises q).resolution ≠ some (.error e)
  bound : ∀ {j k p}, s.running = some j → j.pass = .settle → Adopts s j.promise k p → k < j.bound

/-- `do_resolve` may be called on promise `p`: it is settled already, or it has not adopted a promise,
the promise it is resolved with still has its job before it, and none that has adopted it sees a
rejection. -/
def MayResolve (s : State V F) (p : ℕ) (r : Resolution V) : Prop :=
  (s.promises p).resolution ≠ none ∨ ((∀ q k, ¬ Adopts s q k p) ∧
    (∀ q, r = .ok (.promise q) → (s.promises q).resolution = none ∨
      (q ∈ s.jobs ∧ ∀ e, (s.promises q).resolution ≠ some (.error e))) ∧
    ∀ e, r = .error e → ∀ k t, ¬ Adopts s p k t)

/-- The actions that leave adopting promises to the adopted ones. The calls of `do_resolve` are those
of the program, that on the derived promise of a handler that returns, and those on a combined promise
and the promise of its subscription. -/
def LocksIn (s : State V F) : Action V F → Prop
  | .resolve p v => MayResolve s p (.ok v)
  | .reject p v => MayResolve s p (.error v)
  | .return_ r => ∀ j sub, s.running = some j → (s.promises j.promise).subs[j.index]? = some sub →
      MayResolve s sub.promise r
  | .advance => ∀ j sub outer index r, s.running = some j →
      (s.promises j.promise).subs[j.index]? = some sub →
      sub.onFinally = some (.track outer index j.promise) →
      (s.promises j.promise).resolution = some r →
      MayResolve s outer r ∧ MayResolve s sub.promise (.ok .null)
  | _ => True

/-! ### The operations -/

theorem Locked.congr (h : Locked s) (hsubs : ∀ q k p, Adopts s' q k p ↔ Adopts s q k p)
    (hres : ∀ p, (s'.promises p).resolution = (s.promises p).resolution)
    (hahead : ∀ q k p, Adopts s q k p → (Ahead s' q k ↔ Ahead s q k))
    (hbound : ∀ j k p, s'.running = some j → j.pass = .settle → Adopts s j.promise k p →
      k < j.bound) : Locked s' where
  unique h₁ h₂ := h.unique ((hsubs _ _ _).mp h₁) ((hsubs _ _ _).mp h₂)
  ahead ha hb := by
    have ha := (hsubs _ _ _).mp ha
    exact (hres _).trans (h.ahead ha ((hahead _ _ _ ha).mp hb))
  behind ha hb := by
    have ha := (hsubs _ _ _).mp ha
    rw [hres, hres]
    exact h.behind ha fun hc => hb ((hahead _ _ _ ha).mpr hc)
  fulfilled ha := by
    rw [hres]
    exact h.fulfilled ((hsubs _ _ _).mp ha)
  bound hj hp ha := hbound _ _ _ hj hp ((hsubs _ _ _).mp ha)

theorem Locked.congr_subs (h : Locked s) (hsubs : ∀ q k p, Adopts s' q k p ↔ Adopts s q k p)
    (hres : ∀ p, (s'.promises p).resolution = (s.promises p).resolution)
    (hjobs : s'.jobs = s.jobs) (hrun : s'.running = s.running) : Locked s' := by
  refine h.congr hsubs hres (fun q k p _ => ?_) fun j k p hj hp ha => h.bound (hrun ▸ hj) hp ha
  unfold Ahead
  rw [hres, hjobs, hrun]

theorem Locked.alloc (h : Locked s) (hi : Inv s) {promise : JsPromise V F}
    (hs : promise.subs = []) (hr : promise.resolution = none) : Locked (s.alloc promise) := by
  refine h.congr_subs (fun q k p => ?_) (hi.resolution_alloc hr) rfl rfl
  unfold Adopts
  rw [hi.subs_alloc hs]

theorem adopts_push {sub : Sub F} {k t : ℕ} :
    Adopts (s.push p sub) q k t ↔
      Adopts s q k t ∨ (q = p ∧ k = (s.promises p).subs.length ∧ sub = .adoption t) := by
  unfold Adopts
  rw [State.subs_push]
  split
  · next hq =>
    subst hq
    rw [State.getElem?_concat_eq_some]
    exact or_congr Iff.rfl ⟨fun h => ⟨rfl, h⟩, fun h => h.2⟩
  · next hq => exact ⟨.inl, fun h => h.resolve_right fun hc => hq hc.1⟩

theorem Locked.push (h : Locked s) (p : ℕ) {sub : Sub F} (hsub : ∀ t, sub ≠ .adoption t) :
    Locked (s.push p sub) := by
  refine h.congr_subs (fun q k t => ?_) (fun q => State.resolution_push _ _ _ _) rfl rfl
  rw [adopts_push]
  exact ⟨fun h => h.resolve_right fun hc => hsub t hc.2.2, .inl⟩

theorem Locked.adopt (h : Locked s) (hi : Inv s) (hp : (s.promises p).resolution = none)
    (hfree : ∀ q k, ¬ Adopts s q k p) (hq : (s.promises q).resolution = none ∨
      (q ∈ s.jobs ∧ ∀ e, (s.promises q).resolution ≠ some (.error e))) :
    Locked (s.push q (.adoption p)) := by
  have hnew : ∀ {q' k t}, Adopts (s.push q (.adoption p)) q' k t →
      (Adopts s q' k t ∧ t ≠ p) ∨ (q' = q ∧ k = (s.promises q).subs.length ∧ t = p) := by
    intro q' k t ha
    rcases adopts_push.mp ha with ha | ⟨hq', hk, ht⟩
    · exact .inl ⟨ha, fun hc => hfree q' k (hc ▸ ha)⟩
    · exact .inr ⟨hq', hk, (congrArg Sub.promise ht).symm⟩
  have hahead : ∀ q' k, Ahead (s.push q (.adoption p)) q' k ↔ Ahead s q' k := by
    intro q' k
    unfold Ahead
    rw [State.resolution_push]
    rfl
  have hopen : ∀ k, Ahead s q k := fun k => hq.imp id fun h => .inl h.1
  constructor
  case unique =>
    intro q₁ k₁ q₂ k₂ t h₁ h₂
    rcases hnew h₁ with ⟨h₁, hne⟩ | ⟨rfl, rfl, rfl⟩ <;> rcases hnew h₂ with ⟨h₂, hne'⟩ | ⟨h₂, h₂', h₂''⟩
    · exact h.unique h₁ h₂
    · exact absurd h₂'' hne
    · exact absurd rfl hne'
    · exact ⟨h₂.symm, h₂'.symm⟩
  case ahead =>
    intro q' k t ha hb
    rw [State.resolution_push]
    rcases hnew ha with ⟨ha, -⟩ | ⟨rfl, rfl, rfl⟩
    · exact h.ahead ha ((hahead _ _).mp hb)
    · exact hp
  case behind =>
    intro q' k t ha hb
    rw [State.resolution_push, State.resolution_push]
    rw [hahead] at hb
    rcases hnew ha with ⟨ha, -⟩ | ⟨rfl, rfl, rfl⟩
    · exact h.behind ha hb
    · exact absurd (hopen _) hb
  case fulfilled =>
    intro q' k t ha e
    rw [State.resolution_push]
    rcases hnew ha with ⟨ha, -⟩ | ⟨rfl, rfl, rfl⟩
    · exact h.fulfilled ha e
    · rcases hq with hq | hq
      · rw [hq]; nofun
      · exact hq.2 e
  case bound =>
    intro j k t hj hps ha
    rcases hnew ha with ⟨ha, -⟩ | ⟨hq', -, -⟩
    · exact h.bound hj hps ha
    · -- the job of `q` cannot be running
      have hok := hi.running j hj
      obtain ⟨r, hr⟩ := hok.settled
      rw [hq'] at hr
      rcases hq with hq | hq
      · rw [hq] at hr; cases hr
      · exact absurd (hq' ▸ hq.1) hok.not_scheduled

theorem adopts_store {r : Resolution V} {k t : ℕ} : Adopts (s.store p r) q k t ↔ Adopts s q k t := by
  unfold Adopts
  rw [State.subs_store]

theorem Locked.store (h : Locked s) (hp : (s.promises p).resolution = none)
    (hfree : ∀ q k, ¬ Adopts s q k p) {r : Resolution V}
    (hr : ∀ e, r = .error e → ∀ k t, ¬ Adopts s p k t) : Locked (s.store p r) := by
  have hahead : ∀ q k, Ahead (s.store p r) q k ↔ Ahead s q k := by
    intro q k
    unfold Ahead
    rw [State.resolution_store, State.jobs_store]
    by_cases hq : q = p
    · subst hq
      simp [hp]
    · simp only [List.mem_append, List.mem_singleton, hq, or_false]
      rfl
  have hne : ∀ {q k t}, Adopts s q k t → t ≠ p := fun ha hc => hfree _ _ (hc ▸ ha)
  constructor
  case unique => exact fun h₁ h₂ => h.unique (adopts_store.mp h₁) (adopts_store.mp h₂)
  case ahead =>
    intro q k t ha hb
    have ha := adopts_store.mp ha
    rw [State.resolution_store, if_neg (hne ha)]
    exact h.ahead ha ((hahead _ _).mp hb)
  case behind =>
    intro q k t ha hb
    have ha := adopts_store.mp ha
    rw [hahead] at hb
    have hq : q ≠ p := fun hc => hb (.inl (hc ▸ hp))
    rw [State.resolution_store, State.resolution_store, if_neg (hne ha), if_neg hq]
    exact h.behind ha hb
  case fulfilled =>
    intro q k t ha e
    have hold : Adopts s q k t := adopts_store.mp ha
    rw [State.resolution_store]
    split
    · next hq => exact fun hc => hr e (Option.some_inj.mp hc) k t (hq ▸ hold)
    · exact h.fulfilled hold e
  case bound => exact fun hj hps ha => h.bound hj hps (adopts_store.mp ha)

theorem Locked.resolved (h : Locked s) (hi : Inv s) {r : Resolution V} (hr : MayResolve s p r) :
    Locked (s.resolved p r) := by
  rcases s.resolved_cases p r with ⟨-, heq⟩ | ⟨hn, hcase⟩
  · rw [heq]; exact h
  · obtain ⟨hfree, hprom, herr⟩ := hr.resolve_left fun hc => hc hn
    rcases hcase with ⟨q, hq, heq⟩ | ⟨-, heq⟩ <;> rw [heq]
    · exact h.adopt hi hn hfree (hprom q hq)
    · exact h.store hn hfree herr

theorem adopts_results {results : Option (List (Option (Resolution V)))} {k t : ℕ} :
    Adopts (s.modify p fun promise => { promise with trackingResults := results }) q k t ↔
      Adopts s q k t := by
  unfold Adopts
  rw [State.promises_modify]
  split
  · next hq => rw [hq]
  · rfl

theorem resolution_results {results : Option (List (Option (Resolution V)))} (q : ℕ) :
    ((s.modify p fun promise => { promise with trackingResults := results }).promises q).resolution =
      (s.promises q).resolution := by
  rw [State.promises_modify]
  split
  · next hq => rw [hq]
  · rfl

theorem Locked.results (h : Locked s) (p : ℕ) (results : Option (List (Option (Resolution V)))) :
    Locked (s.modify p fun promise => { promise with trackingResults := results }) :=
  h.congr_subs (fun _ _ _ => adopts_results) resolution_results rfl rfl

theorem Locked.track (h : Locked s) (hi : Inv s) {outer index : ℕ} (ho : outer < s.next)
    {r : Resolution V} (hplain : ∀ q, r ≠ .ok (.promise q)) (hr : MayResolve s outer r) :
    Locked (s.resolveSingleTrackedResolution outer index r) ∧
      ∀ q k t, Adopts (s.resolveSingleTrackedResolution outer index r) q k t ↔ Adopts s q k t := by
  rcases s.track_cases outer index r with heq | ⟨hn, results, heq | ⟨r', hr', heq⟩⟩ <;> rw [heq]
  · exact ⟨h, fun _ _ _ => Iff.rfl⟩
  · exact ⟨h.results outer results, fun _ _ _ => adopts_results⟩
  · obtain ⟨hfree, -, herr⟩ := hr.resolve_left fun hc => hc hn
    have hplain' : ∀ q, r' ≠ .ok (.promise q) := by
      rcases hr' with rfl | ⟨vs, rfl⟩
      · exact hplain
      · exact nofun
    have hmay : MayResolve (s.modify outer fun promise =>
        { promise with trackingResults := results }) outer r' := by
      refine .inr ⟨fun q k ha => hfree q k (adopts_results.mp ha),
        fun q hq => absurd hq (hplain' q), fun e he k t ha => ?_⟩
      rcases hr' with rfl | ⟨vs, rfl⟩
      · exact herr e he k t (adopts_results.mp ha)
      · cases he
    refine ⟨(h.results outer results).resolved (hi.results ho results) hmay, fun q k t => ?_⟩
    rcases State.resolved_cases (s.modify outer fun promise =>
        { promise with trackingResults := results }) outer r' with ⟨-, he⟩ | ⟨-, ⟨q', hq', -⟩ | ⟨-, he⟩⟩
    · rw [he]; exact adopts_results
    · exact absurd hq' (hplain' q')
    · rw [he, adopts_store]; exact adopts_results

/-! ### The running job -/

theorem Locked.nextSub (h : Locked s) {j : Job} (hj : s.running = some j)
    (hsub : j.pass = .settle → ∀ t, ¬ Adopts s j.promise j.index t) : Locked (s.nextSub j) := by
  refine h.congr (fun _ _ _ => Iff.rfl) (fun _ => rfl) (fun q k t ha => ?_)
    fun j' k t hj' hp ha => ?_
  · refine or_congr Iff.rfl (or_congr Iff.rfl ⟨?_, ?_⟩)
    · rintro ⟨j', hj', hq, hp, hle⟩
      cases hj'
      exact ⟨j, hj, hq, hp, Nat.le_of_succ_le hle⟩
    · rintro ⟨j', hj', hq, hp, hle⟩
      obtain rfl := Option.some_inj.mp (hj.symm.trans hj')
      refine ⟨_, rfl, hq, hp, Nat.lt_of_le_of_ne hle fun hc => ?_⟩
      exact hsub hp t (by rw [hc, hq]; exact ha)
  · cases hj'
    exact @Locked.bound _ _ _ h j k t hj hp ha

theorem Locked.follow (h : Locked s) (hi : Inv s) {j : Job} (hj : s.running = some j)
    (hp : j.pass = .settle) {v : Value V} (hv : (s.promises j.promise).resolution = some (.ok v))
    (ha : Adopts s j.promise j.index p) : Locked ((s.resolved p (.ok v)).nextSub j) := by
  have hok := hi.running j hj
  have hn : (s.promises p).resolution = none :=
    h.ahead ha (.inr (.inr ⟨j, hj, rfl, hp, le_rfl⟩))
  have hne : j.promise ≠ p := fun hc => by rw [hc, hn] at hv; cases hv
  have hstore : s.resolved p (.ok v) = s.store p (.ok v) := by
    rcases s.resolved_cases p (.ok v) with ⟨hs, -⟩ | ⟨-, ⟨q, hq, -⟩ | ⟨-, heq⟩⟩
    · exact absurd hn hs
    · cases hq
      exact absurd hv (hi.plain _ q)
    · exact heq
  rw [hstore]
  obtain ⟨s', hs'⟩ : ∃ s', s' = (s.store p (.ok v)).nextSub j := ⟨_, rfl⟩
  rw [← hs']
  have hsubs : ∀ {q k t}, Adopts s' q k t ↔ Adopts s q k t := hs' ▸ adopts_store
  have hres : ∀ q, (s'.promises q).resolution =
      if q = p then some (.ok v) else (s.promises q).resolution :=
    hs' ▸ fun q => State.resolution_store s p q (.ok v)
  have hrun : s'.running = some { j with index := j.index + 1, awaiting := false } := hs' ▸ rfl
  have hjobs : s'.jobs = s.jobs ++ [p] := hs' ▸ rfl
  -- every other adoption is as far dealt with as before
  have hahead : ∀ {q k t}, Adopts s q k t → t ≠ p → (Ahead s' q k ↔ Ahead s q k) := by
    intro q k t hadopt ht
    unfold Ahead
    rw [hres, hjobs, hrun]
    by_cases hq : q = p
    · subst hq
      simp [hn]
    rw [if_neg hq]
    refine or_congr Iff.rfl (or_congr (by simp [hq]) ⟨?_, ?_⟩)
    · rintro ⟨j', hj', hq', hp', hle⟩
      cases hj'
      exact ⟨j, hj, hq', hp', Nat.le_of_succ_le hle⟩
    · rintro ⟨j', hj', hq', hp', hle⟩
      obtain rfl := Option.some_inj.mp (hj.symm.trans hj')
      refine ⟨_, rfl, hq', hp', Nat.lt_of_le_of_ne hle fun hc => ht ?_⟩
      rw [← hq', ← hc] at hadopt
      exact congrArg Sub.promise (Option.some_inj.mp (hadopt.symm.trans ha))
  have hdone : ¬ Ahead s' j.promise j.index := by
    rintro (hc | hc | ⟨j', hj', -, -, hle⟩)
    · rw [hres, if_neg hne, hv] at hc; cases hc
    · rw [hjobs] at hc
      exact (List.mem_append.mp hc).elim hok.not_scheduled fun hc => hne (List.mem_singleton.mp hc)
    · rw [hrun] at hj'
      cases hj'
      exact absurd hle (Nat.not_succ_le_self _)
  constructor
  case unique => exact fun h₁ h₂ => h.unique (hsubs.mp h₁) (hsubs.mp h₂)
  case ahead =>
    intro q k t hadopt hb
    have hadopt := hsubs.mp hadopt
    by_cases ht : t = p
    · subst ht
      obtain ⟨rfl, rfl⟩ := h.unique hadopt ha
      exact absurd hb hdone
    · rw [hres, if_neg ht]
      exact h.ahead hadopt ((hahead hadopt ht).mp hb)
  case behind =>
    intro q k t hadopt hb
    have hadopt := hsubs.mp hadopt
    by_cases ht : t = p
    · subst ht
      obtain ⟨rfl, rfl⟩ := h.unique hadopt ha
      rw [hres, hres, if_pos rfl, if_neg hne, hv]
    · have hq : q ≠ p := by
        rintro rfl
        exact hb (.inr (.inl (by rw [hjobs]; simp)))
      rw [hres, hres, if_neg ht, if_neg hq]
      exact h.behind hadopt fun hc => hb ((hahead hadopt ht).mpr hc)
  case fulfilled =>
    intro q k t hadopt e
    rw [hres]
    split
    · nofun
    · exact h.fulfilled (hsubs.mp hadopt) e
  case bound =>
    intro j' k t hj' hp' hadopt
    rw [hrun] at hj'
    cases hj'
    exact @Locked.bound _ _ _ h j k t hj hp (hsubs.mp hadopt)

theorem Locked.advance (h : Locked s) (hi : Inv s) {j : Job} (hj : s.running = some j)
    {r : Resolution V} (hr : (s.promises j.promise).resolution = some r)
    (hl : LocksIn s .advance) : Locked (s.advance j r) := by
  have hok := hi.running j hj
  unfold State.advance
  split
  · next hlt =>
    obtain ⟨sub, hget⟩ := hok.exists_sub hlt
    rw [hget]
    dsimp only
    have hmem := List.mem_of_getElem? hget
    have hother : (∀ t, sub ≠ .adoption t) → ∀ t, ¬ Adopts s j.promise j.index t :=
      fun hs t ha => hs t (Option.some_inj.mp (hget.symm.trans ha))
    cases hf : sub.handler j.pass r with
    | none =>
      refine h.nextSub hj fun hp => hother ?_
      rintro t rfl
      rw [hp] at hf
      cases r <;> cases hf
    | some f =>
      dsimp only
      rcases (hi.sub_ok _ sub hmem).handler_cases hf with ⟨g, rfl⟩ | ⟨rfl, hp, hs⟩ |
        ⟨outer, index, rfl, hp, ho⟩
      · refine h.congr (fun _ _ _ => Iff.rfl) (fun _ => rfl) (fun q k t _ => ?_)
          fun j' k t hj' hp ha => ?_
        · refine or_congr Iff.rfl (or_congr Iff.rfl ⟨?_, ?_⟩)
          · rintro ⟨j', hj', hq⟩
            cases hj'
            exact ⟨j, hj, hq⟩
          · rintro ⟨j', hj', hq⟩
            obtain rfl := Option.some_inj.mp (hj.symm.trans hj')
            exact ⟨_, rfl, hq⟩
        · cases hj'
          exact @Locked.bound _ _ _ h j k t hj hp ha
      · have ha : Adopts s j.promise j.index sub.promise := by
          unfold Adopts
          rw [hget, ← hs]
        cases r with
        | error e => exact absurd hr (h.fulfilled ha e)
        | ok v =>
          unfold State.callHandler
          rw [hp]
          exact h.follow hi hj hp hr ha
      · have hon : sub.onFinally = some (.track outer index j.promise) := by
          rw [hp] at hf
          cases r <;> exact hf
        obtain ⟨hmay, hmay'⟩ := hl j sub outer index r hj hget hon hr
        unfold State.callHandler
        dsimp only
        rw [hr]
        dsimp only
        have hplain : ∀ q, r ≠ .ok (.promise q) := fun q hq => hi.plain _ q (hq ▸ hr)
        obtain ⟨ht, hsubs⟩ := @Locked.track _ _ _ h hi outer index ho r hplain hmay
        refine (ht.resolved (hi.track ho (hi.known _ r hr)) ?_).nextSub ?_ fun hc => ?_
        · rcases hmay' with hn | ⟨hfree, -, -⟩
          · obtain ⟨r', hr'⟩ := Option.ne_none_iff_exists'.mp hn
            refine .inl ?_
            rw [(later_track s outer index r).resolution _ r' hr']
            nofun
          · exact .inr ⟨fun q k ha => hfree q k ((hsubs q k _).mp ha), nofun, nofun⟩
        · rw [State.running_resolved, State.running_track, hj]
        · rw [hp] at hc; cases hc
  · next hge =>
    split
    · next hp =>
      refine h.congr (fun _ _ _ => Iff.rfl) (fun _ => rfl) (fun q k t ha => ?_)
        fun j' k t hj' hp' ha => ?_
      · refine or_congr Iff.rfl (or_congr Iff.rfl ⟨?_, ?_⟩)
        · rintro ⟨j', hj', -, hp', -⟩
          cases hj'
          cases hp'
        · -- the loop has gone past all adoptions
          rintro ⟨j', hj', hq, -, hle⟩
          obtain rfl := Option.some_inj.mp (hj.symm.trans hj')
          subst hq
          exact absurd (h.bound hj hp ha) (Nat.not_lt_of_le ((Nat.le_of_not_lt hge).trans hle))
      · cases hj'
        cases hp'
    · next hp =>
      refine h.congr (fun _ _ _ => Iff.rfl) (fun _ => rfl) (fun q k t ha => ?_)
        fun j' k t hj' => nomatch hj'
      refine or_congr Iff.rfl (or_congr Iff.rfl ⟨?_, ?_⟩)
      · rintro ⟨j', hj', -⟩
        cases hj'
      · rintro ⟨j', hj', -, hp', -⟩
        obtain rfl := Option.some_inj.mp (hj.symm.trans hj')
        rw [hp] at hp'
        cases hp'

theorem Sub.ne_adoption_of_promise {f g k : Option (Handler F)} (hf : f ≠ some .passVal) (n : ℕ) :
    ∀ t, (⟨f, g, k, n⟩ : Sub F) ≠ .adoption t := fun _ hc => hf (congrArg Sub.onResolved hc)

theorem Locked.then_ (h : Locked s) (hi : Inv s) (p : ℕ) {f g k : Option (Handler F)}
    (hf : f ≠ some .passVal) : Locked (s.then_ p f g k) :=
  (h.alloc hi rfl rfl).push p (Sub.ne_adoption_of_promise hf _)

theorem Locked.trackAll (h : Locked s) (hi : Inv s) {outer x : ℕ} {ps : List ℕ} (ho : outer < s.next)
    (hps : ∀ p ∈ ps, p < s.next) : Locked (State.trackAll outer x ps s) :=
  (hi.trackAll_rec ho hps h fun hi _ h => h.then_ hi _ fun hc => nomatch hc).2

/-- **The step lemma.** -/
theorem Locked.exec (h : Locked s) (hi : Inv s) {a : Action V F} (he : a.Enabled s)
    (hl : LocksIn s a) : Locked (a.exec s) := by
  have huser : ∀ f : Option F, f.map Handler.user ≠ some .passVal := by
    rintro (_ | f) <;> nofun
  cases a with
  | new => exact h.alloc hi rfl rfl
  | resolve p v | reject p v => exact h.resolved hi hl
  | then_ p args => exact h.then_ hi p (huser _)
  | catch_ p f | finally_ p f => exact h.then_ hi p fun hc => nomatch hc
  | combine mode ps =>
    exact @Locked.trackAll _ _ _ (h.alloc hi rfl rfl) (hi.alloc rfl rfl) s.next 0 ps
      (Nat.lt_succ_self _) fun q hq => lt_of_lt_of_le (he.2 q hq) (Nat.le_succ _)
  | start p =>
    refine h.congr (fun _ _ _ => Iff.rfl) (fun _ => rfl) (fun q k t _ => ?_) fun j k t hj hp ha => ?_
    · refine or_congr Iff.rfl ⟨?_, ?_⟩
      · rintro (hq | ⟨j, hj, rfl, -, -⟩)
        · exact .inl (List.mem_of_mem_erase hq)
        · cases hj
          exact .inl he.2
      · rintro (hq | ⟨j, hj, -⟩)
        · by_cases hqp : q = p
          · exact .inr ⟨_, rfl, hqp.symm, rfl, Nat.zero_le _⟩
          · exact .inl ((List.mem_erase_of_ne hqp).mpr hq)
        · rw [he.1] at hj
          cases hj
    · cases hj
      exact (List.getElem?_eq_some_iff.mp ha).1
  | advance =>
    obtain ⟨j, hj, -⟩ := he
    obtain ⟨r, hr⟩ := (hi.running j hj).settled
    unfold Action.exec
    rw [hj]
    dsimp only
    rw [hr]
    exact h.advance hi hj hr hl
  | return_ r =>
    obtain ⟨⟨j, hj, ha⟩, -⟩ := he
    obtain ⟨hlt, sub, r', f, hs, -, hf⟩ := (hi.running j hj).waits ha
    unfold Action.exec
    rw [hj]
    dsimp only
    rw [hs]
    refine (h.resolved hi (hl j sub hj hs)).nextSub (by rw [State.running_resolved, hj]) fun hp t hc => ?_
    -- the entry whose handler returns is not an adoption
    have hget := (later_resolved s sub.promise r).getElem? hs
    obtain rfl : sub = .adoption t := Option.some_inj.mp (hget.symm.trans hc)
    rw [hp] at hf
    cases r' <;> cases hf

theorem locked_init : Locked (State.init : State V F) := by
  have hnone : ∀ q k t, ¬ Adopts (State.init : State V F) q k t := fun _ _ _ h => nomatch h
  exact ⟨fun h => absurd h (hnone _ _ _), fun h => absurd h (hnone _ _ _),
    fun h => absurd h (hnone _ _ _), fun h => absurd h (hnone _ _ _), fun h => nomatch h⟩

theorem Run.locked {es : List (Event V F)} (h : Run LocksIn .init es s) : Locked s := by
  induction h with
  | refl => exact locked_init
  | step h a he hl ih => exact ih.exec (h.inv inv_init).1 he hl

/-- Whoever has adopted a promise is settled by it alone: pending as long as it is, afterwards with its
outcome and value, and settled when its job is over. -/
def FollowsAdopted (s : State V F) : Prop :=
  ∀ q k p, Adopts s q k p →
    ((s.promises p).resolution = none ∨
      (s.promises p).resolution = (s.promises q).resolution) ∧
    (Finished s q → (s.promises p).resolution = (s.promises q).resolution)

theorem adopts_of_resolved (hi : Inv s) (hp : p < s.next) (hq : q < s.next)
    (hn : (s.promises p).resolution = none) {es : List (Event V F)}
    (h : Run (fun _ _ => True) (s.resolved p (.ok (.promise q))) es s') : ∃ k, Adopts s' q k p := by
  have hknown : Action.Known s (.ok (.promise q)) := by
    rintro q' (hc | hc) <;> cases hc
    exact hq
  have hpush : s.resolved p (.ok (.promise q)) = s.push q (.adoption p) := by
    rcases s.resolved_cases p (.ok (.promise q)) with ⟨hs, -⟩ | ⟨-, ⟨q', hq', heq⟩ | ⟨hne, -⟩⟩
    · exact absurd hn hs
    · cases hq'
      exact heq
    · exact absurd rfl (hne q)
  refine ⟨(s.promises q).subs.length, (h.inv (hi.resolved hp hknown)).2.getElem? ?_⟩
  rw [hpush]
  exact adopts_push.mpr (.inr ⟨rfl, rfl, rfl⟩)

/-- **Promises settle once and stay locked in.** No run changes a resolution; a pending promise that is
resolved with another one has adopted it for good; and in every run whose actions leave adopting
promises to the adopted ones, they follow them. -/
theorem promises_locked_in :
    (∀ (s s' : State V F) es, Inv s → Run (fun _ _ => True) s es s' → ∀ p r,
      (s.promises p).resolution = some r → (s'.promises p).resolution = some r) ∧
    (∀ (s s' : State V F) es p q, Inv s → p < s.next → q < s.next →
      (s.promises p).resolution = none →
      Run (fun _ _ => True) (s.resolved p (.ok (.promise q))) es s' → ∃ k, Adopts s' q k p) ∧
    ∀ (s : State V F) es, Run LocksIn .init es s → FollowsAdopted s := by
  refine ⟨fun s s' es hi h p r => (h.inv hi).2.resolution p r,
    fun s s' es p q hi hp hq hn h => adopts_of_resolved hi hp hq hn h, fun s es h q k p ha => ?_⟩
  have hl := h.locked
  by_cases hb : Ahead s q k
  · refine ⟨.inl (hl.ahead ha hb), fun hf => ?_⟩
    rcases hb with hb | hb | ⟨j, hj, hq, -⟩
    · exact absurd hb hf.1
    · exact absurd hb hf.2.1
    · exact absurd hq (hf.2.2 j hj)
  · exact ⟨.inr (hl.behind ha hb), fun _ => hl.behind ha hb⟩

/-- The promises `0` and `1`, the first resolved with the second. -/
def adopting : State ℕ Unit := ((State.init.alloc .unresolving).alloc .unresolving).push 1 (.adoption 0)

theorem run_adopting {ok : State ℕ Unit → Action ℕ Unit → Prop} (hn : ∀ s, ok s .new)
    (hr : ok ((State.init.alloc .unresolving).alloc .unresolving) (.resolve 0 (.promise 1))) :
    Run ok .init [] adopting := by
  have hidle : ∀ s : State ℕ Unit, s.running = none → Action.UserTurn s := by
    intro s hs j hj
    rw [hs] at hj
    cases hj
  have hknown : Action.Known ((State.init.alloc .unresolving).alloc .unresolving : State ℕ Unit)
      (.ok (.promise 1)) := by
    rintro q (hq | hq) <;> cases hq
    exact Nat.lt_succ_self 1
  exact ((Run.refl.step .new (hidle _ rfl) (hn _)).step .new (hidle _ rfl) (hn _)).step
    (.resolve 0 (.promise 1)) ⟨hidle _ rfl, Nat.zero_lt_succ 1, hknown⟩ hr

theorem promises_locked_in_adopting : FollowsAdopted adopting := by
  refine promises_locked_in.2.2 adopting [] (run_adopting (fun _ => trivial) (.inr ⟨?_, ?_, nofun⟩))
  · intro q k ha
    unfold Adopts at ha
    rw [State.promises_alloc, State.promises_alloc] at ha
    split at ha
    · cases ha
    · split at ha <;> cases ha
  · rintro q hq
    cases hq
    exact .inl rfl

/-- A second call of `resolve` settles the adopting promise although the adopted one is pending. -/
theorem not_promises_locked_in :
    ¬ ∀ (s : State ℕ Unit) es, Run (fun _ _ => True) .init es s → FollowsAdopted s := by
  intro h
  have hon : (Action.resolve 0 (.plain 5)).Enabled adopting :=
    ⟨fun _ hj => (nomatch hj), Nat.zero_lt_succ 1, fun _ hq => by rcases hq with hq | hq <;> cases hq⟩
  have hrun : Run (fun _ _ => True) .init [.settled 0] (adopting.store 0 (.ok (.plain 5))) :=
    (run_adopting (fun _ => trivial) trivial).step (.resolve 0 (.plain 5)) hon trivial
  rcases (h _ _ hrun 1 0 0 rfl).1 with hc | hc <;> cases hc

end Starlight.Promise
