import Starlight.Promise.Tracking

/-!
# Combined promises

`Promise.all` and `Promise.race` settle as they should if no job of a promise of the array has been
started before, the scheduler starts the jobs in the order of the settlements, and the program leaves the
combined promise alone.

An empty array leaves `Promise.all` pending, and a promise whose job has already run is never noticed.
-/

namespace Starlight.Promise

variable {V F : Type} {s s' s'' : State V F} {o p q k x : ℕ} {mode : TrackingMode} {ps L L' : List ℕ}
  {es : List (Event V F)} {r : Resolution V}

/-! ### What the combinators are for -/

/-- The first promise with a property, in the order of the settlements. -/
def FirstOf (L : List ℕ) (P : ℕ → Prop) (p : ℕ) : Prop :=
  ∃ before after, L = before ++ p :: after ∧ P p ∧ ∀ q ∈ before, ¬ P q

def Fulfilled (s : State V F) (p : ℕ) : Prop := ∃ v, (s.promises p).resolution = some (.ok v)

def Rejected (s : State V F) (p : ℕ) : Prop := ∃ e, (s.promises p).resolution = some (.error e)

/-- The combined promise `o` of an array of promises, after the settlements `L`: how it may be settled,
and when it must be. -/
def CombineSpec (L : List ℕ) (s : State V F) (o : ℕ) (ps : List ℕ) : TrackingMode → Prop
  | .all =>
    (∀ v, (s.promises o).resolution = some (.ok v) → ∃ vs, v = .array vs ∧
      List.Forall₂ (fun p v => (s.promises p).resolution = some (.ok v)) ps vs) ∧
    (∀ e, (s.promises o).resolution = some (.error e) →
      ∃ p, FirstOf L (fun q => q ∈ ps ∧ Rejected s q) p ∧ (s.promises p).resolution = some (.error e)) ∧
    ((∀ p ∈ ps, Finished s p) → (s.promises o).resolution ≠ none) ∧
    ∀ p ∈ ps, Finished s p → Rejected s p → (s.promises o).resolution ≠ none
  | .race =>
    (∀ r, (s.promises o).resolution = some r →
      ∃ p, FirstOf L (· ∈ ps) p ∧ (s.promises p).resolution = some r) ∧
    ∀ p ∈ ps, Finished s p → (s.promises o).resolution ≠ none
  | .allSettled =>
    (∀ r, (s.promises o).resolution = some r →
      Fulfilled s o ∧ ∀ p ∈ ps, (s.promises p).resolution ≠ none) ∧
    ((∀ p ∈ ps, Finished s p) → (s.promises o).resolution ≠ none)
  | .any =>
    (∀ v, (s.promises o).resolution = some (.ok v) →
      ∃ p, FirstOf L (fun q => q ∈ ps ∧ Fulfilled s q) p ∧ (s.promises p).resolution = some (.ok v)) ∧
    (Rejected s o → ∀ p ∈ ps, Rejected s p) ∧
    (∀ p ∈ ps, Finished s p → Fulfilled s p → (s.promises o).resolution ≠ none) ∧
    ((∀ p ∈ ps, Finished s p) → (s.promises o).resolution ≠ none)

def LeavesAlone (o : ℕ) (s : State V F) : Action V F → Prop
  | .resolve p _ => p ≠ o
  | .reject p _ => p ≠ o
  | a => InOrder s a

theorem spares_of_leavesAlone {a : Action V F} (h : LeavesAlone o s a) : Spares o s a := by
  cases a <;> first | exact h | trivial

/-! ### What a combined promise waits for -/

/-- The job of promise `p` has dealt with entry `k` in its loop over the `finally` handlers. -/
def Passed (s : State V F) (p k : ℕ) : Prop :=
  Started s p ∧ ∀ j, s.running = some j → j.promise = p → j.pass = .finally_ ∧ k < j.index

/-- What the combined promise waits for. -/
def Waits (s : State V F) (o : ℕ) (ps : List ℕ) : TrackingMode → Prop
  | .all => (∀ x p k, IsEntry s o x p k → Passed s p k → Fulfilled s p) ∧
      (ps ≠ [] → ∃ x p k, IsEntry s o x p k ∧ ¬ Passed s p k)
  | .race => ∀ x p k, IsEntry s o x p k → ¬ Passed s p k
  | _ => True

/-- What the combined promise may be settled with. -/
def Outcome (L : List ℕ) (s : State V F) (ps : List ℕ) : TrackingMode → Resolution V → Prop
  | .all, .ok v => ∃ vs, v = .array vs ∧
      List.Forall₂ (fun p v => (s.promises p).resolution = some (.ok v)) ps vs
  | .all, .error e => ∃ p, FirstOf L (fun q => q ∈ ps ∧ Rejected s q) p ∧
      (s.promises p).resolution = some (.error e)
  | .race, r => ∃ p, FirstOf L (· ∈ ps) p ∧ (s.promises p).resolution = some r
  | _, _ => False

/-- The promises of the array report to the combined promise, and it has noted what they reported. -/
structure Combined (o : ℕ) (mode : TrackingMode) (ps L : List ℕ) (s : State V F) : Prop where
  lt : o < s.next
  entry : ∀ {x p}, ps[x]? = some p → ∃ k, IsEntry s o x p k
  only : ∀ {x p k}, IsEntry s o x p k → ps[x]? = some p
  unique : ∀ {x p k k'}, IsEntry s o x p k → IsEntry s o x p k' → k = k'
  alien : ∀ {q sub}, sub ∈ (s.promises q).subs → sub.promise ≠ o
  within : ∀ {j x k}, s.running = some j → j.pass = .finally_ → IsEntry s o x j.promise k → k < j.bound
  mode_eq : (s.promises o).trackingMode = some mode
  pending : (s.promises o).resolution = none → Waits s o ps mode ∧
    ∃ results, (s.promises o).trackingResults = some results ∧ results.length = ps.length ∧
      ∀ x p k, IsEntry s o x p k → (Passed s p k → results[x]? = some (s.promises p).resolution) ∧
        (¬ Passed s p k → results[x]? = some none)
  done : ∀ {r}, (s.promises o).resolution = some r → Outcome L s ps mode r

/-! ### Later states -/

theorem FirstOf.mono {P P' : ℕ → Prop} (h : FirstOf L P p) (hL : L <+: L') (hp : P p → P' p)
    (hq : ∀ q ∈ L, P' q → P q) : FirstOf L' P' p := by
  obtain ⟨rest, rfl⟩ := hL
  obtain ⟨before, after, rfl, hP, hno⟩ := h
  refine ⟨before, after ++ rest, by simp, hp hP, fun q hmem hP' => hno q hmem (hq q ?_ hP')⟩
  exact List.mem_append_left _ hmem

theorem Later.resolution_eq (hl : Later s s') (hn : (s.promises p).resolution ≠ none) :
    (s'.promises p).resolution = (s.promises p).resolution := by
  obtain ⟨r, hr⟩ := Option.ne_none_iff_exists'.mp hn
  rw [hr, hl.resolution p r hr]

theorem Outcome.later (h : Outcome L s ps mode r) (hl : Later s s') (hL : L <+: L')
    (hset : ∀ q ∈ L, (s.promises q).resolution ≠ none) : Outcome L' s' ps mode r := by
  cases mode with
  | all =>
    cases r with
    | ok v =>
      obtain ⟨vs, rfl, hvs⟩ := h
      exact ⟨vs, rfl, hvs.imp fun p v hp => hl.resolution p _ hp⟩
    | error e =>
      obtain ⟨p, hfirst, hp⟩ := h
      refine ⟨p, hfirst.mono hL (fun hP => ⟨hP.1, e, hl.resolution p _ hp⟩) fun q hq hP => ?_,
        hl.resolution p _ hp⟩
      obtain ⟨hmem, e', he'⟩ := hP
      exact ⟨hmem, e', (hl.resolution_eq (hset q hq)).symm.trans he'⟩
  | race =>
    obtain ⟨p, hfirst, hp⟩ := h
    exact ⟨p, hfirst.mono hL id fun _ _ => id, hl.resolution p _ hp⟩
  | allSettled => exact h.elim
  | any => exact h.elim

theorem Combined.congr (h : Combined o mode ps L s) (hl : Later s s') (hL : L <+: L')
    (hset : ∀ q ∈ L, (s.promises q).resolution ≠ none)
    (hentry : ∀ x p k, IsEntry s' o x p k ↔ IsEntry s o x p k)
    (halien : ∀ q sub, sub ∈ (s'.promises q).subs → sub.promise ≠ o)
    (hwithin : ∀ j x k, s'.running = some j → j.pass = .finally_ → IsEntry s o x j.promise k →
      k < j.bound)
    (hpassed : ∀ x p k, IsEntry s o x p k → (Passed s' p k ↔ Passed s p k))
    (hmode : (s'.promises o).trackingMode = (s.promises o).trackingMode)
    (hresults : (s'.promises o).trackingResults = (s.promises o).trackingResults)
    (hres : (s'.promises o).resolution = (s.promises o).resolution) :
    Combined o mode ps L' s' := by
  constructor
  case lt => exact lt_of_lt_of_le h.lt hl.next_le
  case entry => exact fun hx => (h.entry hx).imp fun k hk => (hentry _ _ k).mpr hk
  case only => exact fun he => h.only ((hentry _ _ _).mp he)
  case unique => exact fun he he' => h.unique ((hentry _ _ _).mp he) ((hentry _ _ _).mp he')
  case alien => exact fun hs => halien _ _ hs
  case within => exact fun hj hp he => hwithin _ _ _ hj hp ((hentry _ _ _).mp he)
  case mode_eq => exact hmode.trans h.mode_eq
  case pending =>
    intro hn
    obtain ⟨hw, results, hr, hlen, hnote⟩ := h.pending (hres.symm.trans hn)
    refine ⟨?_, results, hresults.trans hr, hlen, fun x p k he => ?_⟩
    · cases mode with
      | all =>
        refine ⟨fun x p k he hp => ?_, fun hne => ?_⟩
        · have he := (hentry _ _ _).mp he
          obtain ⟨v, hv⟩ := hw.1 x p k he ((hpassed _ _ _ he).mp hp)
          exact ⟨v, hl.resolution p _ hv⟩
        · obtain ⟨x, p, k, he, hno⟩ := hw.2 hne
          exact ⟨x, p, k, (hentry _ _ _).mpr he, fun hc => hno ((hpassed _ _ _ he).mp hc)⟩
      | race =>
        intro x p k he hc
        have he := (hentry _ _ _).mp he
        exact hw x p k he ((hpassed _ _ _ he).mp hc)
      | allSettled => trivial
      | any => trivial
    · have he := (hentry _ _ _).mp he
      obtain ⟨hyes, hno⟩ := hnote x p k he
      refine ⟨fun hp => ?_, fun hp => hno fun hc => hp ((hpassed _ _ _ he).mpr hc)⟩
      have hp := (hpassed _ _ _ he).mp hp
      rw [hyes hp, hl.resolution_eq hp.1.1]
  case done => exact fun hr => (h.done (hres.symm.trans hr)).later hl hL hset

theorem Queues.started_iff (h : Queues s s') (p : ℕ) : Started s' p ↔ Started s p := by
  obtain ⟨new, hjobs, -, hset, hpend⟩ := h.jobs
  unfold Started
  rw [hset, hjobs, List.mem_append, not_or]
  constructor
  · rintro ⟨hs, hj, hnew⟩
    exact ⟨hs.resolve_right hnew, hj⟩
  · rintro ⟨hs, hj⟩
    exact ⟨.inl hs, hj, fun hc => hs (hpend p hc)⟩

theorem Aside.passed_iff (h : Aside o s s') : Passed s' p k ↔ Passed s p k := by
  unfold Passed
  rw [h.queues.started_iff, h.running]

theorem Combined.aside (h : Combined o mode ps L s) (ha : Aside o s s') (hL : L <+: L')
    (hset : ∀ q ∈ L, (s.promises q).resolution ≠ none) : Combined o mode ps L' s' :=
  h.congr ha.later hL hset (fun _ _ _ => ha.isEntry_iff) (ha.alien fun _ _ => h.alien)
    (fun _ _ _ hj hp he => h.within (ha.running ▸ hj) hp he)
    (fun _ _ _ _ => ha.passed_iff) ha.mode ha.results ha.resolution

/-! ### Steps of the running job -/

theorem Combined.withRunning (h : Combined o mode ps L s)
    (hset : ∀ q ∈ L, (s.promises q).resolution ≠ none) {j : Option Job}
    (hwithin : ∀ j' x k, j = some j' → j'.pass = .finally_ → IsEntry s o x j'.promise k → k < j'.bound)
    (hpassed : ∀ x p k, IsEntry s o x p k → (Passed { s with running := j } p k ↔ Passed s p k)) :
    Combined o mode ps L { s with running := j } :=
  h.congr ((Later.refl s).congr rfl rfl) (List.prefix_refl L) hset (fun _ _ _ => Iff.rfl)
    (fun _ _ => h.alien) hwithin hpassed rfl rfl rfl

theorem passed_iff_of_running {j : Job} (hst : Started s j.promise) (hj : s.running = some j) :
    Passed s p k ↔ if p = j.promise then j.pass = .finally_ ∧ k < j.index else Started s p := by
  unfold Passed
  rw [hj]
  split
  · next hp =>
    subst hp
    exact ⟨fun h => h.2 j rfl rfl, fun h => ⟨hst, fun j' hj' _ => by cases hj'; exact h⟩⟩
  · next hp =>
    exact ⟨fun h => h.1, fun h => ⟨h, fun j' hj' hp' => by cases hj'; exact absurd hp'.symm hp⟩⟩

theorem passed_withRunning (j : Job) (hst : Started s j.promise) :
    Passed { s with running := some j } p k ↔
      if p = j.promise then j.pass = .finally_ ∧ k < j.index else Started s p :=
  @passed_iff_of_running _ _ { s with running := some j } p k j hst rfl

theorem Inv.started_of_running (hi : Inv s) {j : Job} (hj : s.running = some j) :
    Started s j.promise := by
  have hok := hi.running j hj
  obtain ⟨r, hr⟩ := hok.settled
  exact ⟨by rw [hr]; nofun, hok.not_scheduled⟩

theorem Combined.nextSub (h : Combined o mode ps L s) (hi : Inv s)
    (hset : ∀ q ∈ L, (s.promises q).resolution ≠ none) {j : Job} (hj : s.running = some j)
    (hno : j.pass = .finally_ → ∀ x, ¬ IsEntry s o x j.promise j.index) :
    Combined o mode ps L (s.nextSub j) := by
  refine h.withRunning hset (fun j' x k hj' hp he => ?_) fun x p k he => ?_
  · cases hj'
    exact @Combined.within _ _ _ _ _ _ _ h j x k hj hp he
  · have hst := hi.started_of_running hj
    refine (passed_withRunning { j with index := j.index + 1, awaiting := false } hst).trans
      (Iff.trans ?_ (passed_iff_of_running hst hj).symm)
    refine iff_of_eq (ite_congr rfl (fun hp => ?_) fun _ => rfl)
    subst hp
    refine propext (and_congr_right fun hf => ⟨fun hk => ?_, fun hk => Nat.lt_succ_of_lt hk⟩)
    exact Nat.lt_of_le_of_ne (Nat.le_of_lt_succ hk) fun hc => hno hf x (hc ▸ he)

theorem Combined.endLoop (h : Combined o mode ps L s) (hi : Inv s)
    (hset : ∀ q ∈ L, (s.promises q).resolution ≠ none) {j : Job} (hj : s.running = some j)
    (hge : ¬ j.index < j.bound) : Combined o mode ps L (match j.pass with
      | .settle => { s with running := some { j with
          pass := .finally_, index := 0, bound := (s.promises j.promise).subs.length } }
      | .finally_ => { s with running := none }) := by
  have hst := hi.started_of_running hj
  split
  · next hp =>
    refine h.withRunning hset (fun j' x k hj' _ he => ?_) fun x p k he => ?_
    · cases hj'
      obtain ⟨sub, hk, -⟩ := he
      exact (List.getElem?_eq_some_iff.mp hk).1
    · refine (passed_withRunning { j with
        pass := .finally_, index := 0, bound := (s.promises j.promise).subs.length } hst).trans
          (Iff.trans ?_ (passed_iff_of_running hst hj).symm)
      refine iff_of_eq (ite_congr rfl (fun hp' => ?_) fun _ => rfl)
      rw [hp]
      exact propext ⟨fun hc => absurd hc.2 (Nat.not_lt_zero k), fun hc => nomatch hc.1⟩
  · next hp =>
    refine h.withRunning hset nofun fun x p k he => ?_
    rw [passed_iff_of_running hst hj]
    split
    · next hp' =>
      subst hp'
      have hlt := lt_of_lt_of_le (h.within hj hp he) (Nat.le_of_not_lt hge)
      exact ⟨fun _ => ⟨hp, hlt⟩, fun _ => ⟨hst, nofun⟩⟩
    · exact ⟨fun hc => hc.1, fun hc => ⟨hc, nofun⟩⟩

theorem Combined.start (h : Combined o mode ps L s)
    (hset : ∀ q ∈ L, (s.promises q).resolution ≠ none) (hrun : s.running = none) (hq : q ∈ s.jobs) :
    Combined o mode ps L (s.start q) := by
  refine h.congr ((Later.refl s).congr rfl rfl) (List.prefix_refl L) hset (fun _ _ _ => Iff.rfl)
    (fun _ _ => h.alien) (fun j x k hj hp _ => ?_) (fun x p k _ => ?_) rfl rfl rfl
  · cases hj
    cases hp
  · by_cases hp : p = q
    · subst hp
      exact ⟨fun hc => (by cases (hc.2 _ rfl rfl).1), fun hc => absurd hq hc.1.2⟩
    · refine and_congr (and_congr_right' (not_congr (List.mem_erase_of_ne hp))) ⟨fun _ j hj => ?_,
        fun _ j hj hp' => ?_⟩
      · cases hrun.symm.trans hj
      · cases hj
        exact absurd hp'.symm hp

/-! ### The report of a promise -/

theorem Queued.before (h : Queued L s) {j : Job} (hj : s.running = some j) :
    ∃ before after, L = before ++ j.promise :: after ∧
      ∀ q ∈ before, Started s q ∧ q ≠ j.promise := by
  obtain ⟨started, hL, hrun⟩ := h.started
  obtain ⟨before, hb⟩ := hrun j hj
  have hL' : L = before ++ j.promise :: s.jobs := by
    rw [hL, hb, List.append_assoc]
    rfl
  refine ⟨before, s.jobs, hL', fun q hq => ?_⟩
  have hnd := hL' ▸ h.nodup
  have hdisj := (List.nodup_append.mp hnd).2.2 q hq
  have hmem : q ∈ L := hL' ▸ List.mem_append_left _ hq
  exact ⟨⟨(h.mem_iff q).mp hmem, fun hc => hdisj q (List.mem_cons_of_mem _ hc) rfl⟩,
    hdisj _ (List.mem_cons_self ..)⟩

theorem passed_of_started_ne {j : Job} (hj : s.running = some j) (hs : Started s q)
    (hq : q ≠ j.promise) (k : ℕ) : Passed s q k := by
  refine ⟨hs, fun j' hj' hp => ?_⟩
  obtain rfl := Option.some_inj.mp (hj.symm.trans hj')
  exact absurd hp.symm hq

theorem Combined.outcome (h : Combined o mode ps L s) (hq : Queued L s) {j : Job}
    (hj : s.running = some j) (hr : (s.promises j.promise).resolution = some r)
    (he : IsEntry s o x j.promise j.index) (hn : (s.promises o).resolution = none)
    {results : List (Option (Resolution V))} {r' : Resolution V}
    (hset : settledBy (results.set x (some r)) r mode = some r') (hsound : Sound s ps mode r') :
    Outcome L s ps mode r' := by
  have hw := (h.pending hn).1
  have hx := h.only he
  obtain ⟨before, after, hL, hbefore⟩ := hq.before hj
  have hpast : ∀ q ∈ before, ∀ y, ps[y]? = some q → ∃ k, IsEntry s o y q k ∧ Passed s q k := by
    intro q hqb y hy
    obtain ⟨k, hk⟩ := h.entry hy
    obtain ⟨hs, hne⟩ := hbefore q hqb
    exact ⟨k, hk, passed_of_started_ne hj hs hne k⟩
  cases mode with
  | all =>
    cases r with
    | ok v =>
      dsimp only [settledBy] at hset
      split_ifs at hset
      cases hset
      exact hsound
    | error e =>
      cases hset
      refine ⟨j.promise, ⟨before, after, hL, ⟨List.mem_of_getElem? hx, e, hr⟩, fun q hqb hP => ?_⟩, hr⟩
      obtain ⟨hmem, e', he'⟩ := hP
      obtain ⟨y, hy⟩ := List.mem_iff_getElem?.mp hmem
      obtain ⟨k, hk, hpass⟩ := hpast q hqb y hy
      obtain ⟨v, hv⟩ := hw.1 y q k hk hpass
      rw [he'] at hv
      cases hv
  | race =>
    cases hset
    refine ⟨j.promise, ⟨before, after, hL, List.mem_of_getElem? hx, fun q hqb hmem => ?_⟩, hr⟩
    obtain ⟨y, hy⟩ := List.mem_iff_getElem?.mp hmem
    obtain ⟨k, hk, hpass⟩ := hpast q hqb y hy
    exact hw y q k hk hpass
  | allSettled => cases hset
  | any => cases hset

theorem Combined.track (h : Combined o mode ps L s) (hrep : Reporting o mode ps s)
    (hi : Inv s) (hq : Queued L s) {j : Job}
    (hj : s.running = some j) (hp : j.pass = .finally_)
    (hr : (s.promises j.promise).resolution = some r) (he : IsEntry s o x j.promise j.index) :
    Combined o mode ps L ((s.resolveSingleTrackedResolution o x r).nextSub j) := by
  have hplain : ∀ q, r ≠ .ok (.promise q) := fun q hc => hi.plain _ q (hc ▸ hr)
  have hset : ∀ q ∈ L, (s.promises q).resolution ≠ none := fun q hqL => (hq.mem_iff q).mp hqL
  have hst := hi.started_of_running hj
  have hl := later_track s o x r
  have hx := h.only he
  have hrep' := hrep.track hplain hx hr
  have hentry : ∀ {y p k}, IsEntry ((s.resolveSingleTrackedResolution o x r).nextSub j) o y p k ↔
      IsEntry s o y p k := by
    intro y p k
    unfold IsEntry
    have hsubs : (((s.resolveSingleTrackedResolution o x r).nextSub j).promises p).subs =
        (s.promises p).subs := subs_track hplain x p
    rw [hsubs]
  have hpassed : ∀ {p k}, Passed ((s.resolveSingleTrackedResolution o x r).nextSub j) p k ↔
      Passed s p k ∨ (p = j.promise ∧ k = j.index) := by
    intro p k
    have hst' := (queues_track s o x r).started_iff
    refine (@passed_withRunning _ _ (s.resolveSingleTrackedResolution o x r) p k
      { j with index := j.index + 1, awaiting := false } ((hst' _).mpr hst)).trans ?_
    rw [passed_iff_of_running hst hj, hst']
    by_cases hpj : p = j.promise
    · simp only [hpj, hp, if_true, true_and]
      exact Nat.lt_succ_iff_lt_or_eq
    · simp only [hpj, if_false, false_and, or_false]
  have hnot : ¬ Passed s j.promise j.index := fun hc => by
    have := ((passed_iff_of_running hst hj).mp hc)
    rw [if_pos rfl] at this
    exact absurd this.2 (Nat.lt_irrefl _)
  have hthis : Passed ((s.resolveSingleTrackedResolution o x r).nextSub j) j.promise j.index :=
    hpassed.mpr (.inr ⟨rfl, rfl⟩)
  constructor
  case lt => exact hrep'.lt
  case entry => exact fun hx => (h.entry hx).imp fun k hk => hentry.mpr hk
  case only => exact hrep'.only
  case unique => exact fun he he' => h.unique (hentry.mp he) (hentry.mp he')
  case alien => exact hrep'.alien _ _
  case within =>
    intro j' y k hj' hp' he'
    cases hj'
    exact @Combined.within _ _ _ _ _ _ _ h j y k hj hp (hentry.mp he')
  case mode_eq => exact hrep'.mode_eq
  case pending =>
    intro hn'
    have hn : (s.promises o).resolution = none := by
      by_contra hc
      obtain ⟨r', hr'⟩ := Option.ne_none_iff_exists'.mp hc
      have hn' : ((s.resolveSingleTrackedResolution o x r).promises o).resolution = none := hn'
      rw [hl.resolution o r' hr'] at hn'
      cases hn'
    obtain ⟨hw, results, hres, hlen, hnote⟩ := h.pending hn
    obtain ⟨-, hres', hset'⟩ := track_outer hn h.mode_eq hres hplain x
    have hopen : settledBy (results.set x (some r)) r mode = none := hset'.symm.trans hn'
    have hxlen : x < results.length := by
      rw [hlen]
      exact (List.getElem?_eq_some_iff.mp hx).1
    have hnote' : ∀ y p k, IsEntry s o y p k →
        (Passed s p k ∨ (p = j.promise ∧ k = j.index) →
          (results.set x (some r))[y]? = some (s.promises p).resolution) ∧
        (¬ (Passed s p k ∨ (p = j.promise ∧ k = j.index)) →
          (results.set x (some r))[y]? = some none) := by
      intro y p k hk
      obtain ⟨hyes, hno⟩ := hnote y p k hk
      by_cases hxy : x = y
      · subst hxy
        obtain rfl := Option.some_inj.mp (hx.symm.trans (h.only hk))
        obtain rfl := h.unique he hk
        refine ⟨fun _ => ?_, fun hc => absurd (.inr ⟨rfl, rfl⟩) hc⟩
        rw [List.getElem?_set_self hxlen, hr]
      · rw [List.getElem?_set_ne hxy]
        refine ⟨fun hc => hc.elim hyes ?_, fun hc => hno fun hc' => hc (.inl hc')⟩
        rintro ⟨rfl, rfl⟩
        exfalso
        obtain ⟨sub, hk₁, hf₁⟩ := he
        obtain ⟨sub', hk₂, hf₂⟩ := hk
        obtain rfl := Option.some_inj.mp (hk₁.symm.trans hk₂)
        cases hf₁.symm.trans hf₂
        exact hxy rfl
    refine ⟨?_, _, hres', by rw [List.length_set, hlen], fun y p k hk => ?_⟩
    · cases mode with
      | all =>
        cases r with
        | error e => cases hopen
        | ok v =>
          refine ⟨fun y p k hk hpass => ?_, fun _ => ?_⟩
          · rcases hpassed.mp hpass with hpass | ⟨rfl, -⟩
            · obtain ⟨w, hfw⟩ := hw.1 y p k (hentry.mp hk) hpass
              exact ⟨w, hl.resolution p _ hfw⟩
            · exact ⟨v, hl.resolution _ _ hr⟩
          · -- some result is still missing
            dsimp only [settledBy] at hopen
            split at hopen
            · cases hopen
            next hall =>
            obtain ⟨v', hmem, hv'⟩ : ∃ v' ∈ results.set x (some (Except.ok v)), v' = none := by
              by_contra hc
              refine hall (List.all_eq_true.mpr fun v' hv' => ?_)
              exact Option.isSome_iff_ne_none.mpr fun hv => hc ⟨v', hv', hv⟩
            obtain ⟨y, hy⟩ := List.mem_iff_getElem?.mp (hv' ▸ hmem)
            have hylt : y < ps.length := by
              have := (List.getElem?_eq_some_iff.mp hy).1
              rwa [List.length_set, hlen] at this
            obtain ⟨k, hk⟩ := h.entry (List.getElem?_eq_getElem hylt)
            refine ⟨y, _, k, hentry.mpr hk, fun hpass => ?_⟩
            have hval := (hnote' y _ k hk).1 (hpassed.mp hpass)
            rw [hy] at hval
            have hstd : Started s ps[y] := by
              rcases hpassed.mp hpass with hpass | ⟨hpj, -⟩
              · exact hpass.1
              · rw [hpj]; exact hst
            exact hstd.1 (Option.some_inj.mp hval).symm
      | race => cases hopen
      | allSettled => trivial
      | any => trivial
    · obtain ⟨hyes, hno⟩ := hnote' y p k (hentry.mp hk)
      refine ⟨fun hpass => ?_, fun hpass => hno fun hc => hpass (hpassed.mpr hc)⟩
      have hpass := hpassed.mp hpass
      have hstd : Started s p := by
        rcases hpass with hpass | ⟨rfl, -⟩
        · exact hpass.1
        · exact hst
      rw [hyes hpass]
      exact congrArg some (hl.resolution_eq hstd.1).symm
  case done =>
    intro r' hr'
    have hl' : Later s ((s.resolveSingleTrackedResolution o x r).nextSub j) := hl.congr rfl rfl
    by_cases hn : (s.promises o).resolution = none
    · obtain ⟨-, results, hres, -⟩ := h.pending hn
      have hset' := (track_outer hn h.mode_eq hres hplain x).2.2.symm.trans hr'
      exact (h.outcome hq hj hr he hn hset' (hrep.outcome hx hr hn hres hset')).later hl' (List.prefix_refl L) hset
    · obtain ⟨r'', hr''⟩ := Option.ne_none_iff_exists'.mp hn
      obtain rfl := Option.some_inj.mp (hr'.symm.trans (hl.resolution o r'' hr''))
      exact (h.done hr'').later hl' (List.prefix_refl L) hset

theorem Combined.of_newTracking (hi : Inv s) (mode : TrackingMode) (hps : ∀ p ∈ ps, p < s.next)
    (hns : ∀ p ∈ ps, ¬ Started s p) : Combined s.next mode ps L (s.newTracking mode ps) := by
  obtain ⟨h, hrun, hqueues⟩ := subscribed_newTracking hi mode hps
  obtain ⟨subs, hnew⟩ := h.fresh
  have hpassed : ∀ {y p k}, IsEntry (s.newTracking mode ps) s.next y p k →
      ¬ Passed (s.newTracking mode ps) p k := by
    intro y p k he hc
    exact hns p (List.mem_of_getElem? (h.only he)) ((hqueues.started_iff p).mp hc.1)
  constructor
  case lt => exact h.lt
  case entry => exact h.entry
  case only => exact h.only
  case unique => exact h.unique
  case alien => exact h.alien _ _
  case within =>
    intro j x k hj _ he
    have hj : s.running = some j := hrun.symm.trans hj
    exact absurd (hi.started_of_running hj) (hns _ (List.mem_of_getElem? (h.only he)))
  case mode_eq => rw [hnew]; rfl
  case pending =>
    refine fun _ => ⟨?_, List.replicate ps.length none, by rw [hnew]; rfl, List.length_replicate,
      fun x p k he => ⟨fun hc => absurd hc (hpassed he), fun _ => ?_⟩⟩
    · cases mode with
      | all =>
        refine ⟨fun x p k he hc => absurd hc (hpassed he), fun hne => ?_⟩
        obtain ⟨p, rest, rfl⟩ := List.exists_cons_of_ne_nil hne
        obtain ⟨k, hk⟩ := h.entry (y := 0) rfl
        exact ⟨0, p, k, hk, hpassed hk⟩
      | race => exact fun x p k he => hpassed he
      | allSettled => trivial
      | any => trivial
    · rw [List.getElem?_replicate, if_pos (List.getElem?_eq_some_iff.mp (h.only he)).1]
  case done =>
    intro r hr
    rw [hnew] at hr
    cases hr

/-! ### Runs -/

theorem State.nextSub_resolved (s : State V F) (p : ℕ) (r : Resolution V) (j : Job) :
    (s.resolved p r).nextSub j = (s.nextSub j).resolved p r := by
  have hsame : ((s.nextSub j).promises p).resolution = (s.promises p).resolution := rfl
  unfold State.resolved State.doResolve
  rw [hsame]
  split
  · rfl
  · split <;> rfl

theorem Combined.advance (h : Combined o mode ps L s) (hrep : Reporting o mode ps s) (hi : Inv s)
    (hq : Queued L s)
    (hL : L <+: L') {j : Job} (hj : s.running = some j)
    (hr : (s.promises j.promise).resolution = some r) : Combined o mode ps L' (s.advance j r) := by
  have hok := hi.running j hj
  have hset : ∀ q ∈ L, (s.promises q).resolution ≠ none := fun q hqL => (hq.mem_iff q).mp hqL
  have hlast : ∀ {s' : State V F}, Combined o mode ps L s' → Later s s' → Combined o mode ps L' s' :=
    fun h' hl => h'.aside (Aside.refl o _) hL fun q hqL => by
      rw [hl.resolution_eq (hset q hqL)]
      exact hset q hqL
  unfold State.advance
  split
  · next hlt =>
    obtain ⟨sub, hget⟩ := hok.exists_sub hlt
    rw [hget]
    dsimp only
    have hmem := List.mem_of_getElem? hget
    -- the entry of a combinator is the one that the loop calls
    have hentry : ∀ {x}, IsEntry s o x j.promise j.index →
        sub.onFinally = some (.track o x j.promise) := by
      rintro x ⟨sub', hk, hf⟩
      obtain rfl := Option.some_inj.mp (hget.symm.trans hk)
      exact hf
    have hcall : ∀ {x}, IsEntry s o x j.promise j.index → j.pass = .finally_ →
        sub.handler j.pass r = some (.track o x j.promise) := by
      intro x he hp
      rw [hp]
      exact hentry he
    cases hf : sub.handler j.pass r with
    | none =>
      refine hlast (h.nextSub hi hset hj fun hp x he => ?_) ((Later.refl s).congr rfl rfl)
      cases hf.symm.trans (hcall he hp)
    | some f =>
      dsimp only
      rcases (hi.sub_ok _ sub hmem).handler_cases hf with ⟨g, rfl⟩ | ⟨rfl, hp, -⟩ |
        ⟨outer, index, rfl, hp, -⟩
      · refine hlast (h.withRunning hset (fun j' x k hj' hp he => ?_) fun x p k he => ?_)
          ((Later.refl s).congr rfl rfl)
        · cases hj'
          exact @Combined.within _ _ _ _ _ _ _ h j x k hj hp he
        · have hst := hi.started_of_running hj
          exact (passed_withRunning { j with awaiting := true } hst).trans
            (passed_iff_of_running hst hj).symm
      · unfold State.callHandler
        dsimp only
        rw [State.nextSub_resolved]
        have hn := h.nextSub hi hset hj fun hp' => by
          cases hp.symm.trans hp'
        exact hn.aside (aside_resolved (h.alien hmem) _) hL hset
      · unfold State.callHandler
        dsimp only
        rw [hr]
        dsimp only
        rw [State.nextSub_resolved]
        have hl := later_track s outer index r
        have hset' : ∀ q ∈ L, (((s.resolveSingleTrackedResolution outer index r).nextSub j).promises
            q).resolution ≠ none := fun q hqL => by
          have hsame : (((s.resolveSingleTrackedResolution outer index r).nextSub j).promises
              q).resolution = (s.promises q).resolution := hl.resolution_eq (hset q hqL)
          rw [hsame]
          exact hset q hqL
        refine Combined.aside ?_ (aside_resolved (h.alien hmem) _) hL hset'
        by_cases ho : outer = o
        · subst ho
          refine h.track hrep hi hq hj hp hr ⟨sub, hget, ?_⟩
          rw [hp] at hf
          exact hf
        · have ha := aside_track (s := s) ho index r
          have ho' := h.lt
          refine (h.aside ha (List.prefix_refl L) hset).nextSub (hi.track ?_ (hi.known _ r hr)) ?_
            (ha.running.trans hj) fun _ x he => ?_
          · cases hi.sub_ok _ sub hmem with
            | adoption hs => rw [hp, hs] at hf; cases hf
            | then_ f g _ _ hs | finally_ f _ _ hs => rw [hp] at hf; cases hs.symm.trans hf
            | track outer' index' hlt' _ _ hs => rw [hp] at hf; cases hs.symm.trans hf; exact hlt'
          · exact hset'
          · cases hf.symm.trans (hcall (ha.isEntry_iff.mp he) hp)
            exact ho rfl
  · next hge =>
    have he := h.endLoop hi hset hj hge
    refine hlast ?_ ?_
    · exact he
    · split <;> exact (Later.refl s).congr rfl rfl

/-- **The step lemma.** -/
theorem Combined.exec (h : Combined o mode ps L s) (hrep : Reporting o mode ps s)
    (hi : Inv s) (hq : Queued L s) {a : Action V F}
    (he : a.Enabled s) (ho : LeavesAlone o s a) (hL : L <+: L') :
    Combined o mode ps L' (a.exec s) := by
  have hset : ∀ q ∈ L, (s.promises q).resolution ≠ none := fun q hqL => (hq.mem_iff q).mp hqL
  rcases aside_exec hi h.lt he (spares_of_leavesAlone ho) with ha | ⟨p, rfl⟩ | rfl | ⟨r, rfl⟩
  · exact h.aside ha hL hset
  · refine (h.start hset he.1 he.2).aside (Aside.refl o _) hL ?_
    exact hset
  · obtain ⟨j, hj, -⟩ := he
    obtain ⟨r, hr⟩ := (hi.running j hj).settled
    unfold Action.exec
    rw [hj]
    dsimp only
    rw [hr]
    exact h.advance hrep hi hq hL hj hr
  · obtain ⟨⟨j, hj, ha⟩, -⟩ := he
    obtain ⟨-, sub, r', f, hs, hr', hf⟩ := (hi.running j hj).waits ha
    unfold Action.exec
    rw [hj]
    dsimp only
    rw [hs]
    dsimp only
    rw [State.nextSub_resolved]
    refine (h.nextSub hi hset hj fun hp x he => ?_).aside
      (aside_resolved (h.alien (List.mem_of_getElem? hs)) r) hL hset
    -- the handler that returns is one of the program
    obtain ⟨sub', hk, hf'⟩ := he
    obtain rfl := Option.some_inj.mp (hs.symm.trans hk)
    rw [hp] at hf
    cases hf'.symm.trans hf

theorem Run.combined {s₀ s : State V F} {es₀ es : List (Event V F)}
    (h₀ : Run InOrder .init es₀ s₀) (he : (Action.combine mode ps).Enabled s₀)
    (hns : ∀ p ∈ ps, ¬ Started s₀ p)
    (h : Run (LeavesAlone s₀.next) ((Action.combine mode ps).exec s₀) es s) :
    (Inv s ∧ Reporting s₀.next mode ps s) ∧ Queued (settledLog (es₀ ++ es)) s ∧
      Combined s₀.next mode ps (settledLog (es₀ ++ es)) s := by
  have hi₀ := (h₀.inv inv_init).1
  induction h with
  | refl =>
    have hq := (h₀.queued fun _ _ => id).exec hi₀ he trivial
    have hevents : settledLog ((Action.combine mode ps).events s₀) = [] := by
      refine settledLog_events (fun p hp => by cases hp) ?_
      rw [List.append_nil]
      exact (trackAll_outer (Nat.lt_succ_self _) ps 0).2.2
    rw [hevents, List.append_nil] at hq
    rw [List.append_nil]
    exact ⟨⟨(hi₀.exec he).1, .of_newTracking hi₀ mode he.2⟩, hq,
      Combined.of_newTracking hi₀ mode he.2 hns⟩
  | @step es s h a he' ho ih =>
    obtain ⟨⟨hi, hrep⟩, hq, hc⟩ := ih
    have hord : InOrder s a := by
      cases a <;> first | exact ho | trivial
    rw [← List.append_assoc, settledLog_append]
    exact ⟨⟨(hi.exec he').1, hrep.exec hi he' (spares_of_leavesAlone ho)⟩, hq.exec hi he' hord,
      hc.exec hrep hi hq he' ho (List.prefix_append _ _)⟩

theorem Combined.passed (h : Combined o mode ps L s) (hx : ps[x]? = some p) (hf : Finished s p) :
    ∃ k, IsEntry s o x p k ∧ Passed s p k := by
  obtain ⟨k, hk⟩ := h.entry hx
  exact ⟨k, hk, ⟨hf.1, hf.2.1⟩, fun j hj hp => absurd hp (hf.2.2 j hj)⟩

/-- **Combinators.** `Promise.all` of a nonempty array and `Promise.race` settle as they should, in every
run in which no job of a promise of the array was started before the call, jobs start in the order of
the settlements, and the program leaves the combined promise alone. -/
theorem combinators_settle {s₀ s : State V F} {es₀ es : List (Event V F)}
    (h₀ : Run InOrder .init es₀ s₀) (mode : TrackingMode) (ps : List ℕ)
    (hmode : mode = .all ∧ ps ≠ [] ∨ mode = .race) (he : (Action.combine mode ps).Enabled s₀)
    (hns : ∀ p ∈ ps, ¬ Started s₀ p)
    (h : Run (LeavesAlone s₀.next) ((Action.combine mode ps).exec s₀) es s) :
    CombineSpec (settledLog (es₀ ++ es)) s s₀.next ps mode := by
  obtain ⟨-, -, hc⟩ := h₀.combined he hns h
  rcases hmode with ⟨rfl, hne⟩ | rfl
  · refine ⟨fun v hv => hc.done hv, fun e he => hc.done he, fun hall hn => ?_,
      fun p hp hf ⟨e, hrej⟩ hn => ?_⟩
    · obtain ⟨x, p, k, hk, hno⟩ := (hc.pending hn).1.2 hne
      have hx := hc.only hk
      obtain ⟨k', hk', hpass⟩ := hc.passed hx (hall p (List.mem_of_getElem? hx))
      exact hno (hc.unique hk' hk ▸ hpass)
    · obtain ⟨x, hx⟩ := List.mem_iff_getElem?.mp hp
      obtain ⟨k, hk, hpass⟩ := hc.passed hx hf
      obtain ⟨v, hv⟩ := (hc.pending hn).1.1 x p k hk hpass
      cases hrej.symm.trans hv
  · refine ⟨fun r hr => hc.done hr, fun p hp hf hn => ?_⟩
    obtain ⟨x, hx⟩ := List.mem_iff_getElem?.mp hp
    obtain ⟨k, hk, hpass⟩ := hc.passed hx hf
    exact (hc.pending hn).1 x p k hk hpass

theorem combinators_settle_raced :
    CombineSpec [0, 1, 2] (afterAll ((Action.combine .race [0]).exec
      (afterAll (.init : State ℕ Unit) [.new])) raced) 1 [0] .race := by
  have hidle : ∀ s : State ℕ Unit, s.running = none → Action.UserTurn s := by
    intro s hs j hj
    cases hs.symm.trans hj
  have h₀ : Run InOrder (.init : State ℕ Unit) [] (afterAll .init [.new]) :=
    Run.of_allowed [.new] ⟨hidle _ rfl, trivial, trivial⟩
  have he : (Action.combine .race [0]).Enabled (afterAll (.init : State ℕ Unit) [.new]) :=
    ⟨hidle _ rfl, fun p hp => by rw [List.mem_singleton.mp hp]; exact Nat.zero_lt_one⟩
  refine combinators_settle h₀ .race [0] (.inr rfl) he (fun p hp hs => ?_)
    (Run.of_allowed raced ?_)
  · rw [List.mem_singleton.mp hp] at hs
    exact hs.1 rfl
  · have hknown : ∀ s : State ℕ Unit, Action.Known s (.ok (.plain 5)) := by
      rintro s q (hq | hq) <;> cases hq
    simp only [raced, Allowed]
    exact ⟨⟨hidle _ rfl, Nat.zero_lt_succ 2, hknown _⟩, fun h => absurd h Nat.zero_ne_one, ⟨rfl, List.mem_singleton_self 0⟩, rfl,
      ⟨_, rfl, rfl⟩, trivial, ⟨_, rfl, rfl⟩, trivial, ⟨_, rfl, rfl⟩, trivial, trivial⟩

/-- `Promise.all` of an empty array stays pending. -/
theorem not_combinators_settle :
    ¬ ∀ (s₀ s : State ℕ Unit) es₀ es mode ps, Run InOrder .init es₀ s₀ →
      (Action.combine mode ps).Enabled s₀ →
      Run (LeavesAlone s₀.next) ((Action.combine mode ps).exec s₀) es s →
      CombineSpec (settledLog (es₀ ++ es)) s s₀.next ps mode := by
  intro h
  have he : (Action.combine .all []).Enabled (.init : State ℕ Unit) := ⟨fun _ hj => (nomatch hj), nofun⟩
  obtain ⟨-, -, hall, -⟩ := h .init _ [] [] .all [] .refl he .refl
  exact hall nofun rfl

end Starlight.Promise
