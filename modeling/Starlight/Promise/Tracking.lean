import Starlight.Promise.JobQueue

/-!
# Combined promises in any order

A combinator subscribes to every promise of the array with a `finally` handler that reports the outcome
under its index. Whatever the order in which the jobs start, and whatever happened to the promises of the
array before, a combined promise that the program leaves alone is settled only with what they are settled
with. `Promise.allSettled` and `Promise.any` never settle.
-/

namespace Starlight.Promise

variable {V F : Type} {s s' s'' : State V F} {o p q k x : ℕ} {mode : TrackingMode} {ps : List ℕ}
  {es : List (Event V F)} {r : Resolution V}

/-! ### The subscriptions of a combinator -/

def IsEntry (s : State V F) (o x p k : ℕ) : Prop :=
  ∃ sub, (s.promises p).subs[k]? = some sub ∧ sub.onFinally = some (.track o x p)

/-! ### Steps that leave the combined promise alone -/

/-- The program leaves the settlement of `o` to the combinator. The jobs may start in any order. -/
def Spares (o : ℕ) (_ : State V F) : Action V F → Prop
  | .resolve p _ => p ≠ o
  | .reject p _ => p ≠ o
  | _ => True

/-- Steps beside the running job that neither settle the combined promise `o` nor subscribe in its
name. -/
structure Aside (o : ℕ) (s s' : State V F) : Prop where
  later : Later s s'
  queues : Queues s s'
  running : s'.running = s.running
  mode : (s'.promises o).trackingMode = (s.promises o).trackingMode
  results : (s'.promises o).trackingResults = (s.promises o).trackingResults
  resolution : (s'.promises o).resolution = (s.promises o).resolution
  subs : ∀ q, ∃ new, (s'.promises q).subs = (s.promises q).subs ++ new ∧
    ∀ sub ∈ new, sub.promise ≠ o ∧ ∀ x p, sub.onFinally ≠ some (.track o x p)

theorem Aside.refl (o : ℕ) (s : State V F) : Aside o s s :=
  ⟨Later.refl s, Queues.of_same rfl rfl fun _ => rfl, rfl, rfl, rfl, rfl,
    fun _ => ⟨[], (List.append_nil _).symm, nofun⟩⟩

theorem Aside.trans (h : Aside o s s') (h' : Aside o s' s'') : Aside o s s'' := by
  refine ⟨h.later.trans h'.later, h.queues.trans h'.queues, h'.running.trans h.running,
    h'.mode.trans h.mode, h'.results.trans h.results, h'.resolution.trans h.resolution, fun q => ?_⟩
  obtain ⟨new, hnew, hs⟩ := h.subs q
  obtain ⟨new', hnew', hs'⟩ := h'.subs q
  refine ⟨new ++ new', by rw [hnew', hnew, List.append_assoc], fun sub hsub => ?_⟩
  rcases List.mem_append.mp hsub with hsub | hsub
  · exact hs sub hsub
  · exact hs' sub hsub

theorem aside_push (q : ℕ) {sub : Sub F} (hs : sub.promise ≠ o)
    (ht : ∀ x p, sub.onFinally ≠ some (.track o x p)) : Aside o s (s.push q sub) := by
  have hkeep : ∀ {α : Type} (f : JsPromise V F → α), (∀ promise subs, f { promise with subs := subs } =
      f promise) → f ((s.push q sub).promises o) = f (s.promises o) := by
    intro α f hf
    unfold State.push
    rw [State.promises_modify]
    split
    · next hq => rw [hf, hq]
    · rfl
  refine ⟨later_push s q sub, queues_push s q sub, rfl, hkeep JsPromise.trackingMode fun _ _ => rfl,
    hkeep JsPromise.trackingResults fun _ _ => rfl, hkeep JsPromise.resolution fun _ _ => rfl,
    fun q' => ?_⟩
  by_cases hq : q' = q
  · refine ⟨[sub], by rw [State.subs_push, if_pos hq, hq], fun sub' hsub => ?_⟩
    rw [List.mem_singleton.mp hsub]
    exact ⟨hs, ht⟩
  · exact ⟨[], by rw [State.subs_push, if_neg hq, List.append_nil], nofun⟩

theorem aside_alloc (hi : Inv s) (ho : o < s.next) {promise : JsPromise V F}
    (hs : promise.subs = []) (hr : promise.resolution = none) : Aside o s (s.alloc promise) := by
  have hsame : (s.alloc promise).promises o = s.promises o := by
    rw [State.promises_alloc, if_neg ho.ne]
  exact ⟨later_alloc (hi.fresh s.next le_rfl) promise, queues_alloc hi hr, rfl, by rw [hsame],
    by rw [hsame], by rw [hsame], fun q => ⟨[], by rw [hi.subs_alloc hs, List.append_nil], nofun⟩⟩

theorem aside_store (hp : p ≠ o) (hn : (s.promises p).resolution = none) (r : Resolution V) :
    Aside o s (s.store p r) := by
  have hsame : (s.store p r).promises o = s.promises o := by
    unfold State.store
    dsimp only
    rw [State.promises_modify, if_neg (Ne.symm hp)]
  exact ⟨later_store hn r, queues_store hn r, rfl, by rw [hsame], by rw [hsame], by rw [hsame],
    fun q => ⟨[], by rw [State.subs_store, List.append_nil], nofun⟩⟩

theorem aside_resolved (hp : p ≠ o) (r : Resolution V) : Aside o s (s.resolved p r) := by
  rcases s.resolved_cases p r with ⟨-, heq⟩ | ⟨hn, ⟨q, -, heq⟩ | ⟨-, heq⟩⟩ <;> rw [heq]
  · exact Aside.refl o s
  · exact aside_push q hp nofun
  · exact aside_store hp hn r

theorem aside_track {outer : ℕ} (ho : outer ≠ o) (index : ℕ) (r : Resolution V) :
    Aside o s (s.resolveSingleTrackedResolution outer index r) := by
  have hresults : ∀ results, Aside o s (s.modify outer fun promise =>
      { promise with trackingResults := results }) := by
    intro results
    have hsame : (s.modify outer fun promise =>
        { promise with trackingResults := results }).promises o = s.promises o := by
      rw [State.promises_modify, if_neg (Ne.symm ho)]
    refine ⟨later_results s outer results, Queues.of_same rfl rfl resolution_results, rfl,
      by rw [hsame], by rw [hsame], by rw [hsame], fun q => ⟨[], ?_, nofun⟩⟩
    rw [State.promises_modify, List.append_nil]
    split
    · next hq => rw [hq]
    · rfl
  rcases s.track_cases outer index r with heq | ⟨-, results, heq | ⟨r', -, heq⟩⟩ <;> rw [heq]
  · exact Aside.refl o s
  · exact hresults results
  · exact (hresults results).trans (aside_resolved ho r')

theorem aside_then (hi : Inv s) (ho : o < s.next) (q : ℕ) {f g l : Option (Handler F)}
    (hl : ∀ x p, l ≠ some (.track o x p)) : Aside o s (s.then_ q f g l) :=
  (aside_alloc hi ho rfl rfl).trans (aside_push q ho.ne' hl)

theorem aside_trackAll (hi : Inv s) {outer x : ℕ} {ps : List ℕ} (ho : o < s.next)
    (hne : outer ≠ o) (hlt : outer < s.next) (hps : ∀ q ∈ ps, q < s.next) :
    Aside o s (State.trackAll outer x ps s) := by
  refine (hi.trackAll_rec (P := fun s' => Aside o s s' ∧ o < s'.next) hlt hps ⟨Aside.refl o s, ho⟩
    fun {s' q x} hi _ ⟨ha, ho⟩ => ⟨ha.trans (aside_then hi ho q fun x p hc => ?_), ?_⟩).2.1
  · cases hc
    exact hne rfl
  · exact lt_of_lt_of_le ho (later_then hi q _ _ _).next_le

theorem Aside.isEntry_iff (h : Aside o s s') : IsEntry s' o x p k ↔ IsEntry s o x p k := by
  obtain ⟨new, hnew, hs⟩ := h.subs p
  unfold IsEntry
  rw [hnew]
  constructor
  · rintro ⟨sub, hk, ht⟩
    rcases Nat.lt_or_ge k (s.promises p).subs.length with hlt | hge
    · rw [List.getElem?_append_left hlt] at hk
      exact ⟨sub, hk, ht⟩
    · rw [List.getElem?_append_right hge] at hk
      exact absurd ht ((hs sub (List.mem_of_getElem? hk)).2 x p)
  · rintro ⟨sub, hk, ht⟩
    exact ⟨sub, by rw [List.getElem?_append_left (List.getElem?_eq_some_iff.mp hk).1, hk], ht⟩

theorem Aside.alien (h : Aside o s s') (ha : ∀ q sub, sub ∈ (s.promises q).subs → sub.promise ≠ o)
    (q : ℕ) (sub : Sub F) (hsub : sub ∈ (s'.promises q).subs) : sub.promise ≠ o := by
  obtain ⟨new, hnew, hs⟩ := h.subs q
  rw [hnew] at hsub
  rcases List.mem_append.mp hsub with hsub | hsub
  · exact ha q sub hsub
  · exact (hs sub hsub).1

/-- An action of the program that spares `o` happens beside it. -/
theorem aside_exec (hi : Inv s) (hlt : o < s.next) {a : Action V F} (he : a.Enabled s)
    (ho : Spares o s a) :
    Aside o s (a.exec s) ∨ (∃ p, a = .start p) ∨ a = .advance ∨ ∃ r, a = .return_ r := by
  cases a with
  | start p => exact .inr (.inl ⟨p, rfl⟩)
  | advance => exact .inr (.inr (.inl rfl))
  | return_ r => exact .inr (.inr (.inr ⟨r, rfl⟩))
  | new => exact .inl (aside_alloc hi hlt rfl rfl)
  | resolve p v | reject p v => exact .inl (aside_resolved ho _)
  | then_ p args | catch_ p f | finally_ p f => exact .inl (aside_then hi hlt p nofun)
  | combine mode ps =>
    have hi₀ : Inv (s.alloc (.tracking mode ps.length)) := hi.alloc rfl rfl
    exact .inl ((aside_alloc hi hlt rfl rfl).trans (aside_trackAll hi₀ (Nat.lt_succ_of_lt hlt)
      hlt.ne' (Nat.lt_succ_self _) fun q hq => Nat.lt_succ_of_lt (he.2 q hq)))

/-! ### The report of a promise -/

/-- What the combined promise is settled with when the results are noted and the last report is `r`. -/
def settledBy (results : List (Option (Resolution V))) (r : Resolution V) :
    TrackingMode → Option (Resolution V)
  | .all => match r with
    | .ok _ =>
      if results.all Option.isSome then some (.ok (.array (results.map okValue))) else none
    | .error e => some (.error e)
  | .race => some r
  | _ => none

theorem State.resolved_of_plain (hn : (s.promises p).resolution = none)
    (hr : ∀ q, r ≠ .ok (.promise q)) : s.resolved p r = s.store p r := by
  rcases s.resolved_cases p r with ⟨hs, -⟩ | ⟨-, ⟨q, hq, -⟩ | ⟨-, heq⟩⟩
  · exact absurd hn hs
  · exact absurd hq (hr q)
  · exact heq

theorem track_eq {results : List (Option (Resolution V))} (hn : (s.promises o).resolution = none)
    (hm : (s.promises o).trackingMode = some mode)
    (hres : (s.promises o).trackingResults = some results) (hr : ∀ q, r ≠ .ok (.promise q)) (x : ℕ) :
    s.resolveSingleTrackedResolution o x r =
      let s₁ := s.modify o fun promise =>
        { promise with trackingResults := some (results.set x (some r)) }
      match settledBy (results.set x (some r)) r mode with
      | some r' => s₁.store o r'
      | none => s₁ := by
  have hn₁ : ((s.modify o fun promise =>
      { promise with trackingResults := some (results.set x (some r)) }).promises o).resolution =
        none := by
    rw [resolution_results, hn]
  have hm₁ : ((s.modify o fun promise =>
      { promise with trackingResults := some (results.set x (some r)) }).promises o).trackingMode =
        some mode := by
    rw [State.promises_modify, if_pos rfl, hm]
  unfold State.resolveSingleTrackedResolution settledBy
  rw [hn, hres, Option.isSome_none, if_neg Bool.false_ne_true]
  dsimp only
  rw [hm₁]
  cases mode with
  | all =>
    cases r with
    | ok v =>
      dsimp only
      split
      · exact State.resolved_of_plain hn₁ nofun
      · rfl
    | error e => exact State.resolved_of_plain hn₁ nofun
  | race => exact State.resolved_of_plain hn₁ hr
  | allSettled => rfl
  | any => rfl

theorem track_eq_self (hn : (s.promises o).resolution ≠ none) (x : ℕ) (r : Resolution V) :
    s.resolveSingleTrackedResolution o x r = s := by
  unfold State.resolveSingleTrackedResolution
  rw [if_pos (Option.isSome_iff_ne_none.mpr hn)]

theorem subs_track (hr : ∀ q, r ≠ .ok (.promise q)) (x q : ℕ) :
    ((s.resolveSingleTrackedResolution o x r).promises q).subs = (s.promises q).subs := by
  have hresults : ∀ results, ((s.modify o fun promise =>
      { promise with trackingResults := results }).promises q).subs = (s.promises q).subs := by
    intro results
    rw [State.promises_modify]
    split
    · next hq => rw [hq]
    · rfl
  rcases s.track_cases o x r with heq | ⟨hn, results, heq | ⟨r', hr', heq⟩⟩ <;> rw [heq]
  · exact hresults results
  · rw [State.resolved_of_plain ((resolution_results o).trans hn), State.subs_store, hresults]
    rcases hr' with rfl | ⟨vs, rfl⟩
    · exact hr
    · exact nofun

theorem track_outer {results : List (Option (Resolution V))} (hn : (s.promises o).resolution = none)
    (hm : (s.promises o).trackingMode = some mode)
    (hres : (s.promises o).trackingResults = some results) (hr : ∀ q, r ≠ .ok (.promise q)) (x : ℕ) :
    ((s.resolveSingleTrackedResolution o x r).promises o).trackingMode = some mode ∧
      ((s.resolveSingleTrackedResolution o x r).promises o).trackingResults =
        some (results.set x (some r)) ∧
      ((s.resolveSingleTrackedResolution o x r).promises o).resolution =
        settledBy (results.set x (some r)) r mode := by
  rw [track_eq hn hm hres hr]
  dsimp only
  cases settledBy (results.set x (some r)) r mode with
  | none =>
    dsimp only
    rw [State.promises_modify, if_pos rfl]
    exact ⟨hm, rfl, hn⟩
  | some r' =>
    dsimp only [State.store]
    rw [State.promises_modify, if_pos rfl, State.promises_modify, if_pos rfl]
    exact ⟨hm, rfl, rfl⟩

/-! ### The subscription -/

theorem IsEntry.later (h : IsEntry s o x p k) (hl : Later s s') : IsEntry s' o x p k := by
  obtain ⟨sub, hk, hf⟩ := h
  exact ⟨sub, hl.getElem? hk, hf⟩

theorem isEntry_then (hi : Inv s) {y : ℕ} :
    IsEntry (s.then_ p none none (some (.track o x p))) o y q k ↔
      IsEntry s o y q k ∨ (y = x ∧ q = p ∧ k = (s.promises p).subs.length) := by
  have halloc : ∀ q, ((s.alloc .unresolving).promises q).subs = (s.promises q).subs :=
    hi.subs_alloc rfl
  unfold IsEntry State.then_
  rw [State.subs_push, halloc, halloc]
  split
  · next hq =>
    subst hq
    constructor
    · rintro ⟨sub, hk, hf⟩
      rcases State.getElem?_concat_eq_some.mp hk with hk | ⟨rfl, rfl⟩
      · exact .inl ⟨sub, hk, hf⟩
      · cases hf
        exact .inr ⟨rfl, rfl, rfl⟩
    · rintro (⟨sub, hk, hf⟩ | ⟨rfl, -, rfl⟩)
      · exact ⟨sub, State.getElem?_concat_eq_some.mpr (.inl hk), hf⟩
      · exact ⟨_, State.getElem?_concat_eq_some.mpr (.inr ⟨rfl, rfl⟩), rfl⟩
  · next hq => exact ⟨.inl, fun h => h.resolve_right fun hc => hq hc.2.1⟩

theorem isEntry_trackAll (hi : Inv s) (ho : o < s.next) (hps : ∀ p ∈ ps, p < s.next)
    (hlow : ∀ y q k, IsEntry s o y q k → y < x)
    (huniq : ∀ y q k k', IsEntry s o y q k → IsEntry s o y q k' → k = k') :
    (∀ i p, ps[i]? = some p → ∃ k, IsEntry (State.trackAll o x ps s) o (x + i) p k) ∧
    (∀ y p k, IsEntry (State.trackAll o x ps s) o y p k →
      IsEntry s o y p k ∨ ∃ i, y = x + i ∧ ps[i]? = some p) ∧
    ∀ y p k k', IsEntry (State.trackAll o x ps s) o y p k →
      IsEntry (State.trackAll o x ps s) o y p k' → k = k' := by
  induction ps generalizing s x with
  | nil => exact ⟨nofun, fun y p k he => .inl he, huniq⟩
  | cons p ps ih =>
    have hi' := hi.then_ (hps p (List.mem_cons_self ..)) (.track o x ho rfl rfl rfl :
      Sub.Ok s.next p ⟨none, none, some (.track o x p), s.next⟩)
    have hl := later_then hi p none none (some (.track o x p))
    have hps' : ∀ q ∈ ps, q < (s.then_ p none none (some (.track o x p))).next :=
      fun q hq => lt_of_lt_of_le (hps q (List.mem_cons_of_mem _ hq)) hl.next_le
    have ho' := lt_of_lt_of_le ho hl.next_le
    obtain ⟨hall, honly, huniq'⟩ := @ih _ (x + 1) hi' ho' hps'
      (fun y q k he => by
        rcases (isEntry_then hi).mp he with he | ⟨rfl, -, -⟩
        · exact Nat.lt_succ_of_lt (hlow y q k he)
        · exact Nat.lt_succ_self y)
      (fun y q k k' he he' => by
        rcases (isEntry_then hi).mp he with he | ⟨rfl, rfl, rfl⟩ <;>
          rcases (isEntry_then hi).mp he' with he' | ⟨hy, hq, hk⟩
        · exact huniq y q k k' he he'
        · exact absurd hy (hlow y q k he).ne
        · exact absurd (hlow _ _ _ he') (Nat.lt_irrefl _)
        · exact hk.symm)
    have hrest := (hi'.trackAll (x := x + 1) ho' hps').2
    refine ⟨fun i q hq => ?_, fun y q k he => ?_, huniq'⟩
    · cases i with
      | zero =>
        cases hq
        exact ⟨_, ((isEntry_then hi).mpr (.inr ⟨rfl, rfl, rfl⟩)).later hrest⟩
      | succ i =>
        obtain ⟨k, hk⟩ := hall i q hq
        exact ⟨k, by rwa [← Nat.add_assoc, Nat.add_right_comm]⟩
    · rcases honly y q k he with he | ⟨i, rfl, hq⟩
      · rcases (isEntry_then hi).mp he with he | ⟨rfl, rfl, -⟩
        · exact .inl he
        · exact .inr ⟨0, rfl, rfl⟩
      · exact .inr ⟨i + 1, by omega, hq⟩

theorem then_outer (ho : o < s.next) (p : ℕ) (f g l : Option (Handler F)) :
    ∃ subs, (s.then_ p f g l).promises o = { s.promises o with subs := subs } := by
  have halloc : (s.alloc .unresolving).promises o = s.promises o := by
    rw [State.promises_alloc, if_neg ho.ne]
  unfold State.then_ State.push
  rw [State.promises_modify]
  split
  · next hp =>
    subst hp
    rw [halloc]
    exact ⟨_, rfl⟩
  · rw [halloc]
    exact ⟨_, rfl⟩

theorem trackAll_outer (ho : o < s.next) (ps : List ℕ) (x : ℕ) :
    (∃ subs, (State.trackAll o x ps s).promises o = { s.promises o with subs := subs }) ∧
      (State.trackAll o x ps s).running = s.running ∧ (State.trackAll o x ps s).jobs = s.jobs := by
  induction ps generalizing s x with
  | nil => exact ⟨⟨_, rfl⟩, rfl, rfl⟩
  | cons p ps ih =>
    obtain ⟨subs, hsubs⟩ := then_outer ho p none none (some (.track o x p))
    obtain ⟨⟨subs', hsubs'⟩, hrun⟩ := @ih (s.then_ p none none (some (.track o x p)))
      (Nat.lt_succ_of_lt ho) (x + 1)
    exact ⟨⟨subs', by rw [State.trackAll, hsubs', hsubs]⟩, hrun⟩

theorem alien_trackAll (hi : Inv s) (ho : o < s.next) (hps : ∀ p ∈ ps, p < s.next)
    (ha : ∀ q sub, sub ∈ (s.promises q).subs → sub.promise ≠ o) :
    ∀ q sub, sub ∈ ((State.trackAll o x ps s).promises q).subs → sub.promise ≠ o := by
  refine (hi.trackAll_rec (P := fun s => ∀ q sub, sub ∈ (s.promises q).subs → sub.promise ≠ o) ho hps ha
    fun {s p x} hi ho ha q' sub' hsub' => ?_).2
  unfold State.then_ at hsub'
  have hsame : ∀ q, ((s.alloc .unresolving).promises q).subs = (s.promises q).subs :=
    hi.subs_alloc rfl
  rw [State.subs_push, hsame, hsame] at hsub'
  split at hsub'
  · rcases List.mem_append.mp hsub' with hsub' | hsub'
    · exact ha p sub' hsub'
    · rw [List.mem_singleton.mp hsub']
      exact ho.ne'
  · exact ha q' sub' hsub'

/-- What the call of a combinator sets up. -/
structure Subscribed (o : ℕ) (mode : TrackingMode) (ps : List ℕ) (s : State V F) : Prop where
  lt : o < s.next
  entry : ∀ {y p}, ps[y]? = some p → ∃ k, IsEntry s o y p k
  only : ∀ {y p k}, IsEntry s o y p k → ps[y]? = some p
  unique : ∀ {y p k k'}, IsEntry s o y p k → IsEntry s o y p k' → k = k'
  alien : ∀ q sub, sub ∈ (s.promises q).subs → sub.promise ≠ o
  fresh : ∃ subs, s.promises o = { (.tracking mode ps.length : JsPromise V F) with subs := subs }

theorem subscribed_newTracking (hi : Inv s) (mode : TrackingMode) (hps : ∀ p ∈ ps, p < s.next) :
    Subscribed s.next mode ps (s.newTracking mode ps) ∧ (s.newTracking mode ps).running = s.running ∧
      Queues s (s.newTracking mode ps) := by
  have hi₀ : Inv (s.alloc (.tracking mode ps.length)) := hi.alloc rfl rfl
  have ho : s.next < (s.alloc (.tracking mode ps.length)).next := Nat.lt_succ_self _
  have hps₀ : ∀ p ∈ ps, p < (s.alloc (.tracking mode ps.length)).next :=
    fun p hp => Nat.lt_succ_of_lt (hps p hp)
  have hsub : ∀ q, ((s.alloc (.tracking mode ps.length)).promises q).subs = (s.promises q).subs :=
    hi.subs_alloc rfl
  -- nothing has subscribed in the name of the new promise yet
  have hnone : ∀ y q k, ¬ IsEntry (s.alloc (.tracking mode ps.length)) s.next y q k := by
    rintro y q k ⟨sub, hk, hf⟩
    rw [hsub] at hk
    cases hi.sub_ok q sub (List.mem_of_getElem? hk) with
    | adoption h | then_ f g _ _ h | finally_ f _ _ h => rw [h] at hf; cases hf
    | track outer index hlt _ _ h =>
      rw [h] at hf
      cases hf
      exact Nat.lt_irrefl _ hlt
  obtain ⟨hall, honly, huniq⟩ := isEntry_trackAll (x := 0) hi₀ ho hps₀
    (fun y q k he => absurd he (hnone y q k)) fun y q k _ he => absurd he (hnone y q k)
  obtain ⟨⟨subs, houter⟩, hrun, -⟩ := trackAll_outer ho ps 0
  refine ⟨?_, hrun, (queues_alloc hi rfl).trans (queues_trackAll hi₀ ho hps₀)⟩
  constructor
  case lt => exact lt_of_lt_of_le ho (hi₀.trackAll (x := 0) ho hps₀).2.next_le
  case entry =>
    intro y p hy
    obtain ⟨k, hk⟩ := hall y p hy
    exact ⟨k, by rwa [Nat.zero_add] at hk⟩
  case only =>
    intro y p k he
    rcases honly y p k he with he | ⟨i, rfl, hp⟩
    · exact absurd he (hnone y p k)
    · rwa [Nat.zero_add]
  case unique => exact fun he he' => huniq _ _ _ _ he he'
  case alien =>
    refine alien_trackAll hi₀ ho hps₀ fun q sub hs => ?_
    rw [hsub] at hs
    exact (hi.sub_lt q sub hs).ne
  case fresh =>
    refine ⟨subs, ?_⟩
    unfold State.newTracking
    rw [houter, State.promises_alloc, if_pos rfl]

/-! ### What it is settled with -/

/-- What the combined promise may be settled with in whatever order the jobs run. -/
def Sound (s : State V F) (ps : List ℕ) : TrackingMode → Resolution V → Prop
  | .all, .ok v => ∃ vs, v = .array vs ∧
      List.Forall₂ (fun p v => (s.promises p).resolution = some (.ok v)) ps vs
  | .all, r | .race, r => ∃ p ∈ ps, (s.promises p).resolution = some r
  | _, _ => False

theorem Sound.later (h : Sound s ps mode r) (hl : Later s s') : Sound s' ps mode r := by
  have hmem : (∃ p ∈ ps, (s.promises p).resolution = some r) →
      ∃ p ∈ ps, (s'.promises p).resolution = some r :=
    Exists.imp fun p hp => ⟨hp.1, hl.resolution p r hp.2⟩
  cases mode with
  | all =>
    cases r with
    | ok v => exact h.imp fun vs hvs => ⟨hvs.1, hvs.2.imp fun p v => hl.resolution p _⟩
    | error e => exact hmem h
  | race => exact hmem h
  | allSettled => exact h
  | any => exact h

/-- What the combined promise has noted, and what settled it, is what promises of the array are settled
with. -/
structure Reporting (o : ℕ) (mode : TrackingMode) (ps : List ℕ) (s : State V F) : Prop where
  lt : o < s.next
  only : ∀ {x p k}, IsEntry s o x p k → ps[x]? = some p
  alien : ∀ q sub, sub ∈ (s.promises q).subs → sub.promise ≠ o
  mode_eq : (s.promises o).trackingMode = some mode
  noted : (s.promises o).resolution = none → ∃ results, (s.promises o).trackingResults = some results ∧
    results.length = ps.length ∧ ∀ (x : ℕ) r, results[x]? = some (some r) →
      ∃ p, ps[x]? = some p ∧ (s.promises p).resolution = some r ∧ (mode = .all → ∃ v, r = .ok v)
  sound : ∀ {r}, (s.promises o).resolution = some r → Sound s ps mode r

theorem Reporting.aside (h : Reporting o mode ps s) (ha : Aside o s s') : Reporting o mode ps s' where
  lt := lt_of_lt_of_le h.lt ha.later.next_le
  only he := h.only (ha.isEntry_iff.mp he)
  alien := ha.alien h.alien
  mode_eq := ha.mode.trans h.mode_eq
  noted hn := by
    obtain ⟨results, hres, hlen, hnote⟩ := h.noted (ha.resolution ▸ hn)
    refine ⟨results, ha.results.trans hres, hlen, fun x r hx => ?_⟩
    obtain ⟨p, hp, hr, hall⟩ := hnote x r hx
    exact ⟨p, hp, ha.later.resolution p r hr, hall⟩
  sound hr := (h.sound (ha.resolution ▸ hr)).later ha.later

theorem Reporting.withRunning (h : Reporting o mode ps s) (jobs : List ℕ) (j : Option Job) :
    Reporting o mode ps { s with jobs := jobs, running := j } :=
  { h with }

/-- A result is the one noted now or an earlier one. -/
theorem Reporting.noted_set (h : Reporting o mode ps s) (hx : ps[x]? = some p)
    (hr : (s.promises p).resolution = some r) (hn : (s.promises o).resolution = none)
    {results : List (Option (Resolution V))} (hres : (s.promises o).trackingResults = some results) :
    results.length = ps.length ∧ ∀ (y : ℕ) r', (results.set x (some r))[y]? = some (some r') →
      ∃ p, ps[y]? = some p ∧ (s.promises p).resolution = some r' ∧
        (mode = .all → (∃ v, r = .ok v) → ∃ v, r' = .ok v) := by
  obtain ⟨_, hres', hlen, hnote⟩ := h.noted hn
  obtain rfl := Option.some_inj.mp (hres'.symm.trans hres)
  refine ⟨hlen, fun y r' hy => ?_⟩
  rw [List.getElem?_set] at hy
  split_ifs at hy with hxy
  · cases hy
    exact ⟨p, hxy ▸ hx, hr, fun _ => id⟩
  · obtain ⟨p', hp', hr', hall⟩ := hnote y r' hy
    exact ⟨p', hp', hr', fun hm _ => hall hm⟩

theorem Reporting.outcome (h : Reporting o mode ps s) (hx : ps[x]? = some p)
    (hr : (s.promises p).resolution = some r) (hn : (s.promises o).resolution = none)
    {results : List (Option (Resolution V))} (hres : (s.promises o).trackingResults = some results)
    {r' : Resolution V} (hset : settledBy (results.set x (some r)) r mode = some r') :
    Sound s ps mode r' := by
  obtain ⟨hlen, hget⟩ := h.noted_set hx hr hn hres
  have hmem := List.mem_of_getElem? hx
  cases mode with
  | all =>
    cases r with
    | ok v =>
      dsimp only [settledBy] at hset
      split_ifs at hset with hall
      cases hset
      refine ⟨_, rfl, List.forall₂_iff_get.mpr ⟨by simp [hlen], fun y hy hy' => ?_⟩⟩
      rw [List.length_map] at hy'
      obtain ⟨r', hr'⟩ :=
        Option.isSome_iff_exists.mp (List.all_eq_true.mp hall _ (List.getElem_mem hy'))
      obtain ⟨p', hp', hres', hok⟩ := hget y r' (List.getElem?_eq_some_iff.mpr ⟨hy', hr'⟩)
      obtain ⟨v', rfl⟩ := hok rfl ⟨v, rfl⟩
      obtain ⟨_, hpy⟩ := List.getElem?_eq_some_iff.mp hp'
      change (s.promises ps[y]).resolution =
        some (.ok ((results.set x (some (Except.ok v))).map okValue)[y])
      rw [List.getElem_map, hr', hpy, hres']
      rfl
    | error e =>
      cases hset
      exact ⟨p, hmem, hr⟩
  | race =>
    cases hset
    exact ⟨p, hmem, hr⟩
  | allSettled => cases hset
  | any => cases hset

theorem Reporting.track (h : Reporting o mode ps s) (hplain : ∀ q, r ≠ .ok (.promise q))
    (hx : ps[x]? = some p) (hr : (s.promises p).resolution = some r) :
    Reporting o mode ps (s.resolveSingleTrackedResolution o x r) := by
  by_cases hn : (s.promises o).resolution = none
  swap
  · rwa [track_eq_self hn]
  obtain ⟨results, hres, -⟩ := h.noted hn
  obtain ⟨hlen, hget⟩ := h.noted_set hx hr hn hres
  obtain ⟨hmode, hresults, hset⟩ := track_outer hn h.mode_eq hres hplain x
  have hl := later_track s o x r
  constructor
  case lt => exact lt_of_lt_of_le h.lt hl.next_le
  case only =>
    rintro y q k ⟨sub, hk, hf⟩
    exact h.only ⟨sub, subs_track hplain x q ▸ hk, hf⟩
  case alien =>
    intro q sub hsub
    exact h.alien q sub (subs_track hplain x q ▸ hsub)
  case mode_eq => exact hmode
  case noted =>
    intro hn'
    refine ⟨_, hresults, by rw [List.length_set, hlen], fun y r' hy => ?_⟩
    obtain ⟨p', hp', hr', hall⟩ := hget y r' hy
    refine ⟨p', hp', hl.resolution p' r' hr', fun hm => hall hm ?_⟩
    subst hm
    cases r with
    | ok v => exact ⟨v, rfl⟩
    | error e => cases hset.symm.trans hn'
  case sound => exact fun hr' => (h.outcome hx hr hn hres (hset.symm.trans hr')).later hl

theorem Reporting.advance (h : Reporting o mode ps s) (hi : Inv s) {j : Job}
    (hr : (s.promises j.promise).resolution = some r) : Reporting o mode ps (s.advance j r) := by
  unfold State.advance
  split
  · split
    · next sub hget =>
      have hmem := List.mem_of_getElem? hget
      split
      · next f hf =>
        rcases (hi.sub_ok _ sub hmem).handler_cases hf with ⟨g, rfl⟩ | ⟨rfl, -⟩ |
          ⟨outer, index, rfl, hp, -⟩
        · exact h.withRunning _ _
        · exact (h.aside (aside_resolved (h.alien _ _ hmem) _)).withRunning _ _
        · have hplain : ∀ q, r ≠ .ok (.promise q) := fun q hc => hi.plain _ q (hc ▸ hr)
          unfold State.callHandler
          dsimp only
          rw [hr]
          refine Reporting.withRunning ?_ _ _
          have ht : Reporting o mode ps (s.resolveSingleTrackedResolution outer index r) := by
            by_cases ho : outer = o
            · subst ho
              refine h.track hplain (h.only ⟨sub, hget, ?_⟩) hr
              rwa [hp] at hf
            · exact h.aside (aside_track ho index r)
          refine ht.aside (aside_resolved ?_ _)
          exact h.alien _ _ hmem
      · exact h.withRunning _ _
    · exact h
  · split
    · exact h.withRunning _ _
    · exact h.withRunning _ _

theorem Reporting.exec (h : Reporting o mode ps s) (hi : Inv s) {a : Action V F} (he : a.Enabled s)
    (ho : Spares o s a) : Reporting o mode ps (a.exec s) := by
  rcases aside_exec hi h.lt he ho with ha | ⟨p, rfl⟩ | rfl | ⟨r, rfl⟩
  · exact h.aside ha
  · exact h.withRunning _ _
  · obtain ⟨j, hj, -⟩ := he
    obtain ⟨r, hr⟩ := (hi.running j hj).settled
    unfold Action.exec
    rw [hj]
    dsimp only
    rw [hr]
    exact h.advance hi hr
  · obtain ⟨⟨j, hj, -⟩, -⟩ := he
    unfold Action.exec
    rw [hj]
    dsimp only
    split
    · next sub hs =>
      exact (h.aside (aside_resolved (h.alien _ _ (List.mem_of_getElem? hs)) r)).withRunning _ _
    · exact h

theorem Reporting.of_newTracking (hi : Inv s) (mode : TrackingMode) (hps : ∀ p ∈ ps, p < s.next) :
    Reporting s.next mode ps (s.newTracking mode ps) := by
  obtain ⟨h, -, -⟩ := subscribed_newTracking hi mode hps
  obtain ⟨subs, hnew⟩ := h.fresh
  refine ⟨h.lt, h.only, h.alien, by rw [hnew]; rfl, fun _ => ?_, fun hr => ?_⟩
  · refine ⟨List.replicate ps.length none, by rw [hnew]; rfl, List.length_replicate, fun x r hx => ?_⟩
    rw [List.getElem?_replicate] at hx
    split_ifs at hx
    cases hx
  · rw [hnew] at hr
    cases hr

theorem Run.reporting {ok : State V F → Action V F → Prop} {s₀ : State V F} {es₀ : List (Event V F)}
    (h₀ : Run ok .init es₀ s₀) (he : (Action.combine mode ps).Enabled s₀)
    (h : Run (Spares s₀.next) ((Action.combine mode ps).exec s₀) es s) :
    Inv s ∧ Reporting s₀.next mode ps s := by
  have hi₀ := (h₀.inv inv_init).1
  induction h with
  | refl => exact ⟨(hi₀.exec he).1, .of_newTracking hi₀ mode he.2⟩
  | step h a he' ho ih =>
    obtain ⟨hi, hc⟩ := ih
    exact ⟨(hi.exec he').1, hc.exec hi he' ho⟩

/-- **The combinators are sound in every order of the jobs**, and whatever had become of the promises of the
array when the combinator was called. -/
theorem sound_of_run {ok : State V F → Action V F → Prop} {s₀ : State V F} {es₀ : List (Event V F)}
    (h₀ : Run ok .init es₀ s₀) (he : (Action.combine mode ps).Enabled s₀)
    (h : Run (Spares s₀.next) ((Action.combine mode ps).exec s₀) es s)
    (hr : (s.promises s₀.next).resolution = some r) : Sound s ps mode r :=
  (h₀.reporting he h).2.sound hr

/-- A promise `0`, then `Promise.race` of it, and its settlement with `5`. -/
def raced : List (Action ℕ Unit) :=
  [.resolve 0 (.plain 5), .start 0, .advance, .advance, .advance]

theorem sound_raced :
    Sound (afterAll ((Action.combine .race [0]).exec (afterAll (.init : State ℕ Unit) [.new])) raced)
      [0] .race (.ok (.plain 5)) := by
  have hidle : ∀ s : State ℕ Unit, s.running = none → Action.UserTurn s := by
    intro s hs j hj
    cases hs.symm.trans hj
  have h₀ : Run (fun _ _ => True) (.init : State ℕ Unit) [] (afterAll .init [.new]) :=
    Run.of_allowed [.new] ⟨hidle _ rfl, trivial, trivial⟩
  refine sound_of_run h₀ ⟨hidle _ rfl, fun p hp => ?_⟩ (Run.of_allowed raced ?_) rfl
  · rw [List.mem_singleton.mp hp]
    exact Nat.zero_lt_one
  · have hknown : ∀ s : State ℕ Unit, Action.Known s (.ok (.plain 5)) := by
      rintro s q (hq | hq) <;> cases hq
    exact ⟨⟨hidle _ rfl, Nat.zero_lt_succ 2, hknown _⟩, Nat.zero_ne_one,
      ⟨rfl, List.mem_singleton_self 0⟩, trivial, ⟨_, rfl, rfl⟩, trivial, ⟨_, rfl, rfl⟩, trivial,
      ⟨_, rfl, rfl⟩, trivial, trivial⟩

theorem combined_stays_pending {ok : State V F → Action V F → Prop} {s₀ : State V F}
    {es₀ : List (Event V F)} (h₀ : Run ok .init es₀ s₀) (hmode : mode = .allSettled ∨ mode = .any)
    (he : (Action.combine mode ps).Enabled s₀)
    (h : Run (Spares s₀.next) ((Action.combine mode ps).exec s₀) es s) :
    (s.promises s₀.next).resolution = none := by
  cases hr : (s.promises s₀.next).resolution with
  | none => rfl
  | some r =>
    have hs := (h₀.reporting he h).2.sound hr
    rcases hmode with rfl | rfl <;> exact hs.elim

end Starlight.Promise
