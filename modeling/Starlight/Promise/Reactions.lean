import Starlight.Promise.Adoption

/-!
# Reactions of a promise

The handlers that were registered on a promise are called by its job, once each, in the order of their
registration, and the derived promises take over the results. This needs that the handlers come before
the job has started, that each registration brings one for the outcome, and that nobody else settles the
derived promises; `ReactsTo` is that condition on the actions of a run.

A handler that comes later is never called. A registration without a handler for the outcome leaves its
derived promise pending, and a `finally` handler is called after all the others and without the value.
-/

namespace Starlight.Promise

variable {V F : Type} {s s' s'' : State V F} {p q : ℕ} {es es' : List (Event V F)}
  {r : Resolution V}

def Sub.reaction (sub : Sub F) (r : Resolution V) : Option (Handler F) :=
  (sub.handler .settle r).or (sub.handler .finally_ r)

/-- The call of the handler of the program that an entry of the subscribers brings about. -/
def Sub.due (p : ℕ) (r : Resolution V) (sub : Sub F) (k : ℕ) : Option (Event V F) :=
  match sub.reaction r with
  | some (.user f) => some (.call p k f (Pass.settle.arg r))
  | _ => none

/-- The calls that the subscribers of a promise settled with `r` wait for, with its value. -/
def due (p : ℕ) (r : Resolution V) (subs : List (Sub F)) : List (Event V F) :=
  subs.zipIdx.filterMap fun x => x.1.due p r x.2

def Event.isCallOf (p : ℕ) : Event V F → Bool
  | .call q _ _ _ => q == p
  | _ => false

/-- The calls of handlers of promise `p` that were observed. -/
def callsOf (p : ℕ) (es : List (Event V F)) : List (Event V F) := es.filter (Event.isCallOf p)

def SettledWith (s : State V F) (d : ℕ) (r : Resolution V) : Prop :=
  match r with
  | .ok (.promise q) => ∃ k, Adopts s q k d
  | r => (s.promises d).resolution = some r

/-- The derived promise of entry `k` has the result of the handler. -/
def Answered (es : List (Event V F)) (s : State V F) (p : ℕ) (r : Resolution V) (k : ℕ) : Prop :=
  ∀ sub f, (s.promises p).subs[k]? = some sub → sub.reaction r = some (.user f) →
    ∃ r', .ret p k r' ∈ es ∧ SettledWith s sub.promise r'

/-- When the job of promise `p` is over, every handler for the outcome was called exactly once, in the
order of registration and with the value of `p`, and every derived promise is settled: with the result
of the handler, or like `p` if there is none. -/
def ReactionsDone (es : List (Event V F)) (s : State V F) (p : ℕ) : Prop :=
  Finished s p → ∀ r, (s.promises p).resolution = some r →
    callsOf p es = due p r (s.promises p).subs ∧
      (∀ k, Answered es s p r k) ∧
      ∀ sub ∈ (s.promises p).subs, sub.reaction r = none → SettledWith s sub.promise r

/-- An entry with a handler for the outcome, or the one of a combinator. -/
def Sub.Covers (p : ℕ) (r : Resolution V) (sub : Sub F) : Prop :=
  sub.handler .settle r = none → ∃ outer index, sub.onFinally = some (.track outer index p)

/-- The actions that let the handlers of promise `p` come before its job, with a handler for the
outcome in each registration, and leave the derived promises to the handlers. -/
def ReactsTo (p : ℕ) (s : State V F) : Action V F → Prop
  | .then_ q _ => q = p → (s.promises p).resolution = none ∨ p ∈ s.jobs
  | .catch_ q _ => q = p → (s.promises p).resolution = none ∨ p ∈ s.jobs
  | .finally_ q _ => q = p → (s.promises p).resolution = none ∨ p ∈ s.jobs
  | .start q => q = p → ∀ r, (s.promises p).resolution = some r →
      ∀ sub ∈ (s.promises p).subs, sub.Covers p r
  | .return_ _ => ∀ j sub, s.running = some j → j.promise = p →
      (s.promises p).subs[j.index]? = some sub → (s.promises sub.promise).resolution = none
  | _ => True

/-! ### Calls that are due -/

theorem due_append_singleton (p : ℕ) (r : Resolution V) (subs : List (Sub F)) (sub : Sub F) :
    due p r (subs ++ [sub]) = due p r subs ++ (sub.due p r subs.length).toList := by
  unfold due
  rw [List.zipIdx_append, List.filterMap_append]
  congr 1
  rw [List.zipIdx_singleton, Nat.zero_add]
  cases h : sub.due p r subs.length with
  | none => exact List.filterMap_cons_none h
  | some e => exact List.filterMap_cons_some h

theorem due_take_succ {subs : List (Sub F)} {k : ℕ} {sub : Sub F} (hk : subs[k]? = some sub) :
    due p r (subs.take (k + 1)) = due p r (subs.take k) ++ (sub.due p r k).toList := by
  have hlen : (subs.take k).length = k :=
    List.length_take_of_le (List.getElem?_eq_some_iff.mp hk).1.le
  rw [List.take_add_one, hk, Option.toList_some, due_append_singleton, hlen]

/-- An entry that calls no handler of the program. -/
def Sub.Quiet (r : Resolution V) (sub : Sub F) : Prop := ∀ f, sub.reaction r ≠ some (.user f)

theorem Sub.Quiet.due {sub : Sub F} (h : sub.Quiet r) (k : ℕ) : sub.due p r k = none := by
  unfold Sub.due
  split
  · next f hf => exact absurd hf (h f)
  · rfl

theorem due_append_quiet (subs : List (Sub F)) {new : List (Sub F)} (h : ∀ sub ∈ new, sub.Quiet r) :
    due p r (subs ++ new) = due p r subs := by
  induction new generalizing subs with
  | nil => rw [List.append_nil]
  | cons sub new ih =>
    have happ : subs ++ sub :: new = (subs ++ [sub]) ++ new := by simp
    rw [happ, ih _ fun sub' hs => h sub' (List.mem_cons_of_mem _ hs), due_append_singleton,
      (h sub (List.mem_cons_self ..)).due, Option.toList_none, List.append_nil]

theorem Sub.quiet_adoption (q : ℕ) : (Sub.adoption q : Sub F).Quiet r := by
  intro f hf
  cases r <;> cases hf

theorem Sub.quiet_track (outer index source q : ℕ) :
    (⟨none, none, some (.track outer index source), q⟩ : Sub F).Quiet r := by
  intro f hf
  cases r <;> cases hf

theorem Sub.covers_adoption (q : ℕ) : (Sub.adoption q : Sub F).Covers p r := by
  intro h
  cases r <;> cases h

theorem Sub.Covers.onFinally {next : ℕ} {sub : Sub F} (h : sub.Covers p r) (hok : sub.Ok next p)
    (f : F) : sub.onFinally ≠ some (.user f) := by
  intro hf
  cases hok with
  | adoption ha => rw [ha] at hf; cases hf
  | then_ g g' h₁ h₂ h₃ | track outer index hlt h₁ h₂ h₃ => rw [h₃] at hf; cases hf
  | finally_ g h₁ h₂ h₃ =>
    have hnone : sub.handler .settle r = none := by cases r <;> assumption
    obtain ⟨outer, index, ht⟩ := h hnone
    rw [ht] at hf
    cases hf

theorem Sub.Covers.handler_of_reaction {sub : Sub F} (h : sub.Covers p r) {f : F}
    (hf : sub.reaction r = some (.user f)) : sub.handler .settle r = some (.user f) := by
  cases hs : sub.handler .settle r with
  | some g =>
    unfold Sub.reaction at hf
    rw [hs] at hf
    exact hf
  | none =>
    obtain ⟨outer, index, ht⟩ := h hs
    unfold Sub.reaction at hf
    rw [hs, Option.none_or] at hf
    cases ht.symm.trans hf

theorem Sub.reaction_of_handler {sub : Sub F} {g : Handler F}
    (hs : sub.handler .settle r = some g) : sub.reaction r = some g := by
  unfold Sub.reaction
  rw [hs]
  rfl

theorem Sub.Covers.reaction_ne_none {sub : Sub F} (h : sub.Covers p r) : sub.reaction r ≠ none := by
  intro hn
  unfold Sub.reaction at hn
  obtain ⟨hs, hfin⟩ := Option.or_eq_none_iff.mp hn
  obtain ⟨outer, index, ht⟩ := h hs
  cases ht.symm.trans hfin

/-! ### Steps beside the job -/

def Started (s : State V F) (p : ℕ) : Prop := (s.promises p).resolution ≠ none ∧ p ∉ s.jobs

/-- Steps that leave the running job alone. Once the job of `p` has started, `p` gets only subscribers
that call no handler. -/
structure Beside (p : ℕ) (s s' : State V F) : Prop where
  later : Later s s'
  running : s'.running = s.running
  started : Started s' p ↔ Started s p
  subs : ∃ new, (s'.promises p).subs = (s.promises p).subs ++ new ∧
    (Started s p → ∀ sub ∈ new, ∀ r : Resolution V, sub.Quiet r ∧ sub.Covers p r)

theorem Beside.refl (p : ℕ) (s : State V F) : Beside p s s :=
  ⟨Later.refl s, rfl, Iff.rfl, [], (List.append_nil _).symm, nofun⟩

theorem Beside.trans (h : Beside p s s') (h' : Beside p s' s'') : Beside p s s'' := by
  obtain ⟨new, hnew, hq⟩ := h.subs
  obtain ⟨new', hnew', hq'⟩ := h'.subs
  refine ⟨h.later.trans h'.later, h'.running.trans h.running, h'.started.trans h.started,
    new ++ new', by rw [hnew', hnew, List.append_assoc], fun hs sub hsub => ?_⟩
  rcases List.mem_append.mp hsub with hsub | hsub
  · exact hq hs sub hsub
  · exact hq' (h.started.mpr hs) sub hsub

theorem beside_alloc (hi : Inv s) {promise : JsPromise V F} (hs : promise.subs = [])
    (hr : promise.resolution = none) (p : ℕ) : Beside p s (s.alloc promise) := by
  refine ⟨later_alloc (hi.fresh s.next le_rfl) promise, rfl, ?_, [], ?_, nofun⟩
  · unfold Started
    rw [hi.resolution_alloc hr]
    rfl
  · rw [hi.subs_alloc hs, List.append_nil]

theorem beside_push (p q : ℕ) {sub : Sub F}
    (h : q = p → Started s p → ∀ r : Resolution V, sub.Quiet r ∧ sub.Covers p r) :
    Beside p s (s.push q sub) := by
  refine ⟨later_push s q sub, rfl, ?_, ?_⟩
  · unfold Started
    rw [State.resolution_push]
    rfl
  · by_cases hq : q = p
    · subst hq
      refine ⟨[sub], by rw [State.subs_push, if_pos rfl], fun hs sub' hsub => ?_⟩
      rw [List.mem_singleton.mp hsub]
      exact h rfl hs
    · exact ⟨[], by rw [State.subs_push, if_neg (Ne.symm hq), List.append_nil], nofun⟩

theorem beside_store (p : ℕ) (hn : (s.promises q).resolution = none) (r : Resolution V) :
    Beside p s (s.store q r) := by
  refine ⟨later_store hn r, rfl, ?_, [], by rw [State.subs_store, List.append_nil], nofun⟩
  unfold Started
  rw [State.resolution_store, State.jobs_store]
  by_cases hq : p = q
  · subst hq
    simp [hn]
  · rw [if_neg hq]
    simp [hq]

theorem beside_resolved (p q : ℕ) (r : Resolution V) : Beside p s (s.resolved q r) := by
  rcases s.resolved_cases q r with ⟨-, heq⟩ | ⟨hn, ⟨q', -, heq⟩ | ⟨-, heq⟩⟩ <;> rw [heq]
  · exact Beside.refl p s
  · exact beside_push p q' fun _ _ r => ⟨Sub.quiet_adoption q, Sub.covers_adoption q⟩
  · exact beside_store p hn r

theorem beside_results (p q : ℕ) (results : Option (List (Option (Resolution V)))) :
    Beside p s (s.modify q fun promise => { promise with trackingResults := results }) := by
  refine ⟨later_results s q results, rfl, ?_, [], ?_, nofun⟩
  · unfold Started
    rw [resolution_results]
    rfl
  · rw [State.promises_modify, List.append_nil]
    split
    · next hq => rw [hq]
    · rfl

theorem beside_track (p outer index : ℕ) (r : Resolution V) :
    Beside p s (s.resolveSingleTrackedResolution outer index r) := by
  rcases s.track_cases outer index r with heq | ⟨-, results, heq | ⟨r', -, heq⟩⟩ <;> rw [heq]
  · exact Beside.refl p s
  · exact beside_results p outer results
  · exact (beside_results p outer results).trans (beside_resolved p outer r')

theorem beside_then (hi : Inv s) (p q : ℕ) {f g k : Option (Handler F)}
    (h : q = p → (s.promises p).resolution = none ∨ p ∈ s.jobs) : Beside p s (s.then_ q f g k) := by
  have ha : Beside p s (s.alloc .unresolving) := beside_alloc hi rfl rfl p
  refine ha.trans (beside_push p q fun hq hs => ?_)
  obtain ⟨hn, hj⟩ := ha.started.mp hs
  exact absurd (h hq) (not_or.mpr ⟨hn, hj⟩)

theorem beside_trackAll (hi : Inv s) (p : ℕ) {outer x : ℕ} {ps : List ℕ} (ho : outer < s.next)
    (hps : ∀ q ∈ ps, q < s.next) : Beside p s (State.trackAll outer x ps s) := by
  refine (hi.trackAll_rec ho hps (Beside.refl p s) fun {s q x} hi _ hb => hb.trans ?_).2
  refine (beside_alloc hi rfl rfl p).trans (beside_push p q fun hq _ r => ?_)
  refine ⟨Sub.quiet_track outer x q s.next, fun _ => ⟨outer, x, ?_⟩⟩
  rw [← hq]

/-! ### The invariant -/

def InSettle (s : State V F) (p : ℕ) (j : Job) : Prop :=
  s.running = some j ∧ j.promise = p ∧ j.pass = .settle

/-- How far the job of promise `p` has come with the handlers, given what was observed. -/
structure Reacting (p : ℕ) (es : List (Event V F)) (s : State V F) : Prop where
  early : ¬ Started s p → callsOf p es = []
  covers : Started s p → ∀ r, (s.promises p).resolution = some r →
    ∀ sub ∈ (s.promises p).subs, sub.Covers p r
  settle : ∀ j, InSettle s p j → ∀ r, (s.promises p).resolution = some r →
    callsOf p es = due p r ((s.promises p).subs.take (j.index + j.awaiting.toNat)) ∧
      (∀ k < j.index, Answered es s p r k) ∧
      ∀ sub ∈ (s.promises p).subs.drop j.bound, sub.Quiet r
  ended : Started s p → (∀ j, ¬ InSettle s p j) → ∀ r, (s.promises p).resolution = some r →
    callsOf p es = due p r (s.promises p).subs ∧ ∀ k, Answered es s p r k

theorem InSettle.started (hi : Inv s) {j : Job} (h : InSettle s p j) : Started s p := by
  obtain ⟨hj, rfl, -⟩ := h
  have hok := hi.running j hj
  obtain ⟨r, hr⟩ := hok.settled
  exact ⟨by rw [hr]; nofun, hok.not_scheduled⟩

theorem InSettle.called_le (hi : Inv s) {j : Job} (h : InSettle s p j) :
    j.index + j.awaiting.toNat ≤ j.bound ∧ j.bound ≤ (s.promises p).subs.length := by
  obtain ⟨hj, rfl, -⟩ := h
  have hok := hi.running j hj
  refine ⟨?_, hok.bound_le⟩
  cases ha : j.awaiting with
  | false => exact hok.index_le
  | true => exact (hok.waits ha).1

theorem SettledWith.later {d : ℕ} (h : SettledWith s d r) (hl : Later s s') : SettledWith s' d r := by
  cases r with
  | error e => exact hl.resolution d _ h
  | ok v =>
    cases v with
    | promise q =>
      obtain ⟨k, hk⟩ := h
      exact ⟨k, hl.getElem? hk⟩
    | undefined | null | plain v | array vs => exact hl.resolution d _ h

theorem Answered.later {k : ℕ} (h : Answered es s p r k) (hl : Later s s')
    (hmem : ∀ e ∈ es, e ∈ es')
    (hnew : ∀ sub, (s'.promises p).subs[k]? = some sub →
      (s.promises p).subs[k]? = some sub ∨ sub.Quiet r) : Answered es' s' p r k := by
  intro sub f hk hf
  rcases hnew sub hk with hk | hq
  · obtain ⟨r', hr', hset⟩ := h sub f hk hf
    exact ⟨r', hmem _ hr', hset.later hl⟩
  · exact absurd hf (hq f)

theorem Reacting.beside (h : Reacting p es s) (hi : Inv s) (hb : Beside p s s')
    (hcalls : callsOf p es' = callsOf p es) (hmem : ∀ e ∈ es, e ∈ es') : Reacting p es' s' := by
  obtain ⟨new, hnew, hquiet⟩ := hb.subs
  have hin : ∀ {j}, InSettle s' p j → InSettle s p j := fun ⟨hj, hp⟩ => ⟨hb.running ▸ hj, hp⟩
  -- the outcome of a promise whose job has started is the old one
  have hres : Started s p → ∀ {r}, (s'.promises p).resolution = some r →
      (s.promises p).resolution = some r := by
    intro hs r hr
    obtain ⟨r', hr'⟩ := Option.ne_none_iff_exists'.mp hs.1
    rw [hr', ← hb.later.resolution p r' hr', hr]
  have hans : Started s p → ∀ {r k}, Answered es s p r k → Answered es' s' p r k := by
    refine fun hs r k ha => ha.later hb.later hmem fun sub hk => ?_
    rw [hnew] at hk
    rcases Nat.lt_or_ge k (s.promises p).subs.length with hlt | hge
    · rw [List.getElem?_append_left hlt] at hk
      exact .inl hk
    · rw [List.getElem?_append_right hge] at hk
      exact .inr (hquiet hs sub (List.mem_of_getElem? hk) r).1
  constructor
  case early => exact fun hs => hcalls.trans (h.early fun hc => hs (hb.started.mpr hc))
  case covers =>
    intro hs r hr sub hsub
    have hs := hb.started.mp hs
    rw [hnew] at hsub
    rcases List.mem_append.mp hsub with hsub | hsub
    · exact h.covers hs r (hres hs hr) sub hsub
    · exact (hquiet hs sub hsub r).2
  case settle =>
    intro j hj r hr
    have hs := (hin hj).started hi
    obtain ⟨hle, hle'⟩ := (hin hj).called_le hi
    obtain ⟨hc, ha, hq⟩ := h.settle j (hin hj) r (hres hs hr)
    refine ⟨?_, fun k hk => hans hs (ha k hk), ?_⟩
    · rw [hcalls, hc, hnew, List.take_append_of_le_length (hle.trans hle')]
    · intro sub hsub
      rw [hnew, List.drop_append_of_le_length hle'] at hsub
      rcases List.mem_append.mp hsub with hsub | hsub
      · exact hq sub hsub
      · exact (hquiet hs sub hsub r).1
  case ended =>
    intro hs hno r hr
    have hs := hb.started.mp hs
    obtain ⟨hc, ha⟩ := h.ended hs (fun j hj => hno j ⟨hb.running.symm ▸ hj.1, hj.2⟩) r (hres hs hr)
    refine ⟨?_, fun k => hans hs (ha k)⟩
    rw [hcalls, hc, hnew, due_append_quiet _ fun sub hsub => (hquiet hs sub hsub r).1]

/-! ### Steps of the job -/

theorem Reacting.withRunning (h : Reacting p es s) {j : Option Job} (hno : ∀ j, ¬ InSettle s p j)
    (hno' : ∀ j', ¬ InSettle { s with running := j } p j') :
    Reacting p es { s with running := j } :=
  ⟨h.early, h.covers, fun j' hj' => absurd hj' (hno' j'), fun hs _ => h.ended hs hno⟩

theorem Reacting.nextSub (h : Reacting p es s) {j : Job} (hj : s.running = some j)
    (hentry : InSettle s p j → ∀ r, (s.promises p).resolution = some r →
      due p r ((s.promises p).subs.take (j.index + 1)) =
          due p r ((s.promises p).subs.take (j.index + j.awaiting.toNat)) ∧
        Answered es s p r j.index) : Reacting p es (s.nextSub j) := by
  by_cases hin : InSettle s p j
  · constructor
    case early => exact h.early
    case covers => exact h.covers
    case settle =>
      intro j' hj' r hr
      obtain rfl := Option.some_inj.mp hj'.1
      obtain ⟨hc, ha, hq⟩ := h.settle j hin r hr
      obtain ⟨hdue, hans⟩ := hentry hin r hr
      refine ⟨hc.trans hdue.symm, fun k hk => ?_, hq⟩
      rcases Nat.lt_succ_iff_lt_or_eq.mp hk with hk | rfl
      · exact ha k hk
      · exact hans
    case ended => exact fun _ hno => absurd ⟨rfl, hin.2⟩ (hno _)
  · refine h.withRunning (fun j' hj' => ?_) fun j' hj' => ?_
    · obtain rfl := Option.some_inj.mp (hj.symm.trans hj'.1)
      exact hin hj'
    · obtain rfl := Option.some_inj.mp hj'.1
      exact hin ⟨hj, hj'.2⟩

theorem Reacting.nextSub_quiet (h : Reacting p es s) {j : Job} (hj : s.running = some j)
    (ha : j.awaiting = false) {sub : Sub F} (hget : (s.promises j.promise).subs[j.index]? = some sub)
    (hq : InSettle s p j → ∀ r, (s.promises p).resolution = some r → sub.Quiet r) :
    Reacting p es (s.nextSub j) := by
  refine h.nextSub hj fun hin r hr => ?_
  have hget : (s.promises p).subs[j.index]? = some sub := hin.2.1 ▸ hget
  have hq := hq hin r hr
  refine ⟨?_, fun sub' f hget' hf => ?_⟩
  · rw [due_take_succ hget, hq.due, ha, Option.toList_none, List.append_nil]
    rfl
  · obtain rfl := Option.some_inj.mp (hget.symm.trans hget')
    exact absurd hf (hq f)

theorem Reacting.call (h : Reacting p es s) (hi : Inv s) {j : Job} (hj : s.running = some j)
    (ha : j.awaiting = false) {sub : Sub F} {f : F} {r : Resolution V}
    (hr : (s.promises j.promise).resolution = some r)
    (hget : (s.promises j.promise).subs[j.index]? = some sub)
    (hf : sub.handler j.pass r = some (.user f)) :
    Reacting p (es ++ [.call j.promise j.index f (j.pass.arg r)])
      { s with running := some { j with awaiting := true } } := by
  have hmem : ∀ e ∈ es, e ∈ es ++ [Event.call j.promise j.index f (j.pass.arg r)] :=
    fun e he => List.mem_append_left _ he
  by_cases hp : j.promise = p
  · cases hpass : j.pass with
    | finally_ =>
      -- the entries of `p` have no such handlers
      exfalso
      rw [hpass] at hf
      have hok := hi.running j hj
      have hsub := List.mem_of_getElem? hget
      have hcov := h.covers ⟨by rw [← hp, hr]; nofun, hp ▸ hok.not_scheduled⟩ r (hp ▸ hr) sub (hp ▸ hsub)
      refine hcov.onFinally (hp ▸ hi.sub_ok _ sub hsub) f ?_
      cases r <;> exact hf
    | settle =>
      have hin : InSettle s p j := ⟨hj, hp, hpass⟩
      rw [hpass] at hf
      subst hp
      obtain ⟨hc, hans, hq⟩ := h.settle j hin r hr
      have hnew : callsOf j.promise (es ++ [.call j.promise j.index f (Pass.settle.arg r)]) =
          due j.promise r ((s.promises j.promise).subs.take (j.index + 1)) := by
        have hdue : sub.due j.promise r j.index =
            some (.call j.promise j.index f (Pass.settle.arg r)) := by
          unfold Sub.due
          rw [Sub.reaction_of_handler hf]
        rw [due_take_succ hget, hdue, Option.toList_some]
        rw [ha] at hc
        unfold callsOf
        rw [List.filter_append]
        refine congrArg₂ (· ++ ·) hc (List.filter_cons_of_pos ?_)
        exact beq_self_eq_true j.promise
      rw [hpass] at hmem
      constructor
      case early => exact fun hs => absurd (hin.started hi) hs
      case covers => exact h.covers
      case settle =>
        intro j' hj' r' hr'
        obtain rfl := Option.some_inj.mp hj'.1
        obtain rfl := Option.some_inj.mp (hr.symm.trans hr')
        exact ⟨hnew, fun k hk => (hans k hk).later ((Later.refl s).congr rfl rfl) hmem fun _ => .inl,
          hq⟩
      case ended => exact fun _ hno => absurd ⟨rfl, hin.2.1, rfl⟩ (hno _)
  · have hcalls : callsOf p (es ++ [.call j.promise j.index f (j.pass.arg r)]) = callsOf p es := by
      unfold callsOf
      rw [List.filter_append, List.filter_cons_of_neg, List.filter_nil, List.append_nil]
      exact fun hc => hp (beq_iff_eq.mp hc)
    refine (h.beside hi (Beside.refl p s) hcalls hmem).withRunning (fun j' hj' => ?_) fun j' hj' => ?_
    · obtain rfl := Option.some_inj.mp (hj.symm.trans hj'.1)
      exact hp hj'.2.1
    · obtain rfl := Option.some_inj.mp hj'.1
      exact hp hj'.2.1

theorem Reacting.endSettle (h : Reacting p es s) (hi : Inv s) {j : Job} (hj : s.running = some j)
    (ha : j.awaiting = false) (hge : ¬ j.index < j.bound) {j' : Option Job}
    (hj' : ∀ j'', j' = some j'' → j''.pass = .finally_) :
    Reacting p es { s with running := j' } := by
  have hno : ∀ j'', ¬ InSettle { s with running := j' } p j'' := by
    intro j'' hin
    cases (hj' j'' hin.1).symm.trans hin.2.2
  by_cases hin : InSettle s p j
  · refine ⟨h.early, h.covers, fun j'' hj'' => absurd hj'' (hno j''), fun _ _ r hr => ?_⟩
    obtain ⟨hc, hans, hq⟩ := h.settle j hin r hr
    have hle := (hi.running j hj).index_le
    have heq : j.index + j.awaiting.toNat = j.bound := by
      rw [ha]
      exact Nat.le_antisymm hle (Nat.le_of_not_lt hge)
    refine ⟨?_, fun k sub f hk hf => ?_⟩
    · rw [hc, heq, ← due_append_quiet _ hq, List.take_append_drop]
    · rcases Nat.lt_or_ge k j.index with hlt | hge'
      · exact hans k hlt sub f hk hf
      · refine absurd hf (hq sub ?_ f)
        refine List.mem_of_getElem? (i := k - j.bound) ?_
        have hsum : j.bound + (k - j.bound) = k := by omega
        rw [List.getElem?_drop, hsum]
        exact hk
  · refine h.withRunning (fun j'' hj'' => ?_) hno
    obtain rfl := Option.some_inj.mp (hj.symm.trans hj''.1)
    exact hin hj''

theorem callsOf_append_of_not {new : List (Event V F)} (h : ∀ e ∈ new, e.isCallOf p = false) :
    callsOf p (es ++ new) = callsOf p es := by
  have hnil : new.filter (Event.isCallOf p) = [] :=
    List.filter_eq_nil_iff.mpr fun e he => by rw [h e he]; nofun
  unfold callsOf
  rw [List.filter_append, hnil, List.append_nil]

theorem Reacting.advance (h : Reacting p es s) (hi : Inv s) {j : Job} (hj : s.running = some j)
    (ha : j.awaiting = false) {r : Resolution V} (hr : (s.promises j.promise).resolution = some r) :
    Reacting p (es ++ Action.advanceEvent s j r) (s.advance j r) := by
  have hok := hi.running j hj
  have hkeep : ∀ {s' : State V F} {new : List (Event V F)}, Beside p s s' →
      (∀ e ∈ new, e.isCallOf p = false) → Reacting p (es ++ new) s' := fun hb hnew =>
    h.beside hi hb (callsOf_append_of_not hnew) fun e he => List.mem_append_left _ he
  unfold State.advance Action.advanceEvent
  split
  · next hlt =>
    obtain ⟨sub, hget⟩ : ∃ sub, (s.promises j.promise).subs[j.index]? = some sub :=
      ⟨_, List.getElem?_eq_getElem (lt_of_lt_of_le hlt hok.bound_le)⟩
    rw [hget]
    dsimp only [Option.bind_some]
    have hmem := List.mem_of_getElem? hget
    cases hf : sub.handler j.pass r with
    | none =>
      rw [List.append_nil]
      refine h.nextSub_quiet hj ha hget fun hin r' hr' f hf' => ?_
      obtain ⟨-, rfl, hp⟩ := hin
      obtain rfl := Option.some_inj.mp (hr.symm.trans hr')
      -- the first loop passes only entries of combinators
      have hcov := h.covers ⟨by rw [hr]; nofun, hok.not_scheduled⟩ r hr sub hmem
      rw [hp, hcov.handler_of_reaction hf'] at hf
      cases hf
    | some f =>
      dsimp only
      rcases (hi.sub_ok _ sub hmem).handler_cases hf with ⟨g, rfl⟩ | ⟨rfl, -, hs⟩ |
        ⟨outer, index, rfl, hp, -⟩
      · exact h.call hi hj ha hr hget hf
      · rw [List.append_nil]
        have hb := beside_resolved (s := s) p sub.promise (.ok (j.pass.arg r))
        refine (h.beside hi hb rfl fun _ => id).nextSub_quiet (hb.running.trans hj) ha
          (hb.later.getElem? hget) fun _ r' _ => ?_
        rw [hs]
        exact Sub.quiet_adoption _
      · unfold State.callHandler
        dsimp only
        rw [hr]
        dsimp only
        have hb := (beside_track (s := s) p outer index r).trans
          (beside_resolved p sub.promise (.ok .null))
        refine (hkeep hb fun e he => ?_).nextSub (hb.running.trans hj) fun hin => ?_
        · cases he
        · cases hp.symm.trans hin.2.2
  · next hge =>
    rw [List.append_nil]
    split
    · refine h.endSettle hi hj ha hge fun j'' hj'' => ?_
      cases hj''
      rfl
    · exact h.endSettle hi hj ha hge nofun

theorem settledWith_resolved {d : ℕ} (hn : (s.promises d).resolution = none) (r : Resolution V) :
    SettledWith (s.resolved d r) d r := by
  rcases s.resolved_cases d r with ⟨hs, -⟩ | ⟨-, ⟨q, rfl, heq⟩ | ⟨hne, heq⟩⟩
  · exact absurd hn hs
  · rw [heq]
    exact ⟨_, adopts_push.mpr (.inr ⟨rfl, rfl, rfl⟩)⟩
  · have hres : ((s.resolved d r).promises d).resolution = some r := by
      rw [heq, State.resolution_store, if_pos rfl]
    unfold SettledWith
    split
    · exact absurd rfl (hne _)
    · exact hres

theorem Reacting.exec_handlers (h : Reacting p es s) (hi : Inv s) {a : Action V F} (he : a.Enabled s)
    (ho : ReactsTo p s a) : Reacting p (es ++ a.handlerEvents s) (a.exec s) := by
  have hkeep : ∀ {s' : State V F}, Beside p s s' → Reacting p (es ++ []) s' := fun hb =>
    h.beside hi hb (by rw [List.append_nil]) fun e he => by rwa [List.append_nil]
  cases a with
  | new => exact hkeep (beside_alloc hi rfl rfl p)
  | resolve q v | reject q v => exact hkeep (beside_resolved p q _)
  | then_ q args | catch_ q f | finally_ q f => exact hkeep (beside_then hi p q ho)
  | combine mode ps =>
    exact hkeep ((beside_alloc hi rfl rfl p).trans (@beside_trackAll _ _ _ (hi.alloc rfl rfl) p
      s.next 0 ps (Nat.lt_succ_self _) fun q hq => lt_of_lt_of_le (he.2 q hq) (Nat.le_succ _)))
  | start q =>
    obtain ⟨hrun, hq⟩ := he
    have hidle : ∀ j, ¬ InSettle s p j := fun j hj => by
      cases hrun.symm.trans hj.1
    have hres := hi.settled q hq
    change Reacting p (es ++ []) (s.start q)
    rw [List.append_nil]
    by_cases hqp : q = p
    · subst hqp
      have hearly := h.early fun hs => hs.2 hq
      have hst : Started (s.start q) q := ⟨hres, hi.nodup.not_mem_erase⟩
      refine ⟨fun hs => absurd hst hs, fun _ => ho rfl, fun j hj r hr => ?_,
        fun _ hno => absurd ⟨rfl, rfl, rfl⟩ (hno _)⟩
      obtain rfl := Option.some_inj.mp hj.1
      refine ⟨hearly, fun k hk => absurd hk (Nat.not_lt_zero k), fun sub hsub => ?_⟩
      have hnil : ((s.start q).promises q).subs.drop (s.promises q).subs.length = [] :=
        List.drop_length
      rw [hnil] at hsub
      cases hsub
    · have hst : Started (s.start q) p ↔ Started s p :=
        and_congr_right' (not_congr (List.mem_erase_of_ne (Ne.symm hqp)))
      refine ⟨fun hs => h.early fun hc => hs (hst.mpr hc), fun hs => h.covers (hst.mp hs),
        fun j hj => ?_, fun hs _ => h.ended (hst.mp hs) hidle⟩
      obtain rfl := Option.some_inj.mp hj.1
      exact absurd hj.2.1 hqp
  | advance =>
    obtain ⟨j, hj, ha⟩ := he
    obtain ⟨r, hr⟩ := (hi.running j hj).settled
    unfold Action.exec Action.handlerEvents
    rw [hj]
    dsimp only
    rw [hr]
    exact h.advance hi hj ha hr
  | return_ r =>
    obtain ⟨⟨j, hj, ha⟩, -⟩ := he
    obtain ⟨hlt, sub, r', f, hs, -, -⟩ := (hi.running j hj).waits ha
    unfold Action.exec Action.handlerEvents
    rw [hj]
    dsimp only
    rw [hs]
    dsimp only
    have hb := beside_resolved (s := s) p sub.promise r
    have hcalls : callsOf p (es ++ [.ret j.promise j.index r]) = callsOf p es :=
      callsOf_append_of_not fun e he => by
        obtain rfl := List.mem_singleton.mp he
        rfl
    have hb' := h.beside hi hb hcalls fun e he => List.mem_append_left _ he
    refine hb'.nextSub (hb.running.trans hj) fun hin r'' hr'' => ⟨by rw [ha]; rfl, ?_⟩
    intro sub' f' hget _
    have hp : j.promise = p := hin.2.1
    have hs' := hb.later.getElem? hs
    rw [hp] at hs'
    obtain rfl := Option.some_inj.mp (hs'.symm.trans hget)
    exact ⟨r, hp ▸ List.mem_append_right _ (List.mem_singleton_self _),
      settledWith_resolved (ho j sub hj hp (hp ▸ hs)) r⟩

theorem callsOf_settlements (a : Action V F) (es' : List (Event V F)) :
    callsOf p (es ++ (a.settlements s ++ es')) = callsOf p (es ++ es') := by
  have hnil : callsOf p (a.settlements s) = [] := by
    refine List.filter_eq_nil_iff.mpr fun e he => ?_
    cases a with
    | start q => cases he
    | _ =>
      obtain ⟨q, -, rfl⟩ := List.mem_map.mp he
      nofun
  unfold callsOf at hnil ⊢
  rw [List.filter_append, List.filter_append, List.filter_append, hnil, List.nil_append]

/-- **The step lemma.** -/
theorem Reacting.exec (h : Reacting p es s) (hi : Inv s) {a : Action V F} (he : a.Enabled s)
    (ho : ReactsTo p s a) : Reacting p (es ++ a.events s) (a.exec s) := by
  refine (h.exec_handlers hi he ho).beside (hi.exec he).1 (Beside.refl p _)
    (callsOf_settlements a _) fun e he => ?_
  rcases List.mem_append.mp he with he | he
  · exact List.mem_append_left _ he
  · exact List.mem_append_right _ (List.mem_append_right _ he)

theorem reacting_init (p : ℕ) : Reacting p [] (State.init : State V F) := by
  have hns : ¬ Started (State.init : State V F) p := fun hs => hs.1 rfl
  exact ⟨fun _ => rfl, fun hs => absurd hs hns, fun j hj => (nomatch hj.1), fun hs => absurd hs hns⟩

theorem Run.reacting (h : Run (ReactsTo p) .init es s) : Reacting p es s := by
  induction h with
  | refl => exact reacting_init p
  | step h a he ho ih => exact ih.exec (h.inv inv_init).1 he ho

/-- **Reactions run exactly once.** In every run whose actions let the handlers of a promise come before
its job, its handlers are called once each, in order and with its value, and the derived promises are
settled with the results. -/
theorem reactions_run_once (p : ℕ) (s : State V F) (es : List (Event V F))
    (h : Run (ReactsTo p) .init es s) : ReactionsDone es s p := by
  intro hfin r hr
  have hre := h.reacting
  have hst : Started s p := ⟨hfin.1, hfin.2.1⟩
  obtain ⟨hc, ha⟩ := hre.ended hst (fun j hj => hfin.2.2 j hj.1 hj.2.1) r hr
  exact ⟨hc, ha, fun sub hsub hn => absurd hn (hre.covers hst r hr sub hsub).reaction_ne_none⟩

/-- A promise with one handler, settled with `5`; the handler returns `7`. -/
def handled : List (Action ℕ Unit) :=
  [.new, .then_ 0 [()], .resolve 0 (.plain 5), .start 0, .advance, .return_ (.ok (.plain 7)), .advance,
    .advance, .advance]

theorem run_handled : Run (ReactsTo 0) .init (observed .init handled) (afterAll .init handled) := by
  have hknown : ∀ (s : State ℕ Unit) n, Action.Known s (.ok (.plain n)) := by
    rintro s n q (hq | hq) <;> cases hq
  have hidle : ∀ s : State ℕ Unit, s.running = none → Action.UserTurn s := by
    intro s hs j hj
    cases hs.symm.trans hj
  refine Run.of_allowed handled ?_
  simp only [handled, Allowed]
  refine ⟨hidle _ rfl, trivial, ⟨hidle _ rfl, Nat.zero_lt_one⟩, fun _ => .inl rfl,
    ⟨hidle _ rfl, Nat.zero_lt_succ 1, hknown _ 5⟩, trivial, ⟨rfl, List.mem_singleton_self 0⟩, ?_,
    ⟨_, rfl, rfl⟩, trivial, ⟨⟨_, rfl, rfl⟩, hknown _ 7⟩, ?_, ⟨_, rfl, rfl⟩, trivial,
    ⟨_, rfl, rfl⟩, trivial, ⟨_, rfl, rfl⟩, trivial, trivial⟩
  · intro _ r hr sub hsub hn
    cases hr
    obtain rfl := List.mem_singleton.mp hsub
    cases hn
  · intro j sub hj _ hs
    cases hj
    cases hs
    rfl

theorem reactions_run_once_handled :
    ReactionsDone [.settled 0, .call 0 0 () (.plain 5), .settled 1, .ret 0 0 (.ok (.plain 7))]
      (afterAll .init handled) 0 :=
  reactions_run_once 0 _ _ run_handled

/-- A handler that is registered after the job has run is never called. -/
theorem not_reactions_run_once :
    ¬ ∀ p (s : State ℕ Unit) es, Run (fun _ _ => True) .init es s → ReactionsDone es s p := by
  intro h
  have hidle : ∀ s : State ℕ Unit, s.running = none → Action.UserTurn s := by
    intro s hs j hj
    cases hs.symm.trans hj
  have hknown : ∀ s : State ℕ Unit, Action.Known s (.ok (.plain 5)) := by
    rintro s q (hq | hq) <;> cases hq
  let as : List (Action ℕ Unit) :=
    [.new, .resolve 0 (.plain 5), .start 0, .advance, .advance, .then_ 0 [()]]
  have hrun : Run (fun _ _ => True) .init (observed .init as) (afterAll .init as) := by
    refine Run.of_allowed as ?_
    simp only [as, Allowed]
    exact ⟨hidle _ rfl, trivial, ⟨hidle _ rfl, Nat.zero_lt_one, hknown _⟩, trivial,
      ⟨rfl, List.mem_singleton_self 0⟩, trivial, ⟨_, rfl, rfl⟩, trivial, ⟨_, rfl, rfl⟩, trivial,
      ⟨hidle _ rfl, Nat.zero_lt_one⟩, trivial, trivial⟩
  have hfin : Finished (afterAll .init as) 0 := ⟨nofun, List.not_mem_nil, fun j hj => nomatch hj⟩
  cases (h 0 _ _ hrun hfin (.ok (.plain 5)) rfl).1

end Starlight.Promise
