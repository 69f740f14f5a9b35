import Starlight.Promise.Reactions

/-!
# The queue of jobs

Every settlement schedules one job. When the scheduler starts the jobs in the order in which they were
scheduled, the jobs that have been started are those of the promises that settled first: the settlements
of a run, in their order, are the promises of the started jobs followed by the jobs that still wait.
-/

namespace Starlight.Promise

variable {V F : Type} {s s' s'' : State V F} {p q : ℕ} {es : List (Event V F)}

/-- The promises that settle from `s` to `s'` are those whose jobs were scheduled; the running job is
the same or has ended. -/
structure Queues (s s' : State V F) : Prop where
  running : ∀ j', s'.running = some j' → ∃ j, s.running = some j ∧ j.promise = j'.promise
  jobs : ∃ new, s'.jobs = s.jobs ++ new ∧ new.Nodup ∧
    (∀ p, (s'.promises p).resolution ≠ none ↔ (s.promises p).resolution ≠ none ∨ p ∈ new) ∧
    ∀ p ∈ new, (s.promises p).resolution = none

theorem Queues.of_same (hrun : s'.running = s.running) (hjobs : s'.jobs = s.jobs)
    (hres : ∀ p, (s'.promises p).resolution = (s.promises p).resolution) : Queues s s' := by
  refine ⟨fun j' hj' => ⟨j', hrun ▸ hj', rfl⟩, [], by rw [hjobs, List.append_nil], List.nodup_nil,
    fun p => ?_, nofun⟩
  rw [hres]
  exact ⟨.inl, fun h => h.resolve_right List.not_mem_nil⟩

theorem Queues.trans (h : Queues s s') (h' : Queues s' s'') : Queues s s'' := by
  obtain ⟨new, hjobs, hnd, hset, hpend⟩ := h.jobs
  obtain ⟨new', hjobs', hnd', hset', hpend'⟩ := h'.jobs
  -- what settles later was pending before
  have hold : ∀ p ∈ new', (s.promises p).resolution = none ∧ p ∉ new := by
    intro p hp
    have hn := hpend' p hp
    have hno := mt (hset p).mpr (not_not.mpr hn)
    exact ⟨not_not.mp fun hc => hno (.inl hc), fun hc => hno (.inr hc)⟩
  refine ⟨fun j'' hj'' => ?_, new ++ new', by rw [hjobs', hjobs, List.append_assoc], ?_, fun p => ?_,
    fun p hp => ?_⟩
  · obtain ⟨j', hj', hp⟩ := h'.running j'' hj''
    obtain ⟨j, hj, hp'⟩ := h.running j' hj'
    exact ⟨j, hj, hp'.trans hp⟩
  · refine List.nodup_append.mpr ⟨hnd, hnd', fun p hp q hq hpq => ?_⟩
    exact (hold q hq).2 (hpq ▸ hp)
  · rw [hset', hset, List.mem_append, or_assoc]
  · rcases List.mem_append.mp hp with hp | hp
    · exact hpend p hp
    · exact (hold p hp).1

theorem Queues.nextSub (h : Queues s s') {j : Job} (hj : s.running = some j) :
    Queues s (s'.nextSub j) :=
  ⟨fun j' hj' => ⟨j, hj, by cases hj'; rfl⟩, h.jobs⟩

theorem queues_alloc (hi : Inv s) {promise : JsPromise V F} (hr : promise.resolution = none) :
    Queues s (s.alloc promise) := by
  refine Queues.of_same rfl rfl fun p => ?_
  rw [State.promises_alloc]
  split
  · next hp => rw [hr, hp, hi.fresh s.next le_rfl]; rfl
  · rfl

theorem queues_push (s : State V F) (p : ℕ) (sub : Sub F) : Queues s (s.push p sub) :=
  Queues.of_same rfl rfl fun _ => State.resolution_push _ _ _ _

theorem queues_store (hn : (s.promises p).resolution = none) (r : Resolution V) :
    Queues s (s.store p r) := by
  refine ⟨fun j' hj' => ⟨j', hj', rfl⟩, [p], rfl, List.nodup_singleton p, fun q => ?_, fun q hq => ?_⟩
  · rw [State.resolution_store, List.mem_singleton]
    by_cases hq : q = p
    · rw [if_pos hq]
      exact ⟨fun _ => .inr hq, nofun⟩
    · rw [if_neg hq]
      exact ⟨.inl, fun h => h.resolve_right hq⟩
  · rw [List.mem_singleton.mp hq, hn]

theorem queues_resolved (s : State V F) (p : ℕ) (r : Resolution V) : Queues s (s.resolved p r) := by
  rcases s.resolved_cases p r with ⟨-, heq⟩ | ⟨hn, ⟨q, -, heq⟩ | ⟨-, heq⟩⟩ <;> rw [heq]
  · exact Queues.of_same rfl rfl fun _ => rfl
  · exact queues_push s q _
  · exact queues_store hn r

theorem queues_track (s : State V F) (outer index : ℕ) (r : Resolution V) :
    Queues s (s.resolveSingleTrackedResolution outer index r) := by
  rcases s.track_cases outer index r with heq | ⟨-, results, heq | ⟨r', -, heq⟩⟩ <;> rw [heq]
  · exact Queues.of_same rfl rfl fun _ => rfl
  · exact Queues.of_same rfl rfl resolution_results
  · have hres : Queues s (s.modify outer fun promise =>
        { promise with trackingResults := results }) := Queues.of_same rfl rfl resolution_results
    exact hres.trans (queues_resolved _ _ _)

theorem queues_then (hi : Inv s) (p : ℕ) (f g k : Option (Handler F)) :
    Queues s (s.then_ p f g k) :=
  (queues_alloc hi rfl).trans (queues_push _ _ _)

theorem queues_trackAll (hi : Inv s) {outer x : ℕ} {ps : List ℕ} (ho : outer < s.next)
    (hps : ∀ p ∈ ps, p < s.next) : Queues s (State.trackAll outer x ps s) :=
  (hi.trackAll_rec ho hps (Queues.of_same rfl rfl fun _ => rfl) fun hi _ hq =>
    hq.trans (queues_then hi _ _ _ _)).2

theorem queues_advance {j : Job} (hj : s.running = some j) (r : Resolution V) :
    Queues s (s.advance j r) := by
  have hsame : ∀ j' : Option Job, (∀ j'', j' = some j'' → j''.promise = j.promise) →
      Queues s { s with running := j' } := by
    intro j' hj'
    refine ⟨fun j'' hj'' => ⟨j, hj, (hj' j'' hj'').symm⟩, ?_⟩
    exact (Queues.of_same rfl rfl fun _ => rfl : Queues s s).jobs
  unfold State.advance
  split
  · split
    · next sub _ =>
      split
      · next f _ =>
        cases f with
        | user f => exact hsame _ fun j'' hj'' => by cases hj''; rfl
        | passVal => exact (queues_resolved s sub.promise _).nextSub hj
        | track outer index source =>
          unfold State.callHandler
          dsimp only
          split
          · exact ((queues_track s outer index _).trans (queues_resolved _ _ _)).nextSub hj
          · exact hsame _ fun j'' hj'' => by cases hj''; rfl
      · exact hsame _ fun j'' hj'' => by cases hj''; rfl
    · exact Queues.of_same rfl rfl fun _ => rfl
  · split
    · exact hsame _ fun j'' hj'' => by cases hj''; rfl
    · exact hsame _ nofun

theorem queues_exec (hi : Inv s) {a : Action V F} (he : a.Enabled s) (ha : ∀ p, a ≠ .start p) :
    Queues s (a.exec s) := by
  cases a with
  | new => exact queues_alloc hi rfl
  | resolve p v | reject p v => exact queues_resolved s p _
  | then_ p args | catch_ p f | finally_ p f => exact queues_then hi p _ _ _
  | combine mode ps =>
    exact (queues_alloc hi rfl).trans (@queues_trackAll _ _ _ (hi.alloc rfl rfl) s.next 0 ps
      (Nat.lt_succ_self _) fun q hq => lt_of_lt_of_le (he.2 q hq) (Nat.le_succ _))
  | start p => exact absurd rfl (ha p)
  | advance =>
    obtain ⟨j, hj, -⟩ := he
    obtain ⟨r, hr⟩ := (hi.running j hj).settled
    unfold Action.exec
    rw [hj]
    dsimp only
    rw [hr]
    exact queues_advance hj r
  | return_ r =>
    obtain ⟨⟨j, hj, ha⟩, -⟩ := he
    obtain ⟨-, sub, -, -, hs, -, -⟩ := (hi.running j hj).waits ha
    unfold Action.exec
    rw [hj]
    dsimp only
    rw [hs]
    exact (queues_resolved s sub.promise r).nextSub hj

/-! ### The settlements of a run -/

def Event.settledPromise : Event V F → Option ℕ
  | .settled p => some p
  | _ => none

/-- The promises that settled, in this order. -/
def settledLog (es : List (Event V F)) : List ℕ := es.filterMap Event.settledPromise

theorem settledLog_append (es es' : List (Event V F)) :
    settledLog (es ++ es') = settledLog es ++ settledLog es' := List.filterMap_append

theorem settledPromise_advanceEvent {j : Job} {r : Resolution V} {e : Event V F}
    (he : e ∈ Action.advanceEvent s j r) : e.settledPromise = none := by
  unfold Action.advanceEvent at he
  split at he
  · split at he
    · rw [List.mem_singleton.mp he]; rfl
    · cases he
  · cases he

theorem settledLog_handlerEvents (s : State V F) (a : Action V F) :
    settledLog (a.handlerEvents s) = [] := by
  refine List.filterMap_eq_nil_iff.mpr fun e he => ?_
  cases a with
  | advance =>
    dsimp only [Action.handlerEvents] at he
    split at he
    · split at he
      · exact settledPromise_advanceEvent he
      · cases he
    · cases he
  | return_ r =>
    dsimp only [Action.handlerEvents] at he
    split at he
    · rw [List.mem_singleton.mp he]; rfl
    · cases he
  | _ => cases he

theorem settledLog_map_settled (ps : List ℕ) :
    settledLog (ps.map (Event.settled : ℕ → Event V F)) = ps := by
  induction ps with
  | nil => rfl
  | cons p ps ih => exact congrArg (p :: ·) ih

theorem settledLog_start (s : State V F) (p : ℕ) :
    settledLog ((Action.start p).events s) = [] := rfl

theorem settledLog_events {a : Action V F} (ha : ∀ p, a ≠ .start p) {new : List ℕ}
    (hnew : (a.exec s).jobs = s.jobs ++ new) : settledLog (a.events s) = new := by
  have hset : a.settlements s = new.map .settled := by
    have hdrop : (a.exec s).jobs.drop s.jobs.length = new := by
      rw [hnew, List.drop_left]
    cases a with
    | start p => exact absurd rfl (ha p)
    | _ => exact congrArg _ hdrop
  unfold Action.events
  rw [settledLog_append, settledLog_handlerEvents, List.append_nil, hset, settledLog_map_settled]

/-- The scheduler starts the jobs in the order in which they were scheduled. -/
def InOrder (s : State V F) : Action V F → Prop
  | .start p => s.jobs.head? = some p
  | _ => True

/-- The promises that settled are those of the jobs that were started, the last one perhaps still
running, and of those that wait. -/
structure Queued (settled : List ℕ) (s : State V F) : Prop where
  started : ∃ started, settled = started ++ s.jobs ∧
    ∀ j, s.running = some j → ∃ before, started = before ++ [j.promise]
  mem_iff : ∀ p, p ∈ settled ↔ (s.promises p).resolution ≠ none
  nodup : settled.Nodup

theorem queued_init : Queued [] (State.init : State V F) :=
  ⟨⟨[], rfl, nofun⟩, fun _ => ⟨fun h => (nomatch h), fun h => absurd rfl h⟩, List.nodup_nil⟩

/-- **The step lemma.** -/
theorem Queued.exec {L : List ℕ} (h : Queued L s) (hi : Inv s) {a : Action V F} (he : a.Enabled s)
    (ho : InOrder s a) : Queued (L ++ settledLog (a.events s)) (a.exec s) := by
  obtain ⟨started, hL, hrun⟩ := h.started
  by_cases ha : ∀ p, a ≠ .start p
  · obtain ⟨hrun', new, hjobs, hnd, hset, hpend⟩ := queues_exec hi he ha
    rw [settledLog_events ha hjobs]
    refine ⟨⟨started, by rw [hL, hjobs, List.append_assoc], fun j' hj' => ?_⟩, fun p => ?_, ?_⟩
    · obtain ⟨j, hj, hp⟩ := hrun' j' hj'
      rw [← hp]
      exact hrun j hj
    · rw [List.mem_append, h.mem_iff, hset]
    · refine List.nodup_append.mpr ⟨h.nodup, hnd, fun p hp q hq hpq => ?_⟩
      exact (h.mem_iff p).mp hp (hpq ▸ hpend q hq)
  · obtain ⟨p, rfl⟩ : ∃ p, a = .start p := by
      by_contra hc
      exact ha fun p hp => hc ⟨p, hp⟩
    obtain ⟨rest, hrest⟩ := List.head?_eq_some_iff.mp ho
    have hjobs : ((Action.start p).exec s).jobs = rest := by
      change s.jobs.erase p = rest
      rw [hrest, List.erase_cons_head]
    rw [settledLog_start, List.append_nil]
    refine ⟨⟨started ++ [p], ?_, fun j hj => ?_⟩, h.mem_iff, h.nodup⟩
    · rw [hjobs, hL, hrest, List.append_assoc]
      rfl
    · cases hj
      exact ⟨started, rfl⟩

theorem Run.queued {ok : State V F → Action V F → Prop} (h : Run ok .init es s)
    (hok : ∀ s a, ok s a → InOrder s a) : Queued (settledLog es) s := by
  induction h with
  | refl => exact queued_init
  | step h a he ho ih =>
    rw [settledLog_append]
    exact ih.exec (h.inv inv_init).1 he (hok _ a ho)

end Starlight.Promise
