import Mathlib.Data.List.Infix
import Starlight.Promise.Machine

/-!
# What holds in every run

`Inv` says how the promises and the jobs of a state fit together: only settled promises have jobs, each
at most one, and the running job is inside the list of subscribers it goes through. `Later` is what no
action undoes: a promise keeps its resolution and its subscribers.
-/

namespace Starlight.Promise

variable {V F : Type} {s s' s'' : State V F} {p q : ℕ}

/-! ### The operations, field by field -/

namespace State

theorem promises_modify (s : State V F) (p q : ℕ) (f : JsPromise V F → JsPromise V F) :
    (s.modify p f).promises q = if q = p then f (s.promises p) else s.promises q :=
  Function.update_apply _ _ _ _

theorem promises_alloc (s : State V F) (promise : JsPromise V F) (q : ℕ) :
    (s.alloc promise).promises q = if q = s.next then promise else s.promises q :=
  Function.update_apply _ _ _ _

theorem getElem?_concat_eq_some {α : Type} {l : List α} {a b : α} {k : ℕ} :
    (l ++ [a])[k]? = some b ↔ l[k]? = some b ∨ k = l.length ∧ a = b := by
  rcases Nat.lt_trichotomy k l.length with hlt | rfl | hgt
  · rw [List.getElem?_append_left hlt]
    exact ⟨.inl, fun h => h.resolve_right fun hc => hlt.ne hc.1⟩
  · rw [List.getElem?_concat_length, List.getElem?_eq_none le_rfl, Option.some_inj]
    exact ⟨fun h => .inr ⟨rfl, h⟩, fun h => (h.resolve_left nofun).2⟩
  · rw [List.getElem?_eq_none (by rw [List.length_append, List.length_singleton]; omega),
      List.getElem?_eq_none hgt.le]
    exact ⟨.inl, fun h => h.resolve_right fun hc => hgt.ne hc.1.symm⟩

theorem subs_push (s : State V F) (p q : ℕ) (sub : Sub F) :
    ((s.push p sub).promises q).subs =
      if q = p then (s.promises p).subs ++ [sub] else (s.promises q).subs := by
  unfold push
  rw [promises_modify]
  split <;> rfl

@[simp] theorem resolution_push (s : State V F) (p q : ℕ) (sub : Sub F) :
    ((s.push p sub).promises q).resolution = (s.promises q).resolution := by
  unfold push
  rw [promises_modify]
  split
  · next h => rw [h]
  · rfl

@[simp] theorem subs_store (s : State V F) (p q : ℕ) (r : Resolution V) :
    ((s.store p r).promises q).subs = (s.promises q).subs := by
  unfold store
  dsimp only
  rw [promises_modify]
  split
  · next h => rw [h]
  · rfl

theorem resolution_store (s : State V F) (p q : ℕ) (r : Resolution V) :
    ((s.store p r).promises q).resolution = if q = p then some r else (s.promises q).resolution := by
  unfold store
  dsimp only
  rw [promises_modify]
  split <;> rfl

@[simp] theorem jobs_store (s : State V F) (p : ℕ) (r : Resolution V) :
    (s.store p r).jobs = s.jobs ++ [p] := rfl

theorem resolved_cases (s : State V F) (p : ℕ) (r : Resolution V) :
    ((s.promises p).resolution ≠ none ∧ s.resolved p r = s) ∨
      ((s.promises p).resolution = none ∧
        ((∃ q, r = .ok (.promise q) ∧ s.resolved p r = s.push q (.adoption p)) ∨
          ((∀ q, r ≠ .ok (.promise q)) ∧ s.resolved p r = s.store p r))) := by
  unfold resolved doResolve
  cases hres : (s.promises p).resolution with
  | some r' => exact .inl ⟨nofun, rfl⟩
  | none =>
    refine .inr ⟨rfl, ?_⟩
    cases r with
    | error e => exact .inr ⟨nofun, rfl⟩
    | ok v =>
      cases v with
      | promise q => exact .inl ⟨q, rfl, rfl⟩
      | undefined | null | plain v | array vs => exact .inr ⟨nofun, rfl⟩

@[simp] theorem running_resolved (s : State V F) (p : ℕ) (r : Resolution V) :
    (s.resolved p r).running = s.running := by
  rcases s.resolved_cases p r with ⟨-, h⟩ | ⟨-, ⟨q, -, h⟩ | ⟨-, h⟩⟩ <;> rw [h] <;> rfl

theorem track_cases (s : State V F) (outer index : ℕ) (r : Resolution V) :
    s.resolveSingleTrackedResolution outer index r = s ∨
      ((s.promises outer).resolution = none ∧ ∃ results,
        (s.resolveSingleTrackedResolution outer index r =
            s.modify outer fun promise => { promise with trackingResults := results }) ∨
          ∃ r', (r' = r ∨ ∃ vs, r' = .ok (.array vs)) ∧
            s.resolveSingleTrackedResolution outer index r =
              (s.modify outer fun promise => { promise with trackingResults := results }).resolved
                outer r') := by
  unfold resolveSingleTrackedResolution
  cases hres : (s.promises outer).resolution with
  | some r' => exact .inl rfl
  | none =>
    dsimp only [Option.isSome_none]
    rw [if_neg Bool.false_ne_true]
    cases htr : (s.promises outer).trackingResults with
    | none => exact .inl rfl
    | some results =>
      refine .inr ⟨rfl, some (results.set index (some r)), ?_⟩
      dsimp only
      generalize ((s.modify outer _).promises outer).trackingMode = mode
      cases mode with
      | none => exact .inl rfl
      | some mode =>
        cases mode with
        | all =>
          cases r with
          | ok v =>
            dsimp only
            split
            · exact .inr ⟨_, .inr ⟨_, rfl⟩, rfl⟩
            · exact .inl rfl
          | error e => exact .inr ⟨_, .inl rfl, rfl⟩
        | race => exact .inr ⟨r, .inl rfl, rfl⟩
        | allSettled | any => exact .inl rfl

@[simp] theorem running_track (s : State V F) (outer index : ℕ) (r : Resolution V) :
    (s.resolveSingleTrackedResolution outer index r).running = s.running := by
  rcases s.track_cases outer index r with h | ⟨-, results, h | ⟨r', -, h⟩⟩ <;> rw [h]
  · rfl
  · rw [running_resolved]; rfl

end State

/-! ### What no action undoes -/

/-- Promises keep their resolutions and their subscribers. -/
structure Later (s s' : State V F) : Prop where
  next_le : s.next ≤ s'.next
  resolution : ∀ p r, (s.promises p).resolution = some r → (s'.promises p).resolution = some r
  subs : ∀ p, (s.promises p).subs <+: (s'.promises p).subs

theorem Later.refl (s : State V F) : Later s s :=
  ⟨le_rfl, fun _ _ h => h, fun _ => List.prefix_refl _⟩

theorem Later.trans (h : Later s s') (h' : Later s' s'') : Later s s'' :=
  ⟨h.next_le.trans h'.next_le, fun p r hr => h'.resolution p r (h.resolution p r hr),
    fun p => (h.subs p).trans (h'.subs p)⟩

theorem Later.getElem? (h : Later s s') {k : ℕ} {sub : Sub F}
    (hs : (s.promises p).subs[k]? = some sub) : (s'.promises p).subs[k]? = some sub := by
  obtain ⟨rest, hrest⟩ := h.subs p
  rw [← hrest, List.getElem?_append_left (List.getElem?_eq_some_iff.mp hs).1, hs]

theorem later_alloc (hfresh : s.promises s.next = .unresolving) (promise : JsPromise V F) :
    Later s (s.alloc promise) := by
  refine ⟨Nat.le_succ _, fun p r hr => ?_, fun p => ?_⟩
  · rw [State.promises_alloc, if_neg]
    · exact hr
    · rintro rfl
      rw [hfresh] at hr
      cases hr
  · rw [State.promises_alloc]
    split
    · next hp =>
      rw [hp, hfresh]
      exact List.nil_prefix
    · exact List.prefix_refl _

theorem later_push (s : State V F) (p : ℕ) (sub : Sub F) : Later s (s.push p sub) := by
  refine ⟨le_rfl, fun q r hr => by rwa [State.resolution_push], fun q => ?_⟩
  rw [State.subs_push]
  split
  · next hq => rw [hq]; exact List.prefix_append _ _
  · exact List.prefix_refl _

theorem later_store (hp : (s.promises p).resolution = none) (r : Resolution V) :
    Later s (s.store p r) := by
  refine ⟨le_rfl, fun q r' hr => ?_, fun q => ?_⟩
  · rw [State.resolution_store, if_neg]
    · exact hr
    · rintro rfl
      rw [hp] at hr
      cases hr
  · rw [State.subs_store]

theorem later_resolved (s : State V F) (p : ℕ) (r : Resolution V) : Later s (s.resolved p r) := by
  rcases s.resolved_cases p r with ⟨-, h⟩ | ⟨hp, ⟨q, -, h⟩ | ⟨-, h⟩⟩ <;> rw [h]
  · exact Later.refl s
  · exact later_push s q _
  · exact later_store hp r

theorem later_results (s : State V F) (p : ℕ) (results : Option (List (Option (Resolution V)))) :
    Later s (s.modify p fun promise => { promise with trackingResults := results }) := by
  refine ⟨le_rfl, fun q r hr => ?_, fun q => ?_⟩ <;> rw [State.promises_modify]
  · split
    · next hq => rw [← hr, hq]
    · exact hr
  · split
    · next hq => rw [hq]
    · exact List.prefix_refl _

theorem later_track (s : State V F) (outer index : ℕ) (r : Resolution V) :
    Later s (s.resolveSingleTrackedResolution outer index r) := by
  rcases s.track_cases outer index r with h | ⟨-, results, h | ⟨r', -, h⟩⟩ <;> rw [h]
  · exact Later.refl s
  · exact later_results s outer results
  · exact (later_results s outer results).trans (later_resolved _ _ _)

theorem Later.congr (h : Later s s') (hn : s''.next = s'.next) (hp : s''.promises = s'.promises) :
    Later s s'' :=
  ⟨hn ▸ h.next_le, hp ▸ h.resolution, hp ▸ h.subs⟩

/-! ### The invariant -/

inductive Sub.Ok (next q : ℕ) (sub : Sub F) : Prop
  | adoption (h : sub = .adoption sub.promise)
  | then_ (f g : Option F) (hf : sub.onResolved = f.map .user) (hg : sub.onRejected = g.map .user)
      (hn : sub.onFinally = none)
  | finally_ (f : F) (hf : sub.onResolved = none) (hg : sub.onRejected = none)
      (hn : sub.onFinally = some (.user f))
  | track (outer index : ℕ) (hlt : outer < next) (hf : sub.onResolved = none)
      (hg : sub.onRejected = none) (hn : sub.onFinally = some (.track outer index q))

theorem Sub.Ok.mono {next next' : ℕ} {sub : Sub F} (h : sub.Ok next q) (hle : next ≤ next') :
    sub.Ok next' q := by
  cases h with
  | adoption h => exact .adoption h
  | then_ f g hf hg hn => exact .then_ f g hf hg hn
  | finally_ f hf hg hn => exact .finally_ f hf hg hn
  | track outer index hlt hf hg hn => exact .track outer index (lt_of_lt_of_le hlt hle) hf hg hn

theorem Sub.Ok.handler_cases {next : ℕ} {sub : Sub F} (h : sub.Ok next q) {pass : Pass}
    {r : Resolution V} {f : Handler F} (hf : sub.handler pass r = some f) :
    (∃ g, f = .user g) ∨ (f = .passVal ∧ pass = .settle ∧ sub = .adoption sub.promise) ∨
      ∃ outer index, f = .track outer index q ∧ pass = .finally_ ∧ outer < next := by
  unfold Sub.handler at hf
  cases h with
  | adoption h =>
    rw [h] at hf
    cases pass <;> cases r <;> cases hf
    · exact .inr (.inl ⟨rfl, rfl, h⟩)
    · exact .inr (.inl ⟨rfl, rfl, h⟩)
  | then_ g g' h₁ h₂ h₃ =>
    cases pass <;> cases r <;> simp only [h₁, h₂, h₃, Option.map_eq_some_iff, reduceCtorEq] at hf
    · obtain ⟨a, -, rfl⟩ := hf; exact .inl ⟨a, rfl⟩
    · obtain ⟨a, -, rfl⟩ := hf; exact .inl ⟨a, rfl⟩
  | finally_ g h₁ h₂ h₃ =>
    cases pass <;> cases r <;> simp only [h₁, h₂, h₃, Option.some.injEq, reduceCtorEq] at hf
    · exact .inl ⟨g, hf.symm⟩
    · exact .inl ⟨g, hf.symm⟩
  | track outer index hlt h₁ h₂ h₃ =>
    cases pass <;> cases r <;> simp only [h₁, h₂, h₃, Option.some.injEq, reduceCtorEq] at hf
    · exact .inr (.inr ⟨outer, index, hf.symm, rfl, hlt⟩)
    · exact .inr (.inr ⟨outer, index, hf.symm, rfl, hlt⟩)

/-- The running job is the one of a settled promise and inside its subscribers. -/
structure JobOk (s : State V F) (j : Job) : Prop where
  settled : ∃ r, (s.promises j.promise).resolution = some r
  not_scheduled : j.promise ∉ s.jobs
  index_le : j.index ≤ j.bound
  bound_le : j.bound ≤ (s.promises j.promise).subs.length
  waits : j.awaiting = true → j.index < j.bound ∧ ∃ sub r f,
    (s.promises j.promise).subs[j.index]? = some sub ∧
      (s.promises j.promise).resolution = some r ∧ sub.handler j.pass r = some (.user f)

theorem JobOk.exists_sub {j : Job} (h : JobOk s j) (hlt : j.index < j.bound) :
    ∃ sub, (s.promises j.promise).subs[j.index]? = some sub :=
  ⟨_, List.getElem?_eq_getElem (lt_of_lt_of_le hlt h.bound_le)⟩

/-- How the promises and the jobs of a state fit together. -/
structure Inv (s : State V F) : Prop where
  fresh : ∀ p, s.next ≤ p → s.promises p = .unresolving
  sub_lt : ∀ p sub, sub ∈ (s.promises p).subs → sub.promise < s.next
  sub_ok : ∀ p sub, sub ∈ (s.promises p).subs → sub.Ok s.next p
  plain : ∀ p q, (s.promises p).resolution ≠ some (.ok (.promise q))
  known : ∀ p r, (s.promises p).resolution = some r → Action.Known s r
  settled : ∀ p ∈ s.jobs, (s.promises p).resolution ≠ none
  nodup : s.jobs.Nodup
  running : ∀ j, s.running = some j → JobOk s j

theorem JobOk.later {j : Job} (h : JobOk s j) (hl : Later s s') (hj : j.promise ∉ s'.jobs) :
    JobOk s' j where
  settled := h.settled.imp fun r hr => hl.resolution _ r hr
  not_scheduled := hj
  index_le := h.index_le
  bound_le := h.bound_le.trans (hl.subs _).length_le
  waits ha := by
    obtain ⟨hlt, sub, r, f, hs, hr, hf⟩ := h.waits ha
    exact ⟨hlt, sub, r, f, hl.getElem? hs, hl.resolution _ r hr, hf⟩

theorem inv_init : Inv (State.init : State V F) where
  fresh _ _ := rfl
  sub_lt _ _ h := by cases h
  sub_ok _ _ h := by cases h
  plain _ _ := nofun
  known _ _ := nofun
  settled _ h := by cases h
  nodup := List.nodup_nil
  running _ h := by cases h

theorem Inv.subs_alloc (h : Inv s) {promise : JsPromise V F} (hs : promise.subs = []) (q : ℕ) :
    ((s.alloc promise).promises q).subs = (s.promises q).subs := by
  rw [State.promises_alloc]
  split
  · next hq => rw [hs, hq, h.fresh s.next le_rfl]; rfl
  · rfl

theorem Inv.resolution_alloc (h : Inv s) {promise : JsPromise V F}
    (hr : promise.resolution = none) (q : ℕ) :
    ((s.alloc promise).promises q).resolution = (s.promises q).resolution := by
  rw [State.promises_alloc]
  split
  · next hq => rw [hr, hq, h.fresh s.next le_rfl]; rfl
  · rfl

theorem Inv.alloc (h : Inv s) {promise : JsPromise V F} (hs : promise.subs = [])
    (hr : promise.resolution = none) : Inv (s.alloc promise) := by
  have hl := later_alloc (h.fresh s.next le_rfl) promise
  have hsub : ∀ {p sub}, sub ∈ ((s.alloc promise).promises p).subs → sub ∈ (s.promises p).subs :=
    fun {p sub} hsub => h.subs_alloc hs p ▸ hsub
  refine ⟨fun p hp => ?_, fun p sub hsb => ?_, fun p sub hsb => ?_, fun p q hpq => ?_,
    fun p r hpr q hq => ?_, fun p hp => ?_, h.nodup, fun j hj => (h.running j hj).later hl (h.running j hj).not_scheduled⟩
  · have hp : s.next + 1 ≤ p := hp
    rw [State.promises_alloc, if_neg (by omega)]
    exact h.fresh p (by omega)
  · exact lt_of_lt_of_le (h.sub_lt p sub (hsub hsb)) (Nat.le_succ _)
  · exact (h.sub_ok p sub (hsub hsb)).mono (Nat.le_succ _)
  · rw [State.promises_alloc] at hpq
    split at hpq
    · rw [hr] at hpq; cases hpq
    · exact h.plain p q hpq
  · rw [State.promises_alloc] at hpr
    split at hpr
    · rw [hr] at hpr; cases hpr
    · exact lt_of_lt_of_le (h.known p r hpr q hq) (Nat.le_succ _)
  · obtain ⟨r, hr⟩ := Option.ne_none_iff_exists'.mp (h.settled p hp)
    rw [hl.resolution p r hr]
    nofun

theorem Inv.push (h : Inv s) (hp : p < s.next) {sub : Sub F} (hlt : sub.promise < s.next)
    (hok : sub.Ok s.next p) : Inv (s.push p sub) := by
  have hl := later_push s p sub
  have hsub : ∀ {q sub'}, sub' ∈ ((s.push p sub).promises q).subs →
      sub' ∈ (s.promises q).subs ∨ (q = p ∧ sub' = sub) := by
    intro q sub' hs
    rw [State.subs_push] at hs
    split at hs
    · next hq =>
      rcases List.mem_append.mp hs with hs | hs
      · exact .inl (hq ▸ hs)
      · exact .inr ⟨hq, List.mem_singleton.mp hs⟩
    · exact .inl hs
  refine ⟨fun q hq => ?_, fun q sub' hs => ?_, fun q sub' hs => ?_, fun q q' => ?_, fun q r => ?_,
    fun q hq => ?_, h.nodup, fun j hj => (h.running j hj).later hl (h.running j hj).not_scheduled⟩
  · have hne : q ≠ p := fun hc => absurd (hc ▸ hq) (Nat.not_le_of_lt hp)
    unfold State.push
    rw [State.promises_modify, if_neg hne]
    exact h.fresh q hq
  · rcases hsub hs with hs | ⟨-, rfl⟩
    · exact h.sub_lt q sub' hs
    · exact hlt
  · rcases hsub hs with hs | ⟨rfl, rfl⟩
    · exact h.sub_ok q sub' hs
    · exact hok
  · rw [State.resolution_push]; exact h.plain q q'
  · rw [State.resolution_push]; exact h.known q r
  · rw [State.resolution_push]; exact h.settled q hq

theorem Inv.store (h : Inv s) (hp : p < s.next) (hn : (s.promises p).resolution = none)
    {r : Resolution V} (hr : ∀ q, r ≠ .ok (.promise q)) (hk : Action.Known s r) :
    Inv (s.store p r) := by
  have hl := later_store hn r
  have hnew : ∀ {q}, (s.promises q).resolution ≠ none → q ≠ p := fun hq hc => hq (hc ▸ hn)
  refine ⟨fun q hq => ?_, fun q sub hs => ?_, fun q sub hs => ?_, fun q q' hqq => ?_,
    fun q r' hqr => ?_, fun q hq => ?_, ?_, fun j hj => (h.running j hj).later hl ?_⟩
  · have hne : q ≠ p := fun hc => absurd (hc ▸ hq) (Nat.not_le_of_lt hp)
    unfold State.store
    dsimp only
    rw [State.promises_modify, if_neg hne]
    exact h.fresh q hq
  · rw [State.subs_store] at hs; exact h.sub_lt q sub hs
  · rw [State.subs_store] at hs; exact h.sub_ok q sub hs
  · rw [State.resolution_store] at hqq
    split at hqq
    · exact hr q' (Option.some_inj.mp hqq)
    · exact h.plain q q' hqq
  · rw [State.resolution_store] at hqr
    split at hqr
    · exact Option.some_inj.mp hqr ▸ hk
    · exact h.known q r' hqr
  · rw [State.resolution_store]
    split
    · nofun
    · next hne =>
      refine h.settled q ?_
      rw [State.jobs_store] at hq
      exact (List.mem_append.mp hq).resolve_right fun hc => hne (List.mem_singleton.mp hc)
  · rw [State.jobs_store]
    refine List.nodup_append.mpr ⟨h.nodup, List.nodup_singleton p, fun q hq q' hq' => ?_⟩
    rw [List.mem_singleton.mp hq']
    exact hnew (h.settled q hq)
  · rw [State.jobs_store]
    intro hc
    rcases List.mem_append.mp hc with hc | hc
    · exact (h.running j hj).not_scheduled hc
    · obtain ⟨r', hr'⟩ := (h.running j hj).settled
      exact hnew (by rw [hr']; nofun) (List.mem_singleton.mp hc)

theorem Inv.resolved (h : Inv s) (hp : p < s.next) {r : Resolution V} (hr : Action.Known s r) :
    Inv (s.resolved p r) := by
  rcases s.resolved_cases p r with ⟨-, heq⟩ | ⟨hn, ⟨q, rfl, heq⟩ | ⟨hne, heq⟩⟩ <;> rw [heq]
  · exact h
  · exact h.push (hr q (.inl rfl)) hp (.adoption rfl)
  · exact h.store hp hn hne hr

theorem Inv.results (h : Inv s) (hp : p < s.next)
    (results : Option (List (Option (Resolution V)))) :
    Inv (s.modify p fun promise => { promise with trackingResults := results }) := by
  have hl := later_results s p results
  have hsubs : ∀ q, ((s.modify p fun promise =>
      { promise with trackingResults := results }).promises q).subs = (s.promises q).subs := by
    intro q
    rw [State.promises_modify]
    split
    · next hq => rw [hq]
    · rfl
  have hres : ∀ q, ((s.modify p fun promise =>
      { promise with trackingResults := results }).promises q).resolution =
        (s.promises q).resolution := by
    intro q
    rw [State.promises_modify]
    split
    · next hq => rw [hq]
    · rfl
  refine ⟨fun q hq => ?_, fun q sub hs => h.sub_lt q sub (hsubs q ▸ hs),
    fun q sub hs => h.sub_ok q sub (hsubs q ▸ hs), fun q q' => hres q ▸ h.plain q q',
    fun q r hr => h.known q r (hres q ▸ hr), fun q hq => hres q ▸ h.settled q hq, h.nodup,
    fun j hj => (h.running j hj).later hl (h.running j hj).not_scheduled⟩
  rw [State.promises_modify, if_neg]
  · exact h.fresh q hq
  · exact fun hc => absurd (hc ▸ hq) (Nat.not_le_of_lt hp)

theorem Inv.track (h : Inv s) {outer index : ℕ} (ho : outer < s.next) {r : Resolution V}
    (hr : Action.Known s r) : Inv (s.resolveSingleTrackedResolution outer index r) := by
  rcases s.track_cases outer index r with heq | ⟨-, results, heq | ⟨r', hr', heq⟩⟩ <;> rw [heq]
  · exact h
  · exact h.results ho results
  · refine (h.results ho results).resolved ho ?_
    rcases hr' with rfl | ⟨vs, rfl⟩
    · exact hr
    · exact fun q hq => by rcases hq with hq | hq <;> cases hq

theorem Inv.withRunning (h : Inv s) {j : Option Job} (hj : ∀ j', j = some j' → JobOk s j') :
    Inv { s with running := j } :=
  { h with running := fun j' hj' => { hj j' hj' with } }

theorem Inv.nextSub (h : Inv s) {j : Job} (hj : s.running = some j) (hlt : j.index < j.bound) :
    Inv (s.nextSub j) := by
  have hok := h.running j hj
  refine h.withRunning fun j' hj' => ?_
  cases hj'
  exact ⟨hok.settled, hok.not_scheduled, hlt, hok.bound_le, nofun⟩

theorem Inv.then_ (h : Inv s) (hp : p < s.next) {f g k : Option (Handler F)}
    (hok : Sub.Ok s.next p ⟨f, g, k, s.next⟩) : Inv (s.then_ p f g k) :=
  (h.alloc rfl rfl).push (lt_of_lt_of_le hp (Nat.le_succ _)) (Nat.lt_succ_self _)
    (hok.mono (Nat.le_succ _))

theorem later_then (h : Inv s) (p : ℕ) (f g k : Option (Handler F)) : Later s (s.then_ p f g k) :=
  (later_alloc (h.fresh s.next le_rfl) .unresolving).trans (later_push _ _ _)

/-- **The rule of the tracking loop**: what each `then_` of it preserves. -/
theorem Inv.trackAll_rec {P : State V F → Prop} (h : Inv s) {outer x : ℕ} {ps : List ℕ}
    (ho : outer < s.next) (hps : ∀ p ∈ ps, p < s.next) (hP : P s)
    (hstep : ∀ {s : State V F} {p x : ℕ}, Inv s → outer < s.next → P s →
      P (s.then_ p none none (some (.track outer x p)))) :
    Inv (State.trackAll outer x ps s) ∧ P (State.trackAll outer x ps s) := by
  induction ps generalizing s x with
  | nil => exact ⟨h, hP⟩
  | cons p ps ih =>
    have hp := hps p (List.mem_cons_self ..)
    have h' := h.then_ hp (.track outer x ho rfl rfl rfl : Sub.Ok s.next p
      ⟨none, none, some (.track outer x p), s.next⟩)
    have hl := later_then h p none none (some (.track outer x p))
    exact ih h' (lt_of_lt_of_le ho hl.next_le)
      (fun q hq => lt_of_lt_of_le (hps q (List.mem_cons_of_mem _ hq)) hl.next_le) (hstep h ho hP)

theorem Inv.trackAll (h : Inv s) {outer x : ℕ} {ps : List ℕ} (ho : outer < s.next)
    (hps : ∀ p ∈ ps, p < s.next) :
    Inv (State.trackAll outer x ps s) ∧ Later s (State.trackAll outer x ps s) :=
  h.trackAll_rec ho hps (Later.refl s) fun hi _ hl => hl.trans (later_then hi _ _ _ _)

theorem Inv.newTracking (h : Inv s) (mode : TrackingMode) {ps : List ℕ}
    (hps : ∀ p ∈ ps, p < s.next) :
    Inv (s.newTracking mode ps) ∧ Later s (s.newTracking mode ps) := by
  have h₀ : Inv (s.alloc (.tracking mode ps.length)) := h.alloc rfl rfl
  obtain ⟨hi, hl⟩ := @Inv.trackAll _ _ _ h₀ s.next 0 ps (Nat.lt_succ_self _)
    fun q hq => lt_of_lt_of_le (hps q hq) (Nat.le_succ _)
  exact ⟨hi, (later_alloc (h.fresh s.next le_rfl) _).trans hl⟩

theorem Inv.advance (h : Inv s) {j : Job} (hj : s.running = some j) (ha : j.awaiting = false)
    {r : Resolution V} (hr : (s.promises j.promise).resolution = some r) :
    Inv (s.advance j r) ∧ Later s (s.advance j r) := by
  have hok := h.running j hj
  have hlater : ∀ {s' : State V F} (j' : Option Job), Later s s' →
      Later s { s' with running := j' } := fun _ hl => hl.congr rfl rfl
  unfold State.advance
  split
  · next hlt =>
    obtain ⟨sub, hget⟩ := hok.exists_sub hlt
    rw [hget]
    dsimp only
    have hmem := List.mem_of_getElem? hget
    have hsub := h.sub_lt _ sub hmem
    cases hf : sub.handler j.pass r with
    | none => exact ⟨h.nextSub hj hlt, hlater _ (Later.refl s)⟩
    | some f =>
      dsimp only
      rcases (h.sub_ok _ sub hmem).handler_cases hf with ⟨g, rfl⟩ | ⟨rfl, -, -⟩ |
        ⟨outer, index, rfl, -, ho⟩
      · refine ⟨h.withRunning fun j' hj' => ?_, hlater _ (Later.refl s)⟩
        cases hj'
        exact { hok with waits := fun _ => ⟨hlt, sub, r, g, hget, hr, hf⟩ }
      · have harg : Action.Known s (.ok (j.pass.arg r)) := by
          intro q hq
          have hq : j.pass.arg r = .promise q := Except.ok.inj (hq.resolve_right nofun)
          cases hp : j.pass with
          | finally_ => rw [hp] at hq; cases hq
          | settle =>
            rw [hp] at hq
            refine h.known _ r hr q ?_
            cases r with
            | ok v => exact .inl (congrArg Except.ok hq)
            | error e => exact .inr (congrArg Except.error hq)
        exact ⟨(h.resolved hsub harg).nextSub (by rw [State.running_resolved, hj]) hlt,
          hlater _ (later_resolved s _ _)⟩
      · unfold State.callHandler
        dsimp only
        rw [hr]
        have hl := later_track s outer index r
        refine ⟨((h.track ho (h.known _ r hr)).resolved (lt_of_lt_of_le hsub hl.next_le)
          fun q hq => ?_).nextSub ?_ hlt, hlater _ (hl.trans (later_resolved _ _ _))⟩
        · rcases hq with hq | hq <;> cases hq
        · rw [State.running_resolved, State.running_track, hj]
  · split
    · refine ⟨h.withRunning fun j' hj' => ?_, hlater _ (Later.refl s)⟩
      cases hj'
      exact ⟨hok.settled, hok.not_scheduled, Nat.zero_le _, le_rfl, fun hw => by rw [ha] at hw; cases hw⟩
    · exact ⟨h.withRunning fun j' hj' => (by cases hj'), hlater _ (Later.refl s)⟩

/-- **The step lemma.** Every action keeps the invariant and undoes nothing. -/
theorem Inv.exec (h : Inv s) {a : Action V F} (he : a.Enabled s) :
    Inv (a.exec s) ∧ Later s (a.exec s) := by
  cases a with
  | new => exact ⟨h.alloc rfl rfl, later_alloc (h.fresh s.next le_rfl) _⟩
  | resolve p v | reject p v => exact ⟨h.resolved he.2.1 he.2.2, later_resolved s p _⟩
  | then_ p args => exact ⟨h.then_ he.2 (.then_ args[0]? args[1]? rfl rfl rfl), later_then h p _ _ _⟩
  | catch_ p f => exact ⟨h.then_ he.2 (.then_ none (some f) rfl rfl rfl), later_then h p _ _ _⟩
  | finally_ p f => exact ⟨h.then_ he.2 (.finally_ f rfl rfl rfl), later_then h p _ _ _⟩
  | combine mode ps => exact h.newTracking mode he.2
  | start p =>
    refine ⟨⟨h.fresh, h.sub_lt, h.sub_ok, h.plain, h.known, fun q hq => ?_, h.nodup.erase p,
      fun j hj => ?_⟩, (Later.refl s).congr rfl rfl⟩
    · exact h.settled q (List.mem_of_mem_erase hq)
    · cases hj
      refine ⟨Option.ne_none_iff_exists'.mp (h.settled p he.2), ?_, Nat.zero_le _, le_rfl, nofun⟩
      exact h.nodup.not_mem_erase
  | advance =>
    obtain ⟨j, hj, ha⟩ := he
    obtain ⟨r, hr⟩ := (h.running j hj).settled
    unfold Action.exec
    rw [hj]
    dsimp only
    rw [hr]
    exact h.advance hj ha hr
  | return_ r =>
    obtain ⟨⟨j, hj, ha⟩, hk⟩ := he
    obtain ⟨hlt, sub, r', f, hs, -, -⟩ := (h.running j hj).waits ha
    unfold Action.exec
    rw [hj]
    dsimp only
    rw [hs]
    refine ⟨(h.resolved (h.sub_lt _ sub (List.mem_of_getElem? hs)) hk).nextSub ?_ hlt,
      (later_resolved s sub.promise r).congr rfl rfl⟩
    rw [State.running_resolved, hj]

theorem Run.inv {ok : State V F → Action V F → Prop} {s₀ : State V F} {es : List (Event V F)}
    (h : Run ok s₀ es s) (hs : Inv s₀) : Inv s ∧ Later s₀ s := by
  induction h with
  | refl => exact ⟨hs, Later.refl s₀⟩
  | step _ a he _ ih =>
    obtain ⟨hi, hl⟩ := ih.1.exec he
    exact ⟨hi, ih.2.trans hl⟩

end Starlight.Promise
