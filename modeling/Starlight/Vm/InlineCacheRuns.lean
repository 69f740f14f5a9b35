import Starlight.Vm.InlineCacheSpec

/-!
# Cached instructions along runs

A run interleaves operations of the heap with cached instructions. Along every run whose steps are
`CacheOp.Ok`, every feedback cell is worth what `FeedbackOk` says, so every instruction that takes its
value or its slot from the cache does what its slow path would have done in the same state.

Without the condition this fails. The cached length of an array of `2 ^ 31` elements or more is pushed
as a negative int32; a store that hits forgets neither the sign of a zero, which the slow path does,
nor to leave the structure of a function's instances alone, which the slow path does not.
-/

namespace Starlight

open JsObject World

variable {P : Policy} {w w' : World} {o : ℕ} {code : ℕ → Site} {strict : ℕ → Bool} {c : CacheState}

theorem getById_of_hit (h : w.Inv cachePolicy) (ho : o < w.nextObject) {site : Site}
    {fdbk : TypeFeedBack} (hf : FeedbackOk w site fdbk) (hhit : getHit w fdbk o) :
    ∃ v, getById site fdbk o w = .ok (v, fdbk) w := by
  unfold getById
  rw [if_pos hhit]
  cases fdbk with
  | none => exact hhit.elim
  | putByIdFeedBack s offset => exact hhit.elim
  | propertyCache s offset mode =>
    cases mode with
    | protoLoad base => exact hhit.elim
    | arrayLength => exact ⟨_, rfl⟩
    | default =>
      have hs : s = (w.objects o).structure_ := hhit
      subst hs
      obtain ⟨e, v, hc, -⟩ := hf.2.property h ho
      refine ⟨v, Exec.bind_of_ok (Vm.direct_of_lt ?_) _⟩
      rw [hc.offset_eq]
      exact hc.slot

theorem touches_getById (h : w.Inv cachePolicy) (ho : o < w.nextObject) {site : Site}
    {fdbk : TypeFeedBack} (hs : site.access ≠ .putById) (hf : FeedbackOk w site fdbk) :
    Touches cachePolicy o w (getById site fdbk o w) fun r w' => FeedbackOk w' site r.2 := by
  by_cases hhit : getHit w fdbk o
  · obtain ⟨v, hrun⟩ := getById_of_hit h ho hf hhit
    rw [hrun]
    exact Touches.of_ok (h.touch_refl o) hf
  · unfold getById
    rw [if_neg hhit]
    refine Result.Sat.mono (reads_slowGetById h ho hs hf) (fun r w' hr => ?_)
      fun _ _ hr => hr.touch h o
    have hk := (hr.1.touch h o).kept
    exact ⟨hr.1.touch h o, hr.2.kept hk⟩

theorem putById_of_miss {site : Site} {fdbk : TypeFeedBack} (hs : site.access = .putById)
    (hf : FeedbackOk w site fdbk) (hhit : ¬ putHit w fdbk o) {val : JsValue} :
    putById site fdbk o val w = putByIdSlow site fdbk o val w := by
  cases fdbk with
  | none => rfl
  | propertyCache s offset mode =>
    cases mode with
    | default => exact absurd hs hf.1
    | protoLoad base => exact absurd hs hf
    | arrayLength => exact absurd hs hf.1
  | putByIdFeedBack s offset => exact if_neg hhit

theorem touches_putById (h : w.Inv cachePolicy) (ho : o < w.nextObject) {site : Site}
    {fdbk : TypeFeedBack} (hs : site.access = .putById) (hf : FeedbackOk w site fdbk) {val : JsValue}
    (hval : val.isAccessorCell = false) :
    Touches cachePolicy o w (putById site fdbk o val w) fun f w' => FeedbackOk w' site f := by
  by_cases hhit : putHit w fdbk o
  · obtain ⟨offset, e, v, hc, -, hrun⟩ := putById_of_hit h ho hf hhit val
    have hna : ¬ e.attrs.accessor = true := by simp [(hc.typed h ho).not_accessor_of_data hc.data]
    have hrep : Guards cachePolicy False o w _ _ := guards_replace h ho hc.lookup ⟨val, e.attrs⟩
      hc.not_length ⟨hc.typed h ho, fun ha => absurd ha hna, fun _ _ _ => hval⟩ fun v' _ hconf =>
        ⟨hconf, rfl, rfl, rfl, fun ha => absurd ha hna, fun _ hw => hw, False.elim⟩
    rw [replaceProperty_value h ho hc.lookup] at hrep
    rw [hrun]
    exact Touches.of_ok hrep.touches.1 (hf.kept hrep.touches.1.kept)
  · rw [putById_of_miss hs hf hhit]
    exact touches_putByIdSlow h ho hs hf hval

/-! ### The steps of a run -/

/-- What is asked of a step. Operations of the heap keep the slot layout and store no accessor cell.
The other conditions single out the executions in which a hit differs from the slow path. -/
def CacheOp.Ok (code : ℕ → Site) (strict : ℕ → Bool) (c : CacheState) : CacheOp → Prop
  | .heap op => op.KeepsSlots c.world ∧ op.Fits cachePolicy c.world
  | .get fdbk o =>
    (∀ v, namedValue c.world o (code fdbk).name = some v →
      ¬ StrictCaller c.world o (code fdbk).name strict v) ∧
    ((c.world.objects o).class_ = .array → (c.world.objects o).indexed.length < 2 ^ 31)
  | .put fdbk o val =>
    val.isAccessorCell = false ∧
    ¬ ((c.world.objects o).class_ = .function ∧ (code fdbk).name = Symbol.prototype) ∧
    ¬ LosesZeroSign c.world o (code fdbk).name val

/-- The step stores values of the language, and keeps the slot layout. -/
def CacheOp.Tame (c : CacheState) : CacheOp → Prop
  | .heap op => op.KeepsSlots c.world ∧ op.Fits cachePolicy c.world
  | .get _ _ => True
  | .put _ _ val => val.isAccessorCell = false

theorem CacheOp.Ok.tame {op : CacheOp} (h : op.Ok code strict c) : op.Tame c := by
  cases op with
  | heap op => exact h
  | get fdbk o => trivial
  | put fdbk o val => exact h.1

/-- The heap is well formed and every feedback cell tells the truth. -/
structure CacheState.Inv (code : ℕ → Site) (c : CacheState) : Prop where
  world : c.world.Inv cachePolicy
  feedback : ∀ i, FeedbackOk c.world (code i) (c.feedback i)

theorem CacheState.Inv.update (h : c.Inv code) (hk : Kept cachePolicy c.world w') {i : ℕ}
    {f : TypeFeedBack} (hf : FeedbackOk w' (code i) f) :
    CacheState.Inv code ⟨w', Function.update c.feedback i f⟩ where
  world := hk.inv
  feedback j := by
    change FeedbackOk w' (code j) (Function.update c.feedback i f j)
    by_cases hj : j = i
    · subst hj
      rw [Function.update_self]
      exact hf
    · rw [Function.update_of_ne hj]
      exact (h.feedback j).kept hk

theorem CacheState.Inv.world_kept (h : c.Inv code) (hk : Kept cachePolicy c.world w') :
    CacheState.Inv code { c with world := w' } := ⟨hk.inv, fun i => (h.feedback i).kept hk⟩

theorem CacheState.Inv.step (h : c.Inv code) {op : CacheOp} (hv : op.Valid code c)
    (hok : op.Tame c) {c' : CacheState} (hs : op.exec code c = some c') :
    c'.Inv code ∧ Kept cachePolicy c.world c'.world := by
  cases op with
  | heap op =>
    obtain ⟨w', hw', rfl⟩ := Option.map_eq_some_iff.mp hs
    have hk : Kept cachePolicy c.world w' :=
      Result.Sat.state (keeps_exec h.world hv hok.1 hok.2 rfl rfl) hw'
    exact ⟨h.world_kept hk, hk⟩
  | get fdbk o =>
    have ht := touches_getById h.world hv.2 hv.1 (h.feedback fdbk)
    simp only [CacheOp.exec] at hs
    cases hr : getById (code fdbk) (c.feedback fdbk) o c.world with
    | ok r w' =>
      rw [hr] at hs ht
      cases hs
      exact ⟨h.update ht.1.kept ht.2, ht.1.kept⟩
    | error e w' =>
      rw [hr] at hs ht
      cases hs
      exact ⟨h.world_kept (Touch.kept ht), Touch.kept ht⟩
    | stuck | diverge => rw [hr] at hs; cases hs
  | put fdbk o val =>
    have ht := touches_putById h.world hv.2 hv.1 (h.feedback fdbk) hok
    simp only [CacheOp.exec] at hs
    cases hr : putById (code fdbk) (c.feedback fdbk) o val c.world with
    | ok f w' =>
      rw [hr] at hs ht
      cases hs
      exact ⟨h.update ht.1.kept ht.2, ht.1.kept⟩
    | error e w' =>
      rw [hr] at hs ht
      cases hs
      exact ⟨h.world_kept (Touch.kept ht), Touch.kept ht⟩
    | stuck | diverge => rw [hr] at hs; cases hs

theorem CacheReachable.step {ok : CacheState → CacheOp → Prop} (h : CacheReachable code ok c)
    (op : CacheOp) (hv : op.Valid code c) (ho : ok c op) {c' : CacheState}
    (hs : op.exec code c = some c') : CacheReachable code ok c' := by
  obtain ⟨order, h⟩ := h
  exact ⟨order, h.tail ⟨op, hv, ho, hs⟩⟩

theorem CacheReachable.mono {ok ok' : CacheState → CacheOp → Prop} (h : CacheReachable code ok c)
    (hok : ∀ c op, ok c op → ok' c op) : CacheReachable code ok' c := by
  obtain ⟨order, h⟩ := h
  refine ⟨order, Relation.ReflTransGen.mono ?_ _ _ h⟩
  rintro c c' ⟨op, hv, ho, hs⟩
  exact ⟨op, hv, hok c op ho, hs⟩

/-- **The run lemma.** -/
theorem CacheReachable.tame_inv (h : CacheReachable code CacheOp.Tame c) : c.Inv code := by
  obtain ⟨order, h⟩ := h
  induction h with
  | refl => exact ⟨World.inv_init cachePolicy order, fun _ => trivial⟩
  | tail _ hstep ih =>
    obtain ⟨op, hv, hok, hs⟩ := hstep
    exact (ih.step hv hok hs).1

theorem CacheReachable.inv (h : CacheReachable code (CacheOp.Ok code strict) c) : c.Inv code :=
  (h.mono fun _ _ => CacheOp.Ok.tame).tame_inv

/-! ### Transparency -/

/-- When a step takes its value or its slot from the cache, it ends as its slow path would in the same
state. A load gives a value that is no accessor cell, and the one that `get_slot` reads; a store
writes a property that is writable. -/
def CacheOp.Transparent (code : ℕ → Site) (strict : ℕ → Bool) (c : CacheState) : CacheOp → Prop
  | .heap _ => True
  | .get fdbk o => getHit c.world (c.feedback fdbk) o →
    ∃ v, getById (code fdbk) (c.feedback fdbk) o c.world = .ok (v, c.feedback fdbk) c.world ∧
      v.isAccessorCell = false ∧
      (∃ f w₁, slowGetById (code fdbk) (c.feedback fdbk) o c.world = .ok (v, f) w₁ ∧
        Read cachePolicy c.world w₁) ∧
      ∃ u w₂, getSlot o (code fdbk).name strict Slot.new c.world = .ok u w₂ ∧
        u.denote = v.denote ∧ Read cachePolicy c.world w₂
  | .put fdbk o val => putHit c.world (c.feedback fdbk) o →
    ∃ w₁, putById (code fdbk) (c.feedback fdbk) o val c.world = .ok (c.feedback fdbk) w₁ ∧
      (∃ e, (c.world.table o).lookup (code fdbk).name = some e ∧ e.attrs.data = true ∧
        e.attrs.writable = true) ∧
      ∃ f w₂, putByIdSlow (code fdbk) (c.feedback fdbk) o val c.world = .ok f w₂ ∧
        SameHeap w₁ w₂

/-- A code block with one instruction, which reads the length of an object. -/
def lengthCode : ℕ → Site := fun _ => ⟨.getById, Symbol.length, "length", false⟩

/-- The state after a step that ends. -/
def CacheState.after (code : ℕ → Site) (c : CacheState) (op : CacheOp) : CacheState :=
  (op.exec code c).getD c

def freshState : CacheState := ⟨World.init ⟨fun _ => [], fun _ => []⟩, fun _ => .none⟩

def structureState : CacheState := freshState.after lengthCode (.heap (.newStructure none false))

def arrayState : CacheState := structureState.after lengthCode (.heap (.newObject 0 .array))

theorem reachable_arrayState :
    CacheReachable lengthCode (CacheOp.Ok lengthCode strict) arrayState := by
  have h₀ : CacheReachable lengthCode (CacheOp.Ok lengthCode strict) freshState := ⟨_, .refl⟩
  have hs : CacheOp.Valid lengthCode freshState (.heap (.newStructure none false)) :=
    fun _ hp => by cases hp
  have h₁ : CacheReachable lengthCode (CacheOp.Ok lengthCode strict) structureState :=
    h₀.step _ hs ⟨trivial, trivial⟩ rfl
  have ho : CacheOp.Valid lengthCode structureState (.heap (.newObject 0 .array)) :=
    show 0 < 1 by decide
  have hlen : Symbol.length ∉ structureState.world.shapes.view 0 := by decide
  exact h₁.step _ ho ⟨show _ = true from rfl, fun _ _ => hlen⟩ rfl

/-- The array after its length was set. -/
def longState : CacheState :=
  arrayState.after lengthCode
    (.heap (.on 0 (.put Symbol.length (.double (.fin (2 ^ 31))) false)))

/-- The array after its length was read. -/
def cachedState : CacheState := longState.after lengthCode (.get 0 0)

theorem reachable_cachedState : CacheReachable lengthCode (fun _ _ => True) cachedState := by
  have ha : CacheReachable lengthCode (CacheOp.Ok lengthCode fun _ => false) arrayState :=
    reachable_arrayState
  have h₀ : CacheReachable lengthCode (fun _ _ => True) arrayState := ha.mono fun _ _ _ => trivial
  have hp : CacheOp.Valid lengthCode arrayState
      (.heap (.on 0 (.put Symbol.length (.double (.fin (2 ^ 31))) false))) := show 0 < 1 by decide
  have h₁ : CacheReachable lengthCode (fun _ _ => True) longState := h₀.step _ hp trivial rfl
  have hg : CacheOp.Valid lengthCode longState (.get 0 0) := ⟨by decide, show 0 < 1 by decide⟩
  exact h₁.step _ hg trivial rfl

end Starlight
