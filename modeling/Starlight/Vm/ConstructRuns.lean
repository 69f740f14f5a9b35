import Starlight.Vm.ConstructMap

/-!
# Runs of a function

A function is written, redefined, deleted from, read and constructed with, in any order.
-/

namespace Starlight

open JsObject World

variable {code : ℕ → Site} {c c' : CacheState} {f objectPrototype : ℕ} {w w' : World}

def ObjectOp.OnPrototype : ObjectOp → Prop
  | .get name _ => name = Symbol.prototype
  | .getOwnProperty name => name = Symbol.prototype
  | .put name _ _ => name = Symbol.prototype
  | .define name _ _ => name = Symbol.prototype
  | .delete name _ => name = Symbol.prototype
  | _ => False

/-- The writes, redefinitions, deletions and reads of `f.prototype`. -/
def CacheOp.OnPrototype (code : ℕ → Site) (f : ℕ) : CacheOp → Prop
  | .heap (.on o op) => o = f ∧ op.OnPrototype
  | .heap _ => False
  | .get fdbk o => o = f ∧ (code fdbk).name = Symbol.prototype
  | .put fdbk o _ => o = f ∧ (code fdbk).name = Symbol.prototype

/-- A step of a run of a function. -/
inductive FunctionOp where
  | access (op : CacheOp)
  | construct

/-- What a step leaves behind; `none` when it does not end. -/
def FunctionOp.exec (code : ℕ → Site) (objectPrototype f : ℕ) (c : CacheState) :
    FunctionOp → Option CacheState
  | .access op => op.exec code c
  | .construct => ((funcConstructMap objectPrototype f c.world).state?).map fun w =>
    { c with world := w }

/-- The step is about `f.prototype`, and its values name existing cells. -/
def FunctionOp.Valid (code : ℕ → Site) (objectPrototype f : ℕ) (c : CacheState) :
    FunctionOp → Prop
  | .access op => op.OnPrototype code f ∧ op.Valid code c ∧ op.Tame c
  | .construct => PrototypeExists objectPrototype f c.world

/-- The step does not change the property behind the kept structure: a cached store writes a value
that asks for the same prototype, and a deletion is refused. -/
def FunctionOp.Fresh (objectPrototype f : ℕ) (c : CacheState) : FunctionOp → Prop
  | .access (.put fdbk _ val) => putHit c.world (c.feedback fdbk) f →
    ∀ t, (c.world.objects f).constructStruct = some t →
      (c.world.shapes.structures t).prototype = some (val.objectOr objectPrototype)
  | .access (.heap (.on _ (.delete _ _))) => (c.world.objects f).constructStruct = none ∨
    ∀ e, (c.world.table f).lookup Symbol.prototype = some e → e.attrs.configurable = false
  | _ => True

def FunctionRun (code : ℕ → Site) (objectPrototype f : ℕ) (ok : CacheState → FunctionOp → Prop)
    (c c' : CacheState) : Prop :=
  Relation.ReflTransGen (fun c c' => ∃ op : FunctionOp, op.Valid code objectPrototype f c ∧
    ok c op ∧ op.exec code objectPrototype f c = some c') c c'

/-- A construction finds a structure whose prototype is the current `prototype` of the function, when
that is an object, and `Object.prototype` otherwise. -/
def MapIsFresh (objectPrototype f : ℕ) (w : World) : Prop :=
  ∀ t w', funcConstructMap objectPrototype f w = .ok t w' → ∃ v w₁, readPrototype f w = .ok v w₁ ∧
    (w'.shapes.structures t).prototype = some (v.objectOr objectPrototype)

/-- What holds in every state of a run. -/
structure FunctionInv (code : ℕ → Site) (objectPrototype f : ℕ) (c : CacheState) : Prop where
  cache : c.Inv code
  lt : f < c.world.nextObject
  function : (c.world.objects f).class_ = .function
  fresh : FreshMap objectPrototype f c.world

theorem FunctionInv.next (h : FunctionInv code objectPrototype f c) (hc : c'.Inv code)
    (hk : Kept cachePolicy c.world c'.world) (hfresh : FreshMap objectPrototype f c'.world) :
    FunctionInv code objectPrototype f c' :=
  ⟨hc, lt_of_lt_of_le h.lt hk.nextObject_le, (hk.class_eq f h.lt).trans h.function, hfresh⟩

theorem FunctionInv.fresh_of_settles {α : Type} {r : Result Fault World α}
    (h : FunctionInv code objectPrototype f c) (hr : Settles f c.world r)
    (hs : r.state? = some w') : FreshMap objectPrototype f w' := by
  rcases hr.state hs with hread | hno
  · exact h.fresh.read h.cache.world h.lt hread
  · exact hno.fresh

theorem Settles.drop {α : Type} {x : Vm α} (h : Settles f w (x w)) :
    Settles f w ((do let _ ← x : Vm Unit) w) :=
  Exec.leaves_bind h fun _ _ _ h' => h'

/-! ### Steps -/

theorem settles_exec {op : ObjectOp} (h : FunctionInv code objectPrototype f c)
    (hop : op.OnPrototype)
    (hok : FunctionOp.Fresh objectPrototype f c (.access (.heap (.on f op)))) :
    Settles f c.world (op.exec f c.world) := by
  have hw := h.cache.world
  cases op with
  | get name strict =>
    obtain rfl : name = Symbol.prototype := hop
    exact .drop (reads_getSlot hw h.lt _ strict).settles
  | getOwnProperty name =>
    obtain rfl : name = Symbol.prototype := hop
    exact .drop (reads_getOwnProperty hw h.lt _).settles
  | put name val throwable =>
    obtain rfl : name = Symbol.prototype := hop
    exact .drop (settles_putSlot hw h.lt h.function val throwable)
  | define name desc throwable =>
    obtain rfl : name = Symbol.prototype := hop
    exact .drop (.of_noMap (noMap_define h.function desc throwable))
  | delete name throwable =>
    obtain rfl : name = Symbol.prototype := hop
    refine .drop (settles_delete hw h.lt h.function throwable ?_)
    cases hmap : (c.world.objects f).constructStruct with
    | none => exact .inl hmap
    | some t =>
      obtain ⟨-, e, v, hc, -⟩ := h.fresh t hmap
      refine .inr ⟨e, v, hc, ?_⟩
      -- a kept structure stands for a property that cannot be configured
      rcases hok with hno | hconf
      · rw [hmap] at hno
        cases hno
      · exact hconf e hc.lookup
  | _ => exact hop.elim

theorem getById_settles (h : FunctionInv code objectPrototype f c) {fdbk : ℕ}
    (ha : (code fdbk).access ≠ .putById) :
    Settles f c.world (getById (code fdbk) (c.feedback fdbk) f c.world) := by
  by_cases hhit : getHit c.world (c.feedback fdbk) f
  · obtain ⟨v, hrun⟩ := getById_of_hit h.cache.world h.lt (h.cache.feedback fdbk) hhit
    rw [hrun]
    exact .inl h.cache.world.read_refl
  · unfold getById
    rw [if_neg hhit]
    exact (reads_slowGetById h.cache.world h.lt ha (h.cache.feedback fdbk)).settles

theorem fresh_written (h : FunctionInv code objectPrototype f c) {e : MapEntry} {v val : JsValue}
    {offset : Option ℕ} (hc : CachedProperty c.world f Symbol.prototype offset e v)
    (hval : ∀ t, (c.world.objects f).constructStruct = some t →
      (c.world.shapes.structures t).prototype = some (val.objectOr objectPrototype)) :
    FreshMap objectPrototype f (c.world.written f e val) := by
  have hobj : (c.world.written f e val).objects f =
      { c.world.objects f with slots := (c.world.objects f).slots.set e.offset val } :=
    Function.update_self _ _ _
  intro t ht
  rw [hobj] at ht
  refine ⟨(h.fresh t ht).1, e, val, ⟨hc.not_index, rfl, ?_, ?_, hc.data, ?_⟩, hval t ht⟩
  · rw [World.written, World.table_stored]
    exact hc.lookup
  · rw [hobj]
    exact List.getElem?_set_self (h.cache.world.offset_lt h.lt hc.lookup)
  · rw [hobj]
    exact hc.not_length

theorem settles_putByIdSlow (h : FunctionInv code objectPrototype f c) {site : Site}
    (hname : site.name = Symbol.prototype) (fdbk : TypeFeedBack) (val : JsValue) :
    Settles f c.world (putByIdSlow site fdbk f val c.world) := by
  unfold putByIdSlow
  rw [hname]
  refine Exec.leaves_bind (settles_putSlot h.cache.world h.lt h.function val site.strict) ?_
  intro slot w₁ _ hw₁
  rw [Vm.object_bind]
  split <;> exact hw₁

theorem FunctionInv.step (h : FunctionInv code objectPrototype f c) {op : FunctionOp}
    (hv : op.Valid code objectPrototype f c) (hok : op.Fresh objectPrototype f c)
    (hs : op.exec code objectPrototype f c = some c') :
    FunctionInv code objectPrototype f c' := by
  cases op with
  | construct =>
    obtain ⟨w', hw', rfl⟩ := Option.map_eq_some_iff.mp hs
    -- a construction may end with a fault, but not without having kept the invariant
    have hspec := funcConstructMap_spec h.cache.world h.lt h.function h.fresh hv
    have hsat : (funcConstructMap objectPrototype f c.world).Sat
        (fun _ w' => Kept cachePolicy c.world w' ∧ FreshMap objectPrototype f w')
        fun _ w' => Kept cachePolicy c.world w' ∧ FreshMap objectPrototype f w' :=
      hspec.mono (fun _ _ hc => ⟨hc.kept, hc.fresh⟩) fun _ _ hr =>
        ⟨(hr.touch h.cache.world f).kept, h.fresh.read h.cache.world h.lt hr⟩
    have hw := hsat.state hw'
    exact h.next (h.cache.world_kept hw.1) hw.1 hw.2
  | access op =>
    obtain ⟨hon, hvalid, htame⟩ := hv
    obtain ⟨hinv, hk⟩ := h.cache.step hvalid htame hs
    refine h.next hinv hk ?_
    cases op with
    | heap op =>
      obtain ⟨w', hw', rfl⟩ := Option.map_eq_some_iff.mp hs
      cases op with
      | on o op =>
        obtain ⟨rfl, hop⟩ := hon
        exact h.fresh_of_settles (settles_exec h hop hok) hw'
      | _ => exact hon.elim
    | get fdbk o =>
      obtain ⟨rfl, -⟩ := hon
      have hset := getById_settles h hvalid.1
      simp only [FunctionOp.exec, CacheOp.exec] at hs
      cases hr : getById (code fdbk) (c.feedback fdbk) o c.world with
      | ok r w' | error e w' =>
        rw [hr] at hs hset
        cases hs
        exact h.fresh_of_settles hset rfl
      | stuck | diverge => rw [hr] at hs; cases hs
    | put fdbk o val =>
      obtain ⟨rfl, hname⟩ := hon
      simp only [FunctionOp.exec, CacheOp.exec] at hs
      by_cases hhit : putHit c.world (c.feedback fdbk) o
      · -- a hit writes the slot behind the back of `define_own`: this is where the condition is used
        obtain ⟨offset, e, v, hc, -, hrun⟩ :=
          putById_of_hit h.cache.world h.lt (h.cache.feedback fdbk) hhit val
        rw [hname] at hc
        rw [hrun] at hs
        cases hs
        exact fresh_written h hc (hok hhit)
      · -- a miss is an ordinary assignment
        have hset := settles_putByIdSlow h hname (c.feedback fdbk) val
        rw [← putById_of_miss hvalid.1 (h.cache.feedback fdbk) hhit] at hset
        cases hr : putById (code fdbk) (c.feedback fdbk) o val c.world with
        | ok fdbk' w' | error e w' =>
          rw [hr] at hs hset
          cases hs
          exact h.fresh_of_settles hset rfl
        | stuck | diverge => rw [hr] at hs; cases hs

/-! ### Runs -/

theorem FunctionInv.run (h : FunctionInv code objectPrototype f c)
    (hrun : FunctionRun code objectPrototype f (FunctionOp.Fresh objectPrototype f) c c') :
    FunctionInv code objectPrototype f c' := by
  induction hrun with
  | refl => exact h
  | tail _ hstep ih =>
    obtain ⟨op, hv, hok, hs⟩ := hstep
    exact ih.step hv hok hs

/-- A code block with one instruction, which stores to `prototype`. -/
def prototypeCode : ℕ → Site := fun _ => ⟨.putById, Symbol.prototype, "prototype", false⟩

/-- `Object.prototype`, a function with the property `prototype`, and one more object. -/
def functionState : CacheState :=
  [.newStructure none false, .newObject 0 .object, .newObject 0 .function, .newObject 0 .object,
    .on 1 (.define Symbol.prototype (.dataDescriptor (.object 0) { writable := true }) false)].foldl
    (fun c op => c.after prototypeCode (.heap op)) freshState

/-- The function after a store that took the slow path. -/
def storedState : CacheState := functionState.after prototypeCode (.put 0 1 (.object 2))

def CacheState.constructed (c : CacheState) : CacheState :=
  (FunctionOp.exec prototypeCode 0 1 c .construct).getD c

/-- The function after a store that hits the cache. -/
def staleState : CacheState := storedState.constructed.after prototypeCode (.put 0 1 (.object 0))

theorem reachable_functionState : CacheReachable prototypeCode CacheOp.Tame functionState := by
  have step : ∀ {c : CacheState} (op : Op) (c' : CacheState),
      CacheReachable prototypeCode CacheOp.Tame c → op.Valid c.world → op.KeepsSlots c.world →
      op.Fits cachePolicy c.world → (CacheOp.heap op).exec prototypeCode c = some c' →
      CacheReachable prototypeCode CacheOp.Tame c' :=
    fun op c' h hv hk hf hs => h.step (.heap op) hv ⟨hk, hf⟩ hs
  have h₀ : CacheReachable prototypeCode CacheOp.Tame freshState := ⟨_, .refl⟩
  have h₁ := step (.newStructure none false) _ h₀ nofun trivial trivial rfl
  have h₂ := step (.newObject 0 .object) _ h₁ (show 0 < 1 by decide) rfl (fun _ h => h.elim) rfl
  have h₃ := step (.newObject 0 .function) _ h₂ (show 0 < 1 by decide) rfl (fun _ h => h.elim) rfl
  have h₄ := step (.newObject 0 .object) _ h₃ (show 0 < 1 by decide) rfl (fun _ h => h.elim) rfl
  exact step (.on 1 (.define Symbol.prototype (.dataDescriptor (.object 0) { writable := true })
    false)) functionState h₄ (show 1 < 3 by decide) (fun h => h.1.elim) (.of_value rfl rfl) rfl

theorem prototypeExists_of_ok {v : JsValue} {w₁ : World} (h : readPrototype f w = .ok v w₁)
    (hlt : v.objectOr objectPrototype < w.nextObject) : PrototypeExists objectPrototype f w := by
  intro v' w' h'
  rw [h] at h'
  cases h'
  exact hlt

end Starlight
