import Starlight.Vm.ExtensibilitySpec

/-!
# Keys of objects that are not extensible, along runs

Runs of the heap in which programs also assign by `OP_PUT_BY_VAL`. Once an object takes no new
properties, its own keys only get fewer, along every run whose steps keep unique structures with their
objects and neither write to its dense vector nor raise its length over what its map still holds.

Both kinds of step give it keys. Deleting the last element makes the elements dense again, and the dense
paths do not ask whether the object is extensible. Lowering the length of an array leaves elements in the
map beyond it, and raising it again uncovers them.
-/

namespace Starlight

open JsObject World IndexedElements

variable {w w' w'' : World} {o : ℕ}

/-! ### Assignment by value -/

/-- The index that `OP_PUT_BY_VAL` takes a number for: `get_int32() as u32` or `floor() as u32`. -/
def byValIndex : JsValue → Option ℕ
  | .int32 i => some i.toNat
  | .double d => some d.toU32
  | _ => none

def inVector (ix : IndexedElements) (key : JsValue) : Option ℕ :=
  (byValIndex key).filter fun index => ix.dense && index < ix.vector.length

def putByVal (o : ℕ) (key : JsValue) (name : Symbol) (val : JsValue) (strict : Bool) : Vm Unit := do
  let obj ← Vm.object o
  match inVector obj.indexed key with
  | some index => modifyIndexed o fun ix => { ix with vector := ix.vector.set index val }
  | none => put o name val strict

/-- An operation on the heap, or an assignment by value. -/
inductive KeyOp where
  | heap (op : Op)
  | putByVal (o : ℕ) (key : JsValue) (name : Symbol) (val : JsValue) (strict : Bool)

namespace KeyOp

def exec : KeyOp → Vm Unit
  | heap op => op.exec
  | putByVal o key name val strict => Starlight.putByVal o key name val strict

def Valid (w : World) : KeyOp → Prop
  | heap op => op.Valid w
  | putByVal o _ _ _ _ => o < w.nextObject

def KeepsSlots (w : World) : KeyOp → Prop
  | heap op => op.KeepsSlots w
  | putByVal _ _ _ _ _ => True

end KeyOp

def ObjectOp.KeepsKeys (w : World) (o : ℕ) : ObjectOp → Prop
  | .put name val _ => PutKeeps w o name val
  | .define name desc _ => DefineKeeps w o name desc
  | .defineLengthTo _ newLen _ => ¬ Revives w o newLen
  | .changeExtensible val => val = false
  | _ => True

/-- The steps that give object `o` no key once it is not extensible: all steps on other objects, and
those on `o` that neither write to the dense vector nor uncover an element. -/
def KeyOp.KeepsKeys (w : World) (o : ℕ) : KeyOp → Prop
  | .heap (.on b op) => b = o → op.KeepsKeys w o
  | .heap _ => True
  | .putByVal b key name val _ =>
    b = o → inVector (w.objects o).indexed key = none ∧ PutKeeps w o name val

/-- Assignment, definition, deletion, assignment by value and assignment of an array's length. -/
def KeyOp.IsMutation : KeyOp → Prop
  | .heap (.on _ (.put _ _ _)) => True
  | .heap (.on _ (.define _ _ _)) => True
  | .heap (.on _ (.defineLengthTo _ _ _)) => True
  | .heap (.on _ (.delete _ _)) => True
  | .putByVal _ _ _ _ _ => True
  | _ => False

/-- One step of a run, whose operation satisfies `ok`. -/
def KeyStep (ok : World → KeyOp → Prop) (w w' : World) : Prop :=
  ∃ op : KeyOp, op.Valid w ∧ ok w op ∧ (op.exec w).state? = some w'

/-- The heaps that such runs reach. -/
def KeyReachable (ok : World → KeyOp → Prop) (w : World) : Prop :=
  ∃ order, Relation.ReflTransGen (KeyStep ok) (World.init order) w

/-! ### One step -/

theorem touches_putByVal (h : w.Inv layoutPolicy) (ho : o < w.nextObject) (key : JsValue)
    (name : Symbol) (val : JsValue) (strict : Bool) :
    Touches layoutPolicy o w (putByVal o key name val strict w) fun _ _ => True := by
  unfold putByVal
  rw [Vm.object_bind]
  cases inVector (w.objects o).indexed key with
  | some index =>
    have hg : Guards layoutPolicy False o w (modifyIndexed o (fun ix =>
        { ix with vector := ix.vector.set index val }) w) fun _ _ => True :=
      guards_modifyIndexed_le h ho fun ix => sparseLe_of_map_eq rfl
    exact hg.touches
  | none =>
    have hg : Guards layoutPolicy False o w (put o name val strict w) fun _ _ => True :=
      guards_put h ho strict trivial trivial
    exact hg.touches

theorem keeps_keyOp (h : w.Inv layoutPolicy) {op : KeyOp} (hv : op.Valid w) (hk : op.KeepsSlots w) :
    Keeps layoutPolicy w (op.exec w) := by
  cases op with
  | heap op => exact keeps_exec h hv hk (op.fits_layoutPolicy w) trivial trivial
  | putByVal b key name val strict => exact (touches_putByVal h hv key name val strict).keeps

theorem World.SameObject.shrinks (h : SameObject w w' o) : Shrinks o w w' :=
  .of_same (by rw [h.object]) (by rw [h.object]) h.table

theorem shuts_objectOp (h : Closed w o) {op : ObjectOp} (hv : (Op.on o op).Valid w)
    (hk : op.KeepsKeys w o) : Shuts o w (op.exec o w) fun _ _ => True := by
  cases op with
  | get name strict => exact ((reads_getSlot h.inv h.lt name strict).shuts h).drop
  | getOwnProperty name => exact ((reads_getOwnProperty h.inv h.lt name).shuts h).drop
  | getOwnPropertyNames all => exact ((reads_getOwnPropertyNames h.inv h.lt all).shuts h).drop
  | put name val throwable => exact shuts_put h throwable hk
  | define name desc throwable => exact (shuts_defineOwnProperty h throwable hk).drop
  | defineLengthTo desc newLen throwable => exact (shuts_defineLengthTo h desc newLen _ hk).drop
  | delete name throwable => exact (shuts_delete h name throwable).drop
  | changeExtensible val =>
    obtain rfl : val = false := hk
    exact shuts_changeExtensible h
  | changePrototype prototype => exact shuts_transition (guards_changePrototype h.inv h.lt hv.2)
  | changeIndexed =>
    obtain ⟨ht, htgt⟩ := h.inv.shapes.changeIndexedTransition (h.inv.live h.lt)
    exact shuts_transition (guards_transition h.inv h.lt _ rfl ht htgt fun p hp =>
      h.inv.prototype_lt h.lt hp)
  | freeze => exact (shuts_integrity h keepsValue_frozen).drop
  | seal_ => exact (shuts_integrity h keepsValue_sealed).drop

theorem shuts_putByVal (h : Closed w o) {key : JsValue} {name : Symbol} {val : JsValue}
    (strict : Bool) (hkey : inVector (w.objects o).indexed key = none)
    (hk : PutKeeps w o name val) :
    Shuts o w (putByVal o key name val strict w) fun _ _ => True := by
  unfold putByVal
  rw [Vm.object_bind, hkey]
  exact shuts_put h strict hk

/-- **The step lemma.** -/
theorem shrinks_exec (h : Closed w o) {op : KeyOp} (hv : op.Valid w) (hs : op.KeepsSlots w)
    (hk : op.KeepsKeys w o) :
    (op.exec w).Sat (fun _ w' => Shrinks o w w') fun _ w' => Shrinks o w w' := by
  have own : ∀ {r : Result Fault World Unit} {R : Unit → World → Prop}, Shuts o w r R →
      r.Sat (fun _ w' => Shrinks o w w') fun _ w' => Shrinks o w w' := fun hr =>
    Result.Sat.mono hr (fun _ _ ha => ha.1.toShrinks) fun _ _ he => he.toShrinks
  have other : ∀ {b} {r : Result Fault World Unit} {R : Unit → World → Prop}, o ≠ b →
      Touches layoutPolicy b w r R →
      r.Sat (fun _ w' => Shrinks o w w') fun _ w' => Shrinks o w w' := fun hb hr =>
    Result.Sat.mono hr (fun _ _ ha => (ha.1.frame o h.lt hb).shrinks)
      fun _ _ he => (he.frame o h.lt hb).shrinks
  have grow : ∀ {r : Result Fault World Unit} {R : Unit → World → Prop}, Grows layoutPolicy w r R →
      r.Sat (fun _ w' => Shrinks o w w') fun _ w' => Shrinks o w w' := fun hg =>
    Result.Sat.mono hg (fun _ _ ha => (ha.1.frame o h.lt).shrinks)
      fun _ _ he => (he.frame o h.lt).shrinks
  cases op with
  | putByVal b key name val strict =>
    by_cases hb : o = b
    · subst hb
      exact own (shuts_putByVal h strict (hk rfl).1 (hk rfl).2)
    · exact other hb (touches_putByVal h.inv hv key name val strict)
  | heap op =>
    have hfits := op.fits_layoutPolicy w
    cases op with
    | newStructure prototype indexed =>
      exact ((h.inv.grow_newStructure hv indexed).frame o h.lt).shrinks
    | newObject s class_ => exact grow (grows_newObject h.inv trivial hv hs hfits).drop
    | newUniqueObject prototype indexed class_ =>
      exact grow (grows_newUniqueObject h.inv trivial hv indexed)
    | newFromPoint map class_ =>
      change Result.Sat ((Op.newFromPoint map class_).exec w) _ _
      rw [newFromPoint_exec hs]
      exact grow (grows_newObject h.inv trivial hv hs hfits).drop
    | copy source => exact grow (grows_copy h.inv hv trivial trivial hs.1 hs.2).drop
    | on b op =>
      by_cases hb : o = b
      · subst hb
        exact own (shuts_objectOp h hv (hk rfl))
      · exact other hb (touches_exec h.inv hv hs hfits trivial)
    | clearTransition s key => exact ((h.inv.read_clearTransition s key hv).shut h.inv h.lt).toShrinks
    | rehash order => exact ((h.inv.read_rehash order).shut h.inv h.lt).toShrinks

/-! ### Runs -/

theorem KeyReachable.inv (h : KeyReachable (fun w op => op.KeepsSlots w) w) : w.Inv layoutPolicy := by
  obtain ⟨order, hrun⟩ := h
  induction hrun with
  | refl => exact World.inv_init layoutPolicy order
  | tail _ hstep ih =>
    obtain ⟨op, hv, hk, hs⟩ := hstep
    exact (Result.Sat.state (keeps_keyOp ih hv hk) hs).inv

theorem KeyReachable.step {ok : World → KeyOp → Prop} (h : KeyReachable ok w) (op : KeyOp)
    (hv : op.Valid w) (hok : ok w op) (hs : (op.exec w).state? = some w') : KeyReachable ok w' := by
  obtain ⟨order, hrun⟩ := h
  exact ⟨order, hrun.tail ⟨op, hv, hok, hs⟩⟩

/-- The steps after which a closed object is as in `own_keys_shrink`. -/
def KeyOp.Shrinking (o : ℕ) (w : World) (op : KeyOp) : Prop := op.KeepsSlots w ∧ op.KeepsKeys w o

theorem closed_run (h : Closed w o)
    (hrun : Relation.ReflTransGen (KeyStep fun w op => op.Shrinking o w) w w') :
    Closed w' o ∧ Shrinks o w w' ∧ (w'.objects o).class_ = (w.objects o).class_ := by
  induction hrun with
  | refl => exact ⟨h, h.shut_refl.toShrinks, rfl⟩
  | tail _ hstep ih =>
    obtain ⟨hc, hshr, hcl⟩ := ih
    obtain ⟨op, hv, ⟨hslots, hkeys⟩, hs⟩ := hstep
    have hk := Result.Sat.state (keeps_keyOp hc.inv hv hslots) hs
    have hshr' := Result.Sat.state (shrinks_exec hc hv hslots hkeys) hs
    exact ⟨hc.kept hk hshr', hshr.trans hshr', (hk.class_eq o hc.lt).trans hcl⟩

theorem Closed.owns_of_shrinks (h : Closed w o) (h' : Closed w' o) (hs : Shrinks o w w')
    (hcl : (w'.objects o).class_ = (w.objects o).class_) {name : Symbol} (hown : Owns w' o name) :
    Owns w o name := by
  have named : (∀ i, name ≠ .index i) → Owns w o name := by
    intro hname
    rw [h'.owns_named hname, hcl] at hown
    exact (h.owns_named hname).mpr (hown.imp_left (hs.named name))
  cases name with
  | index i => exact (h.owns_index i).mpr (hs.element h.emptied i ((h'.owns_index i).mp hown))
  | key t | priv t => exact named (by simp)

/-- How an object comes to take no new properties. -/
def PreventsExtensions (o : ℕ) (w w' : World) : Prop :=
  changeExtensible o false w = .ok () w' ∨ freeze o w = .ok true w' ∨ seal_ o w = .ok true w'

theorem PreventsExtensions.closed (h : PreventsExtensions o w w') (hw : w.Inv layoutPolicy)
    (ho : o < w.nextObject) (hp : ¬ isString (w.objects o).class_) : Closed w' o := by
  have key : ∀ {α : Type} {a : α} {r : Result Fault World α}, r = .ok a w' →
      Guards layoutPolicy False o w r (fun _ w' =>
        (w'.objects o).extensible = false ∧ (w'.objects o).indexed.Emptied) →
      Guard layoutPolicy False o w w' ∧
        (w'.objects o).extensible = false ∧ (w'.objects o).indexed.Emptied := by
    rintro _ _ _ rfl hg
    exact hg
  obtain ⟨hg, hext, he⟩ : Guard layoutPolicy False o w w' ∧
      (w'.objects o).extensible = false ∧ (w'.objects o).indexed.Emptied := by
    rcases h with h | h | h
    · exact key h (guards_changeExtensible hw ho false)
    · exact key h (guards_freeze hw ho trivial hp)
    · exact key h (guards_seal hw ho trivial hp)
  exact ⟨hg.inv, hg.nextObject ▸ ho, hext, he, by rw [hg.class_eq o]; exact hp⟩

/-- An object with one element. -/
def elementWorld : World := objectWorld.after (.on 0 (.put (.index 0) .null false))

/-- The object takes no new properties. -/
def preventedWorld : World := elementWorld.after (.on 0 (.changeExtensible false))

/-- The element is written once more. -/
def rewrittenWorld : World := preventedWorld.after (.on 0 (.put (.index 0) .undefined false))

/-- The element is deleted. -/
def reopenedWorld : World := preventedWorld.after (.on 0 (.delete (.index 0) false))

/-- Another element is added. -/
def refilledWorld : World := reopenedWorld.after (.on 0 (.put (.index 1) .null false))

theorem keyReachable_elementWorld : KeyReachable (fun w op => op.KeepsSlots w) elementWorld := by
  have h₀ : KeyReachable (fun w op => op.KeepsSlots w) (World.init ⟨fun _ => [], fun _ => []⟩) :=
    ⟨_, .refl⟩
  have h₁ := h₀.step (.heap (.newStructure none false)) (fun _ hp => by cases hp) trivial rfl
  have h₂ : KeyReachable (fun w op => op.KeepsSlots w) objectWorld :=
    h₁.step (.heap (.newObject 0 .object)) (show 0 < 1 by decide) (show _ = true from rfl) rfl
  exact h₂.step (.heap (.on 0 (.put (.index 0) .null false)))
    (show 0 < objectWorld.nextObject by decide) trivial rfl

theorem prevents_preventedWorld : PreventsExtensions 0 elementWorld preventedWorld := .inl rfl

theorem not_putAdds_preventedWorld : ¬ PutAdds preventedWorld 0 0 := by
  rintro ⟨b, w₁, hrun, rfl | ⟨hadd, -⟩⟩
  · cases hrun
  · exact absurd hadd.dense (by decide)

end Starlight
