import Starlight.Vm.Refusal

/-!
# Permanence along runs

A named property that cannot be configured stays: along every run that keeps unique structures with
their objects, it is there with the same enumerability, the same kind, the same getter and setter, and
the same value if it was read-only. What would change it is refused. Assignment is refused in silence
unless its caller asks for an exception, so that `put` tells nothing about it.

Outside such runs the property can be lost: an object and its copy on one unique structure have one
property table and two lists of free slots, and a property added to the one is stored over a property
of the other.
-/

namespace Starlight

open JsObject World

variable {P : Policy} {proper : Prop} {w w' : World} {o : ℕ}

/-- **The step lemma.** No operation of a run takes away what cannot be configured. -/
theorem permanent_exec (h : w.Inv P) {op : Op} (hv : op.Valid w) (hk : op.KeepsSlots w)
    (hf : op.Fits P w) (hp : proper → op.Proper) (hempty : P .empty) (hundef : P .undefined)
    (ho : o < w.nextObject) :
    (op.exec w).Sat (fun _ w' => Permanent proper o w w') fun _ w' => Permanent proper o w w' := by
  have grow : ∀ {r : Result Fault World Unit} {R : Unit → World → Prop}, Grows P w r R →
      r.Sat (fun _ w' => Permanent proper o w w') fun _ w' => Permanent proper o w w' :=
    fun hg => Result.Sat.mono hg (fun _ _ ha => (ha.1.frame o ho).permanent)
      fun _ _ he => (he.frame o ho).permanent
  cases op with
  | newStructure prototype indexed => exact ((h.grow_newStructure hv indexed).frame o ho).permanent
  | newObject s class_ => exact grow (grows_newObject h hempty hv hk hf).drop
  | newUniqueObject prototype indexed class_ =>
    exact grow (grows_newUniqueObject h hempty hv indexed)
  | newFromPoint map class_ =>
    rw [newFromPoint_exec hk]
    exact grow (grows_newObject h hempty hv hk hf).drop
  | copy source => exact grow (grows_copy h hv hempty hundef hk.1 hk.2).drop
  | on b op =>
    have hg := guards_exec h hv hk hf hundef hp
    have key : ∀ {w' : World}, Guard P proper b w w' → Permanent proper o w w' := by
      intro w' hg
      by_cases hb : o = b
      · exact hb ▸ hg.permanent (hb ▸ ho)
      · exact (hg.frame o ho hb).permanent
    exact Result.Sat.mono hg (fun _ _ ha => key ha.1) fun _ _ he => key he
  | clearTransition s key => exact (h.read_clearTransition s key hv).permanent h ho
  | rehash order => exact (h.read_rehash order).permanent h ho

/-- The steps of a run that keep unique structures with their objects and define properties by proper
descriptors. -/
def Op.KeepsProperties (w : World) (op : Op) : Prop := op.KeepsSlots w ∧ op.Proper

/-- **The run lemma.** What cannot be configured stays along every run. -/
theorem permanent_run (h : Reachable (fun w op => op.KeepsProperties w) w) (ho : o < w.nextObject)
    (hrun : Relation.ReflTransGen (Step fun w op => op.KeepsProperties w) w w') :
    Permanent True o w w' := by
  have hinv : ∀ {w : World}, Reachable (fun w op => op.KeepsProperties w) w →
      w.Inv layoutPolicy := fun h => (h.mono fun _ _ hk => hk.1).layout_inv
  suffices Reachable (fun w op => op.KeepsProperties w) w' ∧ w.nextObject ≤ w'.nextObject ∧
      Permanent True o w w' from this.2.2
  induction hrun with
  | refl => exact ⟨h, le_rfl, fun n s hs hc => ⟨s, hs, .of_accessors hc fun _ _ => rfl⟩⟩
  | tail _ hstep ih =>
    obtain ⟨hreach, hle, hperm⟩ := ih
    obtain ⟨op, hv, hk, hs⟩ := hstep
    have hkept := Result.Sat.state (keeps_exec (hinv hreach) hv hk.1 (op.fits_layoutPolicy _)
      trivial trivial) hs
    exact ⟨hreach.step op hv hk hs, hle.trans hkept.nextObject_le, hperm.trans
      (Result.Sat.state (permanent_exec (hinv hreach) hv hk.1 (op.fits_layoutPolicy _)
        (fun _ => hk.2) trivial trivial (lt_of_lt_of_le ho hle)) hs)⟩

/-- **Permanence of properties that cannot be configured.** Such a property stays along every run, and
what would change it is refused and leaves the object as it was: definitions and deletions answer
`false` or throw, assignments to a read-only property throw or do nothing. -/
theorem nonconfigurable_permanent (h : Reachable (fun w op => op.KeepsProperties w) w)
    (ho : o < w.nextObject) {name : Symbol} {s : StoredSlot}
    (hs : namedSlot (w.table o) (w.objects o) name = some s)
    (hc : s.attributes.configurable = false) :
    (∀ w', Relation.ReflTransGen (Step fun w op => op.KeepsProperties w) w w' →
      ∃ s', namedSlot (w'.table o) (w'.objects o) name = some s' ∧ SameProperty True w w' s s') ∧
    ((∀ i, name ≠ .index i) →
      ¬ (overridesLength (w.objects o).class_ ∧ name = Symbol.length) → ∀ throwable : Bool,
        (∀ desc, ¬ Agrees w.accessors s desc →
          Refused w o throwable false (defineOwnProperty o name desc throwable w)) ∧
        Refused w o throwable false (JsObject.delete o name throwable w) ∧
        (s.attributes.data = true → s.attributes.writable = false → ∀ val,
          Refused w o throwable () (put o name val throwable w))) := by
  have hinv := (h.mono fun _ _ hk => hk.1).layout_inv
  refine ⟨fun w' hrun => permanent_run h ho hrun name s hs hc, fun hname hlen throwable =>
    ⟨fun desc hn => ?_, ?_, fun hd hw val => ?_⟩⟩
  · exact defineOwnProperty_refused hinv ho hname hs hc hlen hn throwable
  · exact delete_refused hinv ho hname hs hc hlen throwable
  · exact put_refused hinv ho hname hs hd hw hlen val throwable

def readOnlyDesc : PropertyDescriptor := .dataDescriptor (.int32 1) {}

/-- An object on a shared structure with a read-only property. -/
def readOnlyWorld : World := objectWorld.after (.on 0 (.define (.priv 0) readOnlyDesc false))

theorem reachable_objectWorld : Reachable (fun w op => op.KeepsProperties w) objectWorld := by
  have h₀ : Reachable (fun w op => op.KeepsProperties w)
      (World.init ⟨fun _ => [], fun _ => []⟩) := ⟨_, .refl⟩
  have h₁ := h₀.step (.newStructure none false) (fun _ hp => by cases hp) ⟨trivial, trivial⟩ rfl
  exact h₁.step (.newObject 0 .object) (show 0 < 1 by decide) ⟨show _ = true from rfl, trivial⟩ rfl

theorem reachable_readOnlyWorld : Reachable (fun w op => op.KeepsProperties w) readOnlyWorld :=
  reachable_objectWorld.step (.on 0 (.define (.priv 0) readOnlyDesc false))
    (show 0 < objectWorld.nextObject by decide) ⟨fun h => h.1, fun _ => rfl⟩ rfl

def readOnlySlot : StoredSlot := ⟨.int32 1, createData {}⟩

theorem namedSlot_readOnlyWorld :
    namedSlot (readOnlyWorld.table 0) (readOnlyWorld.objects 0) (.priv 0) = some readOnlySlot := by
  decide

theorem nonconfigurable_permanent_readOnlyWorld :
    Refused readOnlyWorld 0 false false (JsObject.delete 0 (.priv 0) false readOnlyWorld) :=
  ((nonconfigurable_permanent reachable_readOnlyWorld (show 0 < readOnlyWorld.nextObject by decide)
    namedSlot_readOnlyWorld rfl).2 nofun (fun h => nomatch h.2) false).2.1

/-- An object alone on a unique structure, with a property that can be deleted and a read-only one. -/
def twoPropertyWorld : World :=
  (uniqueWorld.after (.on 0 (.put (.priv 1) .undefined false))).after
    (.on 0 (.define (.priv 0) readOnlyDesc false))

/-- The object is copied, and the first property is deleted from the copy. -/
def shrunkWorld : World :=
  (twoPropertyWorld.after (.copy 0)).after (.on 1 (.delete (.priv 1) false))

/-- A property is added to the object. -/
def overwrittenWorld : World := shrunkWorld.after (.on 0 (.put (.priv 2) .null false))

theorem reachable_shrunkWorld : Reachable (fun _ _ => True) shrunkWorld := by
  have h₀ : Reachable (fun _ _ => True) (World.init ⟨fun _ => [], fun _ => []⟩) := ⟨_, .refl⟩
  have h₁ : Reachable (fun _ _ => True) uniqueWorld :=
    h₀.step (.newUniqueObject none false .object) (fun _ hp => by cases hp) trivial rfl
  have h₂ := h₁.step (.on 0 (.put (.priv 1) .undefined false)) (show 0 < 1 by decide) trivial rfl
  have h₃ : Reachable (fun _ _ => True) twoPropertyWorld :=
    h₂.step (.on 0 (.define (.priv 0) readOnlyDesc false)) (show 0 < 1 by decide) trivial rfl
  have h₄ := h₃.step (.copy 0) (show 0 < 1 by decide) trivial rfl
  exact h₄.step (.on 1 (.delete (.priv 1) false)) (show 1 < 2 by decide) trivial rfl

/-- A property added to the object afterwards is stored over the read-only one; and an assignment to a
read-only property may do nothing and say nothing, along the runs of `nonconfigurable_permanent` too. -/
theorem not_nonconfigurable_permanent :
    (¬ ∀ w, Reachable (fun _ _ => True) w → ∀ o name s,
      namedSlot (w.table o) (w.objects o) name = some s → s.attributes.configurable = false →
      ∀ op : ObjectOp, (Op.on o op).Valid w → ∀ w', (op.exec o w).state? = some w' →
        ∃ s', namedSlot (w'.table o) (w'.objects o) name = some s' ∧
          SameProperty True w w' s s') ∧
    ¬ ∀ w, Reachable (fun w op => op.KeepsProperties w) w → ∀ o name s,
      namedSlot (w.table o) (w.objects o) name = some s → s.attributes.configurable = false →
      s.attributes.data = true → s.attributes.writable = false → ∀ val, val ≠ s.value →
      ∀ throwable w', put o name val throwable w ≠ .ok () w' := by
  constructor
  · intro h
    obtain ⟨s', hs', hsame⟩ := h shrunkWorld reachable_shrunkWorld 0 (.priv 0) readOnlySlot (by decide)
      rfl (.put (.priv 2) .null false) (show 0 < 2 by decide) overwrittenWorld rfl
    have hnull : (namedSlot (overwrittenWorld.table 0) (overwrittenWorld.objects 0) (.priv 0)).map
        StoredSlot.value = some .null := by decide
    rw [hs', Option.map_some, hsame.value trivial rfl rfl] at hnull
    cases hnull
  · intro h
    exact h readOnlyWorld reachable_readOnlyWorld 0 (.priv 0) readOnlySlot namedSlot_readOnlyWorld rfl
      rfl rfl (.int32 2) (by decide) false _ rfl

end Starlight
