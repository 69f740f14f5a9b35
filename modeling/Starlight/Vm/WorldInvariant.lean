import Starlight.Vm.Object
import Starlight.Vm.StructureTransitions

/-!
# The invariant of the object heap

`World.Inv P w` says of every object that its slots are laid out by its structure, that accessor
properties hold accessor cells of their own, and that the values of data properties satisfy `P`; and
of the heap as a whole that a unique structure is held by at most one object. The policy `P` is a
parameter because the layout does not depend on what data properties hold, while the inline cache
needs that no accessor cell is among them.

`World.Touch P o w w'` is the frame of every operation on object `o`: the invariant holds again,
every other object is exactly as before, down to its accessor cells, and the structures that are
still in use kept their properties.
-/

namespace Starlight

/-- Where an object keeps accessor cells: in a named slot or in the sparse map. -/
inductive Loc where
  | named (n : Symbol)
  | sparse (i : ℕ)
deriving DecidableEq

def StoredSlot.cell (s : StoredSlot) : Option ℕ :=
  if s.attributes.accessor then
    match s.value with
    | .accessor c => some c
    | _ => none
  else none

namespace JsObject

def namedSlot (table : TargetTable) (obj : JsObject) (n : Symbol) : Option StoredSlot :=
  (table.lookup n).bind fun e => (obj.slots[e.offset]?).map fun v => ⟨v, e.attrs⟩

def sparseSlot (obj : JsObject) (i : ℕ) : Option StoredSlot := obj.indexed.map.bind fun m => m.lookup i

/-- The property at a location. -/
def slotAt (table : TargetTable) (obj : JsObject) : Loc → Option StoredSlot
  | .named n => namedSlot table obj n
  | .sparse i => sparseSlot obj i

/-- The accessor cell at a location. -/
def cellAt (table : TargetTable) (obj : JsObject) (l : Loc) : Option ℕ :=
  (slotAt table obj l).bind StoredSlot.cell

def overridesLength : Class → Prop
  | .array => True
  | .string _ => True
  | _ => False

def isString : Class → Prop
  | .string _ => True
  | _ => False

end JsObject

open JsObject

theorem namedSlot_of_lookup {table : TargetTable} {obj : JsObject} {name : Symbol} {e : MapEntry}
    {v : JsValue} (he : table.lookup name = some e) (hv : obj.slots[e.offset]? = some v) :
    namedSlot table obj name = some ⟨v, e.attrs⟩ := by
  rw [namedSlot, he, Option.bind_some, hv]
  rfl

/-- What is asked of the contents of a heap beyond its layout: which words data properties may hold,
and whether arrays and string objects are known not to have a property `length` of their own. -/
structure Policy where
  value : JsValue → Prop
  noLength : Prop

instance : CoeFun Policy fun _ => JsValue → Prop := ⟨Policy.value⟩

/-- An object whose properties are `table` and whose structure asks for `capacity` slots is well
formed; its accessor cells are below `bound`. An object that starts out on a structure with accessor
properties has the empty word in their slots. -/
structure ObjectOk (P : Policy) (table : TargetTable) (capacity bound : ℕ)
    (obj : JsObject) : Prop where
  slots : capacity ≤ obj.slots.length
  /-- An accessor property holds an accessor cell, wherever it is stored, or was never filled in. -/
  accessor : ∀ {l s}, slotAt table obj l = some s → s.attributes.accessor = true →
    s.value = .empty ∨ ∃ c, s.value = .accessor c ∧ c < bound
  data : ∀ {n s}, namedSlot table obj n = some s → s.attributes.data = true → P s.value
  sparse_typed : ∀ {i s}, sparseSlot obj i = some s → s.attributes.Typed
  cell_inj : ∀ {l l' c}, cellAt table obj l = some c → cellAt table obj l' = some c → l = l'
  no_length : P.noLength → overridesLength obj.class_ → Symbol.length ∉ table

namespace World

/-- The structures held by objects. -/
def held (w : World) : ℕ → Prop := fun s => ∃ o < w.nextObject, (w.objects o).structure_ = s

def table (w : World) (o : ℕ) : TargetTable := w.shapes.view (w.objects o).structure_

/-- How many slots the structure of object `o` asks for. -/
def capacity (w : World) (o : ℕ) : ℕ := w.shapes.storageCapacity (w.objects o).structure_

def cellAt (w : World) (o : ℕ) (l : Loc) : Option ℕ := JsObject.cellAt (w.table o) (w.objects o) l

def prototype (w : World) (o : ℕ) : Option ℕ :=
  (w.shapes.structures (w.objects o).structure_).prototype

/-- The invariant of the object heap. -/
structure Inv (P : Policy) (w : World) : Prop where
  shapes : w.shapes.Inv w.held
  /-- A unique structure belongs to one object. -/
  sole : ∀ {o o'}, o < w.nextObject → o' < w.nextObject →
    (w.objects o).structure_ = (w.objects o').structure_ →
    ¬ w.shapes.Shared (w.objects o).structure_ → o = o'
  ok : ∀ {o}, o < w.nextObject → ObjectOk P (w.table o) (w.capacity o) w.nextAccessor (w.objects o)
  proto_lt : ∀ {r p}, r < w.shapes.nextStructure →
    (w.shapes.structures r).prototype = some p → p < w.nextObject
  /-- Accessor cells belong to one object. -/
  cells : ∀ {o o' l l' c}, o < w.nextObject → o' < w.nextObject → o ≠ o' →
    w.cellAt o l = some c → w.cellAt o' l' ≠ some c

/-- Structures that are still in use kept their properties, and no abandoned structure came back. -/
def Stable (w w' : World) : Prop :=
  ∀ r, r < w.shapes.nextStructure → w'.shapes.Live w'.held r → w.shapes.Live w.held r ∧
    ∀ n e, (w.shapes.view r).lookup n = some e → (w'.shapes.view r).lookup n = some e

/-- Object `b` is exactly as before, including what its accessor cells hold. -/
structure SameObject (w w' : World) (b : ℕ) : Prop where
  object : w'.objects b = w.objects b
  shape : w.shapes.SameShape w'.shapes (w.objects b).structure_
  accessor : ∀ l c, w.cellAt b l = some c → w'.accessors c = w.accessors c

/-- The frame of an operation on object `o`. -/
structure Touch (P : Policy) (o : ℕ) (w w' : World) : Prop where
  inv : w'.Inv P
  nextObject : w'.nextObject = w.nextObject
  nextAccessor_le : w.nextAccessor ≤ w'.nextAccessor
  nextStructure_le : w.shapes.nextStructure ≤ w'.shapes.nextStructure
  class_eq : ∀ b, (w'.objects b).class_ = (w.objects b).class_
  frame : ∀ b, b < w.nextObject → b ≠ o → SameObject w w' b
  stable : Stable w w'

theorem SameObject.table {w w' : World} {b : ℕ} (h : SameObject w w' b) :
    w'.table b = w.table b := by
  rw [World.table, h.object, h.shape.view, World.table]

theorem SameObject.prototype_eq {w w' : World} {b : ℕ} (h : SameObject w w' b) :
    w'.prototype b = w.prototype b := by
  rw [World.prototype, h.object, h.shape.prototype, World.prototype]

theorem SameObject.cellAt {w w' : World} {b : ℕ} (h : SameObject w w' b) (l : Loc) :
    w'.cellAt b l = w.cellAt b l := by
  rw [World.cellAt, h.table, h.object, World.cellAt]

theorem SameObject.refl (w : World) (b : ℕ) : SameObject w w b :=
  ⟨rfl, Shapes.SameShape.refl _ _, fun _ _ _ => rfl⟩

theorem SameObject.trans {w₁ w₂ w₃ : World} {b : ℕ} (h : SameObject w₁ w₂ b)
    (h' : SameObject w₂ w₃ b) : SameObject w₁ w₃ b where
  object := h'.object.trans h.object
  shape := h.shape.trans (h.object ▸ h'.shape)
  accessor l c hc := (h'.accessor l c ((h.cellAt l).trans hc)).trans (h.accessor l c hc)

theorem Stable.refl (w : World) : Stable w w := fun _ _ hl => ⟨hl, fun _ _ h => h⟩

theorem Stable.trans {w₁ w₂ w₃ : World} (h : Stable w₁ w₂) (h' : Stable w₂ w₃)
    (hle : w₁.shapes.nextStructure ≤ w₂.shapes.nextStructure) : Stable w₁ w₃ := by
  intro r hr hl
  obtain ⟨hl₂, h₂⟩ := h' r (lt_of_lt_of_le hr hle) hl
  obtain ⟨hl₁, h₁⟩ := h r hr hl₂
  exact ⟨hl₁, fun n e hn => h₂ n e (h₁ n e hn)⟩

variable {P : Policy} {w w' : World} {o : ℕ}

theorem Inv.touch_refl (h : w.Inv P) (o : ℕ) : Touch P o w w :=
  ⟨h, rfl, le_rfl, le_rfl, fun _ => rfl, fun b _ _ => SameObject.refl w b, Stable.refl w⟩

theorem Touch.trans {w'' : World} (h : Touch P o w w') (h' : Touch P o w' w'') :
    Touch P o w w'' where
  inv := h'.inv
  nextObject := h'.nextObject.trans h.nextObject
  nextAccessor_le := h.nextAccessor_le.trans h'.nextAccessor_le
  nextStructure_le := h.nextStructure_le.trans h'.nextStructure_le
  class_eq b := (h'.class_eq b).trans (h.class_eq b)
  frame b hb hne := (h.frame b hb hne).trans (h'.frame b (h.nextObject ▸ hb) hne)
  stable := h.stable.trans h'.stable h.nextStructure_le

theorem Inv.held_structure (ho : o < w.nextObject) : w.held (w.objects o).structure_ := ⟨o, ho, rfl⟩

theorem Inv.live (h : w.Inv P) (ho : o < w.nextObject) :
    w.shapes.Live w.held (w.objects o).structure_ :=
  h.shapes.held (Inv.held_structure ho)

theorem storageCapacity_eq {σ σ' : Shapes} {L L' : ℕ → Prop} {r : ℕ} (h : σ.Inv L) (h' : σ'.Inv L')
    (hr : σ.Live L r) (hr' : σ'.Live L' r) (hs : σ.SameShape σ' r) :
    σ'.storageCapacity r = σ.storageCapacity r := by
  unfold Shapes.storageCapacity
  rw [h.getSlotsSize_eq hr, h'.getSlotsSize_eq hr', hs.view, hs.deleted]

theorem Inv.offset_lt (h : w.Inv P) (ho : o < w.nextObject) {n : Symbol} {e : MapEntry}
    (hn : (w.table o).lookup n = some e) : e.offset < (w.objects o).slots.length := by
  have hl := h.live ho
  have hlt := (h.shapes.layout hl).lt hn
  have hsize := h.shapes.getSlotsSize_eq hl
  have hcap := Shapes.getSlotsSize_le_storageCapacity w.shapes (w.objects o).structure_
  have hslots := (h.ok ho).slots
  unfold capacity at hslots
  omega

/-- **The update rule.** Object `o` is replaced by `obj'`, its structure by the target of a
transition, and accessor cells of other objects are left alone. If the new object is well formed and
owns its accessor cells alone, only `o` was touched. -/
theorem Inv.touch (h : w.Inv P) (ho : o < w.nextObject) {σ' : Shapes} {obj' : JsObject}
    {acc' : ℕ → Accessor} {next' : ℕ}
    (ht : w.shapes.Transitioned σ' w.held (w.objects o).structure_ obj'.structure_)
    (hok : ObjectOk P (σ'.view obj'.structure_) (σ'.storageCapacity obj'.structure_) next' obj')
    (hcells : ∀ l c, JsObject.cellAt (σ'.view obj'.structure_) obj' l = some c →
      ∀ b l', b < w.nextObject → b ≠ o → w.cellAt b l' ≠ some c)
    (hacc : ∀ b l c, b < w.nextObject → b ≠ o → w.cellAt b l = some c → acc' c = w.accessors c)
    (hproto : ∀ p, (σ'.structures obj'.structure_).prototype = some p → p < w.nextObject)
    (hnext : w.nextAccessor ≤ next') (hclass : obj'.class_ = (w.objects o).class_) :
    Touch P o w { w with shapes := σ', objects := Function.update w.objects o obj',
                         accessors := acc', nextAccessor := next' } := by
  set w' : World := { w with shapes := σ', objects := Function.update w.objects o obj',
                             accessors := acc', nextAccessor := next' } with hw'
  have hself : w'.objects o = obj' := by simp [hw']
  have hother : ∀ {b}, b ≠ o → w'.objects b = w.objects b := by intro b hb; simp [hw', hb]
  -- another object's structure is not the one `o` leaves, unless it is shared
  have hsep : ∀ {b}, b < w.nextObject → b ≠ o →
      w.shapes.Shared (w.objects b).structure_ ∨
        (w.objects b).structure_ ≠ (w.objects o).structure_ := by
    intro b hb hne
    by_contra hc
    obtain ⟨hu, heq⟩ := not_or.mp hc
    exact hne (h.sole hb ho (not_not.mp heq) hu)
  have hframe : ∀ {b}, b < w.nextObject → b ≠ o → SameObject w w' b := fun hb hne =>
    ⟨hother hne, ht.frame _ (h.live hb) (hsep hb hne), fun l c hc => hacc _ l c hb hne hc⟩
  have hheld : ∀ r, w'.held r → r = obj'.structure_ ∨ ∃ b < w.nextObject, b ≠ o ∧
      (w.objects b).structure_ = r := by
    rintro r ⟨b, hb, rfl⟩
    by_cases hbo : b = o
    · subst hbo; exact .inl (by rw [hself])
    · exact .inr ⟨b, hb, hbo, by rw [hother hbo]⟩
  have hinvS : σ'.Inv w'.held := ht.inv.mono fun r hr => by
    rcases hheld r hr with rfl | ⟨b, hb, hbo, rfl⟩
    · exact ⟨ht.live.1, .inr (.inl rfl)⟩
    · have hlive := h.live hb
      refine ⟨lt_of_lt_of_le hlive.1 ht.next_le, ?_⟩
      rcases hsep hb hbo with hsh | hne
      · exact .inl ((ht.shared_iff _ hlive.1).mpr hsh)
      · exact .inr (.inr ⟨Inv.held_structure hb, hne⟩)
  have htable : w'.table o = σ'.view obj'.structure_ := by rw [World.table, hself]
  have hcellself : ∀ l, w'.cellAt o l = JsObject.cellAt (σ'.view obj'.structure_) obj' l := by
    intro l; rw [World.cellAt, htable, hself]
  have hlive' : ∀ {b}, b < w.nextObject → w'.shapes.Live w'.held (w'.objects b).structure_ :=
    fun hb => hinvS.held ⟨_, hb, rfl⟩
  refine ⟨⟨hinvS, ?_, ?_, fun {r p} hr hp => ?_, ?_⟩, rfl, hnext, ht.next_le, ?_,
    fun b hb hne => hframe hb hne, ?_⟩
  case refine_1 =>
    -- a unique structure belongs to one object
    have key : ∀ {b}, b < w.nextObject → b ≠ o → (w.objects b).structure_ = obj'.structure_ →
        σ'.Shared obj'.structure_ := by
      intro b hb hbo heq
      have hlive := h.live hb
      rcases ht.target with hs | hge | hsh
      · rcases hsep hb hbo with hsh | hne
        · exact heq ▸ (ht.shared_iff _ hlive.1).mpr hsh
        · exact absurd (heq.trans hs) hne
      · have := hlive.1; omega
      · exact (ht.shared_iff _ (heq ▸ hlive.1)).mpr hsh
    intro b b' hb hb' heq hu
    by_cases hbo : b = o <;> by_cases hbo' : b' = o
    · rw [hbo, hbo']
    · subst hbo
      rw [hself, hother hbo'] at heq
      rw [hself] at hu
      exact absurd (key hb' hbo' heq.symm) hu
    · subst hbo'
      rw [hself, hother hbo] at heq
      rw [hother hbo, heq] at hu
      exact absurd (key hb hbo heq) hu
    · rw [hother hbo, hother hbo'] at heq
      rw [hother hbo] at hu
      exact h.sole hb hb' heq fun hsh => hu ((ht.shared_iff _ (h.live hb).1).mpr hsh)
  case refine_2 =>
    intro b hb
    by_cases hbo : b = o
    · subst hbo
      rw [htable, hself, World.capacity, hself]
      exact hok
    · have hsame := hframe hb hbo
      have hcap : w'.capacity b = w.capacity b := by
        have hl' := hlive' hb
        rw [World.capacity, hother hbo, World.capacity]
        rw [hother hbo] at hl'
        exact storageCapacity_eq h.shapes hinvS (h.live hb) hl' hsame.shape
      rw [hsame.table, hcap, hother hbo]
      have hob := h.ok hb
      exact ⟨hob.slots, fun hs ha => (hob.accessor hs ha).imp_right <| Exists.imp fun c hc =>
        ⟨hc.1, lt_of_lt_of_le hc.2 hnext⟩, hob.data, hob.sparse_typed, hob.cell_inj, hob.no_length⟩
  case refine_3 =>
    rcases ht.old r hr with rfl | ⟨hlt, heq⟩
    · exact hproto p hp
    · exact h.proto_lt hlt (heq ▸ hp)
  case refine_4 =>
    intro b b' l l' c hb hb' hne hc hc'
    by_cases hbo : b = o
    · subst hbo
      rw [hcellself] at hc
      rw [(hframe hb' (Ne.symm hne)).cellAt] at hc'
      exact hcells l c hc b' l' hb' (Ne.symm hne) hc'
    · rw [(hframe hb hbo).cellAt] at hc
      by_cases hbo' : b' = o
      · subst hbo'
        rw [hcellself] at hc'
        exact hcells l' c hc' b l hb hbo hc
      · rw [(hframe hb' hbo').cellAt] at hc'
        exact h.cells hb hb' hne hc hc'
  case refine_5 =>
    intro b
    by_cases hbo : b = o
    · subst hbo; rw [hself, hclass]
    · rw [hother hbo]
  case refine_6 =>
    intro r hr hl
    -- a structure in use afterwards was in use before; only the one `o` stays on may have grown
    have hshared : w.shapes.Shared r → w.shapes.Live w.held r ∧ ∀ n e,
        (w.shapes.view r).lookup n = some e → (σ'.view r).lookup n = some e := by
      intro hsh
      have hlv := Shapes.Shared.live hsh (L := w.held) hr
      exact ⟨hlv, fun n e hn => by rw [(ht.frame r hlv (.inl hsh)).view]; exact hn⟩
    rcases hl.2 with hsh | hheldr
    · exact hshared ((ht.shared_iff r hr).mp hsh)
    · rcases hheld r hheldr with rfl | ⟨b, hb, hbo, rfl⟩
      · rcases ht.target with hs | hge | hsh
        · refine ⟨hs ▸ h.live ho, fun n e hn => ?_⟩
          change (σ'.view obj'.structure_).lookup n = some e
          rw [hs] at hn ⊢
          exact ht.grow hs n e hn
        · omega
        · exact hshared hsh
      · have hlv := h.live hb
        exact ⟨hlv, fun n e hn => by
          change (σ'.view _).lookup n = some e
          rw [(ht.frame _ hlv (hsep hb hbo)).view]; exact hn⟩

end World

end Starlight
