import Starlight.Vm.ArrayLength
import Starlight.Vm.ExtensibilityRuns

/-!
# Arrays along runs

The elements of an array lie below its length, and a length that was made read-only stays what it is,
along every run in which no assignment takes the shortcut to the vector from a read-only length on, no
assignment by value writes behind the length, and index `4294967295` is not added.
-/

namespace Starlight

open JsObject World Exec IndexedElements

variable {w w' : World} {o L : ℕ} {locked : Bool} {ix : IndexedElements}

/-! ### Code that keeps the length -/

structure LengthKept (o L : ℕ) (locked : Bool) (w : World) : Prop where
  u32 : (w.objects o).indexed.length < 2 ^ 32
  fixed : locked = true → (w.objects o).indexed.writable = false ∧ (w.objects o).indexed.length = L

theorem unnamed_lengthKept (o L : ℕ) (locked : Bool) : Unnamed (LengthKept o L locked) := by
  intro w w' heq h
  have hix := (heq o).1
  exact ⟨by rw [hix]; exact h.u32, by rw [hix]; exact h.fixed⟩

theorem LengthKept.of_objects (h : LengthKept o L locked w) (ho : w'.objects = w.objects) :
    LengthKept o L locked w' :=
  ⟨by rw [ho]; exact h.u32, by rw [ho]; exact h.fixed⟩

theorem LengthKept.withElements {w₀ : World} (h : LengthKept o L locked w)
    (hlen : ix.length = (w.objects o).indexed.length)
    (hw : (w.objects o).indexed.writable = false → ix.writable = false) :
    LengthKept o L locked (w₀.withElements o ix) := by
  refine ⟨?_, fun hl => ?_⟩ <;> rw [indexed_withElements_self, hlen]
  · exact h.u32
  · exact ⟨hw (h.fixed hl).1, (h.fixed hl).2⟩

theorem LengthKept.setLength {w₀ : World} (hl : locked = false) (hlen : ix.length < 2 ^ 32) :
    LengthKept o L locked (w₀.withElements o ix) := by
  refine ⟨by rwa [indexed_withElements_self], fun hl' => ?_⟩
  rw [hl] at hl'
  cases hl'

theorem keepsLength_modifyIndexed {f : IndexedElements → IndexedElements}
    (hlen : ∀ ix, (f ix).length = ix.length)
    (hw : ∀ ix, ix.writable = false → (f ix).writable = false) :
    (modifyIndexed o f).Keeps (LengthKept o L locked) := fun w h => by
  rw [modifyIndexed_apply]
  exact h.withElements (hlen _) (hw _)

theorem keepsLength_changeLengthWritable (writable throwable : Bool) :
    (changeLengthWritable o writable throwable).Keeps (LengthKept o L locked) := by
  refine .bind keeps_object fun _ => .ite ?_ (.ite (keeps_reject _ _ _) (keeps_pure _))
  exact .bind (keepsLength_modifyIndexed (f := fun ix => { ix with writable := false })
    (fun _ => rfl) fun _ _ => rfl) fun _ => keeps_pure _

theorem keepsLength_deleteIndexedInternal (index : ℕ) (throwable : Bool) :
    (deleteIndexedInternal o index throwable).Keeps (LengthKept o L locked) := fun w h => by
  rw [deleteIndexedInternal_eq]
  split
  · exact keeps_reject _ _ _ w h
  · exact h.withElements (length_remove _ index) fun hw => by rw [writable_remove, hw]

theorem keepsLength_setLength_free {n : ℕ} (hl : locked = false) (hn : n < 2 ^ 32) :
    (modifyIndexed o fun ix => ix.setLength n).Keeps (LengthKept o L locked) := fun w _ => by
  rw [modifyIndexed_apply]
  exact .setLength hl hn

theorem keepsLength_shrinkFromEnd (hl : locked = false) {n : ℕ} (hn : n < 2 ^ 32) (throwable : Bool)
    {old : ℕ} (hold : old < 2 ^ 32) :
    (shrinkFromEnd o n throwable old).Keeps (LengthKept o L locked) := by
  induction old with
  | zero => exact .bind (keepsLength_setLength_free hl hn) fun _ => keeps_pure _
  | succ old ih =>
    refine .ite (.bind (keepsLength_deleteIndexedInternal old false) fun _ =>
      .ite (ih (by omega)) ?_) ?_
    · exact .bind (keepsLength_setLength_free hl hold) fun _ => keeps_reject _ _ _
    · exact .bind (keepsLength_setLength_free hl hn) fun _ => keeps_pure _

theorem keepsLength_shrinkByNames (hl : locked = false) {n : ℕ} (hn : n < 2 ^ 32) (throwable : Bool)
    (names : List Symbol) : (shrinkByNames o n throwable names).Keeps (LengthKept o L locked) := by
  induction names with
  | nil => exact .bind (keepsLength_setLength_free hl hn) fun _ => keeps_pure _
  | cons name names ih =>
    cases name with
    | key text => exact ih
    | priv id => exact ih
    | index i =>
      intro w h
      refine leaves_bind (keepsLength_deleteIndexedInternal i false w h) fun b w₁ hrun h₁ => ?_
      cases b with
      | true => exact ih w₁ h₁
      | false =>
        -- what is not deleted lies below the length
        have hlt : i < (w.objects o).indexed.length := by
          by_contra hge
          rw [deleteIndexedInternal_eq, IndexedElements.fixed, decide_eq_true (Nat.le_of_not_lt hge)]
            at hrun
          cases hrun
        have := h.u32
        exact leaves_bind (keepsLength_setLength_free hl (by omega) w₁ h₁) fun _ w₂ _ h₂ =>
          keeps_reject _ _ _ w₂ h₂

theorem keepsLength_setLength (hl : locked = false) {n : ℕ} (hn : n < 2 ^ 32) (throwable : Bool) :
    (JsObject.setLength o n throwable).Keeps (LengthKept o L locked) := by
  intro w h
  unfold JsObject.setLength
  split
  · exact h
  · rw [Vm.object_bind]
    split
    · exact leaves_bind (keepsLength_setLength_free hl hn w h) fun _ _ _ h₁ => h₁
    · split
      · rw [Exec.bind_of_ok (modifyIndexed_apply o _ w)]
        exact LengthKept.setLength (L := L) hl (show n < 2 ^ 32 from hn)
      · split
        · exact keepsLength_shrinkFromEnd hl hn throwable h.u32 w h
        · exact leaves_bind (keeps_getOwnPropertyNames (unnamed_lengthKept o L locked) o true w h)
            fun _ w₁ _ h₁ => keepsLength_shrinkByNames hl hn throwable _ w₁ h₁

theorem F64.toU32_lt (d : F64) : d.toU32 < 2 ^ 32 := by
  cases d with
  | fin q =>
    change min q.floor.toNat (2 ^ 32 - 1) < 2 ^ 32
    omega
  | _ => decide

theorem keepsLength_defineLengthTo (desc : PropertyDescriptor) (d : F64) (throwable : Bool) :
    (defineLengthTo o desc d throwable).Keeps (LengthKept o L locked) := by
  have hlock : (changeLengthWritable o desc.attrs.writable throwable).Keeps
      (LengthKept o L locked) := keepsLength_changeLengthWritable _ throwable
  refine .ite (keeps_throwTypeError _) fun w h => ?_
  rw [Vm.object_bind]
  split
  · exact Keeps.ite hlock (keeps_pure _) w h
  · split
    · exact keeps_reject _ _ _ w h
    · next hw =>
      have hl : locked = false := by
        by_contra hl
        exact hw (by rw [(h.fixed (by simpa using hl)).1]; rfl)
      exact leaves_bind (keepsLength_setLength hl d.toU32_lt throwable w h) fun _ w₁ _ h₁ =>
        Keeps.ite hlock (keeps_pure _) w₁ h₁

theorem keepsLength_defineOwnNonIndexedPropertySlot (name : Symbol) (desc : PropertyDescriptor)
    (slot : Slot) (throwable : Bool) :
    (defineOwnNonIndexedPropertySlot o name desc slot throwable).Keeps (LengthKept o L locked) := by
  have hm : ∀ slot, (defineOwnNonIndexedPropertySlotMethod o name desc slot throwable).Keeps
      (LengthKept o L locked) := fun slot =>
    keeps_defineOwnNonIndexedPropertySlotMethod (unnamed_lengthKept o L locked) o name desc slot
      throwable
  have hl : (defineLengthProperty o desc throwable).Keeps (LengthKept o L locked) := by
    refine .ite (keeps_reject _ _ _) <| .ite (keeps_reject _ _ _) <| .ite (keeps_reject _ _ _) <|
      .ite (.ite (keepsLength_changeLengthWritable _ throwable) (keeps_pure _)) <|
        .bind (keeps_toNumber _) fun d => keepsLength_defineLengthTo desc d throwable
  refine .bind keeps_object fun obj => ?_
  cases obj.class_ with
  | array => exact .ite (.bind hl fun _ => keeps_pure _) (hm slot)
  | function =>
    refine .ite (.bind ?_ fun _ => hm _) (hm slot)
    exact keeps_modify fun w h => ⟨by simpa using h.u32, by simpa using h.fixed⟩
  | object | string value | global => exact hm slot

/-! ### Adding elements -/

/-- The last index is added, and the length after it is not a `u32`. -/
def AddsLast (w : World) (o i : ℕ) : Prop :=
  i = 4294967295 ∧ (w.objects o).extensible = true ∧ (w.objects o).indexed.writable = true

/-- A new element may be added under the index. -/
def MayRaise (locked : Bool) (w : World) (o i : ℕ) : Prop :=
  (w.objects o).indexed.length ≤ i → (w.objects o).extensible = true → locked = false ∧ i + 1 < 2 ^ 32

theorem leavesLength_storeDense (h : LengthKept o L locked w) {i : ℕ} (hi : i < maxVectorSize)
    (hraise : (w.objects o).indexed.length ≤ i → locked = false) (val : JsValue) (absent : Bool) :
    (defineOwnIndexeValueDenseInternal o i val absent w).Leaves (LengthKept o L locked) := by
  obtain ⟨σ, s, nonGc, -, heq⟩ := defineOwnIndexeValueDenseInternal_eq o i val absent w
  rw [heq]
  by_cases hle : (w.objects o).indexed.length ≤ i
  · have hmax : max (w.objects o).indexed.length (i + 1) < 2 ^ 32 := by
      have : i < 2 ^ 16 := hi
      omega
    exact .setLength (hraise hle) hmax
  · exact h.withElements (max_eq_left (by omega)) id

theorem leavesLength_sparse (h : LengthKept o L locked w) {i : ℕ} (hi : MayRaise locked w o i)
    (desc : PropertyDescriptor) (throwable : Bool) :
    (defineOwnIndexedSparse o i desc throwable w).Leaves (LengthKept o L locked) := by
  have hI := unnamed_lengthKept o L locked
  have hset : ∀ s nonGc, (setSparse o i s nonGc).Keeps (LengthKept o L locked) := fun s nonGc =>
    keepsLength_modifyIndexed (fun _ => rfl) fun _ hw => hw
  unfold defineOwnIndexedSparse
  rw [Exec.bind_of_ok (modifyIndexed_apply _ _ _), Vm.object_bind]
  set ix₁ : IndexedElements := { (w.objects o).indexed with
    map := some ((w.objects o).indexed.map.getD ∅) } with hix₁
  have h₁ : LengthKept o L locked (w.withElements o ix₁) := h.withElements rfl id
  cases (((w.withElements o ix₁).objects o).indexed.map.getD ∅).lookup i with
  | some entry =>
    refine leaves_bind (keeps_isDefinedPropertyAccepted entry desc throwable _ h₁)
      fun ⟨accepted, returned⟩ w₂ _ h₂ => ?_
    cases accepted with
    | false => exact h₂
    | true => exact leaves_bind (keeps_merge hI entry desc w₂ h₂) fun s w₃ _ h₃ =>
        leaves_bind (hset s _ w₃ h₃) fun _ _ _ h₄ => h₄
  | none =>
    split
    · exact keeps_reject _ _ _ _ h₁
    · next hext =>
      have hext : (w.objects o).extensible = true := by simpa [World.withElements] using hext
      refine leaves_bind (keeps_makeIndexed hI o _ h₁) fun _ w₂ hrun h₂ => ?_
      have hix₂ := indexed_of_keeps (fun _ hI => keeps_makeIndexed hI o) hrun o
      rw [indexed_withElements_self] at hix₂
      rw [Exec.bind_of_ok (modifyIndexed_apply _ _ _), hix₂]
      have h₃ : LengthKept o L locked (w₂.withElements o
          (if ix₁.length ≤ i then ix₁.setLength (i + 1) else ix₁)) := by
        split
        · next hle =>
          obtain ⟨hl, hlt⟩ := hi hle hext
          exact .setLength hl hlt
        · exact h.withElements rfl id
      exact leaves_bind (keeps_storedSlotNew hI desc _ h₃) fun s w₄ _ h₄ =>
        leaves_bind (hset s _ w₄ h₄) fun _ _ _ h₅ => h₅

theorem leavesLength_define (h : LengthKept o L locked w) {i : ℕ} (hi : i < 2 ^ 32)
    (hlast : ¬ AddsLast w o i) (desc : PropertyDescriptor) (throwable : Bool) :
    (defineOwnIndexedPropertyInternal o i desc throwable w).Leaves (LengthKept o L locked) := by
  unfold defineOwnIndexedPropertyInternal
  rw [Vm.object_bind]
  split
  · exact keeps_reject _ _ _ w h
  · next hcheck =>
    have hopen : (w.objects o).indexed.length ≤ i → (w.objects o).indexed.writable = true := by
      intro hle
      simpa [hle] using hcheck
    have hfree : (w.objects o).indexed.length ≤ i → locked = false := by
      intro hle
      by_contra hl
      have hw := (h.fixed (by simpa using hl)).1
      rw [hopen hle] at hw
      cases hw
    have hraise : MayRaise locked w o i := by
      intro hle hext
      refine ⟨hfree hle, ?_⟩
      by_contra hge
      exact hlast ⟨by omega, hext, hopen hle⟩
    split
    · next hc =>
      simp only [Bool.and_eq_true, decide_eq_true_eq] at hc
      exact leaves_bind (leavesLength_storeDense h hc.2 hfree _ _) fun _ _ _ h' => h'
    · split
      · refine leaves_bind (keeps_onlyIf ?_ _ w h) fun _ _ _ h' => h'
        exact keepsLength_modifyIndexed (fun _ => rfl) fun _ hw => hw
      · -- the move to the map changes neither the length nor whether the object is extensible
        by_cases hm : ((w.objects o).indexed.dense && !desc.attrs.isDefault &&
          decide (i < maxVectorSize)) = true
        · have hmoved : LengthKept o L locked
              (w.withElements o (w.objects o).indexed.makeSparse) := h.withElements rfl id
          have hraise' : MayRaise locked (w.withElements o (w.objects o).indexed.makeSparse) o i := by
            unfold MayRaise
            rw [indexed_withElements_self]
            exact fun hle hext => hraise hle (by simpa [World.withElements] using hext)
          rw [hm, Vm.onlyIf, if_pos rfl,
            Exec.bind_of_ok (modifyIndexed_apply o IndexedElements.makeSparse w)]
          exact leavesLength_sparse hmoved hraise' desc throwable
        · rw [Bool.eq_false_iff.mpr hm]
          exact leavesLength_sparse h hraise desc throwable

theorem leavesLength_defineOwnIndexedPropertySlot (h : LengthKept o L locked w)
    (hc : (w.objects o).class_ = .array) {i : ℕ} (hi : i < 2 ^ 32) (hlast : ¬ AddsLast w o i)
    (desc : PropertyDescriptor) (slot : Slot) (throwable : Bool) :
    (defineOwnIndexedPropertySlot o i desc slot throwable w).Leaves (LengthKept o L locked) := by
  unfold defineOwnIndexedPropertySlot
  rw [Vm.object_bind, hc]
  exact leaves_bind (leavesLength_define h hi hlast desc throwable) fun _ _ _ h' => h'

/-! ### Operations -/

/-- An assignment writes to the vector without a look at the length. -/
def PassesLock (w : World) (o i : ℕ) : Prop :=
  canPutDense o i w = .ok true w ∧ (w.objects o).indexed.length ≤ i ∧
    (w.objects o).indexed.writable = false

theorem leaves_bind_reads {P : Policy} {α β : Type} {x : Vm α} {f : α → Vm β} {R : α → Prop}
    (hx : Reads P w (x w) R) (h : LengthKept o L locked w)
    (hf : ∀ a w₁, w₁.objects = w.objects → (f a w₁).Leaves (LengthKept o L locked)) :
    ((x >>= f) w).Leaves (LengthKept o L locked) := by
  unfold Reads at hx
  rw [Exec.bind_apply]
  cases hr : x w with
  | ok a w₁ =>
    rw [hr] at hx
    exact hf a w₁ hx.1.objects
  | error e w₁ =>
    rw [hr] at hx
    exact h.of_objects hx.objects
  | stuck => trivial
  | diverge => trivial

theorem leaves_putFrom {I : World → Prop} (h : I w) {val : JsValue} {throwable found : Bool}
    {slot : Slot} {callee : JsValue → JsValue}
    {define : PropertyDescriptor → Slot → Vm (Bool × Slot)}
    (hd : ∀ desc slot, (define desc slot w).Leaves I) :
    (putFrom o val throwable found slot callee define w).Leaves I := by
  refine leaves_bind (keeps_canPut o found slot w h) fun b w₁ hrun _ => ?_
  have hstate := keeps_canPut (I := fun w' => w' = w) o found slot w rfl
  rw [hrun] at hstate
  obtain rfl : w₁ = w := hstate
  split
  · exact keeps_reject _ _ _ w₁ h
  · split
    · exact leaves_bind (hd _ _) fun _ _ _ h₁ => h₁
    · split
      · exact Keeps.bind (keeps_accessor _)
          (fun c => .bind (keeps_accessorCell c) fun _ => keeps_fail _) w₁ h
      · exact leaves_bind (hd _ _) fun _ _ _ h₁ => h₁

theorem leavesLength_putIndexedSlot (hinv : w.Inv layoutPolicy) (ho : o < w.nextObject)
    (h : LengthKept o L locked w) (hc : (w.objects o).class_ = .array) {i : ℕ} (hi : i < 2 ^ 32)
    (hlast : ¬ AddsLast w o i) (hpass : ¬ PassesLock w o i) (val : JsValue) (slot : Slot)
    (throwable : Bool) :
    (putIndexedSlot o i val slot throwable w).Leaves (LengthKept o L locked) := by
  refine leaves_bind (keeps_canPutDense o i w h) fun dense w₁ hcan h₁ => ?_
  obtain ⟨rfl, hdense⟩ := canPutDense_dense hcan
  cases dense with
  | true =>
    have hfree : (w₁.objects o).indexed.length ≤ i → locked = false := by
      intro hle
      by_contra hl
      exact hpass ⟨hcan, hle, (h.fixed (by simpa using hl)).1⟩
    exact leaves_bind (leavesLength_storeDense h (hdense rfl).2 hfree val false) fun _ _ _ h' => h'
  | false =>
    refine leaves_bind_reads (reads_getIndexedPropertySlot hinv ho i slot) h fun r w₂ hobj => ?_
    have hlast₂ : ¬ AddsLast w₂ o i := by
      unfold AddsLast
      rwa [hobj]
    exact leaves_putFrom (h.of_objects hobj) fun desc slot =>
      leavesLength_defineOwnIndexedPropertySlot (h.of_objects hobj) (by rw [hobj, hc]) hi hlast₂ desc
        slot throwable

theorem keepsLength_putNonIndexedSlot (name : Symbol) (val : JsValue) (slot : Slot)
    (throwable : Bool) :
    (putNonIndexedSlot o name val slot throwable).Keeps (LengthKept o L locked) :=
  .bind (keeps_getPropertySlot (unnamed_lengthKept o L locked) o name slot) fun _ =>
    keeps_putFrom fun desc slot => keepsLength_defineOwnNonIndexedPropertySlot name desc slot throwable

theorem keepsLength_delete (name : Symbol) (throwable : Bool) :
    (delete o name throwable).Keeps (LengthKept o L locked) := by
  have hI := unnamed_lengthKept o L locked
  cases name with
  | key text | priv id => exact keeps_deleteNonIndexed hI o _ throwable
  | index i =>
    have hd : (deleteIndexedInternal o i throwable).Keeps (LengthKept o L locked) :=
      keepsLength_deleteIndexedInternal i throwable
    exact .bind keeps_object fun _ => .ite (.bind (keeps_getOwnIndexedPropertySlot hI o i _) fun _ =>
      .ite (keeps_pure _) (.ite (keeps_reject _ _ _) hd)) hd

/-- The name is no index, or one that fits in a `u32`. -/
def Symbol.IsU32 : Symbol → Prop
  | .index i => i < 2 ^ 32
  | _ => True

/-- The operations on an array that runs are made of here: all but `freeze` and `seal`. -/
def ObjectOp.OnArray : ObjectOp → Prop
  | .put name _ _ => name.IsU32
  | .define name _ _ => name.IsU32
  | .freeze => False
  | .seal_ => False
  | _ => True

/-- The operations after which the length of an array is as it should be. -/
def ObjectOp.KeepsLength (w : World) (o : ℕ) : ObjectOp → Prop
  | .put (.index i) _ _ => ¬ AddsLast w o i ∧ ¬ PassesLock w o i
  | .define (.index i) _ _ => ¬ AddsLast w o i
  | _ => True

theorem leavesLength_objectOp (hinv : w.Inv layoutPolicy) (ho : o < w.nextObject)
    (h : LengthKept o L locked w) (hc : (w.objects o).class_ = .array) {op : ObjectOp}
    (hop : op.OnArray) (hk : op.KeepsLength w o) :
    (op.exec o w).Leaves (LengthKept o L locked) := by
  have hI := unnamed_lengthKept o L locked
  cases op with
  | get name strict => exact leaves_bind (keeps_getSlot hI o name strict _ w h) fun _ _ _ h' => h'
  | getOwnProperty name => exact leaves_bind (keeps_getOwnProperty hI o name w h) fun _ _ _ h' => h'
  | getOwnPropertyNames all =>
    exact leaves_bind (keeps_getOwnPropertyNames hI o all w h) fun _ _ _ h' => h'
  | put name val throwable =>
    refine leaves_bind ?_ fun _ _ _ h' => h'
    cases name with
    | index i => exact leavesLength_putIndexedSlot hinv ho h hc hop hk.1 hk.2 val _ throwable
    | key text | priv id => exact keepsLength_putNonIndexedSlot _ val _ throwable w h
  | define name desc throwable =>
    refine leaves_bind (leaves_bind ?_ fun _ _ _ h' => h') fun _ _ _ h' => h'
    cases name with
    | index i => exact leavesLength_defineOwnIndexedPropertySlot h hc hop hk desc _ throwable
    | key text | priv id => exact keepsLength_defineOwnNonIndexedPropertySlot _ desc _ throwable w h
  | defineLengthTo desc newLen throwable =>
    exact leaves_bind (keepsLength_defineLengthTo desc newLen throwable w h) fun _ _ _ h' => h'
  | delete name throwable =>
    exact leaves_bind (keepsLength_delete name throwable w h) fun _ _ _ h' => h'
  | changeExtensible val =>
    have hmove : (modifyIndexed o IndexedElements.makeSparse).Keeps (LengthKept o L locked) :=
      keepsLength_modifyIndexed (fun _ => rfl) fun _ hw => hw
    have hflag : (Vm.modifyObject o fun obj => { obj with extensible := val }).Keeps
        (LengthKept o L locked) :=
      keeps_modify fun w h => ⟨by simpa using h.u32, by simpa using h.fixed⟩
    exact Keeps.bind hflag (fun _ => .bind (keeps_transition hI o _) fun _ => hmove) w h
  | changePrototype prototype =>
    exact keeps_transition hI o (fun σ s => σ.changePrototypeTransition s prototype) w h
  | changeIndexed => exact keeps_transition hI o _ w h
  | freeze => exact hop.elim
  | seal_ => exact hop.elim

/-! ### Steps -/

/-- The steps of the runs here, on array `o` and on everything else. -/
def KeyOp.OnArray (o : ℕ) : KeyOp → Prop
  | .heap (.on b op) => b = o → op.OnArray
  | .heap _ => True
  | .putByVal b _ name _ _ => b = o → name.IsU32

/-- The steps after which array `o` is as it should be. No assignment by value writes behind the length
of an object. -/
def KeyOp.KeepsLength (w : World) (o : ℕ) : KeyOp → Prop
  | .heap (.on b op) => b = o → op.KeepsLength w o
  | .heap _ => True
  | .putByVal b key name val strict =>
    (∀ i, inVector (w.objects b).indexed key = some i → i < (w.objects b).indexed.length) ∧
      (b = o → inVector (w.objects b).indexed key = none →
        (ObjectOp.put name val strict).KeepsLength w o)

structure ArraySound (w : World) (o : ℕ) : Prop where
  inv : w.Inv layoutPolicy
  lt : o < w.nextObject
  sound : w.SoundElements
  class_eq : (w.objects o).class_ = .array
  u32 : (w.objects o).indexed.length < 2 ^ 32

theorem sound_set {i : ℕ} (h : ix.Sound) (hd : ix.dense = true) (hi : i < ix.length) (val : JsValue) :
    ({ ix with vector := ix.vector.set i val } : IndexedElements).Sound := by
  refine ⟨fun j hne => ⟨hd, ?_⟩, by rw [List.length_set]; exact h.size, h.map, h.cell⟩
  by_cases hj : j = i
  · exact hj ▸ hi
  · have hne : (ix.vector.set i val).getD j .empty ≠ .empty := hne
    rw [List.getD_eq_getElem?_getD, List.getElem?_set_ne (Ne.symm hj),
      ← List.getD_eq_getElem?_getD] at hne
    exact (h.vector j hne).2

theorem soundElements_keyOp (h : w.SoundElements) {op : KeyOp} (hk : op.KeepsLength w o) :
    (op.exec w).Leaves SoundElements := by
  cases op with
  | heap op => exact soundElements_exec op w h
  | putByVal b key name val strict =>
    change (putByVal b key name val strict w).Leaves SoundElements
    unfold putByVal
    rw [Vm.object_bind]
    cases hkey : inVector (w.objects b).indexed key with
    | none => exact keeps_put b name val strict w h
    | some i =>
      have hd : (w.objects b).indexed.dense = true := by
        obtain ⟨-, hin⟩ := Option.filter_eq_some_iff.mp hkey
        exact (Bool.and_eq_true_iff.mp hin).1
      exact h.withElements (sound_set (h b) hd (hk.1 i hkey) val)

theorem leavesLength_keyOp (h : ArraySound w o) (hkept : LengthKept o L locked w) {op : KeyOp}
    (hv : op.Valid w) (hs : op.KeepsSlots w) (hop : op.OnArray o) (hk : op.KeepsLength w o)
    (hrun : (op.exec w).state? = some w') : LengthKept o L locked w' := by
  have same : w'.objects o = w.objects o → LengthKept o L locked w' := fun heq =>
    ⟨by rw [heq]; exact hkept.u32, by rw [heq]; exact hkept.fixed⟩
  have other : ∀ {b} {R : Unit → World → Prop}, o ≠ b → Touches layoutPolicy b w (op.exec w) R →
      LengthKept o L locked w' := fun hb hr =>
    same (Result.Sat.state (Result.Sat.mono hr (fun _ _ ha => (ha.1.frame o h.lt hb).object)
      fun _ _ he => (he.frame o h.lt hb).object) hrun)
  have grow : ∀ {R : Unit → World → Prop}, Grows layoutPolicy w (op.exec w) R →
      LengthKept o L locked w' := fun hg =>
    same (Result.Sat.state (Result.Sat.mono hg (fun _ _ ha => (ha.1.frame o h.lt).object)
      fun _ _ he => (he.frame o h.lt).object) hrun)
  cases op with
  | putByVal b key name val strict =>
    by_cases hb : b = o
    swap
    · exact other (Ne.symm hb) (touches_putByVal h.inv hv key name val strict)
    subst hb
    refine Result.Leaves.state ?_ hrun
    change (putByVal b key name val strict w).Leaves _
    unfold putByVal
    rw [Vm.object_bind]
    cases hkey : inVector (w.objects b).indexed key with
    | some i => exact hkept.withElements rfl id
    | none =>
      have hput : (ObjectOp.put name val strict).OnArray := hop rfl
      exact leavesLength_objectOp h.inv h.lt hkept h.class_eq hput (hk.2 rfl hkey)
  | heap op =>
    have hfits := op.fits_layoutPolicy w
    cases op with
    | newStructure prototype indexed =>
      cases hrun
      exact same ((h.inv.grow_newStructure hv indexed).frame o h.lt).object
    | newObject s class_ => exact grow (grows_newObject h.inv trivial hv hs hfits).drop
    | newUniqueObject prototype indexed class_ =>
      exact grow (grows_newUniqueObject h.inv trivial hv indexed)
    | newFromPoint map class_ =>
      refine grow (R := fun _ _ => True) ?_
      change Grows layoutPolicy w ((Op.newFromPoint map class_).exec w) _
      rw [newFromPoint_exec hs]
      exact (grows_newObject h.inv trivial hv hs hfits).drop
    | copy source => exact grow (grows_copy h.inv hv trivial trivial hs.1 hs.2).drop
    | on b op =>
      by_cases hb : b = o
      · subst hb
        exact (leavesLength_objectOp h.inv h.lt hkept h.class_eq (hop rfl) (hk rfl)).state hrun
      · exact other (Ne.symm hb) (touches_exec h.inv hv hs hfits trivial)
    | clearTransition s key | rehash order =>
      cases hrun
      exact same rfl

theorem arraySound_step (h : ArraySound w o) {op : KeyOp} (hv : op.Valid w) (hs : op.KeepsSlots w)
    (hop : op.OnArray o) (hk : op.KeepsLength w o) (hrun : (op.exec w).state? = some w') :
    ArraySound w' o ∧ ((w.objects o).indexed.writable = false →
      (w'.objects o).indexed.length = (w.objects o).indexed.length) := by
  have hkeeps := Result.Sat.state (keeps_keyOp h.inv hv hs) hrun
  have hkept : LengthKept o (w.objects o).indexed.length (!(w.objects o).indexed.writable) w :=
    ⟨h.u32, fun hl => ⟨by simpa using hl, rfl⟩⟩
  have hkept' := leavesLength_keyOp h hkept hv hs hop hk hrun
  refine ⟨⟨hkeeps.inv, lt_of_lt_of_le h.lt hkeeps.nextObject_le,
    (soundElements_keyOp h.sound hk).state hrun, ?_, hkept'.u32⟩, fun hw => (hkept'.fixed ?_).2⟩
  · rw [hkeeps.class_eq o h.lt, h.class_eq]
  · rw [hw]
    rfl

end Starlight
