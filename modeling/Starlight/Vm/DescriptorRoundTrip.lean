import Starlight.Vm.ArrayLength
import Starlight.Vm.DescriptorFields

/-!
# Descriptor objects round trip

The object that describes a property, used to define the property on a new object, makes a property that
is described in the same way. Used to define it again where it is, it is accepted and changes nothing.
-/

namespace Starlight

open JsObject World Exec IndexedElements

variable {P : Policy} {w w' : World} {o : ℕ} {n name : Symbol} {d : PropertyDescriptor}
  {s : StoredSlot}

/-! ### Stored properties and their descriptors -/

theorem toDescriptor_of_data (hd : s.attributes.data = true) (w : World) :
    s.toDescriptor w = .ok (.dataDescriptor s.value s.attributes.toExternal) w := by
  unfold StoredSlot.toDescriptor
  rw [if_pos hd]
  rfl

theorem toDescriptor_of_accessor (hd : s.attributes.data = false) (ha : s.attributes.accessor = true)
    {c : ℕ} (hv : s.value = .accessor c) (w : World) : s.toDescriptor w =
      .ok (.accessorDescriptor (w.accessors c).getter (w.accessors c).setter
        s.attributes.toExternal) w := by
  unfold StoredSlot.toDescriptor
  rw [if_neg (by simp [hd]), StoredSlot.accessor_eq ha hv]
  rfl

theorem toDescriptor_cases (hd : s.toDescriptor w = .ok d w') : w' = w ∧
    ((s.attributes.data = true ∧ d = .dataDescriptor s.value s.attributes.toExternal) ∨
      s.attributes.data = false ∧ s.attributes.accessor = true ∧ ∃ c, s.value = .accessor c ∧
        d = .accessorDescriptor (w.accessors c).getter (w.accessors c).setter
          s.attributes.toExternal) := by
  cases hdata : s.attributes.data with
  | true =>
    rw [toDescriptor_of_data hdata] at hd
    cases hd
    exact ⟨rfl, .inl ⟨rfl, rfl⟩⟩
  | false =>
    have hrun := hd
    unfold StoredSlot.toDescriptor at hrun
    rw [if_neg (by simp [hdata])] at hrun
    obtain ⟨c, w₁, hc, -⟩ := bind_eq_ok hrun
    unfold StoredSlot.accessor at hc
    split at hc
    · next ha =>
      cases hv : s.value with
      | accessor c =>
        rw [toDescriptor_of_accessor hdata ha hv] at hd
        cases hd
        exact ⟨rfl, .inr ⟨rfl, ha, c, rfl, rfl⟩⟩
      | _ =>
        rw [hv] at hc
        cases hc
    · cases hc

theorem toDescriptor_congr (hd : s.toDescriptor w = .ok d w') {v : World}
    (hc : ∀ c, s.cell = some c → v.accessors c = w.accessors c) : s.toDescriptor v = .ok d v := by
  obtain ⟨-, ⟨hdata, rfl⟩ | ⟨hdata, ha, c, hv, rfl⟩⟩ := toDescriptor_cases hd
  · exact toDescriptor_of_data hdata v
  · rw [toDescriptor_of_accessor hdata ha hv, hc c (StoredSlot.cell_eq_some.mpr ⟨ha, hv⟩)]

theorem whole_of_toDescriptor (ht : s.attributes.Typed) (hd : s.toDescriptor w = .ok d w') :
    d.Whole := by
  obtain ⟨-, ⟨hdata, rfl⟩ | ⟨-, ha, c, -, rfl⟩⟩ := toDescriptor_cases hd
  · exact .data ht hdata
  · exact .accessor ht ha

theorem noEffect_toDescriptor (hs : s.Proper) (hd : s.toDescriptor w = .ok d w) :
    StoredSlot.noEffect w.accessors s d = true := by
  obtain ⟨-, ⟨hdata, rfl⟩ | ⟨hdata, ha, c, hv, rfl⟩⟩ := toDescriptor_cases hd
  · have hna := hs.typed.not_accessor_of_data hdata
    simp [StoredSlot.noEffect, PropertyDescriptor.dataDescriptor, AttrSafe.toExternal, hdata, hna,
      JsValue.sameValue_self]
  · simp [StoredSlot.noEffect, PropertyDescriptor.accessorDescriptor, AttrSafe.toExternal, hdata, ha,
      hv]

/-- **What describes a property is accepted for it**, and there is nothing to do. -/
theorem isDefinedPropertyAccepted_toDescriptor (hs : s.Proper) (hd : s.toDescriptor w = .ok d w)
    (throwable : Bool) : s.isDefinedPropertyAccepted d throwable w = .ok (false, true) w := by
  have hy := StoredSlot.isDefinedPropertyAccepted_yields hs d throwable w
  have hkeep : StoredSlot.verdict w.accessors s d = .keep := by
    unfold StoredSlot.verdict
    dsimp only
    rw [noEffect_toDescriptor hs hd, if_pos rfl, ite_self]
  rw [hkeep] at hy
  exact hy

/-! ### A property and its descriptor -/

theorem getOwnPropertySlot_ok (h : w.Inv P) (ho : o < w.nextObject) {found : Bool} {slot : Slot}
    (hrun : getOwnPropertySlot o n Slot.new w = .ok (found, slot) w') :
    Read P w w' ∧ (found = true → HasCell slot.stored ∧ slot.attributes.Typed) := by
  have hnamed : getOwnNonIndexedPropertySlot o n Slot.new w = .ok (found, slot) w' →
      Read P w w' ∧ (found = true → HasCell slot.stored ∧ slot.attributes.Typed) := fun hrun => by
    obtain ⟨hr, hl⟩ := Result.Sat.of_ok (reads_getOwnNonIndexedPropertySlot h ho n Slot.new) hrun
    refine ⟨hr, ?_⟩
    rintro rfl
    exact ChainLookup.stored_ok h ho (.own hl)
  cases n with
  | index i =>
    obtain ⟨hr, hl⟩ := Result.Sat.of_ok (reads_getOwnIndexedPropertySlot h ho i Slot.new) hrun
    exact ⟨hr, fun hf => ⟨hl.hasCell hf, hl.typed hf⟩⟩
  | key t | priv t => exact hnamed hrun

theorem whole_of_getOwnProperty (h : w.Inv P) (ho : o < w.nextObject)
    (hd : getOwnProperty o n w = .ok (some d) w') : d.Whole := by
  obtain ⟨⟨found, slot⟩, w₁, hrun, hd⟩ := bind_eq_ok hd
  obtain ⟨-, hok⟩ := getOwnPropertySlot_ok h ho hrun
  cases found with
  | false => cases hd
  | true =>
    obtain ⟨d', w₂, hdesc, hret⟩ := bind_eq_ok hd
    cases hret
    exact whole_of_toDescriptor (hok rfl).2 hdesc

/-- The value of a data property is one that a program can have. -/
def HasValue (d : PropertyDescriptor) : Prop :=
  d.attrs.data = true → d.fst ≠ .empty ∧ d.fst.isAccessorCell = false

/-- The object has the property that the descriptor describes: it stores it, or it is an array and the
property is its length. -/
inductive Describes (w : World) (o : ℕ) (d : PropertyDescriptor) : Symbol → Prop
  | stored {n : Symbol} {s : StoredSlot} (hn : ¬ (w.objects o).Special n)
      (hs : storedOwn w o n = some s) (hp : s.Proper) (hd : s.toDescriptor w = .ok d w) :
      Describes w o d n
  | length (hc : (w.objects o).class_ = .array)
      (hd : d = .dataDescriptor (.newF64 (w.objects o).indexed.length)
        (createData { writable := (w.objects o).indexed.writable }).toExternal) :
      Describes w o d Symbol.length

theorem getOwnProperty_length (hc : (w.objects o).class_ = .array) :
    getOwnProperty o Symbol.length w = .ok (some (.dataDescriptor
      (.newF64 (w.objects o).indexed.length)
      (createData { writable := (w.objects o).indexed.writable }).toExternal)) w := by
  have hown : getOwnPropertySlot o Symbol.length Slot.new w = .ok (true,
      Slot.new.set1 (JsValue.newF64 (w.objects o).indexed.length)
        (createData { writable := (w.objects o).indexed.writable }) (some o)) w := by
    change getOwnNonIndexedPropertySlot o Symbol.length Slot.new w = _
    unfold getOwnNonIndexedPropertySlot
    rw [Vm.object_bind, hc]
    rfl
  unfold getOwnProperty
  rw [Exec.bind_of_ok hown]
  rfl

theorem proper_of_toDescriptor (hc : HasCell s) (ht : s.attributes.Typed) (hv : HasValue d)
    (hd : s.toDescriptor w = .ok d w') : s.Proper := by
  refine ⟨ht, ?_⟩
  cases ha : s.attributes.accessor with
  | true =>
    obtain ⟨c, hc⟩ := (hc ha).resolve_left (filled_of_toDescriptor ht hd ha)
    rw [hc]
    rfl
  | false =>
    have hdata : s.attributes.data = true := by rw [ht.data_or_accessor, ha, Bool.not_false]
    unfold StoredSlot.toDescriptor at hd
    rw [if_pos hdata] at hd
    cases hd
    exact (hv rfl).2

theorem describes_of_getOwnProperty (h : w.Inv P) (ho : o < w.nextObject) (hv : HasValue d)
    (hstr : ¬ (isString (w.objects o).class_ ∧ (w.objects o).Special n))
    (hd : getOwnProperty o n w = .ok (some d) w') : Describes w o d n := by
  have hl := looksUp h ho n
  have hrun := hd
  obtain ⟨⟨found, slot⟩, w₁, hown, hrun⟩ := bind_eq_ok hrun
  obtain ⟨hr, hok⟩ := getOwnPropertySlot_ok h ho hown
  rw [hown] at hl
  cases hl with
  | special slot _ hs hp hdata =>
    -- of the classes that answer for a key themselves, only arrays are left
    have hn : ∀ i, n ≠ .index i := by
      rintro i rfl
      obtain ⟨text, hc, hlt⟩ := hs
      exact hstr ⟨by rw [hc]; trivial, ⟨text, hc, hlt⟩⟩
    obtain ⟨hover, rfl⟩ := (special_of_not_index hn _).mp hs
    have hc : (w.objects o).class_ = .array := by
      cases hc : (w.objects o).class_ with
      | array => rfl
      | string text => exact absurd ⟨by rw [hc]; trivial, hs⟩ hstr
      | object | function | global => rw [hc] at hover; exact hover.elim
    rw [getOwnProperty_length hc] at hd
    cases hd
    exact .length hc rfl
  | stored slot s _ hs hst hslot =>
    obtain ⟨d', w₂, hdesc, hret⟩ := bind_eq_ok hrun
    cases hret
    obtain ⟨hc, ht⟩ := hok rfl
    rw [hslot] at hdesc hc
    have ht : s.attributes.Typed := hslot ▸ ht
    exact .stored hs hst (proper_of_toDescriptor hc ht hv hdesc)
      (toDescriptor_congr hdesc fun c _ => by rw [hr.accessors])
  | absent slot _ hs hst => cases hrun

/-! ### Defining a property where it is -/

/-- Nothing that can be told of object `b` itself has changed. How its elements are stored may have, and
a function may have dropped the structure that it keeps for its instances. -/
structure Unchanged (w w' : World) (b : ℕ) : Prop where
  class_eq : (w'.objects b).class_ = (w.objects b).class_
  extensible : (w'.objects b).extensible = (w.objects b).extensible
  callable : (w'.objects b).callable = (w.objects b).callable
  prototype : w'.prototype b = w.prototype b
  length : (w'.objects b).indexed.length = (w.objects b).indexed.length
  writable : (w'.objects b).indexed.writable = (w.objects b).indexed.writable
  stored : ∀ n, storedOwn w' b n = storedOwn w b n
  accessor : ∀ n s c, storedOwn w b n = some s → s.cell = some c → w'.accessors c = w.accessors c

theorem Unchanged.trans {w'' : World} {b : ℕ} (h : Unchanged w w' b) (h' : Unchanged w' w'' b) :
    Unchanged w w'' b where
  class_eq := h'.class_eq.trans h.class_eq
  extensible := h'.extensible.trans h.extensible
  callable := h'.callable.trans h.callable
  prototype := h'.prototype.trans h.prototype
  length := h'.length.trans h.length
  writable := h'.writable.trans h.writable
  stored n := (h'.stored n).trans (h.stored n)
  accessor n s c hs hc :=
    (h'.accessor n s c ((h.stored n).trans hs) hc).trans (h.accessor n s c hs hc)

theorem storedOwn_of_sameObject {b : ℕ} (h : SameObject w w' b) (n : Symbol) :
    storedOwn w' b n = storedOwn w b n := by
  cases n <;> simp only [storedOwn, h.table, h.object]

theorem cellAt_of_storedOwn {b c : ℕ} (hs : storedOwn w b n = some s) (hc : s.cell = some c) :
    ∃ l, w.cellAt b l = some c := by
  cases n with
  | key t | priv t => exact ⟨.named _, World.cellAt_eq_some.mpr ⟨s, hs, hc⟩⟩
  | index i =>
    have ha := (StoredSlot.cell_eq_some.mp hc).1
    have hs : (w.objects b).indexed.stored i = some s := hs
    unfold IndexedElements.stored at hs
    split at hs
    · split at hs
      · cases hs
      · cases hs
        cases ha
    · split at hs
      · exact ⟨.sparse i, World.cellAt_eq_some.mpr ⟨s, hs, hc⟩⟩
      · cases hs

theorem World.SameObject.unchanged {b : ℕ} (h : SameObject w w' b) : Unchanged w w' b where
  class_eq := by rw [h.object]
  extensible := by rw [h.object]
  callable := by rw [h.object]
  prototype := h.prototype_eq
  length := by rw [h.object]
  writable := by rw [h.object]
  stored := storedOwn_of_sameObject h
  accessor n s c hs hc := by
    obtain ⟨l, hl⟩ := cellAt_of_storedOwn hs hc
    exact h.accessor l c hl

theorem World.Read.unchanged (hr : Read P w w') (h : w.Inv P) {b : ℕ} (hb : b < w.nextObject) :
    Unchanged w w' b :=
  World.SameObject.unchanged ((hr.grow h).frame b hb)

theorem unchanged_unconstructed (w : World) (o b : ℕ) : Unchanged w (w.unconstructed o) b := by
  by_cases hb : b = o
  · subst hb
    exact ⟨by simp, by simp, by simp, by simp [World.prototype, World.unconstructed], by simp, by simp,
      fun n => by cases n <;> simp [storedOwn, namedSlot], fun _ _ _ _ _ => rfl⟩
  · have hobj : (w.unconstructed o).objects b = w.objects b := by simp [World.unconstructed, hb]
    exact World.SameObject.unchanged
      ⟨hobj, Shapes.SameShape.refl _ _, fun _ _ _ => rfl⟩

theorem unchanged_withElements {ix : IndexedElements}
    (hlen : ix.length = (w.objects o).indexed.length)
    (hwr : ix.writable = (w.objects o).indexed.writable)
    (hst : ix.stored = (w.objects o).indexed.stored) (b : ℕ) :
    Unchanged w (w.withElements o ix) b := by
  by_cases hb : b = o
  · subst hb
    refine ⟨by simp [World.withElements], by simp [World.withElements], by simp [World.withElements],
      by simp [World.withElements, World.prototype], ?_, ?_, fun n => ?_, fun _ _ _ _ _ => rfl⟩
    · rw [indexed_withElements_self, hlen]
    · rw [indexed_withElements_self, hwr]
    · cases n with
      | index i => simp only [storedOwn, indexed_withElements_self, hst]
      | key t | priv t => simp [storedOwn, namedSlot, World.table, World.withElements]
  · have hobj : (w.withElements o ix).objects b = w.objects b := by simp [World.withElements, hb]
    exact World.SameObject.unchanged
      ⟨hobj, Shapes.SameShape.refl _ _, fun _ _ _ => rfl⟩

/-- The definition is accepted and changes nothing. -/
def Accepted (o : ℕ) (n : Symbol) (d : PropertyDescriptor) (throwable : Bool) (w : World) : Prop :=
  ∃ w', defineOwnProperty o n d throwable w = .ok true w' ∧ ∀ b, b < w.nextObject → Unchanged w w' b

theorem method_named (h : w.Inv P) (ho : o < w.nextObject) (hname : ∀ i, n ≠ .index i)
    (hs : namedSlot (w.table o) (w.objects o) n = some s)
    (hlen : ¬ (overridesLength (w.objects o).class_ ∧ n = Symbol.length)) (hp : s.Proper)
    (hd : s.toDescriptor w = .ok d w) (slot : Slot) (throwable : Bool) : ∃ slot' w',
      defineOwnNonIndexedPropertySlotMethod o n d slot throwable w = .ok (true, slot') w' ∧
        ∀ b, b < w.nextObject → Unchanged w w' b := by
  obtain ⟨w₁, k, hr, hown⟩ := getOwnNonIndexedPropertySlot_of_named h ho hs hlen slot
  have hacc := isDefinedPropertyAccepted_toDescriptor hp
    (toDescriptor_congr (v := w₁) hd fun c _ => by rw [hr.accessors]) throwable
  have hnot : s.attributes.isNotFound = false := hp.typed.isNotFound
  have hused : slot.isUsed = false := rfl
  have hfound : (!(slot.setWoffset s.value s.attributes (some o) k).isNotFound &&
      decide ((slot.setWoffset s.value s.attributes (some o) k).base = some o)) = true := by
    change (!s.attributes.isNotFound && decide (some o = some o)) = true
    rw [hnot, decide_eq_true rfl]
    rfl
  refine ⟨slot.setWoffset s.value s.attributes (some o) k, w₁, ?_, fun b hb => hr.unchanged h hb⟩
  unfold defineOwnNonIndexedPropertySlotMethod
  rw [hused, if_neg Bool.false_ne_true, getOwnPropertySlot_of_not_index hname, Exec.bind_of_ok hown]
  dsimp only
  rw [if_pos hfound]
  exact Exec.bind_of_ok hacc _

theorem accepted_named (h : w.Inv P) (ho : o < w.nextObject) (hname : ∀ i, n ≠ .index i)
    (hs : namedSlot (w.table o) (w.objects o) n = some s)
    (hlen : ¬ (overridesLength (w.objects o).class_ ∧ n = Symbol.length)) (hp : s.Proper)
    (hd : s.toDescriptor w = .ok d w) (throwable : Bool) : Accepted o n d throwable w := by
  have hslot : ∃ slot w', defineOwnPropertySlot o n d Slot.new throwable w = .ok (true, slot) w' ∧
      ∀ b, b < w.nextObject → Unchanged w w' b := by
    rw [defineOwnPropertySlot_of_not_index hname, defineOwnNonIndexedPropertySlot_eq fun hc => hlen ⟨by rw [hc.1]; trivial, hc.2⟩]
    split
    · -- the structure of the instances goes first
      have ht := h.touch_unconstructed ho
      have hs' : namedSlot ((w.unconstructed o).table o) ((w.unconstructed o).objects o) n = some s := by
        rw [World.table_unconstructed, World.object_unconstructed]
        exact hs
      obtain ⟨slot, w', hrun, hun⟩ := method_named ht.inv (ht.nextObject ▸ ho) hname hs'
        (by rw [ht.class_eq]; exact hlen) hp (toDescriptor_congr hd fun _ _ => rfl)
        Slot.new.makeUncacheable throwable
      exact ⟨slot, w', hrun, fun b hb =>
        (unchanged_unconstructed w o b).trans (hun b (ht.nextObject ▸ hb))⟩
    · exact method_named h ho hname hs hlen hp hd Slot.new throwable
  obtain ⟨slot, w', hrun, hun⟩ := hslot
  exact ⟨w', Exec.bind_of_ok hrun _, hun⟩

theorem internal_stored {i : ℕ} (h : (w.objects o).indexed.Sound)
    (hs : (w.objects o).indexed.stored i = some s) (hp : s.Proper) (hd : s.toDescriptor w = .ok d w)
    (throwable : Bool) : ∃ w', defineOwnIndexedPropertyInternal o i d throwable w = .ok true w' ∧
      ∀ b, Unchanged w w' b := by
  have hlt := h.lt_of_stored hs
  unfold defineOwnIndexedPropertyInternal
  rw [Vm.object_bind, if_neg (by simp [Nat.not_le.mpr hlt])]
  by_cases hm : (w.objects o).indexed.dense = true ∧ i < maxVectorSize
  · -- in the vector, the value is written over itself
    obtain ⟨hdense, hi⟩ := hm
    have hvec := h.stored_vector hdense hi
    rw [hs] at hvec
    split at hvec
    · cases hvec
    next hne =>
    obtain rfl := Option.some_inj.mp hvec
    have hin : i < (w.objects o).indexed.vector.length := by
      by_contra hc
      exact hne (by rw [getD_of_le (Nat.le_of_not_lt hc)]; rfl)
    rw [toDescriptor_of_data rfl] at hd
    cases hd
    obtain ⟨nonGc, hrun⟩ := defineOwnIndexeValueDenseInternal_inside hin
      ((w.objects o).indexed.vector.getD i .empty) false
    rw [if_neg Bool.false_ne_true] at hrun
    have hst := h.stored_storeDense hdense hi (fun hc => hne (isEmpty_iff.mpr hc)) nonGc
    rw [← hs, Function.update_eq_self] at hst
    have hlen : ((w.objects o).indexed.storeDense i ((w.objects o).indexed.vector.getD i .empty)
        nonGc).length = (w.objects o).indexed.length := max_eq_left (by omega)
    refine ⟨_, ?_, unchanged_withElements hlen rfl hst⟩
    rw [hdense, decide_eq_true hi]
    exact Exec.bind_of_ok hrun _
  · -- in the map, it is found there
    have hmap : (w.objects o).indexed.dense = true → maxVectorSize ≤ i := fun hc => by
      by_contra hlt
      exact hm ⟨hc, Nat.lt_of_not_le hlt⟩
    have hsp := h.stored_map hmap
    rw [hs, if_pos hlt] at hsp
    have hsmall : ((w.objects o).indexed.dense && decide (i < maxVectorSize)) = false := by
      rw [← Bool.not_eq_true, Bool.and_eq_true, decide_eq_true_eq]
      exact hm
    have hvec : ((w.objects o).indexed.dense &&
        decide (i < (w.objects o).indexed.vector.length)) = false := by
      rw [← Bool.not_eq_true, Bool.and_eq_true, decide_eq_true_eq]
      exact fun hc => hm ⟨hc.1, lt_of_lt_of_le hc.2 h.size⟩
    set w₁ := w.withElements o { (w.objects o).indexed with
      map := some ((w.objects o).indexed.map.getD ∅) } with hw₁
    have hun : ∀ b, Unchanged w w₁ b := unchanged_withElements rfl rfl (by
      funext j
      unfold IndexedElements.stored
      rw [sparse_getD_map])
    have hlook : ((w₁.objects o).indexed.map.getD ∅).lookup i = some s := by
      rw [hw₁, indexed_withElements_self, hsp, ← sparse_getD_map]
      rfl
    have hacc := isDefinedPropertyAccepted_toDescriptor hp
      (toDescriptor_congr (v := w₁) hd fun _ _ => rfl) throwable
    refine ⟨w₁, ?_, hun⟩
    rw [if_neg (by grind), if_neg (by grind)]
    have honly : ((w.objects o).indexed.dense && !d.attrs.isDefault && decide (i < maxVectorSize)) =
        false := by grind
    rw [honly]
    change defineOwnIndexedSparse o i d throwable w = _
    unfold defineOwnIndexedSparse
    rw [Exec.bind_of_ok (modifyIndexed_apply _ _ _), Vm.object_bind]
    dsimp only
    rw [hlook]
    exact Exec.bind_of_ok hacc _

theorem accepted_index {i : ℕ} (h : (w.objects o).indexed.Sound) (htext : ¬ (w.objects o).InText i)
    (hs : (w.objects o).indexed.stored i = some s) (hp : s.Proper) (hd : s.toDescriptor w = .ok d w)
    (throwable : Bool) : Accepted o (.index i) d throwable w := by
  have hslot : ∃ slot w', defineOwnIndexedPropertySlot o i d Slot.new throwable w =
      .ok (true, slot) w' ∧ ∀ b, Unchanged w w' b := by
    unfold defineOwnIndexedPropertySlot
    rw [Vm.object_bind]
    cases hover : overridesIndexed (w.objects o).class_ with
    | false =>
      obtain ⟨w', hrun, hun⟩ := internal_stored h hs hp hd throwable
      exact ⟨_, w', Exec.bind_of_ok hrun _, hun⟩
    | true =>
      have hown := getOwnIndexedPropertySlot_of_not_inText htext Slot.new
      rw [getOwnIndexedPropertySlotMethod_eq, hs] at hown
      have hfound : (!(Slot.new.set1 s.value s.attributes (some o)).isNotFound &&
          decide ((Slot.new.set1 s.value s.attributes (some o)).base = some o)) = true := by
        change (!s.attributes.isNotFound && decide (some o = some o)) = true
        rw [hp.typed.isNotFound, decide_eq_true rfl]
        rfl
      have hacc := isDefinedPropertyAccepted_toDescriptor hp hd throwable
      refine ⟨Slot.new.set1 s.value s.attributes (some o), w, ?_,
        fun b => World.SameObject.unchanged (SameObject.refl w b)⟩
      rw [if_pos rfl, Exec.bind_of_ok hown]
      dsimp only
      rw [if_pos hfound]
      exact Exec.bind_of_ok hacc _
  obtain ⟨slot, w', hrun, hun⟩ := hslot
  exact ⟨w', Exec.bind_of_ok hrun _, fun b _ => hun b⟩

theorem accepted_length (hc : (w.objects o).class_ = .array)
    (hlt : (w.objects o).indexed.length < 2 ^ 32)
    (hd : d = .dataDescriptor (.newF64 (w.objects o).indexed.length)
      (createData { writable := (w.objects o).indexed.writable }).toExternal) (throwable : Bool) :
    Accepted o Symbol.length d throwable w := by
  subst hd
  have hasks : AsksLength (.dataDescriptor (.newF64 (w.objects o).indexed.length)
      (createData { writable := (w.objects o).indexed.writable }).toExternal)
      (w.objects o).indexed.length :=
    ⟨rfl, rfl, rfl, rfl, (asksLength_assignDesc hlt).number⟩
  have hrun := defineOwnProperty_length hc hasks throwable
  rw [Vm.object_bind, if_pos rfl] at hrun
  have hself := w.withElements_self o
  refine ⟨w, hrun.trans ?_, fun b _ => World.SameObject.unchanged (SameObject.refl w b)⟩
  cases hw : (w.objects o).indexed.writable with
  | true =>
    change changeLengthWritable o true throwable w = _
    rw [changeLengthWritable_eq hw, ← hw, hself]
  | false =>
    change Result.ok true (w.withElements o { (w.objects o).indexed with writable := false }) = _
    rw [← hw, hself]

/-- **A property may always be defined again where it is**, and nothing changes. -/
theorem Describes.accepted (hdesc : Describes w o d n) (h : w.Inv P) (ho : o < w.nextObject)
    (hsound : (w.objects o).indexed.Sound)
    (hlt : (w.objects o).class_ = .array → (w.objects o).indexed.length < 2 ^ 32)
    (throwable : Bool) : Accepted o n d throwable w := by
  cases hdesc with
  | @stored _ s hn hs hp hd =>
    have hnamed (hname : ∀ i, n ≠ .index i) : Accepted o n d throwable w :=
      accepted_named h ho hname ((storedOwn_of_not_index hname).symm.trans hs)
        ((special_of_not_index hname _).not.mp hn) hp hd throwable
    cases n with
    | index i => exact accepted_index hsound hn hs hp hd throwable
    | key t | priv t => exact hnamed (by simp)
  | length hc hd => exact accepted_length hc (hlt hc) hd throwable

/-! ### Defining a property on a new object -/

variable {t : ℕ}

/-- Object `t` is a plain object without properties that takes new ones. -/
structure Fresh (w : World) (t : ℕ) : Prop where
  lt : t < w.nextObject
  class_eq : (w.objects t).class_ = .object
  extensible : (w.objects t).extensible = true
  table : w.table t = ∅
  indexed : (w.objects t).indexed = .new

theorem Fresh.of_sameObject (h : Fresh w t) (hs : SameObject w w' t)
    (hle : w.nextObject ≤ w'.nextObject) : Fresh w' t where
  lt := lt_of_lt_of_le h.lt hle
  class_eq := by rw [hs.object, h.class_eq]
  extensible := by rw [hs.object, h.extensible]
  table := hs.table.trans h.table
  indexed := by rw [hs.object, h.indexed]

theorem storedSlotNew_whole (hd : d.Whole) (w : World) : ∃ s w', StoredSlot.new d w = .ok s w' ∧
    w'.objects = w.objects ∧ s.attributes.Typed ∧ Filled s ∧
      ∀ v : World, v.accessors = w'.accessors → s.toDescriptor v = .ok d v := by
  cases hd with
  | @data v a ht hd =>
    obtain ⟨wr, e, c, data, acc⟩ := a
    obtain rfl : data = true := hd
    obtain rfl : acc = false := ht.not_accessor_of_data rfl
    exact ⟨_, w, rfl, rfl, ht, fun hc => (nomatch hc), fun u _ => rfl⟩
  | @accessor g u a ht ha =>
    obtain ⟨wr, e, c, data, acc⟩ := a
    obtain rfl : acc = true := ha
    obtain rfl : data = false := ht.data_or_accessor
    obtain rfl : wr = false := ht.not_writable rfl
    refine ⟨_, _, rfl, rfl, ht, fun _ hc => (nomatch hc), fun v hv => ?_⟩
    rw [toDescriptor_of_accessor rfl rfl rfl, hv]
    simp only [Function.update_self]
    rfl

theorem getOwnProperty_named (h : w.Inv P) (ho : o < w.nextObject) (hname : ∀ i, n ≠ .index i)
    (hs : namedSlot (w.table o) (w.objects o) n = some s)
    (hlen : ¬ (overridesLength (w.objects o).class_ ∧ n = Symbol.length))
    (hd : s.toDescriptor w = .ok d w) : ∃ w', getOwnProperty o n w = .ok (some d) w' := by
  obtain ⟨w₁, k, hr, hown⟩ := getOwnNonIndexedPropertySlot_of_named h ho hs hlen Slot.new
  have hd₁ : s.toDescriptor w₁ = .ok d w₁ := toDescriptor_congr hd fun c _ => by rw [hr.accessors]
  refine ⟨w₁, ?_⟩
  unfold getOwnProperty
  rw [getOwnPropertySlot_of_not_index hname, Exec.bind_of_ok hown]
  dsimp only
  rw [if_pos rfl]
  exact Exec.bind_of_ok hd₁ _

theorem getOwnProperty_index {i : ℕ} (htext : ¬ (w.objects o).InText i)
    (hs : (w.objects o).indexed.stored i = some s) (hd : s.toDescriptor w = .ok d w) :
    getOwnProperty o (.index i) w = .ok (some d) w := by
  have hown := getOwnIndexedPropertySlot_of_not_inText htext Slot.new
  rw [getOwnIndexedPropertySlotMethod_eq, hs] at hown
  have hown : getOwnPropertySlot o (.index i) Slot.new w =
      .ok (true, Slot.new.set1 s.value s.attributes (some o)) w := hown
  unfold getOwnProperty
  rw [Exec.bind_of_ok hown]
  dsimp only
  rw [if_pos rfl]
  exact Exec.bind_of_ok hd _

def Created (t : ℕ) (n : Symbol) (d : PropertyDescriptor) (throwable : Bool) (w : World) : Prop :=
  ∃ w' w'', defineOwnProperty t n d throwable w = .ok true w' ∧
    getOwnProperty t n w' = .ok (some d) w''

theorem Fresh.made (h : Fresh w t) : Made w t (w.prototype t) fun _ => none :=
  ⟨h.lt, h.class_eq, h.extensible, rfl, fun n => by simp [h.table, namedSlot]⟩

theorem Fresh.created_named (hf : Fresh w t) (h : w.Inv layoutPolicy) (hname : ∀ i, n ≠ .index i)
    (hd : d.Whole) (throwable : Bool) : Created t n d throwable w := by
  have hm := hf.made
  have hnone : namedSlot (w.table t) (w.objects t) n = none := hm.slots n
  obtain ⟨w₁, hr, hdef⟩ :=
    defineOwnProperty_new h hf.lt hname hf.class_eq hf.extensible hnone d throwable
  have hm₁ := hr.made h hm
  obtain ⟨s, w₂, hnew, hobj, hty, -, hdesc⟩ := storedSlotNew_whole hd w₁
  have hguard : Guards layoutPolicy False t w₁ (StoredSlot.new d w₁) fun s w' =>
      Storable layoutPolicy w' t (.named n) s ∧ w'.objects = w₁.objects ∧ w'.shapes = w₁.shapes :=
    guards_storedSlotNew hr.inv hm₁.lt _ trivial fun _ _ _ _ => trivial
  obtain ⟨hg₂, -, -, hsh⟩ := Result.Sat.of_ok hguard hnew
  have ht₂ := hg₂.toTouch
  have hnone₂ : namedSlot (w₂.table t) (w₂.objects t) n = none := by
    rw [World.table, hsh, hobj]
    exact hm₁.slots n
  obtain ⟨off, w₃, hadd, hst, -⟩ := addProperty_ok ht₂.inv (ht₂.nextObject ▸ hm₁.lt) hnone₂ hty
  rw [Exec.bind_of_ok hnew, Exec.bind_of_ok hadd] at hdef
  have hlen : ∀ v : World, (v.objects t).class_ = (w.objects t).class_ →
      ¬ (overridesLength (v.objects t).class_ ∧ n = Symbol.length) := fun v hc => by
    rw [hc, hf.class_eq]
    exact fun hl => hl.1
  have hguard : Guards layoutPolicy False t w (defineOwnProperty t n d throwable w) fun _ _ => True :=
    guards_defineOwnProperty h hf.lt throwable trivial (.inr (.inr ⟨hlen w rfl,
      ⟨fun _ _ => trivial, fun _ _ _ _ _ _ _ => trivial⟩⟩)) False.elim
  have ht := (Result.Sat.of_ok hguard hdef).1.toTouch
  obtain ⟨w₄, hget⟩ := getOwnProperty_named ht.inv (ht.nextObject ▸ hf.lt) hname hst.self
    (hlen w₃ (ht.class_eq t)) (hdesc w₃ hst.others.accessors)
  exact ⟨w₃, w₄, hdef, hget⟩

theorem whole_of_isDefault (hd : d.Whole) (hdef : d.attrs.isDefault = true) :
    d = .dataDescriptor d.fst objectData.toExternal := by
  cases hd with
  | @data v a ht hd =>
    obtain ⟨wr, e, c, data, acc⟩ := a
    obtain rfl : data = true := hd
    obtain rfl : acc = false := ht.not_accessor_of_data rfl
    have hdef : (c && e && true && wr) = true := hdef
    simp only [Bool.and_true, Bool.and_eq_true] at hdef
    obtain ⟨⟨rfl, rfl⟩, rfl⟩ := hdef
    rfl
  | @accessor g u a ht ha =>
    have hd : a.data = false := by rw [ht.data_or_accessor, ha, Bool.not_true]
    simp [PropertyDescriptor.accessorDescriptor, AttrExternal.isDefault, AttrSafe.toExternal,
      hd] at hdef

/-- An element that is not there may be written to the map. -/
def ReadyForMap (ix : IndexedElements) (i : ℕ) : Prop :=
  ix.Sound ∧ (ix.dense = true → maxVectorSize ≤ i) ∧ (ix.map.getD ∅).lookup i = none

theorem sparse_created {i : ℕ} (hext : (w.objects t).extensible = true)
    (hix : ReadyForMap (w.objects t).indexed i) (hd : d.Whole) (throwable : Bool) :
    ∃ w' s, defineOwnIndexedSparse t i d throwable w = .ok true w' ∧
      (w'.objects t).class_ = (w.objects t).class_ ∧ (w'.objects t).indexed.stored i = some s ∧
      s.toDescriptor w' = .ok d w' := by
  obtain ⟨hsound, hdense, hnone⟩ := hix
  set w₁ := w.withElements t { (w.objects t).indexed with
    map := some ((w.objects t).indexed.map.getD ∅) } with hw₁
  obtain ⟨σ, r, hmake⟩ := makeIndexed_ok t w₁
  set w₂ := w₁.moved t σ r with hw₂
  have hix₂ : (w₂.objects t).indexed = { (w.objects t).indexed with
      map := some ((w.objects t).indexed.map.getD ∅) } := by
    rw [hw₂, World.indexed_moved, hw₁, indexed_withElements_self]
  set ix₃ := if (w₂.objects t).indexed.length ≤ i then (w₂.objects t).indexed.setLength (i + 1)
    else (w₂.objects t).indexed with hix₃
  have hsound₃ : ix₃.Sound := by
    rw [hix₃]
    refine Sound.raiseLength ?_ i
    rw [hix₂]
    exact sound_getD_map hsound
  have hdense₃ : ix₃.dense = true → maxVectorSize ≤ i := by
    rw [hix₃, dense_raiseLength, hix₂]
    exact hdense
  have hlt : i < ix₃.length := by
    rw [hix₃]
    split
    · exact Nat.lt_succ_self i
    · omega
  set w₃ := w₂.withElements t ix₃ with hw₃
  obtain ⟨s, w₄, hnew, hobj, -, hfill, hdesc⟩ := storedSlotNew_whole hd w₃
  have hix₄ : (w₄.objects t).indexed = ix₃ := by rw [hobj, hw₃, indexed_withElements_self]
  refine ⟨_, s, ?_, ?_, ?_, hdesc (w₄.withElements t (ix₃.storeSparse i s
    (ix₃.nonGc && !d.fst.isObject))) rfl⟩
  · have hraise : modifyIndexed t (fun ix => if ix.length ≤ i then ix.setLength (i + 1) else ix) w₂ =
        .ok () w₃ := modifyIndexed_apply _ _ _
    have hlook : ((w₁.objects t).indexed.map.getD ∅).lookup i = none := by
      rw [hw₁, indexed_withElements_self]
      exact hnone
    have hext₁ : (w₁.objects t).extensible = true := by simpa [hw₁, World.withElements] using hext
    unfold defineOwnIndexedSparse
    rw [Exec.bind_of_ok (modifyIndexed_apply _ _ _), Vm.object_bind]
    dsimp only
    rw [hlook]
    dsimp only
    rw [hext₁, Bool.not_true, if_neg Bool.false_ne_true, Exec.bind_of_ok hmake, Exec.bind_of_ok hraise,
      Exec.bind_of_ok hnew, ← hix₄]
    rfl
  · simp only [World.withElements, Function.update_self]
    rw [hobj]
    simp [hw₃, hw₂, hw₁, World.withElements, World.moved]
  · rw [indexed_withElements_self, hsound₃.stored_storeSparse hdense₃ hfill _ hlt,
      Function.update_self]

theorem Fresh.created_index {i : ℕ} (hf : Fresh w t) (hd : d.Whole) (hv : HasValue d)
    (throwable : Bool) : Created t (.index i) d throwable w := by
  have hint : ∃ w' s, defineOwnIndexedPropertyInternal t i d throwable w = .ok true w' ∧
      (w'.objects t).class_ = (w.objects t).class_ ∧ (w'.objects t).indexed.stored i = some s ∧
      s.toDescriptor w' = .ok d w' := by
    have hnew : (new.dense && d.attrs.isDefault && decide (i < maxVectorSize)) =
        (d.attrs.isDefault && decide (i < maxVectorSize)) := rfl
    unfold defineOwnIndexedPropertyInternal
    rw [Vm.object_bind, hf.indexed, if_neg (by simp [IndexedElements.new]), hnew]
    by_cases hvec : (d.attrs.isDefault && decide (i < maxVectorSize)) = true
    · -- an ordinary property goes to the vector
      obtain ⟨hdef, hi⟩ := Bool.and_eq_true_iff.mp hvec
      have hi := of_decide_eq_true hi
      have hwhole := whole_of_isDefault hd hdef
      have hdata : d.attrs.data = true := by rw [hwhole]; rfl
      have hval : d.attrs.undefValue = false := by rw [hwhole]; rfl
      obtain ⟨σ, r, nonGc, -, hrun⟩ := defineOwnIndexeValueDenseInternal_eq t i d.fst false w
      rw [if_neg Bool.false_ne_true, hf.indexed] at hrun
      refine ⟨(w.moved t σ r).withElements t (new.storeDense i d.fst nonGc), ⟨d.fst, objectData⟩,
        ?_, ?_, ?_, ?_⟩
      · rw [if_pos hvec, hval]
        exact Exec.bind_of_ok hrun _
      · simp [World.withElements, World.moved]
      · rw [indexed_withElements_self, sound_new.stored_storeDense rfl hi (hv hdata).1,
          Function.update_self]
      · exact (toDescriptor_of_data rfl _).trans (by rw [← hwhole])
    · -- all others go to the map
      have habsent : (new.dense && !d.attrs.isDefault && isAbsentDescriptor d &&
          decide (i < new.vector.length) && !(new.vector.getD i .empty).isEmpty) = false := by
        simp [IndexedElements.new]
      set ix := if (new.dense && !d.attrs.isDefault && decide (i < maxVectorSize)) = true
        then new.makeSparse else new with hix
      have honly : Vm.onlyIf (new.dense && !d.attrs.isDefault && decide (i < maxVectorSize))
          (modifyIndexed t IndexedElements.makeSparse) w = .ok () (w.withElements t ix) := by
        unfold Vm.onlyIf
        rw [hix]
        split
        · rw [modifyIndexed_apply, hf.indexed]
        · rw [← hf.indexed, World.withElements_self]
          rfl
      have hready : ReadyForMap ((w.withElements t ix).objects t).indexed i := by
        rw [indexed_withElements_self, hix]
        split
        · refine ⟨sound_new.makeSparse, fun hc => absurd hc Bool.false_ne_true, ?_⟩
          exact Finmap.lookup_empty i
        · next hc =>
          refine ⟨sound_new, fun _ => ?_, Finmap.lookup_empty i⟩
          by_contra hlt
          have hlt : i < maxVectorSize := Nat.lt_of_not_le hlt
          cases hdef : d.attrs.isDefault with
          | true => exact hvec (by rw [hdef, decide_eq_true hlt]; rfl)
          | false => exact hc (by rw [hdef, decide_eq_true hlt]; rfl)
      obtain ⟨w', s, hrun, hclass, hs, hdesc⟩ := sparse_created
        (by simpa [World.withElements] using hf.extensible) hready hd throwable
      refine ⟨w', s, ?_, hclass.trans (by simp [World.withElements]), hs, hdesc⟩
      rw [if_neg hvec, habsent, if_neg Bool.false_ne_true, Exec.bind_of_ok honly]
      exact hrun
  obtain ⟨w', s, hrun, hclass, hs, hdesc⟩ := hint
  have hno : ¬ (w'.objects t).InText i := by
    rintro ⟨text, hc, -⟩
    rw [hclass, hf.class_eq] at hc
    cases hc
  have hslot : defineOwnPropertySlot t (.index i) d Slot.new throwable w = .ok (true, Slot.new) w' := by
    change defineOwnIndexedPropertySlot t i d Slot.new throwable w = _
    unfold defineOwnIndexedPropertySlot
    rw [Vm.object_bind, hf.class_eq]
    exact Exec.bind_of_ok hrun _
  exact ⟨w', w', Exec.bind_of_ok hslot _, getOwnProperty_index hno hs hdesc⟩

theorem Fresh.created (hf : Fresh w t) (h : w.Inv layoutPolicy) (hd : d.Whole) (hv : HasValue d)
    (throwable : Bool) : Created t n d throwable w := by
  cases n with
  | index i => exact hf.created_index hd hv throwable
  | key t | priv t => exact hf.created_named h (by simp) hd throwable

/-! ### The round trip -/

variable {call : JsValue → JsValue → Vm JsValue} {r : ℕ}

structure PlainStructure (w : World) (r : ℕ) : Prop where
  lt : r < w.shapes.nextStructure
  shared : w.shapes.Shared r
  view : w.shapes.view r = ∅

theorem Grow.isFunction (hg : Grow P w w') {v : JsValue} (hv : IsFunction w v) : IsFunction w' v := by
  rcases hv with hv | ⟨g, hv, hlt, hc⟩
  · exact .inl hv
  · exact .inr ⟨g, hv, lt_of_lt_of_le hlt hg.nextObject_le, by rw [(hg.frame g hlt).object, hc]⟩

theorem descriptor_read (call : JsValue → JsValue → Vm JsValue) (strict : ℕ → Bool)
    (h : w.Inv layoutPolicy) (ho : o < w.nextObject) (hr : PlainStructure w r)
    (hd : getOwnProperty o n w = .ok (some d) w') (hf : Functions w d) (hp : Unpolluted w r d) :
    ∃ w₁ w₂, objectGetOwnPropertyDescriptor r (.object o) n w = .ok (.object w.nextObject) w₁ ∧
      toPropertyDescriptorOf call strict (.object w.nextObject) w₁ = .ok d w₂ ∧
      Grow layoutPolicy w w₂ := by
  obtain ⟨w₁, hrun, hg, hm⟩ := objectGetOwnPropertyDescriptor_ok h ho hr.lt hr.shared hr.view hd
  have ha : Answers w₁ w.nextObject d.field := hm.answers h hg fun q hq =>
    ⟨h.proto_lt hr.lt hq, hp q hq⟩
  have hf₁ : Functions w₁ d := fun hdata =>
    ⟨hg.isFunction (hf hdata).1, hg.isFunction (hf hdata).2⟩
  obtain ⟨w₂, hread, hr₂⟩ := toPropertyDescriptorOf_answers call strict hg.inv ha
    (whole_of_getOwnProperty h ho hd) hf₁
  exact ⟨w₁, w₂, hrun, hread, hg.trans (hr₂.grow hg.inv)⟩

theorem Describes.of_sameObject (hdesc : Describes w o d n) (hs : SameObject w w' o) :
    Describes w' o d n := by
  cases hdesc with
  | @stored _ s hn hst hp hd =>
    refine .stored (by rw [hs.object]; exact hn) ((storedOwn_of_sameObject hs n).trans hst) hp
      (toDescriptor_congr hd fun c hc => ?_)
    obtain ⟨l, hl⟩ := cellAt_of_storedOwn hst hc
    exact hs.accessor l c hl
  | length hc hd => exact .length (by rw [hs.object, hc]) (by rw [hs.object, hd])

/-- **Descriptor objects round trip.** As long as plain objects inherit no field of the other kind, the
object that describes an own property makes a property with the same description of a new object, and is
accepted without any change where the property is. The second does not hold of what string objects
answer for themselves. Of any object, `to_property_descriptor` marks as absent exactly the fields that
the object does not have. -/
theorem descriptor_round_trip (hcall : RunsCode call) (strict : ℕ → Bool)
    (h : Reachable (fun w op => op.KeepsSlots w) w) (ho : o < w.nextObject)
    (hr : PlainStructure w r) :
    (∀ n d w', getOwnProperty o n w = .ok (some d) w' → HasValue d → Functions w d →
      Unpolluted w r d →
      ((w.objects o).class_ = .array → (w.objects o).indexed.length < 2 ^ 32) →
      ∃ res w₁, objectGetOwnPropertyDescriptor r (.object o) n w = .ok (.object res) w₁ ∧
        (∀ t, Fresh w t → ∃ w₂ w₃,
          objectDefineProperty call strict (.object t) n (.object res) w₁ = .ok (.object t) w₂ ∧
            getOwnProperty t n w₂ = .ok (some d) w₃) ∧
        (¬ (isString (w.objects o).class_ ∧ (w.objects o).Special n) → ∃ w₂,
          objectDefineProperty call strict (.object o) n (.object res) w₁ = .ok (.object o) w₂ ∧
            ∀ b, b < w.nextObject → Unchanged w w₂ b)) ∧
    ∀ d w', toPropertyDescriptorOf call strict (.object o) w = .ok d w' →
      Asks call strict o w d.absences w' := by
  have hinv := h.layout_inv
  refine ⟨fun n d w' hd hv hf hp hlt => ?_, fun d w' hrun => asks_absences hcall hinv ho hrun⟩
  obtain ⟨w₁, w₂, hrun, hread, hg⟩ := descriptor_read call strict hinv ho hr hd hf hp
  refine ⟨w.nextObject, w₁, hrun, fun t ht => ?_, fun hstr => ?_⟩
  · have ht₂ := ht.of_sameObject (hg.frame t ht.lt) hg.nextObject_le
    obtain ⟨w₃, w₄, hdef, hget⟩ : Created t n d true w₂ :=
      ht₂.created hg.inv (whole_of_getOwnProperty hinv ho hd) hv true
    exact ⟨w₃, w₄, (Exec.bind_of_ok hread _).trans (Exec.bind_of_ok hdef _), hget⟩
  · have hs := hg.frame o ho
    have hdesc := (describes_of_getOwnProperty hinv ho hv hstr hd).of_sameObject hs
    obtain ⟨w₃, hdef, hun⟩ : Accepted o n d true w₂ :=
      hdesc.accepted hg.inv (lt_of_lt_of_le ho hg.nextObject_le)
        (by rw [hs.object]; exact h.soundElements o) (by rw [hs.object]; exact hlt) true
    exact ⟨w₃, (Exec.bind_of_ok hread _).trans (Exec.bind_of_ok hdef _), fun b hb =>
      (World.SameObject.unchanged (hg.frame b hb)).trans
        (hun b (lt_of_lt_of_le hb hg.nextObject_le))⟩

/-- The character of a string object, defined again where it is, is stored behind the text. -/
example : ((defineOwnProperty 0 (.index 0)
    (.dataDescriptor (.string 0 "a") stringIndexed.toExternal) true
    (loneWorld (.string "a"))).state?.map fun w => ((w.objects 0).indexed.stored 0).isSome) =
      some true := by decide +kernel

/-- Calls that never end normally. -/
def noCall : JsValue → JsValue → Vm JsValue := fun _ _ => Exec.fail .panic

theorem runsCode_noCall : RunsCode noCall := fun _ _ _ _ _ h => nomatch h

/-- An array, a plain object, and a structure for more of them, all without prototype. -/
noncomputable def plainWorld : World := (loneWorld .array).after (.newObject 0 .object)

theorem reachable_plainWorld : Reachable (fun w op => op.KeepsSlots w) plainWorld :=
  (reachable_loneWorld .array).step (.newObject 0 .object) (show 0 < 1 by decide)
    (show _ = true from rfl) rfl

theorem plainStructure_plainWorld : PlainStructure plainWorld 0 :=
  ⟨show 0 < 1 by decide, show _ = true from rfl, rfl⟩

theorem unpolluted_plainWorld (d : PropertyDescriptor) : Unpolluted plainWorld 0 d :=
  fun _ hp => nomatch hp

/-- The length of the array, defined on the plain object. -/
theorem descriptor_round_trip_plainWorld : ∃ res w₁,
    objectGetOwnPropertyDescriptor 0 (.object 0) Symbol.length plainWorld = .ok (.object res) w₁ ∧
      ∃ w₂, objectDefineProperty noCall (fun _ => false) (.object 1) Symbol.length (.object res) w₁ =
        .ok (.object 1) w₂ := by
  obtain ⟨res, w₁, hrun, hdef, -⟩ := (descriptor_round_trip runsCode_noCall (fun _ => false)
    reachable_plainWorld (show 0 < 2 by decide) plainStructure_plainWorld).1 Symbol.length _ _
    (getOwnProperty_length rfl) (fun _ => ⟨nofun, rfl⟩) nofun (unpolluted_plainWorld _)
    fun _ => by decide
  obtain ⟨w₂, -, hdef, -⟩ := hdef 1 ⟨show 1 < 2 by decide, rfl, rfl, rfl, rfl⟩
  exact ⟨res, w₁, hrun, w₂, hdef⟩

/-- The prototype of plain objects has a property `get`; there are an array and a plain object. -/
noncomputable def pollutedWorld : World :=
  ((((loneWorld .object).after (.on 0 (.put (.key "get") .undefined true))).after
    (.newStructure (some 0) false)).after (.newObject 2 .array)).after (.newObject 2 .object)

theorem reachable_pollutedWorld : Reachable (fun w op => op.KeepsSlots w) pollutedWorld := by
  have h₁ := (reachable_loneWorld .object).step (.on 0 (.put (.key "get") .undefined true))
    (show 0 < 1 by decide) trivial rfl
  have h₂ := h₁.step (.newStructure (some 0) false)
    (fun p hp => by cases hp; exact show 0 < 1 by decide) trivial rfl
  have h₃ := h₂.step (.newObject 2 .array) (show 2 < 3 by decide) (show _ = true from rfl) rfl
  exact h₃.step (.newObject 2 .object) (show 2 < 3 by decide) (show _ = true from rfl) rfl

def endsNormally {α : Type} : Result Fault World α → Bool
  | .ok _ _ => true
  | _ => false

/-- The object that describes the length of the array inherits `get`, so that it describes nothing. -/
theorem not_descriptor_round_trip :
    ¬ ∀ w, Reachable (fun w op => op.KeepsSlots w) w → ∀ o r, o < w.nextObject → PlainStructure w r →
      ∀ n d w', getOwnProperty o n w = .ok (some d) w' → HasValue d → Functions w d →
        ((w.objects o).class_ = .array → (w.objects o).indexed.length < 2 ^ 32) →
        ∃ res w₁, objectGetOwnPropertyDescriptor r (.object o) n w = .ok (.object res) w₁ ∧
          ∀ t, Fresh w t → ∃ w₂,
            objectDefineProperty noCall (fun _ => false) (.object t) n (.object res) w₁ =
              .ok (.object t) w₂ := by
  intro h
  obtain ⟨res, w₁, hrun, hdef⟩ := h pollutedWorld reachable_pollutedWorld 1 2 (show 1 < 3 by decide)
    ⟨show 2 < 3 by decide, show _ = true from rfl, rfl⟩ Symbol.length _ _ (getOwnProperty_length rfl)
    (fun _ => ⟨nofun, rfl⟩) nofun fun _ => by decide
  obtain ⟨w₂, hdef⟩ := hdef 2 ⟨show 2 < 3 by decide, rfl, rfl, rfl, rfl⟩
  have hboth := (Exec.bind_of_ok hrun fun res => objectDefineProperty noCall (fun _ => false) (.object 2)
    Symbol.length res).trans hdef
  have hthrow : endsNormally ((objectGetOwnPropertyDescriptor 2 (.object 1) Symbol.length >>= fun res =>
      objectDefineProperty noCall (fun _ => false) (.object 2) Symbol.length res) pollutedWorld) =
        false := by decide +kernel
  rw [hboth] at hthrow
  cases hthrow

end Starlight
