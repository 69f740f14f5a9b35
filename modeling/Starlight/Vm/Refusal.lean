import Starlight.Vm.HeapRuns

/-!
# Refused operations

What the operations answer that would change a property which cannot be configured. Here the outcome
is computed exactly: the lookup finds the property and changes nothing observable, and the operation
then either throws a `TypeError` or answers `false`, as its caller asked for. An assignment to a
read-only property is the exception: without the flag it answers nothing at all.
-/

namespace Starlight

open JsObject World

variable {α : Type} {P : Policy} {w w' : World} {o : ℕ}

/-- Object `o` is left as it was, and the operation answers `value` or throws a `TypeError`, as its
caller asked for. -/
def Refused (w : World) (o : ℕ) (throwable : Bool) (value : α) (r : Result Fault World α) : Prop :=
  ∃ w', SameOwn w w' o ∧ if throwable then ∃ msg, r = .error (.throw (.typeError msg)) w'
    else r = .ok value w'

theorem World.Read.sameOwn (h : Read P w w') (hw : w.Inv P) (ho : o < w.nextObject) :
    SameOwn w w' o :=
  ((h.touch hw (o + 1)).frame o ho (Nat.ne_of_lt (Nat.lt_succ_self o))).sameOwn

theorem refused_reject (h : SameOwn w w' o) (throwable : Bool) (msg : String) (value : α)
    {r : Result Fault World α} (hr : r = Vm.reject throwable msg value w') :
    Refused w o throwable value r := by
  refine ⟨w', h, ?_⟩
  cases throwable with
  | true => exact ⟨msg, hr⟩
  | false => exact hr

theorem Refused.bind {β : Type} {throwable : Bool} {value : α} {x : Vm α} {f : α → Vm β} {b : β}
    (h : Refused w o throwable value (x w')) (hf : f value = pure b) :
    Refused w o throwable b ((x >>= f) w') := by
  obtain ⟨w₁, hsame, hr⟩ := h
  refine ⟨w₁, hsame, ?_⟩
  cases throwable with
  | true =>
    obtain ⟨msg, hr⟩ := hr
    exact ⟨msg, by rw [Exec.bind_apply, hr]⟩
  | false => exact (Exec.bind_of_ok hr f).trans (by rw [hf]; rfl)

/-! ### The own lookup -/

theorem getOwnNonIndexedPropertySlot_of_named (h : w.Inv P) (ho : o < w.nextObject) {name : Symbol}
    {s : StoredSlot} (hs : namedSlot (w.table o) (w.objects o) name = some s)
    (hlen : ¬ (overridesLength (w.objects o).class_ ∧ name = Symbol.length)) (slot : Slot) :
    ∃ w' k, Read P w w' ∧ getOwnNonIndexedPropertySlot o name slot w =
      .ok (true, slot.setWoffset s.value s.attributes (some o) k) w' := by
  obtain ⟨e, he, hs⟩ := Option.bind_eq_some_iff.mp hs
  obtain ⟨v, hv, rfl⟩ := Option.map_eq_some_iff.mp hs
  obtain ⟨w₁, hget⟩ : ∃ w₁, Vm.structureGet o name w = .ok (some e) w₁ ∧ Read P w w₁ := by
    obtain ⟨hr, heq⟩ := reads_structureGet h ho name
    exact ⟨_, congrArg₂ Result.ok (heq.trans he) rfl, hr⟩
  obtain ⟨hget, hr⟩ := hget
  have hmethod : getOwnNonIndexedPropertySlotMethod o name slot w =
      .ok (true, slot.setWoffset v e.attrs (some o) e.offset) w₁ := by
    unfold getOwnNonIndexedPropertySlotMethod
    rw [Exec.bind_of_ok hget]
    have htyped := h.shapes.typed (h.live ho) he
    simp only [htyped.isNotFound, Bool.false_eq_true, if_false]
    rw [Exec.bind_of_ok (Vm.direct_of_lt (by rw [hr.objects]; exact hv))]
    rfl
  refine ⟨w₁, e.offset, hr, ?_⟩
  unfold getOwnNonIndexedPropertySlot
  rw [Vm.object_bind]
  cases hc : (w.objects o).class_ with
  | array | string value =>
    dsimp only
    rw [if_neg fun hn => hlen ⟨by rw [hc]; trivial, hn⟩]
    exact hmethod
  | global => exact Exec.bind_of_ok hmethod _
  | object => exact hmethod
  | function => exact hmethod

/-! ### Definitions -/

theorem mergeWithNoEffect_of_not_agrees {s : StoredSlot} (hs : HasCell s) (ht : s.attributes.Typed)
    (hc : s.attributes.configurable = false) {desc : PropertyDescriptor}
    (hn : ¬ Agrees w.accessors s desc) : s.mergeWithNoEffect desc w = .ok false w := by
  unfold StoredSlot.mergeWithNoEffect
  by_cases h₁ : (!desc.attrs.undefConfigurable && desc.attrs.configurable != s.attributes.configurable) = true
  · rw [if_pos h₁]; rfl
  by_cases h₂ : (!desc.attrs.undefEnumerable && desc.attrs.enumerable != s.attributes.enumerable) = true
  · rw [if_neg h₁, if_pos h₂]; rfl
  by_cases h₃ : (desc.attrs.data != s.attributes.data || desc.attrs.accessor != s.attributes.accessor) = true
  · rw [if_neg h₁, if_neg h₂, if_pos h₃]; rfl
  rw [if_neg h₁, if_neg h₂, if_neg h₃]
  simp only [Bool.and_eq_true, Bool.or_eq_true, Bool.not_eq_true', bne_iff_ne, ne_eq, not_or,
    not_and, Decidable.not_not, hc] at h₁ h₂ h₃
  obtain ⟨hdata, hacc⟩ := h₃
  have hconf : desc.attrs.undefConfigurable = true ∨ desc.attrs.configurable = false := by
    cases hu : desc.attrs.undefConfigurable with
    | true => exact .inl rfl
    | false => exact .inr (h₁ hu)
  have henum : desc.attrs.undefEnumerable = true ∨
      desc.attrs.enumerable = s.attributes.enumerable := by
    cases hu : desc.attrs.undefEnumerable with
    | true => exact .inl rfl
    | false => exact .inr (h₂ hu)
  cases hd : s.attributes.data with
  | true =>
    rw [if_pos (hdata.trans hd)]
    by_cases h₄ : (!desc.attrs.undefWritable && desc.attrs.writable != s.attributes.writable) = true
    · rw [if_pos h₄]; rfl
    have hw : desc.attrs.undefWritable = true ∨ desc.attrs.writable = s.attributes.writable := by
      by_contra hw
      simp_all
    have agree (hv : desc.attrs.undefValue = true ∨ JsValue.sameValue desc.fst s.value = true) :
        Agrees w.accessors s desc :=
      ⟨hconf, henum, .inr hdata, fun _ _ hr => hr ▸ hw, fun _ _ _ => hv,
        fun _ hna => by rw [hd] at hna; cases hna⟩
    by_cases h₅ : desc.attrs.undefValue = true
    · exact absurd (agree (.inl h₅)) hn
    · rw [if_neg h₄, if_neg h₅]
      cases hv : JsValue.sameValue desc.fst s.value with
      | true => exact absurd (agree (.inr hv)) hn
      | false => rfl
  | false =>
    have ha : s.attributes.accessor = true := ht.accessor_of_not_data (by simp [hd])
    have agree (hv : ∀ c, s.value = .accessor c →
        desc.fst = (w.accessors c).getter ∧ desc.snd = (w.accessors c).setter) :
        Agrees w.accessors s desc :=
      ⟨hconf, henum, .inr hdata, fun _ hd' => by (rw [hd] at hd'; cases hd'),
        fun _ hd' => by (rw [hd] at hd'; cases hd'), fun _ _ c hc' =>
          ⟨.inr (hv c hc').1, .inr (hv c hc').2⟩⟩
    rw [if_neg (by simp [hdata, hd]), if_pos (hacc.trans ha)]
    unfold StoredSlot.accessor
    rw [if_pos ha]
    rcases hs ha with hv | ⟨c, hv⟩
    · exact absurd (agree fun c hc' => by rw [hv] at hc'; cases hc') hn
    · rw [hv]
      change Result.ok (decide (desc.fst = (w.accessors c).getter) &&
        decide (desc.snd = (w.accessors c).setter)) w = _
      congr 1
      by_contra hne
      simp only [Bool.not_eq_false, Bool.and_eq_true, decide_eq_true_eq] at hne
      refine hn (agree fun c' hc' => ?_)
      rw [hv] at hc'
      cases hc'
      exact hne

theorem isDefinedPropertyAccepted_of_not_agrees {s : StoredSlot} (hs : HasCell s)
    (ht : s.attributes.Typed) (hc : s.attributes.configurable = false) {desc : PropertyDescriptor}
    (hn : ¬ Agrees w.accessors s desc) (throwable : Bool) :
    ∃ msg, s.isDefinedPropertyAccepted desc throwable w =
      Vm.reject throwable msg (false, false) w := by
  have hgen : desc.attrs.isGeneric = true →
      (desc.attrs.undefConfigurable = true ∨ desc.attrs.configurable = false) →
      ¬ (desc.attrs.undefEnumerable = true ∨ desc.attrs.enumerable = s.attributes.enumerable) := by
    intro hg h₁ h₂
    refine hn ⟨h₁, h₂, .inl hg, ?_, ?_, ?_⟩ <;> exact fun h => by rw [hg] at h; cases h
  unfold StoredSlot.isDefinedPropertyAccepted
  dsimp only
  have habs : ¬ desc.attrs.isAbsent = true := by
    intro ha
    simp only [AttrExternal.isAbsent, Bool.and_eq_true] at ha
    exact hgen ha.2 (.inl ha.1.1) (.inl ha.1.2)
  rw [if_neg habs, Exec.bind_of_ok (mergeWithNoEffect_of_not_agrees hs ht hc hn),
    if_neg Bool.false_ne_true]
  by_cases h₁ : (!s.attributes.configurable && desc.attrs.configurable) = true
  · rw [if_pos h₁]; exact ⟨_, rfl⟩
  by_cases h₂ : (!s.attributes.configurable && !desc.attrs.undefEnumerable &&
      s.attributes.enumerable != desc.attrs.enumerable) = true
  · rw [if_neg h₁, if_pos h₂]; exact ⟨_, rfl⟩
  rw [if_neg h₁, if_neg h₂]
  have hconf : desc.attrs.configurable = false := by simpa [hc] using h₁
  have henum : desc.attrs.undefEnumerable = true ∨
      desc.attrs.enumerable = s.attributes.enumerable := by
    cases hu : desc.attrs.undefEnumerable with
    | true => exact .inl rfl
    | false =>
      simp only [hc, hu, Bool.not_false, Bool.true_and, bne_iff_ne, ne_eq, Decidable.not_not] at h₂
      exact .inr h₂.symm
  rw [if_neg fun hg => hgen hg (.inr hconf) henum]
  by_cases h₃ : (s.attributes.data != desc.attrs.data) = true
  · rw [if_pos h₃, if_pos (by simp [hc])]; exact ⟨_, rfl⟩
  rw [if_neg h₃]
  have hdata : desc.attrs.data = s.attributes.data := by
    simp only [bne_iff_ne, ne_eq, Decidable.not_not] at h₃
    exact h₃.symm
  cases hd : s.attributes.data with
  | true =>
    have agree (hv : s.attributes.writable = false → desc.attrs.writable = false ∧
        JsValue.sameValue desc.fst s.value = true) : Agrees w.accessors s desc :=
      ⟨.inr hconf, henum, .inr hdata, fun _ _ hw => .inr (hv hw).1, fun _ _ hw => .inr (hv hw).2,
        fun _ hna => by rw [hd] at hna; cases hna⟩
    rw [if_pos rfl]
    cases hw : s.attributes.writable with
    | true => exact absurd (agree fun h => by rw [hw] at h; cases h) hn
    | false =>
      rw [if_pos (by simp [hc])]
      by_cases h₄ : desc.attrs.writable = true
      · rw [if_pos h₄]; exact ⟨_, rfl⟩
      rw [if_neg h₄, if_pos]
      · exact ⟨_, rfl⟩
      · rw [JsValue.sameValue_comm]
        by_contra hv
        exact hn (agree fun _ => ⟨by simpa using h₄, by simpa using hv⟩)
  | false =>
    have ha : s.attributes.accessor = true := ht.accessor_of_not_data (by simp [hd])
    have agree (hv : ∀ c, s.value = .accessor c →
        (desc.attrs.undefGetter = true ∨ desc.fst = (w.accessors c).getter) ∧
          (desc.attrs.undefSetter = true ∨ desc.snd = (w.accessors c).setter)) :
        Agrees w.accessors s desc :=
      ⟨.inr hconf, henum, .inr hdata, fun _ hd' => by (rw [hd] at hd'; cases hd'),
        fun _ hd' => by (rw [hd] at hd'; cases hd'), fun _ _ => hv⟩
    rw [if_neg Bool.false_ne_true, if_pos (by simp [hc])]
    unfold StoredSlot.accessor
    rw [if_pos ha]
    rcases hs ha with hv | ⟨c, hv⟩
    · exact absurd (agree fun c hc' => by rw [hv] at hc'; cases hc') hn
    · rw [hv, Exec.pure_bind_apply, Vm.accessorCell_bind, if_pos]
      · exact ⟨_, rfl⟩
      · by_contra hne
        simp only [Bool.or_eq_true, Bool.and_eq_true, Bool.not_eq_true', bne_iff_ne, ne_eq, not_or,
          not_and, Decidable.not_not] at hne
        refine hn (agree fun c' hc' => ?_)
        rw [hv] at hc'
        cases hc'
        constructor
        · cases hu : desc.attrs.undefGetter with
          | true => exact .inl rfl
          | false => exact .inr (hne.2 hu).symm
        · cases hu : desc.attrs.undefSetter with
          | true => exact .inl rfl
          | false => exact .inr (hne.1 hu).symm

section

variable {name : Symbol} {s : StoredSlot}

theorem defineOwnNonIndexedPropertySlotMethod_refused (h : w.Inv P) (ho : o < w.nextObject)
    (hname : ∀ i, name ≠ .index i) (hs : namedSlot (w.table o) (w.objects o) name = some s)
    (hc : s.attributes.configurable = false)
    (hlen : ¬ (overridesLength (w.objects o).class_ ∧ name = Symbol.length))
    {desc : PropertyDescriptor} (hn : ¬ Agrees w.accessors s desc) (slot : Slot)
    (throwable : Bool) :
    ∃ slot', Refused w o throwable (false, slot')
      (defineOwnNonIndexedPropertySlotMethod o name desc slot throwable w) := by
  obtain ⟨w₁, k, hr, hlook⟩ := getOwnNonIndexedPropertySlot_of_named h ho hs hlen slot
  have hst : Storable P w o (.named name) s := h.storable ho hs
  obtain ⟨msg, hrej⟩ := isDefinedPropertyAccepted_of_not_agrees hst.hasCell hst.typed hc
    (hr.accessors ▸ hn : ¬ Agrees w₁.accessors s desc) throwable
  unfold defineOwnNonIndexedPropertySlotMethod
  rw [Slot.isUsed, if_neg Bool.false_ne_true, getOwnPropertySlot_of_not_index hname,
    Exec.bind_of_ok hlook]
  refine ⟨slot.setWoffset s.value s.attributes (some o) k, ?_⟩
  have hfound : (!(slot.setWoffset s.value s.attributes (some o) k).isNotFound &&
      decide ((slot.setWoffset s.value s.attributes (some o) k).base = some o)) = true := by
    simp [Slot.isNotFound, Slot.attributes, Slot.setWoffset, hst.typed.isNotFound]
  dsimp only
  rw [if_pos hfound]
  exact (refused_reject (hr.sameOwn h ho) throwable msg (false, false) hrej).bind rfl

/-- **Definitions** that ask a property that cannot be configured for a change are refused. -/
theorem defineOwnProperty_refused (h : w.Inv P) (ho : o < w.nextObject)
    (hname : ∀ i, name ≠ .index i) (hs : namedSlot (w.table o) (w.objects o) name = some s)
    (hc : s.attributes.configurable = false)
    (hlen : ¬ (overridesLength (w.objects o).class_ ∧ name = Symbol.length))
    {desc : PropertyDescriptor} (hn : ¬ Agrees w.accessors s desc) (throwable : Bool) :
    Refused w o throwable false (defineOwnProperty o name desc throwable w) := by
  have plain := defineOwnNonIndexedPropertySlotMethod_refused h ho hname hs hc hlen hn Slot.new
    throwable
  have hslot : ∃ slot', Refused w o throwable (false, slot')
      (defineOwnNonIndexedPropertySlot o name desc Slot.new throwable w) := by
    unfold defineOwnNonIndexedPropertySlot
    rw [Vm.object_bind]
    cases hcl : (w.objects o).class_ with
    | array =>
      dsimp only
      rw [if_neg fun hn => hlen ⟨by rw [hcl]; trivial, hn⟩]
      exact plain
    | function =>
      dsimp only
      split
      · -- the cached structure of the instances is dropped first
        obtain ⟨obj, hobj⟩ : ∃ obj, obj = { w.objects o with constructStruct := none } := ⟨_, rfl⟩
        obtain ⟨w₁, hw₁⟩ : ∃ w₁, w₁ = { w with objects := Function.update w.objects o obj } :=
          ⟨_, rfl⟩
        rw [hobj] at hw₁
        have htouch : Touch P o w w₁ := hw₁ ▸ h.touch_object ho
          (f := fun obj => { obj with constructStruct := none }) rfl rfl rfl (.sparse 0)
          fun i s hs => .inl hs
        have hself : w₁.objects o = { w.objects o with constructStruct := none } := by simp [hw₁]
        have htab : w₁.table o = w.table o := by rw [World.table, hself, hw₁, World.table]
        have hslots : ∀ l, slotAt (w₁.table o) (w₁.objects o) l = slotAt (w.table o) (w.objects o) l := by
          intro l
          rw [htab, hself]
          cases l <;> rfl
        obtain ⟨slot', w₂, hsame, hres⟩ := defineOwnNonIndexedPropertySlotMethod_refused htouch.inv
          (htouch.nextObject ▸ ho) hname ((hslots (.named name)).trans hs) hc
          (by rw [hself]; exact hlen) (by rw [hw₁]; exact hn) Slot.new.makeUncacheable throwable
        refine ⟨slot', w₂, ⟨fun n => (hsame.names n).trans (by rw [htab]), fun l =>
          (hsame.property l).trans ?_, ?_, ?_, ?_⟩, ?_⟩
        · rw [World.ownProperty, hslots, hw₁, World.ownProperty]
        · rw [hsame.elements, hself]
        · rw [hsame.prototype, World.prototype, hself, hw₁, World.prototype]
        · rw [hsame.extensible, hself]
        · rw [hw₁] at hres
          exact hres
      · exact plain
    | object | string v | global => exact plain
  obtain ⟨slot', hslot⟩ := hslot
  unfold defineOwnProperty
  rw [defineOwnPropertySlot_of_not_index hname]
  exact hslot.bind rfl

/-- **Deletion** of a property that cannot be configured is refused. -/
theorem delete_refused (h : w.Inv P) (ho : o < w.nextObject) (hname : ∀ i, name ≠ .index i)
    (hs : namedSlot (w.table o) (w.objects o) name = some s)
    (hc : s.attributes.configurable = false)
    (hlen : ¬ (overridesLength (w.objects o).class_ ∧ name = Symbol.length)) (throwable : Bool) :
    Refused w o throwable false (JsObject.delete o name throwable w) := by
  obtain ⟨w₁, k, hr, hlook⟩ := getOwnNonIndexedPropertySlot_of_named h ho hs hlen Slot.new
  have hrun : JsObject.delete o name throwable = deleteNonIndexed o name throwable := by
    cases name with
    | index i => exact absurd rfl (hname i)
    | key t => rfl
    | priv t => rfl
  rw [hrun]
  unfold deleteNonIndexed
  rw [Vm.object_bind, if_neg fun hn => hlen ⟨by rw [hn.1]; trivial, hn.2⟩]
  unfold deleteNonIndexedMethod
  rw [getOwnPropertySlot_of_not_index hname, Exec.bind_of_ok hlook]
  refine refused_reject (hr.sameOwn h ho) throwable "Can not delete non configurable property" false ?_
  dsimp only
  rw [if_neg (by simp), if_pos (by simp [Slot.attributes, Slot.setWoffset, hc])]

/-- **Assignment** to a read-only property changes nothing. -/
theorem put_refused (h : w.Inv P) (ho : o < w.nextObject) (hname : ∀ i, name ≠ .index i)
    (hs : namedSlot (w.table o) (w.objects o) name = some s) (hd : s.attributes.data = true)
    (hw : s.attributes.writable = false)
    (hlen : ¬ (overridesLength (w.objects o).class_ ∧ name = Symbol.length)) (val : JsValue)
    (throwable : Bool) : Refused w o throwable () (put o name val throwable w) := by
  obtain ⟨w₁, k, hr, hlook⟩ := getOwnNonIndexedPropertySlot_of_named h ho hs hlen Slot.new
  have hna := (h.namedSlot_typed ho hs).not_accessor_of_data hd
  have hchain : getPropertySlot o name Slot.new w =
      .ok (true, Slot.new.setWoffset s.value s.attributes (some o) k) w₁ := by
    have hfrom : getNonIndexedPropertySlot o name Slot.new w =
        .ok (true, Slot.new.setWoffset s.value s.attributes (some o) k) w₁ := by
      unfold getNonIndexedPropertySlot
      rw [Exec.gets_bind]
      unfold getNonIndexedPropertySlotFrom
      rw [Exec.bind_of_ok hlook]
      rfl
    cases name with
    | index i => exact absurd rfl (hname i)
    | key t => exact hfrom
    | priv t => exact hfrom
  have hrun : putSlot o name val Slot.new throwable =
      putNonIndexedSlot o name val Slot.new throwable := by
    cases name with
    | index i => exact absurd rfl (hname i)
    | key t => rfl
    | priv t => rfl
  have hput : Refused w o throwable (Slot.new.setWoffset s.value s.attributes (some o) k)
      (putSlot o name val Slot.new throwable w) := by
    rw [hrun]
    unfold putNonIndexedSlot
    rw [Exec.bind_of_ok hchain]
    have hcan : canPut o true (Slot.new.setWoffset s.value s.attributes (some o) k) w₁ =
        .ok false w₁ := by
      unfold canPut
      rw [if_pos rfl, if_neg (by simp [Slot.attributes, Slot.setWoffset, hna])]
      exact congrArg₂ Result.ok hw rfl
    refine refused_reject (hr.sameOwn h ho) throwable "put failed" _ ?_
    dsimp only
    unfold putFrom
    rw [Exec.bind_of_ok hcan, if_pos (show (!false) = true from rfl)]
  exact hput.bind rfl

end

end Starlight
