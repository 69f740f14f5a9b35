import Starlight.Vm.Extensibility
import Starlight.Vm.Refusal

/-!
# Keys of objects that are not extensible

Definition, assignment and deletion on a closed object give it no key, apart from the two kinds of step
that `Extensibility` names. A definition finds the property or is refused, an assignment is refused
unless it finds a writable one, and what it then finds on a prototype it would have to add.
-/

namespace Starlight

open JsObject World IndexedElements

variable {α : Type} {w w' : World} {o : ℕ}

/-! ### Named properties -/

theorem World.Shut.of_stored {σ : Shapes} {s : ℕ} {slots : List JsValue}
    (ht : Touch layoutPolicy o w (w.stored o σ s slots))
    (hview : ∀ n, n ∈ σ.view s → n ∈ w.table o) : Shut o w (w.stored o σ s slots) where
  toTouch := ht
  extensible := by simp [World.stored]
  emptied he := by simpa [World.stored] using he
  element _ i hi := by simpa [World.stored] using hi
  named n hn := hview n (by rwa [World.table_stored] at hn)

theorem shuts_replace (h : Closed w o) {name : Symbol} {e : MapEntry}
    (he : (w.table o).lookup name = some e) {stored : StoredSlot} (hty : stored.attributes.Typed)
    {R : Unit → World → Prop}
    (hg : Guards layoutPolicy False o w (replaceProperty o name e.attrs e.offset stored w) R) :
    Shuts o w (replaceProperty o name e.attrs e.offset stored w) fun _ _ => True := by
  obtain ⟨σ, s, hrun, -, hview, -, -⟩ := replaceProperty_run h.inv h.lt he hty
  rw [hrun] at hg ⊢
  refine ⟨.of_stored hg.1.toTouch fun n hn => ?_, trivial⟩
  rw [hview, Finmap.mem_insert] at hn
  rcases hn with rfl | hn
  · exact Finmap.mem_of_lookup_eq_some he
  · exact hn

theorem shuts_remove (h : Closed w o) {name : Symbol} {e : MapEntry}
    (he : (w.table o).lookup name = some e) (hconf : e.attrs.configurable = true) :
    Shuts o w (removeProperty o name e.offset w) fun _ _ => True := by
  have hg : Guards layoutPolicy False o w _ fun _ w' => w'.table o = (w.table o).erase name :=
    guards_remove h.inv h.lt he hconf
  obtain ⟨s, σ, hdel, -, -⟩ := h.inv.shapes.deletePropertyTransition (h.inv.live h.lt) he
  rw [removeProperty_run h.inv h.lt he hdel] at hg ⊢
  refine ⟨.of_stored hg.1.toTouch fun n hn => ?_, trivial⟩
  have htab : (w.stored o σ s ((w.objects o).slots.set e.offset .empty)).table o = _ := hg.2
  rw [World.table_stored] at htab
  rw [htab, Finmap.mem_erase] at hn
  exact hn.2

theorem shuts_defineOwnNonIndexedPropertySlotMethod (h : Closed w o) {name : Symbol}
    (hname : ∀ i, name ≠ .index i) (desc : PropertyDescriptor) (slot : Slot) (throwable : Bool)
    (hlen : ¬ (overridesLength (w.objects o).class_ ∧ name = Symbol.length))
    (hslot : slot.isNotFound = true ∨ slot.base ≠ some o ∨ name ∈ w.table o) :
    Shuts o w (defineOwnNonIndexedPropertySlotMethod o name desc slot throwable w)
      fun _ _ => True := by
  unfold defineOwnNonIndexedPropertySlotMethod
  have hown : Reads layoutPolicy w ((if slot.isUsed then (pure (true, slot) : Vm (Bool × Slot))
      else getOwnPropertySlot o name slot) w) fun r => OwnLookup w o name slot r.1 r.2 := by
    rw [Slot.isUsed, if_neg Bool.false_ne_true, getOwnPropertySlot_of_not_index hname]
    exact reads_getOwnNonIndexedPropertySlot h.inv h.lt _ slot
  refine Reads.bind_shuts h hown ?_
  rintro ⟨found, slot'⟩ w₁ h₁ hr hlook
  have htab : w₁.table o = w.table o := hr.table h.inv h.lt
  cases hlook with
  | special v a _ hs => exact absurd hs hlen
  | absent c he =>
    have hnot : name ∉ w.table o := by rwa [← Finmap.lookup_eq_none]
    refine Shuts.ite (fun hc => ?_) fun _ => ?_
    · simp only [Bool.and_eq_true, Bool.not_eq_true', decide_eq_true_eq] at hc
      rcases hslot with hs | hs | hs
      · exact absurd (hc.1.symm.trans hs) Bool.false_ne_true
      · exact absurd hc.2 hs
      · exact absurd hs hnot
    · rw [Vm.object_bind]
      refine Shuts.ite (fun _ => Shuts.reject h₁ _ _ trivial) fun hext => ?_
      rw [h₁.extensible] at hext
      exact absurd rfl hext
  | named e v c he hv hs =>
    have he₁ : (w₁.table o).lookup name = some e := htab ▸ he
    have hv₁ : (w₁.objects o).slots[e.offset]? = some v := hr.objects ▸ hv
    have hslot₁ := namedSlot_of_lookup he₁ hv₁
    have hst : Storable layoutPolicy w₁ o (.named name) ⟨v, e.attrs⟩ := h₁.inv.storable h₁.lt hslot₁
    refine Shuts.ite (fun _ => ?_) fun hc => ?_
    · refine Reads.bind_shuts h₁
        (reads_isDefinedPropertyAccepted h₁.inv hst.hasCell hst.typed desc throwable) ?_
      rintro ⟨accepted, returned⟩ w₂ h₂ hr₂ hacc
      refine Shuts.ite (fun ha => ?_) fun _ => Shuts.pure h₂ trivial
      have he₂ : (w₂.table o).lookup name = some e := hr₂.table h₁.inv h₁.lt ▸ he₁
      have hslot₂ : namedSlot (w₂.table o) (w₂.objects o) name = some ⟨v, e.attrs⟩ := by
        rw [hr₂.table h₁.inv h₁.lt, hr₂.objects]
        exact hslot₁
      have hdesc : ∀ n, Loc.named name = .named n → DescOk layoutPolicy ⟨v, e.attrs⟩ desc :=
        fun _ _ => ⟨fun _ _ => trivial, fun _ _ _ => trivial⟩
      have hmerge : Guards layoutPolicy False o w₂ _ _ := guards_merge h₂.inv h₂.lt
        (h₂.inv.storable (l := .named name) h₂.lt hslot₂) hdesc fun n hn => by
          cases hn
          rw [hr₂.accessors]
          exact ⟨hslot₂, fun hconf => (hacc hconf ha).mono False.elim⟩
      refine Shuts.bind h₂ (hmerge.shuts_of_inert (inert_merge _ desc w₂))
        fun stored w₃ h₃ hr₃ => ?_
      obtain ⟨hst₃, -, hobj₃, hsh₃, hsame⟩ := hr₃
      have he₃ : (w₃.table o).lookup name = some e := by
        rw [World.table, hobj₃, hsh₃]; exact he₂
      refine Shuts.bind h₃ (shuts_replace h₃ he₃ hst₃.typed (guards_replace h₃.inv h₃.lt he₃ stored
        (by rw [hobj₃, hr₂.objects, hr.objects]; exact hlen) hst₃ fun v' hv' hconf => ?_))
        fun _ _ h₄ _ => Shuts.pure h₄ trivial
      rw [hobj₃, hr₂.objects, hv₁] at hv'
      cases hv'
      exact (hsame name rfl hconf).congr rfl
    · refine absurd ?_ hc
      simp [Slot.isNotFound, Slot.attributes, hst.typed.isNotFound]

theorem Closed.overridesLength_iff (h : Closed w o) :
    JsObject.overridesLength (w.objects o).class_ ↔ (w.objects o).class_ = .array := by
  have hp := h.plain
  cases hc : (w.objects o).class_ with
  | string v => rw [hc] at hp; exact absurd trivial hp
  | array => exact ⟨fun _ => rfl, fun _ => trivial⟩
  | _ => exact ⟨False.elim, nofun⟩

theorem shuts_defineOwnNonIndexedPropertySlot (h : Closed w o) {name : Symbol}
    (hname : ∀ i, name ≠ .index i) (desc : PropertyDescriptor) {slot : Slot} (throwable : Bool)
    (hslot : SlotOk w o name slot)
    (hl : (w.objects o).class_ = .array → name = Symbol.length → LengthFits w o desc.fst) :
    Shuts o w (defineOwnNonIndexedPropertySlot o name desc slot throwable w) fun _ _ => True := by
  have hmem : ¬ (overridesLength (w.objects o).class_ ∧ name = Symbol.length) →
      slot.isNotFound = true ∨ slot.base ≠ some o ∨ name ∈ w.table o := by
    intro hlen
    rcases hslot.named.resolve_left fun ⟨i, hi⟩ => hname i hi with hs | hs | hs | hs
    · exact .inl hs
    · exact .inr (.inl hs)
    · exact .inr (.inr hs)
    · exact absurd hs hlen
  have plain : ¬ ((w.objects o).class_ = .array ∧ name = Symbol.length) →
      Shuts o w (defineOwnNonIndexedPropertySlotMethod o name desc slot throwable w)
        fun _ _ => True := by
    rw [← h.overridesLength_iff]
    exact fun hlen =>
      shuts_defineOwnNonIndexedPropertySlotMethod h hname desc slot throwable hlen (hmem hlen)
  unfold defineOwnNonIndexedPropertySlot
  rw [Vm.object_bind]
  cases hc : (w.objects o).class_ with
  | array =>
    refine Shuts.ite (fun hn => ?_) fun hn => plain fun h => hn h.2
    exact Shuts.bind h (shuts_defineLengthProperty h desc throwable (hl hc hn))
      fun _ _ h₁ _ => Shuts.pure h₁ trivial
  | function =>
    refine Shuts.ite (fun hn => ?_) fun hn => plain fun h => by rw [hc] at h; cases h.1
    have ht := h.inv.touch_object h.lt (f := fun obj => { obj with constructStruct := none })
      rfl rfl rfl (.sparse 0) fun i s hs => .inl hs
    refine Shuts.bind (R := fun _ w' => w'.table o = w.table o) h
      ⟨.of_same ht (by simp) (by simp) (by simp [World.table]), by simp [World.table]⟩
      fun _ w₁ h₁ htab => ?_
    have hlen : ∀ w : World, Closed w o → ¬ ((w.objects o).class_ = .array) →
        ¬ (overridesLength (w.objects o).class_ ∧ name = Symbol.length) :=
      fun w h hna hl => hna (h.overridesLength_iff.mp hl.1)
    have hna : name ≠ Symbol.length := by rw [hn]; decide
    refine shuts_defineOwnNonIndexedPropertySlotMethod h₁ hname desc slot.makeUncacheable throwable
      (fun hl => hna hl.2) ?_
    rw [htab]
    exact hmem fun hl => hna hl.2
  | object | string v | global => exact plain fun h => by rw [hc] at h; cases h.1

/-! ### Any definition -/

def DefineKeeps (w : World) (o : ℕ) (name : Symbol) (desc : PropertyDescriptor) : Prop :=
  match name with
  | .index i => desc.attrs.isDefault = true → ¬ AddsElement w o i
  | name => (w.objects o).class_ = .array → name = Symbol.length → LengthFits w o desc.fst

theorem AddsElement.congr {i : ℕ} (h : AddsElement w' o i) (hobj : w'.objects = w.objects) :
    AddsElement w o i :=
  ⟨hobj ▸ h.dense, h.lt, hobj ▸ h.length⟩

theorem DefineKeeps.congr {name : Symbol} {desc : PropertyDescriptor} (h : DefineKeeps w o name desc)
    (hobj : w'.objects = w.objects) : DefineKeeps w' o name desc := by
  cases name with
  | index i => exact fun hd ha => h hd (ha.congr hobj)
  | key t | priv t => exact fun hc hn => (h (by rwa [hobj] at hc) hn).congr hobj

theorem shuts_defineOwnProperty (h : Closed w o) {name : Symbol} {desc : PropertyDescriptor}
    (throwable : Bool) (hk : DefineKeeps w o name desc) :
    Shuts o w (defineOwnProperty o name desc throwable w) fun _ _ => True := by
  refine Shuts.bind (R := fun _ _ => True) h ?_ fun _ _ h₁ _ => Shuts.pure h₁ trivial
  cases name with
  | index i => exact shuts_defineOwnIndexedPropertySlot h i desc Slot.new throwable hk
  | key t | priv t =>
    exact shuts_defineOwnNonIndexedPropertySlot h (by simp) desc throwable (slotOk_new w o _) hk

/-! ### Assignment -/

theorem shuts_putFrom (h : Closed w o) {val : JsValue} {throwable found : Bool} {slot : Slot}
    {callee : JsValue → JsValue} {define : PropertyDescriptor → Slot → Vm (Bool × Slot)}
    (hst : found = true → HasCell slot.stored ∧ slot.attributes.Typed)
    (hnone : found = false → slot.isNotFound = true)
    (hdefine : ∀ desc w', desc.fst = val → Closed w' o → Read layoutPolicy w w' → found = true →
      slot.attributes.accessor = false → slot.attributes.writable = true →
      Shuts o w' (define desc slot w') fun _ _ => True) :
    Shuts o w (putFrom o val throwable found slot callee define w) fun _ _ => True := by
  unfold putFrom
  refine Reads.bind_shuts h (reads_canPut h.inv fun hf => (hst hf).1) fun b w₁ h₁ hr hput => ?_
  refine Shuts.ite (fun _ => Shuts.reject h₁ _ _ trivial) fun hb => ?_
  obtain ⟨hwr, hext⟩ := hput (by simpa using hb)
  have hf : found = true := by
    cases found with
    | true => rfl
    | false => exact absurd (h.extensible.symm.trans (hext rfl)) nofun
  have hnf : slot.isNotFound = false := (hst hf).2.isNotFound
  refine Shuts.ite (fun hc => ?_) fun _ => Shuts.ite (fun hc => ?_) fun hacc => ?_
  · simp only [Bool.and_eq_true] at hc
    have hna := (hst hf).2.not_accessor_of_data hc.2
    exact Shuts.bind h₁ (hdefine (assignDesc val) w₁ rfl h₁ hr hf hna (hwr hf hna))
      fun _ _ h₂ _ => Shuts.pure h₂ trivial
  · simp only [Bool.and_eq_true] at hc
    refine Reads.bind_shuts h₁ (reads_accessor h₁.inv (hst hf).1 hc.2) fun c w₂ h₂ _ _ => ?_
    rw [Vm.accessorCell_bind]
    exact Shuts.fail h₂ _ _
  · have hna : slot.attributes.accessor = false := by simpa [hnf] using hacc
    exact Shuts.bind h₁ (hdefine (createDesc val) w₁ rfl h₁ hr hf hna (hwr hf hna))
      fun _ _ h₂ _ => Shuts.pure h₂ trivial

theorem shuts_putNonIndexedSlot (h : Closed w o) {name : Symbol} (hname : ∀ i, name ≠ .index i)
    {val : JsValue} (throwable : Bool)
    (hl : (w.objects o).class_ = .array → name = Symbol.length → LengthFits w o val) :
    Shuts o w (putNonIndexedSlot o name val Slot.new throwable w) fun _ _ => True := by
  unfold putNonIndexedSlot
  refine Reads.bind_shuts h (reads_getPropertySlot_of_not_index h.inv h.lt hname) ?_
  rintro ⟨found, slot⟩ w₁ h₁ hr hlook
  have hlook : ChainLookup w o name Slot.new found slot := hlook
  have hok := hlook.slotOk h.inv h.lt
  refine shuts_putFrom h₁ ?_ ?_ fun desc w₂ hval h₂ hr₂ _ _ _ => ?_
  · rintro rfl
    exact hlook.stored_ok h.inv h.lt
  · rintro rfl
    cases hlook
    rfl
  · have hrd := hr.trans hr₂
    refine shuts_defineOwnNonIndexedPropertySlot h₂ hname desc throwable
      (hok.read h.inv h.lt hrd) fun hc hn => ?_
    rw [hval]
    exact (hl (by rwa [hrd.objects] at hc) hn).congr hrd.objects

/-- An assignment to element `i` writes to the dense vector: right away, or because a prototype has a
writable data property under the index. -/
def PutAdds (w : World) (o i : ℕ) : Prop :=
  ∃ b w₁, canPutDense o i w = .ok b w₁ ∧ (b = true ∨ (AddsElement w o i ∧
    ∃ slot w₂, getIndexedPropertySlot o i Slot.new w₁ = .ok (true, slot) w₂ ∧
      slot.attributes.accessor = false ∧ slot.attributes.writable = true))

theorem shuts_putIndexedSlot (h : Closed w o) (index : ℕ) (val : JsValue) (throwable : Bool)
    (hk : ¬ PutAdds w o index) :
    Shuts o w (putIndexedSlot o index val Slot.new throwable w) fun _ _ => True := by
  unfold putIndexedSlot
  refine Reads.bind_shuts_run h (reads_canPutDense h.inv o index) fun b w₁ hrun h₁ hr₁ _ => ?_
  obtain rfl : b = false := by
    cases b with
    | true => exact absurd ⟨true, w₁, hrun, .inl rfl⟩ hk
    | false => rfl
  refine Reads.bind_shuts_run h₁ (reads_getIndexedPropertySlot h₁.inv h₁.lt index Slot.new) ?_
  rintro ⟨found, slot⟩ w₂ hrun₂ h₂ hr₂ hf
  have hf : IndexedFound Slot.new found slot := hf
  refine shuts_putFrom h₂ (fun hfd => ⟨hf.hasCell hfd, hf.typed hfd⟩)
    (fun hfd => by rw [hf.absent hfd]; rfl) fun desc w₃ _ h₃ hr₃ hfd hacc hwr => ?_
  subst hfd
  refine shuts_defineOwnIndexedPropertySlot h₃ index desc slot throwable fun _ hadd => hk ?_
  have hobj : w₃.objects = w.objects := ((hr₁.trans hr₂).trans hr₃).objects
  exact ⟨false, w₁, hrun, .inr ⟨hadd.congr hobj, slot, w₂, hrun₂, hacc, hwr⟩⟩

def PutKeeps (w : World) (o : ℕ) (name : Symbol) (val : JsValue) : Prop :=
  match name with
  | .index i => ¬ PutAdds w o i
  | name => (w.objects o).class_ = .array → name = Symbol.length → LengthFits w o val

theorem shuts_put (h : Closed w o) {name : Symbol} {val : JsValue} (throwable : Bool)
    (hk : PutKeeps w o name val) : Shuts o w (put o name val throwable w) fun _ _ => True := by
  refine Shuts.bind (R := fun _ _ => True) h ?_ fun _ _ h₁ _ => Shuts.pure h₁ trivial
  cases name with
  | index i => exact shuts_putIndexedSlot h i val throwable hk
  | key t | priv t => exact shuts_putNonIndexedSlot h (by simp) throwable hk

/-! ### Deletion -/

theorem shuts_deleteNonIndexedMethod (h : Closed w o) {name : Symbol}
    (hname : ∀ i, name ≠ .index i) (throwable : Bool) :
    Shuts o w (deleteNonIndexedMethod o name throwable w) fun _ _ => True := by
  unfold deleteNonIndexedMethod
  have hlook : Reads layoutPolicy w (getOwnPropertySlot o name Slot.new w) fun r =>
      OwnLookup w o name Slot.new r.1 r.2 := by
    rw [getOwnPropertySlot_of_not_index hname]
    exact reads_getOwnNonIndexedPropertySlot h.inv h.lt _ _
  refine Reads.bind_shuts h hlook ?_
  rintro ⟨found, slot⟩ w₁ h₁ hr hl
  refine Shuts.ite (fun _ => Shuts.pure h₁ trivial) fun hf => Shuts.ite
    (fun _ => Shuts.reject h₁ _ _ trivial) fun hc => ?_
  cases hl with
  | absent c he => exact absurd rfl hf
  | special v a _ hs ha hst =>
    refine absurd ?_ hc
    rw [Slot.attributes, hst, ha.2.2]
    rfl
  | named e v c he hv hs =>
    have he₁ : (w₁.table o).lookup name = some e := hr.table h.inv h.lt ▸ he
    have hconf : e.attrs.configurable = true := by simpa [Slot.attributes, Slot.setWoffset] using hc
    refine Reads.bind_shuts h₁ (R := fun off => off = some e.offset) (Reads.pure h₁.inv rfl) ?_
    rintro off w₂ h₂ hr₂ rfl
    have he₂ : (w₂.table o).lookup name = some e := hr₂.table h₁.inv h₁.lt ▸ he₁
    exact Shuts.bind h₂ (shuts_remove h₂ he₂ hconf) fun _ _ h₃ _ => Shuts.pure h₃ trivial

theorem shuts_delete (h : Closed w o) (name : Symbol) (throwable : Bool) :
    Shuts o w (delete o name throwable w) fun _ _ => True := by
  have named : (∀ i, name ≠ .index i) →
      Shuts o w (deleteNonIndexed o name throwable w) fun _ _ => True := by
    intro hname
    unfold deleteNonIndexed
    rw [Vm.object_bind]
    exact Shuts.ite (fun _ => Shuts.reject h _ _ trivial)
      fun _ => shuts_deleteNonIndexedMethod h hname throwable
  cases name with
  | index i =>
    change Shuts o w (deleteIndexed o i throwable w) _
    unfold deleteIndexed
    rw [Vm.object_bind, h.overridesIndexed]
    exact (shuts_deleteIndexedInternal h i throwable).mono fun _ _ _ => trivial
  | key t | priv t => exact named (by simp)

/-! ### Extensibility -/

theorem shuts_changeExtensible (h : Closed w o) :
    Shuts o w (changeExtensible o false w) fun _ _ => True := by
  have ht := h.inv.touch_object h.lt (f := fun obj => { obj with extensible := false }) rfl rfl rfl
    (.sparse 0) fun i s hs => .inl hs
  refine Shuts.bind (R := fun _ _ => True) h
    ⟨.of_same ht (by simp [h.extensible]) (by simp) (by simp [World.table]), trivial⟩
    fun _ w₁ h₁ _ => ?_
  obtain ⟨hst, htgt⟩ := h₁.inv.shapes.changeExtensibleTransition (h₁.inv.live h₁.lt)
  refine Shuts.bind h₁ (shuts_transition (guards_transition h₁.inv h₁.lt _ rfl hst htgt
    fun p hp => h₁.inv.prototype_lt h₁.lt hp)) fun _ w₂ h₂ _ => ?_
  exact (shuts_makeSparse h₂).mono fun _ _ _ => trivial

/-! ### Freezing and sealing again -/

/-- Whether the own lookup finds the property. -/
def Owns (w : World) (o : ℕ) (name : Symbol) : Prop :=
  ∃ slot w', getOwnPropertySlot o name Slot.new w = .ok (true, slot) w'

theorem Closed.owns_index (h : Closed w o) (i : ℕ) :
    Owns w o (.index i) ↔ (w.objects o).indexed.Has i := by
  have hrun : getOwnPropertySlot o (.index i) Slot.new w =
      getOwnIndexedPropertySlotMethod o i Slot.new w := by
    have hp := h.plain
    change getOwnIndexedPropertySlot o i Slot.new w = _
    unfold getOwnIndexedPropertySlot
    rw [Vm.object_bind]
    cases hc : (w.objects o).class_ with
    | string v => rw [hc] at hp; exact absurd trivial hp
    | _ => rfl
  unfold Owns
  rw [hrun]
  unfold getOwnIndexedPropertySlotMethod
  rw [Vm.object_bind]
  dsimp only
  rw [IndexedElements.bind_lookup_below, h.emptied.getD]
  by_cases hd : ((w.objects o).indexed.dense &&
      decide (i < (w.objects o).indexed.vector.length)) = true
  · rw [if_pos hd]
    refine ⟨fun ⟨_, _, hr⟩ => (nomatch hr), fun ⟨_, hs⟩ => ?_⟩
    simp only [Bool.and_eq_true] at hd
    rw [h.emptied.dense hd.1] at hs
    cases hs
  · rw [if_neg hd]
    by_cases hi : i < (w.objects o).indexed.length
    · rw [if_pos hi]
      cases hs : (w.objects o).indexed.sparse i with
      | none =>
        refine ⟨fun ⟨_, _, hr⟩ => (nomatch hr), fun ⟨_, hs'⟩ => ?_⟩
        rw [hs] at hs'
        cases hs'
      | some it => exact ⟨fun _ => ⟨hi, by rw [hs]; rfl⟩, fun _ => ⟨_, _, rfl⟩⟩
    · rw [if_neg hi]
      exact ⟨fun ⟨_, _, hr⟩ => (nomatch hr), fun ⟨hi', _⟩ => absurd hi' hi⟩

theorem getOwnPropertySlot_length (hc : (w.objects o).class_ = .array) (slot : Slot) :
    getOwnPropertySlot o Symbol.length slot w =
      .ok (true, slot.set1 (JsValue.newF64 (w.objects o).indexed.length)
        (createData { writable := (w.objects o).indexed.writable }) (some o)) w := by
  change getOwnNonIndexedPropertySlot o Symbol.length slot w = _
  unfold getOwnNonIndexedPropertySlot
  rw [Vm.object_bind, hc]
  exact congrFun (if_pos rfl) w

theorem Closed.owns_named (h : Closed w o) {name : Symbol} (hname : ∀ i, name ≠ .index i) :
    Owns w o name ↔
      name ∈ w.table o ∨ ((w.objects o).class_ = .array ∧ name = Symbol.length) := by
  unfold Owns
  by_cases hlen : (w.objects o).class_ = .array ∧ name = Symbol.length
  · obtain ⟨hc, rfl⟩ := hlen
    exact ⟨fun _ => .inr ⟨hc, rfl⟩, fun _ => ⟨_, _, getOwnPropertySlot_length hc _⟩⟩
  rw [getOwnPropertySlot_of_not_index hname]
  constructor
  · rintro ⟨slot, w', hrun⟩
    obtain ⟨-, hlook⟩ :=
      Result.Sat.of_ok (reads_getOwnNonIndexedPropertySlot h.inv h.lt name Slot.new) hrun
    cases hlook with
    | named e v c he hv hs => exact .inl (Finmap.mem_of_lookup_eq_some he)
    | special v a _ hs => exact absurd ⟨h.overridesLength_iff.mp hs.1, hs.2⟩ hlen
  · intro hmem
    obtain ⟨e, he⟩ := Finmap.mem_iff.mp (hmem.resolve_right hlen)
    obtain ⟨v, hv⟩ : ∃ v, (w.objects o).slots[e.offset]? = some v :=
      ⟨_, List.getElem?_eq_getElem (h.inv.offset_lt h.lt he)⟩
    have hs := namedSlot_of_lookup he hv
    obtain ⟨w', k, -, hrun⟩ := getOwnNonIndexedPropertySlot_of_named h.inv h.lt hs
      (fun hl => hlen ⟨h.overridesLength_iff.mp hl.1, hl.2⟩) Slot.new
    exact ⟨_, _, hrun⟩

theorem Closed.defineKeeps (h : Closed w o) {f : PropertyDescriptor → PropertyDescriptor}
    (hf : KeepsValue f) {name : Symbol} {desc : PropertyDescriptor}
    (hrun : getOwnProperty o name w = .ok (some desc) w') : DefineKeeps w o name (f desc) := by
  unfold getOwnProperty at hrun
  have hlen : (w.objects o).class_ = .array → name = Symbol.length →
      LengthFits w o (f desc).fst := by
    rintro hc rfl
    rw [Exec.bind_of_ok (getOwnPropertySlot_length hc Slot.new)] at hrun
    dsimp only at hrun
    rw [if_pos rfl] at hrun
    obtain rfl : PropertyDescriptor.dataDescriptor (JsValue.newF64 (w.objects o).indexed.length)
        (createData { writable := (w.objects o).indexed.writable }).toExternal = desc := by
      cases hw : (w.objects o).indexed.writable <;> rw [hw] at hrun <;> cases hrun <;> rfl
    rw [hf.fst]
    rintro d w₁ w₂ hd ⟨-, -, i, hi, hlt, -⟩
    -- what is read back is not above the length
    cases hd
    refine absurd hlt (Nat.not_lt_of_le (le_trans (min_le_left _ _) ?_))
    rw [Rat.floor_intCast]
    exact hi
  cases name with
  | index i =>
    intro _ hadd
    have hown : Owns w o (.index i) := by
      rw [Exec.bind_apply] at hrun
      rcases hlook : getOwnPropertySlot o (.index i) Slot.new w with ⟨⟨_ | _, slot⟩, w₁⟩ | _ | _ | _ <;>
        rw [hlook] at hrun
      · cases hrun
      · exact ⟨slot, w₁, hlook⟩
      all_goals cases hrun
    have hs := ((h.owns_index i).mp hown).2
    rw [h.emptied.dense hadd.dense] at hs
    cases hs
  | key t => exact hlen
  | priv t => exact hlen

theorem shuts_redefineAll (h : Closed w o) {f : PropertyDescriptor → PropertyDescriptor}
    (hf : KeepsValue f) (names : List Symbol) :
    Shuts o w (redefineAll o f names w) fun _ _ => True := by
  induction names generalizing w with
  | nil => exact Shuts.pure h trivial
  | cons name names ih =>
    refine Reads.bind_shuts_run h (reads_getOwnProperty h.inv h.lt name) fun r w₁ hrun h₁ hr _ => ?_
    cases r with
    | none => exact Shuts.fail h₁ _ _
    | some desc =>
      refine Shuts.bind h₁ (shuts_defineOwnProperty h₁ true ?_) fun _ w₂ h₂ _ => ih h₂
      exact (h.defineKeeps hf hrun).congr hr.objects

theorem shuts_integrity (h : Closed w o) {f : PropertyDescriptor → PropertyDescriptor}
    (hf : KeepsValue f) :
    Shuts o w ((getOwnPropertyNames o true >>= fun names => redefineAll o f names >>= fun _ =>
      changeExtensible o false >>= fun _ => (pure true : Vm Bool)) w) fun _ _ => True :=
  Reads.bind_shuts h (reads_getOwnPropertyNames h.inv h.lt true) fun names _ h₁ _ _ =>
    Shuts.bind h₁ (shuts_redefineAll h₁ hf names) fun _ _ h₂ _ =>
      Shuts.bind h₂ (shuts_changeExtensible h₂) fun _ _ h₃ _ => Shuts.pure h₃ trivial

end Starlight
