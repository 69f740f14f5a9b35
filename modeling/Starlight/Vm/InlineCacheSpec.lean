import Starlight.Vm.HeapRuns
import Starlight.Vm.InlineCache

/-!
# Inline caches are transparent

A feedback cell remembers a structure and a slot. `FeedbackOk` says what that is worth: as long as the
structure is in use, it gives the name of the instruction the noted slot, as a data property, writable
for `PUT_BY_ID`. Every operation keeps this, since structures that stay in use keep their properties
(`World.Stable`).

The values agree up to their encoding: the slow path keeps the old word when the new one is the same
value, and the cached length of an array is an int32.
-/

namespace Starlight

open JsObject World

variable {P : Policy} {w w' : World} {o : ℕ}

/-- The policy of cached code: no accessor cell among the data properties, and the length of arrays
and string objects is not in their structures. -/
def cachePolicy : Policy := ⟨fun v => v.isAccessorCell = false, True⟩

/-- As long as structure `s` is in use, it has `name` at `offset` as a data property. -/
def CachedAt (w : World) (s : ℕ) (name : Symbol) (offset : Option ℕ) (writable : Prop) : Prop :=
  (∀ i, name ≠ .index i) ∧ s < w.shapes.nextStructure ∧ (w.shapes.Live w.held s →
    ∃ k a, offset = some k ∧ (w.shapes.view s).lookup name = some ⟨k, a⟩ ∧ a.data = true ∧
      (writable → a.writable = true))

/-- What a feedback cell of an instruction may hold. -/
def FeedbackOk (w : World) (site : Site) : TypeFeedBack → Prop
  | .propertyCache s offset .default =>
    site.access ≠ .putById ∧ CachedAt w s site.name offset False
  | .propertyCache _ _ (.protoLoad _) => site.access ≠ .putById
  | .propertyCache _ _ .arrayLength => site.access ≠ .putById ∧ site.name = Symbol.length
  | .putByIdFeedBack s offset => site.access = .putById ∧ CachedAt w s site.name offset True
  | .none => True

theorem CachedAt.stable {s : ℕ} {name : Symbol} {offset : Option ℕ} {writable : Prop}
    (h : CachedAt w s name offset writable) (hst : Stable w w')
    (hle : w.shapes.nextStructure ≤ w'.shapes.nextStructure) :
    CachedAt w' s name offset writable := by
  obtain ⟨hname, hlt, hc⟩ := h
  refine ⟨hname, lt_of_lt_of_le hlt hle, fun hl => ?_⟩
  obtain ⟨hl, hview⟩ := hst s hlt hl
  obtain ⟨k, a, hk, ha, hd⟩ := hc hl
  exact ⟨k, a, hk, hview _ _ ha, hd⟩

theorem FeedbackOk.stable {site : Site} {fdbk : TypeFeedBack} (h : FeedbackOk w site fdbk)
    (hst : Stable w w') (hle : w.shapes.nextStructure ≤ w'.shapes.nextStructure) :
    FeedbackOk w' site fdbk := by
  cases fdbk with
  | propertyCache s offset mode =>
    cases mode with
    | default => exact ⟨h.1, h.2.stable hst hle⟩
    | protoLoad base => exact h
    | arrayLength => exact h
  | putByIdFeedBack s offset => exact ⟨h.1, h.2.stable hst hle⟩
  | none => trivial

theorem FeedbackOk.kept {site : Site} {fdbk : TypeFeedBack} (h : FeedbackOk w site fdbk)
    (hk : Kept P w w') : FeedbackOk w' site fdbk := h.stable hk.stable hk.nextStructure_le

/-! ### What the slow paths note -/

theorem OwnLookup.loadCacheable {p : ℕ} {name : Symbol} {slot slot' : Slot}
    (h : OwnLookup w p name slot true slot') (hb : slot.base = none)
    (hc : slot'.isLoadCacheable = true) :
    slot'.base = some p ∧ ∃ k a, slot'.offset = some k ∧ (w.table p).lookup name = some ⟨k, a⟩ ∧
      a.data = true := by
  simp only [Slot.isLoadCacheable, Slot.isCacheable, Bool.and_eq_true] at hc
  cases h with
  | named e v c he hv hs => exact ⟨rfl, e.offset, e.attrs, rfl, he, hc.2⟩
  | special v a _ hs ha hst hbase hp =>
    rcases hbase with ⟨-, -, hcache⟩ | ⟨hbase, -⟩
    · rw [hcache] at hc; cases hc.1.1
    · rw [hbase, hb] at hc; cases hc.1.2

theorem ChainLookup.loadCacheable (ho : o < w.nextObject) {name : Symbol} {slot : Slot}
    {found : Bool} (h : ChainLookup w o name Slot.new found slot) (hc : slot.isLoadCacheable = true) :
    ∃ p, p < w.nextObject ∧ slot.base = some p ∧ ∃ k a, slot.offset = some k ∧
      (w.table p).lookup name = some ⟨k, a⟩ ∧ a.data = true := by
  cases h with
  | own h => exact ⟨o, ho, h.loadCacheable rfl hc⟩
  | inherited p c hp hne he hs h => exact ⟨p, hp, h.loadCacheable rfl hc⟩
  | absent c he hs => simp [Slot.isLoadCacheable, Slot.attributes, Slot.new, AttrSafe.notFound] at hc

theorem World.Inv.cachedAt (h : w.Inv P) {p : ℕ} (hp : p < w.nextObject) {name : Symbol}
    (hname : ∀ i, name ≠ .index i) {k : ℕ} {a : AttrSafe} {offset : Option ℕ}
    (hk : offset = some k) (ha : (w.table p).lookup name = some ⟨k, a⟩) (hd : a.data = true)
    {writable : Prop} (hw : writable → a.writable = true) :
    CachedAt w (w.objects p).structure_ name offset writable :=
  ⟨hname, (h.live hp).1, fun _ => ⟨k, a, hk, ha, hd, hw⟩⟩

theorem loadFeedBack_of_base {slot : Slot} {p : ℕ} (hb : slot.base = some p) :
    loadFeedBack o slot w =
      if (w.shapes.structures (w.objects o).structure_).prototype = some p then
        .propertyCache (w.objects o).structure_ slot.offset (.protoLoad p)
      else .propertyCache (w.objects p).structure_ slot.offset .default := by
  unfold loadFeedBack
  rw [hb]

theorem loadFeedBack_read (h : w.Inv P) (ho : o < w.nextObject) (hr : Read P w w') (slot : Slot) :
    loadFeedBack o slot w' = loadFeedBack o slot w := by
  unfold loadFeedBack
  rw [hr.objects, (hr.shape _ (h.live ho).1).prototype]

theorem reads_slowGetById (h : w.Inv P) (ho : o < w.nextObject) {site : Site} {fdbk : TypeFeedBack}
    (hs : site.access ≠ .putById) (hf : FeedbackOk w site fdbk) :
    Reads P w (slowGetById site fdbk o w) fun r => FeedbackOk w site r.2 := by
  unfold slowGetById
  rw [Vm.object_bind]
  refine Reads.ite (fun hl => Reads.pure h ⟨hs, hl.1⟩) fun _ => ?_
  have hlook : Reads P w (getPropertySlot o site.name Slot.new w) fun r =>
      (r.1 = true → HasCell r.2.stored) ∧ (r.2.isLoadCacheable = true →
        FeedbackOk w site (loadFeedBack o r.2 w)) := by
    have named : (∀ i, site.name ≠ .index i) → ∀ r : Bool × Slot,
        ChainLookup w o site.name Slot.new r.1 r.2 → (r.1 = true → HasCell r.2.stored) ∧
          (r.2.isLoadCacheable = true → FeedbackOk w site (loadFeedBack o r.2 w)) := by
      rintro hname ⟨found, slot⟩ hl
      refine ⟨?_, fun hc => ?_⟩
      · rintro rfl
        exact (hl.stored_ok h ho).1
      · obtain ⟨p, hp, hb, k, a, hk, ha, hd⟩ := hl.loadCacheable ho hc
        rw [loadFeedBack_of_base hb]
        split
        · exact hs
        · exact ⟨hs, h.cachedAt hp hname hk ha hd fun hf => hf.elim⟩
    cases hn : site.name with
    | index i =>
      refine (reads_getIndexedPropertySlot h ho i Slot.new).mono ?_
      rintro ⟨found, slot⟩ hi
      refine ⟨hi.hasCell, fun hc => ?_⟩
      cases found with
      | true =>
        have hu : slot.isCacheable = false := hi.uncached rfl rfl
        simp [Slot.isLoadCacheable, hu] at hc
      | false =>
        have hn : slot = Slot.new := hi.absent rfl
        rw [hn] at hc
        cases hc
    | key t | priv t =>
      rw [hn] at named
      exact (reads_getNonIndexedPropertySlot h ho _ _).mono (named (by simp))
  refine Reads.bind hlook ?_
  rintro ⟨found, slot⟩ w₁ hr ⟨hst, hload⟩
  have hnoted : FeedbackOk w site (if slot.isLoadCacheable = true then loadFeedBack o slot w₁
      else fdbk) := by
    split
    · next hc => rw [loadFeedBack_read h ho hr]; exact hload hc
    · exact hf
  refine Reads.bind (R := fun f => f = loadFeedBack o slot w₁) ⟨hr.inv.read_refl, rfl⟩ ?_
  rintro _ w₂ hr₂ rfl
  refine Reads.ite (fun hf => ?_) fun _ => Reads.ite (fun _ => Reads.fail hr₂.inv _ _)
    fun _ => Reads.pure hr₂.inv hnoted
  exact Reads.bind (reads_storedSlotGet hr₂.inv (hst hf) _) fun v w₃ hr₃ _ =>
    Reads.pure hr₃.inv hnoted

theorem touches_putByIdSlow (h : w.Inv cachePolicy) (ho : o < w.nextObject) {site : Site}
    {fdbk : TypeFeedBack} (hs : site.access = .putById) (hf : FeedbackOk w site fdbk) {value : JsValue}
    (hval : value.isAccessorCell = false) :
    Touches cachePolicy o w (putByIdSlow site fdbk o value w) fun f w' => FeedbackOk w' site f := by
  unfold putByIdSlow
  have hput : Touches cachePolicy o w (putSlot o site.name value Slot.new site.strict w)
      fun slot w' => slot.isPutCacheable = true → slot.base = some o → slot.putResult ≠ .new →
        CachedAt w' (w'.objects o).structure_ site.name slot.offset True := by
    cases hn : site.name with
    | index i =>
      refine (guards_putIndexedSlot h ho i value site.strict rfl : Guards _ False _ _ _ _).touches.mono
        fun slot w' _ hr hp hb _ => ?_
      simp only [Slot.isPutCacheable, Bool.and_eq_true] at hp
      rw [hr hp.1] at hb
      cases hb
    | key t | priv t =>
      refine (guards_putSlot h ho site.strict rfl hval : Guards _ False _ _ _ _).touches.mono
        fun slot w' ht hr hp hb hnew => ?_
      simp only [Slot.isPutCacheable, Bool.and_eq_true] at hp
      obtain ⟨k, a, hk, ha, hd, hw⟩ := hr trivial hp.1 hb hnew
      exact ht.inv.cachedAt (ht.nextObject ▸ ho) (by simp) hk ha hd fun _ => hw
  refine Touches.bind hput fun slot w₁ ht hc => ?_
  rw [Vm.object_bind]
  refine Touches.ite (fun hcond => ?_) fun _ =>
    Touches.pure ht.inv (hf.stable ht.stable ht.nextStructure_le)
  simp only [Bool.and_eq_true, decide_eq_true_eq] at hcond
  exact Touches.pure ht.inv ⟨hs, hc hcond.1.1 hcond.1.2 hcond.2⟩

/-! ### Hits -/

structure CachedProperty (w : World) (o : ℕ) (name : Symbol) (offset : Option ℕ) (e : MapEntry)
    (v : JsValue) : Prop where
  not_index : ∀ i, name ≠ .index i
  offset_eq : slotIndex offset = e.offset
  lookup : (w.table o).lookup name = some e
  slot : (w.objects o).slots[e.offset]? = some v
  data : e.attrs.data = true
  not_length : ¬ (overridesLength (w.objects o).class_ ∧ name = Symbol.length)

theorem CachedAt.property (h : w.Inv cachePolicy) (ho : o < w.nextObject) {name : Symbol}
    {offset : Option ℕ} {writable : Prop}
    (hc : CachedAt w (w.objects o).structure_ name offset writable) :
    ∃ e v, CachedProperty w o name offset e v ∧ (writable → e.attrs.writable = true) := by
  obtain ⟨hname, -, hc⟩ := hc
  obtain ⟨k, a, rfl, ha, hd, hw⟩ := hc (h.live ho)
  have hlt := h.offset_lt ho (e := ⟨k, a⟩) ha
  refine ⟨⟨k, a⟩, _, ⟨hname, rfl, ha, List.getElem?_eq_getElem hlt, hd, ?_⟩, hw⟩
  rintro ⟨hcl, rfl⟩
  exact (h.ok ho).no_length trivial hcl (Finmap.mem_of_lookup_eq_some ha)

theorem CachedProperty.typed (h : w.Inv P) (ho : o < w.nextObject) {name : Symbol}
    {offset : Option ℕ} {e : MapEntry} {v : JsValue} (hc : CachedProperty w o name offset e v) :
    e.attrs.Typed := h.shapes.typed (h.live ho) hc.lookup

theorem CachedProperty.value (h : w.Inv P) (ho : o < w.nextObject) {name : Symbol}
    {offset : Option ℕ} {e : MapEntry} {v : JsValue} (hc : CachedProperty w o name offset e v) :
    P v := by
  refine (h.ok ho).data (n := name) (s := ⟨v, e.attrs⟩) ?_ hc.data
  rw [namedSlot, hc.lookup, Option.bind_some, hc.slot]
  rfl

theorem CachedProperty.getOwn (h : w.Inv P) (ho : o < w.nextObject) {name : Symbol}
    {offset : Option ℕ} {e : MapEntry} {v : JsValue} (hc : CachedProperty w o name offset e v)
    (slot : Slot) : ∃ c w', Read P w w' ∧ getOwnNonIndexedPropertySlot o name slot w =
      .ok (true, { slot with cacheable := c }.setWoffset v e.attrs (some o) e.offset) w' := by
  obtain ⟨hget, hready⟩ := h.shapes.get (h.live ho) name
  have hr := h.read_shapes hready
  set w' : World := { w with shapes := (w.shapes.get (w.objects o).structure_ name).2 } with hw'
  have hmethod : getOwnNonIndexedPropertySlotMethod o name slot w =
      .ok (true, slot.setWoffset v e.attrs (some o) e.offset) w' := by
    unfold getOwnNonIndexedPropertySlotMethod
    have hrun : Vm.structureGet o name w = .ok (some e) w' := by
      change Result.ok (w.shapes.get (w.objects o).structure_ name).1 w' = _
      rw [hget]
      exact congrArg (Result.ok · w') hc.lookup
    rw [Exec.bind_of_ok hrun]
    simp only [(hc.typed h ho).isNotFound, Bool.false_eq_true, if_false]
    have hslot : (w'.objects o).slots[e.offset]? = some v := hc.slot
    rw [Exec.bind_of_ok (Vm.direct_of_lt hslot)]
    rfl
  unfold getOwnNonIndexedPropertySlot
  rw [Vm.object_bind]
  have hlen := hc.not_length
  cases hcl : (w.objects o).class_ with
  | array | string text =>
    refine ⟨slot.cacheable, w', hr, ?_⟩
    rw [hcl] at hlen
    simp only [if_neg fun hn => hlen ⟨trivial, hn⟩]
    exact hmethod
  | global => exact ⟨slot.cacheable, w', hr, Exec.bind_of_ok hmethod _⟩
  | object | function => exact ⟨slot.cacheable, w', hr, hmethod⟩

theorem CachedProperty.getProperty (h : w.Inv P) (ho : o < w.nextObject) {name : Symbol}
    {offset : Option ℕ} {e : MapEntry} {v : JsValue} (hc : CachedProperty w o name offset e v)
    (slot : Slot) : ∃ c w', Read P w w' ∧ getPropertySlot o name slot w =
      .ok (true, { slot with cacheable := c }.setWoffset v e.attrs (some o) e.offset) w' := by
  obtain ⟨c, w', hr, hown⟩ := hc.getOwn h ho slot
  refine ⟨c, w', hr, ?_⟩
  have hchain : getNonIndexedPropertySlot o name slot w =
      .ok (true, { slot with cacheable := c }.setWoffset v e.attrs (some o) e.offset) w' := by
    unfold getNonIndexedPropertySlot
    rw [Exec.gets_bind]
    unfold getNonIndexedPropertySlotFrom
    rw [Exec.bind_of_ok hown]
    rfl
  rw [getPropertySlot_of_not_index hc.not_index]
  exact hchain

/-! ### Loads -/

/-- `get_slot` refuses to hand out `v`: it is a strict function, read as `caller` of a function. -/
def StrictCaller (w : World) (o : ℕ) (name : Symbol) (strict : ℕ → Bool) (v : JsValue) : Prop :=
  (w.objects o).class_ = .function ∧ name = .key "caller" ∧
    ∃ f, v = .object f ∧ (w.objects f).callable = true ∧ strict f = true

theorem storedSlotGet_of_data {s : StoredSlot} (h : s.attributes.accessor = false) (this : JsValue)
    (w : World) : s.get this w = .ok s.value w := by
  unfold StoredSlot.get
  rw [h]
  rfl

theorem getSlot_of_found {name : Symbol} {strict : ℕ → Bool} {slot : Slot}
    (hlook : getPropertySlot o name Slot.new w = .ok (true, slot) w')
    (hacc : slot.attributes.accessor = false)
    (hcaller : ¬ StrictCaller w' o name strict slot.value) :
    getSlot o name strict Slot.new w = .ok slot.value w' := by
  unfold getSlot
  rw [Exec.bind_of_ok hlook]
  have hval : slotValue o true slot w' = .ok slot.value w' := storedSlotGet_of_data hacc _ w'
  refine (Exec.bind_of_ok hval _).trans ?_
  rw [Vm.object_bind]
  cases hcl : (w'.objects o).class_ with
  | function =>
    cases hv : slot.value with
    | object f =>
      have hcall : Vm.isCallable (.object f) w' = .ok (w'.objects f).callable w' := rfl
      refine (Exec.bind_of_ok hcall _).trans ?_
      split
      · next hc =>
        simp only [Bool.and_eq_true, decide_eq_true_eq] at hc
        dsimp only
        split
        · next hs => exact absurd ⟨hcl, hc.1, f, hv, hc.2, hs⟩ hcaller
        · rfl
      · rfl
    | _ =>
      refine (Exec.bind_of_ok (show Vm.isCallable _ w' = .ok false w' from rfl) _).trans ?_
      rw [Bool.and_false]
      rfl
  | _ => rfl

theorem slowGetById_of_found {site : Site} (fdbk : TypeFeedBack) {slot : Slot}
    (hlook : getPropertySlot o site.name Slot.new w = .ok (true, slot) w')
    (hacc : slot.attributes.accessor = false)
    (hlen : ¬ (site.name = Symbol.length ∧ (w.objects o).class_ = .array)) :
    slowGetById site fdbk o w = .ok (slot.value,
      if slot.isLoadCacheable = true then loadFeedBack o slot w' else fdbk) w' := by
  unfold slowGetById
  rw [Vm.object_bind, if_neg hlen, Exec.bind_of_ok hlook]
  exact Exec.bind_of_ok (storedSlotGet_of_data hacc _ _) _

def namedValue (w : World) (o : ℕ) (name : Symbol) : Option JsValue :=
  (namedSlot (w.table o) (w.objects o) name).map StoredSlot.value

theorem CachedProperty.namedValue {name : Symbol} {offset : Option ℕ} {e : MapEntry} {v : JsValue}
    (hc : CachedProperty w o name offset e v) : namedValue w o name = some v := by
  rw [Starlight.namedValue, namedSlot, hc.lookup, Option.bind_some, hc.slot]
  rfl

/-- **A load that hits** pushes what the slow path would push in the same state, and what reading the
property with `get_slot` gives: the same value, up to its encoding, and never an accessor cell. -/
theorem getById_hit (h : w.Inv cachePolicy) (ho : o < w.nextObject) {site : Site}
    {fdbk : TypeFeedBack} (hf : FeedbackOk w site fdbk) (hhit : getHit w fdbk o)
    {strict : ℕ → Bool}
    (hcaller : ∀ v, namedValue w o site.name = some v → ¬ StrictCaller w o site.name strict v)
    (hlength : (w.objects o).class_ = .array → (w.objects o).indexed.length < 2 ^ 31) :
    ∃ v, getById site fdbk o w = .ok (v, fdbk) w ∧ v.isAccessorCell = false ∧
      (∃ f w₁, slowGetById site fdbk o w = .ok (v, f) w₁ ∧ Read cachePolicy w w₁) ∧
      ∃ u w₂, getSlot o site.name strict Slot.new w = .ok u w₂ ∧ u.denote = v.denote ∧
        Read cachePolicy w w₂ := by
  have hrun : getById site fdbk o w = (getCached fdbk o >>= fun v => pure (v, fdbk)) w := by
    unfold getById
    rw [if_pos hhit]
  cases fdbk with
  | none => exact hhit.elim
  | putByIdFeedBack s offset => exact hhit.elim
  | propertyCache s offset mode =>
    cases mode with
    | protoLoad base => exact hhit.elim
    | arrayLength =>
      have hcl : (w.objects o).class_ = .array := hhit
      have hname : site.name = Symbol.length := hf.2
      set n := (w.objects o).indexed.length with hn
      have hlook : getPropertySlot o site.name Slot.new w = .ok (true, Slot.new.set1
          (JsValue.newF64 n) (createData { writable := (w.objects o).indexed.writable })
          (some o)) w := by
        rw [hname]
        change getNonIndexedPropertySlot o Symbol.length Slot.new w = _
        unfold getNonIndexedPropertySlot
        rw [Exec.gets_bind]
        unfold getNonIndexedPropertySlotFrom
        have hown : getOwnNonIndexedPropertySlot o Symbol.length Slot.new w =
            .ok (true, Slot.new.set1 (JsValue.newF64 n)
              (createData { writable := (w.objects o).indexed.writable }) (some o)) w := by
          unfold getOwnNonIndexedPropertySlot
          rw [Vm.object_bind, hcl]
          rfl
        rw [Exec.bind_of_ok hown]
        rfl
      refine ⟨JsValue.newU32 n, hrun, rfl,
        ⟨.propertyCache (w.objects o).structure_ none .arrayLength, w, ?_, h.read_refl⟩, _, w,
        getSlot_of_found hlook ?_ ?_, ?_, h.read_refl⟩
      · unfold slowGetById
        rw [Vm.object_bind, if_pos ⟨hname, hcl⟩]
        rfl
      · cases (w.objects o).indexed.writable <;> rfl
      · rintro ⟨hf, -⟩
        rw [hcl] at hf
        cases hf
      · exact (JsValue.denote_newU32 (hlength hcl)).symm
    | default =>
      have hs : s = (w.objects o).structure_ := hhit
      subst hs
      obtain ⟨e, v, hc, -⟩ := hf.2.property h ho
      obtain ⟨c, w₁, hr, hlook⟩ := hc.getProperty h ho Slot.new
      have hna := (hc.typed h ho).not_accessor_of_data hc.data
      have hslow := slowGetById_of_found (.propertyCache (w.objects o).structure_ offset .default)
        hlook hna fun hl => hc.not_length ⟨by rw [hl.2]; trivial, hl.1⟩
      refine ⟨v, ?_, hc.value h ho, ⟨_, w₁, hslow, hr⟩, v, w₁,
        getSlot_of_found hlook hna ?_, rfl, hr⟩
      · rw [hrun]
        refine Exec.bind_of_ok (Vm.direct_of_lt ?_) _
        rw [hc.offset_eq]
        exact hc.slot
      · intro hs
        unfold StrictCaller at hs
        rw [hr.objects] at hs
        exact hcaller v hc.namedValue hs

/-! ### Stores -/

theorem CachedProperty.read (h : w.Inv P) (ho : o < w.nextObject) (hr : Read P w w') {name : Symbol}
    {offset : Option ℕ} {e : MapEntry} {v : JsValue} (hc : CachedProperty w o name offset e v) :
    CachedProperty w' o name offset e v where
  __ := hc
  lookup := hr.table h ho ▸ hc.lookup
  slot := hr.objects ▸ hc.slot
  not_length := hr.objects ▸ hc.not_length

theorem isDefinedPropertyAccepted_assignDesc {s : StoredSlot} (hd : s.attributes.data = true)
    (ha : s.attributes.accessor = false) (hw : s.attributes.writable = true) (val : JsValue)
    (throwable : Bool) (w : World) :
    s.isDefinedPropertyAccepted (assignDesc val) throwable w =
      .ok (!JsValue.sameValue val s.value, true) w := by
  have hmerge : s.mergeWithNoEffect (assignDesc val) w = .ok (JsValue.sameValue val s.value) w := by
    unfold StoredSlot.mergeWithNoEffect
    simp [assignDesc, PropertyDescriptor.dataDescriptor, hd, ha]
  unfold StoredSlot.isDefinedPropertyAccepted
  have habs : (assignDesc val).attrs.isAbsent = false := rfl
  simp only [habs, Bool.false_eq_true, if_false]
  rw [Exec.bind_of_ok hmerge]
  cases JsValue.sameValue val s.value with
  | true => rfl
  | false =>
    simp [assignDesc, PropertyDescriptor.dataDescriptor, hd, hw, AttrExternal.isGeneric]

theorem mergeAttrs_assignDesc_eq {a : AttrSafe} (hd : a.data = true) (ha : a.accessor = false)
    (val : JsValue) : StoredSlot.mergeAttrs a (assignDesc val) = a := by
  obtain ⟨wr, en, co, da, ac⟩ := a
  obtain rfl : da = true := hd
  obtain rfl : ac = false := ha
  rfl

theorem merge_assignDesc {s : StoredSlot} (hd : s.attributes.data = true)
    (ha : s.attributes.accessor = false) (val : JsValue) (w : World) :
    s.merge (assignDesc val) w = .ok ⟨val, s.attributes⟩ w := by
  have hrun : s.merge (assignDesc val) w =
      .ok ⟨val, StoredSlot.mergeAttrs s.attributes (assignDesc val)⟩ w := rfl
  rw [hrun, mergeAttrs_assignDesc_eq hd ha]

/-- The heap after a value was written to the slot of a property. -/
def World.written (w : World) (o : ℕ) (e : MapEntry) (val : JsValue) : World :=
  w.stored o w.shapes (w.objects o).structure_ ((w.objects o).slots.set e.offset val)

theorem replaceProperty_value (h : w.Inv P) (ho : o < w.nextObject) {name : Symbol} {e : MapEntry}
    (he : (w.table o).lookup name = some e) (val : JsValue) :
    replaceProperty o name e.attrs e.offset ⟨val, e.attrs⟩ w = .ok () (w.written o e val) := by
  unfold replaceProperty changeAttributes
  rw [if_neg (not_not.mpr rfl), Exec.pure_bind_apply, Vm.setDirect_of_lt (h.offset_lt ho he)]
  rfl

theorem CachedProperty.define (h : w.Inv P) (ho : o < w.nextObject) {name : Symbol}
    {offset : Option ℕ} {e : MapEntry} {v : JsValue} (hc : CachedProperty w o name offset e v)
    (hwr : e.attrs.writable = true) (val : JsValue) (slot : Slot) (throwable : Bool) :
    ∃ slot' w', Read P w w' ∧
      defineOwnNonIndexedPropertySlotMethod o name (assignDesc val) slot throwable w =
        .ok (true, slot') (if JsValue.sameValue val v = true then w' else w'.written o e val) := by
  obtain ⟨c, w', hr, hown⟩ := hc.getOwn h ho slot
  have hna := (hc.typed h ho).not_accessor_of_data hc.data
  have hlook : getOwnPropertySlot o name slot w =
      .ok (true, { slot with cacheable := c }.setWoffset v e.attrs (some o) e.offset) w' := by
    rw [getOwnPropertySlot_of_not_index hc.not_index]
    exact hown
  set slot₁ := { slot with cacheable := c }.setWoffset v e.attrs (some o) e.offset with hslot₁
  have hown₁ : (!slot₁.isNotFound && decide (slot₁.base = some o)) = true := by
    simp [hslot₁, Slot.isNotFound, Slot.attributes, Slot.setWoffset, (hc.typed h ho).isNotFound]
  have hacc := isDefinedPropertyAccepted_assignDesc (s := slot₁.stored) hc.data hna hwr val throwable w'
  have hused : slot.isUsed = false := rfl
  unfold defineOwnNonIndexedPropertySlotMethod
  simp only [hused, Bool.false_eq_true, if_false]
  rw [Exec.bind_of_ok hlook]
  simp only [hown₁, if_true]
  rw [Exec.bind_of_ok hacc]
  cases hsame : JsValue.sameValue val v with
  | true =>
    have hsame₁ : JsValue.sameValue val slot₁.stored.value = true := hsame
    refine ⟨slot₁, w', hr, ?_⟩
    simp only [hsame₁]
    rfl
  | false =>
    have hsame₁ : JsValue.sameValue val slot₁.stored.value = false := hsame
    have hmerge := merge_assignDesc (s := slot₁.stored) hc.data hna val w'
    have hrep : replaceProperty o name slot₁.attributes e.offset ⟨val, slot₁.stored.attributes⟩ w' =
        .ok () (w'.written o e val) :=
      replaceProperty_value hr.inv (hr.nextObject ▸ ho) (hr.table h ho ▸ hc.lookup) val
    refine ⟨({ slot₁ with stored := ⟨val, slot₁.stored.attributes⟩ }).markPutResult .replace e.offset,
      w', hr, ?_⟩
    simp only [hsame₁, Bool.not_false, if_true]
    refine (Exec.bind_of_ok hmerge _).trans ?_
    exact Exec.bind_of_ok hrep _

theorem CachedProperty.putSlot (h : w.Inv P) (ho : o < w.nextObject) {name : Symbol}
    {offset : Option ℕ} {e : MapEntry} {v : JsValue} (hc : CachedProperty w o name offset e v)
    (hwr : e.attrs.writable = true)
    (hfun : ¬ ((w.objects o).class_ = .function ∧ name = Symbol.prototype)) (val : JsValue)
    (throwable : Bool) : ∃ slot w', Read P w w' ∧ putSlot o name val Slot.new throwable w =
      .ok slot (if JsValue.sameValue val v = true then w' else w'.written o e val) := by
  obtain ⟨c, w₁, hr₁, hlook⟩ := hc.getProperty h ho Slot.new
  have hc₁ := hc.read h ho hr₁
  have ho₁ : o < w₁.nextObject := hr₁.nextObject ▸ ho
  have hna := (hc.typed h ho).not_accessor_of_data hc.data
  set slot := { Slot.new with cacheable := c }.setWoffset v e.attrs (some o) e.offset with hslot
  obtain ⟨slot', w₂, hr₂, hdef⟩ := hc₁.define hr₁.inv ho₁ hwr val slot throwable
  have hdispatch : defineOwnNonIndexedPropertySlot o name (assignDesc val) slot throwable w₁ =
      defineOwnNonIndexedPropertySlotMethod o name (assignDesc val) slot throwable w₁ := by
    have hlen := hc₁.not_length
    rw [← hr₁.objects] at hfun
    unfold defineOwnNonIndexedPropertySlot
    rw [Vm.object_bind]
    cases hcl : (w₁.objects o).class_ with
    | array =>
      rw [hcl] at hlen
      simp only [if_neg fun hn => hlen ⟨trivial, hn⟩]
    | function =>
      simp only [if_neg fun hn => hfun ⟨hcl, hn⟩]
    | _ => rfl
  have hcan : canPut o true slot w₁ = .ok true w₁ := by
    have hacc : slot.attributes.accessor = false := hna
    have hw : slot.attributes.writable = true := hwr
    unfold canPut
    simp only [if_true, hacc, hw, Bool.false_eq_true, if_false]
    rfl
  have hown : (!slot.isNotFound && decide (slot.base = some o) && slot.attributes.data) = true := by
    simp [hslot, Slot.isNotFound, Slot.attributes, Slot.setWoffset, (hc.typed h ho).isNotFound,
      hc.data]
  have hput : putNonIndexedSlot o name val Slot.new throwable w =
      .ok slot' (if JsValue.sameValue val v = true then w₂ else w₂.written o e val) := by
    unfold putNonIndexedSlot
    rw [Exec.bind_of_ok hlook]
    dsimp only
    unfold putFrom
    rw [Exec.bind_of_ok hcan]
    simp only [Bool.not_true, Bool.false_eq_true, if_false, hown, if_true]
    exact Exec.bind_of_ok (hdispatch.trans hdef) _
  refine ⟨slot', w₂, hr₁.trans hr₂, ?_⟩
  have hname := hc.not_index
  cases name with
  | index i => exact absurd rfl (hname i)
  | key t => exact hput
  | priv t => exact hput

/-- The heaps agree in everything that can be observed; values in named slots agree up to their
encoding. -/
structure SameHeap (w w' : World) : Prop where
  nextObject : w'.nextObject = w.nextObject
  accessors : w'.accessors = w.accessors
  table : ∀ b, b < w.nextObject → w'.table b = w.table b
  prototype : ∀ b, b < w.nextObject → w'.prototype b = w.prototype b
  object : ∀ b, { w'.objects b with slots := [] } = { w.objects b with slots := [] }
  slots : ∀ b, (w'.objects b).slots.map JsValue.denote = (w.objects b).slots.map JsValue.denote

theorem World.objects_written_ne {b : ℕ} (hb : b ≠ o) (e : MapEntry) (val : JsValue) :
    (w.written o e val).objects b = w.objects b := Function.update_of_ne hb _ _

theorem World.written_self (e : MapEntry) (val : JsValue) :
    (w.written o e val).objects o =
      { w.objects o with slots := (w.objects o).slots.set e.offset val } :=
  Function.update_self _ _ _

theorem World.structure_written (b : ℕ) (e : MapEntry) (val : JsValue) :
    ((w.written o e val).objects b).structure_ = (w.objects b).structure_ := by
  by_cases hb : b = o
  · subst hb; rw [World.written_self]
  · rw [World.objects_written_ne hb]

theorem World.Read.sameHeap_written (h : w.Inv P) (hr : Read P w w') (e : MapEntry) (val : JsValue) :
    SameHeap (w.written o e val) (w'.written o e val) where
  __ := hr
  table b hb := by
    rw [World.table, World.table, World.structure_written, World.structure_written, hr.objects]
    exact (hr.shape _ (h.live hb).1).view
  prototype b hb := by
    rw [World.prototype, World.prototype, World.structure_written, World.structure_written,
      hr.objects]
    exact (hr.shape _ (h.live hb).1).prototype
  object b := by unfold World.written World.stored; rw [hr.objects]
  slots b := by unfold World.written World.stored; rw [hr.objects]

theorem World.Read.sameHeap (h : w.Inv P) (hr : Read P w w') {e : MapEntry} {v val : JsValue}
    (hslot : (w.objects o).slots[e.offset]? = some v) (hsame : val.denote = v.denote) :
    SameHeap (w.written o e val) w' where
  __ := hr
  table b hb := by
    rw [World.table, World.table, World.structure_written, hr.objects]
    exact (hr.shape _ (h.live hb).1).view
  prototype b hb := by
    rw [World.prototype, World.prototype, World.structure_written, hr.objects]
    exact (hr.shape _ (h.live hb).1).prototype
  object b := by
    rw [hr.objects]
    by_cases hb : b = o
    · subst hb; rw [World.written_self]
    · rw [World.objects_written_ne hb]
  slots b := by
    rw [hr.objects]
    by_cases hb : b = o
    · subst hb
      have hold : ((w.objects b).slots.map JsValue.denote)[e.offset]? = some v.denote := by
        rw [List.getElem?_map, hslot]
        rfl
      obtain ⟨hlt, hget⟩ := List.getElem?_eq_some_iff.mp hold
      rw [World.written_self, List.map_set, hsame, ← hget, List.set_getElem_self hlt]
    · rw [World.objects_written_ne hb]

/-- A store on the property `name` of object `o` that loses the sign of a zero: the engine's
`same_value` takes both zeros for the same value. -/
def LosesZeroSign (w : World) (o : ℕ) (name : Symbol) (val : JsValue) : Prop :=
  ∃ v, namedValue w o name = some v ∧ val.isZero = true ∧ v.isZero = true ∧ val.denote ≠ v.denote

theorem putById_of_hit (h : w.Inv cachePolicy) (ho : o < w.nextObject) {site : Site}
    {fdbk : TypeFeedBack} (hf : FeedbackOk w site fdbk) (hhit : putHit w fdbk o) (val : JsValue) :
    ∃ offset e v, CachedProperty w o site.name offset e v ∧ e.attrs.writable = true ∧
      putById site fdbk o val w = .ok fdbk (w.written o e val) := by
  cases fdbk with
  | none => exact hhit.elim
  | propertyCache s offset mode => exact hhit.elim
  | putByIdFeedBack s offset =>
    have hs : s = (w.objects o).structure_ := hhit
    subst hs
    obtain ⟨e, v, hc, hw⟩ := hf.2.property h ho
    refine ⟨offset, e, v, hc, hw trivial, ?_⟩
    have hlt : slotIndex offset < (w.objects o).slots.length :=
      hc.offset_eq ▸ h.offset_lt ho hc.lookup
    have hrun := Vm.setDirect_of_lt (v := val) hlt
    rw [hc.offset_eq] at hrun
    unfold putById
    simp only [if_true, hc.offset_eq]
    exact Exec.bind_of_ok hrun _

/-- **A store that hits** writes a writable data property, and leaves what the slow path would leave
in the same state, up to the encoding of values. -/
theorem putById_hit (h : w.Inv cachePolicy) (ho : o < w.nextObject) {site : Site}
    {fdbk : TypeFeedBack} (hf : FeedbackOk w site fdbk) (hhit : putHit w fdbk o) {val : JsValue}
    (hfun : ¬ ((w.objects o).class_ = .function ∧ site.name = Symbol.prototype))
    (hzero : ¬ LosesZeroSign w o site.name val) :
    ∃ w₁, putById site fdbk o val w = .ok fdbk w₁ ∧
      (∃ e, (w.table o).lookup site.name = some e ∧ e.attrs.data = true ∧
        e.attrs.writable = true) ∧
      ∃ f w₂, putByIdSlow site fdbk o val w = .ok f w₂ ∧ SameHeap w₁ w₂ := by
  obtain ⟨offset, e, v, hc, hwr, hrun⟩ := putById_of_hit h ho hf hhit val
  obtain ⟨slot, w₂, hr, hput⟩ := hc.putSlot h ho hwr hfun val site.strict
  have hsame : SameHeap (w.written o e val)
      (if JsValue.sameValue val v = true then w₂ else w₂.written o e val) := by
    split
    · next hs =>
      refine hr.sameHeap h hc.slot ?_
      by_contra hne
      refine hzero ⟨v, hc.namedValue, ?_⟩
      by_contra hz
      exact hne (JsValue.denote_eq_of_sameValue hs fun hz' => hz ⟨hz'.1, hz'.2, hne⟩)
    · exact hr.sameHeap_written h e val
  refine ⟨_, hrun, ⟨e, hc.lookup, hc.data, hwr⟩, ?_⟩
  set w₃ := if JsValue.sameValue val v = true then w₂ else w₂.written o e val with hw₃
  have hslow : ∃ f, putByIdSlow site fdbk o val w = .ok f w₃ := by
    unfold putByIdSlow
    rw [Exec.bind_of_ok hput, Vm.object_bind]
    split
    · exact ⟨_, rfl⟩
    · exact ⟨_, rfl⟩
  obtain ⟨f, hf⟩ := hslow
  exact ⟨f, w₃, hf, hsame⟩

end Starlight
