import Starlight.Vm.Permanence

/-!
# Storing properties

The rules for the updates that operations are made of: storing a property in a named slot or in the
sparse map, writing an accessor cell, merging a descriptor into a stored property, and the transitions
that keep an object's properties.
-/

namespace Starlight

open JsObject World

variable {α : Type} {P : Policy} {proper : Prop} {w w' : World} {o : ℕ}

/-- Cell `c` is used nowhere but, possibly, by object `o` at location `l`. -/
def FreshFor (w : World) (o : ℕ) (l : Loc) (c : ℕ) : Prop :=
  ∀ b l', b < w.nextObject → w.cellAt b l' = some c → b = o ∧ l' = l

structure Storable (P : Policy) (w : World) (o : ℕ) (l : Loc) (s : StoredSlot) : Prop where
  typed : s.attributes.Typed
  accessor : s.attributes.accessor = true →
    s.value = .empty ∨ ∃ c, s.value = .accessor c ∧ c < w.nextAccessor ∧ FreshFor w o l c
  data : ∀ n, l = .named n → s.attributes.data = true → P s.value

theorem StoredSlot.cell_eq_some {s : StoredSlot} {c : ℕ} :
    s.cell = some c ↔ s.attributes.accessor = true ∧ s.value = .accessor c := by
  unfold StoredSlot.cell
  split
  · next ha =>
    cases hv : s.value <;> simp [ha]
  · next ha => simp [ha]

theorem Storable.cell {l : Loc} {s : StoredSlot} (h : Storable P w o l s) {c : ℕ}
    (ha : s.attributes.accessor = true) (hv : s.value = .accessor c) :
    c < w.nextAccessor ∧ FreshFor w o l c := by
  rcases h.accessor ha with he | ⟨c', hv', hc⟩
  · rw [hv] at he; cases he
  · rw [hv] at hv'; cases hv'; exact hc

theorem World.cellAt_eq_some {l : Loc} {c : ℕ} :
    w.cellAt o l = some c ↔ ∃ s, slotAt (w.table o) (w.objects o) l = some s ∧ s.cell = some c := by
  rw [World.cellAt, JsObject.cellAt, Option.bind_eq_some_iff]

theorem World.Inv.namedSlot_typed (h : w.Inv P) (ho : o < w.nextObject) {n : Symbol}
    {s : StoredSlot} (hs : namedSlot (w.table o) (w.objects o) n = some s) :
    s.attributes.Typed := by
  unfold namedSlot at hs
  obtain ⟨e, he, hs⟩ := Option.bind_eq_some_iff.mp hs
  obtain ⟨v, -, rfl⟩ := Option.map_eq_some_iff.mp hs
  exact h.shapes.typed (h.live ho) he

theorem World.Inv.storable (h : w.Inv P) (ho : o < w.nextObject) {l : Loc} {s : StoredSlot}
    (hs : slotAt (w.table o) (w.objects o) l = some s) : Storable P w o l s where
  typed := by
    cases l with
    | named n => exact h.namedSlot_typed ho hs
    | sparse i => exact (h.ok ho).sparse_typed hs
  accessor ha := by
    rcases (h.ok ho).accessor hs ha with hv | ⟨c, hv, hlt⟩
    · exact .inl hv
    have hc : w.cellAt o l = some c :=
      World.cellAt_eq_some.mpr ⟨s, hs, StoredSlot.cell_eq_some.mpr ⟨ha, hv⟩⟩
    refine .inr ⟨c, hv, hlt, fun b l' hb hc' => ?_⟩
    by_cases hbo : b = o
    · subst hbo; exact ⟨rfl, (h.ok hb).cell_inj hc' hc⟩
    · exact absurd hc' (h.cells ho hb (Ne.symm hbo) hc)
  data n hn hd := by
    subst hn
    exact (h.ok ho).data hs hd

/-- **Storing a property.** Object `o` moves along a transition and changes its slots; every property
it holds afterwards was there before or may be stored, and at most one of the new ones is an
accessor. -/
theorem World.Inv.touch_slot (h : w.Inv P) (ho : o < w.nextObject) {σ' : Shapes} {obj' : JsObject}
    (ht : w.shapes.Transitioned σ' w.held (w.objects o).structure_ obj'.structure_)
    (hcap : σ'.storageCapacity obj'.structure_ ≤ obj'.slots.length) (l₀ : Loc)
    (hslots : ∀ l s, slotAt (σ'.view obj'.structure_) obj' l = some s →
      slotAt (w.table o) (w.objects o) l = some s ∨
        (Storable P w o l s ∧ (s.attributes.accessor = true → l = l₀)))
    (hlen : P.noLength → overridesLength obj'.class_ → Symbol.length ∉ σ'.view obj'.structure_)
    (hproto : ∀ p, (σ'.structures obj'.structure_).prototype = some p → p < w.nextObject)
    (hclass : obj'.class_ = (w.objects o).class_) :
    Touch P o w { w with shapes := σ', objects := Function.update w.objects o obj' } := by
  have hok := h.ok ho
  -- a cell of the new object was its own at the same place, or is fresh for the place `l₀`
  have hcell : ∀ {l c}, JsObject.cellAt (σ'.view obj'.structure_) obj' l = some c →
      w.cellAt o l = some c ∨ (FreshFor w o l₀ c ∧ l = l₀) := by
    intro l c hc
    obtain ⟨s, hs, hsc⟩ := Option.bind_eq_some_iff.mp hc
    obtain ⟨ha, hv⟩ := StoredSlot.cell_eq_some.mp hsc
    rcases hslots l s hs with hold | ⟨hst, hl⟩
    · exact .inl (World.cellAt_eq_some.mpr ⟨s, hold, hsc⟩)
    · exact .inr ⟨hl ha ▸ (hst.cell ha hv).2, hl ha⟩
  have hnew : ObjectOk P (σ'.view obj'.structure_) (σ'.storageCapacity obj'.structure_)
      w.nextAccessor obj' := by
    constructor
    case slots => exact hcap
    case accessor =>
      intro l s hs ha
      rcases hslots l s hs with hold | ⟨hst, -⟩
      · exact hok.accessor hold ha
      · exact (hst.accessor ha).imp_right <| Exists.imp fun c hc => ⟨hc.1, hc.2.1⟩
    case data =>
      intro n s hs hd
      rcases hslots (.named n) s hs with hold | ⟨hst, -⟩
      · exact hok.data hold hd
      · exact hst.data n rfl hd
    case sparse_typed =>
      intro i s hs
      rcases hslots (.sparse i) s hs with hold | ⟨hst, -⟩
      · exact hok.sparse_typed hold
      · exact hst.typed
    case cell_inj =>
      intro l l' c hc hc'
      rcases hcell hc with hold | ⟨hfresh, hl⟩ <;> rcases hcell hc' with hold' | ⟨hfresh', hl'⟩
      · exact hok.cell_inj hold hold'
      · rw [hl']; exact (hfresh' o l ho hold).2
      · rw [hl]; exact (hfresh o l' ho hold').2.symm
      · rw [hl, hl']
    case no_length => exact hlen
  refine h.touch ho ht hnew ?_ (fun _ _ _ _ _ _ => rfl) hproto le_rfl hclass
  intro l c hc b l' hb hbo hc'
  rcases hcell hc with hold | ⟨hfresh, -⟩
  · exact h.cells hb ho hbo hc' hold
  · exact hbo (hfresh b l' hb hc').1

theorem World.Inv.touch_object (h : w.Inv P) (ho : o < w.nextObject) {f : JsObject → JsObject}
    (hst : (f (w.objects o)).structure_ = (w.objects o).structure_)
    (hsl : (f (w.objects o)).slots = (w.objects o).slots)
    (hcl : (f (w.objects o)).class_ = (w.objects o).class_) (l₀ : Loc)
    (hsparse : ∀ i s, sparseSlot (f (w.objects o)) i = some s →
      sparseSlot (w.objects o) i = some s ∨
        (Storable P w o (.sparse i) s ∧ (s.attributes.accessor = true → .sparse i = l₀))) :
    Touch P o w { w with objects := Function.update w.objects o (f (w.objects o)) } := by
  have hok := h.ok ho
  refine h.touch_slot ho (by rw [hst]; exact h.shapes.transitioned_refl (h.live ho)) (by rw [hst, hsl]; exact hok.slots) l₀ ?_ (by rw [hst, hcl]; exact hok.no_length) ?_ hcl
  · intro l s hs
    cases l with
    | named n =>
      refine .inl ?_
      simp only [slotAt, namedSlot, hst, hsl] at hs ⊢
      exact hs
    | sparse i => exact hsparse i s hs
  · intro p hp
    rw [hst] at hp
    exact h.proto_lt (h.live ho).1 hp

theorem World.Inv.touch_accessors (h : w.Inv P) (ho : o < w.nextObject) {acc' : ℕ → Accessor}
    {next' : ℕ} (hnext : w.nextAccessor ≤ next')
    (hacc : ∀ b l c, b < w.nextObject → b ≠ o → w.cellAt b l = some c →
      acc' c = w.accessors c) :
    Touch P o w { w with accessors := acc', nextAccessor := next' } := by
  have hok := h.ok ho
  have hself := h.shapes.transitioned_refl (h.live ho)
  have key := @World.Inv.touch P w o h ho w.shapes (w.objects o) acc' next' hself
    ⟨hok.slots, fun hs ha => (hok.accessor hs ha).imp_right <| Exists.imp fun c hc =>
        ⟨hc.1, lt_of_lt_of_le hc.2 hnext⟩, hok.data, hok.sparse_typed, hok.cell_inj, hok.no_length⟩
    (fun l c hc b l' hb hbo hc' => h.cells hb ho hbo hc' hc) hacc
    (fun p hp => h.proto_lt (h.live ho).1 hp) hnext rfl
  rwa [Function.update_eq_self] at key

/-! ### Accessor cells -/

theorem World.Inv.cellAt_lt (h : w.Inv P) (ho : o < w.nextObject) {l : Loc} {c : ℕ}
    (hc : w.cellAt o l = some c) : c < w.nextAccessor := by
  obtain ⟨s, hs, hc⟩ := World.cellAt_eq_some.mp hc
  obtain ⟨ha, hv⟩ := StoredSlot.cell_eq_some.mp hc
  exact ((h.storable ho hs).cell ha hv).1

theorem guards_newAccessor (h : w.Inv P) (ho : o < w.nextObject) (g s : JsValue) (l : Loc) :
    Guards P proper o w (Vm.newAccessor g s w) fun c w' => c = w.nextAccessor ∧
      c < w'.nextAccessor ∧ FreshFor w' o l c ∧ w'.objects = w.objects ∧ w'.shapes = w.shapes := by
  have hold : ∀ b l' c, b < w.nextObject → w.cellAt b l' = some c →
      Function.update w.accessors w.nextAccessor ⟨g, s⟩ c = w.accessors c :=
    fun b l' c hb hc => Function.update_of_ne (Nat.ne_of_lt (h.cellAt_lt hb hc)) _ _
  refine Guards.of_ok (h.touch_accessors ho (Nat.le_succ _) fun b l' c hb _ => hold b l' c hb)
    (.of_namedSlot (fun _ => rfl) fun n s' c hs _ hc => ?_) ⟨rfl, Nat.lt_succ_self _, ?_, rfl, rfl⟩
  · exact hold o (.named n) c ho (World.cellAt_eq_some.mpr ⟨s', hs, hc⟩)
  · intro b l' hb hc
    exact absurd (h.cellAt_lt hb hc) (lt_irrefl _)

/-- Writing an accessor cell that is fresh for a location of `o` touches `o` only. The property there
must not lose its getter or setter if it cannot be configured. -/
theorem guards_modifyAccessor (h : w.Inv P) (ho : o < w.nextObject) {l : Loc} {c : ℕ}
    (hc : FreshFor w o l c) (f : Accessor → Accessor)
    (hf : ∀ n s, l = .named n → namedSlot (w.table o) (w.objects o) n = some s →
      s.attributes.configurable = false → s.cell = some c → f (w.accessors c) = w.accessors c) :
    Guards P proper o w (Vm.modifyAccessor c f w) fun _ w' =>
      w'.objects = w.objects ∧ w'.shapes = w.shapes ∧ w'.nextAccessor = w.nextAccessor ∧
        FreshFor w' o l c := by
  refine Guards.of_ok (h.touch_accessors ho le_rfl fun b l' c' hb hbo hc' => ?_)
    (.of_namedSlot (fun _ => rfl) fun n s c' hs hconf hc' => ?_) ⟨rfl, rfl, rfl, hc⟩
  · refine Function.update_of_ne ?_ _ _
    rintro rfl
    exact hbo (hc b l' hb hc').1
  · by_cases heq : c' = c
    · subst heq
      have hl := (hc o (.named n) ho (World.cellAt_eq_some.mpr ⟨s, hs, hc'⟩)).2
      exact (Function.update_self _ _ _).trans (hf n s hl.symm hs hconf hc')
    · exact Function.update_of_ne heq _ _

/-! ### Reading a stored property -/

/-- A property that should have an accessor cell has one or was never filled in. -/
def HasCell (s : StoredSlot) : Prop :=
  s.attributes.accessor = true → s.value = .empty ∨ ∃ c, s.value = .accessor c

theorem Storable.hasCell {l : Loc} {s : StoredSlot} (h : Storable P w o l s) : HasCell s :=
  fun ha => (h.accessor ha).imp_right <| Exists.imp fun _ hc => hc.1

theorem reads_accessor (h : w.Inv P) {s : StoredSlot} (hs : HasCell s)
    (ha : s.attributes.accessor = true) :
    Reads P w (s.accessor w) fun c => s.value = .accessor c := by
  unfold StoredSlot.accessor
  rw [if_pos ha]
  rcases hs ha with hv | ⟨c, hv⟩
  · rw [hv]
    exact Reads.fail h _ _
  · rw [hv]
    exact Reads.pure h rfl

theorem reads_toDescriptor (h : w.Inv P) {s : StoredSlot} (hs : HasCell s)
    (ht : s.attributes.Typed) :
    Reads P w (s.toDescriptor w) fun d =>
      (s.attributes.data = true ∧ d = .dataDescriptor s.value s.attributes.toExternal) ∨
        (s.attributes.data = false ∧
          ∃ g t, d = .accessorDescriptor g t s.attributes.toExternal) := by
  unfold StoredSlot.toDescriptor
  split
  · next hd => exact Reads.pure h (.inl ⟨hd, rfl⟩)
  · next hd =>
    have ha := ht.accessor_of_not_data hd
    refine Reads.bind (reads_accessor h hs ha) fun c w' hr _ => ?_
    rw [Vm.accessorCell_bind]
    exact Reads.pure hr.inv (.inr ⟨by simpa using hd, _, _, rfl⟩)

/-! ### Deciding about a definition -/

/-- A descriptor that asks for nothing that a property which cannot be configured does not allow: what
it gives is what the property has. -/
structure Agrees (acc : ℕ → Accessor) (s : StoredSlot) (desc : PropertyDescriptor) : Prop where
  configurable : desc.attrs.undefConfigurable = true ∨ desc.attrs.configurable = false
  enumerable : desc.attrs.undefEnumerable = true ∨ desc.attrs.enumerable = s.attributes.enumerable
  kind : desc.attrs.isGeneric = true ∨ desc.attrs.data = s.attributes.data
  writable : desc.attrs.isGeneric = false → s.attributes.data = true →
    s.attributes.writable = false → desc.attrs.undefWritable = true ∨ desc.attrs.writable = false
  value : desc.attrs.isGeneric = false → s.attributes.data = true →
    s.attributes.writable = false →
      desc.attrs.undefValue = true ∨ JsValue.sameValue desc.fst s.value = true
  cell : desc.attrs.isGeneric = false → s.attributes.data = false → ∀ c, s.value = .accessor c →
    (desc.attrs.undefGetter = true ∨ desc.fst = (acc c).getter) ∧
      (desc.attrs.undefSetter = true ∨ desc.snd = (acc c).setter)

/-- A descriptor that may be merged into a property that cannot be configured: it agrees with the
property, and does not say anything about the value of a read-only one. -/
structure Acceptable (proper : Prop) (acc : ℕ → Accessor) (s : StoredSlot)
    (desc : PropertyDescriptor) : Prop where
  agrees : Agrees acc s desc
  generic : proper → s.attributes.data = true → s.attributes.writable = false →
    desc.attrs.isGeneric = true

theorem Acceptable.mono {proper' : Prop} {acc : ℕ → Accessor} {s : StoredSlot}
    {desc : PropertyDescriptor} (h : Acceptable proper acc s desc) (hp : proper' → proper) :
    Acceptable proper' acc s desc :=
  ⟨h.agrees, fun hp' => h.generic (hp hp')⟩

/-- What `mergeWithNoEffect` concludes: if it finds nothing to do then the descriptor agrees with the
property. -/
theorem reads_mergeWithNoEffect (h : w.Inv P) {s : StoredSlot} (hs : HasCell s)
    (ht : s.attributes.Typed) (desc : PropertyDescriptor) :
    Reads P w (s.mergeWithNoEffect desc w) fun b => s.attributes.configurable = false →
      (b = true → Agrees w.accessors s desc) ∧
      (b = false → desc.Proper → s.attributes.data = true → s.attributes.writable = false →
        Agrees w.accessors s desc → desc.attrs.isGeneric = true) := by
  unfold StoredSlot.mergeWithNoEffect
  refine Reads.ite (fun hc => Reads.pure h fun hconf => ⟨nofun, fun _ _ _ _ ha => ?_⟩) fun hc => ?_
  · rw [hconf] at hc
    have := ha.configurable
    simp_all
  refine Reads.ite (fun he => Reads.pure h fun hconf => ⟨nofun, fun _ _ _ _ ha => ?_⟩) fun he => ?_
  · have := ha.enumerable
    simp_all
  refine Reads.ite (fun hk => Reads.pure h fun hconf => ⟨nofun, fun _ hp hd _ ha => ?_⟩) fun hk => ?_
  · have hna := ht.not_accessor_of_data hd
    rcases ha.kind with hg | hg
    · exact hg
    · have := hp (hg.trans hd)
      simp_all
  simp only [Bool.or_eq_true, bne_iff_ne, ne_eq, not_or, Decidable.not_not] at hk
  obtain ⟨hdata, hacc⟩ := hk
  -- the attributes that both kinds of property have agree
  have hcommon : s.attributes.configurable = false →
      (desc.attrs.undefConfigurable = true ∨ desc.attrs.configurable = false) ∧
      (desc.attrs.undefEnumerable = true ∨ desc.attrs.enumerable = s.attributes.enumerable) := by
    intro hconf
    rw [hconf] at hc
    constructor
    · by_contra hn
      simp_all
    · by_contra hn
      simp_all
  refine Reads.ite (fun hd => ?_) fun hd => ?_
  · have hsd : s.attributes.data = true := hdata ▸ hd
    have agree (hconf : s.attributes.configurable = false)
        (hw : desc.attrs.undefWritable = true ∨ desc.attrs.writable = s.attributes.writable)
        (hv : desc.attrs.undefValue = true ∨ JsValue.sameValue desc.fst s.value = true) :
        Agrees w.accessors s desc :=
      ⟨(hcommon hconf).1, (hcommon hconf).2, .inr hdata, fun _ _ hr => hr ▸ hw, fun _ _ _ => hv,
        fun _ hn => by rw [hsd] at hn; cases hn⟩
    refine Reads.ite (fun hw => Reads.pure h fun hconf => ⟨nofun, fun _ _ _ hr ha => ?_⟩) fun hw => ?_
    · by_contra hg
      have := ha.writable (by simpa using hg) hsd hr
      simp_all
    have hw : desc.attrs.undefWritable = true ∨ desc.attrs.writable = s.attributes.writable := by
      by_contra hn
      simp_all
    refine Reads.ite (fun hu => Reads.pure h fun hconf => ⟨fun _ => agree hconf hw (.inl hu), nofun⟩)
      fun hu => Reads.pure h fun hconf => ⟨fun hv => agree hconf hw (.inr hv), fun hv _ _ hr ha => ?_⟩
    by_contra hg
    rcases ha.value (by simpa using hg) hsd hr with hu' | hv'
    · exact hu hu'
    · rw [hv'] at hv
      cases hv
  · have hsd : ¬ s.attributes.data = true := hdata ▸ hd
    refine Reads.ite (fun ha => ?_) fun ha => ?_
    · refine Reads.bind (reads_accessor h hs (hacc ▸ ha)) fun c w' hr hv => ?_
      rw [Vm.accessorCell_bind, hr.accessors]
      refine Reads.pure hr.inv fun hconf => ⟨fun hb => ?_, fun _ _ hd' => absurd hd' hsd⟩
      simp only [Bool.and_eq_true, decide_eq_true_eq] at hb
      refine ⟨(hcommon hconf).1, (hcommon hconf).2, .inr hdata, fun _ hd' => absurd hd' hsd,
        fun _ hd' => absurd hd' hsd, fun _ _ c' hv' => ?_⟩
      rw [hv] at hv'
      cases hv'
      exact ⟨.inr hb.1, .inr hb.2⟩
    · exact absurd (hacc ▸ ht.accessor_of_not_data hsd) ha

/-- Deciding about a definition changes nothing. -/
theorem reads_isDefinedPropertyAccepted (h : w.Inv P) {s : StoredSlot} (hs : HasCell s)
    (ht : s.attributes.Typed) (desc : PropertyDescriptor) (throwable : Bool) :
    Reads P w (s.isDefinedPropertyAccepted desc throwable w) fun r =>
      s.attributes.configurable = false → r.1 = true → Acceptable desc.Proper w.accessors s desc := by
  unfold StoredSlot.isDefinedPropertyAccepted
  refine Reads.ite (fun _ => Reads.pure h nofun) fun _ => ?_
  refine Reads.bind (reads_mergeWithNoEffect h hs ht desc) fun noEffect w' hr hno => ?_
  have hrej : ∀ msg, Reads P w' (Vm.reject throwable msg (false, false) w') fun r =>
      s.attributes.configurable = false → r.1 = true → Acceptable desc.Proper w.accessors s desc :=
    fun msg => Reads.reject hr.inv throwable msg nofun
  refine Reads.ite (fun _ => Reads.pure hr.inv nofun) fun heff => ?_
  have heff : noEffect = false := by simpa using heff
  -- a descriptor that agrees is accepted only when there is something to do
  have hacc : (s.attributes.configurable = false → Agrees w.accessors s desc) →
      Reads P w' ((pure (true, true) : Vm (Bool × Bool)) w') fun r =>
        s.attributes.configurable = false → r.1 = true →
          Acceptable desc.Proper w.accessors s desc :=
    fun ha => Reads.pure hr.inv fun hconf _ =>
      ⟨ha hconf, fun hp hd hw => (hno hconf).2 heff hp hd hw (ha hconf)⟩
  refine Reads.ite (fun _ => hrej _) fun hc => Reads.ite (fun _ => hrej _) fun he => ?_
  simp only [Bool.and_eq_true, Bool.not_eq_true', bne_iff_ne, ne_eq, not_and, Bool.not_eq_true,
    Decidable.not_not] at hc he
  have henum (hconf : s.attributes.configurable = false) : desc.attrs.undefEnumerable = true ∨
      desc.attrs.enumerable = s.attributes.enumerable := by
    cases hu : desc.attrs.undefEnumerable with
    | true => exact .inl rfl
    | false => exact .inr (he ⟨hconf, hu⟩).symm
  refine Reads.ite (fun hg => hacc fun hconf => ?_) fun hg => ?_
  · refine ⟨.inr (hc hconf), henum hconf, .inl hg, ?_, ?_, ?_⟩ <;>
      exact fun hn => by rw [hg] at hn; cases hn
  refine Reads.ite (fun _ => Reads.ite (fun _ => hrej _) fun hn => hacc fun hconf => ?_) fun hk => ?_
  · exact absurd (by simpa using hconf) hn
  have hk : desc.attrs.data = s.attributes.data := by
    simp only [bne_iff_ne, ne_eq, Decidable.not_not] at hk
    exact hk.symm
  -- a data property
  refine Reads.ite (fun hd => Reads.ite (fun _ => Reads.ite (fun _ => hrej _) fun hwr =>
    Reads.ite (fun _ => hrej _) fun hv => hacc fun hconf => ?_) fun hn => hacc fun hconf => ?_)
    fun hd => ?_
  · refine ⟨.inr (hc hconf), henum hconf, .inr hk, fun _ _ _ => .inr (by simpa using hwr),
      fun _ _ _ => .inr ?_, fun _ hna => by rw [hd] at hna; cases hna⟩
    rw [JsValue.sameValue_comm]
    simpa using hv
  · have hw : s.attributes.writable = true := by simpa [hconf] using hn
    refine ⟨.inr (hc hconf), henum hconf, .inr hk, ?_, ?_, fun _ hna => by rw [hd] at hna; cases hna⟩
    · exact fun _ _ hr => by rw [hw] at hr; cases hr
    · exact fun _ _ hr => by rw [hw] at hr; cases hr
  refine Reads.ite (fun _ => ?_) fun hn => hacc fun hconf => absurd (by simpa using hconf) hn
  -- an accessor property that cannot be configured
  have ha := ht.accessor_of_not_data hd
  refine Reads.bind (reads_accessor hr.inv hs ha) fun c w₂ hr₂ hv => ?_
  rw [Vm.accessorCell_bind, hr₂.accessors, hr.accessors]
  refine Reads.ite (fun _ => Reads.reject hr₂.inv throwable _ nofun)
    fun hcell => Reads.pure hr₂.inv fun hconf _ =>
      ⟨⟨.inr (hc hconf), henum hconf, .inr hk, fun _ hd' => absurd hd' hd,
        fun _ hd' => absurd hd' hd, fun _ _ c' hv' => ?_⟩, fun _ hd' => absurd hd' hd⟩
  rw [hv] at hv'
  cases hv'
  simp only [Bool.or_eq_true, Bool.and_eq_true, Bool.not_eq_true', bne_iff_ne, ne_eq, not_or,
    not_and, Decidable.not_not] at hcell
  obtain ⟨hset, hget⟩ := hcell
  constructor
  · cases hu : desc.attrs.undefGetter with
    | true => exact .inl rfl
    | false => exact .inr (hget hu).symm
  · cases hu : desc.attrs.undefSetter with
    | true => exact .inl rfl
    | false => exact .inr (hset hu).symm

/-! ### Merging -/

theorem mergeAttrs_kind (a : AttrSafe) (desc : PropertyDescriptor) :
    ((StoredSlot.mergeAttrs a desc).accessor =
        if desc.attrs.isGeneric then a.accessor else !desc.attrs.data) ∧
      ((StoredSlot.mergeAttrs a desc).data =
        if desc.attrs.isGeneric then a.data else desc.attrs.data) ∧
      ((StoredSlot.mergeAttrs a desc).writable =
        if desc.attrs.isGeneric then a.writable
        else if desc.attrs.data then
          if desc.attrs.undefWritable then a.writable else desc.attrs.writable
        else false) := by
  have hcommon : (StoredSlot.mergeCommon a desc).accessor = a.accessor ∧
      (StoredSlot.mergeCommon a desc).data = a.data ∧
      (StoredSlot.mergeCommon a desc).writable = a.writable := by
    unfold StoredSlot.mergeCommon
    dsimp only
    cases desc.attrs.undefConfigurable <;> cases desc.attrs.undefEnumerable <;>
      exact ⟨rfl, rfl, rfl⟩
  obtain ⟨h₁, h₂, h₃⟩ := hcommon
  unfold StoredSlot.mergeAttrs
  dsimp only
  generalize StoredSlot.mergeCommon a desc = attr at *
  cases desc.attrs.isGeneric with
  | true => exact ⟨h₁, h₂, h₃⟩
  | false =>
    cases hd : desc.attrs.data with
    | true =>
      cases desc.attrs.undefWritable with
      | true => exact ⟨rfl, rfl, h₃⟩
      | false => exact ⟨rfl, rfl, rfl⟩
    | false => exact ⟨rfl, rfl, rfl⟩

theorem mergeAttrs_typed {a : AttrSafe} (ha : a.Typed) (desc : PropertyDescriptor) :
    (StoredSlot.mergeAttrs a desc).Typed := by
  obtain ⟨hacc, hdata, hwr⟩ := mergeAttrs_kind a desc
  constructor
  · rw [hacc, hdata]
    split
    · exact ha.data_or_accessor
    · simp
  · rw [hacc, hwr]
    split
    · exact ha.not_writable
    · intro h
      rw [if_neg (by simpa using h)]

/-- What a descriptor brings into a data property: its value satisfies `P`, and so does what is left
when an accessor property is turned into a data property without a value. -/
structure DescOk (P : Policy) (s : StoredSlot) (desc : PropertyDescriptor) : Prop where
  value : desc.attrs.data = true → desc.attrs.undefValue = false → P desc.fst
  leak : desc.attrs.data = true → desc.attrs.undefValue = true → s.attributes.accessor = true →
    P s.value

theorem mergeAttrs_common (a : AttrSafe) (desc : PropertyDescriptor) :
    ((StoredSlot.mergeAttrs a desc).configurable =
        if desc.attrs.undefConfigurable then a.configurable else desc.attrs.configurable) ∧
      ((StoredSlot.mergeAttrs a desc).enumerable =
        if desc.attrs.undefEnumerable then a.enumerable else desc.attrs.enumerable) := by
  have hcommon : (StoredSlot.mergeCommon a desc).configurable =
        (if desc.attrs.undefConfigurable then a.configurable else desc.attrs.configurable) ∧
      (StoredSlot.mergeCommon a desc).enumerable =
        if desc.attrs.undefEnumerable then a.enumerable else desc.attrs.enumerable := by
    unfold StoredSlot.mergeCommon
    dsimp only
    cases desc.attrs.undefConfigurable <;> cases desc.attrs.undefEnumerable <;> exact ⟨rfl, rfl⟩
  rw [← hcommon.1, ← hcommon.2]
  unfold StoredSlot.mergeAttrs
  dsimp only
  cases desc.attrs.isGeneric with
  | true => exact ⟨rfl, rfl⟩
  | false => cases desc.attrs.data <;> cases desc.attrs.undefWritable <;> exact ⟨rfl, rfl⟩

/-- A descriptor that agrees with a property that cannot be configured leaves its attributes alone, up
to making it read-only. -/
theorem Agrees.mergeAttrs {acc : ℕ → Accessor} {s : StoredSlot} {desc : PropertyDescriptor}
    (h : Agrees acc s desc) (ht : s.attributes.Typed) (hc : s.attributes.configurable = false) :
    (StoredSlot.mergeAttrs s.attributes desc).configurable = false ∧
      (StoredSlot.mergeAttrs s.attributes desc).enumerable = s.attributes.enumerable ∧
      (StoredSlot.mergeAttrs s.attributes desc).data = s.attributes.data ∧
      (StoredSlot.mergeAttrs s.attributes desc).accessor = s.attributes.accessor ∧
      (s.attributes.data = true → s.attributes.writable = false →
        (StoredSlot.mergeAttrs s.attributes desc).writable = false) := by
  obtain ⟨hacc, hdata, hwr⟩ := mergeAttrs_kind s.attributes desc
  obtain ⟨hconf, henum⟩ := mergeAttrs_common s.attributes desc
  refine ⟨?_, ?_, ?_, ?_, fun hd hw => ?_⟩
  · rw [hconf]
    rcases h.configurable with hu | hu <;> simp [hu, hc]
  · rw [henum]
    rcases h.enumerable with hu | hu <;> simp [hu]
  · rw [hdata]
    rcases h.kind with hg | hk
    · simp [hg]
    · simp [hk]
  · rw [hacc]
    rcases h.kind with hg | hk
    · simp [hg]
    · simp [hk, ht.data_or_accessor]
  · rw [hwr]
    cases hg : desc.attrs.isGeneric with
    | true => simpa using hw
    | false => rcases h.writable hg hd hw with hu | hu <;> simp [hu, hw]

theorem guards_setCell (h : w.Inv P) (ho : o < w.nextObject) {l : Loc} {c : ℕ}
    (hc : FreshFor w o l c) (b : Bool) (f : Accessor → Accessor)
    (hf : b = true → ∀ n s, l = .named n → namedSlot (w.table o) (w.objects o) n = some s →
      s.attributes.configurable = false → s.cell = some c → f (w.accessors c) = w.accessors c) :
    Guards P proper o w (Vm.onlyIf b (Vm.modifyAccessor c f) w) fun _ w' =>
      w'.objects = w.objects ∧ w'.shapes = w.shapes ∧ w'.nextAccessor = w.nextAccessor ∧
        FreshFor w' o l c ∧
        (∀ n s, l = .named n → namedSlot (w.table o) (w.objects o) n = some s →
          s.attributes.configurable = false → s.cell = some c →
            w'.accessors c = w.accessors c) := by
  unfold Vm.onlyIf
  split
  · next hb =>
    refine (guards_modifyAccessor h ho hc f (hf hb)).mono
      fun _ w' hg ⟨hobj, hsh, hnext, hfr⟩ => ⟨hobj, hsh, hnext, hfr, fun n s hl hs hconf hcell => ?_⟩
    obtain ⟨s', hs', hsame⟩ := hg.permanent ho n s hs hconf
    obtain ⟨ha, hv⟩ := StoredSlot.cell_eq_some.mp hcell
    exact (hsame.cell ha).2 c hv
  · exact Guards.pure h ⟨rfl, rfl, rfl, hc, fun _ _ _ _ _ _ => rfl⟩

theorem guards_merge (h : w.Inv P) (ho : o < w.nextObject) {l : Loc} {s : StoredSlot}
    (hs : Storable P w o l s) {desc : PropertyDescriptor}
    (hd : ∀ n, l = .named n → DescOk P s desc)
    (hat : ∀ n, l = .named n → namedSlot (w.table o) (w.objects o) n = some s ∧
      (s.attributes.configurable = false → Acceptable proper w.accessors s desc)) :
    Guards P proper o w (s.merge desc w) fun s' w' => Storable P w' o l s' ∧
      s'.attributes = StoredSlot.mergeAttrs s.attributes desc ∧ w'.objects = w.objects ∧
      w'.shapes = w.shapes ∧
      (∀ n, l = .named n → s.attributes.configurable = false →
        SameProperty proper w w' s s') := by
  have htyped := mergeAttrs_typed hs.typed desc
  obtain ⟨hacc, hdata, -⟩ := mergeAttrs_kind s.attributes desc
  -- the attributes after the merge are as they should be
  have hsame : ∀ {w' : World} {v : JsValue} {n : Symbol}, l = .named n →
      s.attributes.configurable = false →
      (s.attributes.accessor = true →
        v = s.value ∧ ∀ c, s.value = .accessor c → w'.accessors c = w.accessors c) →
      (proper → s.attributes.data = true → s.attributes.writable = false → v = s.value) →
      SameProperty proper w w' s ⟨v, StoredSlot.mergeAttrs s.attributes desc⟩ := by
    intro w' v n hl hc hcell hval
    obtain ⟨h₁, h₂, h₃, h₄, h₅⟩ := ((hat n hl).2 hc).agrees.mergeAttrs hs.typed hc
    exact ⟨h₁, h₂, h₃, h₄, hcell, h₅, hval⟩
  unfold StoredSlot.merge
  split
  · next hg =>
    simp only [hg, if_true] at hacc hdata
    exact Guards.pure h ⟨⟨htyped, fun ha => hs.accessor (hacc ▸ ha), fun n hn ha => hs.data n hn (hdata ▸ ha)⟩,
      rfl, rfl, rfl, fun n hl hc => hsame hl hc (fun _ => ⟨rfl, fun _ _ => rfl⟩) fun _ _ _ => rfl⟩
  · next hg =>
    simp only [hg, Bool.false_eq_true, if_false] at hacc hdata
    split
    · next hda =>
      refine Guards.pure h ⟨⟨htyped, fun ha => ?_, fun n hn _ => ?_⟩, rfl, rfl, rfl,
        fun n hl hc => hsame hl hc (fun ha => ?_) fun hp hsd hw => ?_⟩
      · dsimp only at ha
        rw [hacc, hda] at ha
        cases ha
      · dsimp only
        cases huv : desc.attrs.undefValue with
        | false => exact (hd n hn).value hda huv
        | true =>
          cases hac : s.attributes.accessor with
          | true => exact (hd n hn).leak hda huv hac
          | false => exact hs.data n hn (by rw [hs.typed.data_or_accessor, hac]; rfl)
      · -- the kind does not change
        have := ((hat n hl).2 hc).agrees.kind.resolve_left hg
        rw [hda, hs.typed.data_or_accessor, ha] at this
        cases this
      · exact absurd (((hat n hl).2 hc).generic hp hsd hw) hg
    · next hda =>
      have hda : desc.attrs.data = false := by simpa using hda
      -- the cell that is written: the property's own one, or a new one
      have hcell : Guards P proper o w (s.mergeCell w) fun c w' =>
          (if s.attributes.accessor = true then s.value else .accessor c) = .accessor c ∧
            c < w'.nextAccessor ∧ FreshFor w' o l c ∧ w'.objects = w.objects ∧
            w'.shapes = w.shapes := by
        unfold StoredSlot.mergeCell
        split
        · next hac =>
          unfold StoredSlot.accessor
          rw [if_pos hac]
          rcases hs.accessor hac with hv | ⟨c, hv, hlt, hfresh⟩
          · rw [hv]
            exact Guards.fail h _ _
          · rw [hv]
            exact Guards.pure h ⟨rfl, hlt, hfresh, rfl, rfl⟩
        · next hac =>
          exact (guards_newAccessor h ho _ _ l).mono fun c w' _ hc => ⟨rfl, hc.2⟩
      refine Guards.bind hcell fun c w₁ ht₁ hr₁ => ?_
      obtain ⟨hv, hlt, hfresh, hobj, hsh⟩ := hr₁
      have ho₁ : o < w₁.nextObject := ht₁.nextObject ▸ ho
      -- a property that cannot be configured has what is written to its cell already
      have hkeep : ∀ {n}, l = .named n → ∀ {s₁}, namedSlot (w₁.table o) (w₁.objects o) n = some s₁ →
          s₁.attributes.configurable = false → s₁.cell = some c → s₁ = s ∧
            w₁.accessors c = w.accessors c ∧
            (desc.attrs.undefGetter = true ∨ desc.fst = (w.accessors c).getter) ∧
            (desc.attrs.undefSetter = true ∨ desc.snd = (w.accessors c).setter) := by
        intro n hl s₁ hs₁ hconf hc₁
        have hat' := (hat n hl).1
        rw [World.table, hobj, hsh] at hs₁
        obtain rfl := Option.some_inj.mp (hs₁.symm.trans hat')
        obtain ⟨ha, hv'⟩ := StoredSlot.cell_eq_some.mp hc₁
        obtain ⟨s', -, hsame'⟩ := ht₁.permanent ho n s₁ hat' hconf
        refine ⟨rfl, (hsame'.cell ha).2 c hv', ?_⟩
        refine ((hat n hl).2 hconf).agrees.cell (by simpa using hg) ?_ c hv'
        rw [hs.typed.data_or_accessor, ha]
        rfl
      refine Guards.bind (guards_setCell ht₁.inv ho₁ hfresh _ _
        fun hb n s₁ hl hs₁ hconf hc₁ => ?_) fun _ w₂ ht₂ hr₂ => ?_
      · obtain ⟨-, heq, hget, -⟩ := hkeep hl hs₁ hconf hc₁
        have hget := hget.resolve_left (by simpa using hb)
        rw [hget, heq]
      obtain ⟨hobj₂, hsh₂, hnext₂, hfresh₂, hacc₂⟩ := hr₂
      refine Guards.bind (guards_setCell ht₂.inv (ht₂.nextObject ▸ ho₁) hfresh₂ _ _
        fun hb n s₁ hl hs₁ hconf hc₁ => ?_) fun _ w₃ ht₃ hr₃ => ?_
      · rw [World.table, hobj₂, hsh₂] at hs₁
        obtain ⟨-, heq, -, hset⟩ := hkeep hl hs₁ hconf hc₁
        have hset := hset.resolve_left (by simpa using hb)
        rw [hacc₂ n s₁ hl hs₁ hconf hc₁, heq, hset]
      obtain ⟨hobj₃, hsh₃, hnext₃, hfresh₃, hacc₃⟩ := hr₃
      refine Guards.pure ht₃.inv ⟨⟨htyped, fun _ => .inr ⟨c, hv, ?_, hfresh₃⟩, fun _ _ ha => ?_⟩, rfl,
        hobj₃.trans (hobj₂.trans hobj), hsh₃.trans (hsh₂.trans hsh), fun n hl hc =>
          hsame hl hc (fun ha => ⟨if_pos ha, fun c' hv' => ?_⟩) fun hp hsd hw => ?_⟩
      · rw [hnext₃, hnext₂]; exact hlt
      · dsimp only at ha
        rw [hdata, hda] at ha
        cases ha
      · obtain ⟨s', -, hs'⟩ := ((ht₁.trans ht₂).trans ht₃).permanent ho n s (hat n hl).1 hc
        exact (hs'.cell ha).2 c' hv'
      · exact absurd (((hat n hl).2 hc).generic hp hsd hw) hg

end Starlight
