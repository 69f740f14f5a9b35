import Starlight.Vm.StructureStore

/-!
# What a transition does

An operation on an object whose structure is `s` computes a structure `s'` for it. `Transitioned`
says what every such transition guarantees: the invariant holds again with `s'` held in the place of
`s`, every other live structure keeps its shape, and `s'` is either `s` itself, a new structure, or
a shared one.
-/

namespace Starlight

namespace Shapes

/-- The two stores agree on everything that can be observed of structure `r`. -/
structure SameShape (σ σ' : Shapes) (r : ℕ) : Prop where
  view : σ'.view r = σ.view r
  deleted : (σ'.structures r).deleted = (σ.structures r).deleted
  prototype : (σ'.structures r).prototype = (σ.structures r).prototype
  shared : σ'.Shared r ↔ σ.Shared r

theorem SameShape.refl (σ : Shapes) (r : ℕ) : SameShape σ σ r := ⟨rfl, rfl, rfl, Iff.rfl⟩

theorem SameShape.trans {σ₁ σ₂ σ₃ : Shapes} {r : ℕ} (h : SameShape σ₁ σ₂ r)
    (h' : SameShape σ₂ σ₃ r) : SameShape σ₁ σ₃ r :=
  ⟨h'.view.trans h.view, h'.deleted.trans h.deleted, h'.prototype.trans h.prototype,
    h'.shared.trans h.shared⟩

def moveHeld (L : ℕ → Prop) (s s' : ℕ) : ℕ → Prop := fun r => r = s' ∨ (L r ∧ r ≠ s)

/-- An object moved from structure `s` to structure `s'`. -/
structure Transitioned (σ σ' : Shapes) (L : ℕ → Prop) (s s' : ℕ) : Prop where
  inv : σ'.Inv (moveHeld L s s')
  next_le : σ.nextStructure ≤ σ'.nextStructure
  frame : ∀ r, σ.Live L r → (σ.Shared r ∨ r ≠ s) → SameShape σ σ' r
  shared_iff : ∀ r, r < σ.nextStructure → (σ'.Shared r ↔ σ.Shared r)
  /-- The object cannot land on another object's unique structure, nor on an abandoned one. -/
  target : s' = s ∨ σ.nextStructure ≤ s' ∨ σ.Shared s'
  /-- No other structure appeared or changed its prototype. -/
  old : ∀ r, r < σ'.nextStructure → r = s' ∨
    (r < σ.nextStructure ∧ (σ'.structures r).prototype = (σ.structures r).prototype)
  /-- Staying on the same structure keeps its properties. -/
  grow : s' = s → ∀ n e, (σ.view s).lookup n = some e → (σ'.view s).lookup n = some e

variable {σ σ' : Shapes} {L : ℕ → Prop} {s s' : ℕ}

theorem Transitioned.live (h : Transitioned σ σ' L s s') : σ'.Live (moveHeld L s s') s' :=
  h.inv.held (.inl rfl)

theorem Live.held_of_not_shared (h : σ.Live L s) (hu : ¬ σ.Shared s) : L s := h.2.resolve_left hu

theorem not_shared_iff : ¬ σ.Shared s ↔ (σ.structures s).isUnique = true := by
  simp [Shared, Structure.isUnique]

/-! ### Tables on demand -/

/-- What asking for the table of a live structure does: nothing observable. -/
structure TableReady (σ σ' : Shapes) (L : ℕ → Prop) (s : ℕ) : Prop where
  inv : σ'.Inv L
  shape : ∀ r, r < σ.nextStructure → SameShape σ σ' r
  next : σ'.nextStructure = σ.nextStructure
  proto : ∀ r, (σ'.structures r).prototype = (σ.structures r).prototype

theorem Inv.tableReady_allocate (h : σ.Inv L) (hs : σ.Live L s)
    (ht : (σ.structures s).table = none) : TableReady σ (σ.allocateTable s) L s := by
  have hb := h.tableBuilt hs.1 ht
  refine ⟨hb.inv h hs, fun r hr => ⟨hb.view h hr, ?_, ?_, hb.shared r⟩, hb.next, fun r => ?_⟩
  all_goals
    by_cases hrs : r = s
    · subst hrs; rw [hb.self]
    · rw [hb.other r hrs]

theorem TableReady.refl (h : σ.Inv L) : TableReady σ σ L s :=
  ⟨h, fun r _ => SameShape.refl σ r, rfl, fun _ => rfl⟩

theorem Inv.ensureTable (h : σ.Inv L) (hs : σ.Live L s) :
    TableReady σ (σ.ensureTable s) L s ∧ ∃ t, ((σ.ensureTable s).structures s).table = some t := by
  unfold Shapes.ensureTable
  cases ht : (σ.structures s).table with
  | some t => exact ⟨TableReady.refl h, t, by simpa using ht⟩
  | none =>
    simp only [Option.isNone_none, if_true]
    exact ⟨h.tableReady_allocate hs ht, _, by rw [(h.tableBuilt hs.1 ht).self]⟩

theorem Inv.get (h : σ.Inv L) (hs : σ.Live L s) (n : Symbol) :
    (σ.get s n).1 = (σ.view s).lookup n ∧ TableReady σ (σ.get s n).2 L s := by
  have hmiss : (σ.structures s).table = none →
      ((σ.allocateTable s).tableOf s).lookup n = (σ.view s).lookup n := by
    intro ht
    have hb := h.tableBuilt hs.1 ht
    rw [tableOf, hb.self]
    dsimp only
    rw [hb.new_table]
  unfold Shapes.get
  cases ht : (σ.structures s).table with
  | some t => exact ⟨by rw [view_of_table ht], TableReady.refl h⟩
  | none =>
    cases hp : (σ.structures s).previous with
    | none =>
      refine ⟨?_, TableReady.refl h⟩
      rw [view_root ht hp, Finmap.lookup_empty]
      rfl
    | some p =>
      simp only [Option.isNone_some, Bool.false_eq_true, if_false]
      cases ha : (σ.structures s).added with
      | none => exact ⟨hmiss ht, h.tableReady_allocate hs ht⟩
      | some it =>
        obtain ⟨m, e⟩ := it
        dsimp only
        split
        · next hm =>
          refine ⟨?_, TableReady.refl h⟩
          rw [view_of_previous h.acyclic hs.1 ht hp, ha, ← hm]
          dsimp only
          rw [Finmap.lookup_insert]
        · exact ⟨hmiss ht, h.tableReady_allocate hs ht⟩

/-- `allocate_table_if_needed` changes no shape. -/
theorem Inv.allocateTableIfNeeded (h : σ.Inv L) (hs : σ.Live L s) :
    TableReady σ (σ.allocateTableIfNeeded s).2 L s ∧
      ((σ.allocateTableIfNeeded s).2.tableOf s) = σ.view s := by
  unfold Shapes.allocateTableIfNeeded
  cases ht : (σ.structures s).table with
  | some t =>
    simp only [Option.isNone_some, Bool.false_eq_true, if_false]
    exact ⟨TableReady.refl h, by rw [tableOf, ht, view_of_table ht]⟩
  | none =>
    cases hp : (σ.structures s).previous with
    | none =>
      simp only [Option.isNone_none, if_true]
      exact ⟨TableReady.refl h, by rw [tableOf, ht, view_root ht hp]⟩
    | some p =>
      simp only [Option.isNone_none, Option.isNone_some, Bool.false_eq_true, if_true, if_false]
      have hb := h.tableBuilt hs.1 ht
      refine ⟨h.tableReady_allocate hs ht, ?_⟩
      rw [tableOf, hb.self]
      exact hb.new_table

/-! ### A unique successor -/

/-- The cell that `Structure::ctor` allocates. -/
def successor (σ : Shapes) (previous : ℕ) (unique : Bool) : Structure :=
  let prev := σ.structures previous
  { transitions := .new (!unique) prev.transitions.indexed
    table := if unique && prev.isUnique then prev.table else none
    deleted := prev.deleted
    added := none
    previous := some previous
    prototype := prev.prototype
    calculatedSize := σ.getSlotsSize previous
    transitCount := 0
    hasBeenFlattenedBefore := prev.hasBeenFlattenedBefore }

theorem ctor_eq_alloc (σ : Shapes) (previous : ℕ) (unique : Bool) :
    σ.ctor previous unique = σ.alloc (σ.successor previous unique) := by
  unfold ctor successor
  dsimp only
  congr 2
  split
  · next t ht =>
    split at ht
    · rw [getSlotsSize, ht]
    · cases ht
  · rfl

theorem denote_successor (σ : Shapes) (s : ℕ) (unique : Bool) :
    σ.denote (σ.successor s unique) = σ.view s := by
  unfold denote successor
  dsimp only
  split
  · next t ht =>
    split at ht
    · rw [view_of_table ht]
    · cases ht
  · rfl

theorem find_new (enabled indexed : Bool) (n : Symbol) (a : AttrSafe) :
    (TransitionsTable.new enabled indexed).find n a = none := rfl

theorem Inv.newCell_unique (h : σ.Inv L) (hs : σ.Live L s) :
    σ.NewCell (moveHeld L s σ.nextStructure) (σ.successor s true) where
  prev_lt p hp := by cases hp; exact hs.1
  table_lt t ht := by
    unfold successor at ht
    dsimp only at ht
    split at ht
    · exact h.table_lt hs.1 ht
    · cases ht
  added_fresh it _ ha := by cases ha
  anchored p ht hp := by
    cases hp
    by_cases hsh : σ.Shared s
    · exact .inl hsh
    · have hu := not_shared_iff.mp hsh
      unfold successor at ht
      simp only [hu, Bool.and_self, if_true] at ht
      refine .inr ⟨?_, ht⟩
      rintro (rfl | ⟨-, hne⟩)
      · exact absurd hs.1 (lt_irrefl _)
      · exact hne rfl
  excl r t hr ht htr := by
    unfold successor at ht
    dsimp only at ht
    split at ht
    · next hu =>
      have hu : ¬ σ.Shared s := not_shared_iff.mpr (by simpa using hu)
      have hrL : σ.Live L r := by
        refine ⟨hr.1, hr.2.imp_right ?_⟩
        rintro (rfl | ⟨hl, -⟩)
        · exact absurd hr.1 (lt_irrefl _)
        · exact hl
      obtain rfl := h.excl hrL hs htr ht
      rcases hr.2 with hsh | rfl | ⟨-, hne⟩
      · exact hu hsh
      · exact lt_irrefl _ hr.1
      · exact hne rfl
    · cases ht
  size ht := by
    rw [denote_successor]
    exact h.getSlotsSize_eq hs
  layout := by
    rw [denote_successor]
    exact h.layout hs
  typed n e he := by
    rw [denote_successor] at he
    exact h.typed hs he
  shared_deleted he := by cases he
  no_transition n a := find_new _ _ n a
  not_flattened := rfl

theorem sameShape_alloc (h : σ.Acyclic) (st : Structure) {r : ℕ} (hr : r < σ.nextStructure) :
    SameShape σ (σ.alloc st).2 r :=
  ⟨view_alloc_of_lt h st hr, by rw [structures_alloc_of_lt _ _ hr],
    by rw [structures_alloc_of_lt _ _ hr], shared_alloc_of_lt st hr⟩

/-- What is known of the structure an object was moved to. -/
structure Target (σ σ' : Shapes) (s s' : ℕ) (table : TargetTable) (deleted : List ℕ)
    (prototype : Option ℕ) : Prop where
  view : σ'.view s' = table
  deleted : (σ'.structures s').deleted = deleted
  prototype : (σ'.structures s').prototype = prototype

theorem Inv.newUnique (h : σ.Inv L) (hs : σ.Live L s) :
    Transitioned σ (σ.newUnique s).2 L s (σ.newUnique s).1 ∧
      Target σ (σ.newUnique s).2 s (σ.newUnique s).1 (σ.view s) (σ.structures s).deleted
        (σ.structures s).prototype ∧
      ¬ (σ.newUnique s).2.Shared (σ.newUnique s).1 ∧ (σ.newUnique s).1 = σ.nextStructure := by
  unfold Shapes.newUnique
  rw [ctor_eq_alloc]
  have hcell := h.newCell_unique hs
  refine ⟨⟨h.alloc (fun r hr => hr.imp_right And.left) hcell, by simp,
    fun r hr _ => sameShape_alloc h.acyclic _ hr.1, fun r hr => shared_alloc_of_lt _ hr,
    .inr (.inl le_rfl), ?_, ?_⟩, ⟨?_, ?_, ?_⟩, ?_, rfl⟩
  · intro r hr
    rw [nextStructure_alloc] at hr
    rcases Nat.lt_succ_iff_lt_or_eq.mp hr with hr | rfl
    · exact .inr ⟨hr, by rw [structures_alloc_of_lt _ _ hr]⟩
    · exact .inl rfl
  · intro he
    rw [alloc_fst] at he
    exact absurd hs.1 (by omega)
  · rw [alloc_fst, view_alloc_new h.acyclic hcell.prev_lt, denote_successor]
  · rw [alloc_fst, structures_alloc_new]; rfl
  · rw [alloc_fst, structures_alloc_new]; rfl
  · rw [alloc_fst, Shared, structures_alloc_new]; exact Bool.false_ne_true

/-! ### Composing steps -/

theorem Transitioned.andThen {σ'' : Shapes} (h : Transitioned σ σ' L s s')
    (hinv : σ''.Inv (moveHeld L s s')) (hnext : σ'.nextStructure ≤ σ''.nextStructure)
    (hframe : ∀ r, σ'.Live (moveHeld L s s') r → (σ'.Shared r ∨ r ≠ s') → SameShape σ' σ'' r)
    (hshared : ∀ r, r < σ'.nextStructure → (σ''.Shared r ↔ σ'.Shared r))
    (hold : ∀ r, r < σ''.nextStructure → r = s' ∨
      (r < σ'.nextStructure ∧ (σ''.structures r).prototype = (σ'.structures r).prototype))
    (hgrow : s' = s → ∀ n e, (σ'.view s).lookup n = some e → (σ''.view s).lookup n = some e)
    (hlt : ∀ r, σ.Live L r → r < σ'.nextStructure)
    (hs' : ∀ r, σ.Live L r → ¬ σ.Shared r → r ≠ s → r ≠ s') : Transitioned σ σ'' L s s' where
  inv := hinv
  next_le := h.next_le.trans hnext
  frame r hr hrs := by
    refine (h.frame r hr hrs).trans (hframe r ⟨hlt r hr, ?_⟩ ?_)
    · by_cases hsh : σ.Shared r
      · exact .inl ((h.shared_iff r hr.1).mpr hsh)
      · exact .inr (.inr ⟨hr.held_of_not_shared hsh, hrs.resolve_left hsh⟩)
    · by_cases hsh : σ.Shared r
      · exact .inl ((h.shared_iff r hr.1).mpr hsh)
      · exact .inr (hs' r hr hsh (hrs.resolve_left hsh))
  shared_iff r hr := (hshared r (lt_of_lt_of_le hr h.next_le)).trans (h.shared_iff r hr)
  target := h.target
  old r hr := (hold r hr).elim .inl fun ⟨hr', hp⟩ =>
    (h.old r hr').imp_right fun ⟨hlt, hp'⟩ => ⟨hlt, hp.trans hp'⟩
  grow he n e hn := hgrow he n e (h.grow he n e hn)

theorem Transitioned.tableReady {σ'' : Shapes} (h : Transitioned σ σ' L s s')
    (ht : TableReady σ' σ'' (moveHeld L s s') s') (hs : σ.Live L s) :
    Transitioned σ σ'' L s s' where
  inv := ht.inv
  next_le := by rw [ht.next]; exact h.next_le
  frame r hr hrs := (h.frame r hr hrs).trans (ht.shape r (lt_of_lt_of_le hr.1 h.next_le))
  shared_iff r hr :=
    ((ht.shape r (lt_of_lt_of_le hr h.next_le)).shared).trans (h.shared_iff r hr)
  target := h.target
  old r hr := (h.old r (ht.next ▸ hr)).imp_right fun ⟨hlt, hp⟩ => ⟨hlt, (ht.proto r).trans hp⟩
  grow he n e hn := by
    rw [(ht.shape s (lt_of_lt_of_le hs.1 h.next_le)).view]
    exact h.grow he n e hn

theorem Transitioned.edit (h : Transitioned σ σ' L s s') (hs : σ.Live L s) {t : ℕ}
    (ht : (σ'.structures s').table = some t) (hu : ¬ σ'.Shared s') {table : TargetTable}
    {deleted : List ℕ} (hlay : SlotLayout MapEntry.offset table deleted)
    (htyped : ∀ n e, table.lookup n = some e → e.attrs.Typed)
    (hgrow : s' = s → ∀ n e, (σ'.view s).lookup n = some e → table.lookup n = some e) :
    Transitioned σ (σ'.editUnique s' t table deleted) L s s' ∧
      Target σ (σ'.editUnique s' t table deleted) s s' table deleted
        (σ'.structures s').prototype := by
  have hheld : moveHeld L s s' s' := .inl rfl
  have hsh : ∀ r, (σ'.editUnique s' t table deleted).Shared r ↔ σ'.Shared r := by
    intro r
    obtain ⟨d, hd⟩ := @editUnique_fields σ' s' t table deleted r
    rw [Shared, hd, Shared]
  have hns : ∀ r, σ.Live L r → ¬ σ.Shared r → r ≠ s → r ≠ s' := by
    rintro r hr hrsh hrs rfl
    rcases h.target with rfl | hge | hsh'
    · exact hrs rfl
    · have := hr.1; omega
    · exact hrsh hsh'
  refine ⟨h.andThen (h.inv.editUnique hheld hu ht hlay htyped) le_rfl ?_ (fun r _ => hsh r)
    (fun r hr => .inr ⟨hr, ?_⟩) ?_ (fun r hr => lt_of_lt_of_le hr.1 h.next_le) hns,
    view_editUnique_self ht, ?_, ?_⟩
  · intro r hr hrs
    have hne : r ≠ s' := by
      rintro rfl
      exact hrs.elim hu fun hne => hne rfl
    refine ⟨h.inv.view_editUnique hheld hu ht hr.tracked hne, ?_, ?_, hsh r⟩
    · rw [structures_editUnique_ne hne]
    · rw [structures_editUnique_ne hne]
  · obtain ⟨d, hd⟩ := @editUnique_fields σ' s' t table deleted r
    rw [hd]
  · rintro rfl n e hn
    rw [view_editUnique_self ht]
    exact hgrow rfl n e hn
  · rw [structures_editUnique_self]
  · rw [structures_editUnique_self]

theorem Transitioned.modify (h : Transitioned σ σ' L s s') (hs : σ.Live L s)
    (hu : ¬ σ'.Shared s') {f : Structure → Structure}
    (hf : SameProperties (σ'.structures s') (f (σ'.structures s'))) :
    Transitioned σ (σ'.modifyStructure s' f) L s s' ∧
      Target σ (σ'.modifyStructure s' f) s s' (σ'.view s') (σ'.structures s').deleted
        (f (σ'.structures s')).prototype := by
  have hns : ∀ r, σ.Live L r → ¬ σ.Shared r → r ≠ s → r ≠ s' := by
    rintro r hr hrsh hrs rfl
    rcases h.target with rfl | hge | hsh'
    · exact hrs rfl
    · have := hr.1; omega
    · exact hrsh hsh'
  have hv := view_modifyStructure hf
  have hsh := shared_modifyStructure hf
  refine ⟨h.andThen (h.inv.modifyStructure hf (fun hc => absurd hc hu) fun hc => absurd hc hu) le_rfl ?_
    (fun r _ => hsh r) (fun r hr => ?_) ?_ (fun r hr => lt_of_lt_of_le hr.1 h.next_le) hns, hv s',
    ?_, ?_⟩
  · intro r hr hrs
    have hne : r ≠ s' := by
      rintro rfl
      exact hrs.elim hu fun hne => hne rfl
    refine ⟨hv r, ?_, ?_, hsh r⟩
    · rw [structures_modifyStructure_ne _ hne]
    · rw [structures_modifyStructure_ne _ hne]
  · by_cases hrs : r = s'
    · exact .inl hrs
    · exact .inr ⟨hr, by rw [structures_modifyStructure_ne _ hrs]⟩
  · rintro rfl n e hn
    rw [hv]
    exact hn
  · rw [structures_modifyStructure_self]; exact hf.deleted
  · rw [structures_modifyStructure_self]

theorem Inv.transitioned_refl (h : σ.Inv L) (hs : σ.Live L s) : Transitioned σ σ L s s where
  inv := h.mono fun r hr => by
    rcases hr with rfl | ⟨hl, -⟩
    · exact hs
    · exact h.held hl
  next_le := le_rfl
  frame r _ _ := SameShape.refl σ r
  shared_iff _ _ := Iff.rfl
  target := .inl rfl
  old _ hr := .inr ⟨hr, rfl⟩
  grow _ _ _ hn := hn

/-! ### The transitions, one by one -/

theorem Target.same (σ : Shapes) (s : ℕ) :
    Target σ σ s s (σ.view s) (σ.structures s).deleted (σ.structures s).prototype := ⟨rfl, rfl, rfl⟩

theorem Inv.uniqueFor (h : σ.Inv L) (hs : σ.Live L s) :
    Transitioned σ (σ.uniqueFor s).2 L s (σ.uniqueFor s).1 ∧
      Target σ (σ.uniqueFor s).2 s (σ.uniqueFor s).1 (σ.view s) (σ.structures s).deleted
        (σ.structures s).prototype ∧
      ¬ (σ.uniqueFor s).2.Shared (σ.uniqueFor s).1 := by
  unfold Shapes.uniqueFor
  by_cases hu : σ.Shared s
  · have hf : (σ.structures s).isUnique = false := by
      simpa using mt not_shared_iff.mpr (not_not.mpr hu)
    rw [if_neg (by simp [hf])]
    obtain ⟨ht, htgt, hns, -⟩ := h.newUnique hs
    exact ⟨ht, htgt, hns⟩
  · rw [if_pos (not_shared_iff.mp hu), if_neg (by simp [h.not_flattened hs.1])]
    exact ⟨h.transitioned_refl hs, Target.same σ s, hu⟩

theorem Inv.changeExtensibleTransition (h : σ.Inv L) (hs : σ.Live L s) :
    Transitioned σ (σ.changeExtensibleTransition s).2 L s (σ.changeExtensibleTransition s).1 ∧
      Target σ (σ.changeExtensibleTransition s).2 s (σ.changeExtensibleTransition s).1 (σ.view s)
        (σ.structures s).deleted (σ.structures s).prototype := by
  obtain ⟨ht, htgt, -⟩ := h.newUnique hs
  exact ⟨ht, htgt⟩

theorem Inv.changeIndexedTransition (h : σ.Inv L) (hs : σ.Live L s) :
    Transitioned σ (σ.changeIndexedTransition s).2 L s (σ.changeIndexedTransition s).1 ∧
      Target σ (σ.changeIndexedTransition s).2 s (σ.changeIndexedTransition s).1 (σ.view s)
        (σ.structures s).deleted (σ.structures s).prototype := by
  obtain ⟨ht, htgt, hu⟩ := h.uniqueFor hs
  obtain ⟨ht', hv, hd, hp⟩ := @Transitioned.modify _ _ _ _ _ ht hs hu
    (fun st => { st with transitions := { st.transitions with indexed := true } })
    ⟨rfl, rfl, rfl, rfl, rfl, rfl, rfl⟩
  exact ⟨ht', hv.trans htgt.view, hd.trans htgt.deleted, hp.trans htgt.prototype⟩

theorem Inv.changePrototypeTransition (h : σ.Inv L) (hs : σ.Live L s) (prototype : Option ℕ) :
    Transitioned σ (σ.changePrototypeTransition s prototype).2 L s
        (σ.changePrototypeTransition s prototype).1 ∧
      Target σ (σ.changePrototypeTransition s prototype).2 s
        (σ.changePrototypeTransition s prototype).1 (σ.view s) (σ.structures s).deleted
        prototype := by
  obtain ⟨ht, htgt, hu⟩ := h.uniqueFor hs
  obtain ⟨ht', hv, hd, hp⟩ := @Transitioned.modify _ _ _ _ _ ht hs hu
    (fun st => { st with prototype := prototype }) ⟨rfl, rfl, rfl, rfl, rfl, rfl, rfl⟩
  exact ⟨ht', hv.trans htgt.view, hd.trans htgt.deleted, hp⟩

theorem tableOf_eq_view {t : ℕ} (ht : (σ.structures s).table = some t) :
    σ.tableOf s = σ.view s := by
  rw [tableOf, ht, view_of_table ht]

/-- `new_unique` followed by asking for the table: the object is on a unique structure of the same
shape whose table can be edited. -/
theorem Inv.newUniqueTable (h : σ.Inv L) (hs : σ.Live L s) :
    ∃ t, (((σ.newUnique s).2.ensureTable (σ.newUnique s).1).structures (σ.newUnique s).1).table =
        some t ∧
      Transitioned σ ((σ.newUnique s).2.ensureTable (σ.newUnique s).1) L s (σ.newUnique s).1 ∧
      Target σ ((σ.newUnique s).2.ensureTable (σ.newUnique s).1) s (σ.newUnique s).1 (σ.view s)
        (σ.structures s).deleted (σ.structures s).prototype ∧
      ¬ ((σ.newUnique s).2.ensureTable (σ.newUnique s).1).Shared (σ.newUnique s).1 ∧
      (σ.newUnique s).1 ≠ s := by
  obtain ⟨ht, htgt, hu, hnew⟩ := h.newUnique hs
  obtain ⟨hr, t, htab⟩ := ht.inv.ensureTable ht.live
  have hsh := hr.shape _ ht.live.1
  refine ⟨t, htab, ht.tableReady hr hs, ⟨hsh.view.trans htgt.view, hsh.deleted.trans htgt.deleted,
    hsh.prototype.trans htgt.prototype⟩, fun hc => hu (hsh.shared.mp hc), ?_⟩
  rw [hnew]
  exact Nat.ne_of_gt hs.1

theorem Inv.deletePropertyTransition (h : σ.Inv L) (hs : σ.Live L s) {n : Symbol} {e : MapEntry}
    (hn : (σ.view s).lookup n = some e) :
    ∃ s' σ', σ.deletePropertyTransition s n = some (s', σ') ∧ Transitioned σ σ' L s s' ∧
      Target σ σ' s s' ((σ.view s).erase n) (e.offset :: (σ.structures s).deleted)
        (σ.structures s).prototype := by
  obtain ⟨t, htab, ht, htgt, hu, hne⟩ := h.newUniqueTable hs
  unfold Shapes.deletePropertyTransition
  rcases hnu : σ.newUnique s with ⟨map, σ₁⟩
  simp only [hnu] at htab ht htgt hu hne ⊢
  generalize σ₁.ensureTable map = σ₂ at *
  have hdel : σ₂.delete map n = some (σ₂.editUnique map t ((σ.view s).erase n)
      (e.offset :: (σ.structures s).deleted)) := by
    unfold Shapes.delete
    rw [tableOf_eq_view htab, htgt.view, hn]
    simp only [updateTable, htab, ← htgt.deleted, ← htgt.view, view_of_table htab]
    rfl
  obtain ⟨ht', htgt'⟩ := ht.edit hs htab hu ((h.layout hs).erase hn)
    (fun m d hm => h.typed (n := m) hs (by
      rw [lookup_erase_eq] at hm
      split at hm
      · cases hm
      · exact hm)) (fun hc => absurd hc hne)
  refine ⟨map, _, by rw [hdel]; rfl, ht', htgt'.view, htgt'.deleted, ?_⟩
  rw [htgt'.prototype, htgt.prototype]

theorem Inv.changeAttributesTransition (h : σ.Inv L) (hs : σ.Live L s) {n : Symbol} {e : MapEntry}
    (hn : (σ.view s).lookup n = some e) {a : AttrSafe} (ha : a.Typed) :
    ∃ s' σ', σ.changeAttributesTransition s n a = some (s', σ') ∧ Transitioned σ σ' L s s' ∧
      Target σ σ' s s' ((σ.view s).insert n { e with attrs := a }) (σ.structures s).deleted
        (σ.structures s).prototype := by
  obtain ⟨t, htab, ht, htgt, hu, hne⟩ := h.newUniqueTable hs
  unfold Shapes.changeAttributesTransition
  rcases hnu : σ.newUnique s with ⟨map, σ₁⟩
  simp only [hnu] at htab ht htgt hu hne ⊢
  generalize σ₁.ensureTable map = σ₂ at *
  have hchg : σ₂.changeAttributes map n a = some (σ₂.editUnique map t
      ((σ.view s).insert n { e with attrs := a }) (σ.structures s).deleted) := by
    unfold Shapes.changeAttributes
    rw [tableOf_eq_view htab, htgt.view, hn]
    simp only [updateTable, htab, ← htgt.deleted, ← htgt.view, view_of_table htab]
    simp [Shapes.editUnique, modifyTable]
  have hlay : SlotLayout MapEntry.offset ((σ.view s).insert n { e with attrs := a })
      (σ.structures s).deleted := (h.layout hs).modify hn rfl
  obtain ⟨ht', htgt'⟩ := ht.edit hs htab hu hlay
    (fun m d hm => by
      rw [lookup_insert_eq] at hm
      split at hm
      · cases hm; exact ha
      · exact h.typed hs hm) (fun hc => absurd hc hne)
  refine ⟨map, _, by rw [hchg]; rfl, ht', htgt'.view, htgt'.deleted, ?_⟩
  rw [htgt'.prototype, htgt.prototype]

/-- The outcome of adding name `n` with attributes `a`: it got slot `off`, the head of the free list
or the slot just past the end. -/
structure Added (σ σ' : Shapes) (L : ℕ → Prop) (s s' : ℕ) (n : Symbol) (a : AttrSafe) (off : ℕ) :
    Prop where
  transitioned : Transitioned σ σ' L s s'
  view : σ'.view s' = (σ.view s).insert n ⟨off, a⟩
  prototype : (σ'.structures s').prototype = (σ.structures s).prototype
  free : (σ.structures s).deleted = off :: (σ'.structures s').deleted ∨
    ((σ.structures s).deleted = [] ∧ (σ'.structures s').deleted = [] ∧ off = tableLen (σ.view s))

theorem Transitioned.addUnique (h : Transitioned σ σ' L s s') (hσ : σ.Inv L) (hs : σ.Live L s)
    (hu : ¬ σ'.Shared s')
    (htgt : Target σ σ' s s' (σ.view s) (σ.structures s).deleted (σ.structures s).prototype)
    {n : Symbol} (hn : n ∉ σ.view s) {a : AttrSafe} (ha : a.Typed) :
    Added σ (σ'.addUnique s' n a).2.2 L s (σ'.addUnique s' n a).1 n a (σ'.addUnique s' n a).2.1 := by
  obtain ⟨hr, t, htab⟩ := h.inv.ensureTable h.live
  have hsh := hr.shape _ h.live.1
  have h₂ := h.tableReady hr hs
  have hu₂ : ¬ (σ'.ensureTable s').Shared s' := fun hc => hu (hsh.shared.mp hc)
  unfold Shapes.addUnique
  simp only
  generalize σ'.ensureTable s' = σ₂ at *
  have hview : σ₂.view s' = σ.view s := hsh.view.trans htgt.view
  have hdel : (σ₂.structures s').deleted = (σ.structures s).deleted :=
    hsh.deleted.trans htgt.deleted
  have hproto : (σ₂.structures s').prototype = (σ.structures s).prototype :=
    hsh.prototype.trans htgt.prototype
  have hflat := h₂.inv.not_flattened h₂.live.1
  have hlay := hσ.layout hs
  have htyped : ∀ off m d, ((σ.view s).insert n ⟨off, a⟩).lookup m = some d → d.attrs.Typed := by
    intro off m d hm
    rw [lookup_insert_eq] at hm
    split at hm
    · cases hm; exact ha
    · exact hσ.typed hs hm
  have hgrow : ∀ off, s' = s → ∀ m d, (σ₂.view s).lookup m = some d →
      ((σ.view s).insert n ⟨off, a⟩).lookup m = some d := by
    rintro off rfl m d hm
    rw [hview] at hm
    rw [Finmap.lookup_insert_of_ne _ ?_, hm]
    rintro rfl
    exact hn (Finmap.mem_of_lookup_eq_some hm)
  simp only [hflat, Bool.false_eq_true, if_false]
  cases hd : (σ.structures s).deleted with
  | cons slot rest =>
    rw [hdel, hd]
    rw [hd] at hlay
    have hedit : (σ₂.modifyStructure s' fun st => { st with deleted := rest }).updateTable s'
        (fun t => t.insert n ⟨slot, a⟩) =
        σ₂.editUnique s' t ((σ.view s).insert n ⟨slot, a⟩) rest := by
      simp only [updateTable, structures_modifyStructure_self, htab, ← hview, view_of_table htab]
      rfl
    obtain ⟨ht', htgt'⟩ := h₂.edit hs htab hu₂ (hlay.reuse hn rfl) (htyped slot) (hgrow slot)
    simp only [hedit]
    exact ⟨ht', htgt'.view, htgt'.prototype.trans hproto, .inl (by rw [hd, htgt'.deleted])⟩
  | nil =>
    rw [hdel, hd]
    rw [hd] at hlay
    have hsize : σ₂.getSlotsSize s' = tableLen (σ.view s) := by
      rw [h₂.inv.getSlotsSize_eq h₂.live, hview, hdel, hd, List.length_nil, Nat.add_zero]
    have hedit : σ₂.updateTable s' (fun t => t.insert n ⟨tableLen (σ.view s), a⟩) =
        σ₂.editUnique s' t ((σ.view s).insert n ⟨tableLen (σ.view s), a⟩) [] := by
      simp only [updateTable, htab, ← hview, view_of_table htab, ← hd, ← hdel]
      simp [Shapes.editUnique, modifyTable]
    have hlay' : SlotLayout MapEntry.offset ((σ.view s).insert n ⟨tableLen (σ.view s), a⟩) [] :=
      hlay.push hn (by simp)
    obtain ⟨ht', htgt'⟩ := h₂.edit hs htab hu₂ hlay' (htyped _) (hgrow _)
    simp only [hsize, hedit]
    exact ⟨ht', htgt'.view, htgt'.prototype.trans hproto, .inr ⟨hd, htgt'.deleted, rfl⟩⟩

theorem Inv.newRoot (h : σ.Inv L) (prototype : Option ℕ) (unique indexed : Bool) (L' : ℕ → Prop)
    (hL : ∀ r, L' r → r = σ.nextStructure ∨ L r) :
    (σ.ctor1 prototype unique indexed).2.Inv L' ∧
      (∀ r, r < σ.nextStructure → SameShape σ (σ.ctor1 prototype unique indexed).2 r) ∧
      (σ.ctor1 prototype unique indexed).2.view σ.nextStructure = ∅ := by
  unfold Shapes.ctor1
  refine ⟨h.alloc hL ?_, fun r hr => sameShape_alloc h.acyclic _ hr, ?_⟩
  · exact
      { prev_lt := fun _ hp => by cases hp
        table_lt := fun _ ht => by cases ht
        added_fresh := fun _ _ ha => by cases ha
        anchored := fun _ _ hp => by cases hp
        excl := fun _ _ _ ht => by cases ht
        size := fun _ => rfl
        layout := SlotLayout.empty
        typed := fun n e he => by cases he
        shared_deleted := fun _ => rfl
        no_transition := fun _ _ => rfl
        not_flattened := rfl }
  · rw [view_alloc_new h.acyclic fun _ hp => by cases hp]
    rfl

def addedCell (σ : Shapes) (s : ℕ) (n : Symbol) (a : AttrSafe) : Structure :=
  { σ.successor s false with
    deleted := []
    added := some (n, ⟨σ.getSlotsSize s, a⟩)
    calculatedSize := σ.getSlotsSize s + 1
    transitCount := 1 }

theorem modifyStructure_new (σ : Shapes) (s : ℕ) (n : Symbol) (a : AttrSafe) :
    (σ.new s).2.modifyStructure σ.nextStructure (fun st =>
      { st with
        deleted := []
        added := some (n, ⟨σ.getSlotsSize s, a⟩)
        calculatedSize := σ.getSlotsSize s + 1
        transitCount := st.transitCount + 1 }) = (σ.alloc (σ.addedCell s n a)).2 := by
  rw [Shapes.new, ctor_eq_alloc, modifyStructure_alloc]
  rfl

theorem new_fst (σ : Shapes) (s : ℕ) : (σ.new s).1 = σ.nextStructure := by
  rw [Shapes.new, ctor_eq_alloc]
  rfl

theorem deleted_new (σ : Shapes) (s : ℕ) :
    ((σ.new s).2.structures (σ.new s).1).deleted = (σ.structures s).deleted := by
  rw [new_fst, Shapes.new, ctor_eq_alloc, structures_alloc_new]
  rfl

theorem denote_addedCell (σ : Shapes) (s : ℕ) (n : Symbol) (a : AttrSafe) :
    σ.denote (σ.addedCell s n a) = (σ.view s).insert n ⟨σ.getSlotsSize s, a⟩ := rfl

theorem Inv.addShared (h : σ.Inv L) (hs : σ.Live L s) (hsh : σ.Shared s) {n : Symbol}
    (hn : n ∉ σ.view s) {a : AttrSafe} (ha : a.Typed) :
    Added σ ((σ.alloc (σ.addedCell s n a)).2.modifyStructure s fun st =>
        { st with transitions := st.transitions.insert n a σ.nextStructure })
      L s σ.nextStructure n a (σ.getSlotsSize s) := by
  have hdel := h.shared_deleted hs.1 hsh
  have hsize : σ.getSlotsSize s = tableLen (σ.view s) := by
    rw [h.getSlotsSize_eq hs, hdel, List.length_nil, Nat.add_zero]
  have hlay := h.layout hs
  rw [hdel] at hlay
  have hcell : σ.NewCell (moveHeld L s σ.nextStructure) (σ.addedCell s n a) := by
    constructor
    case prev_lt => intro p hp; cases hp; exact hs.1
    case table_lt => intro t ht; cases ht
    case added_fresh => intro it _ hit; cases hit; exact ⟨s, rfl, hn⟩
    case anchored => intro p _ hp; cases hp; exact .inl hsh
    case excl => intro r t _ ht; cases ht
    case size =>
      intro _
      rw [denote_addedCell, tableLen_insert_of_notMem hn, ← hsize]
      rfl
    case layout => rw [denote_addedCell]; exact hlay.push hn (by simp [hsize])
    case typed =>
      intro m d hm
      rw [denote_addedCell, lookup_insert_eq] at hm
      split at hm
      · cases hm; exact ha
      · exact h.typed hs hm
    case shared_deleted => intro _; rfl
    case no_transition => intro m b; exact find_new _ _ m b
    case not_flattened => rfl
  have hinv := h.alloc (fun r hr => hr.imp_right And.left) hcell
  have hvs : (σ.alloc (σ.addedCell s n a)).2.view s = σ.view s :=
    view_alloc_of_lt h.acyclic _ hs.1
  have hvn := view_alloc_new h.acyclic hcell.prev_lt
  have hold := structures_alloc_of_lt σ (σ.addedCell s n a) hs.1
  have hsp : SameProperties ((σ.alloc (σ.addedCell s n a)).2.structures s)
      { (σ.alloc (σ.addedCell s n a)).2.structures s with
        transitions := ((σ.alloc (σ.addedCell s n a)).2.structures s).transitions.insert n a
          σ.nextStructure } := by
    refine ⟨rfl, rfl, rfl, rfl, rfl, ?_, ?_⟩
    · exact TransitionsTable.insert_enabled ..
    · exact TransitionsTable.insert_unique ..
  have hne : σ.nextStructure ≠ s := Nat.ne_of_gt hs.1
  constructor
  case transitioned =>
    refine ⟨hinv.modifyStructure hsp ?_ (fun _ => rfl), by simp, ?_, ?_, .inr (.inl le_rfl), ?_,
      fun hc => absurd hc hne⟩
    · intro m k b _ hf
      dsimp only at hf
      rw [TransitionsTable.find_insert] at hf
      split at hf
      · next hkb =>
        cases hf
        obtain ⟨rfl, rfl⟩ := hkb
        refine ⟨by simp, by rw [Shared, structures_alloc_new]; rfl, ?_, ?_, ?_⟩
        · rw [structures_alloc_new, hvs, ← hsize]; rfl
        · rw [hvn, hvs, denote_addedCell, hsize]
        · rw [structures_alloc_new, hold]; rfl
      · rw [hold] at hf
        obtain ⟨hm, hmsh, hadd, hmv⟩ := h.transition hs.1 hsh hf
        rw [structures_alloc_of_lt _ _ hm, hvs, view_alloc_of_lt h.acyclic _ hm,
          shared_alloc_of_lt _ hm, hold]
        exact ⟨by rw [nextStructure_alloc]; omega, hmsh, hadd, hmv⟩
    · intro r hr _
      refine (sameShape_alloc h.acyclic _ hr.1).trans ⟨view_modifyStructure hsp r, ?_, ?_,
        shared_modifyStructure hsp r⟩
      all_goals
        by_cases hrs : r = s
        · subst hrs; rw [structures_modifyStructure_self]
        · rw [structures_modifyStructure_ne _ hrs]
    · intro r hr
      exact (shared_modifyStructure hsp r).trans (shared_alloc_of_lt _ hr)
    · intro r hr
      rw [nextStructure_modifyStructure, nextStructure_alloc] at hr
      rcases Nat.lt_succ_iff_lt_or_eq.mp hr with hr | rfl
      · refine .inr ⟨hr, ?_⟩
        by_cases hrs : r = s
        · subst hrs; rw [structures_modifyStructure_self, hold]
        · rw [structures_modifyStructure_ne _ hrs, structures_alloc_of_lt _ _ hr]
      · exact .inl rfl
  case view => rw [view_modifyStructure hsp, hvn, denote_addedCell]
  case prototype =>
    rw [structures_modifyStructure_ne _ hne, structures_alloc_new]
    rfl
  case free =>
    refine .inr ⟨hdel, ?_, hsize⟩
    rw [structures_modifyStructure_ne _ hne, structures_alloc_new]
    rfl

theorem Inv.addPropertyTransition (h : σ.Inv L) (hs : σ.Live L s) {n : Symbol}
    (hn : n ∉ σ.view s) {a : AttrSafe} (ha : a.Typed) :
    Added σ (σ.addPropertyTransition s n a).2.2 L s (σ.addPropertyTransition s n a).1 n a
      (σ.addPropertyTransition s n a).2.1 := by
  unfold Shapes.addPropertyTransition
  by_cases hsh : σ.Shared s
  · have hf : (σ.structures s).isUnique = false := by
      simpa using mt not_shared_iff.mpr (not_not.mpr hsh)
    have hdel := h.shared_deleted hs.1 hsh
    rw [if_neg (by simp [hf])]
    cases hfind : (σ.structures s).transitions.find n a with
    | some m =>
      obtain ⟨hm, hmsh, hadd, hmv, hmp⟩ := h.transition hs.1 hsh hfind
      simp only [hadd, Option.map_some, Option.getD_some]
      refine ⟨⟨h.mono ?_, le_rfl, fun r _ _ => SameShape.refl σ r, fun _ _ => Iff.rfl,
        .inr (.inr hmsh), fun _ hr => .inr ⟨hr, rfl⟩, fun _ _ _ hm => hm⟩, hmv, hmp,
        .inr ⟨hdel, h.shared_deleted hm hmsh, rfl⟩⟩
      rintro r (rfl | ⟨hl, -⟩)
      · exact ⟨hm, .inl hmsh⟩
      · exact ⟨h.held_lt hl, .inr hl⟩
    | none =>
      dsimp only
      split
      · obtain ⟨ht, htgt, hu, -⟩ := h.newUnique hs
        exact ht.addUnique h hs hu htgt hn ha
      · have hstep := h.addShared hs hsh hn ha
        have hdelmap := (deleted_new σ s).trans hdel
        simp only [hdelmap]
        rw [new_fst, modifyStructure_new]
        exact hstep
  · rw [if_pos (not_shared_iff.mp hsh)]
    exact (h.transitioned_refl hs).addUnique h hs hsh (Target.same σ s) hn ha

end Shapes

end Starlight
