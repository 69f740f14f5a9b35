import Starlight.Vm.StructureTransitions

/-!
# Which structures an operation makes, and which links it leaves alone

`Transitioned` does not say which number the new structure has, nor what becomes of the transitions of
the other structures. Here every operation is shown to make at most one structure, and to keep the
transitions and the count of every structure there was, but for the one link that an addition to a
shared structure makes.
-/

namespace Starlight

namespace Shapes

/-- Structure `r` has the same outgoing transitions and the same `transit_count` in both stores. -/
structure SameLinks (σ σ' : Shapes) (r : ℕ) : Prop where
  find : ∀ n a, (σ'.structures r).transitions.find n a = (σ.structures r).transitions.find n a
  count : (σ'.structures r).transitCount = (σ.structures r).transitCount
  shared : σ'.Shared r ↔ σ.Shared r

variable {σ σ' : Shapes} {L : ℕ → Prop} {s : ℕ}

theorem SameLinks.refl (σ : Shapes) (r : ℕ) : SameLinks σ σ r :=
  ⟨fun _ _ => rfl, rfl, Iff.rfl⟩

theorem SameLinks.trans {σ₁ σ₂ σ₃ : Shapes} {r : ℕ} (h : SameLinks σ₁ σ₂ r) (h' : SameLinks σ₂ σ₃ r) :
    SameLinks σ₁ σ₃ r :=
  ⟨fun n a => (h'.find n a).trans (h.find n a), h'.count.trans h.count,
    h'.shared.trans h.shared⟩

/-! ### Updates of cells -/

theorem sameLinks_modifyStructure (σ : Shapes) (s : ℕ) {f : Structure → Structure}
    (hfind : ∀ st n a, (f st).transitions.find n a = st.transitions.find n a)
    (hcount : ∀ st, (f st).transitCount = st.transitCount)
    (henabled : ∀ st, (f st).transitions.enabled = st.transitions.enabled) (r : ℕ) :
    SameLinks σ (σ.modifyStructure s f) r := by
  by_cases hr : r = s
  · subst hr
    constructor
    · rw [structures_modifyStructure_self]; exact hfind _
    · rw [structures_modifyStructure_self]; exact hcount _
    · rw [Shared, structures_modifyStructure_self, henabled, Shared]
  · constructor
    · rw [structures_modifyStructure_ne _ hr]; exact fun _ _ => rfl
    · rw [structures_modifyStructure_ne _ hr]
    · rw [Shared, structures_modifyStructure_ne _ hr, Shared]

theorem sameLinks_setNewTable (σ : Shapes) (s : ℕ) (t : TargetTable) (r : ℕ) :
    SameLinks σ (σ.setNewTable s t) r := by
  unfold setNewTable
  by_cases hr : r = s
  · subst hr
    constructor <;> simp [Shared]
  · constructor <;> simp [Shared, hr]

theorem sameLinks_allocateTable (σ : Shapes) (s r : ℕ) : SameLinks σ (σ.allocateTable s) r := by
  unfold allocateTable
  refine (sameLinks_setNewTable σ s _ r).trans (sameLinks_modifyStructure _ s ?_ ?_ ?_ r)
  · exact fun _ _ _ => rfl
  · exact fun _ => rfl
  · exact fun _ => rfl

theorem sameLinks_ensureTable (σ : Shapes) (s r : ℕ) : SameLinks σ (σ.ensureTable s) r := by
  unfold ensureTable
  split
  · exact sameLinks_allocateTable σ s r
  · exact .refl σ r

theorem sameLinks_updateTable (σ : Shapes) (s r : ℕ) (f : TargetTable → TargetTable) :
    SameLinks σ (σ.updateTable s f) r := by
  unfold updateTable
  split <;> exact ⟨fun _ _ => rfl, rfl, Iff.rfl⟩

theorem sameLinks_alloc (σ : Shapes) (st : Structure) {r : ℕ} (hr : r < σ.nextStructure) :
    SameLinks σ (σ.alloc st).2 r := by
  constructor
  · rw [structures_alloc_of_lt σ st hr]; exact fun _ _ => rfl
  · rw [structures_alloc_of_lt σ st hr]
  · exact shared_alloc_of_lt st hr

@[simp] theorem nextStructure_ensureTable (σ : Shapes) (s : ℕ) :
    (σ.ensureTable s).nextStructure = σ.nextStructure := by
  unfold ensureTable
  split <;> rfl

@[simp] theorem nextStructure_updateTable (σ : Shapes) (s : ℕ) (f : TargetTable → TargetTable) :
    (σ.updateTable s f).nextStructure = σ.nextStructure := by
  unfold updateTable
  split <;> rfl

/-! ### Reads -/

theorem nextStructure_get (σ : Shapes) (s : ℕ) (n : Symbol) :
    (σ.get s n).2.nextStructure = σ.nextStructure := by
  unfold Shapes.get
  split
  · rfl
  · split
    · rfl
    · split
      · dsimp only
        split <;> rfl
      · rfl

theorem sameLinks_get (σ : Shapes) (s : ℕ) (n : Symbol) (r : ℕ) : SameLinks σ (σ.get s n).2 r := by
  unfold Shapes.get
  split
  · exact .refl σ r
  · split
    · exact .refl σ r
    · split
      · dsimp only
        split
        · exact .refl σ r
        · exact sameLinks_allocateTable σ s r
      · exact sameLinks_allocateTable σ s r

theorem sameLinks_allocateTableIfNeeded (σ : Shapes) (s r : ℕ) :
    SameLinks σ (σ.allocateTableIfNeeded s).2 r := by
  unfold allocateTableIfNeeded
  split
  · split
    · exact .refl σ r
    · exact sameLinks_allocateTable σ s r
  · exact .refl σ r

/-! ### Transitions -/

/-- The operation made structure `σ.nextStructure`, and kept the links of all others. -/
structure Makes (σ σ' : Shapes) : Prop where
  next : σ'.nextStructure = σ.nextStructure + 1
  links : ∀ r, r < σ.nextStructure → SameLinks σ σ' r

/-- The operation made no structure, and kept all links. -/
structure KeepsLinks (σ σ' : Shapes) : Prop where
  next : σ'.nextStructure = σ.nextStructure
  links : ∀ r, SameLinks σ σ' r

theorem KeepsLinks.trans {σ₁ σ₂ σ₃ : Shapes} (h : KeepsLinks σ₁ σ₂) (h' : KeepsLinks σ₂ σ₃) :
    KeepsLinks σ₁ σ₃ :=
  ⟨h'.next.trans h.next, fun r => (h.links r).trans (h'.links r)⟩

theorem Makes.keeps {σ₁ σ₂ σ₃ : Shapes} (h : Makes σ₁ σ₂) (h' : KeepsLinks σ₂ σ₃) : Makes σ₁ σ₃ :=
  ⟨h'.next.trans h.next, fun r hr => (h.links r hr).trans (h'.links r)⟩

theorem keepsLinks_ensureTable (σ : Shapes) (s : ℕ) : KeepsLinks σ (σ.ensureTable s) :=
  ⟨nextStructure_ensureTable σ s, sameLinks_ensureTable σ s⟩

theorem keepsLinks_updateTable (σ : Shapes) (s : ℕ) (f : TargetTable → TargetTable) :
    KeepsLinks σ (σ.updateTable s f) :=
  ⟨nextStructure_updateTable σ s f, fun r => sameLinks_updateTable σ s r f⟩

theorem keepsLinks_modifyStructure (σ : Shapes) (s : ℕ) {f : Structure → Structure}
    (hfind : ∀ st n a, (f st).transitions.find n a = st.transitions.find n a)
    (hcount : ∀ st, (f st).transitCount = st.transitCount)
    (henabled : ∀ st, (f st).transitions.enabled = st.transitions.enabled) :
    KeepsLinks σ (σ.modifyStructure s f) :=
  ⟨rfl, sameLinks_modifyStructure σ s hfind hcount henabled⟩

/-- A transition made a unique structure. -/
structure MakesUnique (σ σ' : Shapes) (m : ℕ) : Prop extends Makes σ σ' where
  fst : m = σ.nextStructure
  unique : ¬ σ'.Shared m

theorem MakesUnique.keeps {σ₁ σ₂ σ₃ : Shapes} {m : ℕ} (h : MakesUnique σ₁ σ₂ m)
    (h' : KeepsLinks σ₂ σ₃) : MakesUnique σ₁ σ₃ m :=
  ⟨h.toMakes.keeps h', h.fst, mt (h'.links m).shared.mp h.unique⟩

theorem makes_newUnique (σ : Shapes) (s : ℕ) : MakesUnique σ (σ.newUnique s).2 (σ.newUnique s).1 := by
  unfold Shapes.newUnique
  rw [ctor_eq_alloc]
  refine ⟨⟨rfl, fun r hr => sameLinks_alloc σ _ hr⟩, rfl, ?_⟩
  rw [Shared, alloc_fst, structures_alloc_new]
  exact Bool.false_ne_true

theorem makes_deletePropertyTransition {σ' : Shapes} {n : Symbol} {m : ℕ}
    (h : σ.deletePropertyTransition s n = some (m, σ')) : MakesUnique σ σ' m := by
  have hm := makes_newUnique σ s
  unfold Shapes.deletePropertyTransition at h
  rcases hnu : σ.newUnique s with ⟨map, σ₁⟩
  simp only [hnu] at h hm
  obtain ⟨σ₂, hdel, he⟩ := Option.map_eq_some_iff.mp h
  cases he
  refine (hm.keeps (keepsLinks_ensureTable σ₁ m)).keeps ?_
  unfold Shapes.delete at hdel
  split at hdel
  · cases hdel
    refine (keepsLinks_updateTable ..).trans (keepsLinks_modifyStructure _ m ?_ ?_ ?_)
    · exact fun _ _ _ => rfl
    · exact fun _ => rfl
    · exact fun _ => rfl
  · cases hdel

theorem makes_changeAttributesTransition {σ' : Shapes} {n : Symbol} {a : AttrSafe} {m : ℕ}
    (h : σ.changeAttributesTransition s n a = some (m, σ')) : MakesUnique σ σ' m := by
  have hm := makes_newUnique σ s
  unfold Shapes.changeAttributesTransition at h
  rcases hnu : σ.newUnique s with ⟨map, σ₁⟩
  simp only [hnu] at h hm
  obtain ⟨σ₂, hchg, he⟩ := Option.map_eq_some_iff.mp h
  cases he
  refine (hm.keeps (keepsLinks_ensureTable σ₁ m)).keeps ?_
  unfold Shapes.changeAttributes at hchg
  split at hchg
  · cases hchg
    exact keepsLinks_updateTable ..
  · cases hchg

theorem uniqueFor_cases (h : σ.Inv L) (hs : s < σ.nextStructure) :
    (¬ σ.Shared s ∧ σ.uniqueFor s = (s, σ)) ∨
      (σ.Shared s ∧ σ.uniqueFor s = σ.newUnique s) := by
  unfold Shapes.uniqueFor
  by_cases hsh : σ.Shared s
  · have hf : (σ.structures s).isUnique = false := by
      simpa using mt not_shared_iff.mpr (not_not.mpr hsh)
    rw [if_neg (by simp [hf])]
    exact .inr ⟨hsh, rfl⟩
  · rw [if_pos (not_shared_iff.mp hsh), if_neg (by simp [h.not_flattened hs])]
    exact .inl ⟨hsh, rfl⟩

theorem addUnique_stays (h : σ.Inv L) (hs : σ.Live L s) (n : Symbol) (a : AttrSafe) :
    KeepsLinks σ (σ.addUnique s n a).2.2 ∧ (σ.addUnique s n a).1 = s := by
  have hflat : ((σ.ensureTable s).structures s).transitions.unique = false :=
    (h.ensureTable hs).1.inv.not_flattened (by rw [nextStructure_ensureTable]; exact hs.1)
  have hk := keepsLinks_ensureTable σ s
  unfold Shapes.addUnique
  simp only [hflat, Bool.false_eq_true, if_false]
  split
  · refine ⟨(hk.trans (keepsLinks_modifyStructure _ s ?_ ?_ ?_)).trans (keepsLinks_updateTable ..), rfl⟩
    · exact fun _ _ _ => rfl
    · exact fun _ => rfl
    · exact fun _ => rfl
  · exact ⟨hk.trans (keepsLinks_updateTable ..), rfl⟩

theorem addPropertyTransition_unique (hu : ¬ σ.Shared s) (n : Symbol) (a : AttrSafe) :
    σ.addPropertyTransition s n a = σ.addUnique s n a := by
  unfold Shapes.addPropertyTransition
  rw [if_pos (not_shared_iff.mp hu)]

theorem isUnique_of_shared (hsh : σ.Shared s) : (σ.structures s).isUnique = false := by
  rw [Structure.isUnique, hsh, Bool.not_true]

theorem addPropertyTransition_child (hsh : σ.Shared s) {n : Symbol} {a : AttrSafe} {m : ℕ}
    (hm : (σ.structures s).transitions.find n a = some m) :
    (σ.addPropertyTransition s n a).1 = m ∧ (σ.addPropertyTransition s n a).2.2 = σ := by
  unfold Shapes.addPropertyTransition
  rw [if_neg (by rw [isUnique_of_shared hsh]; exact Bool.false_ne_true), hm]
  exact ⟨rfl, rfl⟩

theorem addPropertyTransition_new (h : σ.Inv L) (hs : s < σ.nextStructure) (hsh : σ.Shared s)
    {n : Symbol} {a : AttrSafe} (hm : (σ.structures s).transitions.find n a = none)
    (hc : (σ.structures s).transitCount ≤ 64) :
    σ.addPropertyTransition s n a = (σ.nextStructure, σ.getSlotsSize s,
      (σ.alloc (σ.addedCell s n a)).2.modifyStructure s fun st =>
        { st with transitions := st.transitions.insert n a σ.nextStructure }) := by
  have hdel := (deleted_new σ s).trans (h.shared_deleted hs hsh)
  unfold Shapes.addPropertyTransition
  rw [if_neg (by rw [isUnique_of_shared hsh]; exact Bool.false_ne_true), hm]
  dsimp only
  rw [if_neg (by omega)]
  simp only [hdel]
  rw [new_fst, modifyStructure_new]

/-! ### The collector -/

theorem find_clear_eq (t : TransitionsTable) (key : TransitionKey) (n : Symbol) (a : AttrSafe) :
    (t.clear key).find n a = if ⟨n, a⟩ = key then none else t.find n a := by
  obtain ⟨var, en, un, ix⟩ := t
  -- one case for each form of the table
  cases var with
  | none => simp [TransitionsTable.clear, TransitionsTable.find]
  | pair x y =>
    simp only [TransitionsTable.clear]
    split
    · next hk =>
      subst hk
      simp only [TransitionsTable.find]
      split <;> rfl
    · next hk =>
      simp only [TransitionsTable.find]
      split
      · next hn =>
        rw [if_neg]
        rintro rfl
        exact hk hn
      · split <;> rfl
  | table t =>
    simp only [TransitionsTable.clear]
    split
    · simp only [TransitionsTable.find, lookup_insert_eq]
      split <;> rfl
    · next hk =>
      split
      · next hn =>
        subst hn
        simp only [TransitionsTable.find, Finmap.lookup_eq_none.mpr hk]
        rfl
      · rfl

theorem Inv.clear (h : σ.Inv L) (hs : s < σ.nextStructure) (key : TransitionKey) :
    TableReady σ (σ.modifyStructure s fun st => { st with transitions := st.transitions.clear key })
      L s := by
  have hsame : SameProperties (σ.structures s)
      { σ.structures s with transitions := (σ.structures s).transitions.clear key } :=
    ⟨rfl, rfl, rfl, rfl, rfl, TransitionsTable.clear_enabled _ _, TransitionsTable.clear_unique _ _⟩
  have hshape : ∀ r, SameShape σ (σ.modifyStructure s fun st =>
      { st with transitions := st.transitions.clear key }) r := by
    intro r
    refine ⟨view_modifyStructure hsame r, ?_, ?_, shared_modifyStructure hsame r⟩
    all_goals
      by_cases hr : r = s
      · subst hr; rw [structures_modifyStructure_self]
      · rw [structures_modifyStructure_ne _ hr]
  refine ⟨h.modifyStructure hsame (fun hsh hfind => h.transition hs hsh
    (TransitionsTable.find_clear _ _ hfind)) fun _ => rfl, fun r _ => hshape r, rfl,
    fun r => (hshape r).prototype⟩

/-! ### Roots -/

/-- A table cell that no structure points to yet. -/
def withTable (σ : Shapes) (t : TargetTable) : Shapes :=
  { σ with tables := Function.update σ.tables σ.nextTable t, nextTable := σ.nextTable + 1 }

def rootCell (table : Option ℕ) (size : ℕ) (prototype : Option ℕ) (unique indexed : Bool) : Structure :=
  { transitions := .new (!unique) indexed
    table := table
    deleted := []
    added := none
    previous := none
    prototype := prototype
    calculatedSize := size
    transitCount := 0
    hasBeenFlattenedBefore := false }

theorem ctor1_eq_alloc (σ : Shapes) (prototype : Option ℕ) (unique indexed : Bool) :
    σ.ctor1 prototype unique indexed = σ.alloc (rootCell none 0 prototype unique indexed) := rfl

theorem newFromTable_eq_alloc (σ : Shapes) (t : TargetTable) (prototype : Option ℕ)
    (unique indexed : Bool) : σ.newFromTable t prototype unique indexed =
      (σ.withTable t).alloc (rootCell (some σ.nextTable) (tableLen t) prototype unique indexed) := by
  simp [newFromTable, ctor1, withTable, alloc, setNewTable, modifyStructure, rootCell,
    Function.update_idem]

theorem view_withTable (h : σ.Inv L) (t : TargetTable) {r : ℕ} (hr : r < σ.nextStructure) :
    (σ.withTable t).view r = σ.view r := by
  refine @view_congr σ (σ.withTable t) (fun r => r < σ.nextStructure) (fun _ _ => ⟨rfl, rfl, rfl⟩) ?_ ?_ r hr
  · intro r u hr hu
    exact Function.update_of_ne (Nat.ne_of_lt (h.table_lt hr hu)) _ _
  · intro r p hr _ hp
    exact (h.acyclic hr hp).trans hr

theorem Inv.withTable (h : σ.Inv L) (t : TargetTable) : (σ.withTable t).Inv L where
  __ := h
  table_lt hs ht := (h.table_lt hs ht).trans (Nat.lt_succ_self _)
  added_fresh hs ht ha := by
    obtain ⟨p, hp, hn⟩ := h.added_fresh hs ht ha
    refine ⟨p, hp, ?_⟩
    rw [view_withTable h t ((h.acyclic hs hp).trans hs)]
    exact hn
  size hs ht := by rw [view_withTable h t hs.1]; exact h.size hs ht
  layout hs := by rw [view_withTable h t hs.1]; exact h.layout hs
  typed hs he := by rw [view_withTable h t hs.1] at he; exact h.typed hs he
  transition hs hsh hf := by
    obtain ⟨hm, hmsh, hadd, hv, hp⟩ := h.transition hs hsh hf
    rw [view_withTable h t hs, view_withTable h t hm]
    exact ⟨hm, hmsh, hadd, hv, hp⟩

theorem makes_rootCell (σ : Shapes) (table : Option ℕ) (size : ℕ) (prototype : Option ℕ)
    (unique indexed : Bool) : Makes σ (σ.alloc (rootCell table size prototype unique indexed)).2 :=
  ⟨rfl, fun _ hr => sameLinks_alloc σ _ hr⟩

theorem Inv.newFromTable (h : σ.Inv L) {t : TargetTable} (hlay : SlotLayout MapEntry.offset t [])
    (htyped : ∀ n e, t.lookup n = some e → e.attrs.Typed) (prototype : Option ℕ)
    (unique indexed : Bool) (L' : ℕ → Prop) (hL : ∀ r, L' r → r = σ.nextStructure ∨ L r) :
    (σ.newFromTable t prototype unique indexed).2.Inv L' ∧
      (∀ r, r < σ.nextStructure → SameShape σ (σ.newFromTable t prototype unique indexed).2 r) ∧
      (σ.newFromTable t prototype unique indexed).2.view σ.nextStructure = t := by
  rw [newFromTable_eq_alloc]
  have hw := h.withTable t
  have hden : ∀ p, (σ.withTable t).denote (rootCell (some σ.nextTable) (tableLen t) p unique indexed) =
      t := fun _ => Function.update_self ..
  -- the new root has no previous structure, so that all that is asked of links is void
  refine ⟨hw.alloc hL ?_, fun r hr => ?_, ?_⟩
  · constructor
    case prev_lt => exact fun _ hp => by cases hp
    case table_lt => rintro u ⟨⟩; exact Nat.lt_succ_self _
    case added_fresh => exact fun _ ht => by cases ht
    case anchored => exact fun _ ht => by cases ht
    case excl =>
      rintro r u hr ⟨⟩ htr
      exact lt_irrefl _ (h.table_lt hr.1 htr)
    case size => exact fun ht => by cases ht
    case layout => rw [hden]; exact hlay
    case typed => rw [hden]; exact htyped
    case shared_deleted => exact fun _ => rfl
    case no_transition => exact fun _ _ => rfl
    case not_flattened => rfl
  · have hcell := structures_alloc_of_lt (σ.withTable t)
      (rootCell (some σ.nextTable) (tableLen t) prototype unique indexed) hr
    exact ⟨(view_alloc_of_lt hw.acyclic _ hr).trans (view_withTable h t hr),
      congrArg Structure.deleted hcell, congrArg Structure.prototype hcell,
      shared_alloc_of_lt _ hr⟩
  · exact (view_alloc_new hw.acyclic fun _ hp => by cases hp).trans (hden prototype)

end Shapes

end Starlight
