import Starlight.Vm.ExtensibilityRuns
import Starlight.Vm.OwnKeys

/-!
# The order of the own keys

A history of the heap records for every object its named keys in the order in which they were last added.
`Before` is the order that a listing should have: indices first, ascending, then the names as they were
added. `get_own_property_names` visits the map and the property table as hash maps, in an order that is
nobody's, and it never looks at the offset that it hands out with each name. So its listing is in order
just when there is nothing to be ordered there.
-/

namespace Starlight

open JsObject World Exec

variable {w w' : World} {o : ℕ} {n m : Symbol} {added : ℕ → List Symbol} {all : Bool}

/-! ### Histories -/

/-- The object has the key, and it is no index. -/
def OwnsNamed (w : World) (o : ℕ) (n : Symbol) : Prop := Owns w o n ∧ ∀ i, n ≠ .index i

/-- From one step to the next, the keys that are gone are struck out of an object's list, and those that
are new come last. No operation takes a key away and adds it again. A new object that answers for its
length has it first. -/
def Appends (w' : World) (o : ℕ) (old new : List Symbol) : Prop :=
  ∃ kept fresh, new = kept ++ fresh ∧ kept.Sublist old ∧
    (∀ n ∈ old, n ∈ kept ↔ OwnsNamed w' o n) ∧ fresh.Nodup ∧
    (∀ n, n ∈ fresh ↔ OwnsNamed w' o n ∧ n ∉ old) ∧
    ∀ n ∈ fresh, (w'.objects o).Special n → fresh.head? = some n

/-- A run of the heap, with the named keys of each object in the order in which they were last added. -/
inductive History : World → (ℕ → List Symbol) → Prop
  | init (order : HashOrder) : History (World.init order) fun _ => []
  | step {w w' : World} {added added' : ℕ → List Symbol} (op : KeyOp) : History w added →
      op.Valid w → op.KeepsSlots w → (op.exec w).state? = some w' →
      (∀ o < w'.nextObject, Appends w' o (added o) (added' o)) →
      (∀ o, w'.nextObject ≤ o → added' o = []) → History w' added'

theorem History.reachable (h : History w added) : KeyReachable (fun w op => op.KeepsSlots w) w := by
  induction h with
  | init order => exact ⟨order, .refl⟩
  | step op _ hv hk hs _ _ ih => exact ih.step op hv hk hs

theorem ownsNamed_iff (h : w.Inv layoutPolicy) (ho : o < w.nextObject) :
    OwnsNamed w o n ↔ (∀ i, n ≠ .index i) ∧
      ((overridesLength (w.objects o).class_ ∧ n = Symbol.length) ∨ n ∈ w.table o) := by
  have hpast (hname : ∀ i, n ≠ .index i) : ¬ (w.objects o).PastText n := fun ⟨_, i, hi, _⟩ => hname i hi
  have hstored : (namedSlot (w.table o) (w.objects o) n).isSome ↔ n ∈ w.table o := by
    rw [Option.isSome_iff_exists]
    constructor
    · rintro ⟨s, hs⟩
      obtain ⟨e, he, -⟩ := Option.bind_eq_some_iff.mp hs
      exact Finmap.mem_of_lookup_eq_some he
    · intro hn
      obtain ⟨e, he⟩ := Finmap.mem_iff.mp hn
      exact ⟨_, namedSlot_of_lookup he (List.getElem?_eq_getElem (h.offset_lt ho he))⟩
  unfold OwnsNamed
  rw [and_comm]
  refine and_congr_right fun hname => ?_
  rw [owns_iff h ho, special_of_not_index hname, storedOwn_of_not_index hname, hstored,
    and_iff_right (hpast hname)]

/-- The list of an object has exactly its named keys, and `length` is first where the class answers for
it. -/
structure Records (w : World) (o : ℕ) (l : List Symbol) : Prop where
  nodup : l.Nodup
  mem_iff : ∀ n, n ∈ l ↔ OwnsNamed w o n
  head : overridesLength (w.objects o).class_ → l.head? = some Symbol.length

theorem ownsNamed_length (h : w.Inv layoutPolicy) (ho : o < w.nextObject)
    (hc : overridesLength (w.objects o).class_) : OwnsNamed w o Symbol.length :=
  (ownsNamed_iff h ho).mpr ⟨fun _ hi => (nomatch hi), .inl ⟨hc, rfl⟩⟩

/-- **The step lemma of a history.** -/
theorem Appends.records {old new : List Symbol} (ha : Appends w' o old new)
    (h' : w'.Inv layoutPolicy) (ho : o < w'.nextObject) (hnodup : old.Nodup)
    (hhead : overridesLength (w'.objects o).class_ → old = [] ∨ old.head? = some Symbol.length) :
    Records w' o new := by
  obtain ⟨kept, fresh, rfl, hsub, hkept, hfresh, hmem, hfirst⟩ := ha
  refine ⟨List.nodup_append.mpr ⟨hnodup.sublist hsub, hfresh, ?_⟩, fun n => ?_, fun hc => ?_⟩
  · rintro n hn m hm rfl
    exact ((hmem n).mp hm).2 (hsub.subset hn)
  · rw [List.mem_append]
    constructor
    · rintro (hn | hn)
      · exact (hkept n (hsub.subset hn)).mp hn
      · exact ((hmem n).mp hn).1
    · intro hn
      by_cases ho : n ∈ old
      · exact .inl ((hkept n ho).mpr hn)
      · exact .inr ((hmem n).mpr ⟨hn, ho⟩)
  · have hown := ownsNamed_length h' ho hc
    rcases hhead hc with rfl | hold
    · -- a new object: nothing is kept, and `length` is the first of the new keys
      obtain rfl := List.sublist_nil.mp hsub
      exact hfirst _ ((hmem _).mpr ⟨hown, List.not_mem_nil⟩)
        ((special_of_not_index hown.2 _).mpr ⟨hc, rfl⟩)
    · obtain ⟨rest, rfl⟩ := List.head?_eq_some_iff.mp hold
      have hin : Symbol.length ∈ kept := (hkept _ List.mem_cons_self).mpr hown
      cases hsub with
      | cons _ hrest => exact absurd (hrest.subset hin) (List.nodup_cons.mp hnodup).1
      | cons_cons _ hrest => rfl

/-- **The run lemma of a history.** -/
theorem History.records (h : History w added) :
    (∀ o < w.nextObject, Records w o (added o)) ∧ ∀ o, w.nextObject ≤ o → added o = [] := by
  induction h with
  | init order => exact ⟨fun o ho => (by cases ho), fun _ _ => rfl⟩
  | @step w w' added added' op h hv hk hs happ hnew ih =>
    refine ⟨fun o ho => ?_, hnew⟩
    have hkept := Result.Sat.state (keeps_keyOp h.reachable.inv hv hk) hs
    by_cases hlt : o < w.nextObject
    · have hr := ih.1 o hlt
      refine (happ o ho).records hkept.inv ho hr.nodup fun hc => .inr (hr.head ?_)
      rwa [← hkept.class_eq o hlt]
    · have hnil := ih.2 o (Nat.le_of_not_lt hlt)
      exact (happ o ho).records hkept.inv ho (hnil ▸ List.nodup_nil) fun _ => .inl hnil

theorem finite_ownsNamed (h : w.Inv layoutPolicy) (ho : o < w.nextObject) :
    {n | OwnsNamed w o n}.Finite := by
  refine (insert Symbol.length (w.table o).keys).finite_toSet.subset fun n hn => ?_
  rw [Finset.mem_coe, Finset.mem_insert, Finmap.mem_keys]
  exact ((ownsNamed_iff h ho).mp hn).2.imp_left And.right

theorem exists_appends (h : w.Inv layoutPolicy) (ho : o < w.nextObject) (old : List Symbol) :
    ∃ new, Appends w o old new := by
  classical
  have hfin : {n | OwnsNamed w o n ∧ n ∉ old}.Finite := (finite_ownsNamed h ho).subset fun n hn => hn.1
  set keys := hfin.toFinset.toList with hkeys
  have hmem : ∀ n, n ∈ keys ↔ OwnsNamed w o n ∧ n ∉ old := fun n => by
    rw [hkeys, Finset.mem_toList, Set.Finite.mem_toFinset, Set.mem_ofPred_eq]
  have hnodup : keys.Nodup := Finset.nodup_toList _
  have hkept : ∀ n ∈ old, n ∈ old.filter (fun n => decide (OwnsNamed w o n)) ↔ OwnsNamed w o n :=
    fun n hn => by rw [List.mem_filter, and_iff_right hn, decide_eq_true_iff]
  by_cases hlen : Symbol.length ∈ keys
  · refine ⟨_, _, Symbol.length :: keys.erase Symbol.length, rfl, List.filter_sublist, hkept, ?_,
      fun n => ?_, fun n hn hs => ?_⟩
    · exact List.nodup_cons.mpr ⟨hnodup.not_mem_erase, hnodup.erase _⟩
    · rw [← hmem, (List.perm_cons_erase hlen).mem_iff]
    · rw [← (List.perm_cons_erase hlen).mem_iff, hmem] at hn
      rw [((special_of_not_index hn.1.2 _).mp hs).2]
      rfl
  · refine ⟨_, _, keys, rfl, List.filter_sublist, hkept, hnodup, hmem, fun n hn hs => ?_⟩
    have := ((special_of_not_index ((hmem n).mp hn).1.2 _).mp hs).2
    exact absurd (this ▸ hn) hlen

theorem History.exists_step (h : History w added) {op : KeyOp} (hv : op.Valid w) (hk : op.KeepsSlots w)
    (hs : (op.exec w).state? = some w') : ∃ added', History w' added' := by
  classical
  have hkept := Result.Sat.state (keeps_keyOp h.reachable.inv hv hk) hs
  have hnew : ∀ o, ∃ new, (o < w'.nextObject → Appends w' o (added o) new) ∧
      (w'.nextObject ≤ o → new = []) := fun o => by
    by_cases ho : o < w'.nextObject
    · obtain ⟨new, ha⟩ := exists_appends hkept.inv ho (added o)
      exact ⟨new, fun _ => ha, fun hle => absurd ho (Nat.not_lt.mpr hle)⟩
    · exact ⟨[], fun hlt => absurd hlt ho, fun _ => rfl⟩
  choose added' ha hn using hnew
  exact ⟨added', .step op h hv hk hs ha hn⟩

theorem KeyReachable.history (h : KeyReachable (fun w op => op.KeepsSlots w) w) :
    ∃ added, History w added := by
  obtain ⟨order, hrun⟩ := h
  induction hrun with
  | refl => exact ⟨_, .init order⟩
  | tail _ hstep ih =>
    obtain ⟨added, h⟩ := ih
    obtain ⟨op, hv, hk, hs⟩ := hstep
    exact h.exists_step hv hk hs

/-! ### The order -/

/-- A key comes before another in the order that is claimed for the listing. -/
inductive Before (added : List Symbol) : Symbol → Symbol → Prop
  | index {i j : ℕ} : i < j → Before added (.index i) (.index j)
  | named {i : ℕ} {n : Symbol} : (∀ j, n ≠ .index j) → Before added (.index i) n
  | added {n m : Symbol} : (∀ j, n ≠ .index j) → (∀ j, m ≠ .index j) → m ∈ added →
      added.idxOf n < added.idxOf m → Before added n m

variable {l : List Symbol}

@[simp] theorem before_index {i j : ℕ} : Before l (.index i) (.index j) ↔ i < j := by
  constructor
  · intro h
    cases h with
    | index h => exact h
    | named h => exact absurd rfl (h j)
    | added h => exact absurd rfl (h i)
  · exact .index

theorem not_before_index (hn : ∀ j, n ≠ .index j) (j : ℕ) : ¬ Before l n (.index j) := by
  rintro (_ | _ | ⟨-, h, -⟩)
  · exact hn _ rfl
  · exact hn _ rfl
  · exact h j rfl

theorem before_named (hn : ∀ j, n ≠ .index j) (h : Before l n m) :
    m ∈ l ∧ l.idxOf n < l.idxOf m := by
  cases h with
  | index | named => exact absurd rfl (hn _)
  | added _ _ hm hlt => exact ⟨hm, hlt⟩

theorem Before.asymm (h : Before l n m) : ¬ Before l m n := by
  intro h'
  cases h with
  | index h => exact absurd (before_index.mp h') (by omega)
  | named hn => exact not_before_index hn _ h'
  | added hn hm _ hlt =>
    have := (before_named hm h').2
    omega

theorem eq_of_before {ns ns' : List Symbol} (h : ns.Pairwise (Before l))
    (h' : ns'.Pairwise (Before l)) (hmem : ∀ n, n ∈ ns ↔ n ∈ ns') : ns = ns' := by
  have hnodup : ∀ {ns : List Symbol}, ns.Pairwise (Before l) → ns.Nodup := fun h =>
    h.imp fun hb heq => (heq ▸ hb).asymm (heq ▸ hb)
  have hperm : ns.Perm ns' := (List.perm_ext_iff_of_nodup (hnodup h) (hnodup h')).mpr hmem
  exact hperm.eq_of_pairwise (fun a b _ _ hab hba => absurd hba hab.asymm) h h'

/-! ### What is listed -/

def VectorLists (ix : IndexedElements) (i : ℕ) : Prop :=
  ix.dense = true ∧ ix.vector.getD i .empty ≠ .empty

def MapLists (ix : IndexedElements) (all : Bool) (i : ℕ) : Prop :=
  ∃ s, ix.sparse i = some s ∧ (all || s.attributes.enumerable) = true

/-- The property of the structure is listed. -/
def TableLists (w : World) (o : ℕ) (all : Bool) (n : Symbol) : Prop :=
  ∃ e, (w.table o).lookup n = some e ∧ (all || e.attrs.enumerable) = true

structure OrderFit (w : World) (o : ℕ) (all : Bool) : Prop where
  /-- The length of an array or a string object is listed before the indices, so there are none. -/
  length_alone : all = true → overridesLength (w.objects o).class_ →
    (∀ i, ¬ (w.objects o).InText i ∧ ¬ VectorLists (w.objects o).indexed i ∧
      ¬ MapLists (w.objects o).indexed all i ∧ ¬ TableLists w o all (.index i)) ∧
    ¬ TableLists w o all Symbol.length
  /-- The elements in the vector lie behind the text. -/
  text_vector : ∀ i j, (w.objects o).InText i → VectorLists (w.objects o).indexed j → i < j
  /-- At most one entry of the map is listed, and it lies behind the other indices. -/
  map_last : ∀ i j, (w.objects o).InText i ∨ VectorLists (w.objects o).indexed i →
    MapLists (w.objects o).indexed all j → i < j
  map_single : ∀ i j, MapLists (w.objects o).indexed all i → MapLists (w.objects o).indexed all j →
    i = j
  /-- At most one property of the structure is listed, and no index is behind it. -/
  table_last : ∀ i j, (w.objects o).InText i ∨ VectorLists (w.objects o).indexed i ∨
    MapLists (w.objects o).indexed all i → TableLists w o all (.index j) → i < j
  table_single : ∀ n m, TableLists w o all n → TableLists w o all m → n = m

variable {order : HashOrder}

theorem mem_denseNames_iff {ix : IndexedElements} :
    n ∈ denseNames ix ↔ ∃ i, n = .index i ∧ VectorLists ix i := mem_denseNames

theorem mem_sparseNames_iff (hl : order.Lawful) {ix : IndexedElements} :
    n ∈ sparseNames order ix all ↔ ∃ i, n = .index i ∧ MapLists ix all i := by
  rw [mem_sparseNames hl]
  constructor
  · rintro ⟨i, s, hn, hs, he⟩
    exact ⟨i, hn, s, hs, he⟩
  · rintro ⟨i, hn, s, hs, he⟩
    exact ⟨i, s, hn, hs, he⟩

theorem mem_tableNames_iff (hl : order.Lawful) :
    n ∈ tableNames order (w.table o) all ↔ TableLists w o all n := mem_tableNames hl

theorem mem_specialNames_iff {obj : JsObject} : n ∈ specialNames obj all ↔
    (all = true ∧ overridesLength obj.class_ ∧ n = Symbol.length) ∨
      ∃ i, n = .index i ∧ obj.InText i := by
  rw [mem_specialNames]
  cases n with
  | index i => simp [JsObject.Special, Symbol.length]
  | key t | priv t => simp [JsObject.Special, and_comm]

/-! ### When the listing is in order -/

theorem pairwise_map_index {is : List ℕ} (h : is.Pairwise (· < ·)) :
    (is.map Symbol.index).Pairwise (Before l) :=
  List.pairwise_map.mpr (h.imp Before.index)

theorem pairwise_denseNames (ix : IndexedElements) : (denseNames ix).Pairwise (Before l) := by
  unfold denseNames
  split
  · exact pairwise_map_index (List.pairwise_lt_range.filter _)
  · exact .nil

theorem pairwise_of_single {ns : List Symbol} (hn : ns.Nodup) (h : ∀ n ∈ ns, ∀ m ∈ ns, n = m) :
    ns.Pairwise (Before l) :=
  hn.imp_of_mem fun ha hb hne => absurd (h _ ha _ hb) hne

theorem OrderFit.pairwise_specialNames (hf : OrderFit w o all) :
    (specialNames (w.objects o) all).Pairwise (Before l) := by
  unfold specialNames
  cases hc : (w.objects o).class_ with
  | array => cases all <;> simp
  | string text =>
    have hr : ((List.range text.utf8ByteSize).map Symbol.index).Pairwise (Before l) :=
      pairwise_map_index List.pairwise_lt_range
    cases all with
    | false => exact hr
    | true =>
      refine List.pairwise_cons.mpr ⟨fun n hn => ?_, hr⟩
      obtain ⟨i, hi, -⟩ := List.mem_map.mp hn
      have := ((hf.length_alone rfl (by rw [hc]; trivial)).1 i).1
      exact absurd ⟨text, hc, List.mem_range.mp hi⟩ this
  | object | function | global => exact .nil

theorem OrderFit.pairwise (hf : OrderFit w o all) (hl : order.Lawful) (hr : Records w o l)
    (h : w.Inv layoutPolicy) (ho : o < w.nextObject) :
    (ownNames { w with hashOrder := order } o all).Pairwise (Before l) := by
  refine List.pairwise_append.mpr ⟨List.pairwise_append.mpr ⟨List.pairwise_append.mpr
    ⟨hf.pairwise_specialNames, pairwise_denseNames _, ?_⟩, ?_, ?_⟩, ?_, ?_⟩
  case refine_1 =>
    rintro n hn m hm
    obtain ⟨j, rfl, hj⟩ := mem_denseNames_iff.mp hm
    rcases mem_specialNames_iff.mp hn with ⟨ha, hc, rfl⟩ | ⟨i, rfl, hi⟩
    · exact absurd hj ((hf.length_alone ha hc).1 j).2.1
    · exact .index (hf.text_vector i j hi hj)
  case refine_2 =>
    refine pairwise_of_single (nodup_sparseNames hl _ _) fun n hn m hm => ?_
    obtain ⟨i, rfl, hi⟩ := (mem_sparseNames_iff hl).mp hn
    obtain ⟨j, rfl, hj⟩ := (mem_sparseNames_iff hl).mp hm
    rw [hf.map_single i j hi hj]
  case refine_3 =>
    rintro n hn m hm
    obtain ⟨j, rfl, hj⟩ := (mem_sparseNames_iff hl).mp hm
    rcases List.mem_append.mp hn with hn | hn
    · rcases mem_specialNames_iff.mp hn with ⟨ha, hc, rfl⟩ | ⟨i, rfl, hi⟩
      · exact absurd hj ((hf.length_alone ha hc).1 j).2.2.1
      · exact .index (hf.map_last i j (.inl hi) hj)
    · obtain ⟨i, rfl, hi⟩ := mem_denseNames_iff.mp hn
      exact .index (hf.map_last i j (.inr hi) hj)
  case refine_4 =>
    exact pairwise_of_single (nodup_tableNames hl _ _) fun n hn m hm =>
      hf.table_single n m ((mem_tableNames_iff hl).mp hn) ((mem_tableNames_iff hl).mp hm)
  case refine_5 =>
    rintro n hn m hm
    have hm : TableLists w o all m := (mem_tableNames_iff hl).mp hm
    -- an index comes before a name, and before a greater index
    have hindex : ∀ i, ((w.objects o).InText i ∨ VectorLists (w.objects o).indexed i ∨
        MapLists (w.objects o).indexed all i) → Before l (.index i) m := fun i hi => by
      by_cases hname : ∀ j, m ≠ .index j
      · exact .named hname
      · push Not at hname
        obtain ⟨j, rfl⟩ := hname
        exact .index (hf.table_last i j hi hm)
    rcases List.mem_append.mp hn with hn | hn
    · rcases List.mem_append.mp hn with hn | hn
      · rcases mem_specialNames_iff.mp hn with ⟨ha, hc, rfl⟩ | ⟨i, rfl, hi⟩
        · -- the length was there first
          obtain ⟨hnone, honce⟩ := hf.length_alone ha hc
          have hname : ∀ j, m ≠ .index j := fun j hj => (hnone j).2.2.2 (hj ▸ hm)
          have hne : Symbol.length ≠ m := fun heq => honce (heq ▸ hm)
          obtain ⟨e, he, -⟩ := hm
          have hin : m ∈ l := (hr.mem_iff m).mpr ((ownsNamed_iff h ho).mpr
            ⟨hname, .inr (Finmap.mem_of_lookup_eq_some he)⟩)
          obtain ⟨rest, rfl⟩ := List.head?_eq_some_iff.mp (hr.head hc)
          refine .added (fun _ hi => (nomatch hi)) hname hin ?_
          rw [List.idxOf_cons_self, List.idxOf_cons_ne _ hne]
          exact Nat.succ_pos _
        · exact hindex i (.inl hi)
      · obtain ⟨i, rfl, hi⟩ := mem_denseNames_iff.mp hn
        exact hindex i (.inr (.inl hi))
    · obtain ⟨i, rfl, hi⟩ := (mem_sparseNames_iff hl).mp hn
      exact hindex i (.inr (.inr hi))

/-! ### When it is not -/

/-- Hash maps visited the other way round. -/
def HashOrder.reversed (order : HashOrder) : HashOrder where
  names t := (order.names t).reverse
  indices m := (order.indices m).reverse

theorem HashOrder.Lawful.reversed (hl : order.Lawful) : order.reversed.Lawful where
  names_nodup t := List.nodup_reverse.mpr (hl.names_nodup t)
  mem_names t n := List.mem_reverse.trans (hl.mem_names t n)
  indices_nodup m := List.nodup_reverse.mpr (hl.indices_nodup m)
  mem_indices m i := List.mem_reverse.trans (hl.mem_indices m i)

theorem sparseNames_reversed (ix : IndexedElements) :
    sparseNames order.reversed ix all = (sparseNames order ix all).reverse := by
  unfold sparseNames
  cases ix.map with
  | none => rfl
  | some m => exact (congrArg (List.map _) List.filter_reverse).trans List.map_reverse

theorem tableNames_reversed (t : TargetTable) :
    tableNames order.reversed t all = (tableNames order t all).reverse :=
  List.filter_reverse

theorem single_of_reverse {ns : List Symbol} (h : ns.Pairwise (Before l))
    (h' : ns.reverse.Pairwise (Before l)) : ∀ n ∈ ns, ∀ m ∈ ns, n = m := by
  have hboth : ns.Pairwise fun n m => n = m :=
    h.imp₂ (fun _ _ hab hba => absurd hba hab.asymm) (List.pairwise_reverse.mp h')
  exact hboth.forall_of_forall fun _ _ => rfl

theorem orderFit_of_pairwise (hl : order.Lawful)
    (h : (ownNames { w with hashOrder := order } o all).Pairwise (Before l))
    (h' : (ownNames { w with hashOrder := order.reversed } o all).Pairwise (Before l)) :
    OrderFit w o all := by
  obtain ⟨h₁, htab, hlast⟩ := List.pairwise_append.mp h
  obtain ⟨h₂, hmap, hmapped⟩ := List.pairwise_append.mp h₁
  obtain ⟨-, -, hdense⟩ := List.pairwise_append.mp h₂
  obtain ⟨h₁', htab', -⟩ := List.pairwise_append.mp h'
  obtain ⟨-, hmap', -⟩ := List.pairwise_append.mp h₁'
  have hspecial : ∀ {i}, (w.objects o).InText i → Symbol.index i ∈ specialNames (w.objects o) all :=
    fun hi => mem_specialNames_iff.mpr (.inr ⟨_, rfl, hi⟩)
  have hvector : ∀ {i}, VectorLists (w.objects o).indexed i →
      Symbol.index i ∈ denseNames (w.objects o).indexed := fun hi => mem_denseNames_iff.mpr ⟨_, rfl, hi⟩
  have hsparse : ∀ {i}, MapLists (w.objects o).indexed all i →
      Symbol.index i ∈ sparseNames order (w.objects o).indexed all :=
    fun hi => (mem_sparseNames_iff hl).mpr ⟨_, rfl, hi⟩
  have htable : ∀ {n}, TableLists w o all n → n ∈ tableNames order (w.table o) all :=
    fun hn => (mem_tableNames_iff hl).mpr hn
  have hfront : ∀ {i}, (w.objects o).InText i ∨ VectorLists (w.objects o).indexed i →
      Symbol.index i ∈ specialNames (w.objects o) all ++ denseNames (w.objects o).indexed :=
    fun hi => List.mem_append.mpr (hi.imp hspecial hvector)
  constructor
  case length_alone =>
    intro ha hc
    have hlen : Symbol.length ∈ specialNames (w.objects o) all :=
      mem_specialNames_iff.mpr (.inl ⟨ha, hc, rfl⟩)
    have hno : ∀ i, ¬ Before l Symbol.length (.index i) := not_before_index fun _ hi => (nomatch hi)
    refine ⟨fun i => ⟨fun hi => ?_, fun hi => hno i (hdense _ hlen _ (hvector hi)), fun hi => ?_,
      fun hi => ?_⟩, fun hn => ?_⟩
    · -- the positions of a text come right after its length
      obtain ⟨text, hclass, hlt⟩ := hi
      have hnames : specialNames (w.objects o) all =
          Symbol.length :: (List.range text.utf8ByteSize).map Symbol.index := by
        unfold specialNames
        rw [hclass, ha]
        rfl
      have hspec := (List.pairwise_append.mp h₂).1
      rw [hnames] at hspec
      exact hno i ((List.pairwise_cons.mp hspec).1 _
        (List.mem_map_of_mem (List.mem_range.mpr hlt)))
    · exact hno i (hmapped _ (List.mem_append_left _ hlen) _ (hsparse hi))
    · exact hno i (hlast _ (List.mem_append_left _ (List.mem_append_left _ hlen)) _ (htable hi))
    · have hb := hlast _ (List.mem_append_left _ (List.mem_append_left _ hlen)) _ (htable hn)
      exact hb.asymm hb
  case text_vector => exact fun i j hi hj => before_index.mp (hdense _ (hspecial hi) _ (hvector hj))
  case map_last => exact fun i j hi hj => before_index.mp (hmapped _ (hfront hi) _ (hsparse hj))
  case map_single =>
    intro i j hi hj
    change (sparseNames order.reversed _ all).Pairwise _ at hmap'
    rw [sparseNames_reversed] at hmap'
    exact Symbol.index.inj (single_of_reverse hmap hmap' _ (hsparse hi) _ (hsparse hj))
  case table_last =>
    refine fun i j hi hj => before_index.mp (hlast _ ?_ _ (htable hj))
    rw [← or_assoc] at hi
    exact List.mem_append.mpr (hi.imp hfront hsparse)
  case table_single =>
    intro n m hn hm
    change (tableNames order.reversed _ all).Pairwise _ at htab'
    rw [tableNames_reversed] at htab'
    exact single_of_reverse htab htab' _ (htable hn) _ (htable hm)

/-! ### Exactness -/

def ListsNames (w : World) (o : ℕ) (all : Bool) (order : HashOrder) (names : List Symbol) : Prop :=
  ∃ w', getOwnPropertyNames o all { w with hashOrder := order } = .ok names w'

/-- The keys are listed in the order in which they should be, whatever order the hash maps have. -/
def ListsInOrder (w : World) (o : ℕ) (all : Bool) (l : List Symbol) : Prop :=
  ∀ order : HashOrder, order.Lawful → ∃ names, ListsNames w o all order names ∧
    names.Pairwise (Before l)

theorem listsNames_iff (h : w.Inv layoutPolicy) (ho : o < w.nextObject) {names : List Symbol} :
    ListsNames w o all order names ↔ names = ownNames { w with hashOrder := order } o all := by
  obtain ⟨w', -, hrun⟩ := getOwnPropertyNames_eq (h.read_rehash order).inv ho all
  constructor
  · rintro ⟨w'', hrun'⟩
    cases hrun.symm.trans hrun'
    rfl
  · rintro rfl
    exact ⟨w', hrun⟩

theorem listsInOrder_iff (h : w.Inv layoutPolicy) (ho : o < w.nextObject) (hr : Records w o l) :
    ListsInOrder w o all l ↔ OrderFit w o all := by
  have hlists : ∀ order, (∃ names, ListsNames w o all order names ∧ names.Pairwise (Before l)) ↔
      (ownNames { w with hashOrder := order } o all).Pairwise (Before l) := fun order => by
    simp only [listsNames_iff h ho, exists_eq_left]
  unfold ListsInOrder
  simp only [hlists]
  constructor
  · exact fun hp => orderFit_of_pairwise lawful_someOrder (hp _ lawful_someOrder)
      (hp _ lawful_someOrder.reversed)
  · exact fun hf order hl => hf.pairwise hl hr h ho

theorem keyReachable_loneWorld (class_ : Class) :
    KeyReachable (fun w op => op.KeepsSlots w) (loneWorld class_) := by
  have h₀ : KeyReachable (fun w op => op.KeepsSlots w) (World.init someOrder) := ⟨_, .refl⟩
  have h₁ := h₀.step (.heap (.newStructure none false)) (fun _ hp => by cases hp) trivial rfl
  exact h₁.step (.heap (.newObject 0 class_)) (show 0 < 1 by decide) (show _ = true from rfl) rfl

/-- An object with two properties. -/
noncomputable def twoNamesWorld : World :=
  ((loneWorld .object).after (.on 0 (.put (.key "x") .null true))).after
    (.on 0 (.put (.key "y") .null true))

theorem keyReachable_twoNamesWorld : KeyReachable (fun w op => op.KeepsSlots w) twoNamesWorld := by
  have h₁ := (keyReachable_loneWorld .object).step (.heap (.on 0 (.put (.key "x") .null true)))
    (show 0 < 1 by decide) trivial rfl
  exact h₁.step (.heap (.on 0 (.put (.key "y") .null true))) (show 0 < 1 by decide) trivial rfl

end Starlight
