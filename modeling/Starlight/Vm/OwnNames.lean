import Starlight.Vm.ElementStorage
import Starlight.Vm.ExtensibilitySpec
import Starlight.Vm.PutGet
import Starlight.Vm.ShapeHistory

/-!
# The own keys of an object

`get_own_property_names` collects keys from the class, the vector, the map and the structure. `Present`
says which keys `get_own_property` finds, in terms of the state. The two agree when nothing is stored
twice and nothing is stored where the lookup does not look.
-/

namespace Starlight

open JsObject World Exec

variable {P : Policy} {w w' : World} {o : ℕ} {name : Symbol}

/-- Each entry of a hash map is visited once. -/
structure HashOrder.Lawful (order : HashOrder) : Prop where
  names_nodup : ∀ t, (order.names t).Nodup
  mem_names : ∀ t n, n ∈ order.names t ↔ n ∈ t
  indices_nodup : ∀ m, (order.indices m).Nodup
  mem_indices : ∀ m i, i ∈ order.indices m ↔ i ∈ m

/-! ### The own lookup -/

/-- The class answers the index with a character of its text. -/
def JsObject.InText (obj : JsObject) (i : ℕ) : Prop :=
  ∃ text, obj.class_ = .string text ∧ i < text.utf8ByteSize

def storedOwn (w : World) (o : ℕ) : Symbol → Option StoredSlot
  | .index i => (w.objects o).indexed.stored i
  | n => namedSlot (w.table o) (w.objects o) n

/-- The key is answered by the class. -/
def JsObject.Special (obj : JsObject) : Symbol → Prop
  | .index i => obj.InText i
  | n => overridesLength obj.class_ ∧ n = Symbol.length

/-- The class has no answer to a key that it takes for its own: a position in the text that is counted
in bytes and lies behind the last character. -/
def JsObject.PastText (obj : JsObject) (n : Symbol) : Prop :=
  ∃ text i, n = .index i ∧ obj.class_ = .string text ∧ i < text.utf8ByteSize ∧ text.toList.length ≤ i

theorem JsObject.special_of_not_index (hname : ∀ i, name ≠ .index i) (obj : JsObject) :
    obj.Special name ↔ overridesLength obj.class_ ∧ name = Symbol.length := by
  cases name with
  | index i => exact absurd rfl (hname i)
  | key t => rfl
  | priv t => rfl

theorem storedOwn_of_not_index (hname : ∀ i, name ≠ .index i) :
    storedOwn w o name = namedSlot (w.table o) (w.objects o) name := by
  cases name with
  | index i => exact absurd rfl (hname i)
  | key t => rfl
  | priv t => rfl

theorem getOwnIndexedPropertySlotMethod_eq (o i : ℕ) (slot : Slot) (w : World) :
    getOwnIndexedPropertySlotMethod o i slot w =
      .ok (match (w.objects o).indexed.stored i with
        | some s => (true, slot.set1 s.value s.attributes (some o))
        | none => (false, slot)) w := by
  unfold getOwnIndexedPropertySlotMethod IndexedElements.stored
  rw [Vm.object_bind]
  dsimp only
  rw [IndexedElements.bind_lookup_below]
  by_cases hd : ((w.objects o).indexed.dense &&
      decide (i < (w.objects o).indexed.vector.length)) = true
  · rw [if_pos hd, if_pos hd]
    cases he : ((w.objects o).indexed.vector.getD i .empty).isEmpty with
    | true => rfl
    | false => rfl
  · rw [if_neg hd, if_neg hd]
    cases hs : (if i < (w.objects o).indexed.length then (w.objects o).indexed.sparse i else none) with
    | none => rfl
    | some s => rfl

theorem getOwnIndexedPropertySlot_of_not_inText (h : ¬ (w.objects o).InText i) (slot : Slot) :
    getOwnIndexedPropertySlot o i slot w = getOwnIndexedPropertySlotMethod o i slot w := by
  unfold getOwnIndexedPropertySlot
  rw [Vm.object_bind]
  cases hc : (w.objects o).class_ with
  | string text =>
    dsimp only
    rw [if_neg fun hlt => h ⟨text, hc, hlt⟩]
  | array => rfl
  | object => rfl
  | function => rfl
  | global => rfl

/-- **The own lookup**, in terms of the state. -/
inductive LooksUp (w : World) (o : ℕ) (n : Symbol) : Result Fault World (Bool × Slot) → Prop
  | special (slot : Slot) (w' : World) (hs : (w.objects o).Special n)
      (hp : ¬ (w.objects o).PastText n) (hd : slot.attributes.data = true)
      (he : slot.attributes.enumerable = true ↔ ∃ i, n = .index i) :
      LooksUp w o n (.ok (true, slot) w')
  | stored (slot : Slot) (s : StoredSlot) (w' : World) (hs : ¬ (w.objects o).Special n)
      (h : storedOwn w o n = some s) (hslot : slot.stored = s) : LooksUp w o n (.ok (true, slot) w')
  | absent (slot : Slot) (w' : World) (hs : ¬ (w.objects o).Special n)
      (h : storedOwn w o n = none) : LooksUp w o n (.ok (false, slot) w')
  | past (w' : World) (h : (w.objects o).PastText n) : LooksUp w o n (.error .panic w')

theorem getOwnNonIndexedPropertySlot_of_absent (h : w.Inv P) (ho : o < w.nextObject)
    (hn : (w.table o).lookup name = none)
    (hs : ¬ (overridesLength (w.objects o).class_ ∧ name = Symbol.length)) (slot : Slot) :
    ∃ slot' w', getOwnNonIndexedPropertySlot o name slot w = .ok (false, slot') w' := by
  obtain ⟨w₁, hget⟩ : ∃ w₁, Vm.structureGet o name w = .ok none w₁ := by
    obtain ⟨-, heq⟩ := reads_structureGet h ho name
    exact ⟨_, congrArg₂ Result.ok (heq.trans hn) rfl⟩
  have hmethod : getOwnNonIndexedPropertySlotMethod o name slot w = .ok (false, slot) w₁ :=
    Exec.bind_of_ok hget _
  unfold getOwnNonIndexedPropertySlot
  rw [Vm.object_bind]
  cases hc : (w.objects o).class_ with
  | array | string value =>
    dsimp only
    rw [if_neg fun hl => hs ⟨by rw [hc]; trivial, hl⟩]
    exact ⟨_, _, hmethod⟩
  | global => exact ⟨_, _, Exec.bind_of_ok hmethod _⟩
  | object | function => exact ⟨_, _, hmethod⟩

theorem looksUp_index (i : ℕ) : LooksUp w o (.index i) (getOwnPropertySlot o (.index i) Slot.new w) := by
  change LooksUp w o (.index i) (getOwnIndexedPropertySlot o i Slot.new w)
  by_cases hs : (w.objects o).InText i
  · obtain ⟨text, hc, hlt⟩ := hs
    unfold getOwnIndexedPropertySlot
    rw [Vm.object_bind, hc]
    dsimp only
    rw [if_pos hlt]
    cases hch : text.toList[i]? with
    | none => exact .past _ ⟨text, i, rfl, hc, hlt, List.getElem?_eq_none_iff.mp hch⟩
    | some ch =>
      refine .special _ _ ⟨text, hc, hlt⟩ ?_ rfl ⟨fun _ => ⟨i, rfl⟩, fun _ => rfl⟩
      rintro ⟨text', j, hj, hc', -, hle⟩
      rw [hc] at hc'
      cases hj
      cases hc'
      rw [List.getElem?_eq_none_iff.mpr hle] at hch
      cases hch
  · rw [getOwnIndexedPropertySlot_of_not_inText hs, getOwnIndexedPropertySlotMethod_eq]
    cases he : (w.objects o).indexed.stored i with
    | none => exact .absent _ _ hs he
    | some s => exact .stored _ s _ hs he rfl

theorem looksUp_named (h : w.Inv P) (ho : o < w.nextObject) (hname : ∀ i, name ≠ .index i) :
    LooksUp w o name (getOwnPropertySlot o name Slot.new w) := by
  rw [getOwnPropertySlot_of_not_index hname]
  by_cases hs : overridesLength (w.objects o).class_ ∧ name = Symbol.length
  · have hspecial := (special_of_not_index hname (w.objects o)).mpr hs
    obtain ⟨hc, rfl⟩ := hs
    unfold getOwnNonIndexedPropertySlot
    rw [Vm.object_bind]
    have hno : ∀ i, Symbol.length ≠ .index i := hname
    have hpast : ¬ (w.objects o).PastText Symbol.length := fun ⟨_, i, hi, _⟩ => hno i hi
    cases hcl : (w.objects o).class_ with
    | array =>
      dsimp only
      rw [if_pos rfl]
      refine .special _ _ hspecial hpast ?_ ⟨fun he => ?_, fun ⟨i, hi⟩ => absurd hi (hno i)⟩
      · cases hw : (w.objects o).indexed.writable <;> rfl
      · revert he
        cases hw : (w.objects o).indexed.writable <;> exact fun he => nomatch he
    | string text =>
      dsimp only
      rw [if_pos rfl]
      exact .special _ _ hspecial hpast rfl ⟨fun he => (nomatch he), fun ⟨i, hi⟩ => absurd hi (hno i)⟩
    | object | function | global => rw [hcl] at hc; exact hc.elim
  · have hspecial := (special_of_not_index hname (w.objects o)).not.mpr hs
    cases hn : namedSlot (w.table o) (w.objects o) name with
    | some s =>
      obtain ⟨w', k, -, hrun⟩ := getOwnNonIndexedPropertySlot_of_named h ho hn hs Slot.new
      rw [hrun]
      exact .stored _ s _ hspecial ((storedOwn_of_not_index hname).trans hn) rfl
    | none =>
      obtain ⟨slot, w', hrun⟩ := getOwnNonIndexedPropertySlot_of_absent h ho
        (lookup_of_namedSlot_none h ho hn) hs Slot.new
      rw [hrun]
      exact .absent _ _ hspecial ((storedOwn_of_not_index hname).trans hn)

theorem looksUp (h : w.Inv P) (ho : o < w.nextObject) (n : Symbol) :
    LooksUp w o n (getOwnPropertySlot o n Slot.new w) := by
  cases n with
  | index i => exact looksUp_index i
  | key t | priv t => exact looksUp_named h ho (by simp)

theorem JsObject.PastText.special {obj : JsObject} {n : Symbol} (h : obj.PastText n) :
    obj.Special n := by
  obtain ⟨text, i, rfl, hc, hlt, -⟩ := h
  exact ⟨text, hc, hlt⟩

/-- **The own keys**: those the class answers for, and those something is stored under. -/
theorem owns_iff (h : w.Inv P) (ho : o < w.nextObject) (n : Symbol) :
    Owns w o n ↔
      ¬ (w.objects o).PastText n ∧ ((w.objects o).Special n ∨ (storedOwn w o n).isSome) := by
  have hl := looksUp h ho n
  unfold Owns
  cases hr : getOwnPropertySlot o n Slot.new w with
  | ok r w' =>
    rw [hr] at hl
    cases hl with
    | special slot _ hs hp => exact ⟨fun _ => ⟨hp, .inl hs⟩, fun _ => ⟨slot, w', rfl⟩⟩
    | stored slot s _ hs hst =>
      exact ⟨fun _ => ⟨fun hp => hs hp.special, .inr (by rw [hst]; rfl)⟩, fun _ => ⟨slot, w', rfl⟩⟩
    | absent slot _ hs hst =>
      refine ⟨fun ⟨_, _, hc⟩ => (nomatch hc), fun ⟨_, hc⟩ => ?_⟩
      rcases hc with hc | hc
      · exact absurd hc hs
      · rw [hst] at hc
        cases hc
  | error e w' =>
    rw [hr] at hl
    cases hl with
    | past _ hp => exact ⟨fun ⟨_, _, hc⟩ => (nomatch hc), fun hc => absurd hp hc.1⟩
  | stuck | diverge => rw [hr] at hl; cases hl

def OwnsEnumerable (w : World) (o : ℕ) (n : Symbol) : Prop :=
  ∃ slot w', getOwnPropertySlot o n Slot.new w = .ok (true, slot) w' ∧
    slot.attributes.enumerable = true

theorem ownsEnumerable_iff (h : w.Inv P) (ho : o < w.nextObject) (n : Symbol) :
    OwnsEnumerable w o n ↔ ¬ (w.objects o).PastText n ∧
      (((w.objects o).Special n ∧ ∃ i, n = .index i) ∨ (¬ (w.objects o).Special n ∧
        ∃ s, storedOwn w o n = some s ∧ s.attributes.enumerable = true)) := by
  have hl := looksUp h ho n
  unfold OwnsEnumerable
  cases hr : getOwnPropertySlot o n Slot.new w with
  | ok r w' =>
    rw [hr] at hl
    cases hl with
    | special slot _ hs hp hd he =>
      constructor
      · rintro ⟨slot', w'', hc, henum⟩
        cases hc
        exact ⟨hp, .inl ⟨hs, he.mp henum⟩⟩
      · rintro ⟨-, ⟨-, hi⟩ | ⟨hc, -⟩⟩
        · exact ⟨slot, w', rfl, he.mpr hi⟩
        · exact absurd hs hc
    | stored slot s _ hs hst hslot =>
      constructor
      · rintro ⟨slot', w'', hc, henum⟩
        cases hc
        rw [Slot.attributes, hslot] at henum
        exact ⟨fun hp => hs hp.special, .inr ⟨hs, s, hst, henum⟩⟩
      · rintro ⟨-, ⟨hc, -⟩ | ⟨-, s', hst', henum⟩⟩
        · exact absurd hc hs
        · rw [hst] at hst'
          cases hst'
          exact ⟨slot, w', rfl, by rw [Slot.attributes, hslot]; exact henum⟩
    | absent slot _ hs hst =>
      constructor
      · rintro ⟨_, _, ⟨⟩, _⟩
      · rintro ⟨-, ⟨hc, -⟩ | ⟨-, s, hc, -⟩⟩
        · exact absurd hc hs
        · rw [hst] at hc
          cases hc
  | error e w' =>
    rw [hr] at hl
    cases hl with
    | past _ hp => exact ⟨by rintro ⟨_, _, ⟨⟩, _⟩, fun hc => absurd hp hc.1⟩
  | stuck | diverge => rw [hr] at hl; cases hl

/-! ### The listing -/

/-- The keys that the class lists. -/
def specialNames (obj : JsObject) (all : Bool) : List Symbol :=
  match obj.class_ with
  | .array => if all then [Symbol.length] else []
  | .string text =>
    (if all then [Symbol.length] else []) ++ (List.range text.utf8ByteSize).map Symbol.index
  | _ => []

/-- The keys of the vector. -/
def denseNames (ix : IndexedElements) : List Symbol :=
  if ix.dense then
    ((List.range ix.vector.length).filter fun i => !(ix.vector.getD i .empty).isEmpty).map Symbol.index
  else []

/-- The keys of the map. -/
def sparseNames (order : HashOrder) (ix : IndexedElements) (all : Bool) : List Symbol :=
  match ix.map with
  | none => []
  | some m => ((order.indices m).filter fun i => match m.lookup i with
      | some it => all || it.attributes.enumerable
      | none => false).map Symbol.index

/-- The keys of a property table. -/
def tableNames (order : HashOrder) (table : TargetTable) (all : Bool) : List Symbol :=
  (order.names table).filter fun n => match table.lookup n with
    | some e => all || e.attrs.enumerable
    | none => false

def ownNames (w : World) (o : ℕ) (all : Bool) : List Symbol :=
  specialNames (w.objects o) all ++ denseNames (w.objects o).indexed ++
    sparseNames w.hashOrder (w.objects o).indexed all ++ tableNames w.hashOrder (w.table o) all

theorem tableNames_empty (order : HashOrder) (all : Bool) : tableNames order ∅ all = [] := by
  unfold tableNames
  rw [List.filter_eq_nil_iff]
  intro n _
  rw [Finmap.lookup_empty]
  exact Bool.false_ne_true

theorem getOwnPropertyNames_eq (h : w.Inv P) (ho : o < w.nextObject) (all : Bool) :
    ∃ w', Read P w w' ∧ getOwnPropertyNames o all w = .ok (ownNames w o all) w' := by
  obtain ⟨hr, htab⟩ := h.shapes.allocateTableIfNeeded (h.live ho)
  refine ⟨_, h.read_shapes hr, ?_⟩
  unfold getOwnPropertyNames
  rw [Vm.object_bind, Exec.gets_bind]
  unfold Vm.shapes
  rw [Exec.update_bind, Exec.gets_bind]
  refine congrArg₂ Result.ok (congrArg₂ _ rfl ?_) rfl
  dsimp only
  rw [htab]
  split
  · rfl
  · next hf =>
    have hv := Shapes.view_of_not_allocated (by simpa using hf)
    rw [World.table, hv, tableNames_empty]

theorem mem_specialNames {obj : JsObject} {all : Bool} {n : Symbol} :
    n ∈ specialNames obj all ↔ obj.Special n ∧ (all = true ∨ ∃ i, n = .index i) := by
  have htext : ∀ {i}, (∀ text, obj.class_ ≠ .string text) → ¬ obj.InText i := by
    rintro i h ⟨text, hc, -⟩
    exact h text hc
  unfold specialNames
  cases hc : obj.class_ with
  | array =>
    have hno : ∀ text, obj.class_ ≠ .string text := fun text => by rw [hc]; rintro ⟨⟩
    have hover : overridesLength obj.class_ := by rw [hc]; trivial
    cases n with
    | index i => cases all <;> simp [JsObject.Special, htext hno, Symbol.length]
    | key t | priv t => cases all <;> simp [JsObject.Special, hover]
  | string text =>
    have hover : overridesLength obj.class_ := by rw [hc]; trivial
    have hin : ∀ i, obj.InText i ↔ i < text.utf8ByteSize := fun i => by
      refine ⟨?_, fun hlt => ⟨text, hc, hlt⟩⟩
      rintro ⟨text', hc', hlt⟩
      rw [hc] at hc'
      cases hc'
      exact hlt
    cases n with
    | index i => cases all <;> simp [JsObject.Special, hin, Symbol.length]
    | key t | priv t => cases all <;> simp [JsObject.Special, hover]
  | object | function | global =>
    have hno : ∀ text, obj.class_ ≠ .string text := fun text => by rw [hc]; rintro ⟨⟩
    cases n <;> simp [JsObject.Special, htext hno, hc, overridesLength]

theorem nodup_map_index {l : List ℕ} (h : l.Nodup) : (l.map Symbol.index).Nodup :=
  h.map fun _ _ hij => Symbol.index.inj hij

theorem nodup_specialNames (obj : JsObject) (all : Bool) : (specialNames obj all).Nodup := by
  unfold specialNames
  cases obj.class_ with
  | array => cases all <;> simp
  | string text =>
    have hr := nodup_map_index (List.nodup_range (n := text.utf8ByteSize))
    cases all with
    | false => exact hr
    | true =>
      refine List.nodup_cons.mpr ⟨fun hm => ?_, hr⟩
      obtain ⟨i, -, hi⟩ := List.mem_map.mp hm
      cases hi
  | _ => exact List.nodup_nil

variable {ix : IndexedElements}

theorem mem_denseNames {n : Symbol} :
    n ∈ denseNames ix ↔
      ∃ i, n = .index i ∧ ix.dense = true ∧ ix.vector.getD i .empty ≠ .empty := by
  unfold denseNames
  constructor
  · intro hn
    split at hn
    · next hd =>
      obtain ⟨i, hi, rfl⟩ := List.mem_map.mp hn
      obtain ⟨-, he⟩ := List.mem_filter.mp hi
      refine ⟨i, rfl, hd, fun hc => ?_⟩
      rw [hc] at he
      cases he
    · cases hn
  · rintro ⟨i, rfl, hd, hne⟩
    rw [if_pos hd]
    refine List.mem_map.mpr ⟨i, List.mem_filter.mpr ⟨List.mem_range.mpr ?_, ?_⟩, rfl⟩
    · by_contra hc
      exact hne (IndexedElements.getD_of_le (Nat.le_of_not_lt hc))
    · rw [Bool.not_eq_true', Bool.eq_false_iff]
      exact fun hc => hne (IndexedElements.isEmpty_iff.mp hc)

theorem nodup_denseNames (ix : IndexedElements) : (denseNames ix).Nodup := by
  unfold denseNames
  split
  · exact nodup_map_index (List.nodup_range.filter _)
  · exact List.nodup_nil

variable {order : HashOrder}

theorem mem_sparseNames (hl : order.Lawful) {all : Bool} {n : Symbol} :
    n ∈ sparseNames order ix all ↔
      ∃ i s, n = .index i ∧ ix.sparse i = some s ∧ (all || s.attributes.enumerable) = true := by
  unfold sparseNames IndexedElements.sparse
  cases ix.map with
  | none => simp
  | some m =>
    rw [List.mem_map]
    constructor
    · rintro ⟨i, hi, rfl⟩
      obtain ⟨-, he⟩ := List.mem_filter.mp hi
      cases hs : m.lookup i with
      | none => rw [hs] at he; cases he
      | some s => rw [hs] at he; exact ⟨i, s, rfl, hs, he⟩
    · rintro ⟨i, s, rfl, hs, he⟩
      have hs : m.lookup i = some s := hs
      refine ⟨i, List.mem_filter.mpr ⟨?_, by rw [hs]; exact he⟩, rfl⟩
      exact (hl.mem_indices m i).mpr (Finmap.mem_of_lookup_eq_some hs)

theorem nodup_sparseNames (hl : order.Lawful) (ix : IndexedElements) (all : Bool) :
    (sparseNames order ix all).Nodup := by
  unfold sparseNames
  cases ix.map with
  | none => exact List.nodup_nil
  | some m => exact nodup_map_index ((hl.indices_nodup m).filter _)

theorem mem_tableNames (hl : order.Lawful) {t : TargetTable} {all : Bool} {n : Symbol} :
    n ∈ tableNames order t all ↔ ∃ e, t.lookup n = some e ∧ (all || e.attrs.enumerable) = true := by
  unfold tableNames
  rw [List.mem_filter]
  constructor
  · rintro ⟨-, he⟩
    cases hs : t.lookup n with
    | none => rw [hs] at he; cases he
    | some e => rw [hs] at he; exact ⟨e, rfl, he⟩
  · rintro ⟨e, hs, he⟩
    exact ⟨(hl.mem_names t n).mpr (Finmap.mem_of_lookup_eq_some hs), by rw [hs]; exact he⟩

theorem nodup_tableNames (hl : order.Lawful) (t : TargetTable) (all : Bool) : (tableNames order t all).Nodup :=
  (hl.names_nodup t).filter _

/-! ### When the listing is exact -/

/-- Nothing is stored twice, and nothing is stored where the lookup does not look. -/
structure NamesFit (w : World) (o : ℕ) : Prop where
  /-- A text has one byte for each of its characters. -/
  text : ∀ text, (w.objects o).class_ = .string text → text.utf8ByteSize ≤ text.toList.length
  /-- No element is hidden behind a character of the text. -/
  covered : ∀ i, (w.objects o).InText i →
    (w.objects o).indexed.vector.getD i .empty = .empty ∧ (w.objects o).indexed.sparse i = none
  /-- No entry of the map lies behind the length. -/
  within : ∀ i s, (w.objects o).indexed.sparse i = some s → i < (w.objects o).indexed.length
  /-- The structure has no key that the class or the elements answer for. -/
  named : ∀ n, n ∈ w.table o → (∀ i, n ≠ .index i) ∧ ¬ (w.objects o).Special n
  /-- Every accessor property has its getter and setter. -/
  filled : ∀ n s, namedSlot (w.table o) (w.objects o) n = some s → s.attributes.accessor = true →
    s.value ≠ .empty

theorem NamesFit.not_pastText (hf : NamesFit w o) (n : Symbol) : ¬ (w.objects o).PastText n := by
  rintro ⟨text, i, -, hc, hlt, hle⟩
  have := hf.text text hc
  omega

theorem NamesFit.not_special (hf : NamesFit w o) (hsound : w.SoundElements) {n : Symbol}
    {s : StoredSlot} (hs : storedOwn w o n = some s) : ¬ (w.objects o).Special n := by
  intro hsp
  have hno (hname : ∀ i, n ≠ .index i) : False := by
    rw [storedOwn_of_not_index hname] at hs
    obtain ⟨e, he, -⟩ := Option.bind_eq_some_iff.mp hs
    exact (hf.named n (Finmap.mem_of_lookup_eq_some he)).2 hsp
  cases n with
  | index i =>
    obtain ⟨hv, hm⟩ := hf.covered i hsp
    rcases ((hsound o).stored_eq_some_iff hf.within).mp hs with ⟨hne, -⟩ | hs
    · exact hne hv
    · rw [hm] at hs
      cases hs
  | key t | priv t => exact hno (by simp)

theorem mem_stored_iff (h : w.Inv P) (ho : o < w.nextObject) (hsound : w.SoundElements)
    (hl : w.hashOrder.Lawful) (hf : NamesFit w o) (all : Bool) (n : Symbol) :
    (n ∈ denseNames (w.objects o).indexed ∨ n ∈ sparseNames w.hashOrder (w.objects o).indexed all ∨
      n ∈ tableNames w.hashOrder (w.table o) all) ↔
      ∃ s, storedOwn w o n = some s ∧ (all || s.attributes.enumerable) = true := by
  rw [mem_denseNames, mem_sparseNames hl, mem_tableNames hl]
  -- a key that is no index can only come from the structure
  have hnamed (hname : ∀ i, n ≠ .index i) : ((∃ i, n = .index i ∧ (w.objects o).indexed.dense = true ∧
      (w.objects o).indexed.vector.getD i .empty ≠ .empty) ∨
      (∃ i s, n = .index i ∧ (w.objects o).indexed.sparse i = some s ∧
        (all || s.attributes.enumerable) = true) ∨
      ∃ e, (w.table o).lookup n = some e ∧ (all || e.attrs.enumerable) = true) ↔
      ∃ s, storedOwn w o n = some s ∧ (all || s.attributes.enumerable) = true := by
    rw [storedOwn_of_not_index hname]
    constructor
    · rintro (⟨i, hi, -⟩ | ⟨i, s, hi, -⟩ | ⟨e, he, henum⟩)
      · exact absurd hi (hname i)
      · exact absurd hi (hname i)
      · exact ⟨_, namedSlot_of_lookup he (List.getElem?_eq_getElem (h.offset_lt ho he)), henum⟩
    · rintro ⟨s, hs, henum⟩
      obtain ⟨e, he, hs⟩ := Option.bind_eq_some_iff.mp hs
      obtain ⟨v, -, rfl⟩ := Option.map_eq_some_iff.mp hs
      exact .inr (.inr ⟨e, he, henum⟩)
  cases n with
  | key t | priv t => exact hnamed (by simp)
  | index i =>
    constructor
    · rintro (⟨j, hj, -, hne⟩ | ⟨j, s, hj, hs, henum⟩ | ⟨e, he, -⟩)
      · cases hj
        refine ⟨_, ((hsound o).stored_eq_some_iff hf.within).mpr (.inl ⟨hne, rfl⟩), ?_⟩
        exact Bool.or_true all
      · cases hj
        exact ⟨s, ((hsound o).stored_eq_some_iff hf.within).mpr (.inr hs), henum⟩
      · -- the structure has no index
        exact absurd rfl ((hf.named _ (Finmap.mem_of_lookup_eq_some he)).1 i)
    · rintro ⟨s, hs, henum⟩
      rcases ((hsound o).stored_eq_some_iff hf.within).mp hs with ⟨hne, -⟩ | hs
      · exact .inl ⟨i, rfl, ((hsound o).vector i hne).1, hne⟩
      · exact .inr (.inl ⟨i, s, rfl, hs, henum⟩)

theorem mem_ownNames (h : w.Inv P) (ho : o < w.nextObject) (hsound : w.SoundElements)
    (hl : w.hashOrder.Lawful) (hf : NamesFit w o) (all : Bool) (n : Symbol) :
    n ∈ ownNames w o all ↔
      ((w.objects o).Special n ∧ (all = true ∨ ∃ i, n = .index i)) ∨
        ∃ s, storedOwn w o n = some s ∧ (all || s.attributes.enumerable) = true := by
  rw [← mem_stored_iff h ho hsound hl hf all n]
  unfold ownNames
  simp only [List.mem_append, mem_specialNames, or_assoc]

theorem nodup_ownNames (h : w.Inv P) (ho : o < w.nextObject) (hsound : w.SoundElements)
    (hl : w.hashOrder.Lawful) (hf : NamesFit w o) (all : Bool) : (ownNames w o all).Nodup := by
  -- the class does not answer for what is stored, so that its own keys are apart from all others
  have hstored : ∀ n, n ∈ denseNames (w.objects o).indexed ∨
      n ∈ sparseNames w.hashOrder (w.objects o).indexed all ∨
        n ∈ tableNames w.hashOrder (w.table o) all → n ∉ specialNames (w.objects o) all := by
    intro n hn hsp
    obtain ⟨s, hs, -⟩ := (mem_stored_iff h ho hsound hl hf all n).mp hn
    exact hf.not_special hsound hs (mem_specialNames.mp hsp).1
  unfold ownNames
  refine List.nodup_append.mpr ⟨List.nodup_append.mpr ⟨List.nodup_append.mpr
    ⟨nodup_specialNames _ _, nodup_denseNames _, ?_⟩, nodup_sparseNames hl _ _, ?_⟩,
    nodup_tableNames hl _ _, ?_⟩
  · rintro n hn m hm rfl
    exact hstored n (.inl hm) hn
  · rintro n hn m hm rfl
    rcases List.mem_append.mp hn with hn | hn
    · exact hstored n (.inr (.inl hm)) hn
    · obtain ⟨i, rfl, hd, hne⟩ := mem_denseNames.mp hn
      obtain ⟨j, s, hj, hs, -⟩ := (mem_sparseNames hl).mp hm
      cases hj
      -- an element of the vector has no entry in the map
      have hlt : i < (w.objects o).indexed.vector.length := by
        by_contra hc
        exact hne (IndexedElements.getD_of_le (Nat.le_of_not_lt hc))
      rw [(hsound o).map hd i (lt_of_lt_of_le hlt (hsound o).size)] at hs
      cases hs
  · rintro n hn m hm rfl
    obtain ⟨e, he, -⟩ := (mem_tableNames hl).mp hm
    have hno := (hf.named n (Finmap.mem_of_lookup_eq_some he)).1
    rcases List.mem_append.mp hn with hn | hn
    · rcases List.mem_append.mp hn with hn | hn
      · exact hstored n (.inr (.inr hm)) hn
      · obtain ⟨i, hi, -⟩ := mem_denseNames.mp hn
        exact hno i hi
    · obtain ⟨i, s, hi, -⟩ := (mem_sparseNames hl).mp hn
      exact hno i hi

/-! ### Descriptors of own properties -/

/-- An accessor property has its getter and setter. -/
def Filled (s : StoredSlot) : Prop := s.attributes.accessor = true → s.value ≠ .empty

/-- `get_own_property` finds the key. -/
def Present (w : World) (o : ℕ) (n : Symbol) : Prop :=
  ¬ (w.objects o).PastText n ∧
    ((w.objects o).Special n ∨ ∃ s, storedOwn w o n = some s ∧ Filled s)

theorem World.Inv.storedOwn_ok (h : w.Inv P) (ho : o < w.nextObject) {n : Symbol} {s : StoredSlot}
    (hs : storedOwn w o n = some s) : HasCell s ∧ s.attributes.Typed := by
  have hnamed (hname : ∀ i, n ≠ .index i) : HasCell s ∧ s.attributes.Typed := by
    rw [storedOwn_of_not_index hname] at hs
    have hst : Storable P w o (.named n) s := h.storable ho hs
    exact ⟨hst.hasCell, hst.typed⟩
  cases n with
  | key t | priv t => exact hnamed (by simp)
  | index i =>
    have hsparse : ∀ {s}, (w.objects o).indexed.sparse i = some s →
        HasCell s ∧ s.attributes.Typed := fun hs => by
      have hst : Storable P w o (.sparse i) _ := h.storable ho hs
      exact ⟨hst.hasCell, hst.typed⟩
    have hs : (w.objects o).indexed.stored i = some s := hs
    unfold IndexedElements.stored at hs
    split at hs
    · split at hs
      · cases hs
      · cases hs
        exact ⟨hasCell_of_data rfl, createData_typed _⟩
    · split at hs
      · exact hsparse hs
      · cases hs

theorem toDescriptor_of_filled {s : StoredSlot} (hc : HasCell s) (ht : s.attributes.Typed)
    (hf : Filled s) (w : World) : ∃ d, s.toDescriptor w = .ok d w := by
  unfold StoredSlot.toDescriptor
  split
  · exact ⟨_, rfl⟩
  · next hd =>
    -- what is not data is an accessor, and its value is a cell
    have ha := ht.accessor_of_not_data hd
    obtain ⟨c, hv⟩ := (hc ha).resolve_left (hf ha)
    have hacc : s.accessor w = .ok c w := by
      unfold StoredSlot.accessor
      rw [if_pos ha, hv]
      rfl
    exact ⟨_, Exec.bind_of_ok hacc _⟩

theorem getOwnProperty_of_present (h : w.Inv P) (ho : o < w.nextObject) {n : Symbol}
    (hp : Present w o n) : ∃ d w', Read P w w' ∧ getOwnProperty o n w = .ok (some d) w' := by
  have hrun : ∃ d w', getOwnProperty o n w = .ok (some d) w' := by
    have hl := looksUp h ho n
    cases hr : getOwnPropertySlot o n Slot.new w with
    | ok r w' =>
      rw [hr] at hl
      unfold getOwnProperty
      rw [Exec.bind_of_ok hr]
      cases hl with
      | special slot _ hs _ hd =>
        refine ⟨.dataDescriptor slot.stored.value slot.stored.attributes.toExternal, w', ?_⟩
        dsimp only
        have hdesc : slot.stored.toDescriptor w' = .ok
            (.dataDescriptor slot.stored.value slot.stored.attributes.toExternal) w' := by
          unfold StoredSlot.toDescriptor
          have hd : slot.stored.attributes.data = true := hd
          rw [if_pos hd]
          rfl
        rw [if_pos rfl]
        exact Exec.bind_of_ok hdesc _
      | stored slot s _ hs hst hslot =>
        obtain ⟨s', hst', hfill⟩ := hp.2.resolve_left hs
        rw [hst] at hst'
        cases hst'
        obtain ⟨hc, ht⟩ := h.storedOwn_ok ho hst
        obtain ⟨d, hd⟩ := toDescriptor_of_filled hc ht hfill w'
        rw [← hslot] at hd
        refine ⟨d, w', ?_⟩
        dsimp only
        rw [if_pos rfl]
        exact Exec.bind_of_ok hd _
      | absent slot _ hs hst =>
        obtain ⟨s', hst', -⟩ := hp.2.resolve_left hs
        rw [hst] at hst'
        cases hst'
    | error e w' =>
      rw [hr] at hl
      cases hl with
      | past _ hpast => exact absurd hpast hp.1
    | stuck | diverge => rw [hr] at hl; cases hl
  obtain ⟨d, w', hrun⟩ := hrun
  exact ⟨d, w', (Result.Sat.of_ok (reads_getOwnProperty h ho n) hrun).1, hrun⟩

theorem filled_of_toDescriptor {s : StoredSlot} (ht : s.attributes.Typed) {d : PropertyDescriptor}
    (h : s.toDescriptor w = .ok d w') : Filled s := by
  intro ha hv
  unfold StoredSlot.toDescriptor at h
  rw [if_neg (by rw [ht.data_or_accessor, ha]; exact Bool.false_ne_true)] at h
  obtain ⟨c, w₁, hacc, -⟩ := bind_eq_ok h
  unfold StoredSlot.accessor at hacc
  rw [if_pos ha, hv] at hacc
  cases hacc

theorem present_of_getOwnProperty (h : w.Inv P) (ho : o < w.nextObject) {n : Symbol}
    {d : PropertyDescriptor} (hrun : getOwnProperty o n w = .ok (some d) w') : Present w o n := by
  have hl := looksUp h ho n
  obtain ⟨⟨found, slot⟩, w₁, hr, hrun⟩ := bind_eq_ok hrun
  rw [hr] at hl
  cases hl with
  | special slot _ hs hp hd => exact ⟨hp, .inl hs⟩
  | stored slot s _ hs hst hslot =>
    dsimp only at hrun
    rw [if_pos rfl] at hrun
    obtain ⟨d', w₂, hd, -⟩ := bind_eq_ok hrun
    rw [hslot] at hd
    exact ⟨fun hp => hs hp.special, .inr ⟨s, hst, filled_of_toDescriptor (h.storedOwn_ok ho hst).2 hd⟩⟩
  | absent slot _ hs hst => cases hrun

end Starlight
