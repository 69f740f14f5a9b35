import Starlight.Vm.OwnKeys

/-!
# The names that a `for`-`in` loop visits

`get_property_names` appends the enumerable own names of the objects on a prototype chain, nearest first,
and a `NativeIterator` hands them out one by one. Nothing is remembered of the nearer objects, so a name
is visited once for each object on the chain that lists it, and also where a nearer object hides it.
-/

namespace Starlight

open JsObject World Exec IndexedElements

variable {P : Policy} {w w' : World} {o p : ℕ} {n : Symbol}

/-! ### The iterator -/

def JsObject.getPropertyNamesFrom : ℕ → ℕ → Bool → Vm (List Symbol)
  | 0, _, _ => Exec.diverge
  | fuel + 1, o, all => do
    let names ← getOwnPropertyNames o all
    let obj ← Vm.object o
    let s ← Exec.gets fun w => w.shapes.structures obj.structure_
    match s.prototype with
    | some proto =>
      let rest ← getPropertyNamesFrom fuel proto all
      return names ++ rest
    | none => return names

def JsObject.getPropertyNames (o : ℕ) (all : Bool) : Vm (List Symbol) := do
  let fuel ← Exec.gets fun w => w.nextObject + 1
  getPropertyNamesFrom fuel o all

structure NativeIterator where
  names : List Symbol
  at_ : ℕ

namespace NativeIterator

def next (it : NativeIterator) : Option Symbol × NativeIterator :=
  match it.names[it.at_]? with
  | some result => (some result, { it with at_ := it.at_ + 1 })
  | none => (none, it)

def new : JsValue → Vm NativeIterator
  | .object o => do
    let names ← getPropertyNames o false
    return ⟨names, 0⟩
  | .string _ text => return ⟨(List.range text.utf8ByteSize).map Symbol.index, 0⟩
  | _ => Exec.stuck

/-- What `OP_FORIN_ENUMERATE` gets from an iterator before the loop ends. -/
inductive Yields : NativeIterator → List Symbol → Prop
  | done {it it' : NativeIterator} : it.next = (none, it') → Yields it []
  | step {it it' : NativeIterator} {n : Symbol} {ns : List Symbol} :
      it.next = (some n, it') → Yields it' ns → Yields it (n :: ns)

theorem yields_drop (names : List Symbol) (k : ℕ) : Yields ⟨names, k⟩ (names.drop k) := by
  induction hm : names.length - k generalizing k with
  | zero =>
    have hle : names.length ≤ k := by omega
    rw [List.drop_eq_nil_of_le hle]
    have hnext : next ⟨names, k⟩ = (none, ⟨names, k⟩) := by
      rw [next, List.getElem?_eq_none hle]
    exact .done hnext
  | succ m ih =>
    have hlt : k < names.length := by omega
    rw [List.drop_eq_getElem_cons hlt]
    refine .step ?_ (ih (k + 1) (by omega))
    rw [next, List.getElem?_eq_getElem hlt]

theorem Yields.unique {it : NativeIterator} {l l' : List Symbol} (h : Yields it l)
    (h' : Yields it l') : l = l' := by
  induction h generalizing l' with
  | done hnext =>
    cases h' with
    | done => rfl
    | step hnext' => rw [hnext] at hnext'; cases hnext'
  | step hnext _ ih =>
    cases h' with
    | done hnext' => rw [hnext] at hnext'; cases hnext'
    | step hnext' h' =>
      rw [hnext] at hnext'
      cases hnext'
      rw [ih h']

end NativeIterator

/-! ### The chain of prototypes -/

inductive World.Chain (w : World) : ℕ → List ℕ → Prop
  | last {o : ℕ} : w.prototype o = none → Chain w o [o]
  | cons {o p : ℕ} {chain : List ℕ} : w.prototype o = some p → Chain w p chain →
      Chain w o (o :: chain)

theorem World.Chain.unique {l l' : List ℕ} (h : w.Chain o l) (h' : w.Chain o l') : l = l' := by
  induction h generalizing l' with
  | last hp =>
    cases h' with
    | last => rfl
    | cons hp' => rw [hp] at hp'; cases hp'
  | cons hp _ ih =>
    cases h' with
    | last hp' => rw [hp] at hp'; cases hp'
    | cons hp' h' =>
      rw [hp] at hp'
      cases hp'
      rw [ih h']

theorem World.Chain.of_mem {l : List ℕ} (h : w.Chain o l) {b : ℕ} (hb : b ∈ l) :
    ∃ l', w.Chain b l' ∧ l'.length ≤ l.length := by
  induction h with
  | @last o hp =>
    obtain rfl := List.mem_singleton.mp hb
    exact ⟨[b], .last hp, le_rfl⟩
  | @cons o p chain hp hchain ih =>
    rcases List.mem_cons.mp hb with rfl | hb
    · exact ⟨b :: chain, .cons hp hchain, le_rfl⟩
    · obtain ⟨l', hl', hle⟩ := ih hb
      exact ⟨l', hl', hle.trans (Nat.le_succ _)⟩

theorem World.Chain.nodup {l : List ℕ} (h : w.Chain o l) : l.Nodup := by
  induction h with
  | last => exact List.nodup_singleton _
  | @cons o p chain hp hchain ih =>
    refine List.nodup_cons.mpr ⟨fun hmem => ?_, ih⟩
    -- a chain that comes back to its object has no end
    obtain ⟨l', hl', hle⟩ := hchain.of_mem hmem
    rw [hl'.unique (.cons hp hchain), List.length_cons] at hle
    omega

theorem World.Chain.lt (h : w.Inv P) (ho : o < w.nextObject) {l : List ℕ} (hl : w.Chain o l) :
    ∀ b ∈ l, b < w.nextObject := by
  induction hl with
  | last => simpa using ho
  | cons hp _ ih =>
    intro b hb
    rcases List.mem_cons.mp hb with rfl | hb
    · exact ho
    · exact ih (h.prototype_lt ho hp) b hb

theorem World.Chain.length_le (h : w.Inv P) (ho : o < w.nextObject) {l : List ℕ}
    (hl : w.Chain o l) : l.length ≤ w.nextObject := by
  have hsub : l ⊆ List.range w.nextObject := fun b hb => List.mem_range.mpr (hl.lt h ho b hb)
  simpa using (hl.nodup.subperm hsub).length_le

/-! ### The walk -/

theorem hashOrder_getOwnPropertyNames {all : Bool} {names : List Symbol}
    (h : getOwnPropertyNames o all w = .ok names w') : w'.hashOrder = w.hashOrder := by
  unfold getOwnPropertyNames at h
  rw [Vm.object_bind, Exec.gets_bind] at h
  cases h
  rfl

theorem ownNames_congr (hr : Read P w w') (h : w.Inv P) (ho : o < w.nextObject)
    (horder : w'.hashOrder = w.hashOrder) (all : Bool) : ownNames w' o all = ownNames w o all := by
  unfold ownNames
  rw [hr.objects, horder, hr.table h ho]

theorem World.Chain.read (hr : Read P w w') (h : w.Inv P) (ho : o < w.nextObject) {l : List ℕ} :
    w'.Chain o l ↔ w.Chain o l := by
  have hproto : ∀ b, b < w.nextObject → w'.prototype b = w.prototype b := fun b hb =>
    hr.prototype h hb
  constructor
  · intro hl
    induction hl with
    | last hp => exact .last (by rw [← hproto _ ho]; exact hp)
    | cons hp _ ih =>
      rw [hproto _ ho] at hp
      exact .cons hp (ih (h.prototype_lt ho hp))
  · intro hl
    induction hl with
    | last hp => exact .last (by rw [hproto _ ho]; exact hp)
    | cons hp _ ih => exact .cons (by rw [hproto _ ho]; exact hp) (ih (h.prototype_lt ho hp))

theorem getPropertyNamesFrom_succ (h : w.Inv P) (ho : o < w.nextObject) (fuel : ℕ) (all : Bool) :
    ∃ w₁, Read P w w₁ ∧ w₁.hashOrder = w.hashOrder ∧
      getPropertyNamesFrom (fuel + 1) o all w =
        match w.prototype o with
        | some proto => (do
            let rest ← getPropertyNamesFrom fuel proto all
            return ownNames w o all ++ rest : Vm (List Symbol)) w₁
        | none => .ok (ownNames w o all) w₁ := by
  obtain ⟨w₁, hr, hrun⟩ := getOwnPropertyNames_eq h ho all
  refine ⟨w₁, hr, hashOrder_getOwnPropertyNames hrun, ?_⟩
  rw [getPropertyNamesFrom, Exec.bind_of_ok hrun, Vm.object_bind, Exec.gets_bind]
  have hproto : (w₁.shapes.structures (w₁.objects o).structure_).prototype = w.prototype o :=
    hr.prototype h ho
  rw [hproto]
  cases w.prototype o <;> rfl

theorem getPropertyNamesFrom_chain {chain : List ℕ} (hc : w.Chain o chain) (h : w.Inv P)
    (ho : o < w.nextObject) (all : Bool) {fuel : ℕ} (hfuel : chain.length ≤ fuel) :
    ∃ w', getPropertyNamesFrom fuel o all w = .ok (chain.flatMap fun b => ownNames w b all) w' := by
  induction chain generalizing o w fuel with
  | nil => cases hc
  | cons b chain ih =>
    obtain ⟨fuel, rfl⟩ : ∃ m, fuel = m + 1 := by
      rw [List.length_cons] at hfuel
      exact ⟨fuel - 1, by omega⟩
    obtain ⟨w₁, hr, horder, hrun⟩ := getPropertyNamesFrom_succ h ho fuel all
    cases hc with
    | last hp =>
      rw [hrun, hp]
      exact ⟨w₁, by rw [List.flatMap_singleton]⟩
    | @cons _ p _ hp hchain =>
      have hlt := h.prototype_lt ho hp
      obtain ⟨w₂, hrest⟩ := ih ((World.Chain.read hr h hlt).mpr hchain) hr.inv
        (hr.nextObject ▸ hlt) (by simpa using hfuel)
      have hsame : (chain.flatMap fun b => ownNames w₁ b all) =
          chain.flatMap fun b => ownNames w b all :=
        List.flatMap_congr fun b hb => ownNames_congr hr h (hchain.lt h hlt b hb) horder all
      rw [hrun, hp, List.flatMap_cons, ← hsame]
      exact ⟨w₂, Exec.bind_of_ok hrest _⟩

theorem chain_of_getPropertyNamesFrom (h : w.Inv P) (ho : o < w.nextObject) {fuel : ℕ} {all : Bool}
    {names : List Symbol} (hrun : getPropertyNamesFrom fuel o all w = .ok names w') :
    ∃ chain, w.Chain o chain := by
  induction fuel generalizing o w w' names with
  | zero => cases hrun
  | succ fuel ih =>
    obtain ⟨w₁, hr, -, hstep⟩ := getPropertyNamesFrom_succ h ho fuel all
    rw [hstep] at hrun
    cases hp : w.prototype o with
    | none => exact ⟨[o], .last hp⟩
    | some p =>
      rw [hp] at hrun
      have hlt := h.prototype_lt ho hp
      obtain ⟨rest, w₂, hrest, -⟩ := bind_eq_ok hrun
      obtain ⟨chain, hchain⟩ := ih hr.inv (hr.nextObject ▸ hlt) hrest
      exact ⟨o :: chain, .cons hp ((World.Chain.read hr h hlt).mp hchain)⟩

/-! ### The enumerable own names -/

/-- No enumerable property is stored twice, and none is stored where the lookup does not look. -/
structure EnumerableFit (w : World) (o : ℕ) : Prop where
  /-- A text has one byte for each of its characters. -/
  text : ∀ text, (w.objects o).class_ = .string text → text.utf8ByteSize ≤ text.toList.length
  /-- No enumerable element is hidden behind a character of the text. -/
  covered : ∀ i, (w.objects o).InText i → (w.objects o).indexed.vector.getD i .empty = .empty ∧
    ∀ s, (w.objects o).indexed.sparse i = some s → s.attributes.enumerable = false
  /-- No enumerable entry of the map lies behind the length. -/
  within : ∀ i s, (w.objects o).indexed.sparse i = some s → s.attributes.enumerable = true →
    i < (w.objects o).indexed.length
  /-- The structure has no enumerable key that the class or the elements answer for. -/
  named : ∀ n e, (w.table o).lookup n = some e → e.attrs.enumerable = true →
    (∀ i, n ≠ .index i) ∧ ¬ (w.objects o).Special n

theorem mem_ownNames_enumerable (hl : w.hashOrder.Lawful) : n ∈ ownNames w o false ↔
    ((w.objects o).Special n ∧ ∃ i, n = .index i) ∨
    (∃ i, n = .index i ∧ (w.objects o).indexed.dense = true ∧
      (w.objects o).indexed.vector.getD i .empty ≠ .empty) ∨
    (∃ i s, n = .index i ∧ (w.objects o).indexed.sparse i = some s ∧
      s.attributes.enumerable = true) ∨
    ∃ e, (w.table o).lookup n = some e ∧ e.attrs.enumerable = true := by
  unfold ownNames
  simp only [List.mem_append, or_assoc, mem_specialNames, mem_denseNames, mem_sparseNames hl,
    mem_tableNames hl, Bool.false_eq_true, false_or, Bool.false_or]

theorem mem_ownNames_of_ownsEnumerable (h : Sane w o) (hl : w.hashOrder.Lawful)
    (hown : OwnsEnumerable w o n) : n ∈ ownNames w o false := by
  rw [mem_ownNames_enumerable hl]
  rcases ((ownsEnumerable_iff h.inv h.lt n).mp hown).2 with hs | ⟨-, s, hs, he⟩
  · exact .inl hs
  · have hnamed (hname : ∀ i, n ≠ .index i) : ∃ e, (w.table o).lookup n = some e ∧
        e.attrs.enumerable = true := by
      rw [storedOwn_of_not_index hname] at hs
      obtain ⟨e, hlook, hs⟩ := Option.bind_eq_some_iff.mp hs
      obtain ⟨v, -, rfl⟩ := Option.map_eq_some_iff.mp hs
      exact ⟨e, hlook, he⟩
    cases n with
    | key t | priv t => exact .inr (.inr (.inr (hnamed (by simp))))
    | index i =>
      have hs : (w.objects o).indexed.stored i = some s := hs
      rw [IndexedElements.stored] at hs
      split at hs
      · next hv =>
        split at hs
        · cases hs
        · next hne =>
          exact .inr (.inl ⟨i, rfl, (Bool.and_eq_true_iff.mp hv).1,
            fun hc => hne (isEmpty_iff.mpr hc)⟩)
      · split at hs
        · exact .inr (.inr (.inl ⟨i, s, rfl, hs, he⟩))
        · cases hs

theorem Sane.sparse_of_vector (h : Sane w o) {i : ℕ}
    (hne : (w.objects o).indexed.vector.getD i .empty ≠ .empty) :
    (w.objects o).indexed.sparse i = none := by
  have hlt : i < (w.objects o).indexed.vector.length := by
    by_contra hc
    exact hne (getD_of_le (Nat.le_of_not_lt hc))
  exact (h.sound o).map ((h.sound o).vector i hne).1 i (lt_of_lt_of_le hlt (h.sound o).size)

theorem Sane.stored_of_vector (h : Sane w o) {i : ℕ}
    (hne : (w.objects o).indexed.vector.getD i .empty ≠ .empty) :
    (w.objects o).indexed.stored i =
      some ⟨(w.objects o).indexed.vector.getD i .empty, objectData⟩ := by
  have hlt : i < (w.objects o).indexed.vector.length := by
    by_contra hc
    exact hne (getD_of_le (Nat.le_of_not_lt hc))
  have hd := ((h.sound o).vector i hne).1
  rw [(h.sound o).stored_vector hd (lt_of_lt_of_le hlt (h.sound o).size),
    if_neg fun hc => hne (isEmpty_iff.mp hc)]

theorem Sane.stored_of_sparse (h : Sane w o) {i : ℕ} {s : StoredSlot}
    (hs : (w.objects o).indexed.sparse i = some s) (hlt : i < (w.objects o).indexed.length) :
    (w.objects o).indexed.stored i = some s := by
  rw [(h.sound o).stored_map fun hd => ?_, if_pos hlt, hs]
  by_contra hm
  rw [(h.sound o).map hd i (by omega)] at hs
  cases hs

theorem EnumerableFit.not_pastText (hf : EnumerableFit w o) (n : Symbol) :
    ¬ (w.objects o).PastText n := by
  rintro ⟨text, i, -, hc, hlt, hle⟩
  have := hf.text text hc
  omega

theorem EnumerableFit.ownsEnumerable (hf : EnumerableFit w o) (h : Sane w o)
    (hl : w.hashOrder.Lawful) (hn : n ∈ ownNames w o false) : OwnsEnumerable w o n := by
  rw [ownsEnumerable_iff h.inv h.lt]
  refine ⟨hf.not_pastText n, ?_⟩
  rcases (mem_ownNames_enumerable hl).mp hn with hs | ⟨i, rfl, hd, hne⟩ | ⟨i, s, rfl, hs, he⟩ |
    ⟨e, hlook, he⟩
  · exact .inl hs
  · refine .inr ⟨fun hin => hne (hf.covered i hin).1, _, h.stored_of_vector hne, rfl⟩
  · refine .inr ⟨fun hin => ?_, s, h.stored_of_sparse hs (hf.within i s hs he), he⟩
    rw [(hf.covered i hin).2 s hs] at he
    cases he
  · obtain ⟨hname, hsp⟩ := hf.named n e hlook he
    have hslot := namedSlot_of_lookup hlook
      (List.getElem?_eq_getElem (h.inv.offset_lt h.lt hlook))
    exact .inr ⟨hsp, _, (storedOwn_of_not_index hname).trans hslot, he⟩

theorem EnumerableFit.nodup (hf : EnumerableFit w o) (h : Sane w o) (hl : w.hashOrder.Lawful) :
    (ownNames w o false).Nodup := by
  unfold ownNames
  refine List.nodup_append.mpr ⟨List.nodup_append.mpr ⟨List.nodup_append.mpr
    ⟨nodup_specialNames _ _, nodup_denseNames _, ?_⟩, nodup_sparseNames hl _ _, ?_⟩,
    nodup_tableNames hl _ _, ?_⟩
  · rintro n hn m hm rfl
    obtain ⟨i, rfl, -, hne⟩ := mem_denseNames.mp hm
    exact hne (hf.covered i (mem_specialNames.mp hn).1).1
  · rintro n hn m hm rfl
    obtain ⟨i, s, rfl, hs, he⟩ := (mem_sparseNames hl).mp hm
    rw [Bool.false_or] at he
    rcases List.mem_append.mp hn with hn | hn
    · rw [(hf.covered i (mem_specialNames.mp hn).1).2 s hs] at he
      cases he
    · obtain ⟨j, hj, -, hne⟩ := mem_denseNames.mp hn
      cases hj
      rw [h.sparse_of_vector hne] at hs
      cases hs
  · rintro n hn m hm rfl
    obtain ⟨e, hlook, he⟩ := (mem_tableNames hl).mp hm
    rw [Bool.false_or] at he
    obtain ⟨hname, hsp⟩ := hf.named n e hlook he
    rcases List.mem_append.mp hn with hn | hn
    · rcases List.mem_append.mp hn with hn | hn
      · exact hsp (mem_specialNames.mp hn).1
      · obtain ⟨i, hi, -⟩ := mem_denseNames.mp hn
        exact hname i hi
    · obtain ⟨i, s, hi, -⟩ := (mem_sparseNames hl).mp hn
      exact hname i hi

theorem enumerableFit_of_listing (h : Sane w o) (hl : w.hashOrder.Lawful)
    (hnodup : (ownNames w o false).Nodup)
    (hown : ∀ n ∈ ownNames w o false, OwnsEnumerable w o n) : EnumerableFit w o := by
  have hparts := fun n => disjoint_of_nodup (a := n) hnodup
  have howned : ∀ n, n ∈ ownNames w o false → ¬ (w.objects o).PastText n ∧
      (((w.objects o).Special n ∧ ∃ i, n = .index i) ∨ (¬ (w.objects o).Special n ∧
        ∃ s, storedOwn w o n = some s ∧ s.attributes.enumerable = true)) := fun n hn =>
    (ownsEnumerable_iff h.inv h.lt n).mp (hown n hn)
  have hspecial : ∀ {i}, (w.objects o).InText i → Symbol.index i ∈ specialNames (w.objects o) false :=
    fun {i} hi => mem_specialNames.mpr ⟨hi, .inr ⟨i, rfl⟩⟩
  have hdense : ∀ {i}, (w.objects o).indexed.vector.getD i .empty ≠ .empty →
      Symbol.index i ∈ denseNames (w.objects o).indexed := fun {i} hne =>
    mem_denseNames.mpr ⟨i, rfl, ((h.sound o).vector i hne).1, hne⟩
  have hsparse : ∀ {i s}, (w.objects o).indexed.sparse i = some s → s.attributes.enumerable = true →
      Symbol.index i ∈ sparseNames w.hashOrder (w.objects o).indexed false := fun {i s} hs he =>
    (mem_sparseNames hl).mpr ⟨i, s, rfl, hs, he⟩
  have htable : ∀ {n e}, (w.table o).lookup n = some e → e.attrs.enumerable = true →
      n ∈ tableNames w.hashOrder (w.table o) false := fun {n e} hlook he =>
    (mem_tableNames hl).mpr ⟨e, hlook, he⟩
  have hcovered : ∀ i, (w.objects o).InText i →
      (w.objects o).indexed.vector.getD i .empty = .empty ∧
        ∀ s, (w.objects o).indexed.sparse i = some s → s.attributes.enumerable = false := by
    intro i hi
    obtain ⟨hd, hm, -⟩ := (hparts (.index i)).1 (hspecial hi)
    refine ⟨?_, fun s hs => ?_⟩
    · by_contra hne
      exact hd (hdense hne)
    · by_contra he
      exact hm (hsparse hs (by simpa using he))
  refine ⟨?_, hcovered, ?_, ?_⟩
  · intro text hc
    by_contra hlt
    have hlt : text.toList.length < text.utf8ByteSize := by omega
    have hmem : Symbol.index text.toList.length ∈ ownNames w o false :=
      (mem_ownNames_enumerable hl).mpr (.inl ⟨⟨text, hc, hlt⟩, _, rfl⟩)
    exact (howned _ hmem).1 ⟨text, _, rfl, hc, hlt, le_rfl⟩
  · intro i s hs he
    have hmem : Symbol.index i ∈ ownNames w o false :=
      (mem_ownNames_enumerable hl).mpr (.inr (.inr (.inl ⟨i, s, rfl, hs, he⟩)))
    rcases (howned _ hmem).2 with ⟨hin, -⟩ | ⟨-, s', hs', -⟩
    · rw [(hcovered i hin).2 s hs] at he
      cases he
    · exact (h.sound o).lt_of_stored hs'
  · intro n e hlook he
    have hmem : n ∈ ownNames w o false :=
      (mem_ownNames_enumerable hl).mpr (.inr (.inr (.inr ⟨e, hlook, he⟩)))
    have hsp : ∀ i, n = .index i → ¬ (w.objects o).Special n := fun i hi hs =>
      ((hparts n).1 (mem_specialNames.mpr ⟨hs, .inr ⟨i, hi⟩⟩)).2.2 (htable hlook he)
    have hnot : ¬ (w.objects o).Special n := by
      rcases (howned n hmem).2 with ⟨-, i, hi⟩ | ⟨hnot, -⟩
      · exact hsp i hi
      · exact hnot
    refine ⟨?_, hnot⟩
    rintro i rfl
    -- an index in the table is not found, or it is listed a second time
    obtain ⟨s, hs, hes⟩ := ((howned _ hmem).2.resolve_left fun hc => hnot hc.1).2
    by_cases hne : (w.objects o).indexed.vector.getD i .empty = .empty
    · have hs : (w.objects o).indexed.stored i = some s := hs
      rw [IndexedElements.stored, hne] at hs
      split at hs
      · cases hs
      · split at hs
        · exact (hparts _).2.2 (hsparse hs hes) (htable hlook he)
        · cases hs
    · exact (hparts _).2.1 (hdense hne) (htable hlook he)

/-! ### Visiting each name once -/

/-- The nearest object on the chain that has the name has it enumerable. -/
inductive Visible (w : World) : ℕ → Symbol → Prop
  | own {o : ℕ} {n : Symbol} : OwnsEnumerable w o n → Visible w o n
  | inherited {o p : ℕ} {n : Symbol} : ¬ Owns w o n → w.prototype o = some p → Visible w p n →
      Visible w o n

theorem OwnsEnumerable.owns (h : OwnsEnumerable w o n) : Owns w o n := by
  obtain ⟨slot, w', hrun, -⟩ := h
  exact ⟨slot, w', hrun⟩

/-- No object hides an enumerable property of one behind it. -/
def Unshadowed (w : World) (chain : List ℕ) : Prop :=
  chain.Pairwise fun a b => ∀ n, OwnsEnumerable w b n → ¬ Owns w a n

def ExactChain (w : World) (o : ℕ) (chain : List ℕ) : Prop :=
  (chain.flatMap fun b => ownNames w b false).Nodup ∧
    ∀ n, n ∈ chain.flatMap (fun b => ownNames w b false) ↔ Visible w o n

section Chains

variable (h : w.Inv layoutPolicy) (hsound : w.SoundElements) (hl : w.hashOrder.Lawful)

include h hsound hl

theorem mem_of_visible {chain : List ℕ} (ho : o < w.nextObject) (hc : w.Chain o chain)
    (hv : Visible w o n) : n ∈ chain.flatMap fun b => ownNames w b false := by
  induction hv generalizing chain with
  | @own o n hown =>
    have hmem := mem_ownNames_of_ownsEnumerable ⟨h, ho, hsound⟩ hl hown
    cases hc <;> exact List.mem_flatMap.mpr ⟨o, List.mem_cons_self, hmem⟩
  | @inherited o p n _ hp _ ih =>
    cases hc with
    | last hp' => rw [hp] at hp'; cases hp'
    | cons hp' hchain =>
      rw [hp] at hp'
      cases hp'
      exact List.mem_append_right _ (ih (h.prototype_lt ho hp) hchain)

theorem exactChain_last (ho : o < w.nextObject) (hp : w.prototype o = none) :
    ExactChain w o [o] ↔ EnumerableFit w o := by
  have hsane : Sane w o := ⟨h, ho, hsound⟩
  have hvis : ∀ n, Visible w o n ↔ OwnsEnumerable w o n := fun n => by
    refine ⟨fun hv => ?_, .own⟩
    cases hv with
    | own hown => exact hown
    | inherited _ hp' => rw [hp] at hp'; cases hp'
  unfold ExactChain
  rw [List.flatMap_singleton]
  simp only [hvis]
  constructor
  · rintro ⟨hnodup, hmem⟩
    exact enumerableFit_of_listing hsane hl hnodup fun n hn => (hmem n).mp hn
  · intro hf
    exact ⟨hf.nodup hsane hl, fun n => ⟨hf.ownsEnumerable hsane hl,
      mem_ownNames_of_ownsEnumerable hsane hl⟩⟩

theorem exactChain_cons {chain : List ℕ} (ho : o < w.nextObject) (hp : w.prototype o = some p)
    (hc : w.Chain p chain) : ExactChain w o (o :: chain) ↔ EnumerableFit w o ∧ ExactChain w p chain ∧
      ∀ n ∈ chain.flatMap (fun b => ownNames w b false), ¬ Owns w o n := by
  have hsane : Sane w o := ⟨h, ho, hsound⟩
  have hlt := h.prototype_lt ho hp
  have hvis : ∀ {n}, Visible w o n → OwnsEnumerable w o n ∨ ¬ Owns w o n ∧ Visible w p n := by
    intro n hv
    cases hv with
    | own hown => exact .inl hown
    | inherited hno hp' hv =>
      rw [hp] at hp'
      cases hp'
      exact .inr ⟨hno, hv⟩
  unfold ExactChain
  rw [List.flatMap_cons, List.nodup_append]
  constructor
  · rintro ⟨⟨hnodup, hrest, hdisj⟩, hmem⟩
    -- what is listed of `o` is its own, because it is listed once
    have hown : ∀ n ∈ ownNames w o false, OwnsEnumerable w o n := by
      intro n hn
      rcases hvis ((hmem n).mp (List.mem_append_left _ hn)) with hown | ⟨-, hv⟩
      · exact hown
      · exact absurd rfl (hdisj n hn n (mem_of_visible h hsound hl hlt hc hv))
    have hbehind : ∀ n ∈ chain.flatMap (fun b => ownNames w b false),
        ¬ Owns w o n ∧ Visible w p n := by
      intro n hn
      rcases hvis ((hmem n).mp (List.mem_append_right _ hn)) with hown | hv
      · exact absurd rfl (hdisj n (mem_ownNames_of_ownsEnumerable hsane hl hown) n hn)
      · exact hv
    exact ⟨enumerableFit_of_listing hsane hl hnodup hown,
      ⟨hrest, fun n => ⟨fun hn => (hbehind n hn).2, mem_of_visible h hsound hl hlt hc⟩⟩,
      fun n hn => (hbehind n hn).1⟩
  · rintro ⟨hf, ⟨hrest, hmem⟩, hfree⟩
    refine ⟨⟨hf.nodup hsane hl, hrest, ?_⟩, fun n => ?_⟩
    · rintro n hn m hm rfl
      exact hfree n hm (hf.ownsEnumerable hsane hl hn).owns
    · rw [List.mem_append]
      constructor
      · rintro (hn | hn)
        · exact .own (hf.ownsEnumerable hsane hl hn)
        · exact .inherited (hfree n hn) hp ((hmem n).mp hn)
      · intro hv
        exact (hvis hv).imp (mem_ownNames_of_ownsEnumerable hsane hl) fun hv => (hmem n).mpr hv.2

/-- **The listing along a chain is exact** if that of each object is and none hides a name behind it. -/
theorem exactChain_iff {chain : List ℕ} (ho : o < w.nextObject) (hc : w.Chain o chain) :
    ExactChain w o chain ↔ (∀ b ∈ chain, EnumerableFit w b) ∧ Unshadowed w chain := by
  induction hc with
  | last hp => simp [exactChain_last h hsound hl ho hp, Unshadowed]
  | @cons o p chain hp hchain ih =>
    have hlt := h.prototype_lt ho hp
    rw [exactChain_cons h hsound hl ho hp hchain, ih hlt, Unshadowed, Unshadowed, List.pairwise_cons,
      List.forall_mem_cons]
    constructor
    · rintro ⟨hf, ⟨hfits, hpair⟩, hfree⟩
      refine ⟨⟨hf, hfits⟩, fun b hb n hown => hfree n ?_, hpair⟩
      have hsane : Sane w b := ⟨h, hchain.lt h hlt b hb, hsound⟩
      exact List.mem_flatMap.mpr ⟨b, hb, mem_ownNames_of_ownsEnumerable hsane hl hown⟩
    · rintro ⟨⟨hf, hfits⟩, hfree, hpair⟩
      refine ⟨hf, ⟨hfits, hpair⟩, fun n hn => ?_⟩
      obtain ⟨b, hb, hn⟩ := List.mem_flatMap.mp hn
      have hsane : Sane w b := ⟨h, hchain.lt h hlt b hb, hsound⟩
      exact hfree b hb n ((hfits b hb).ownsEnumerable hsane hl hn)

end Chains

/-- A loop over the names of object `o` visits each of those that are visible once, and no others. -/
def VisitsOnce (w : World) (o : ℕ) : Prop :=
  ∃ it w' names, NativeIterator.new (.object o) w = .ok it w' ∧ it.Yields names ∧ names.Nodup ∧
    ∀ n, n ∈ names ↔ Visible w o n

theorem yields_new_iff {names : List Symbol} {it : NativeIterator} :
    (NativeIterator.new (.object o) w = .ok it w' ∧ it.Yields names) ↔
      getPropertyNames o false w = .ok names w' ∧ it = ⟨names, 0⟩ := by
  constructor
  · rintro ⟨hnew, hy⟩
    obtain ⟨names', w₁, hrun, hret⟩ := bind_eq_ok hnew
    cases hret
    obtain rfl := hy.unique (NativeIterator.yields_drop names' 0)
    exact ⟨hrun, rfl⟩
  · rintro ⟨hrun, rfl⟩
    exact ⟨Exec.bind_of_ok hrun _, NativeIterator.yields_drop names 0⟩

theorem visitsOnce_iff_exactChain (h : w.Inv layoutPolicy) (ho : o < w.nextObject) :
    VisitsOnce w o ↔ ∃ chain, w.Chain o chain ∧ ExactChain w o chain := by
  have hrun : ∀ {chain}, w.Chain o chain → ∃ w',
      getPropertyNames o false w = .ok (chain.flatMap fun b => ownNames w b false) w' := by
    intro chain hc
    have := hc.length_le h ho
    rw [getPropertyNames, Exec.gets_bind]
    exact getPropertyNamesFrom_chain hc h ho false (by omega)
  constructor
  · rintro ⟨it, w', names, hnew, hy, hnodup, hmem⟩
    obtain ⟨hnames, -⟩ := yields_new_iff.mp ⟨hnew, hy⟩
    obtain ⟨chain, hc⟩ := chain_of_getPropertyNamesFrom h ho hnames
    obtain ⟨w'', hrun⟩ := hrun hc
    cases hnames.symm.trans hrun
    exact ⟨chain, hc, hnodup, hmem⟩
  · rintro ⟨chain, hc, hnodup, hmem⟩
    obtain ⟨w', hrun⟩ := hrun hc
    obtain ⟨hnew, hy⟩ := yields_new_iff.mpr ⟨hrun, rfl⟩
    exact ⟨_, w', _, hnew, hy, hnodup, hmem⟩

/-- An object and its prototype, both with an enumerable property `x`. -/
noncomputable def shadowWorld : World :=
  (((loneWorld .object).after (.on 0 (.put (.key "x") .null true))).after
    (.newUniqueObject (some 0) false .object)).after (.on 1 (.put (.key "x") .null true))

theorem reachable_shadowWorld : Reachable (fun w op => op.KeepsSlots w) shadowWorld := by
  have h₁ := (reachable_loneWorld .object).step (.on 0 (.put (.key "x") .null true))
    (show 0 < 1 by decide) trivial rfl
  have h₂ := h₁.step (.newUniqueObject (some 0) false .object)
    (fun p hp => by cases hp; exact show 0 < 1 by decide) trivial rfl
  exact h₂.step (.on 1 (.put (.key "x") .null true)) (show 1 < 2 by decide) trivial rfl

end Starlight
