import Starlight.Vm.Arguments

/-!
# Mapped arguments along runs

While a function runs, its parameters are assigned to and its arguments object is read, written, redefined
and deleted from, in any order. A linked element and its parameter hold the same value all along, as long
as no step writes to one side behind the other's back: an assignment to a parameter whose element is in
the vector, an assignment by value to the vector, a deletion, and a redefinition that clears the vector.
-/

namespace Starlight

open JsObject World Exec IndexedElements

variable {w w' : World} {o i index : ℕ} {v val : JsValue} {desc : PropertyDescriptor}
  {a a' : Activation} {M : Set ℕ} {display : F64 → String}

/-! ### What a call does -/

def IsValue (v : JsValue) : Prop := v ≠ .empty ∧ v.isAccessorCell = false

/-- A step of a call: an assignment to a parameter, an operation on its arguments object, or whatever
happens elsewhere and leaves the elements of that object alone. -/
inductive ActivationOp where
  | assign (i : ℕ) (val : JsValue)
  | get (name : Symbol) (strict : ℕ → Bool)
  | getByVal (key : JsValue) (strict : ℕ → Bool)
  | put (name : Symbol) (val : JsValue) (throwable : Bool)
  | putByVal (key val : JsValue) (strict : Bool)
  | define (name : Symbol) (desc : PropertyDescriptor) (throwable : Bool)
  | delete (name : Symbol) (throwable : Bool)
  | elsewhere (w : World)

namespace ActivationOp

/-- Run a step; the answer is that of a definition or a deletion. -/
def exec (display : F64 → String) (o : ℕ) : ActivationOp → Act Bool
  | assign i val => do
    Exec.modify fun a => { a with env := a.env.set i val }
    return true
  | get name strict => do
    let _ ← JsArguments.getSlot o name strict
    return true
  | getByVal key strict => do
    let _ ← JsArguments.getByVal display o key strict
    return true
  | put name val throwable => JsArguments.put o name val throwable
  | putByVal key val strict => JsArguments.putByVal display o key val strict
  | define name desc throwable => JsArguments.defineOwnProperty o name desc throwable
  | delete name throwable => JsArguments.delete o name throwable
  | elsewhere w => do
    Exec.modify fun a => { a with world := w }
    return true

/-- Values are values of the language, descriptors are well formed, and the keys of the opcodes are
numbers: `to_symbol` makes a name of any other. -/
def Valid (o : ℕ) (a : Activation) : ActivationOp → Prop
  | put _ val _ => IsValue val
  | putByVal key val _ => key.isNumber = true ∧ IsValue val
  | getByVal key _ => key.isNumber = true
  | define _ desc _ => desc.WellFormed
  | elsewhere w => (w.objects o).indexed = (a.world.objects o).indexed
  | _ => True

/-- The step writes to neither side of a link alone: a parameter whose element is in the vector keeps its
value, and so does the element that an assignment by value finds there; a linked element is not deleted;
a definition with every attribute and no value meets `undefined`. -/
def KeepsLinks (o : ℕ) (a : Activation) : ActivationOp → Prop
  | assign i val => a.mapped i ≠ none →
    (a.world.objects o).indexed.vector.getD i .empty = .empty ∨
      (a.world.objects o).indexed.vector.getD i .empty = val
  | putByVal key val _ => ∀ i, inVector (a.world.objects o).indexed key = some i → a.mapped i ≠ none →
    (a.world.objects o).indexed.vector.getD i .empty = val
  | define (.index i) desc _ => a.mapped i ≠ none → (a.world.objects o).indexed.Clears i desc →
    a.env[i]? = some .undefined
  | delete (.index i) _ => a.mapped i ≠ none →
    ∃ s, (a.world.objects o).indexed.stored i = some s ∧ s.attributes.configurable = false
  | _ => True

/-- The elements that are to stay linked after a step with the answer `b`: a deletion and a redefinition to
an accessor or a read-only property break the link of their element. -/
def links (M : Set ℕ) (b : Bool) : ActivationOp → Set ℕ
  | define (.index i) desc _ => linkedAfter M i desc b
  | delete (.index i) _ => {j | j ∈ M ∧ ¬ (b = true ∧ j = i)}
  | _ => M

end ActivationOp

/-- One step of a call, with the elements that are to be linked before and after it. A fault hands over to
other code, and what that does are further steps. -/
def ActivationStep (display : F64 → String) (o : ℕ) (ok : Activation → ActivationOp → Prop)
    (s s' : Set ℕ × Activation) : Prop :=
  ∃ op : ActivationOp, op.Valid o s.2 ∧ ok s.2 op ∧
    ((∃ b, op.exec display o s.2 = .ok b s'.2 ∧ s'.1 = op.links s.1 b) ∨
      ∃ e, op.exec display o s.2 = .error e s'.2 ∧ s'.1 = s.1)

/-! ### The steps -/

theorem Linked.of_looks {α : Type} {x : Act α} (h : Linked o M a) (hx : Looks o x) :
    (x a).Leaves (Linked o M) := (hx a).mono fun _ => h.congr

theorem createDesc_wellFormed (hval : IsValue val) : (createDesc val).WellFormed where
  kind _ := rfl
  not_empty := rfl
  configurable h := nomatch h
  enumerable h := nomatch h
  writable h := nomatch h
  data _ := .inl rfl
  generic h := nomatch h
  accessor h := nomatch h
  getter h := nomatch h
  setter h := nomatch h
  value _ := hval

theorem assignDesc_wellFormed (hval : IsValue val) : (assignDesc val).WellFormed where
  kind _ := rfl
  not_empty := rfl
  configurable _ := rfl
  enumerable _ := rfl
  writable _ := rfl
  data _ := .inl rfl
  generic h := nomatch h
  accessor h := nomatch h
  getter h := nomatch h
  setter h := nomatch h
  value _ := hval

theorem Linked.define_value (h : Linked o M a) (hwf : desc.WellFormed)
    (hvalue : desc.attrs.undefValue = false) (hkeeps : ¬ desc.Unlinks) (throwable : Bool) :
    (JsArguments.defineOwnIndexedPropertySlot o index desc throwable a).Leaves (Linked o M) := by
  have hdef := h.define index hwf
    (fun _ hc => absurd (hvalue.symm.trans hc.2.2.2) Bool.false_ne_true) throwable
  cases hr : JsArguments.defineOwnIndexedPropertySlot o index desc throwable a with
  | ok b a' =>
    rw [hr] at hdef
    have hM : linkedAfter M index desc b = M := linkedAfter_of_not fun hc => hkeeps hc.2.2
    exact (congrArg (fun M => Linked o M a') hM).mp hdef
  | error e a' => rw [hr] at hdef; exact hdef
  | stuck => trivial
  | diverge => trivial

theorem Linked.putIndexedSlot (h : Linked o M a) (hval : IsValue val) (throwable : Bool) :
    (JsArguments.putIndexedSlot o index val throwable a).Leaves (Linked o M) := by
  unfold JsArguments.putIndexedSlot
  refine leaves_bind (h.of_looks (looks_getIndexedPropertySlot o index _)) fun r a₁ _ h₁ => ?_
  refine leaves_bind (h₁.of_looks (looks_heap fun _ _ => keeps_canPut o r.1 r.2)) fun b a₂ _ h₂ => ?_
  split
  · exact h₂.of_looks (looks_heap fun _ _ => keeps_reject _ _ _)
  split
  · refine leaves_bind (h₂.define_value (assignDesc_wellFormed hval) rfl ?_ throwable) fun _ _ _ h₃ => h₃
    rintro (hc | ⟨-, hc, -⟩) <;> cases hc
  split
  · refine leaves_bind (h₂.of_looks (looks_heap fun _ _ => .bind (keeps_accessor _) fun c =>
      keeps_accessorCell c)) fun _ _ _ h₃ => h₃
  · refine leaves_bind (h₂.define_value (createDesc_wellFormed hval) rfl ?_ throwable) fun _ _ _ h₃ => h₃
    rintro (hc | ⟨-, -, hc⟩) <;> cases hc

theorem looks_put_name {name : Symbol} (hname : ∀ i, name ≠ .index i) (o : ℕ) (val : JsValue)
    (throwable : Bool) : Looks o (JsArguments.put o name val throwable) := by
  unfold JsArguments.put
  split
  · exact absurd rfl (hname _)
  · exact looks_heap fun _ hI => .bind (keeps_getPropertySlot hI o _ _) fun r =>
      .bind (keeps_putFrom fun desc slot =>
        keeps_defineOwnNonIndexedPropertySlotMethod hI o _ desc slot throwable) fun _ => keeps_pure _

theorem Linked.put (h : Linked o M a) (hval : IsValue val) (name : Symbol) (throwable : Bool) :
    (JsArguments.put o name val throwable a).Leaves (Linked o M) := by
  cases name with
  | index i => exact h.putIndexedSlot hval throwable
  | key text | priv id => exact h.of_looks (looks_put_name (fun i h => by cases h) o val throwable)

theorem Linked.writeVector (h : Linked o M a) (hd : (a.world.objects o).indexed.dense = true)
    (hlt : index < (a.world.objects o).indexed.vector.length) (hval : val ≠ .empty)
    (hsame : index ∈ M → (a.world.objects o).indexed.vector.getD index .empty = val) :
    Linked o M { a with world := a.world.withElements o { (a.world.objects o).indexed with
      vector := (a.world.objects o).indexed.vector.set index val } } := by
  set ix := (a.world.objects o).indexed
  have hi : index < maxVectorSize := lt_of_lt_of_le hlt h.tidy.sound.size
  have hle : index < ix.length := lt_of_lt_of_le hlt h.tidy.size
  have heq : ix.storeDense index val ix.nonGc = { ix with vector := ix.vector.set index val } := by
    rw [storeDense, if_pos hlt, max_eq_left (by omega)]
  have hobj := indexed_withElements_self a.world o { ix with vector := ix.vector.set index val }
  refine ⟨?_, h.mapped, h.unmapped, fun i hi' => ?_⟩
  · rw [hobj, ← heq]
    exact h.tidy.storeDense hd hi val _
  · obtain ⟨v, henv, hshow⟩ := h.value i hi'
    refine ⟨v, henv, ?_⟩
    rw [hobj, ← heq]
    by_cases hii : i = index
    · subst hii
      have hv : v = val := by
        rw [← hshow.vector (by rw [hsame hi']; exact hval), hsame hi']
      rw [hv]
      exact .storeDense h.tidy.sound hd hi hval _
    · exact hshow.storeDense_of_ne h.tidy.sound hd hi hval hii _

theorem Linked.putByVal (h : Linked o M a) {key : JsValue} (hval : IsValue val)
    (hkeep : ∀ i, inVector (a.world.objects o).indexed key = some i → a.mapped i ≠ none →
      (a.world.objects o).indexed.vector.getD i .empty = val) (strict : Bool) :
    (JsArguments.putByVal display o key val strict a).Leaves (Linked o M) := by
  unfold JsArguments.putByVal
  rw [gets_bind]
  cases hi : inVector (a.world.objects o).indexed key with
  | none => exact h.put hval _ strict
  | some index =>
    obtain ⟨-, hd, hlt⟩ := inVector_iff.mp hi
    have hrun : Act.heap (modifyIndexed o fun ix => { ix with vector := ix.vector.set index val }) a =
        .ok () { a with world := a.world.withElements o { (a.world.objects o).indexed with
          vector := (a.world.objects o).indexed.vector.set index val } } := rfl
    dsimp only
    rw [bind_of_ok hrun]
    refine h.writeVector hd hlt hval.1 fun hM => hkeep index hi ?_
    rw [h.mapped index hM]
    exact Option.some_ne_none _

theorem Tidy.remove {ix : IndexedElements} (h : ix.Tidy) (index : ℕ) : (ix.remove index).Tidy := by
  refine ⟨h.sound.remove index, ?_⟩
  have hsize := h.size
  rcases h.sound.remove_cases index with ⟨heq, -⟩ | ⟨-, -, heq⟩ | ⟨m, -, -, heq | ⟨-, heq⟩⟩ <;> rw [heq]
  · exact hsize
  · rw [List.length_set]
    exact hsize
  · exact hsize
  · exact hsize

theorem Shows.remove {ix : IndexedElements} (hs : ix.Shows i v) (h : ix.Sound) (hne : i ≠ index) :
    (ix.remove index).Shows i v := by
  refine ⟨?_, ?_⟩
  · rw [h.stored_remove, Function.update_of_ne hne]
    exact hs.present
  · have hvec : (ix.remove index).vector.getD i .empty = ix.vector.getD i .empty := by
      rcases h.remove_cases index with ⟨heq, -⟩ | ⟨-, -, heq⟩ | ⟨m, -, -, heq | ⟨-, heq⟩⟩ <;> rw [heq]
      · rw [getD_set_empty, if_neg hne]
      · rfl
    rw [hvec]
    exact hs.vector

theorem Linked.remove (h : Linked o M a) (hM : index ∉ M) :
    Linked o M { a with world := a.world.withElements o ((a.world.objects o).indexed.remove index) } := by
  have hobj := indexed_withElements_self a.world o ((a.world.objects o).indexed.remove index)
  refine ⟨?_, h.mapped, h.unmapped, fun i hi => ?_⟩
  · rw [hobj]
    exact Tidy.remove h.tidy index
  · obtain ⟨v, henv, hshow⟩ := h.value i hi
    refine ⟨v, henv, ?_⟩
    rw [hobj]
    exact Shows.remove hshow h.tidy.sound fun hc => hM (hc ▸ hi)

theorem Linked.getOwn (h : Linked o M a) (hi : i ∈ M) (slot : Slot) : ∃ s v,
    (a.world.objects o).indexed.stored i = some s ∧ s.attributes.accessor = false ∧
    s.attributes.data = true ∧ a.env[i]? = some v ∧
    JsArguments.getOwnIndexedPropertySlot o i slot a =
      .ok (true, (slot.set1 s.value s.attributes (some o)).set v s.attributes) a := by
  obtain ⟨v, henv, ⟨s, hs, hdata, hacc⟩, -⟩ := h.value i hi
  refine ⟨s, v, hs, hacc, hdata, henv, ?_⟩
  have hrun : Act.heap (getOwnIndexedPropertySlotMethod o i slot) a =
      .ok (true, slot.set1 s.value s.attributes (some o)) a := by
    unfold Act.heap
    rw [getOwnIndexedPropertySlotMethod_eq, hs]
  unfold JsArguments.getOwnIndexedPropertySlot
  rw [bind_of_ok hrun]
  dsimp only
  rw [if_neg (by simp), gets_bind, h.mapped i hi, Option.map_some, henv]
  rfl

/-- **The step lemma of a deletion.** -/
theorem Linked.delete (h : Linked o M a) (hkeep : a.mapped index ≠ none →
      ∃ s, (a.world.objects o).indexed.stored index = some s ∧ s.attributes.configurable = false)
    (throwable : Bool) :
    (JsArguments.delete o (.index index) throwable a).Ends
      (fun b a' => Linked o {j | j ∈ M ∧ ¬ (b = true ∧ j = index)} a') (Linked o M) := by
  unfold JsArguments.delete
  by_cases hM : index ∈ M
  · -- the deletion is refused
    obtain ⟨s, v, hs, -, -, -, hown⟩ := h.getOwn hM Slot.new
    obtain ⟨s', hs', hconf⟩ := hkeep (by rw [h.mapped index hM]; exact Option.some_ne_none _)
    cases hs.symm.trans hs'
    dsimp only
    rw [bind_of_ok hown]
    dsimp only
    rw [if_neg (by simp), if_pos (by simp [Slot.attributes, Slot.set, hconf])]
    cases throwable with
    | true => exact h
    | false =>
      have hfalse : {j | j ∈ M ∧ ¬ (false = true ∧ j = index)} = M := by simp
      change Linked o {j | j ∈ M ∧ ¬ (false = true ∧ j = index)} a
      rw [hfalse]
      exact h
  · have hsame : ∀ b : Bool, {j | j ∈ M ∧ ¬ (b = true ∧ j = index)} = M := fun b => by
      ext j
      refine ⟨fun hj => hj.1, fun hj => ⟨hj, ?_⟩⟩
      rintro ⟨-, rfl⟩
      exact hM hj
    simp only [hsame]
    refine ends_bind (I := Linked o M) (h.of_looks (looks_getOwnIndexedPropertySlot o index _))
      (fun _ h => h) fun r a₁ _ h₁ => ?_
    split
    · exact h₁
    split
    · exact (h₁.of_looks (looks_heap fun _ _ => keeps_reject throwable _ false)).ends
    · by_cases hf : (a₁.world.objects o).indexed.fixed index = true
      · have hrun : Act.heap (deleteIndexedInternal o index throwable) a₁ =
            Act.heap (Vm.reject throwable "trying to delete non-configurable property" false) a₁ := by
          unfold Act.heap
          rw [deleteIndexedInternal_eq, if_pos hf]
        rw [hrun]
        exact (h₁.of_looks (looks_heap fun _ _ => keeps_reject throwable _ false)).ends
      · have hrun : Act.heap (deleteIndexedInternal o index throwable) a₁ = .ok true { a₁ with
            world := a₁.world.withElements o ((a₁.world.objects o).indexed.remove index) } := by
          unfold Act.heap
          rw [deleteIndexedInternal_eq, if_neg hf]
        rw [hrun]
        exact h₁.remove hM

/-! ### Runs -/

theorem Linked.defineOwnProperty (h : Linked o M a) {name : Symbol} {throwable : Bool}
    (hwf : desc.WellFormed) (hkeep : (ActivationOp.define name desc throwable).KeepsLinks o a) :
    (JsArguments.defineOwnProperty o name desc throwable a).Ends
      (fun b a' => Linked o ((ActivationOp.define name desc throwable).links M b) a') (Linked o M) := by
  cases name with
  | index i =>
    refine h.define i hwf (fun hM => hkeep ?_) throwable
    rw [h.mapped i hM]
    exact Option.some_ne_none _
  | _ => exact (h.of_looks (looks_heap fun _ hI =>
      .bind (keeps_defineOwnNonIndexedPropertySlotMethod hI o _ desc _ throwable) fun _ => keeps_pure _)).ends

theorem Linked.step {s s' : Set ℕ × Activation} (h : Linked o s.1 s.2)
    (hstep : ActivationStep display o (ActivationOp.KeepsLinks o) s s') : Linked o s'.1 s'.2 := by
  obtain ⟨M, a⟩ := s
  obtain ⟨M', a'⟩ := s'
  obtain ⟨op, hvalid, hkeep, hrun⟩ := hstep
  have hends : (op.exec display o a).Ends (fun b a' => Linked o (op.links M b) a') (Linked o M) := by
    cases op with
    | assign i val =>
      refine ⟨h.tidy, h.mapped, h.unmapped, fun j hj => ?_⟩
      obtain ⟨v, henv, hshow⟩ := h.value j hj
      have hlt : j < a.env.length := (List.getElem?_eq_some_iff.mp henv).1
      by_cases hji : j = i
      · subst hji
        refine ⟨val, List.getElem?_set_self hlt, hshow.present, fun hne => ?_⟩
        refine (hkeep ?_).resolve_left hne
        rw [h.mapped j hj]
        exact Option.some_ne_none _
      · exact ⟨v, (List.getElem?_set_ne (Ne.symm hji)).trans henv, hshow⟩
    | get name strict =>
      exact (h.of_looks (.bind (looks_getSlot o name strict) fun _ => looks_pure true)).ends
    | getByVal key strict =>
      exact (h.of_looks (.bind (looks_getByVal display o key strict) fun _ => looks_pure true)).ends
    | put name val throwable => exact (h.put hvalid name throwable).ends
    | putByVal key val strict => exact (h.putByVal hvalid.2 hkeep strict).ends
    | define name desc throwable => exact h.defineOwnProperty hvalid hkeep
    | delete name throwable =>
      cases name with
      | index i => exact h.delete hkeep throwable
      | key text | priv id => exact (h.of_looks (looks_heap fun _ hI =>
          keeps_deleteNonIndexed hI o _ throwable)).ends
    | elsewhere w => exact h.congr ⟨rfl, rfl, hvalid⟩
  rcases hrun with ⟨b, hrun, rfl⟩ | ⟨e, hrun, rfl⟩
  · rw [show op.exec display o a = .ok b a' from hrun] at hends
    exact hends
  · rw [show op.exec display o a = .error e a' from hrun] at hends
    exact hends

/-! ### The start of a call -/

/-- An arguments object that has got its first `n` elements. -/
structure Filling (o n : ℕ) (w : World) : Prop where
  extensible : (w.objects o).extensible = true
  dense : (w.objects o).indexed.dense = true
  writable : (w.objects o).indexed.writable = true
  tidy : (w.objects o).indexed.Tidy
  rest : ∀ i, n ≤ i → (w.objects o).indexed.sparse i = none

theorem extensible_withElements (w : World) (o : ℕ) (ix : IndexedElements) :
    ((w.withElements o ix).objects o).extensible = (w.objects o).extensible := by
  simp [World.withElements]

theorem extensible_moved (w : World) (o : ℕ) (σ : Shapes) (s : ℕ) :
    ((w.moved o σ s).objects o).extensible = (w.objects o).extensible := by
  simp [World.moved]

theorem Filling.define_eq {n : ℕ} (h : Filling o n w) (val : JsValue) (throwable : Bool) :
    ∃ (w' : World) (ix : IndexedElements),
      defineOwnIndexedPropertyInternal o n (createDesc val) throwable w =
        .ok true (w'.withElements o ix) ∧ (w'.objects o).extensible = true ∧ ix.dense = true ∧
      ix.writable = true ∧ (∀ i, n < i → ix.sparse i = none) ∧
      ((n < maxVectorSize ∧ ∃ nonGc, ix = (w.objects o).indexed.storeDense n val nonGc) ∨
        ix.sparse n = some ⟨val, objectData⟩ ∧ n < ix.length ∧ maxVectorSize ≤ n) := by
  have hdefault : (createDesc val).attrs.isDefault = true := rfl
  have hroom :
      ¬ (decide ((w.objects o).indexed.length ≤ n) && !(w.objects o).indexed.writable) = true := by
    simp [h.writable]
  unfold defineOwnIndexedPropertyInternal
  rw [Vm.object_bind, if_neg hroom]
  by_cases hn : n < maxVectorSize
  · obtain ⟨σ, s, nonGc, -, heq⟩ := defineOwnIndexeValueDenseInternal_eq o n val false w
    refine ⟨w.moved o σ s, (w.objects o).indexed.storeDense n val nonGc, ?_, ?_, h.dense, h.writable,
      fun i hi => h.rest i hi.le, .inl ⟨hn, nonGc, rfl⟩⟩
    · rw [if_pos (by simp [h.dense, hdefault, hn])]
      exact bind_of_ok heq _
    · rw [extensible_moved]
      exact h.extensible
  · rw [if_neg (by simp [hn]), if_neg (by simp [hdefault])]
    have honly : ((w.objects o).indexed.dense && !(createDesc val).attrs.isDefault &&
        decide (n < maxVectorSize)) = false := by
      rw [hdefault]
      simp
    rw [honly]
    change ∃ w' ix, defineOwnIndexedSparse o n (createDesc val) throwable w = _ ∧ _
    obtain ⟨σ, s, nonGc, -, hrun⟩ :=
      defineOwnIndexedSparse_create (h.rest n le_rfl) h.extensible val throwable
    have hsparse : ∀ (len i : ℕ), IndexedElements.sparse
        { (w.objects o).indexed with map := some ((w.objects o).indexed.map.getD ∅), length := len } i =
        (w.objects o).indexed.sparse i := fun _ i => congrFun (sparse_getD_map _) i
    refine ⟨_, _, hrun, (extensible_moved ..).trans h.extensible, h.dense, h.writable, fun i hi => ?_,
      .inr ⟨?_, lt_of_lt_of_le (Nat.lt_succ_self n) (le_max_right _ _), Nat.le_of_not_lt hn⟩⟩
    · rw [sparse_storeSparse, if_neg (by omega), hsparse]
      exact h.rest i hi.le
    · rw [sparse_storeSparse, if_pos rfl]

theorem Filling.define {n : ℕ} (h : Filling o n w) (hval : IsValue val) (throwable : Bool) :
    ∃ w', defineOwnIndexedPropertyInternal o n (createDesc val) throwable w = .ok true w' ∧
      Filling o (n + 1) w' ∧ (w'.objects o).indexed.Shows n val ∧
      ∀ i v, i ≠ n → (w.objects o).indexed.Shows i v → (w'.objects o).indexed.Shows i v := by
  obtain ⟨w', ix, hrun, hext, hd, hwr, hrest, hnew⟩ := h.define_eq val throwable
  have hends := ends_define o n h.tidy (createDesc_wellFormed hval) throwable
  rw [hrun] at hends
  have hr : (w.objects o).indexed.Redefined ((w'.withElements o ix).objects o).indexed n
      (createDesc val) true := hends
  refine ⟨_, hrun, ?_, ?_, hr.other⟩
  · refine ⟨(extensible_withElements w' o ix).trans hext, ?_, ?_, hr.tidy, fun i hi => ?_⟩ <;>
      rw [indexed_withElements_self]
    · exact hd
    · exact hwr
    · exact hrest i hi
  · have ht := hr.tidy
    rw [indexed_withElements_self] at ht ⊢
    rcases hnew with ⟨hn, nonGc, rfl⟩ | ⟨hs, hlt, hmax⟩
    · exact .storeDense h.tidy.sound h.dense hn hval.1 nonGc
    · refine ⟨⟨⟨val, objectData⟩, ?_, rfl, rfl⟩, fun hne => ?_⟩
      · rw [ht.sound.stored_map fun _ => hmax, if_pos hlt]
        exact hs
      · exact absurd (ht.sound.getD_of_map fun _ => hmax) hne

theorem Filling.defineInit {n : ℕ} (vs : List JsValue) (hvs : ∀ v ∈ vs, IsValue v)
    (h : Filling o n a.world) (hmap : a.mapping = []) :
    ∃ w', JsArguments.defineInit o n vs a = .ok () { a with world := w' } ∧
      (w'.objects o).indexed.Tidy ∧
      (∀ i v, vs[i]? = some v → (w'.objects o).indexed.Shows (n + i) v) ∧
      ∀ i v, i < n → (a.world.objects o).indexed.Shows i v → (w'.objects o).indexed.Shows i v := by
  induction vs generalizing n a with
  | nil => exact ⟨a.world, rfl, h.tidy, fun i v hi => (nomatch hi), fun _ _ _ hs => hs⟩
  | cons v vs ih =>
    obtain ⟨w₁, hdef, h₁, hshow, hother⟩ := h.define (hvs v List.mem_cons_self) false
    have hrun : JsArguments.defineOwnIndexedPropertySlot o n (createDesc v) false a =
        .ok true { a with world := w₁ } := by
      have hheap : Act.heap (Act.caught (defineOwnIndexedPropertyInternal o n (createDesc v) false)) a =
          .ok true { a with world := w₁ } := by
        unfold Act.heap Act.caught
        rw [hdef]
      have hnone : ({ a with world := w₁ } : Activation).mapped n = none := by
        unfold Activation.mapped
        rw [hmap]
        rfl
      unfold JsArguments.defineOwnIndexedPropertySlot
      rw [bind_of_ok hheap, if_pos rfl, modify_bind]
      unfold JsArguments.redefine
      rw [hnone]
      rfl
    obtain ⟨w', hinit, h', hnew, hold⟩ := ih (a := { a with world := w₁ })
      (fun u hu => hvs u (List.mem_cons_of_mem v hu)) h₁ hmap
    refine ⟨w', ?_, h', fun i u hi => ?_, fun i u hi hs => hold i u (by omega) (hother i u (by omega) hs)⟩
    · unfold JsArguments.defineInit
      rw [bind_of_ok hrun]
      exact hinit
    · cases i with
      | zero =>
        cases hi
        exact hold n v (Nat.lt_succ_self n) hshow
      | succ i =>
        have := hnew i u hi
        rwa [Nat.add_right_comm] at this

/-- The parameters of a call: an argument that is missing is `undefined`. -/
def parameters (paramCount : ℕ) (args : List JsValue) : List JsValue :=
  (List.range paramCount).map fun i => args.getD i .undefined

theorem linked_new {s paramCount : ℕ} {args : List JsValue} (hargs : ∀ v ∈ args, IsValue v)
    (hnew : JsArguments.new s paramCount args ⟨w, [], parameters paramCount args⟩ = .ok o a) :
    Linked o {i | i < min paramCount args.length} a := by
  obtain ⟨w₁, hobj, hfill⟩ : ∃ w₁, JsObject.new s .object w = .ok w.nextObject w₁ ∧
      Filling w.nextObject 0 w₁ := by
    refine ⟨_, rfl, ?_, ?_, ?_, ?_, fun i _ => ?_⟩ <;> dsimp only <;> rw [Function.update_self]
    · rfl
    · rfl
    · exact tidy_new
    · rfl
  have hcreate : Act.heap (JsObject.new s .object) ⟨w, [], parameters paramCount args⟩ =
      .ok w.nextObject ⟨w₁, [], parameters paramCount args⟩ := by
    unfold Act.heap
    rw [hobj]
  obtain ⟨w₂, hinit, ht, hshow, -⟩ := Filling.defineInit
    (a := ⟨w₁, [], parameters paramCount args⟩) (args.take paramCount)
    (fun v hv => hargs v (List.mem_of_mem_take hv)) hfill rfl
  unfold JsArguments.new at hnew
  rw [bind_of_ok hcreate, bind_of_ok hinit] at hnew
  obtain ⟨u, a₃, hput, hmap⟩ := bind_eq_ok hnew
  have hname : ∀ i, Symbol.length ≠ .index i := fun i h => nomatch h
  have hsame := looks_ignored (looks_put_name hname w.nextObject
    (.int32 (BitVec.ofNat 32 args.length)) false) ⟨w₂, [], parameters paramCount args⟩
  rw [hput] at hsame
  cases hmap
  have hmapped : ∀ i, (⟨a₃.world, (List.range (min paramCount args.length)).map some, a₃.env⟩ :
      Activation).mapped i = if i < min paramCount args.length then some i else none := fun i => by
    unfold Activation.mapped
    rw [List.getElem?_map]
    split
    · next hi => rw [List.getElem?_range hi]; rfl
    · next hi => rw [List.getElem?_eq_none (by rw [List.length_range]; omega)]; rfl
  refine ⟨?_, fun i hi => ?_, fun i hi => ?_, fun i hi => ?_⟩
  · change IndexedElements.Tidy (a₃.world.objects _).indexed
    rw [hsame.indexed]
    exact ht
  · exact (hmapped i).trans (if_pos hi)
  · exact (hmapped i).trans (if_neg hi)
  · obtain ⟨hparam, harg⟩ := Nat.lt_min.mp hi
    obtain ⟨v, hvalue⟩ : ∃ v, args[i]? = some v := ⟨_, List.getElem?_eq_getElem harg⟩
    refine ⟨v, ?_, ?_⟩
    · change a₃.env[i]? = _
      rw [hsame.env]
      change (parameters paramCount args)[i]? = _
      rw [parameters, List.getElem?_map, List.getElem?_range hparam, Option.map_some,
        List.getD_eq_getElem?_getD, hvalue, Option.getD_some]
    · change IndexedElements.Shows (a₃.world.objects _).indexed i _
      rw [hsame.indexed, ← Nat.zero_add i]
      refine hshow i _ ?_
      rw [List.getElem?_take_of_lt hparam, hvalue]

/-! ### Both sides of a link -/

/-- The elements in `M`, and no others, are mapped, each to the parameter of the same number, and reading it
by name or by value gives that parameter's value. -/
structure ArgumentsInSync (display : F64 → String) (o : ℕ) (M : Set ℕ) (a : Activation) : Prop where
  mapped : ∀ i ∈ M, a.mapped i = some i
  unmapped : ∀ i, i ∉ M → a.mapped i = none
  get : ∀ i ∈ M, ∃ v, a.env[i]? = some v ∧ ∀ strict,
    (∃ slot, JsArguments.getSlot o (.index i) strict a = .ok (v, slot) a) ∧
    ∀ key, key.isNumber = true → toSymbol display key = .index i →
      JsArguments.getByVal display o key strict a = .ok v a

theorem index_of_toSymbol {key : JsValue} (h : toSymbol display key = .index i) :
    key.getNumber.toU32 = i := by
  unfold toSymbol at h
  dsimp only at h
  split at h
  · injection h
  · cases h

theorem Linked.getSlot (h : Linked o M a) (hi : i ∈ M) (strict : ℕ → Bool) : ∃ v slot,
    a.env[i]? = some v ∧ JsArguments.getSlot o (.index i) strict a = .ok (v, slot) a ∧
      Act.heap (slot.stored.get (.object o)) a = .ok v a := by
  obtain ⟨s, v, -, hacc, -, henv, hown⟩ := h.getOwn hi Slot.new
  set slot := (Slot.new.set1 s.value s.attributes (some o)).set v s.attributes with hslot
  have hread : slot.stored.get (.object o) a.world = .ok v a.world := by
    rw [show slot.stored = ⟨v, s.attributes⟩ from rfl]
    unfold StoredSlot.get
    rw [if_neg (by simp [hacc])]
    rfl
  have hget : Act.heap (slot.stored.get (.object o)) a = .ok v a := by
    unfold Act.heap
    rw [hread]
  have hlook : JsArguments.getIndexedPropertySlot o i Slot.new a = .ok (true, slot) a := by
    unfold JsArguments.getIndexedPropertySlot
    rw [bind_of_ok hown]
    rfl
  refine ⟨v, slot, henv, ?_, hget⟩
  unfold JsArguments.getSlot
  dsimp only
  rw [bind_of_ok hlook]
  exact bind_of_ok (f := fun v => (pure (v, slot) : Act _)) hget

theorem Linked.inSync (h : Linked o M a) (display : F64 → String) : ArgumentsInSync display o M a := by
  refine ⟨h.mapped, h.unmapped, fun i hi => ?_⟩
  obtain ⟨v, henv, hshow⟩ := h.value i hi
  refine ⟨v, henv, fun strict => ?_⟩
  obtain ⟨v', slot, henv', hget, hread⟩ := h.getSlot hi strict
  cases henv.symm.trans henv'
  refine ⟨⟨slot, hget⟩, fun key _ hkey => ?_⟩
  unfold JsArguments.getByVal
  rw [gets_bind]
  cases hshort : getByValShortcut (a.world.objects o).indexed key with
  | none =>
    dsimp only
    rw [hkey, bind_of_ok hget]
    exact hread
  | some val =>
    -- the shortcut reads the vector under the same index
    obtain ⟨j, hj, hval, hne⟩ := inVector_of_shortcut h.tidy.sound hshort
    have hji : j = i := (toU32_of_inVector h.tidy.sound hj).symm.trans (index_of_toSymbol hkey)
    subst hji
    rw [hval] at hne
    rw [hval, hshow.vector hne]
    rfl

theorem ActivationOp.links_subset (op : ActivationOp) (M : Set ℕ) (b : Bool) : op.links M b ⊆ M := by
  intro i hi
  cases op with
  | define name desc throwable | delete name throwable =>
    cases name with
    | index j => exact hi.1
    | _ => exact hi
  | _ => exact hi

theorem ActivationStep.subset {ok : Activation → ActivationOp → Prop} {s s' : Set ℕ × Activation}
    (h : ActivationStep display o ok s s') : s'.1 ⊆ s.1 := by
  obtain ⟨op, -, -, ⟨b, -, hM⟩ | ⟨e, -, hM⟩⟩ := h
  · rw [hM]
    exact op.links_subset s.1 b
  · rw [hM]

theorem Linked.run {s s' : Set ℕ × Activation} (h : Linked o s.1 s.2)
    (hrun : Relation.ReflTransGen (ActivationStep display o (ActivationOp.KeepsLinks o)) s s') :
    Linked o s'.1 s'.2 ∧ s'.1 ⊆ s.1 := by
  induction hrun with
  | refl => exact ⟨h, subset_rfl⟩
  | tail _ hstep ih => exact ⟨ih.1.step hstep, hstep.subset.trans ih.2⟩

/-- **Mapped arguments stay in sync** along every run of steps that keep the links: the element and the
parameter hold the same value as long as no deletion and no redefinition to an accessor or a read-only
property has broken the link, and only elements that have both a parameter and an argument are linked. -/
theorem mapped_arguments_run {s paramCount : ℕ} {args : List JsValue} {a₁ : Activation}
    (hargs : ∀ v ∈ args, IsValue v)
    (hnew : JsArguments.new s paramCount args ⟨w, [], parameters paramCount args⟩ = .ok o a₁)
    (hrun : Relation.ReflTransGen (ActivationStep display o (ActivationOp.KeepsLinks o))
      ({i | i < min paramCount args.length}, a₁) (M, a)) :
    ArgumentsInSync display o M a ∧ ∀ i ∈ M, i < paramCount ∧ i < args.length := by
  obtain ⟨hlinked, hsub⟩ :=
    (linked_new hargs hnew).run (s := ({i | i < min paramCount args.length}, a₁)) hrun
  exact ⟨hlinked.inSync display, fun i hi => Nat.lt_min.mp (hsub hi)⟩

def nullCall : Activation :=
  match JsArguments.new 0 1 [.null] ⟨objectWorld, [], parameters 1 [.null]⟩ with
  | .ok _ a => a
  | _ => ⟨objectWorld, [], []⟩

theorem new_nullCall :
    JsArguments.new 0 1 [.null] ⟨objectWorld, [], parameters 1 [.null]⟩ = .ok 1 nullCall := rfl

theorem isValue_null : ∀ v ∈ [JsValue.null], IsValue v := fun v hv => by
  rw [List.mem_singleton] at hv
  subst hv
  exact ⟨nofun, rfl⟩

/-- The element is assigned to through the method table. -/
def putCall : Activation :=
  match JsArguments.put 1 (.index 0) .undefined true nullCall with
  | .ok _ a => a
  | _ => nullCall

theorem mapped_arguments_run_putCall :
    ArgumentsInSync (fun _ => "") 1 {i | i < min 1 [JsValue.null].length} putCall ∧
      ∀ i ∈ {i | i < min 1 [JsValue.null].length}, i < 1 ∧ i < [JsValue.null].length :=
  mapped_arguments_run isValue_null new_nullCall
    (.single ⟨.put (.index 0) .undefined true, ⟨nofun, rfl⟩, trivial, .inl ⟨true, rfl, rfl⟩⟩)

/-- Once the parameter is assigned to, reading the element by value still gives `null`. -/
theorem not_mapped_arguments_run : ¬ ∀ (display : F64 → String) (w : World) (s paramCount o : ℕ)
    (args : List JsValue) (a₁ : Activation), (∀ v ∈ args, IsValue v) →
    JsArguments.new s paramCount args ⟨w, [], parameters paramCount args⟩ = .ok o a₁ →
    ∀ M a, Relation.ReflTransGen (ActivationStep display o fun _ _ => True)
      ({i | i < min paramCount args.length}, a₁) (M, a) → ArgumentsInSync display o M a := by
  intro h
  have hsync := h (fun _ => "") objectWorld 0 1 1 [.null] nullCall isValue_null new_nullCall
    {i | i < min 1 1} { nullCall with env := nullCall.env.set 0 .undefined }
    (.single ⟨.assign 0 .undefined, trivial, trivial, .inl ⟨true, rfl, rfl⟩⟩)
  obtain ⟨v, henv, hget⟩ := hsync.get 0 (show 0 < min 1 1 by decide)
  cases henv
  have hread := (hget fun _ => false).2 (.int32 0) rfl (by decide)
  cases hread

end Starlight
