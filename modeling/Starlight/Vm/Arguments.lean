import Starlight.Vm.ByVal

/-!
# The arguments object

The arguments object of a call is linked to the parameters: `mapping` says which slot of the environment
stands behind an element. Lookups and definitions of elements go through the overrides of `JsArguments`,
which read and write that slot; the vector and the map of the object keep a value of their own. The two
stay together as long as nothing goes past the overrides to the vector, and no linked element is deleted.
-/

namespace Starlight

open JsObject World Exec

variable {w w' : World} {o i index : ℕ} {ix ix' : IndexedElements} {v val : JsValue}
  {desc : PropertyDescriptor}

/-! ### Two ways to end -/

/-- A normal end satisfies `Q`, the state in which a fault occurred `E`. -/
def Result.Ends {ε σ α : Type} (Q : α → σ → Prop) (E : σ → Prop) : Result ε σ α → Prop
  | .ok a s => Q a s
  | .error _ s => E s
  | .stuck => True
  | .diverge => True

theorem ends_bind {ε σ α β : Type} {x : Exec ε σ α} {f : α → Exec ε σ β} {s : σ} {I E : σ → Prop}
    {Q : β → σ → Prop} (hx : (x s).Leaves I) (hE : ∀ s, I s → E s)
    (hf : ∀ a s', x s = .ok a s' → I s' → (f a s').Ends Q E) : ((x >>= f) s).Ends Q E := by
  rw [Exec.bind_apply]
  cases h : x s with
  | ok a s' => rw [h] at hx; exact hf a s' h hx
  | error e s' => rw [h] at hx; exact hE s' hx
  | stuck => trivial
  | diverge => trivial

theorem Result.Ends.mono {ε σ α : Type} {Q Q' : α → σ → Prop} {E E' : σ → Prop} {r : Result ε σ α}
    (h : r.Ends Q E) (hQ : ∀ a s, Q a s → Q' a s) (hE : ∀ s, E s → E' s) : r.Ends Q' E' := by
  cases r with
  | ok a s => exact hQ a s h
  | error e s => exact hE s h
  | stuck => trivial
  | diverge => trivial

theorem Result.Leaves.ends {ε σ α : Type} {I : σ → Prop} {r : Result ε σ α} (h : r.Leaves I) :
    r.Ends (fun _ => I) I := by
  cases r with
  | ok a s => exact h
  | error e s => exact h
  | stuck => trivial
  | diverge => trivial

/-! ### Elements that a definition leaves -/

namespace IndexedElements

/-- The elements of an object that is no array: the vector does not pass the length. -/
structure Tidy (ix : IndexedElements) : Prop where
  sound : ix.Sound
  size : ix.vector.length ≤ ix.length

/-- Element `i` is a data property, and what the vector holds there, if anything, is `v`. -/
structure Shows (ix : IndexedElements) (i : ℕ) (v : JsValue) : Prop where
  present : ∃ s, ix.stored i = some s ∧ s.attributes.data = true ∧ s.attributes.accessor = false
  vector : ix.vector.getD i .empty ≠ .empty → ix.vector.getD i .empty = v

/-- A definition that gives every attribute but no value is written to the vector as `undefined`. -/
def Clears (ix : IndexedElements) (index : ℕ) (desc : PropertyDescriptor) : Prop :=
  ix.dense = true ∧ index < maxVectorSize ∧ desc.attrs.isDefault = true ∧ desc.attrs.undefValue = true

/-- What a definition with the answer `b` leaves. -/
structure Redefined (ix ix' : IndexedElements) (index : ℕ) (desc : PropertyDescriptor) (b : Bool) :
    Prop where
  tidy : ix'.Tidy
  other : ∀ i v, i ≠ index → ix.Shows i v → ix'.Shows i v
  self : ∀ v, ix.Shows index v → (b = true → desc.attrs.accessor = false) →
    (ix.Clears index desc → v = .undefined) →
    ix'.Shows index (if b && !desc.attrs.undefValue then desc.fst else v)

/-- What a definition in the map leaves: nothing of the element is in the vector. -/
structure Entered (ix ix' : IndexedElements) (index : ℕ) (desc : PropertyDescriptor) (b : Bool) :
    Prop where
  tidy : ix'.Tidy
  other : ∀ i v, i ≠ index → ix.Shows i v → ix'.Shows i v
  self : ∀ v v', ix.Shows index v → (b = true → desc.attrs.accessor = false) → ix'.Shows index v'

theorem Entered.redefined {b : Bool} (h : ix.Entered ix' index desc b) :
    ix.Redefined ix' index desc b :=
  ⟨h.tidy, h.other, fun v hs ha _ => h.self v _ hs ha⟩

theorem tidy_new : new.Tidy := ⟨sound_new, Nat.le_refl 0⟩

theorem Tidy.redefined_self (h : ix.Tidy) {b : Bool} (hb : b = true → desc.attrs.undefValue = true) :
    ix.Redefined ix index desc b := by
  refine ⟨h, fun _ _ _ hs => hs, fun v hs _ _ => ?_⟩
  rw [if_neg]
  · exact hs
  · intro hc
    obtain ⟨hb', hu⟩ := Bool.and_eq_true_iff.mp hc
    rw [hb hb'] at hu
    cases hu

theorem Tidy.storeDense (h : ix.Tidy) (hd : ix.dense = true) (hi : index < maxVectorSize) (v : JsValue)
    (nonGc : Bool) : (ix.storeDense index v nonGc).Tidy := by
  refine ⟨h.sound.storeDense hd hi v nonGc, ?_⟩
  have := h.size
  rw [length_storeDense]
  change _ ≤ max ix.length (index + 1)
  omega

theorem Shows.storeDense (h : ix.Sound) (hd : ix.dense = true) (hi : index < maxVectorSize)
    (hv : v ≠ .empty) (nonGc : Bool) : (ix.storeDense index v nonGc).Shows index v := by
  refine ⟨⟨⟨v, objectData⟩, ?_, rfl, rfl⟩, fun _ => ?_⟩
  · rw [h.stored_storeDense hd hi hv, Function.update_self]
  · rw [getD_storeDense, if_pos rfl]

theorem Shows.storeDense_of_ne (hs : ix.Shows i v) (h : ix.Sound) (hd : ix.dense = true)
    (hi : index < maxVectorSize) (hval : val ≠ .empty) (hne : i ≠ index) (nonGc : Bool) :
    (ix.storeDense index val nonGc).Shows i v := by
  refine ⟨?_, ?_⟩
  · rw [h.stored_storeDense hd hi hval, Function.update_of_ne hne]
    exact hs.present
  · rw [getD_storeDense, if_neg hne]
    exact hs.vector

theorem Tidy.redefined_storeDense (h : ix.Tidy) (hd : ix.dense = true) (hi : index < maxVectorSize)
    (hval : desc.attrs.undefValue = false → desc.fst ≠ .empty)
    (hclear : desc.attrs.undefValue = true → ix.Clears index desc) (nonGc : Bool) :
    ix.Redefined (ix.storeDense index (if desc.attrs.undefValue then .undefined else desc.fst) nonGc)
      index desc true := by
  have hne : (if desc.attrs.undefValue then JsValue.undefined else desc.fst) ≠ .empty := by
    split
    · exact fun hc => nomatch hc
    · next hu => exact hval (by simpa using hu)
  refine ⟨h.storeDense hd hi _ nonGc, fun i v hi' hs => hs.storeDense_of_ne h.sound hd hi hne hi' nonGc,
    fun v hs _ hv => ?_⟩
  have hshow := Shows.storeDense h.sound hd hi hne nonGc
  cases hu : desc.attrs.undefValue with
  | true =>
    obtain rfl := hv (hclear hu)
    rw [hu] at hshow
    exact hshow
  | false =>
    rw [hu] at hshow
    exact hshow

theorem Tidy.makeSparse (h : ix.Tidy) : ix.makeSparse.Tidy := by
  refine ⟨h.sound.makeSparse, ?_⟩
  change (List.replicate _ _).length ≤ ix.length
  rw [List.length_replicate]
  exact h.size

theorem Shows.makeSparse (hs : ix.Shows i v) (h : ix.Sound) (hd : ix.dense = true) (v' : JsValue) :
    ix.makeSparse.Shows i v' := by
  refine ⟨?_, fun hne => absurd (getD_makeSparse ix i) hne⟩
  rw [h.stored_makeSparse hd]
  exact hs.present

theorem Sound.getD_of_map (h : ix.Sound) (hd : ix.dense = true → maxVectorSize ≤ i) :
    ix.vector.getD i .empty = .empty := by
  by_contra hne
  have hmax := hd (h.vector i hne).1
  exact hne (getD_of_le (le_trans h.size hmax))

theorem stored_getD_map (ix : IndexedElements) :
    ({ ix with map := some (ix.map.getD ∅) } : IndexedElements).stored = ix.stored := by
  funext i
  unfold stored
  rw [sparse_getD_map]

theorem stored_raiseLength {s : StoredSlot} (hs : ix.stored i = some s) (h : ix.Sound) (index : ℕ) :
    (if ix.length ≤ index then ix.setLength (index + 1) else ix).stored i = some s := by
  have hlt := h.lt_of_stored hs
  split
  · next hle =>
    rw [← hs]
    unfold stored IndexedElements.setLength
    dsimp only
    rw [if_pos (show i < index + 1 by omega), if_pos hlt]
    rfl
  · exact hs

theorem stored_storeSparse_of_ne (ix : IndexedElements) (hne : i ≠ index) (s : StoredSlot)
    (nonGc : Bool) : (ix.storeSparse index s nonGc).stored i = ix.stored i := by
  unfold stored
  rw [sparse_storeSparse, if_neg hne]
  rfl

theorem Tidy.entered_storeSparse (h : ix.Tidy) (hd : ix.dense = true → maxVectorSize ≤ index)
    {s : StoredSlot} (hcell : s.attributes.accessor = true → s.value ≠ .empty)
    (hkind : ∀ v, ix.Shows index v → desc.attrs.accessor = false →
      s.attributes.data = true ∧ s.attributes.accessor = false) (nonGc : Bool) :
    ix.Entered (ix.storeSparse index s nonGc) index desc true := by
  refine ⟨⟨h.sound.storeSparse hd hcell nonGc, h.size⟩, fun i v hne hs => ⟨?_, hs.vector⟩,
    fun v v' hs ha => ⟨⟨s, ?_, hkind v hs (ha rfl)⟩, fun hne => ?_⟩⟩
  · rw [stored_storeSparse_of_ne ix hne]
    exact hs.present
  · obtain ⟨s₀, hs₀, -⟩ := hs.present
    rw [h.sound.stored_storeSparse hd hcell nonGc (h.sound.lt_of_stored hs₀), Function.update_self]
  · exact absurd (h.sound.getD_of_map hd) hne

theorem Shows.congr (hs : ix.Shows i v) (hst : ∀ s, ix.stored i = some s → ix'.stored i = some s)
    (hv : ix'.vector = ix.vector) : ix'.Shows i v := by
  obtain ⟨s, hstored, hkind⟩ := hs.present
  refine ⟨⟨s, hst s hstored, hkind⟩, ?_⟩
  rw [hv]
  exact hs.vector

theorem Entered.of_kept {ix₀ : IndexedElements} {b : Bool} (h : ix.Entered ix' index desc b)
    (hk : ∀ i v, ix₀.Shows i v → ix.Shows i v) : ix₀.Entered ix' index desc b :=
  ⟨h.tidy, fun i v hne hs => h.other i v hne (hk i v hs), fun v v' hs => h.self v v' (hk index v hs)⟩

theorem Tidy.entered_self (h : ix.Tidy) (hd : ix.dense = true → maxVectorSize ≤ index) (b : Bool) :
    ix.Entered ix index desc b :=
  ⟨h, fun _ _ _ hs => hs, fun _ _ hs _ => ⟨hs.present, fun hne => absurd (h.sound.getD_of_map hd) hne⟩⟩

end IndexedElements

open IndexedElements

/-! ### The definition of an element -/

theorem merge_kind {entry s : StoredSlot} (hwf : desc.WellFormed) (ha : desc.attrs.accessor = false)
    (hm : entry.merge desc w = .ok s w') (hd : entry.attributes.data = true)
    (hna : entry.attributes.accessor = false) :
    s.attributes.data = true ∧ s.attributes.accessor = false := by
  obtain ⟨hacc, hdata, -⟩ := mergeAttrs_kind entry.attributes desc
  unfold StoredSlot.merge at hm
  split at hm
  · next hg =>
    cases hm
    rw [if_pos hg] at hacc hdata
    exact ⟨hdata.trans hd, hacc.trans hna⟩
  · next hg =>
    have hisdata : desc.attrs.data = true := by
      by_contra hnd
      refine hg ?_
      rw [AttrExternal.isGeneric, ha, hwf.not_empty, Bool.eq_false_iff.mpr hnd]
      rfl
    rw [if_pos hisdata] at hm
    cases hm
    rw [if_neg hg, hisdata] at hacc hdata
    exact ⟨hdata, hacc⟩

theorem unnamed_indexed_eq (o : ℕ) (ix : IndexedElements) :
    Unnamed fun w => (w.objects o).indexed = ix := fun _ _ heq h => (heq o).1.trans h

theorem returned_of_accepted (entry : StoredSlot) (desc : PropertyDescriptor) (throwable : Bool) :
    (entry.isDefinedPropertyAccepted desc throwable).Answers fun r => r.1 = true → r.2 = true := by
  have hok : ∀ b, (pure (b, true) : Vm (Bool × Bool)).Answers fun r => r.1 = true → r.2 = true :=
    fun _ => answers_pure fun _ => rfl
  have hrej : ∀ msg, (Vm.reject throwable msg (false, false)).Answers
      fun r => r.1 = true → r.2 = true := fun msg w w' r h => by
    cases throwable <;> cases h
    exact fun hf => hf
  refine .ite (hok _) <| .bind fun _ => .ite (hok _) <| .ite (hrej _) <| .ite (hrej _) <|
    .ite (hok _) <| .ite (.ite (hrej _) (hok _)) <| .ite ?_ <| .ite ?_ (hok _)
  · exact .ite (.ite (hrej _) (.ite (hrej _) (hok _))) (hok _)
  · exact .bind fun c => .bind fun lhs => .ite (hrej _) (hok _)

theorem ends_sparse (o index : ℕ) (ht : (w.objects o).indexed.Tidy)
    (hd : (w.objects o).indexed.dense = true → maxVectorSize ≤ index) (hwf : desc.WellFormed)
    (throwable : Bool) :
    (defineOwnIndexedSparse o index desc throwable w).Ends
      (fun b w' => (w.objects o).indexed.Entered (w'.objects o).indexed index desc b)
      fun w' => (w.objects o).indexed.Entered (w'.objects o).indexed index desc false := by
  unfold defineOwnIndexedSparse
  rw [bind_of_ok (modifyIndexed_apply _ _ _), Vm.object_bind]
  set ix := (w.objects o).indexed
  set ix₁ : IndexedElements := { ix with map := some (ix.map.getD ∅) } with hix₁
  set w₁ := w.withElements o ix₁
  have hobj : (w₁.objects o).indexed = ix₁ := indexed_withElements_self w o ix₁
  have ht₁ : ix₁.Tidy := ⟨sound_getD_map ht.sound, ht.size⟩
  have hkept : ∀ i v, ix.Shows i v → ix₁.Shows i v := fun i v hs =>
    hs.congr (fun s hst => by rwa [hix₁, stored_getD_map]) rfl
  have hI := unnamed_indexed_eq o ix₁
  have hstay : ∀ (b : Bool) (w' : World), (w'.objects o).indexed = ix₁ →
      ix.Entered (w'.objects o).indexed index desc b :=
    fun b w' h => by
      rw [h]
      exact (ht₁.entered_self hd b).of_kept hkept
  cases hl : ((w₁.objects o).indexed.map.getD ∅).lookup index with
  | some entry =>
    have hsparse : ix₁.sparse index = some entry := by
      rw [hobj] at hl
      exact hl
    refine ends_bind (keeps_isDefinedPropertyAccepted entry desc throwable w₁ hobj) (hstay false)
      fun ⟨accepted, returned⟩ w₂ hr h₂ => ?_
    cases accepted with
    | false => exact hstay returned w₂ h₂
    | true =>
      obtain rfl : returned = true := returned_of_accepted entry desc throwable _ _ _ hr rfl
      refine ends_bind (keeps_merge hI entry desc w₂ h₂) (hstay false) fun s w₃ hm h₃ => ?_
      rw [bind_of_ok (setSparse_eq o index s _ w₃), h₃]
      change IndexedElements.Entered _ _ _ _ _
      rw [indexed_withElements_self]
      refine (ht₁.entered_storeSparse hd (merge_cell (ht₁.sound.cell index entry hsparse) hm)
        (fun v hs ha => ?_) _).of_kept hkept
      -- the element is the entry of the map
      obtain ⟨s₀, hs₀, hkind⟩ := hs.present
      rw [ht₁.sound.stored_map hd, hsparse] at hs₀
      split at hs₀
      · cases hs₀
        exact merge_kind hwf ha hm hkind.1 hkind.2
      · cases hs₀
  | none =>
    split
    · cases throwable with
      | true | false => exact hstay false w₁ hobj
    · refine ends_bind (keeps_makeIndexed hI o w₁ hobj) (hstay false) fun _ w₂ hr h₂ => ?_
      rw [bind_of_ok (modifyIndexed_apply _ _ _), h₂]
      set ix₃ := if ix₁.length ≤ index then ix₁.setLength (index + 1) else ix₁ with hix₃
      have hvec : ix₃.vector = ix₁.vector := by rw [hix₃]; split <;> rfl
      have hd₃ : ix₃.dense = true → maxVectorSize ≤ index := by
        rw [hix₃, dense_raiseLength]
        exact hd
      have ht₃ : ix₃.Tidy := by
        refine ⟨ht₁.sound.raiseLength index, ?_⟩
        have hsize := ht₁.size
        rw [hvec, hix₃]
        split
        · exact le_trans hsize (by change ix₁.length ≤ index + 1; omega)
        · exact hsize
      have hkept₃ : ∀ i v, ix.Shows i v → ix₃.Shows i v := fun i v hs =>
        (hkept i v hs).congr (fun s hst => stored_raiseLength hst ht₁.sound index) hvec
      refine ends_bind (keeps_storedSlotNew (unnamed_indexed_eq o ix₃) desc _
        (indexed_withElements_self w₂ o ix₃)) (fun w' h' => ?_) fun s w₄ hn h₄ => ?_
      · rw [h']
        exact (ht₃.entered_self hd₃ false).of_kept hkept₃
      · rw [bind_of_ok (setSparse_eq o index s _ w₄), h₄]
        change IndexedElements.Entered _ _ _ _ _
        rw [indexed_withElements_self]
        refine (ht₃.entered_storeSparse hd₃ (storedSlotNew_cell hn) (fun v hs ha => ?_) _).of_kept hkept₃
        unfold StoredSlot.new at hn
        rw [ha] at hn
        cases hdata : desc.attrs.data <;> rw [hdata] at hn <;> cases hn <;>
          exact ⟨rfl, rfl⟩

theorem ends_define (o index : ℕ) (ht : (w.objects o).indexed.Tidy) (hwf : desc.WellFormed)
    (throwable : Bool) :
    (defineOwnIndexedPropertyInternal o index desc throwable w).Ends
      (fun b w' => (w.objects o).indexed.Redefined (w'.objects o).indexed index desc b)
      fun w' => (w.objects o).indexed.Redefined (w'.objects o).indexed index desc false := by
  have hval : desc.attrs.undefValue = false → desc.fst ≠ .empty := fun hu => (hwf.value hu).1
  unfold defineOwnIndexedPropertyInternal
  rw [Vm.object_bind]
  split
  · cases throwable with
    | true | false => exact ht.redefined_self fun hb => absurd hb Bool.false_ne_true
  split
  · next hc =>
    simp only [Bool.and_eq_true, decide_eq_true_eq] at hc
    obtain ⟨⟨hd, hdefault⟩, hi⟩ := hc
    obtain ⟨σ, s, nonGc, -, heq⟩ :=
      defineOwnIndexeValueDenseInternal_eq o index desc.fst desc.attrs.undefValue w
    rw [bind_of_ok heq]
    change IndexedElements.Redefined _ _ _ _ _
    rw [indexed_withElements_self]
    exact ht.redefined_storeDense hd hi hval (fun hu => ⟨hd, hi, hdefault, hu⟩) nonGc
  next hdef =>
  split
  · next hc =>
    -- the element is in the vector, and its attributes stay
    simp only [Bool.and_eq_true, decide_eq_true_eq, Bool.not_eq_true'] at hc
    obtain ⟨⟨⟨⟨hd, -⟩, -⟩, hlt⟩, hne⟩ := hc
    have hne : (w.objects o).indexed.vector.getD index .empty ≠ .empty := fun he => by
      rw [he] at hne
      cases hne
    cases hu : desc.attrs.undefValue with
    | true => exact ht.redefined_self fun _ => hu
    | false =>
      have hi := lt_of_lt_of_le hlt ht.sound.size
      have hstore := ht.redefined_storeDense hd hi hval (fun hc => absurd (hu.symm.trans hc) (by decide))
        ((w.objects o).indexed.nonGc && !desc.fst.isObject)
      rw [hu, ht.sound.storeDense_eq hne] at hstore
      change IndexedElements.Redefined _ ((w.withElements o { (w.objects o).indexed with
        vector := (w.objects o).indexed.vector.set index desc.fst
        nonGc := (w.objects o).indexed.nonGc && !desc.fst.isObject }).objects o).indexed _ _ _
      rw [indexed_withElements_self]
      exact hstore
  · next habs =>
    by_cases hm : ((w.objects o).indexed.dense && !desc.attrs.isDefault &&
      decide (index < maxVectorSize)) = true
    · -- the elements move to the map first
      have hd : (w.objects o).indexed.dense = true := by
        simp only [Bool.and_eq_true] at hm
        exact hm.1.1
      rw [hm, Vm.onlyIf, if_pos rfl, bind_of_ok (modifyIndexed_apply o IndexedElements.makeSparse w)]
      have hobj := indexed_withElements_self w o (w.objects o).indexed.makeSparse
      have hsparse := ends_sparse o index (w := w.withElements o (w.objects o).indexed.makeSparse)
        (by rw [hobj]; exact ht.makeSparse) (by rw [hobj]; exact fun hd => absurd hd Bool.false_ne_true)
        hwf throwable
      rw [hobj] at hsparse
      have hkept : ∀ i v, (w.objects o).indexed.Shows i v →
          (w.objects o).indexed.makeSparse.Shows i v := fun i v hs => hs.makeSparse ht.sound hd v
      exact hsparse.mono (fun b _ h => (h.of_kept hkept).redefined)
        fun _ h => (h.of_kept hkept).redefined
    · rw [Bool.eq_false_iff.mpr hm]
      have hmap : (w.objects o).indexed.dense = true → maxVectorSize ≤ index := by
        intro hd
        rw [hd] at hdef hm
        cases hdefault : desc.attrs.isDefault <;> simp_all
      exact (ends_sparse o index ht hmap hwf throwable).mono (fun b _ h => h.redefined)
        fun _ h => h.redefined

/-! ### The overrides -/

/-- A call whose code uses `arguments`: the heap, the mapping of its arguments object (`none` is
`DUMMY_SYMBOL`) and the slots of the parameters in its environment. -/
structure Activation where
  world : World
  mapping : List (Option ℕ)
  env : List JsValue

/-- The slot behind an element. -/
def Activation.mapped (a : Activation) (index : ℕ) : Option ℕ := a.mapping[index]?.join

/-- `arg.mapping[index] = DUMMY_SYMBOL`. -/
def Activation.unmap (a : Activation) (index : ℕ) : Activation :=
  { a with mapping := a.mapping.set index none }

/-- Code of a call. -/
abbrev Act (α : Type) := Exec Fault Activation α

namespace Act

variable {α : Type}

/-- Code that works on the heap. -/
def heap (x : Vm α) : Act α := fun a =>
  match x a.world with
  | .ok r w => .ok r { a with world := w }
  | .error e w => .error e { a with world := w }
  | .stuck => .stuck
  | .diverge => .diverge

/-- `match` on a result with one arm for `Ok(false) | Err(_)`. -/
def caught (x : Vm Bool) : Vm Bool := fun w =>
  match x w with
  | .error (.throw _) w => .ok false w
  | r => r

/-- `let _ =` on a result: an exception is dropped. -/
def ignored (x : Act Bool) : Act Unit := fun a =>
  match x a with
  | .ok _ a => .ok () a
  | .error (.throw _) a => .ok () a
  | .error e a => .error e a
  | .stuck => .stuck
  | .diverge => .diverge

end Act

namespace JsArguments

/-- What an accepted definition does to the mapping and to the environment. -/
def redefine (a : Activation) (index : ℕ) (desc : PropertyDescriptor) : Activation :=
  match a.mapped index with
  | none => a
  | some slot =>
    if desc.attrs.accessor then a.unmap index
    else if desc.attrs.data then
      let a := if desc.attrs.undefValue then a else { a with env := a.env.set slot desc.fst }
      if !desc.attrs.undefWritable && !desc.attrs.writable then a.unmap index else a
    else a

def defineOwnIndexedPropertySlot (o index : ℕ) (desc : PropertyDescriptor) (throwable : Bool) :
    Act Bool := do
  if ← Act.heap (Act.caught (defineOwnIndexedPropertyInternal o index desc throwable)) then
    Exec.modify fun a => redefine a index desc
    return true
  else
    Act.heap (Vm.reject throwable "[[DefineOwnProperty]] failed" false)

def getOwnIndexedPropertySlot (o index : ℕ) (slot : Slot) : Act (Bool × Slot) := do
  let (found, slot) ← Act.heap (getOwnIndexedPropertySlotMethod o index slot)
  if !found then
    return (false, slot)
  else
    match ← Exec.gets fun a => (a.mapped index).map fun m => a.env[m]? with
    | some val => return (true, slot.set (← Exec.unwrap val) slot.attributes)
    | none => return (true, slot)

def getIndexedPropertySlot (o index : ℕ) (slot : Slot) : Act (Bool × Slot) := do
  let (found, slot) ← getOwnIndexedPropertySlot o index slot
  if found then
    return (true, slot)
  else
    let w ← Exec.gets Activation.world
    match (w.shapes.structures (w.objects o).structure_).prototype with
    | some proto => Act.heap (getIndexedPropertySlotFrom w.nextObject proto index slot)
    | none => return (false, slot)

/-- `GetNonIndexedSlotMethod`, with the look at `caller`, and `GetIndexedSlotMethod`. -/
def getSlot (o : ℕ) (name : Symbol) (strict : ℕ → Bool) : Act (JsValue × Slot) := do
  match name with
  | .index i =>
    let (found, slot) ← getIndexedPropertySlot o i Slot.new
    return (← Act.heap (slotValue o found slot), slot)
  | name =>
    let (found, slot) ← Act.heap (getPropertySlot o name Slot.new)
    let result ← Act.heap (slotValue o found slot)
    if name = .key "caller" && (← Act.heap (Vm.isCallable result)) then
      match result with
      | .object f =>
        if strict f then
          Act.heap (Vm.throwTypeError "access to strict function 'caller' not allowed")
        else
          return (result, slot)
      | _ => return (result, slot)
    else
      return (result, slot)

/-- `OP_GET_BY_VAL`; the slot is read once more after `get_slot`. -/
def getByVal (display : F64 → String) (o : ℕ) (key : JsValue) (strict : ℕ → Bool) : Act JsValue := do
  match ← Exec.gets fun a => getByValShortcut (a.world.objects o).indexed key with
  | some val => return val
  | none =>
    let (_, slot) ← getSlot o (toSymbol display key) strict
    Act.heap (slot.stored.get (.object o))

/-- `PutIndexedSlotMethod`. The shortcut to the vector is for objects without an override of the
lookup. -/
def putIndexedSlot (o index : ℕ) (val : JsValue) (throwable : Bool) : Act Bool := do
  let (found, slot) ← getIndexedPropertySlot o index Slot.new
  if !(← Act.heap (canPut o found slot)) then
    Act.heap (Vm.reject throwable "put failed" true)
  else if !slot.isNotFound && slot.base = some o && slot.attributes.data then
    let _ ← defineOwnIndexedPropertySlot o index (assignDesc val) throwable
    return true
  else if !slot.isNotFound && slot.attributes.accessor then
    let ac ← Act.heap (do Vm.accessorCell (← slot.stored.accessor))
    Exec.fail (.invoke ac.setter (.object o) [val])
  else
    let _ ← defineOwnIndexedPropertySlot o index (createDesc val) throwable
    return true

def put (o : ℕ) (name : Symbol) (val : JsValue) (throwable : Bool) : Act Bool :=
  match name with
  | .index i => putIndexedSlot o i val throwable
  | name => Act.heap do
    let (found, slot) ← getPropertySlot o name Slot.new
    let _ ← putFrom o val throwable found slot id fun desc slot =>
      defineOwnNonIndexedPropertySlotMethod o name desc slot throwable
    return true

def putByVal (display : F64 → String) (o : ℕ) (key val : JsValue) (strict : Bool) : Act Bool := do
  match ← Exec.gets fun a => inVector (a.world.objects o).indexed key with
  | some index =>
    Act.heap (modifyIndexed o fun ix => { ix with vector := ix.vector.set index val })
    return true
  | none => put o (toSymbol display key) val strict

def defineOwnProperty (o : ℕ) (name : Symbol) (desc : PropertyDescriptor) (throwable : Bool) :
    Act Bool :=
  match name with
  | .index i => defineOwnIndexedPropertySlot o i desc throwable
  | name => Act.heap do
    let (b, _) ← defineOwnNonIndexedPropertySlotMethod o name desc Slot.new throwable
    return b

def delete (o : ℕ) (name : Symbol) (throwable : Bool) : Act Bool :=
  match name with
  | .index i => do
    let (found, slot) ← getOwnIndexedPropertySlot o i Slot.new
    if !found then
      return true
    else if !slot.attributes.configurable then
      Act.heap (Vm.reject throwable "Can not delete non configurable property" false)
    else
      Act.heap (deleteIndexedInternal o i throwable)
  | name => Act.heap (deleteNonIndexed o name throwable)

/-- The definitions of the first elements in `JsArguments::new`. -/
def defineInit (o : ℕ) : ℕ → List JsValue → Act Unit
  | _, [] => pure ()
  | i, v :: vs => do
    let _ ← defineOwnIndexedPropertySlot o i (createDesc v) false
    defineInit o (i + 1) vs

def new (s paramCount : ℕ) (init : List JsValue) : Act ℕ := do
  let o ← Act.heap (JsObject.new s .object)
  defineInit o 0 (init.take paramCount)
  Act.ignored (put o Symbol.length (.int32 (BitVec.ofNat 32 init.length)) false)
  Exec.modify fun a => { a with mapping := (List.range (min paramCount init.length)).map some }
  return o

/-- The elements beyond the parameters, see `perform_vm_call`. -/
def putRest (o : ℕ) : ℕ → List JsValue → Act Unit
  | _, [] => pure ()
  | k, v :: vs => do
    let _ ← put o (.index k) v false
    putRest o (k + 1) vs

end JsArguments

/-! ### Linked elements -/

variable {a a' : Activation} {M : Set ℕ}

/-- The elements in `M`, and no others, are linked to the parameters of the same number: each is a data
property, and the vector holds nothing else than the parameter's value there. -/
structure Linked (o : ℕ) (M : Set ℕ) (a : Activation) : Prop where
  tidy : (a.world.objects o).indexed.Tidy
  mapped : ∀ i ∈ M, a.mapped i = some i
  unmapped : ∀ i, i ∉ M → a.mapped i = none
  value : ∀ i ∈ M, ∃ v, a.env[i]? = some v ∧ (a.world.objects o).indexed.Shows i v

/-- The mapping, the environment and the elements of the arguments object are what they were. -/
structure SameLinks (o : ℕ) (a a' : Activation) : Prop where
  mapping : a'.mapping = a.mapping
  env : a'.env = a.env
  indexed : (a'.world.objects o).indexed = (a.world.objects o).indexed

theorem SameLinks.refl (o : ℕ) (a : Activation) : SameLinks o a a := ⟨rfl, rfl, rfl⟩

theorem SameLinks.mapped (h : SameLinks o a a') (i : ℕ) : a'.mapped i = a.mapped i := by
  unfold Activation.mapped
  rw [h.mapping]

theorem Linked.congr (h : Linked o M a) (hs : SameLinks o a a') : Linked o M a' := by
  refine ⟨?_, fun i hi => ?_, fun i hi => ?_, fun i hi => ?_⟩
  · rw [hs.indexed]
    exact h.tidy
  · rw [hs.mapped]
    exact h.mapped i hi
  · rw [hs.mapped]
    exact h.unmapped i hi
  · rw [hs.env, hs.indexed]
    exact h.value i hi

/-- Code that leaves the mapping, the environment and the elements alone. -/
def Looks (o : ℕ) {α : Type} (x : Act α) : Prop := ∀ a, (x a).Leaves fun a' => SameLinks o a a'

theorem Looks.bind {α β : Type} {x : Act α} {f : α → Act β} (hx : Looks o x) (hf : ∀ r, Looks o (f r)) :
    Looks o (x >>= f) := fun a =>
  leaves_bind (hx a) fun r a₁ _ h₁ => (hf r a₁).mono fun _ h₂ =>
    ⟨h₂.mapping.trans h₁.mapping, h₂.env.trans h₁.env, h₂.indexed.trans h₁.indexed⟩

theorem looks_pure {α : Type} (r : α) : Looks o (pure r : Act α) := fun a => .refl o a

theorem looks_gets {α : Type} (f : Activation → α) : Looks o (Exec.gets f : Act α) := fun a => .refl o a

theorem looks_unwrap {α : Type} (r : Option α) : Looks o (Exec.unwrap r : Act α) := by
  cases r with
  | none => exact fun _ => trivial
  | some r => exact looks_pure r

theorem Looks.ite {α : Type} {c : Prop} [Decidable c] {x y : Act α} (hx : Looks o x) (hy : Looks o y) :
    Looks o (if c then x else y) := by
  split
  · exact hx
  · exact hy

theorem looks_heap {α : Type} {x : Vm α} (hx : ∀ I, Unnamed I → x.Keeps I) : Looks o (Act.heap x) := by
  intro a
  have hkeep := hx (fun w => (w.objects o).indexed = (a.world.objects o).indexed)
    (fun w w' heq h => (heq o).1.trans h) a.world rfl
  unfold Act.heap
  cases hr : x a.world with
  | ok r w | error e w => rw [hr] at hkeep; exact ⟨rfl, rfl, hkeep⟩
  | stuck => trivial
  | diverge => trivial

theorem looks_ignored {x : Act Bool} (hx : Looks o x) : Looks o (Act.ignored x) := by
  intro a
  have hsame := hx a
  unfold Act.ignored
  cases hr : x a with
  | ok b a' => rw [hr] at hsame; exact hsame
  | error e a' =>
    rw [hr] at hsame
    cases e with
    | _ => exact hsame
  | stuck => trivial
  | diverge => trivial

theorem looks_getOwnIndexedPropertySlot (o index : ℕ) (slot : Slot) :
    Looks o (JsArguments.getOwnIndexedPropertySlot o index slot) := by
  refine .bind (looks_heap fun _ _ => keeps_getOwnIndexedPropertySlotMethod o index slot) fun r => ?_
  refine .ite (looks_pure _) (.bind (looks_gets _) fun val => ?_)
  cases val with
  | none => exact looks_pure _
  | some val => exact .bind (looks_unwrap val) fun _ => looks_pure _

theorem looks_getIndexedPropertySlot (o index : ℕ) (slot : Slot) :
    Looks o (JsArguments.getIndexedPropertySlot o index slot) := by
  refine .bind (looks_getOwnIndexedPropertySlot o index slot) fun r =>
    .ite (looks_pure _) (.bind (looks_gets _) fun w => ?_)
  cases (w.shapes.structures (w.objects o).structure_).prototype with
  | none => exact looks_pure _
  | some proto => exact looks_heap fun _ hI => keeps_getIndexedPropertySlotFrom hI _ proto index _

theorem looks_slotValue (o p : ℕ) (found : Bool) (slot : Slot) :
    Looks o (Act.heap (slotValue p found slot)) :=
  looks_heap fun _ _ => .ite (keeps_storedSlotGet _ _) (keeps_pure _)

theorem looks_getSlot (o : ℕ) (name : Symbol) (strict : ℕ → Bool) :
    Looks o (JsArguments.getSlot o name strict) := by
  unfold JsArguments.getSlot
  split
  · exact .bind (looks_getIndexedPropertySlot o _ _) fun r =>
      .bind (looks_slotValue o o r.1 r.2) fun _ => looks_pure _
  · refine .bind (looks_heap fun _ hI => keeps_getPropertySlot hI o _ _) fun r =>
      .bind (looks_slotValue o o r.1 r.2) fun result =>
        .bind (looks_heap fun _ _ => keeps_isCallable result) fun b => .ite ?_ (looks_pure _)
    cases result with
    | object f => exact .ite (looks_heap fun _ _ => keeps_throwTypeError _) (looks_pure _)
    | _ => exact looks_pure _

theorem looks_getByVal (display : F64 → String) (o : ℕ) (key : JsValue) (strict : ℕ → Bool) :
    Looks o (JsArguments.getByVal display o key strict) := by
  refine .bind (looks_gets _) fun r => ?_
  cases r with
  | some val => exact looks_pure _
  | none => exact .bind (looks_getSlot o _ strict) fun r => looks_heap fun _ _ => keeps_storedSlotGet _ _

/-! ### A definition -/

/-- The redefinitions that break the link: to an accessor, or to a read-only property. -/
def PropertyDescriptor.Unlinks (desc : PropertyDescriptor) : Prop :=
  desc.attrs.accessor = true ∨
    (desc.attrs.data = true ∧ desc.attrs.undefWritable = false ∧ desc.attrs.writable = false)

def linkedAfter (M : Set ℕ) (index : ℕ) (desc : PropertyDescriptor) (b : Bool) : Set ℕ :=
  {i | i ∈ M ∧ ¬ (b = true ∧ i = index ∧ desc.Unlinks)}

theorem linkedAfter_of_not {b : Bool} (h : ¬ (b = true ∧ index ∈ M ∧ desc.Unlinks)) :
    linkedAfter M index desc b = M := by
  ext i
  refine ⟨fun hi => hi.1, fun hi => ⟨hi, ?_⟩⟩
  rintro ⟨hb, rfl, hu⟩
  exact h ⟨hb, hi, hu⟩

theorem linkedAfter_of_unlinks (h : desc.Unlinks) : linkedAfter M index desc true = M \ {index} := by
  ext i
  simp [linkedAfter, h]

theorem mapped_unmap (a : Activation) (index i : ℕ) :
    (a.unmap index).mapped i = if i = index then none else a.mapped i := by
  unfold Activation.mapped Activation.unmap
  dsimp only
  rw [List.getElem?_set]
  by_cases hi : i = index
  · subst hi
    by_cases hlt : i < a.mapping.length
    · simp [hlt]
    · simp [hlt]
  · rw [if_neg (Ne.symm hi), if_neg hi]

theorem Linked.keep (h : Linked o M a) {b : Bool} {env : List JsValue}
    (hr : (a.world.objects o).indexed.Redefined (w.objects o).indexed index desc b)
    (hne : ∀ i, i ≠ index → env[i]? = a.env[i]?)
    (hself : index ∈ M → ∃ v, env[index]? = some v ∧ (w.objects o).indexed.Shows index v) :
    Linked o M ⟨w, a.mapping, env⟩ := by
  refine ⟨hr.tidy, h.mapped, h.unmapped, fun i hi => ?_⟩
  by_cases heq : i = index
  · subst heq
    exact hself hi
  · obtain ⟨v, henv, hshow⟩ := h.value i hi
    exact ⟨v, (hne i heq).trans henv, hr.other i v heq hshow⟩

theorem Linked.drop (h : Linked o M a) {b : Bool} {env : List JsValue}
    (hr : (a.world.objects o).indexed.Redefined (w.objects o).indexed index desc b)
    (hne : ∀ i, i ≠ index → env[i]? = a.env[i]?) :
    Linked o (M \ {index}) ((⟨w, a.mapping, env⟩ : Activation).unmap index) := by
  refine ⟨hr.tidy, fun i hi => ?_, fun i hi => ?_, fun i hi => ?_⟩
  · rw [mapped_unmap, if_neg (show ¬ i = index from hi.2)]
    exact h.mapped i hi.1
  · rw [mapped_unmap]
    split
    · rfl
    · next hne => exact h.unmapped i fun hc => hi ⟨hc, hne⟩
  · obtain ⟨v, henv, hshow⟩ := h.value i hi.1
    exact ⟨v, (hne i hi.2).trans henv, hr.other i v hi.2 hshow⟩

theorem Linked.redefine (h : Linked o M a) (hwf : desc.WellFormed)
    (hclear : index ∈ M → (a.world.objects o).indexed.Clears index desc →
      a.env[index]? = some .undefined)
    (hr : (a.world.objects o).indexed.Redefined (w.objects o).indexed index desc true) :
    Linked o (linkedAfter M index desc true)
      (JsArguments.redefine { a with world := w } index desc) := by
  unfold JsArguments.redefine
  by_cases hindex : index ∈ M
  · obtain ⟨v, henv, hshow⟩ := h.value index hindex
    have hlt : index < a.env.length := (List.getElem?_eq_some_iff.mp henv).1
    have hcl : (a.world.objects o).indexed.Clears index desc → v = .undefined := fun hc => by
      rw [hclear hindex hc] at henv
      exact (Option.some.inj henv).symm
    rw [show ({ a with world := w } : Activation).mapped index = some index from h.mapped index hindex]
    dsimp only
    split
    · next hacc =>
      rw [linkedAfter_of_unlinks (.inl hacc)]
      exact h.drop hr fun _ _ => rfl
    next hacc =>
    have hself := hr.self v hshow (fun _ => by simpa using hacc) hcl
    split
    · next hdata =>
      set env := if desc.attrs.undefValue then a.env else a.env.set index desc.fst with henv'
      have hstate : (if desc.attrs.undefValue = true then { a with world := w }
          else { a with world := w, env := a.env.set index desc.fst } : Activation) =
            ⟨w, a.mapping, env⟩ := by
        rw [henv']
        split <;> rfl
      have hne : ∀ i, i ≠ index → env[i]? = a.env[i]? := fun i hi => by
        rw [henv']
        split
        · rfl
        · exact List.getElem?_set_ne (Ne.symm hi)
      rw [hstate]
      split
      · next hro =>
        simp only [Bool.and_eq_true, Bool.not_eq_true'] at hro
        rw [linkedAfter_of_unlinks (.inr ⟨hdata, hro⟩)]
        exact h.drop hr hne
      · next hro =>
        rw [linkedAfter_of_not]
        · refine h.keep hr hne fun _ => ⟨_, ?_, hself⟩
          rw [henv']
          cases hu : desc.attrs.undefValue with
          | true => exact henv
          | false => exact List.getElem?_set_self hlt
        · rintro ⟨-, -, hacc' | ⟨-, hw⟩⟩
          · exact hacc hacc'
          · exact hro (by simp [hw])
    · next hdata =>
      have hu : desc.attrs.undefValue = true := hwf.generic (by simpa using hdata)
      rw [hu] at hself
      rw [linkedAfter_of_not]
      · exact h.keep hr (fun _ _ => rfl) fun _ => ⟨v, henv, hself⟩
      · rintro ⟨-, -, hacc' | ⟨hdata', -⟩⟩
        · exact hacc hacc'
        · exact hdata hdata'
  · rw [show ({ a with world := w } : Activation).mapped index = none from h.unmapped index hindex,
      linkedAfter_of_not fun hc => hindex hc.2.1]
    exact h.keep hr (fun _ _ => rfl) fun hc => absurd hc hindex

theorem Linked.refused (h : Linked o M a)
    (hclear : index ∈ M → (a.world.objects o).indexed.Clears index desc →
      a.env[index]? = some .undefined)
    (hr : (a.world.objects o).indexed.Redefined (w.objects o).indexed index desc false) :
    Linked o M { a with world := w } := by
  refine h.keep hr (fun _ _ => rfl) fun hindex => ?_
  obtain ⟨v, henv, hshow⟩ := h.value index hindex
  refine ⟨v, henv, hr.self v hshow (fun hb => nomatch hb) fun hc => ?_⟩
  rw [hclear hindex hc] at henv
  exact (Option.some.inj henv).symm

/-- **The step lemma of a definition.** -/
theorem Linked.define (h : Linked o M a) (index : ℕ) (hwf : desc.WellFormed)
    (hclear : index ∈ M → (a.world.objects o).indexed.Clears index desc →
      a.env[index]? = some .undefined) (throwable : Bool) :
    (JsArguments.defineOwnIndexedPropertySlot o index desc throwable a).Ends
      (fun b a' => Linked o (linkedAfter M index desc b) a') (Linked o M) := by
  have hfalse : linkedAfter M index desc false = M := linkedAfter_of_not fun hc => nomatch hc.1
  have hdef := ends_define o index (w := a.world) h.tidy hwf throwable
  have hreject : ∀ a', Linked o M a' →
      (Act.heap (Vm.reject throwable "[[DefineOwnProperty]] failed" false) a').Ends
        (fun b a' => Linked o (linkedAfter M index desc b) a') (Linked o M) := fun a' h' => by
    cases throwable with
    | true => exact h'
    | false =>
      change Linked o (linkedAfter M index desc false) _
      rw [hfalse]
      exact h'
  unfold JsArguments.defineOwnIndexedPropertySlot
  rw [Exec.bind_apply]
  unfold Act.heap Act.caught
  cases hrun : defineOwnIndexedPropertyInternal o index desc throwable a.world with
  | ok b w =>
    rw [hrun] at hdef
    cases b with
    | true => exact h.redefine hwf hclear hdef
    | false => exact hreject _ (h.refused hclear hdef)
  | error e w =>
    rw [hrun] at hdef
    cases e with
    | throw e => exact hreject _ (h.refused hclear hdef)
    | invoke callee this args | convert v | panic => exact h.refused hclear hdef
  | stuck => trivial
  | diverge => trivial

end Starlight
