import Starlight.Vm.ExtensibilityRuns
import Starlight.Vm.IndexedPut

/-!
# Reading and assigning by value

`OP_GET_BY_VAL` and `OP_PUT_BY_VAL` look into the dense vector before they convert the key to a property
name. What they do there is what the lookup and the assignment under that name would do just when the key
is an integer, no character of a text comes first, and the assignment would write to the vector anyway.
-/

namespace Starlight

open JsObject World Exec IndexedElements

variable {w w' : World} {o i : ℕ} {ix : IndexedElements} {key val : JsValue}

/-! ### The opcodes -/

/-- The saturating conversion `x as usize`. -/
def F64.toUsize : F64 → ℕ
  | .nan => 0
  | .posInf => 2 ^ 64 - 1
  | .negInf => 0
  | .negZero => 0
  | .fin q => min q.floor.toNat (2 ^ 64 - 1)

def getByValIndex : JsValue → Option ℕ
  | .int32 i => some (i.signExtend 64).toNat
  | .double d => some d.toUsize
  | _ => none

/-- What `OP_GET_BY_VAL` pushes without a lookup. -/
def getByValShortcut (ix : IndexedElements) (key : JsValue) : Option JsValue :=
  (getByValIndex key).bind fun index =>
    if ix.dense && index < ix.vector.length && !(ix.vector.getD index .empty).isEmpty then
      some (ix.vector.getD index .empty)
    else none

def toSymbol (display : F64 → String) (key : JsValue) : Symbol :=
  let n := key.getNumber
  if (F64.ofInt n.toU32).eq n then .index n.toU32 else .key (display n)

/-- The shortcuts of both opcodes agree with the lookup and with the assignment, whatever is assigned. -/
structure ByValAgrees (display : F64 → String) (w : World) (o : ℕ) (key : JsValue) : Prop where
  get : ∀ v, getByValShortcut (w.objects o).indexed key = some v → ∀ strict, ∃ v' w',
    getSlot o (toSymbol display key) strict Slot.new w = .ok v' w' ∧ v'.denote = v.denote ∧
      SameContents w w'
  put : ∀ val, val ≠ .empty → ∀ strict,
    SameEnd (putByVal o key (toSymbol display key) val strict w)
      (put o (toSymbol display key) val strict w)

/-- The assignment under the index would write to the vector. -/
def ElementFits (w : World) (o i : ℕ) : Prop :=
  match (w.objects o).indexed.stored i with
  | some s => canPutDense o i w = .ok true w ∨
      (canPutDense o i w = .ok false w ∧ s.value.isZero = false)
  | none => i < (w.objects o).indexed.length ∧ (canPutDense o i w = .ok true w ∨
      (canPutDense o i w = .ok false w ∧ MayCreate w o i (w.nextObject + 1) o))

/-- A key that stands for a place in the vector is that index, and assigning under it writes there. -/
def ByValFits (w : World) (o : ℕ) (key : JsValue) : Prop :=
  ∀ i, inVector (w.objects o).indexed key = some i →
    (F64.ofInt i).eq key.getNumber = true ∧ ¬ (w.objects o).InText i ∧ ElementFits w o i

/-! ### Indices -/

theorem inVector_iff : inVector ix key = some i ↔
    byValIndex key = some i ∧ ix.dense = true ∧ i < ix.vector.length := by
  unfold inVector
  rw [Option.filter_eq_some_iff]
  simp only [Bool.and_eq_true, decide_eq_true_eq]

theorem toU32_of_inVector (h : ix.Sound) (hi : inVector ix key = some i) :
    key.getNumber.toU32 = i := by
  obtain ⟨hkey, -, hlt⟩ := inVector_iff.mp hi
  have hsize : ix.vector.length ≤ 2 ^ 16 := h.size
  cases key with
  | int32 n =>
    cases hkey
    have hpos : n.toInt = n.toNat := BitVec.toInt_eq_toNat_of_lt (by omega)
    have hfloor : ((n.toInt : ℚ)).floor.toNat = n.toNat := by
      rw [Rat.floor_intCast, hpos, Int.toNat_natCast]
    change min ((n.toInt : ℚ)).floor.toNat (2 ^ 32 - 1) = n.toNat
    rw [hfloor]
    omega
  | double d => exact Option.some.inj hkey
  | _ => cases hkey

theorem inVector_of_shortcut (h : ix.Sound) {v : JsValue} (hv : getByValShortcut ix key = some v) :
    ∃ i, inVector ix key = some i ∧ v = ix.vector.getD i .empty ∧ v ≠ .empty := by
  obtain ⟨i, hi, hv⟩ := Option.bind_eq_some_iff.mp hv
  split at hv
  · next hc =>
    cases hv
    simp only [Bool.and_eq_true, decide_eq_true_eq, Bool.not_eq_true'] at hc
    obtain ⟨⟨hd, hlt⟩, hne⟩ := hc
    have hsize : ix.vector.length ≤ 2 ^ 16 := h.size
    refine ⟨i, inVector_iff.mpr ⟨?_, hd, hlt⟩, rfl, fun hc => ?_⟩
    · cases key with
      | int32 n =>
        cases hi
        -- a negative number is too large once its sign is extended
        have hext : (n.signExtend 64).toNat = n.toNat + if n.msb then 2 ^ 64 - 2 ^ 32 else 0 := by
          rw [BitVec.toNat_signExtend, BitVec.toNat_setWidth, Nat.mod_eq_of_lt (by omega)]
        refine congrArg some ?_
        split at hext <;> omega
      | double d =>
        cases hi
        refine congrArg some ?_
        cases d with
        | fin q =>
          have hlt : min q.floor.toNat (2 ^ 64 - 1) < ix.vector.length := hlt
          change min q.floor.toNat (2 ^ 32 - 1) = min q.floor.toNat (2 ^ 64 - 1)
          omega
        | posInf =>
          have hlt : 2 ^ 64 - 1 < ix.vector.length := hlt
          omega
        | nan | negInf | negZero => rfl
      | _ => cases hi
    · rw [hc] at hne
      cases hne
  · cases hv

/-! ### Writing to the vector -/

theorem putByVal_of_inVector (hi : inVector (w.objects o).indexed key = some i) (name : Symbol)
    (val : JsValue) (strict : Bool) : putByVal o key name val strict w =
      .ok () (w.withElements o { (w.objects o).indexed with
        vector := (w.objects o).indexed.vector.set i val }) := by
  unfold putByVal
  rw [Vm.object_bind, hi]
  rfl

theorem stored_set (hd : ix.dense = true) (hlt : i < ix.vector.length) (hval : val ≠ .empty) :
    ({ ix with vector := ix.vector.set i val } : IndexedElements).stored =
      Function.update ix.stored i (some ⟨val, objectData⟩) := by
  funext j
  unfold IndexedElements.stored
  dsimp only
  rw [List.length_set]
  by_cases hj : j = i
  · subst hj
    have hself : (ix.vector.set j val).getD j .empty = val := by
      rw [List.getD_eq_getElem?_getD, List.getElem?_set_self hlt, Option.getD_some]
    rw [Function.update_self, if_pos (by simp [hd, hlt]), hself,
      if_neg fun hc => hval (isEmpty_iff.mp hc)]
  · have hother : (ix.vector.set i val).getD j .empty = ix.vector.getD j .empty := by
      rw [List.getD_eq_getElem?_getD, List.getElem?_set_ne (Ne.symm hj), ← List.getD_eq_getElem?_getD]
    rw [Function.update_of_ne hj, hother]
    rfl

theorem exists_other (s : Option StoredSlot) :
    ∃ val : JsValue, val ≠ .empty ∧ ¬ Option.Rel SameStored (some ⟨val, objectData⟩) s := by
  cases s with
  | none => exact ⟨.null, by decide, nofun⟩
  | some s =>
    by_cases hs : s.value.denote = JsValue.denote .null
    · refine ⟨.undefined, by decide, fun hc => ?_⟩
      cases hc with
      | some hrel => exact absurd (hrel.2.trans hs) (by decide)
    · refine ⟨.null, by decide, fun hc => ?_⟩
      cases hc with
      | some hrel => exact hs hrel.2.symm

theorem not_sameEnd_of_kept (hi : inVector (w.objects o).indexed key = some i) (name : Symbol)
    (hkept : ∀ val strict w', put o name val strict w = .ok () w' →
      (w'.objects o).indexed.stored i = (w.objects o).indexed.stored i) :
    ¬ ∀ val, val ≠ .empty → ∀ strict,
      SameEnd (putByVal o key name val strict w) (put o name val strict w) := by
  intro h
  obtain ⟨val, hval, hne⟩ := exists_other ((w.objects o).indexed.stored i)
  obtain ⟨-, hd, hlt⟩ := inVector_iff.mp hi
  have hend := h val hval true
  rw [putByVal_of_inVector hi] at hend
  obtain ⟨w', hput, hsame⟩ := hend.of_ok
  have hrel := (hsame.elements o).stored i
  rw [indexed_withElements_self, stored_set hd hlt hval, Function.update_self,
    hkept val true w' hput] at hrel
  exact hne hrel

/-! ### Keys that are no index -/

/-- The elements are those of another heap. -/
def World.HasElements (w₀ w : World) : Prop := ∀ b, (w.objects b).indexed = (w₀.objects b).indexed

theorem unnamed_hasElements (w₀ : World) : Unnamed (HasElements w₀) := fun _ _ heq h b =>
  (heq b).1.trans (h b)

theorem keeps_put_named (w₀ : World) {text : String} (htext : text ≠ "length") (o : ℕ) (val : JsValue)
    (throwable : Bool) : (put o (.key text) val throwable).Keeps (HasElements w₀) := by
  have hI := unnamed_hasElements w₀
  refine .bind (.bind (keeps_getPropertySlot hI o _ _) fun r => keeps_putFrom fun desc slot => ?_)
    fun _ => keeps_pure _
  have hm : ∀ slot, (defineOwnNonIndexedPropertySlotMethod o (.key text) desc slot throwable).Keeps
      (HasElements w₀) := fun slot =>
    keeps_defineOwnNonIndexedPropertySlotMethod hI o _ desc slot throwable
  have hmod : (Vm.modifyObject o fun obj => { obj with constructStruct := none }).Keeps
      (HasElements w₀) := keeps_modify fun w h b => by
    by_cases hb : b = o
    · subst hb
      simpa using h b
    · simpa [hb] using h b
  refine .bind keeps_object fun obj => ?_
  cases obj.class_ with
  | array =>
    dsimp only
    -- an array treats its length in another way, and this is not it
    rw [if_neg (by simp [Symbol.length, htext])]
    exact hm slot
  | function => exact .ite (.bind hmod fun _ => hm _) (hm slot)
  | object | string value | global => exact hm slot

/-! ### Keys that are indices -/

theorem canPutDense_cases (o i : ℕ) (w : World) : canPutDense o i w = .ok true w ∨
    canPutDense o i w = .ok false w ∨ canPutDense o i w = .diverge := by
  -- along the chain of prototypes
  have hwalk : ∀ fuel p, hasIndexedPropertyFrom fuel p w = .ok true w ∨
      hasIndexedPropertyFrom fuel p w = .ok false w ∨ hasIndexedPropertyFrom fuel p w = .diverge := by
    intro fuel
    induction fuel with
    | zero => exact fun p => .inr (.inr rfl)
    | succ fuel ih =>
      intro p
      unfold hasIndexedPropertyFrom
      rw [Vm.object_bind, gets_bind]
      split
      · exact .inl rfl
      · cases (w.shapes.structures (w.objects p).structure_).prototype with
        | some q => exact ih q
        | none => exact .inr (.inl rfl)
  unfold canPutDense
  rw [Vm.object_bind, gets_bind]
  split
  · cases (w.shapes.structures (w.objects o).structure_).prototype with
    | some q => exact hwalk _ q
    | none => exact .inl rfl
  · exact .inr (.inl rfl)

theorem put_of_not_canPutDense (hcan : canPutDense o i w = .ok false w) (val : JsValue)
    (throwable : Bool) :
    put o (.index i) val throwable w = putIndexedGeneral o i val throwable w := by
  change ((canPutDense o i >>= fun b => _) >>= fun _ => pure ()) w = _
  rw [bind_apply, bind_of_ok hcan, if_neg Bool.false_ne_true]
  unfold putIndexedGeneral
  rw [bind_apply, bind_apply]
  cases getIndexedPropertySlot o i Slot.new w <;> rfl

theorem put_of_diverge (hcan : canPutDense o i w = .diverge) (val : JsValue) (throwable : Bool) :
    put o (.index i) val throwable w = .diverge := by
  change ((canPutDense o i >>= fun b => _) >>= fun _ => pure ()) w = _
  rw [bind_apply, bind_apply, hcan]

theorem sameEnd_dense_iff (hi : inVector (w.objects o).indexed key = some i)
    (hsound : (w.objects o).indexed.Sound) (name : Symbol) (hval : val ≠ .empty) (strict : Bool) :
    SameEnd (putByVal o key name val strict w) (defineOwnIndexeValueDenseInternal o i val false w) ↔
      i < (w.objects o).indexed.length := by
  obtain ⟨-, hd, hlt⟩ := inVector_iff.mp hi
  obtain ⟨nonGc, hput⟩ : ∃ nonGc, defineOwnIndexeValueDenseInternal o i val false w =
      .ok () (w.withElements o ((w.objects o).indexed.storeDense i val nonGc)) :=
    defineOwnIndexeValueDenseInternal_inside hlt val false
  rw [putByVal_of_inVector hi, hput]
  refine sameContents_withElements_iff.trans ?_
  have hlen : ((w.objects o).indexed.storeDense i val nonGc).length =
      max (w.objects o).indexed.length (i + 1) := rfl
  constructor
  · intro hc
    have : (w.objects o).indexed.length = max (w.objects o).indexed.length (i + 1) := hc.length
    omega
  · intro hlen'
    refine ⟨by rw [hlen]; exact (max_eq_left hlen').symm, rfl, fun j => ?_⟩
    rw [stored_set hd hlt hval,
      hsound.stored_storeDense hd (lt_of_lt_of_le hlt hsound.size) hval nonGc]
    exact rel_refl _

theorem exists_zero (v : JsValue) :
    ∃ val : JsValue, val ≠ .empty ∧ val.isZero = true ∧ val.denote ≠ v.denote := by
  by_cases hneg : v.denote = .number .negZero
  · refine ⟨.double (.fin 0), by decide, rfl, ?_⟩
    rw [hneg]
    decide
  · refine ⟨.double .negZero, by decide, rfl, fun hc => hneg hc.symm⟩

/-- The assignments that the shortcut has to agree with. -/
def PutsAgree (w : World) (o : ℕ) (key : JsValue) (name : Symbol) : Prop :=
  ∀ val, val ≠ .empty → ∀ strict,
    SameEnd (putByVal o key name val strict w) (put o name val strict w)

theorem putsAgree_of_canPutDense (hi : inVector (w.objects o).indexed key = some i)
    (hsound : (w.objects o).indexed.Sound) (hcan : canPutDense o i w = .ok true w) :
    PutsAgree w o key (.index i) ↔ i < (w.objects o).indexed.length := by
  constructor
  · intro h
    have hend := h .null (by decide) true
    rw [put_of_canPutDense hcan] at hend
    exact (sameEnd_dense_iff hi hsound _ (by decide) true).mp hend
  · intro hlt val hval strict
    rw [put_of_canPutDense hcan]
    exact (sameEnd_dense_iff hi hsound _ hval strict).mpr hlt

theorem not_putsAgree_of_diverge (hi : inVector (w.objects o).indexed key = some i)
    (hcan : canPutDense o i w = .diverge) : ¬ PutsAgree w o key (.index i) := by
  intro h
  have hend := h .null (by decide) true
  rw [put_of_diverge hcan, putByVal_of_inVector hi] at hend
  exact hend

theorem putsAgree_of_present (hi : inVector (w.objects o).indexed key = some i)
    (hsound : (w.objects o).indexed.Sound) (htext : ¬ (w.objects o).InText i)
    (hcan : canPutDense o i w = .ok false w) {s : StoredSlot}
    (hs : (w.objects o).indexed.stored i = some s) :
    PutsAgree w o key (.index i) ↔ s.value.isZero = false := by
  obtain ⟨-, hd, hlt⟩ := inVector_iff.mp hi
  have hat : DenseAt w o i := ⟨hsound, hd, lt_of_lt_of_le hlt hsound.size⟩
  obtain ⟨ha, -, -⟩ := hat.attributes hs
  have hiff : ∀ val, val ≠ .empty → ∀ strict, SameEnd (putByVal o key (.index i) val strict w)
      (put o (.index i) val strict w) ↔
        (JsValue.sameValue val s.value = true → val.denote = s.value.denote) := by
    intro val hval strict
    obtain ⟨ix, hgeneral, hix⟩ := putIndexedGeneral_present hat htext hs val strict
    rw [put_of_not_canPutDense hcan, hgeneral, putByVal_of_inVector hi]
    exact sameContents_withElements_iff.trans
      (sameElements_overwritten_iff hs ha rfl rfl (stored_set hd hlt hval) hix)
  constructor
  · intro h
    by_contra hz
    -- a zero of the other sign counts as the same, so that the general path keeps the old one
    have hz : s.value.isZero = true := by simpa using hz
    obtain ⟨val, hval, hvz, hne⟩ := exists_zero s.value
    exact hne ((hiff val hval true).mp (h val hval true) (JsValue.sameValue_iff.mpr (.inr ⟨hvz, hz⟩)))
  · intro hz val hval strict
    refine (hiff val hval strict).mpr fun hsame => ?_
    rcases JsValue.sameValue_iff.mp hsame with hden | ⟨-, hz'⟩
    · exact hden
    · exact absurd (hz.symm.trans hz') Bool.false_ne_true

theorem putsAgree_of_absent (hi : inVector (w.objects o).indexed key = some i)
    (hsound : (w.objects o).indexed.Sound) (htext : ¬ (w.objects o).InText i)
    (hcan : canPutDense o i w = .ok false w) (hs : (w.objects o).indexed.stored i = none) :
    PutsAgree w o key (.index i) ↔
      i < (w.objects o).indexed.length ∧ MayCreate w o i (w.nextObject + 1) o := by
  obtain ⟨-, hd, hlt⟩ := inVector_iff.mp hi
  have hat : DenseAt w o i := ⟨hsound, hd, lt_of_lt_of_le hlt hsound.size⟩
  -- if the property may be created, only the length can tell the two apart
  by_cases hmay : MayCreate w o i (w.nextObject + 1) o ∧
      (i < (w.objects o).indexed.length ∨ (w.objects o).indexed.writable = true)
  · have hput : ∀ val strict, put o (.index i) val strict w =
        defineOwnIndexeValueDenseInternal o i val false w := fun val strict =>
      (put_of_not_canPutDense hcan val strict).trans
        (putIndexedGeneral_created hat htext hs hmay.1 hmay.2 val strict)
    constructor
    · intro h
      have hend := h .null (by decide) true
      rw [hput] at hend
      exact ⟨(sameEnd_dense_iff hi hsound _ (by decide) true).mp hend, hmay.1⟩
    · rintro ⟨hlen, -⟩ val hval strict
      rw [hput]
      exact (sameEnd_dense_iff hi hsound _ hval strict).mpr hlen
  · refine iff_of_false (not_sameEnd_of_kept hi _ fun val strict w' hput => ?_)
      fun hc => hmay ⟨hc.2, .inl hc.1⟩
    rw [put_of_not_canPutDense hcan] at hput
    rw [putIndexedGeneral_refused (.inr hs) hmay hput]

theorem putsAgree_iff (hi : inVector (w.objects o).indexed key = some i)
    (hsound : (w.objects o).indexed.Sound) (htext : ¬ (w.objects o).InText i) :
    PutsAgree w o key (.index i) ↔ ElementFits w o i := by
  unfold ElementFits
  rcases canPutDense_cases o i w with hcan | hcan | hcan
  · rw [putsAgree_of_canPutDense hi hsound hcan]
    cases hs : (w.objects o).indexed.stored i with
    | some s => exact iff_of_true (hsound.lt_of_stored hs) (.inl hcan)
    | none => exact ⟨fun hlt => ⟨hlt, .inl hcan⟩, fun hc => hc.1⟩
  · cases hs : (w.objects o).indexed.stored i with
    | some s =>
      rw [putsAgree_of_present hi hsound htext hcan hs]
      simp [hcan]
    | none =>
      rw [putsAgree_of_absent hi hsound htext hcan hs]
      simp [hcan]
  · refine iff_of_false (not_putsAgree_of_diverge hi hcan) ?_
    rw [hcan]
    cases (w.objects o).indexed.stored i with
    | some s => simp
    | none => simp

theorem not_putsAgree_of_inText (hi : inVector (w.objects o).indexed key = some i)
    (htext : (w.objects o).InText i) : ¬ PutsAgree w o key (.index i) := by
  have hcan : canPutDense o i w = .ok false w := by
    obtain ⟨text, hc, -⟩ := htext
    unfold canPutDense
    rw [Vm.object_bind, gets_bind, hc, if_neg (by simp [overridesIndexed])]
    rfl
  refine not_sameEnd_of_kept hi _ fun val strict w' hput => ?_
  rw [put_of_not_canPutDense hcan] at hput
  rw [putIndexedGeneral_refused (.inl htext) (fun hc => hc.1.1 htext) hput]

theorem not_putsAgree_of_key (hi : inVector (w.objects o).indexed key = some i) {text : String}
    (htext : text ≠ "length") : ¬ PutsAgree w o key (.key text) := by
  refine not_sameEnd_of_kept hi _ fun val strict w' hput => ?_
  have hkeeps := keeps_put_named w htext o val strict w fun _ => rfl
  rw [hput] at hkeeps
  rw [hkeeps o]

/-! ### Agreement -/

theorem getSlot_of_stored (htext : ¬ (w.objects o).InText i) {s : StoredSlot}
    (hs : (w.objects o).indexed.stored i = some s) (ha : s.attributes.accessor = false)
    (strict : ℕ → Bool) : getSlot o (.index i) strict Slot.new w = .ok s.value w := by
  have hlook : getPropertySlot o (.index i) Slot.new w =
      .ok (true, Slot.new.set1 s.value s.attributes (some o)) w :=
    getIndexedPropertySlot_of_stored htext hs
  have hvalue : slotValue o true (Slot.new.set1 s.value s.attributes (some o)) w =
      .ok s.value w := by
    change s.get (.object o) w = _
    unfold StoredSlot.get
    rw [if_neg (by rw [ha]; exact Bool.false_ne_true)]
    rfl
  unfold getSlot
  rw [bind_of_ok hlook]
  dsimp only
  rw [bind_of_ok hvalue, Vm.object_bind]
  cases (w.objects o).class_ <;> rfl

theorem toSymbol_of_inVector (hsound : ix.Sound) (hi : inVector ix key = some i)
    (display : F64 → String) : toSymbol display key =
      if (F64.ofInt i).eq key.getNumber then .index i else .key (display key.getNumber) := by
  unfold toSymbol
  dsimp only
  rw [toU32_of_inVector hsound hi]

theorem ByValAgrees.fits {display : F64 → String} (h : ByValAgrees display w o key)
    (hsound : (w.objects o).indexed.Sound) (hdisplay : ∀ n, display n ≠ "length") :
    ByValFits w o key := by
  intro i hi
  have hput : PutsAgree w o key (toSymbol display key) := h.put
  rw [toSymbol_of_inVector hsound hi] at hput
  cases heq : (F64.ofInt i).eq key.getNumber with
  | true =>
    rw [heq, if_pos rfl] at hput
    have htext : ¬ (w.objects o).InText i := fun hc => not_putsAgree_of_inText hi hc hput
    exact ⟨rfl, htext, (putsAgree_iff hi hsound htext).mp hput⟩
  | false =>
    -- the assignment goes to a named property, and the shortcut to the vector
    rw [heq, if_neg Bool.false_ne_true] at hput
    exact absurd hput (not_putsAgree_of_key hi (hdisplay _))

theorem ByValFits.agrees (h : ByValFits w o key) (hsound : (w.objects o).indexed.Sound)
    (display : F64 → String) : ByValAgrees display w o key := by
  constructor
  case get =>
    intro v hv strict
    obtain ⟨i, hi, hval, hne⟩ := inVector_of_shortcut hsound hv
    obtain ⟨heq, htext, -⟩ := h i hi
    obtain ⟨-, hd, hlt⟩ := inVector_iff.mp hi
    have hs : (w.objects o).indexed.stored i = some ⟨v, objectData⟩ := by
      rw [hsound.stored_vector hd (lt_of_lt_of_le hlt hsound.size), ← hval,
        if_neg fun hc => hne (isEmpty_iff.mp hc)]
    refine ⟨v, w, ?_, rfl, .refl w⟩
    rw [toSymbol_of_inVector hsound hi, heq, if_pos rfl]
    exact getSlot_of_stored htext hs rfl strict
  case put =>
    intro val hval strict
    cases hi : inVector (w.objects o).indexed key with
    | none =>
      -- no shortcut is taken: the opcode is the assignment
      have hput : putByVal o key (toSymbol display key) val strict w =
          put o (toSymbol display key) val strict w := by
        unfold putByVal
        rw [Vm.object_bind, hi]
      rw [hput]
      exact .refl _
    | some i =>
      obtain ⟨heq, htext, hfit⟩ := h i hi
      rw [toSymbol_of_inVector hsound hi, heq, if_pos rfl]
      exact (putsAgree_iff hi hsound htext).mpr hfit val hval strict

def oneElementWorld : World := arrayWorld.after (.on 0 (.put (.index 0) (.int32 1) true))

theorem reachable_oneElementWorld : Reachable (fun _ _ => True) oneElementWorld :=
  (reachable_arrayWorld.mono fun _ _ _ => trivial).step (.on 0 (.put (.index 0) (.int32 1) true))
    (show 0 < 1 by decide) trivial rfl

end Starlight
