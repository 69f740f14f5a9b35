import Starlight.Vm.Double
import Starlight.Vm.OwnElements

/-!
# Array-like objects

An array-like object of length `n` has ordinary elements, some of which may be missing, and a writable
length: that of an array, or an own property `length` of an object of another class. Reading, assigning and
deleting an element, and setting the length, are specified on the partial sequence of its elements.
-/

namespace Starlight

open JsObject World Exec IndexedElements

variable {w w' : World} {o n m i : ℕ} {e e' : ℕ → Option JsValue} {v : JsValue} {ix : IndexedElements}

/-- `to_uint32`, of a value that needs no conversion code. -/
def toUint32 : JsValue → Vm ℕ
  | .int32 i => return i.toNat
  | v => do
    let number ← toNumber v
    if number.isNan || number.isInfinite then return 0
    else return number.floor.toU32

def getLength (o : ℕ) : Vm ℕ := do
  let obj ← Vm.object o
  if obj.class_ = .array then
    return obj.indexed.length
  else
    let len ← getSlot o Symbol.length (fun _ => false) Slot.new
    toUint32 len

def JsValue.IsNumber (v : JsValue) (n : ℕ) : Prop := v.denote = (JsValue.newF64 n).denote

def HasLength (w : World) (o n : ℕ) : Prop :=
  if (w.objects o).class_ = .array then
    (w.objects o).indexed.length = n ∧ (w.objects o).indexed.writable = true
  else ∃ s, namedSlot (w.table o) (w.objects o) Symbol.length = some s ∧ s.attributes.data = true ∧
    s.attributes.writable = true ∧ s.value.IsNumber n

structure ArrayLike (w : World) (o n : ℕ) (e : ℕ → Option JsValue) : Prop where
  own : OwnElements w o
  extensible : (w.objects o).extensible = true
  length : HasLength w o n
  u32 : n < 2 ^ 32
  stored : ∀ i, (w.objects o).indexed.stored i = (e i).map fun v => ⟨v, objectData⟩
  value : ∀ i v, e i = some v → v ≠ .empty

/-! ### Lengths -/

theorem HasLength.of_array (h : HasLength w o n) (hc : (w.objects o).class_ = .array) :
    (w.objects o).indexed.length = n ∧ (w.objects o).indexed.writable = true := by
  rwa [HasLength, if_pos hc] at h

theorem HasLength.of_not_array (h : HasLength w o n) (hc : (w.objects o).class_ ≠ .array) :
    ∃ s, namedSlot (w.table o) (w.objects o) Symbol.length = some s ∧ s.attributes.data = true ∧
      s.attributes.writable = true ∧ s.value.IsNumber n := by
  rwa [HasLength, if_neg hc] at h

theorem HasLength.rewrites (h : HasLength w o n) (hr : Rewrites w w' o ix)
    (hlen : ix.length = (w.objects o).indexed.length) (hw : ix.writable = (w.objects o).indexed.writable) :
    HasLength w' o n := by
  unfold HasLength
  rw [hr.class_eq, hr.indexed, hlen, hw, hr.namedSlot]
  exact h

theorem not_overridesLength (h : OwnElements w o) (hc : (w.objects o).class_ ≠ .array) :
    ¬ overridesLength (w.objects o).class_ := by
  have hplain := h.plain
  cases hcl : (w.objects o).class_ with
  | array => exact absurd hcl hc
  | string text =>
    rw [hcl] at hplain
    cases hplain
  | _ => exact id

theorem JsValue.IsNumber.cases (h : v.IsNumber n) :
    (∃ i : BitVec 32, v = .int32 i ∧ i.toInt = n) ∨ v = .double (.fin n) := by
  cases v with
  | int32 i =>
    refine .inl ⟨i, rfl, ?_⟩
    have hnum : F64.ofInt i.toInt = F64.ofInt n := by
      simpa [IsNumber, denote, newF64] using h
    have hcast : ((i.toInt : ℤ) : ℚ) = ((n : ℤ) : ℚ) := by
      simpa [F64.ofInt] using hnum
    exact_mod_cast hcast
  | double d =>
    refine .inr ?_
    have hnum : d = F64.ofInt n := by
      simpa [IsNumber, denote, newF64] using h
    rw [hnum]
    rfl
  | _ => simp [IsNumber, denote, newF64] at h

theorem JsValue.IsNumber.toUint32 (h : v.IsNumber n) (hn : n < 2 ^ 32) :
    Starlight.toUint32 v = pure n := by
  rcases h.cases with ⟨i, rfl, hi⟩ | rfl
  · have hnat : i.toNat = n := by
      have := BitVec.toInt_eq_toNat_cond i
      split at this <;> omega
    rw [Starlight.toUint32, hnat]
  · have hfloor : (F64.fin n).floor = F64.ofInt n := by simp [F64.floor, F64.ofInt]
    change (do
      let number ← toNumber (.double (.fin n))
      if number.isNan || number.isInfinite then return 0
      else return number.floor.toU32 : Vm ℕ) = _
    change (return (F64.fin n).floor.toU32 : Vm ℕ) = _
    rw [hfloor, toU32_ofInt hn]

theorem JsValue.IsNumber.asksLength (h : v.IsNumber n) (hn : n < 2 ^ 32) : AsksLength (assignDesc v) n where
  configurable := rfl
  enumerable := rfl
  accessor := rfl
  value := rfl
  number := by
    refine ⟨F64.ofInt n, ?_, toU32_ofInt hn, by simp [F64.eq, F64.ofInt]⟩
    rcases h.cases with ⟨i, rfl, hi⟩ | rfl
    · change (pure (F64.ofInt i.toInt) : Vm F64) = _
      rw [hi]
    · rfl

theorem JsValue.IsNumber.getNumber (h : v.IsNumber n) : v.isNumber = true ∧ v.getNumber = .fin n := by
  rcases h.cases with ⟨i, rfl, hi⟩ | rfl
  · refine ⟨rfl, ?_⟩
    change F64.ofInt i.toInt = _
    rw [hi]
    rfl
  · exact ⟨rfl, rfl⟩

theorem JsValue.IsNumber.unique (h : v.IsNumber n) (h' : v.IsNumber m) : n = m := by
  have hval := h.getNumber.2.symm.trans h'.getNumber.2
  have hcast : ((n : ℕ) : ℚ) = (m : ℚ) := F64.fin.inj hval
  exact_mod_cast hcast

theorem sameValue_int32 {i : BitVec 32} {u : JsValue} (hu : u.IsNumber n) :
    (JsValue.int32 i).sameValue u = true ↔ (JsValue.int32 i).IsNumber n := by
  obtain ⟨hnum, hval⟩ := hu.getNumber
  have hint : (JsValue.int32 i).getNumber = .fin i.toInt := rfl
  have hsame : (JsValue.int32 i).sameValue u = (F64.fin i.toInt).eq (.fin n) := by
    unfold JsValue.sameValue
    rw [hnum, hval, hint]
    cases (F64.fin i.toInt).eq (.fin n) <;> rfl
  have hdenote : (JsValue.int32 i).IsNumber n ↔ ((i.toInt : ℤ) : ℚ) = (n : ℚ) := by
    simp [JsValue.IsNumber, JsValue.denote, JsValue.newF64, F64.ofInt]
  rw [hsame, hdenote]
  simp [F64.eq]

theorem isNumber_newU32 (hn : n < 2 ^ 31) : (JsValue.newU32 n).IsNumber n := JsValue.denote_newU32 hn

theorem toInt_ofNat (hn : n < 2 ^ 32) (hlarge : 2 ^ 31 ≤ n) :
    (BitVec.ofNat 32 n).toInt = (n : ℤ) - 2 ^ 32 := by
  rw [BitVec.toInt_eq_toNat_cond, BitVec.toNat_ofNat, Nat.mod_eq_of_lt hn, if_neg (by omega)]
  norm_num

theorem not_isNumber_newU32 (hn : n < 2 ^ 32) (hlarge : 2 ^ 31 ≤ n) : ¬ (JsValue.newU32 n).IsNumber n := by
  intro h
  rcases h.cases with ⟨i, heq, hi⟩ | heq
  · cases heq
    rw [toInt_ofNat hn hlarge] at hi
    omega
  · cases heq

/-! ### Elements -/

theorem World.Read.rewrites (hr : Read layoutPolicy w w') (h : OwnElements w o) :
    Rewrites w w' o (w.objects o).indexed where
  touch := hr.touch h.inv o
  sound b := by
    rw [hr.objects]
    exact h.sound b
  object := ⟨(w.objects o).structure_, by rw [hr.objects]⟩
  table := hr.table h.inv h.lt
  prototype := hr.prototype h.inv h.lt
  shape r hlt _ := hr.shape r hlt

namespace ArrayLike

theorem rewrites (h : ArrayLike w o n e) (hr : Rewrites w w' o ix)
    (hlen : ix.length = (w.objects o).indexed.length) (hw : ix.writable = (w.objects o).indexed.writable)
    (hstored : ∀ i, ix.stored i = (e' i).map fun v => ⟨v, objectData⟩)
    (hvalue : ∀ i v, e' i = some v → v ≠ .empty) : ArrayLike w' o n e' where
  own := hr.ownElements h.own
  extensible := hr.extensible.trans h.extensible
  length := h.length.rewrites hr hlen hw
  u32 := h.u32
  stored i := by rw [hr.indexed, hstored]
  value := hvalue

theorem read (h : ArrayLike w o n e) (hr : Read layoutPolicy w w') : ArrayLike w' o n e :=
  h.rewrites (hr.rewrites h.own) rfl rfl h.stored h.value

theorem attributes (h : ArrayLike w o n e) {s : StoredSlot}
    (hs : (w.objects o).indexed.stored i = some s) : s.attributes = objectData ∧ e i = some s.value := by
  rw [h.stored] at hs
  obtain ⟨v, hv, rfl⟩ := Option.map_eq_some_iff.mp hs
  exact ⟨rfl, hv⟩

theorem lt_length (h : ArrayLike w o n e) (hi : e i = some v) : i < (w.objects o).indexed.length := by
  have hs := h.stored i
  rw [hi] at hs
  exact (h.own.sound o).lt_of_stored hs

theorem getLength (h : ArrayLike w o n e) :
    ∃ w', Starlight.getLength o w = .ok n w' ∧ ArrayLike w' o n e ∧ w'.objects = w.objects := by
  unfold Starlight.getLength
  rw [Vm.object_bind]
  by_cases hc : (w.objects o).class_ = .array
  · rw [if_pos hc, (h.length.of_array hc).1]
    exact ⟨w, rfl, h, rfl⟩
  · rw [if_neg hc]
    obtain ⟨s, hs, hd, -, hnum⟩ := h.length.of_not_array hc
    have hname : ∀ i, Symbol.length ≠ .index i := fun i hi => nomatch hi
    have hlen := not_overridesLength h.own hc
    obtain ⟨entry, he, hs'⟩ := Option.bind_eq_some_iff.mp hs
    obtain ⟨v, hv, rfl⟩ := Option.map_eq_some_iff.mp hs'
    have hprop : CachedProperty w o Symbol.length (some entry.offset) entry v :=
      ⟨hname, rfl, he, hv, hd, fun hl => hlen hl.1⟩
    obtain ⟨c, w', hr, hlook⟩ := hprop.getProperty h.own.inv h.own.lt Slot.new
    have hcaller : ¬ StrictCaller w' o Symbol.length (fun _ => false) v := fun hs => nomatch hs.2.1
    have hget := getSlot_of_found hlook ((hprop.typed h.own.inv h.own.lt).not_accessor_of_data hd) hcaller
    refine ⟨w', ?_, h.read hr, hr.objects⟩
    rw [bind_of_ok hget]
    exact congrFun (hnum.toUint32 h.u32) w'

theorem get (h : ArrayLike w o n e) (i : ℕ) (strict : ℕ → Bool) :
    getSlot o (.index i) strict Slot.new w = .ok ((e i).getD .undefined) w := by
  rw [h.own.getSlot_eq fun s hs => by rw [(h.attributes hs).1]; rfl, h.stored i]
  cases e i <;> rfl

theorem delete (h : ArrayLike w o n e) (i : ℕ) (throwable : Bool) :
    ∃ w', JsObject.delete o (.index i) throwable w = .ok true w' ∧
      ArrayLike w' o n (Function.update e i none) := by
  have hfree : ¬ Fixed (w.objects o).indexed.stored i := by
    rintro ⟨s, hs, hconf⟩
    rw [(h.attributes hs).1] at hconf
    cases hconf
  obtain ⟨w', hrun, hr⟩ := h.own.delete hfree throwable
  refine ⟨w', hrun, h.rewrites hr (length_remove _ i) (writable_remove _ i) (fun j => ?_) fun j v hj => ?_⟩
  · rw [(h.own.sound o).stored_remove, Function.update_apply, Function.update_apply]
    split
    · rfl
    · exact h.stored j
  · rw [Function.update_apply] at hj
    split at hj
    · cases hj
    · exact h.value j v hj

theorem put (h : ArrayLike w o n e) (hi : i < (w.objects o).indexed.length) (hv : v ≠ .empty)
    (throwable : Bool) : ∃ w' u, JsObject.put o (.index i) v throwable w = .ok () w' ∧
      ArrayLike w' o n (Function.update e i (some u)) ∧ v.sameValue u = true := by
  have hnew : (w.objects o).indexed.stored i = none → Creatable w o i := fun _ =>
    ⟨h.extensible, .inl hi, fun j hj hji => by omega⟩
  obtain ⟨w', ix, hrun, hr, hst⟩ := h.own.put hv (fun s hs => (h.attributes hs).1) hnew throwable
  obtain ⟨u, hstored, hu⟩ := hst.stored
  have hlen : ix.length = (w.objects o).indexed.length := by
    rw [hst.length, max_eq_left (by omega)]
  have hune : u ≠ .empty := by
    rcases hu with rfl | ⟨-, hold⟩
    · exact hv
    · exact h.value i u (h.attributes hold).2
  refine ⟨w', u, hrun, h.rewrites hr hlen hst.writable (fun j => ?_) fun j u' hj => ?_, ?_⟩
  · rw [hstored, Function.update_apply, Function.update_apply]
    split
    · rfl
    · exact h.stored j
  · rw [Function.update_apply] at hj
    split at hj
    · cases hj
      exact hune
    · exact h.value j u' hj
  · rcases hu with rfl | ⟨hsame, -⟩
    · exact JsValue.sameValue_self u
    · exact hsame

end ArrayLike

/-! ### Setting the length -/

/-- What a lookup finds under the length of an array. -/
def lengthProperty (ix : IndexedElements) (o : ℕ) : Slot :=
  Slot.new.set1 (JsValue.newF64 ix.length) (createData { writable := ix.writable }) (some o)

theorem getPropertySlot_length (hc : (w.objects o).class_ = .array) :
    getPropertySlot o Symbol.length Slot.new w =
      .ok (true, lengthProperty (w.objects o).indexed o) w := by
  have hown : getOwnNonIndexedPropertySlot o Symbol.length Slot.new w =
      .ok (true, lengthProperty (w.objects o).indexed o) w := by
    unfold getOwnNonIndexedPropertySlot
    rw [Vm.object_bind, hc]
    dsimp only
    rw [if_pos rfl]
    rfl
  change getNonIndexedPropertySlot o Symbol.length Slot.new w = _
  unfold getNonIndexedPropertySlot
  rw [gets_bind, getNonIndexedPropertySlotFrom, bind_of_ok hown]
  rfl

theorem canPut_length : canPut o true (lengthProperty ix o) w = .ok ix.writable w :=
  canPut_found rfl rfl

theorem getSlot_length (hc : (w.objects o).class_ = .array) (strict : ℕ → Bool) :
    getSlot o Symbol.length strict Slot.new w = .ok (.newF64 (w.objects o).indexed.length) w := by
  have hlook := getPropertySlot_length hc
  refine getSlot_of_found hlook rfl ?_
  rintro ⟨hf, -⟩
  rw [hc] at hf
  cases hf

theorem put_length_from (hc : (w.objects o).class_ = .array) (v : JsValue) (throwable : Bool) :
    put o Symbol.length v throwable w =
      (putFrom o v throwable true (lengthProperty (w.objects o).indexed o) id (fun desc slot =>
        defineOwnNonIndexedPropertySlot o Symbol.length desc slot throwable) >>= fun _ => pure ()) w := by
  change (putNonIndexedSlot o Symbol.length v Slot.new throwable >>= fun _ => pure ()) w = _
  rw [bind_apply, putNonIndexedSlot, bind_of_ok (getPropertySlot_length hc)]
  rfl

theorem put_length_define (hc : (w.objects o).class_ = .array)
    (hw : (w.objects o).indexed.writable = true) (v : JsValue) (throwable : Bool) :
    put o Symbol.length v throwable w =
      (defineLengthProperty o (assignDesc v) throwable >>= fun _ => pure ()) w := by
  rw [put_length_from hc]
  obtain ⟨slot, hslot⟩ : ∃ slot, slot = lengthProperty (w.objects o).indexed o := ⟨_, rfl⟩
  have hcan : canPut o true slot w = .ok true w := by rw [hslot, canPut_length, hw]
  have hbase : (!slot.isNotFound && slot.base = some o && slot.attributes.data) = true := by
    have hb : slot.base = some o := by rw [hslot]; rfl
    rw [hb, decide_eq_true rfl, hslot, lengthProperty, hw]
    rfl
  rw [← hslot, bind_apply]
  unfold putFrom
  rw [bind_of_ok hcan, if_neg (by simp), if_pos hbase, bind_apply]
  dsimp only [id]
  rw [length_slot_eq hc, bind_apply, bind_apply, assignDesc]
  cases defineLengthProperty o _ throwable w <;> rfl

theorem put_length_array (hc : (w.objects o).class_ = .array)
    (hw : (w.objects o).indexed.writable = true) (v : JsValue) (throwable : Bool) :
    put o Symbol.length v throwable w =
      (defineOwnProperty o Symbol.length (assignDesc v) throwable >>= fun _ => pure ()) w := by
  rw [put_length_define hc hw, bind_apply, bind_apply, length_method_eq hc]

theorem put_length_locked (hc : (w.objects o).class_ = .array)
    (hw : (w.objects o).indexed.writable = false) (v : JsValue) :
    put o Symbol.length v false w = .ok () w ∧
      put o Symbol.length v true w = .error (.throw (.typeError "put failed")) w := by
  have hcan : canPut o true (lengthProperty (w.objects o).indexed o) w = .ok false w := by
    rw [canPut_length, hw]
  constructor
  · rw [put_length_from hc, bind_apply, putFrom, bind_of_ok hcan]
    rfl
  · rw [put_length_from hc, bind_apply, putFrom, bind_of_ok hcan]
    rfl

theorem OwnElements.put_length_cut (h : OwnElements w o) (hc : (w.objects o).class_ = .array)
    (hw : (w.objects o).indexed.writable = true) (hlen : (w.objects o).indexed.length = m + 1)
    (hm : m + 1 < 2 ^ 32) (hlast : (w.objects o).indexed.stored m = none) (hv : v.IsNumber m)
    (throwable : Bool) : ∃ w' ix, JsObject.put o Symbol.length v throwable w = .ok () w' ∧
      Rewrites w w' o ix ∧ ix.length = m ∧ ix.writable = true ∧
      ix.stored = (w.objects o).indexed.stored := by
  have hix := h.sound o
  have hlt : m < (w.objects o).indexed.length := by omega
  have hmax : m ≠ 4294967295 := by omega
  have hnone : ∀ i, m ≤ i → (w.objects o).indexed.stored i = none := by
    intro i hi
    by_cases him : i = m
    · rw [him, hlast]
    · exact hix.stored_eq_none (by omega)
  have hbelow : below (w.objects o).indexed.stored m = (w.objects o).indexed.stored := by
    funext i
    unfold below
    split
    · rfl
    · next hi => exact (hnone i (Nat.le_of_not_lt hi)).symm
  obtain ⟨ix, hset, hwr, hstored⟩ : ∃ ix : IndexedElements, JsObject.setLength o m throwable w =
      .ok true (w.withElements o (ix.setLength m)) ∧ ix.writable = true ∧
        (ix.setLength m).stored = (w.objects o).indexed.stored := by
    cases hd : (w.objects o).indexed.dense with
    | true =>
      exact ⟨_, setLength_of_dense hlt hmax hd throwable, by rw [writable_shrinkDense, hw],
        (hix.stored_shrinkDense hd hlt.le).trans hbelow⟩
    | false =>
      have hsmall : (w.objects o).indexed.length - m < 1 <<< 24 := by
        rw [hlen, Nat.add_sub_cancel_left]
        decide
      have hfree : ∀ i, m ≤ i → ¬ Fixed (w.objects o).indexed.stored i := by
        rintro i hi ⟨s, hs, -⟩
        rw [hnone i hi] at hs
        cases hs
      obtain ⟨is, his, hrun⟩ := shrinkFromEnd_all w o throwable hlt.le hix hfree
      refine ⟨_, (setLength_of_small hlt hmax hd hsmall throwable).trans hrun,
        by rw [writable_removeAll, hw], ?_⟩
      rw [hix.stored_removeAll_cut (hix.blank hd) hlt.le,
        below_removed_iff.mpr fun i hi him => absurd (his i hi) (by omega), hbelow]
  have hne : m ≠ (w.objects o).indexed.length := by omega
  have hdef := defineOwnProperty_length_ok hc (hv.asksLength (by omega)) hw hne hset hwr
  have hrun : JsObject.put o Symbol.length v throwable w =
      .ok () (w.withElements o (afterLength (ix.setLength m) (assignDesc v))) := by
    rw [put_length_array hc hw, bind_of_ok hdef]
    rfl
  exact ⟨_, _, hrun, h.rewrites_self hrun, rfl, rfl, hstored⟩

theorem ArrayLike.cut_array (h : ArrayLike w o (m + 1) e) (hc : (w.objects o).class_ = .array)
    (hlast : e m = none) (hv : v.IsNumber m) (throwable : Bool) :
    ∃ w', JsObject.put o Symbol.length v throwable w = .ok () w' ∧ ArrayLike w' o m e := by
  obtain ⟨hlen, hw⟩ := h.length.of_array hc
  have hnone : (w.objects o).indexed.stored m = none := by
    rw [h.stored, hlast]
    rfl
  obtain ⟨w', ix, hrun, hr, hlen', hw', hstored⟩ :=
    h.own.put_length_cut hc hw hlen h.u32 hnone hv throwable
  refine ⟨w', hrun, hr.ownElements h.own, hr.extensible.trans h.extensible, ?_,
    lt_trans (Nat.lt_succ_self m) h.u32, fun i => by rw [hr.indexed, hstored, h.stored], h.value⟩
  rw [HasLength, hr.class_eq, if_pos hc, hr.indexed]
  exact ⟨hlen', hw'⟩

theorem put_length_invalid (hc : (w.objects o).class_ = .array)
    (hw : (w.objects o).indexed.writable = true) {d : F64} (hv : toNumber v = pure d)
    (hd : (F64.ofInt d.toU32).eq d = false) (throwable : Bool) :
    JsObject.put o Symbol.length v throwable w =
      .error (.throw (.typeError "invalid array length")) w := by
  have hdef : defineLengthProperty o (assignDesc v) throwable w =
      defineLengthTo o (assignDesc v) d throwable w := by
    change (toNumber v >>= fun d => defineLengthTo o (assignDesc v) d throwable : Vm Bool) w = _
    rw [hv]
    rfl
  have hend : defineLengthTo o (assignDesc v) d throwable w =
      .error (.throw (.typeError "invalid array length")) w := by
    unfold defineLengthTo
    rw [hd]
    rfl
  rw [put_length_define hc hw, bind_apply, hdef, hend]

theorem put_length_negative (hc : (w.objects o).class_ = .array)
    (hw : (w.objects o).indexed.writable = true) {i : BitVec 32} (hi : i.toInt < 0) (throwable : Bool) :
    JsObject.put o Symbol.length (.int32 i) throwable w =
      .error (.throw (.typeError "invalid array length")) w := by
  refine put_length_invalid hc hw (d := F64.ofInt i.toInt) rfl ?_ throwable
  have hu32 : (F64.ofInt i.toInt).toU32 = 0 := by
    rw [F64.ofInt, F64.toU32, Rat.floor_intCast, Int.toNat_of_nonpos hi.le]
    rfl
  have hcast : ((i.toInt : ℤ) : ℚ) ≠ 0 := by exact_mod_cast hi.ne
  rw [hu32]
  simpa [F64.eq, F64.ofInt] using hcast.symm

theorem ArrayLike.putLength (h : ArrayLike w o n e) (hc : (w.objects o).class_ ≠ .array) (v : JsValue)
    (throwable : Bool) : ∃ w', JsObject.put o Symbol.length v throwable w = .ok () w' ∧
      (∀ m, m < 2 ^ 32 → HasLength w' o m → ArrayLike w' o m e) ∧
      ∃ s, namedSlot (w'.table o) (w'.objects o) Symbol.length = some s ∧ s.attributes.data = true ∧
        s.attributes.writable = true ∧ (s.value = v ∨ v.sameValue s.value = true ∧ s.value.IsNumber n) := by
  obtain ⟨s, hs, hd, hwr, hnum⟩ := h.length.of_not_array hc
  have hname : ∀ i, Symbol.length ≠ .index i := fun i hi => nomatch hi
  have hlen := not_overridesLength h.own hc
  obtain ⟨entry, he, hs'⟩ := Option.bind_eq_some_iff.mp hs
  obtain ⟨old, hold, rfl⟩ := Option.map_eq_some_iff.mp hs'
  have hprop : CachedProperty w o Symbol.length (some entry.offset) entry old :=
    ⟨hname, rfl, he, hold, hd, fun hl => hlen hl.1⟩
  have hfun : ¬ ((w.objects o).class_ = .function ∧ Symbol.length = Symbol.prototype) :=
    fun hf => nomatch hf.2
  obtain ⟨slot, w₁, hr, hput⟩ := hprop.putSlot h.own.inv h.own.lt hwr hfun v throwable
  have htable := hr.table h.own.inv h.own.lt
  have hproto := hr.prototype h.own.inv h.own.lt
  -- the slot is written or left, so that the elements and the structure stay
  have hrest : ∀ w', (w' = w₁ ∨ w' = w₁.written o entry v) →
      JsObject.put o Symbol.length v throwable w = .ok () w' →
      ∀ m, m < 2 ^ 32 → HasLength w' o m → ArrayLike w' o m e := by
    intro w' hw' hrun m hm hlength
    have hobj : (w'.objects o).indexed = (w.objects o).indexed ∧
        (w'.objects o).extensible = (w.objects o).extensible ∧ w'.prototype o = w.prototype o := by
      rcases hw' with rfl | rfl
      · exact ⟨by rw [hr.objects], by rw [hr.objects], hproto⟩
      · rw [World.written_self, hr.objects]
        refine ⟨rfl, rfl, ?_⟩
        rw [World.prototype, World.structure_written]
        exact hproto
    obtain ⟨ht, hsound⟩ := h.own.touch_put hrun
    exact ⟨h.own.touch ht hsound hobj.2.2, hobj.2.1.trans h.extensible, hlength, hm,
      fun i => by rw [hobj.1, h.stored], h.value⟩
  have hrun : JsObject.put o Symbol.length v throwable w =
      .ok () (if JsValue.sameValue v old = true then w₁ else w₁.written o entry v) := by
    rw [JsObject.put, bind_of_ok hput]
    rfl
  have he₁ : (w₁.table o).lookup Symbol.length = some entry := by rw [htable, he]
  cases hsame : JsValue.sameValue v old with
  | true =>
    rw [hsame, if_pos rfl] at hrun
    refine ⟨_, hrun, hrest _ (.inl rfl) hrun, ⟨old, entry.attrs⟩, ?_, hd, hwr, .inr ⟨hsame, hnum⟩⟩
    exact namedSlot_of_lookup he₁ (by rw [hr.objects, hold])
  | false =>
    rw [hsame, if_neg Bool.false_ne_true] at hrun
    refine ⟨_, hrun, hrest _ (.inr rfl) hrun, ⟨v, entry.attrs⟩, ?_, hd, hwr, .inl rfl⟩
    have hlt : entry.offset < (w₁.objects o).slots.length := by
      rw [hr.objects]
      exact (List.getElem?_eq_some_iff.mp hold).1
    refine namedSlot_of_lookup ?_ ?_
    · rw [World.table, World.structure_written]
      exact he₁
    · rw [World.written_self]
      exact List.getElem?_set_self hlt

end Starlight
