import Starlight.Vm.DataView

/-!
# Writing and reading back

The bytes in memory depend on the flag of the call only, not on the machine. A setter that stores a value of
the width of its type is undone by the getter when the value is the one that was asked for; the setters that
store a double also write behind the element, or fail their assertion.
-/

namespace Starlight

open Exec

/-! ### The order of the bytes -/

def orderedBytes (littleEndian : Bool) (w bits : ℕ) : List (BitVec 8) :=
  if littleEndian then leBytes w bits else (leBytes w bits).reverse

def ofOrderedBytes (littleEndian : Bool) (bs : List (BitVec 8)) : ℕ :=
  ofLeBytes (if littleEndian then bs else bs.reverse)

section

variable {system : Endianess} {w n m : ℕ} {bs : List (BitVec 8)}

theorem ofLeBytes_inj {bs bs' : List (BitVec 8)} (hlen : bs.length = bs'.length)
    (h : ofLeBytes bs = ofLeBytes bs') : bs = bs' := by
  rw [← leBytes_ofLeBytes bs, ← leBytes_ofLeBytes bs', hlen, h]

@[simp] theorem length_orderedBytes (e : Bool) (w n : ℕ) : (orderedBytes e w n).length = w := by
  cases e
  · exact (List.length_reverse).trans (length_leBytes w n)
  · exact length_leBytes w n

theorem nativeBytes_byteSwap (hs : system ≠ .native) (w n : ℕ) (e : Bool) :
    nativeBytes system w (byteSwap system w n (if e then .little else .big)) = orderedBytes e w n := by
  have hrev : leBytes w (ofLeBytes (leBytes w n).reverse) = (leBytes w n).reverse := by
    have h := leBytes_ofLeBytes (leBytes w n).reverse
    rwa [List.length_reverse, length_leBytes] at h
  cases system with
  | native => exact absurd rfl hs
  | little =>
    cases e
    · exact hrev
    · rfl
  | big =>
    cases e
    · rfl
    · exact (congrArg List.reverse hrev).trans (List.reverse_reverse _)

theorem byteSwap_ofNativeBytes (hs : system ≠ .native) (hw : bs.length = w) (e : Bool) :
    byteSwap system w (ofNativeBytes system bs) (if e then .little else .big) = ofOrderedBytes e bs := by
  subst hw
  cases system with
  | native => exact absurd rfl hs
  | little =>
    cases e
    · exact congrArg (fun l => ofLeBytes l.reverse) (leBytes_ofLeBytes bs)
    · rfl
  | big =>
    cases e
    · rfl
    · have h := leBytes_ofLeBytes bs.reverse
      rw [List.length_reverse] at h
      exact congrArg ofLeBytes ((congrArg List.reverse h).trans (List.reverse_reverse bs))

theorem ofOrderedBytes_lt (e : Bool) (bs : List (BitVec 8)) : ofOrderedBytes e bs < 256 ^ bs.length := by
  cases e
  · exact (ofLeBytes_lt bs.reverse).trans_eq (congrArg _ List.length_reverse)
  · exact ofLeBytes_lt bs

theorem ofOrderedBytes_orderedBytes (e : Bool) (w n : ℕ) :
    ofOrderedBytes e (orderedBytes e w n) = n % 256 ^ w := by
  cases e
  · exact (congrArg ofLeBytes (List.reverse_reverse _)).trans (ofLeBytes_leBytes w n)
  · exact ofLeBytes_leBytes w n

theorem ofOrderedBytes_not (e : Bool) (w n : ℕ) :
    ofOrderedBytes (!e) (orderedBytes e w n) = ofLeBytes (leBytes w n).reverse := by
  cases e <;> rfl

theorem eq_orderedBytes_iff (e : Bool) (hw : bs.length = w) (hn : n < 256 ^ w) :
    bs = orderedBytes e w n ↔ ofOrderedBytes e bs = n := by
  constructor
  · rintro rfl
    rw [ofOrderedBytes_orderedBytes, Nat.mod_eq_of_lt hn]
  · intro h
    have hread : ofOrderedBytes e bs = ofOrderedBytes e (orderedBytes e w n) := by
      rw [h, ofOrderedBytes_orderedBytes, Nat.mod_eq_of_lt hn]
    have hlen : bs.length = (orderedBytes e w n).length := by rw [hw, length_orderedBytes]
    cases e
    · have hlen' : bs.reverse.length = (orderedBytes false w n).reverse.length := by
        rw [List.length_reverse, List.length_reverse, hlen]
      exact List.reverse_injective (ofLeBytes_inj hlen' hread)
    · exact ofLeBytes_inj hlen hread

end

/-! ### The law -/

structure ViewAccess (c : Conversions) (h : BufferHeap) (t : IntType) (o : ℕ) (v : DataView) (k : JsValue)
    (offset : ℕ) : Prop where
  view : h.views o = some v
  attached : (h.buffer v.buffer).attached = true
  index : ∀ h, toIndex c k h = .ok offset h
  inRange : offset + ElementType.size (.int t) ≤ v.length

def IntType.reduce (t : IntType) (z : ℤ) : ℕ := (z % 2 ^ t.bits).toNat

/-- Writing the number `z` ends, changes the bytes of the element only, and reading gives `z` reduced to the
type, or with the other flag the value of the reversed bytes. -/
def WriteReadLaw (system : Endianess) (t : IntType) (found : JsValue → String) (c : Conversions) (o : ℕ)
    (v : DataView) (k : JsValue) (offset : ℕ) (value : JsValue) (littleEndian : Bool) (z : ℤ)
    (h : BufferHeap) : Prop :=
  ∃ m : Memory,
    dataViewPrototypeSet system (.int t) found c (.object o) [k, value, .bool littleEndian] h =
      .ok () (h.withMemory m) ∧
    (∀ a, t.bits / 8 ≤ (a - v.address h offset).toNat → m a = h.memory a) ∧
    (∃ w, dataViewPrototypeGet system (.int t) c (.object o) [k, .bool littleEndian] (h.withMemory m) =
      .ok w (h.withMemory m) ∧ w.IsNumberOf (t.cast z)) ∧
    ∃ w, dataViewPrototypeGet system (.int t) c (.object o) [k, .bool !littleEndian] (h.withMemory m) =
      .ok w (h.withMemory m) ∧
        w.IsNumberOf (t.cast (ofLeBytes (leBytes (t.bits / 8) (t.reduce z)).reverse))

section

variable {system : Endianess} {t : IntType} {found : JsValue → String} {c : Conversions} {h : BufferHeap}
  {o offset : ℕ} {v : DataView} {k value : JsValue} {x : F64} {z : ℤ}

/-- **Reading** an element. -/
theorem ViewAccess.get_eq (ha : ViewAccess c h t o v k offset) (hs : system ≠ .native) (e : Bool)
    (m : Memory) : dataViewPrototypeGet system (.int t) c (.object o) [k, .bool e] (h.withMemory m) =
      .ok (.new t (t.cast (ofOrderedBytes e (m.load (v.address h offset) (t.bits / 8)))))
        (h.withMemory m) := by
  have hthis : thisView (.object o) (h.withMemory m) = .ok (some v) (h.withMemory m) :=
    congrArg (Result.ok · _) ha.view
  have hk : toIndex c (argAt [k, .bool e] 0) (h.withMemory m) = .ok offset (h.withMemory m) := ha.index _
  have hatt : ((h.withMemory m).buffer v.buffer).attached = true := ha.attached
  have hbits := @DataView.get_eq system (.int t) v (h.withMemory m) offset hatt ha.inRange e
  unfold dataViewPrototypeGet
  rw [bind_of_ok hthis]
  dsimp only
  rw [bind_of_ok hk, gets_bind, hatt, if_neg Bool.noConfusion, if_neg (Nat.not_lt.mpr ha.inRange)]
  refine (bind_of_ok hbits _).trans ?_
  rw [byteSwap_ofNativeBytes hs (Memory.length_load _ _ _)]
  rfl

theorem ViewAccess.set_eq (ha : ViewAccess c h t o v k offset) (hx : c.toNumber value = .ok x) (e : Bool) :
    dataViewPrototypeSet system (.int t) found c (.object o) [k, value, .bool e] h =
      v.set system (ElementType.stored (.int t) x).1 offset (ElementType.stored (.int t) x).2 e h := by
  have hk : toIndex c (argAt [k, value, .bool e] 0) h = .ok offset h := ha.index h
  have hx' : Buffers.convert (c.toNumber (argAt [k, value, .bool e] 1)) h = .ok x h :=
    congrArg (Buffers.convert · h) hx
  unfold dataViewPrototypeSet
  rw [bind_of_ok (tryFromView_some ha.view found), bind_of_ok hk, gets_bind, ha.attached,
    if_neg Bool.noConfusion, if_neg (Nat.not_lt.mpr ha.inRange)]
  exact bind_of_ok hx' _

/-! ### Integers of the types up to 32 bits -/

theorem IntType.reduce_lt (t : IntType) (z : ℤ) : t.reduce z < 256 ^ (t.bits / 8) := by
  unfold IntType.reduce
  cases t <;> simp only [IntType.bits] <;> omega

theorem IntType.cast_eq_cast_iff {n : ℕ} (hn : n < 256 ^ (t.bits / 8)) :
    t.cast n = t.cast z ↔ n = t.reduce z := by
  unfold IntType.cast IntType.reduce
  cases t <;>
    simp only [IntType.signed, IntType.bits, Bool.false_eq_true, if_true, if_false, Int.bmod_def]
      at hn ⊢ <;>
    omega

/-! ### When the law holds -/

/-- The numbers that are stored as they are, and whose reversed bytes are no negative int32 either. -/
def IntType.ReadsBack (t : IntType) (z : ℤ) : Prop :=
  ¬ t.Misread (t.cast z) ∧ ¬ t.Misread (t.cast (ofLeBytes (leBytes (t.bits / 8) (t.reduce z)).reverse))

/-- **The law of a store.** The element must be the bytes of the reduced number, and what is written behind
it what is there already. -/
theorem writeReadLaw_iff_of_store (ha : ViewAccess c h t o v k offset) (hs : system ≠ .native)
    (ht : t.bits ≤ 32) {e : Bool} {bs bs' : List (BitVec 8)} (hlen : bs.length = t.bits / 8)
    (hlen' : bs'.length ≤ 8)
    (hset : dataViewPrototypeSet system (.int t) found c (.object o) [k, value, .bool e] h =
      .ok () (h.withMemory (h.memory.store (v.address h offset) (bs ++ bs')))) :
    WriteReadLaw system t found c o v k offset value e z h ↔
      bs = orderedBytes e (t.bits / 8) (t.reduce z) ∧ t.ReadsBack z ∧
        bs' = h.memory.load (v.address h offset + BitVec.ofNat 64 (t.bits / 8)) bs'.length := by
  have hbound : bs.length + bs'.length ≤ 2 ^ 64 := by omega
  have hload := (Memory.load_store_append (m := h.memory) (p := v.address h offset) hbound).1
  have hframe := Memory.store_append_frame_iff (m := h.memory) (p := v.address h offset) hbound
  rw [hlen] at hload hframe
  have hget := fun e => ha.get_eq hs e (h.memory.store (v.address h offset) (bs ++ bs'))
  rw [hload] at hget
  have hread : ∀ (e' : Bool) (y : ℤ), t.InRange y →
      ((∃ w, dataViewPrototypeGet system (.int t) c (.object o) [k, .bool e']
        (h.withMemory (h.memory.store (v.address h offset) (bs ++ bs'))) = .ok w
        (h.withMemory (h.memory.store (v.address h offset) (bs ++ bs'))) ∧ w.IsNumberOf y) ↔
      t.cast (ofOrderedBytes e' bs) = y ∧ ¬ t.Misread y) := by
    intro e' y hy
    rw [hget, ← isNumberOf_new_iff ht (t.inRange_cast _) hy]
    constructor
    · rintro ⟨w, hw, hnum⟩
      rwa [(Result.ok.inj hw).1]
    · exact fun hnum => ⟨_, rfl, hnum⟩
  have hlt : ∀ e', ofOrderedBytes e' bs < 256 ^ (t.bits / 8) := fun e' => hlen ▸ ofOrderedBytes_lt e' bs
  have hfirst := (IntType.cast_eq_cast_iff (z := z) (hlt e)).trans
    (eq_orderedBytes_iff e hlen (t.reduce_lt z)).symm
  constructor
  · rintro ⟨m, hrun, hkeep, hsame, hother⟩
    rw [hset] at hrun
    obtain rfl : h.memory.store _ _ = m := congrArg BufferHeap.memory (Result.ok.inj hrun).2
    obtain ⟨heq, hnot⟩ := (hread e _ (t.inRange_cast _)).mp hsame
    obtain ⟨-, hnot'⟩ := (hread (!e) _ (t.inRange_cast _)).mp hother
    exact ⟨hfirst.mp heq, ⟨hnot, hnot'⟩, hframe.mp hkeep⟩
  · rintro ⟨heq, ⟨hnot, hnot'⟩, hkeep⟩
    refine ⟨_, hset, hframe.mpr hkeep, (hread e _ (t.inRange_cast _)).mpr ⟨hfirst.mpr heq, hnot⟩,
      (hread (!e) _ (t.inRange_cast _)).mpr ⟨?_, hnot'⟩⟩
    rw [heq, ofOrderedBytes_not]

theorem ViewAccess.set_store (ha : ViewAccess c h t o v k offset) (hs : system ≠ .native)
    (hx : c.toNumber value = .ok x) (e : Bool) {t' : ElementType} {bits : ℕ}
    (hstored : ElementType.stored (.int t) x = (t', bits)) (hfits : offset + t'.size ≤ v.length) :
    dataViewPrototypeSet system (.int t) found c (.object o) [k, value, .bool e] h =
      .ok () (h.withMemory (h.memory.store (v.address h offset) (orderedBytes e t'.size bits))) := by
  rw [ha.set_eq hx, hstored, DataView.set_eq ha.attached hfits, nativeBytes_byteSwap hs]

theorem writeReadLaw_iff_of_stored (ha : ViewAccess c h t o v k offset) (hs : system ≠ .native)
    (ht : t.bits ≤ 32) (hx : c.toNumber value = .ok x) {e : Bool} {n : ℕ}
    (hstored : ElementType.stored (.int t) x = (.int t, n)) (hn : n < 256 ^ (t.bits / 8)) :
    WriteReadLaw system t found c o v k offset value e z h ↔ n = t.reduce z ∧ t.ReadsBack z := by
  have hset : dataViewPrototypeSet system (.int t) found c (.object o) [k, value, .bool e] h = _ :=
    ha.set_store hs hx e hstored ha.inRange
  have hnil : ([] : List (BitVec 8)).length ≤ 8 := Nat.zero_le 8
  rw [← List.append_nil (orderedBytes e _ n)] at hset
  rw [writeReadLaw_iff_of_store ha hs ht (length_orderedBytes e _ n) hnil hset,
    eq_orderedBytes_iff e (length_orderedBytes e _ n) (t.reduce_lt z), ofOrderedBytes_orderedBytes,
    Nat.mod_eq_of_lt hn]
  exact and_congr_right fun _ => and_iff_left rfl

theorem writeReadLaw_iff_of_double (ha : ViewAccess c h t o v k offset) (hs : system ≠ .native)
    (ht : t.bits ≤ 32) (hx : c.toNumber value = .ok x) {e : Bool}
    (hstored : ElementType.stored (.int t) x = (.f64, x.toBits.toNat)) (hback : t.ReadsBack z) :
    WriteReadLaw system t found c o v k offset value e z h ↔
      offset + 8 ≤ v.length ∧ orderedBytes e 8 x.toBits.toNat = orderedBytes e (t.bits / 8) (t.reduce z) ++
        h.memory.load (v.address h offset + BitVec.ofNat 64 (t.bits / 8)) (8 - t.bits / 8) := by
  by_cases hfits : offset + ElementType.f64.size ≤ v.length
  · have hset : dataViewPrototypeSet system (.int t) found c (.object o) [k, value, .bool e] h = _ :=
      ha.set_store hs hx e hstored hfits
    have hlen : (orderedBytes e 8 x.toBits.toNat).length = 8 := length_orderedBytes e 8 _
    have htake : ((orderedBytes e 8 x.toBits.toNat).take (t.bits / 8)).length = t.bits / 8 := by
      rw [List.length_take, hlen]
      omega
    have hdrop : ((orderedBytes e 8 x.toBits.toNat).drop (t.bits / 8)).length = 8 - t.bits / 8 := by
      rw [List.length_drop, hlen]
    rw [← List.take_append_drop (t.bits / 8) (orderedBytes e _ x.toBits.toNat)] at hset
    rw [writeReadLaw_iff_of_store ha hs ht htake (hdrop.trans_le (Nat.sub_le _ _)) hset, hdrop,
      and_iff_right (show offset + 8 ≤ v.length from hfits), and_iff_right hback]
    constructor
    · rintro ⟨hfirst, hrest⟩
      rw [← List.take_append_drop (t.bits / 8) (orderedBytes e 8 x.toBits.toNat), hrest]
      exact congrArg (· ++ _) hfirst
    · intro heq
      rw [← List.take_append_drop (t.bits / 8) (orderedBytes e 8 x.toBits.toNat)] at heq
      exact List.append_inj heq (htake.trans (length_orderedBytes e _ _).symm)
  · -- the store fails its assertion
    refine iff_of_false ?_ fun h => hfits h.1
    rintro ⟨m, hrun, -⟩
    rw [ha.set_eq hx, hstored, DataView.set_stuck (Nat.lt_of_not_le hfits)] at hrun
    cases hrun

/-! ### The conversions of the setters -/

theorem eq_fin_or_negZero (hz : x.eq (.fin z) = true) : x = .fin z ∨ x = .negZero ∧ z = 0 := by
  cases x with
  | nan => cases hz
  | negZero => exact .inr ⟨rfl, Int.cast_eq_zero.mp (of_decide_eq_true hz)⟩
  | fin q => exact .inl (of_decide_eq_true hz)
  | posInf => exact F64.noConfusion (of_decide_eq_true (p := F64.posInf = .fin z) hz)
  | negInf => exact F64.noConfusion (of_decide_eq_true (p := F64.negInf = .fin z) hz)

theorem toInteger_of_eq (hz : x.eq (.fin z) = true) (ht : t.signed = false) :
    x.toInteger t = max 0 (min z (2 ^ t.bits - 1)) := by
  rcases eq_fin_or_negZero hz with rfl | ⟨rfl, rfl⟩
  · rw [F64.toInteger, F64.truncRat_intCast, ht, if_neg Bool.false_ne_true, if_neg Bool.false_ne_true]
  · have hpos : (0 : ℤ) ≤ 2 ^ t.bits - 1 := Int.le_sub_one_of_lt (by positivity)
    rw [min_eq_left hpos]
    rfl

theorem clampU8_of_eq (hz : x.eq (.fin z) = true) : x.clampU8.eq (.fin (max 0 (min z 255) : ℤ)) = true := by
  rcases eq_fin_or_negZero hz with rfl | ⟨rfl, rfl⟩
  · have hlow : F64.lt (.fin z) (.fin 0) = true ↔ z < 0 := decide_eq_true_iff.trans Int.cast_lt_zero
    have hhigh : F64.lt (.fin 255) (.fin z) = true ↔ 255 < z := decide_eq_true_iff.trans (by
      change (255 : ℚ) < z ↔ _
      exact_mod_cast Iff.rfl)
    have hself : ∀ y : ℤ, (F64.fin y).eq (.fin y) = true := fun y => decide_eq_true rfl
    unfold F64.clampU8
    split
    · next h =>
      rw [max_eq_left ((min_le_left z 255).trans (hlow.mp h).le)]
      exact hself 0
    · next h =>
      have hnonneg : 0 ≤ z := not_lt.mp fun hlt => h (hlow.mpr hlt)
      split
      · next h' =>
        rw [min_eq_right (hhigh.mp h').le]
        exact hself 255
      · next h' =>
        rw [min_eq_left (not_lt.mp fun hlt => h' (hhigh.mpr hlt)), max_eq_right hnonneg]
        exact hself z
  · rfl

theorem readsBack_of_ne (ht : t.bits ≤ 32) (hne : t ≠ .u32) (z : ℤ) : t.ReadsBack z := by
  have hnot : ∀ y, ¬ t.Misread y := by
    rintro y (⟨rfl, -⟩ | ⟨rfl, -⟩)
    · exact hne rfl
    · exact absurd ht (by decide)
  exact ⟨hnot _, hnot _⟩

theorem reversed_lt_iff (r : ℕ) : ofLeBytes (leBytes 4 r).reverse < 2 ^ 31 ↔ r % 256 < 128 := by
  simp only [leBytes, List.reverse_cons, List.reverse_nil, List.nil_append, List.cons_append, ofLeBytes,
    BitVec.toNat_ofNat]
  omega

theorem readsBack_u32_iff : IntType.u32.ReadsBack z ↔ z % 2 ^ 32 < 2 ^ 31 ∧ z % 256 < 128 := by
  have hmisread : ∀ y : ℤ, IntType.u32.Misread (IntType.u32.cast y) ↔ 2 ^ 31 ≤ y % 2 ^ 32 := fun y => by
    simp only [IntType.Misread, IntType.cast, IntType.signed, IntType.bits, reduceCtorEq, false_and,
      true_and, or_false, Bool.false_eq_true, if_false]
  have hreduce : (IntType.u32.reduce z : ℤ) = z % 2 ^ 32 :=
    Int.toNat_of_nonneg (Int.emod_nonneg z (by decide))
  have hlt : ofLeBytes (leBytes 4 (IntType.u32.reduce z)).reverse < 2 ^ 32 := by
    have h := ofLeBytes_lt (leBytes 4 (IntType.u32.reduce z)).reverse
    rwa [List.length_reverse, length_leBytes] at h
  have hsign := reversed_lt_iff (IntType.u32.reduce z)
  unfold IntType.ReadsBack
  rw [hmisread, hmisread, show IntType.u32.bits / 8 = 4 from rfl]
  omega

/-- The writes that are read back: of a `u8` what the clamp leaves as it should be, of a `u32` what is no
negative int32 in either order, and of the other types a double whose bytes are by chance those of the
number and of what follows it in the view. -/
def WritesBack (t : IntType) (h : BufferHeap) (v : DataView) (offset : ℕ) (littleEndian : Bool) (x : F64)
    (z : ℤ) : Prop :=
  match t with
  | .u8 => 0 ≤ z ∧ z < 256 ∨ z < 0 ∧ z % 256 = 0 ∨ 256 ≤ z ∧ z % 256 = 255
  | .u32 => 0 ≤ z ∧ z < 2 ^ 31 ∧ z % 256 < 128 ∨ z < 0 ∧ z % 2 ^ 32 = 0
  | t =>
    offset + 8 ≤ v.length ∧ orderedBytes littleEndian 8 x.toBits.toNat =
      orderedBytes littleEndian (t.bits / 8) (t.reduce z) ++
        h.memory.load (v.address h offset + BitVec.ofNat 64 (t.bits / 8)) (8 - t.bits / 8)

/-- **Writing and reading.** -/
theorem write_read_iff (ha : ViewAccess c h t o v k offset) (hs : system ≠ .native) (ht : t.bits ≤ 32)
    (hx : c.toNumber value = .ok x) (hz : x.eq (.fin z) = true) (e : Bool) :
    WriteReadLaw system t found c o v k offset value e z h ↔ WritesBack t h v offset e x z := by
  cases t with
  | u8 =>
    have hn : (x.clampU8.toInteger .u8).toNat = (max 0 (min z 255)).toNat := by
      rw [toInteger_of_eq (clampU8_of_eq hz) rfl, IntType.bits]
      omega
    rw [writeReadLaw_iff_of_stored ha hs ht hx rfl (by rw [hn, IntType.bits]; omega), hn,
      and_iff_left (readsBack_of_ne ht IntType.noConfusion z)]
    unfold WritesBack IntType.reduce
    simp only [IntType.bits]
    omega
  | u32 =>
    have hn : (x.toInteger .u32).toNat = (max 0 (min z (2 ^ 32 - 1))).toNat := by
      rw [toInteger_of_eq hz rfl, IntType.bits]
    rw [writeReadLaw_iff_of_stored ha hs ht hx rfl (by rw [hn, IntType.bits]; omega), hn, readsBack_u32_iff]
    unfold WritesBack IntType.reduce
    simp only [IntType.bits]
    omega
  | i8 => exact writeReadLaw_iff_of_double ha hs ht hx rfl (readsBack_of_ne ht IntType.noConfusion z)
  | u16 => exact writeReadLaw_iff_of_double ha hs ht hx rfl (readsBack_of_ne ht IntType.noConfusion z)
  | i16 => exact writeReadLaw_iff_of_double ha hs ht hx rfl (readsBack_of_ne ht IntType.noConfusion z)
  | i32 => exact writeReadLaw_iff_of_double ha hs ht hx rfl (readsBack_of_ne ht IntType.noConfusion z)
  | u64 => exact absurd ht (by decide)
  | i64 => exact absurd ht (by decide)

end

/-! ### A view of four bytes -/

def fourByteView : BufferHeap where
  memory _ := 0
  blocks := [(4096, 4)]
  buffers o := if o = 0 then some .prototype else if o = 1 then some ⟨4096, true, .new .u32 4⟩ else none
  views o := if o = 2 then some ⟨1, 0, 4⟩ else none
  nextObject := 3

theorem viewAccess_fourByteView {t : IntType} (ht : t.bits / 8 ≤ 4) :
    ViewAccess noMethods fourByteView t 2 ⟨1, 0, 4⟩ (.int32 0) 0 :=
  ⟨rfl, rfl, fun _ => rfl, (Nat.zero_add _).trans_le ht⟩

/-- `setUint8(0, 5)`. -/
theorem write_read_iff_five :
    WriteReadLaw .little .u8 (fun _ => "Object") noMethods 2 ⟨1, 0, 4⟩ (.int32 0) 0 (.int32 5) true 5
      fourByteView :=
  (write_read_iff (viewAccess_fourByteView (by decide)) Endianess.noConfusion (by decide) rfl
    (by decide) true).mpr (.inl (by decide))

/-- `setInt16(0, 1)` panics, though two bytes are left. -/
theorem not_write_read :
    ViewAccess noMethods fourByteView .i16 2 ⟨1, 0, 4⟩ (.int32 0) 0 ∧
      ¬ WriteReadLaw .little .i16 (fun _ => "Object") noMethods 2 ⟨1, 0, 4⟩ (.int32 0) 0 (.int32 1) true 1
        fourByteView := by
  have ha := viewAccess_fourByteView (t := .i16) (by decide)
  refine ⟨ha, ?_⟩
  rintro ⟨m, hrun, -⟩
  have hlen : (⟨1, 0, 4⟩ : DataView).length < 0 + ElementType.f64.size := by decide
  rw [ha.set_eq rfl true] at hrun
  cases (DataView.set_stuck hlen _ true).symm.trans hrun

end Starlight
