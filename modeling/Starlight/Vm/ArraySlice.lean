import Starlight.Vm.ArrayCopies
import Starlight.Vm.IntegerConversion

/-!
# `slice`

`array_slice` converts its arguments with `to_int32`, which rounds towards negative infinity, takes
infinities for zero and cuts off at the ends of the int32s, and adds the length as an int32 to a negative
position. Long results are filled up with `undefined` where elements are missing.
-/

namespace Starlight

open JsObject World Exec IndexedElements

variable {w₀ w w' : World} {o p r s n m j k count : ℕ} {e f : ℕ → Option JsValue} {args : List JsValue}
  {v : JsValue} {x : F64}

/-- `to_int32`, of a value that needs no conversion code. -/
def toInt32 : JsValue → Vm (BitVec 32)
  | .int32 i => return i
  | v => do
    let number ← toNumber v
    if number.isNan || number.isInfinite then return 0
    else return number.floor.toI32

/-- The position of an int32 that is relative to the end if it is negative. -/
def relativeTo (relative : BitVec 32) (len : ℕ) : ℕ :=
  if relative.toInt < 0 then (max (relative + BitVec.ofNat 32 len).toInt 0).toNat
  else min relative.toNat len

def sliceStart (len : ℕ) : List JsValue → Vm ℕ
  | [] => return 0
  | start :: _ => do
    let relativeStart ← toInt32 start
    return relativeTo relativeStart len

def sliceEnd (len : ℕ) : List JsValue → Vm ℕ
  | _ :: fin :: _ =>
    if fin = .undefined then return len
    else do
      let relativeEnd ← toInt32 fin
      if relativeEnd.toNat = 4294967295 then
        Exec.fail (.throw (.rangeError "Out of memory for array values"))
      else return relativeTo relativeEnd len
  | _ => return len

def sliceLoop (step : ℕ → ℕ → Vm Unit) : ℕ → ℕ → ℕ → Vm Unit
  | _, _, 0 => return ()
  | k, n, count + 1 => do
    step k n
    sliceLoop step (k + 1) (n + 1) count

/-- One turn for a long result: the element is defined, be there one or not. -/
def sliceDefine (o ary k n : ℕ) : Vm Unit := do
  let kval ← getSlot o (.index k) (fun _ => false) Slot.new
  let _ ← defineOwnProperty ary (.index n) (createDesc kval) false
  return ()

/-- One turn for a short result: the element is assigned if there is one. -/
def slicePut (o ary k n : ℕ) : Vm Unit := do
  if ← hasProperty o (.index k) then
    let val ← getSlot o (.index k) (fun _ => false) Slot.new
    put ary (.index n) val false
  else return ()

def sliceElements (o ary k resultLen : ℕ) : Vm Unit :=
  if 1024 <<< 6 < resultLen then sliceLoop (sliceDefine o ary) k 0 resultLen
  else sliceLoop (slicePut o ary) k 0 resultLen

def arraySlice (arrayStructure o : ℕ) (args : List JsValue) : Vm JsValue := do
  let len ← getLength o
  let k ← sliceStart len args
  let fin ← sliceEnd len args
  let resultLen := fin - k
  if resultLen = 4294967295 ∨ 4294967295 ≤ len then
    Exec.fail (.throw (.rangeError "Out of memory for array values"))
  else do
    let ary ← JsArray.new arrayStructure resultLen
    sliceElements o ary k resultLen
    return .object ary

/-! ### The loops -/

/-- **The loop lemma.** Each turn makes one element of the result. -/
theorem Building.sliceLoop {step : ℕ → ℕ → Vm Unit} {g : Option JsValue → Option JsValue}
    (hstep : ∀ {w f} k {j}, Building w₀ w r m f → j < m → f j = none → ∃ w', step k j w = .ok () w' ∧
      Building w₀ w' r m (Function.update f j (g (e k))))
    (h : Building w₀ w r m f) (hf : ∀ i, j ≤ i → f i = none) (hm : j + count ≤ m) :
    ∃ w', Starlight.sliceLoop step k j count w = .ok () w' ∧ Building w₀ w' r m
      (fun i => if j ≤ i ∧ i < j + count then g (e (k + (i - j))) else f i) := by
  induction count generalizing k j w f with
  | zero =>
    refine ⟨w, rfl, ?_⟩
    have hsame : (fun i => if j ≤ i ∧ i < j + 0 then g (e (k + (i - j))) else f i) = f := by
      funext i
      rw [if_neg (by omega)]
    rwa [hsame]
  | succ count ih =>
    obtain ⟨w₁, hrun, h₁⟩ := hstep k h (by omega) (hf j le_rfl)
    obtain ⟨w', hrest, h'⟩ := ih (k := k + 1) (j := j + 1) h₁ (fun i hi => by
      rw [Function.update_of_ne (by omega)]
      exact hf i (by omega)) (by omega)
    refine ⟨w', ?_, ?_⟩
    · rw [Starlight.sliceLoop, bind_of_ok hrun]
      exact hrest
    · have hsame : (fun i => if j + 1 ≤ i ∧ i < j + 1 + count then g (e (k + 1 + (i - (j + 1))))
          else Function.update f j (g (e k)) i) =
          fun i => if j ≤ i ∧ i < j + (count + 1) then g (e (k + (i - j))) else f i := by
        funext i
        by_cases hij : i = j
        · subst hij
          rw [if_neg (by omega), if_pos (by omega), Function.update_self, Nat.sub_self, Nat.add_zero]
        · rw [Function.update_of_ne hij]
          by_cases hi : j + 1 ≤ i ∧ i < j + 1 + count
          · rw [if_pos hi, if_pos (by omega), show k + 1 + (i - (j + 1)) = k + (i - j) by omega]
          · rw [if_neg hi, if_neg (by omega)]
      rwa [hsame] at h'

namespace Building

variable (h : Building w₀ w r m f) (hp : ReadsAs w₀ p n e) (hj : j < m) (hf : f j = none)

include h hp hj hf

theorem sliceDefine (k : ℕ) : ∃ w', Starlight.sliceDefine p r k j w = .ok () w' ∧
    Building w₀ w' r m (Function.update f j (some ((e k).getD .undefined))) := by
  obtain ⟨w', hdef, h'⟩ := h.define hf (hp.getD_ne k)
  rw [max_eq_left (by omega)] at h'
  refine ⟨w', ?_, h'⟩
  rw [Starlight.sliceDefine, bind_of_ok (hp.get w h.grow h.own.sound k), bind_of_ok hdef]
  rfl

theorem slicePut (k : ℕ) : ∃ w', Starlight.slicePut p r k j w = .ok () w' ∧
    Building w₀ w' r m (Function.update f j (e k)) := by
  have hhas := hp.has w h.grow h.own.sound k
  unfold Starlight.slicePut
  rw [bind_of_ok hhas]
  cases he : e k with
  | none =>
    refine ⟨w, rfl, ?_⟩
    rwa [← hf, Function.update_eq_self]
  | some v =>
    obtain ⟨w', hput, h'⟩ := h.put hf (hp.value k v he)
    rw [max_eq_left (by omega)] at h'
    have hget := hp.get w h.grow h.own.sound k
    rw [he] at hget
    exact ⟨w', (bind_of_ok hget _).trans hput, h'⟩

end Building

/-! ### Positions -/

/-- The number that is an argument, if it is not left out. -/
def JsValue.asNumber : JsValue → F64
  | .undefined => .nan
  | v => v.getNumber

/-- The arguments are numbers, or are left out. -/
def Numeric (args : List JsValue) : Prop := ∀ v ∈ args, v = .undefined ∨ v.isNumber = true

def F64.asInt32 (x : F64) : BitVec 32 := if x.isNan || x.isInfinite then 0 else x.floor.toI32

/-- The position that a number stands for in an array of length `n`: it is rounded towards zero, counts from
the end if it is negative, and is brought between `0` and `n`. -/
def F64.clamp (n : ℕ) : F64 → ℕ
  | .posInf => n
  | .nan | .negInf | .negZero => 0
  | .fin q => if truncRat q < 0 then (n + truncRat q).toNat else min (truncRat q).toNat n

/-- The position in the arithmetic of int32s. -/
def F64.wrapped (n : ℕ) (x : F64) : ℕ := relativeTo x.asInt32 n

/-- Start and end, where `position` tells what numbers stand for. -/
def window (position : F64 → ℕ) (n : ℕ) (args : List JsValue) : ℕ × ℕ :=
  (match args with
    | [] => 0
    | start :: _ => position start.asNumber,
   match args with
    | _ :: fin :: _ => if fin = .undefined then n else position fin.asNumber
    | _ => n)

/-- The end is a number from `-1` on that is negative. -/
def AsksLast : List JsValue → Prop
  | _ :: fin :: _ => ∃ q : ℚ, fin.asNumber = .fin q ∧ -1 ≤ q ∧ q < 0
  | _ => False

theorem toInt32_eq (hv : v = .undefined ∨ v.isNumber = true) : toInt32 v = pure v.asNumber.asInt32 := by
  cases v with
  | undefined => rfl
  | int32 i =>
    have hfloor : (F64.ofInt i.toInt).asInt32 =
        BitVec.ofInt 32 (max (-2 ^ 31) (min (F64.truncRat (⌊((i.toInt : ℤ) : ℚ)⌋ : ℤ)) (2 ^ 31 - 1))) := rfl
    have hle := BitVec.le_toInt i
    have hlt := BitVec.toInt_lt (x := i)
    change pure i = (pure (F64.ofInt i.toInt).asInt32 : Vm (BitVec 32))
    rw [hfloor, Int.floor_intCast, F64.truncRat_intCast, min_eq_left (by omega), max_eq_right (by omega),
      BitVec.ofInt_toInt]
  | double d =>
    change (do
      let number ← pure d
      if number.isNan || number.isInfinite then return 0
      else return number.floor.toI32 : Vm (BitVec 32)) = _
    change (if d.isNan || d.isInfinite then pure 0 else pure d.floor.toI32 : Vm (BitVec 32)) = _
    change _ = (pure d.asInt32 : Vm (BitVec 32))
    unfold F64.asInt32
    split <;> rfl
  | _ => simp [JsValue.isNumber] at hv

theorem asInt32_fin (q : ℚ) :
    (F64.fin q).asInt32 = BitVec.ofInt 32 (max (-2 ^ 31) (min ⌊q⌋ (2 ^ 31 - 1))) := by
  change BitVec.ofInt 32 (max (-2 ^ 31) (min (F64.truncRat (⌊q⌋ : ℤ)) (2 ^ 31 - 1))) = _
  rw [F64.truncRat_intCast]

theorem toInt_asInt32_fin (q : ℚ) :
    (F64.fin q).asInt32.toInt = max (-2 ^ 31) (min ⌊q⌋ (2 ^ 31 - 1)) := by
  rw [asInt32_fin, BitVec.toInt_ofInt_eq_self (by decide) (le_max_left _ _) (by omega)]

theorem asInt32_last_iff (x : F64) :
    x.asInt32.toNat = 4294967295 ↔ ∃ q : ℚ, x = .fin q ∧ -1 ≤ q ∧ q < 0 := by
  cases x with
  | fin q =>
    have hint := toInt_asInt32_fin q
    have hcond := BitVec.toInt_eq_toNat_cond (F64.fin q).asInt32
    have hlt := (F64.fin q).asInt32.isLt
    have hfloor : (F64.fin q).asInt32.toNat = 4294967295 ↔ ⌊q⌋ = -1 := by
      split at hcond <;> omega
    rw [hfloor, Int.floor_eq_iff]
    norm_num
  | _ => exact iff_of_false (by decide) fun ⟨q, hq, _⟩ => nomatch hq

theorem sliceStart_eq (hargs : Numeric args) (n : ℕ) :
    sliceStart n args = pure (window (F64.wrapped n) n args).1 := by
  cases args with
  | nil => rfl
  | cons start args =>
    rw [sliceStart, toInt32_eq (hargs start List.mem_cons_self)]
    rfl

theorem sliceEnd_eq (hargs : Numeric args) (n : ℕ) (w : World) :
    (AsksLast args → sliceEnd n args w =
      .error (.throw (.rangeError "Out of memory for array values")) w) ∧
    (¬ AsksLast args → sliceEnd n args w = .ok (window (F64.wrapped n) n args).2 w) := by
  match args with
  | [] => exact ⟨False.elim, fun _ => rfl⟩
  | [_] => exact ⟨False.elim, fun _ => rfl⟩
  | start :: fin :: rest =>
    have hfin := toInt32_eq (hargs fin (by simp))
    by_cases hundef : fin = .undefined
    · subst hundef
      exact ⟨fun ⟨q, hq, _⟩ => (nomatch hq), fun _ => rfl⟩
    · have hrun : sliceEnd n (start :: fin :: rest) w = (if fin.asNumber.asInt32.toNat = 4294967295 then
          Exec.fail (.throw (.rangeError "Out of memory for array values"))
        else pure (relativeTo fin.asNumber.asInt32 n) : Vm ℕ) w := by
        rw [sliceEnd, if_neg hundef, hfin]
        rfl
      have hwindow : (window (F64.wrapped n) n (start :: fin :: rest)).2 =
          relativeTo fin.asNumber.asInt32 n :=
        if_neg hundef
      rw [hrun, hwindow]
      refine ⟨fun hlast => ?_, fun hlast => ?_⟩
      · rw [if_pos ((asInt32_last_iff _).mpr hlast)]
        rfl
      · rw [if_neg (mt (asInt32_last_iff _).mp hlast)]
        rfl

theorem clamp_le (n : ℕ) (x : F64) : x.clamp n ≤ n := by
  cases x with
  | fin q =>
    unfold F64.clamp
    dsimp only
    split
    · omega
    · exact min_le_right _ _
  | posInf => exact le_rfl
  | _ => exact Nat.zero_le n

theorem window_le (n : ℕ) (args : List JsValue) : (window (F64.clamp n) n args).2 ≤ n := by
  unfold window
  dsimp only
  split
  · split
    · exact le_rfl
    · exact clamp_le n _
  · exact le_rfl

theorem wrapped_natCast (n k : ℕ) : (F64.fin k).wrapped n = min (min k (2 ^ 31 - 1)) n := by
  have hint := toInt_asInt32_fin k
  rw [Int.floor_natCast] at hint
  have hcond := BitVec.toInt_eq_toNat_cond (F64.fin k).asInt32
  unfold F64.wrapped relativeTo
  rw [if_neg (by omega)]
  congr 1
  split at hcond <;> omega

/-- The arithmetic of int32s finds the position of a number that is not positive infinity and is an integer
if it is negative. -/
theorem wrapped_eq_clamp (hn : n < 2 ^ 31) (hinf : x ≠ .posInf)
    (hneg : ∀ q : ℚ, x = .fin q → 0 ≤ q ∨ (⌊q⌋ : ℚ) = q) : x.wrapped n = x.clamp n := by
  cases x with
  | posInf => exact absurd rfl hinf
  | nan | negInf | negZero => exact Nat.zero_min n
  | fin q =>
    have htrunc : F64.truncRat q = ⌊q⌋ := by
      rcases hneg q rfl with h | h
      · exact F64.truncRat_of_nonneg h
      · rw [← h, F64.truncRat_intCast, Int.floor_intCast]
    have hint := toInt_asInt32_fin q
    have hcond := BitVec.toInt_eq_toNat_cond (F64.fin q).asInt32
    unfold F64.wrapped relativeTo F64.clamp
    dsimp only
    rw [htrunc]
    by_cases hsign : ⌊q⌋ < 0
    · have hlen : (BitVec.ofNat 32 n).toInt = n := by
        rw [BitVec.toInt_ofNat', Int.bmod_eq_of_le (by omega) (by omega)]
      rw [if_pos hsign, if_pos (by omega), BitVec.toInt_add, hlen, Int.bmod_eq_of_le (by omega) (by omega)]
      omega
    · rw [if_neg hsign, if_neg (by omega)]
      split at hcond <;> omega

theorem JsValue.IsNumber.asNumber (h : v.IsNumber k) : v.asNumber = .fin k ∧ v ≠ .undefined := by
  rcases h.cases with ⟨i, rfl, hi⟩ | rfl
  · exact ⟨h.getNumber.2, nofun⟩
  · exact ⟨rfl, nofun⟩

theorem wrapped_lt (hn : n < 2 ^ 32 - 1) (x : F64) : x.wrapped n < 2 ^ 32 - 1 := by
  unfold F64.wrapped relativeTo
  have := BitVec.toInt_lt (x := x.asInt32 + BitVec.ofNat 32 n)
  split
  · omega
  · exact lt_of_le_of_lt (min_le_right _ _) hn

theorem window_lt (hn : n < 2 ^ 32 - 1) (args : List JsValue) :
    (window (F64.wrapped n) n args).2 < 2 ^ 32 - 1 := by
  unfold window
  dsimp only
  split
  · split
    · exact hn
    · exact wrapped_lt hn _
  · exact hn

/-! ### The result -/

/-- What a result of length `count` has for an element of the source, or for a hole. -/
def copied (count : ℕ) (element : Option JsValue) : Option JsValue :=
  if 1024 <<< 6 < count then some (element.getD .undefined) else element

/-- `slice` returns a new array with the elements between the two positions, and without one where there is
none. -/
def Slices (w : World) (s o : ℕ) (args : List JsValue) : Prop :=
  let n := (w.objects o).indexed.length
  let (start, fin) := window (F64.clamp n) n args
  ∃ w' r, arraySlice s o args w = .ok (.object r) w' ∧ w.nextObject ≤ r ∧ (w'.objects r).class_ = .array ∧
    (w'.objects r).indexed.length = fin - start ∧
    ∀ i, w'.element r i = if i < fin - start then w.element o (start + i) else none

/-- The length is not the last one, the end is not asked to be in front of the last element, and the
positions in the arithmetic of int32s enclose as many elements, of which the copies are what they should
be. -/
def FitsSlice (w : World) (o : ℕ) (args : List JsValue) : Prop :=
  let n := (w.objects o).indexed.length
  let (start, fin) := window (F64.clamp n) n args
  let (start', fin') := window (F64.wrapped n) n args
  n < 2 ^ 32 - 1 ∧ ¬ AsksLast args ∧ fin' - start' = fin - start ∧
    ∀ i, i < fin - start → copied (fin - start) (w.element o (start' + i)) = w.element o (start + i)

theorem Building.sliceElements (h : Building w₀ w r m (fun _ => none)) (hp : ReadsAs w₀ p n e) (k : ℕ) :
    ∃ w', Starlight.sliceElements p r k m w = .ok () w' ∧
      Building w₀ w' r m (fun i => if i < m then copied m (e (k + i)) else none) := by
  have hm : 0 + m ≤ m := by omega
  unfold Starlight.sliceElements
  by_cases hlong : 1024 <<< 6 < m
  · have hcopied : ∀ u, copied m u = some (u.getD .undefined) := fun u => if_pos hlong
    obtain ⟨w', hrun, h'⟩ := h.sliceLoop (k := k) (g := copied m)
      (fun k _ hb hj hf => by rw [hcopied]; exact hb.sliceDefine hp hj hf k) (fun _ _ => rfl) hm
    rw [if_pos hlong]
    exact ⟨w', hrun, by simpa using h'⟩
  · have hcopied : ∀ u, copied m u = u := fun u => if_neg hlong
    obtain ⟨w', hrun, h'⟩ := h.sliceLoop (k := k) (g := copied m)
      (fun k _ hb hj hf => by rw [hcopied]; exact hb.slicePut hp hj hf k) (fun _ _ => rfl) hm
    rw [if_neg hlong]
    exact ⟨w', hrun, by simpa using h'⟩

section Slice

variable (h : ReadsAs w o n e) (hinv : w.Inv layoutPolicy) (hargs : Numeric args)

include h hinv hargs

theorem ReadsAs.slice (hsound : w.SoundElements) (hs : w.ArrayStructure s) (hn : n < 2 ^ 32 - 1)
    (hlast : ¬ AsksLast args) {start fin : ℕ} (hwindow : window (F64.wrapped n) n args = (start, fin)) :
    ∃ w' r, arraySlice s o args w = .ok (.object r) w' ∧
      Building w w' r (fin - start)
        (fun i => if i < fin - start then copied (fin - start) (e (start + i)) else none) := by
  obtain ⟨w₁, hlen, hr⟩ := h.getLength w hinv.grow_refl
  have hg₁ := hinv.grow_refl.read hr
  have hs₁ := hs.grow hg₁ (hr.shape s hs.lt)
  obtain ⟨w₂, hnew, hbuild⟩ := building_new hr.inv (hr.sound hsound) hs₁ (fin - start)
  obtain ⟨w', hloop, hresult⟩ := hbuild.sliceElements (h.grow hg₁) start
  refine ⟨w', w₁.nextObject, ?_, hresult.after_read hr hinv⟩
  have hstart := sliceStart_eq hargs n
  have hend := (sliceEnd_eq hargs n w₁).2 hlast
  have hfin := window_lt hn args
  rw [hwindow] at hstart hend hfin
  unfold arraySlice
  rw [bind_of_ok hlen, hstart, Exec.pure_bind_apply, bind_of_ok hend]
  dsimp only
  rw [if_neg (by omega), bind_of_ok hnew]
  exact bind_of_ok hloop _

theorem ReadsAs.slice_throws (hbad : ¬ n < 2 ^ 32 - 1 ∨ AsksLast args) (s : ℕ) :
    ∃ w', arraySlice s o args w = .error (.throw (.rangeError "Out of memory for array values")) w' := by
  obtain ⟨w₁, hlen, hr⟩ := h.getLength w hinv.grow_refl
  refine ⟨w₁, ?_⟩
  unfold arraySlice
  rw [bind_of_ok hlen, sliceStart_eq hargs n, Exec.pure_bind_apply, bind_apply]
  obtain ⟨hthrow, hend⟩ := sliceEnd_eq hargs n w₁
  by_cases hlast : AsksLast args
  · rw [hthrow hlast]
  · have hn := hbad.resolve_right hlast
    rw [hend hlast]
    dsimp only
    rw [if_pos (by omega)]
    rfl

end Slice

/-- **`slice` copies what it should** exactly where `FitsSlice` says so. -/
theorem PlainArray.slices_iff (h : PlainArray w o) (hs : w.ArrayStructure s) (hargs : Numeric args) :
    Slices w s o args ↔ FitsSlice w o args := by
  have hinv := h.own.inv
  unfold Slices FitsSlice
  dsimp only
  obtain ⟨⟨start, fin⟩, hwin⟩ : ∃ p, window (F64.clamp (w.objects o).indexed.length)
      (w.objects o).indexed.length args = p := ⟨_, rfl⟩
  obtain ⟨⟨start', fin'⟩, hwin'⟩ : ∃ p, window (F64.wrapped (w.objects o).indexed.length)
      (w.objects o).indexed.length args = p := ⟨_, rfl⟩
  rw [hwin, hwin']
  dsimp only
  by_cases hbad : ¬ (w.objects o).indexed.length < 2 ^ 32 - 1 ∨ AsksLast args
  · obtain ⟨w', hthrow⟩ := h.readsAs.slice_throws hinv hargs hbad s
    refine iff_of_false ?_ fun hc => hbad.elim (absurd hc.1) (absurd · hc.2.1)
    rintro ⟨w'', r, hrun, -⟩
    rw [hthrow] at hrun
    cases hrun
  · obtain ⟨hn, hlast⟩ := not_or.mp hbad
    have hn := not_not.mp hn
    obtain ⟨w', r, hrun, hb⟩ := h.readsAs.slice hinv hargs h.own.sound hs hn hlast hwin'
    constructor
    · rintro ⟨w'', r', hrun', -, -, hlen, helem⟩
      obtain ⟨hr, rfl⟩ := Result.ok.inj (hrun.symm.trans hrun')
      obtain rfl : r = r' := JsValue.object.inj hr
      rw [hb.length] at hlen
      refine ⟨hn, hlast, hlen, fun i hi => ?_⟩
      have hi' := helem i
      rwa [hb.element, if_pos hi, hlen, if_pos hi] at hi'
    · rintro ⟨-, -, hcount, helem⟩
      refine ⟨w', r, hrun, hb.le, hb.class_eq, by rw [hb.length, hcount], fun i => ?_⟩
      rw [hb.element, hcount]
      split
      · next hi => exact helem i hi
      · rfl

/-- **Where `slice` is right**: the array is shorter than `2 ^ 31`, both positions are found, and no element
is missing that a long result would show. -/
theorem fitsSlice_of_found (hn : (w.objects o).indexed.length < 2 ^ 31) (hlast : ¬ AsksLast args)
    (hargs : ∀ v ∈ args, v.asNumber ≠ .posInf ∧ ∀ q : ℚ, v.asNumber = .fin q → 0 ≤ q ∨ (⌊q⌋ : ℚ) = q)
    (hfull : (w.objects o).indexed.length ≤ 1024 <<< 6 ∨
      ∀ i, i < (w.objects o).indexed.length → w.element o i ≠ none) : FitsSlice w o args := by
  have hle := window_le (w.objects o).indexed.length args
  have hsame : window (F64.wrapped (w.objects o).indexed.length) (w.objects o).indexed.length args =
      window (F64.clamp (w.objects o).indexed.length) (w.objects o).indexed.length args := by
    have hfound : ∀ v ∈ args, v.asNumber.wrapped _ = v.asNumber.clamp _ := fun v hv =>
      wrapped_eq_clamp hn (hargs v hv).1 (hargs v hv).2
    rcases args with _ | ⟨start, _ | ⟨fin, rest⟩⟩
    · rfl
    · exact Prod.ext (hfound start List.mem_cons_self) rfl
    · refine Prod.ext (hfound start List.mem_cons_self) ?_
      exact congrArg (ite _ _) (hfound fin (List.mem_cons_of_mem _ List.mem_cons_self))
  unfold FitsSlice
  dsimp only
  rw [hsame]
  refine ⟨by omega, hlast, rfl, fun i hi => ?_⟩
  unfold copied
  split
  · obtain ⟨v, hv⟩ := Option.ne_none_iff_exists'.mp
      (hfull.resolve_left (by omega) ((window (F64.clamp (w.objects o).indexed.length)
        (w.objects o).indexed.length args).1 + i) (by omega))
    rw [hv]
    rfl
  · rfl
end Starlight
