import Starlight.Vm.ArraySlice
import Starlight.Vm.ArrayStack

/-!
# `concat`

`array_concat` takes every operand for an array-like object, whatever its class, and refuses other values.
It returns the array itself when there are no arguments. The index in the result is a `u32`, and holes
become elements that are `undefined`.
-/

namespace Starlight

open JsObject World Exec IndexedElements

variable {w₀ w w' w'' : World} {o p r s n count ix k : ℕ} {e : ℕ → Option JsValue}
  {len : ℕ → ℕ} {el : ℕ → ℕ → Option JsValue} {args : List JsValue} {v this : JsValue} {vs : List JsValue}

/-- The loop of `array_concat` over the elements of an operand; the index after them. -/
def appendElements (arr p : ℕ) : ℕ → ℕ → ℕ → Vm ℕ
  | _, ix, 0 => return ix
  | n, ix, count + 1 => do
    let val ← getSlot p (.index n) (fun _ => false) Slot.new
    put arr (.index ix) val false
    appendElements arr p (n + 1) ((ix + 1) % 2 ^ 32) count

def appendOperands (arr : ℕ) : ℕ → List JsValue → Vm ℕ
  | ix, [] => return ix
  | ix, .object p :: args => do
    let len ← getLength p
    if 4294967294 ≤ len then
      Vm.throwTypeError "Array-like object length exceeds array length limit in Array.prototype.concat"
    else do
      let ix ← appendElements arr p 0 ix len
      appendOperands arr ix args
  | _, _ :: _ => Vm.throwTypeError "Array.prototype.concat requires array-like arguments"

def arrayConcat (arrayStructure : ℕ) (this : JsValue) (args : List JsValue) : Vm JsValue :=
  if args.isEmpty then return this
  else match this with
    | .object o => do
      let thisLength ← getLength o
      let newValues ← JsArray.new arrayStructure thisLength
      let ix ← appendElements newValues o 0 0 thisLength
      let _ ← appendOperands newValues ix args
      return .object newValues
    | _ => Vm.throwTypeError "Array.prototype.concat requires array-like object"

/-! ### The result in the making -/

def readFrom (e : ℕ → Option JsValue) (k count : ℕ) : List JsValue :=
  (List.range' k count).map fun i => (e i).getD .undefined

/-- The array has grown beyond what an index can be. -/
structure Overgrown (w₀ w : World) (r : ℕ) : Prop where
  grow : Grow layoutPolicy w₀ w
  le : w₀.nextObject ≤ r
  own : OwnElements w r
  extensible : (w.objects r).extensible = true
  data : ∀ i s, (w.objects r).indexed.stored i = some s → s.attributes = objectData
  length : 2 ^ 32 ≤ (w.objects r).indexed.length

/-- The values were written to array `r`, which started with length `n`; `ix` is the next index. -/
def Appended (w₀ w : World) (r n ix : ℕ) (vs : List JsValue) : Prop :=
  if vs.length < 2 ^ 32 then ix = vs.length ∧ Building w₀ w r (max n vs.length) fun i => vs[i]?
  else ix < 2 ^ 32 ∧ Overgrown w₀ w r

theorem Appended.of_lt (hlt : vs.length < 2 ^ 32) : Appended w₀ w r n ix vs ↔
    ix = vs.length ∧ Building w₀ w r (max n vs.length) fun i => vs[i]? := by
  rw [Appended, if_pos hlt]

theorem Appended.of_le (hle : 2 ^ 32 ≤ vs.length) : Appended w₀ w r n ix vs ↔
    ix < 2 ^ 32 ∧ Overgrown w₀ w r := by
  rw [Appended, if_neg (Nat.not_lt.mpr hle)]

theorem Overgrown.put (h : Overgrown w₀ w r) (hix : ix < 2 ^ 32) (hv : v ≠ .empty) :
    ∃ w', JsObject.put r (.index ix) v false w = .ok () w' ∧ Overgrown w₀ w' r := by
  have hlen := h.length
  have hnew : (w.objects r).indexed.stored ix = none → Creatable w r ix := fun _ =>
    ⟨h.extensible, .inl (by omega), fun j hj hji => by omega⟩
  obtain ⟨w', ix', hput, hr, hst⟩ := h.own.put hv (h.data ix) hnew false
  obtain ⟨u, hstored, -⟩ := hst.stored
  refine ⟨w', hput, h.grow.touch hr.touch h.le, h.le, hr.ownElements h.own,
    hr.extensible.trans h.extensible, fun i s hs => ?_, ?_⟩
  · rw [hr.indexed, hstored, Function.update_apply] at hs
    split at hs
    · cases hs
      rfl
    · exact h.data i s hs
  · rw [hr.indexed, hst.length]
    omega

theorem Building.overgrown (h : Building w₀ w r n e) (hn : 2 ^ 32 ≤ n) : Overgrown w₀ w r where
  __ := h
  data i s hs := by
    rw [h.stored] at hs
    obtain ⟨v, -, rfl⟩ := Option.map_eq_some_iff.mp hs
    rfl
  length := by rwa [h.length]

theorem update_getElem?_length (vs : List JsValue) (v : JsValue) :
    Function.update (fun i => vs[i]?) vs.length (some v) = fun i => (vs ++ [v])[i]? := by
  funext i
  rw [Function.update_apply]
  by_cases hi : i = vs.length
  · rw [if_pos hi, hi, List.getElem?_concat_length]
  · rw [if_neg hi, List.getElem?_append]
    split
    · rfl
    · next hlt =>
      rw [List.getElem?_eq_none (Nat.le_of_not_lt hlt), List.getElem?_eq_none]
      rw [List.length_singleton]
      omega

namespace Appended

variable (h : Appended w₀ w r n ix vs)

include h

theorem grow : Grow layoutPolicy w₀ w := by
  unfold Appended at h
  split at h
  · exact h.2.grow
  · exact h.2.grow

theorem sound : w.SoundElements := by
  unfold Appended at h
  split at h
  · exact h.2.own.sound
  · exact h.2.own.sound

/-- **The step lemma.** -/
theorem put (hv : v ≠ .empty) : ∃ w', JsObject.put r (.index ix) v false w = .ok () w' ∧
    Appended w₀ w' r n ((ix + 1) % 2 ^ 32) (vs ++ [v]) := by
  have hlength : (vs ++ [v]).length = vs.length + 1 := by simp
  by_cases hlt : vs.length < 2 ^ 32
  · obtain ⟨rfl, hb⟩ := (of_lt hlt).mp h
    obtain ⟨w', hput, hb'⟩ := hb.put (i := vs.length) (List.getElem?_eq_none le_rfl) hv
    rw [update_getElem?_length, max_assoc, max_eq_right (Nat.le_succ vs.length)] at hb'
    refine ⟨w', hput, ?_⟩
    by_cases hlt' : vs.length + 1 < 2 ^ 32
    · rw [of_lt (by rwa [hlength]), hlength, Nat.mod_eq_of_lt hlt']
      exact ⟨rfl, hb'⟩
    · rw [of_le (by omega)]
      exact ⟨Nat.mod_lt _ (by norm_num), hb'.overgrown (by omega)⟩
  · have hle := Nat.le_of_not_lt hlt
    obtain ⟨hix, ho⟩ := (of_le hle).mp h
    obtain ⟨w', hput, ho'⟩ := ho.put hix hv
    refine ⟨w', hput, ?_⟩
    rw [of_le (by omega)]
    exact ⟨Nat.mod_lt _ (by norm_num), ho'⟩

theorem read (hr : Read layoutPolicy w w') : Appended w₀ w' r n ix vs := by
  by_cases hlt : vs.length < 2 ^ 32
  · obtain ⟨hix, hb⟩ := (of_lt hlt).mp h
    exact (of_lt hlt).mpr ⟨hix, hb.read hr⟩
  · have hle := Nat.le_of_not_lt hlt
    obtain ⟨hix, ho⟩ := (of_le hle).mp h
    have hown := (hr.rewrites ho.own).ownElements ho.own
    refine (of_le hle).mpr ⟨hix, ho.grow.read hr, ho.le, hown, ?_, ?_, ?_⟩
    · rw [hr.objects, ho.extensible]
    · rw [hr.objects]
      exact ho.data
    · rw [hr.objects]
      exact ho.length

/-- **The loop over the elements of an operand.** -/
theorem appendElements (hp : ReadsAs w₀ p count e) (k m : ℕ) : ∃ ix' w',
    Starlight.appendElements r p k ix m w = .ok ix' w' ∧ Appended w₀ w' r n ix' (vs ++ readFrom e k m) := by
  induction m generalizing k w ix vs with
  | zero => exact ⟨ix, w, rfl, by simpa [readFrom] using h⟩
  | succ m ih =>
    obtain ⟨w₁, hput, h₁⟩ := h.put (hp.getD_ne k)
    obtain ⟨ix', w', hrun, h'⟩ := ih h₁ (k + 1)
    have hsplit : readFrom e k (m + 1) = (e k).getD .undefined :: readFrom e (k + 1) m := by
      rw [readFrom, List.range'_succ, List.map_cons]
      rfl
    rw [List.append_assoc, List.singleton_append, ← hsplit] at h'
    refine ⟨ix', w', ?_, h'⟩
    rw [Starlight.appendElements, bind_of_ok (hp.get w h.grow h.sound k), bind_of_ok hput]
    exact hrun

end Appended

/-! ### Operands -/

def operandValues (len : ℕ → ℕ) (el : ℕ → ℕ → Option JsValue) : JsValue → List JsValue
  | .object p => readFrom (el p) 0 (len p)
  | _ => []

/-- The length that `array_concat` finds. -/
def operandLength (len : ℕ → ℕ) : JsValue → ℕ
  | .object p => len p
  | _ => 0

/-- An argument that `array_concat` does not refuse. -/
def AcceptedOperand (len : ℕ → ℕ) (v : JsValue) : Prop := ∃ p, v = .object p ∧ len p < 2 ^ 32 - 2

theorem length_operandValues (v : JsValue) : (operandValues len el v).length = operandLength len v := by
  cases v <;> simp [operandValues, operandLength, readFrom]

theorem length_flatMap_operandValues (args : List JsValue) :
    (args.flatMap (operandValues len el)).length = (args.map (operandLength len)).sum := by
  rw [List.length_flatMap]
  congr 1
  exact List.map_congr_left fun v _ => length_operandValues v

section Operands

variable (hops : ∀ p, JsValue.object p ∈ args → ReadsAs w₀ p (len p) (el p))

include hops

/-- **The loop over the arguments** ends if and only if none of them is refused. -/
theorem Appended.appendOperands (h : Appended w₀ w r n ix vs) :
    ((∀ v ∈ args, AcceptedOperand len v) → ∃ ix' w', Starlight.appendOperands r ix args w = .ok ix' w' ∧
      Appended w₀ w' r n ix' (vs ++ args.flatMap (operandValues len el))) ∧
    ∀ ix' w', Starlight.appendOperands r ix args w = .ok ix' w' → ∀ v ∈ args, AcceptedOperand len v := by
  induction args generalizing w ix vs with
  | nil => exact ⟨fun _ => ⟨ix, w, rfl, by simpa using h⟩, fun _ _ _ _ hv => nomatch hv⟩
  | cons v args ih =>
    by_cases hobj : ∃ p, v = .object p
    · obtain ⟨p, rfl⟩ := hobj
      have hp := hops p List.mem_cons_self
      obtain ⟨w₁, hlen, hr⟩ := hp.getLength w h.grow
      by_cases hlong : 4294967294 ≤ len p
      · have hthrow : Starlight.appendOperands r ix (.object p :: args) w = .error (.throw (.typeError
            "Array-like object length exceeds array length limit in Array.prototype.concat")) w₁ := by
          rw [Starlight.appendOperands, bind_of_ok hlen, if_pos hlong]
          rfl
        refine ⟨fun hall => ?_, fun ix' w' hrun => ?_⟩
        · obtain ⟨q, hq, hlt⟩ := hall _ List.mem_cons_self
          obtain rfl := JsValue.object.inj hq
          omega
        · rw [hthrow] at hrun
          cases hrun
      · obtain ⟨ix₁, w₂, hloop, h₁⟩ := (h.read hr).appendElements hp 0 (len p)
        have hstep : Starlight.appendOperands r ix (.object p :: args) w =
            Starlight.appendOperands r ix₁ args w₂ := by
          rw [Starlight.appendOperands, bind_of_ok hlen, if_neg hlong]
          exact bind_of_ok hloop _
        obtain ⟨hends, hacc⟩ := ih (fun q hq => hops q (List.mem_cons_of_mem _ hq)) h₁
        rw [hstep]
        refine ⟨fun hall => ?_, fun ix' w' hrun => ?_⟩
        · obtain ⟨ix', w', hrun, h'⟩ := hends fun u hu => hall u (List.mem_cons_of_mem _ hu)
          rw [List.append_assoc] at h'
          exact ⟨ix', w', hrun, h'⟩
        · exact List.forall_mem_cons.mpr ⟨⟨p, rfl, by omega⟩, hacc ix' w' hrun⟩
    · have hthrow : Starlight.appendOperands r ix (v :: args) w = .error (.throw (.typeError
          "Array.prototype.concat requires array-like arguments")) w := by
        cases v with
        | object p => exact absurd ⟨p, rfl⟩ hobj
        | _ => rfl
      refine ⟨fun hall => ?_, fun ix' w' hrun => ?_⟩
      · obtain ⟨p, hp, -⟩ := hall v List.mem_cons_self
        exact absurd ⟨p, hp⟩ hobj
      · rw [hthrow] at hrun
        cases hrun

end Operands

section Concat

variable (hops : ∀ p, JsValue.object p ∈ this :: args → ReadsAs w p (len p) (el p))
  (hinv : w.Inv layoutPolicy) (hsound : w.SoundElements) (hs : w.ArrayStructure s)

include hops hinv hsound hs

theorem concat_run (hargs : args ≠ []) (hthis : this = .object o) :
    ((∀ v ∈ args, AcceptedOperand len v) → ∃ ix w' r, arrayConcat s this args w = .ok (.object r) w' ∧
      Appended w w' r (len o) ix ((this :: args).flatMap (operandValues len el))) ∧
    ∀ v w', arrayConcat s this args w = .ok v w' → ∀ v ∈ args, AcceptedOperand len v := by
  subst hthis
  have ho := hops o List.mem_cons_self
  obtain ⟨w₁, hlen, hr⟩ := ho.getLength w hinv.grow_refl
  have hs₁ := hs.grow (hinv.grow_refl.read hr) (hr.shape s hs.lt)
  obtain ⟨w₂, hnew, hb⟩ := building_new hr.inv (hr.sound hsound) hs₁ (len o)
  have hstart : Appended w w₂ w₁.nextObject (len o) 0 [] := by
    rw [Appended.of_lt (by simp)]
    refine ⟨rfl, ?_⟩
    simpa using hb.after_read hr hinv
  obtain ⟨ix₁, w₃, hloop, h₃⟩ := hstart.appendElements ho 0 (len o)
  obtain ⟨hends, hacc⟩ := h₃.appendOperands fun q hq => hops q (List.mem_cons_of_mem _ hq)
  have hrun : arrayConcat s (.object o) args w = (do
      let _ ← appendOperands w₁.nextObject ix₁ args
      return .object w₁.nextObject : Vm JsValue) w₃ := by
    unfold arrayConcat
    rw [if_neg (by simpa using hargs)]
    dsimp only
    rw [bind_of_ok hlen, bind_of_ok hnew, bind_of_ok hloop]
  rw [hrun]
  refine ⟨fun hall => ?_, fun v w' hok => ?_⟩
  · obtain ⟨ix', w', hrest, h'⟩ := hends hall
    exact ⟨ix', w', w₁.nextObject, bind_of_ok hrest _, h'⟩
  · obtain ⟨ix', w'', hrest, -⟩ := bind_eq_ok hok
    exact hacc ix' w'' hrest

end Concat

/-- The length that an operand should count for: that of an array, and one for anything else. -/
def claimedLength (w : World) : JsValue → ℕ
  | .object p => if (w.objects p).class_ = .array then (w.objects p).indexed.length else 1
  | _ => 1

/-- `concat` returns a new array, and the lengths of the operands add up to its length. -/
def Concats (w : World) (s : ℕ) (this : JsValue) (args : List JsValue) : Prop :=
  ∃ w' r, arrayConcat s this args w = .ok (.object r) w' ∧ w.nextObject ≤ r ∧
    (w'.objects r).class_ = .array ∧
    (w'.objects r).indexed.length = ((this :: args).map (claimedLength w)).sum ∧
    (w'.objects r).indexed.length < 2 ^ 32

/-- There are arguments, all operands are objects of which the arguments are not too long, and the lengths
that they have add up to what they should count for, which is the length of an array. -/
def FitsConcat (w : World) (len : ℕ → ℕ) (this : JsValue) (args : List JsValue) : Prop :=
  args ≠ [] ∧ (∃ o, this = .object o) ∧ (∀ v ∈ args, AcceptedOperand len v) ∧
    ((this :: args).map (operandLength len)).sum < 2 ^ 32 ∧
    ((this :: args).map (operandLength len)).sum = ((this :: args).map (claimedLength w)).sum

/-- **`concat` returns what it should** exactly where `FitsConcat` says so. -/
theorem concats_iff (hops : ∀ p, JsValue.object p ∈ this :: args → ReadsAs w p (len p) (el p))
    (hinv : w.Inv layoutPolicy) (hsound : w.SoundElements) (hs : w.ArrayStructure s) :
    Concats w s this args ↔ FitsConcat w len this args := by
  by_cases hargs : args = []
  · subst hargs
    refine iff_of_false ?_ fun hc => hc.1 rfl
    rintro ⟨w', r, hrun, hnew, -⟩
    have hthis : this = .object r := (Result.ok.inj hrun).1
    have hlt := (hops r (by rw [hthis]; exact List.mem_cons_self)).lt
    omega
  by_cases hobj : ∃ o, this = .object o
  · obtain ⟨o, hthis⟩ := hobj
    obtain ⟨hends, hacc⟩ := concat_run hops hinv hsound hs hargs hthis
    have hlen : ((this :: args).flatMap (operandValues len el)).length =
        ((this :: args).map (operandLength len)).sum := length_flatMap_operandValues _
    have hfirst : len o ≤ ((this :: args).map (operandLength len)).sum := by
      rw [hthis, List.map_cons, List.sum_cons]
      exact Nat.le_add_right _ _
    constructor
    · rintro ⟨w', r, hrun, -, -, hsum, hlt⟩
      have hall := hacc _ _ hrun
      obtain ⟨ix, w'', r', hrun', happ⟩ := hends hall
      obtain ⟨hr, rfl⟩ := Result.ok.inj (hrun.symm.trans hrun')
      obtain rfl : r = r' := JsValue.object.inj hr
      by_cases hshort : ((this :: args).flatMap (operandValues len el)).length < 2 ^ 32
      · obtain ⟨-, hb⟩ := (Appended.of_lt hshort).mp happ
        have hblen := hb.length
        rw [hlen, max_eq_right hfirst] at hblen
        exact ⟨hargs, ⟨o, hthis⟩, hall, by rwa [← hlen], by rw [← hblen, hsum]⟩
      · obtain ⟨-, ho⟩ := (Appended.of_le (Nat.le_of_not_lt hshort)).mp happ
        have := ho.length
        omega
    · rintro ⟨-, -, hall, hlt, hsum⟩
      obtain ⟨ix, w', r, hrun, happ⟩ := hends hall
      obtain ⟨-, hb⟩ := (Appended.of_lt (by rwa [hlen])).mp happ
      have hblen := hb.length
      rw [hlen, max_eq_right hfirst] at hblen
      exact ⟨w', r, hrun, hb.le, hb.class_eq, hblen.trans hsum, by rwa [hblen]⟩
  · refine iff_of_false ?_ fun hc => hobj hc.2.1
    rintro ⟨w', r, hrun, -⟩
    have hthrow : arrayConcat s this args w = .error (.throw (.typeError
        "Array.prototype.concat requires array-like object")) w := by
      unfold arrayConcat
      rw [if_neg (by simpa using hargs)]
      cases this with
      | object o => exact absurd ⟨o, rfl⟩ hobj
      | _ => rfl
    rw [hthrow] at hrun
    cases hrun

/-! ### Splitting and joining -/

theorem getElem?_readFrom (e : ℕ → Option JsValue) (k m i : ℕ) :
    (readFrom e k m)[i]? = if i < m then some ((e (k + i)).getD .undefined) else none := by
  rw [readFrom, List.getElem?_map]
  split
  · next hi =>
    rw [List.getElem?_range' hi, Nat.one_mul]
    rfl
  · next hi =>
    rw [List.getElem?_eq_none (by simpa using hi)]
    rfl

theorem length_readFrom (e : ℕ → Option JsValue) (k m : ℕ) : (readFrom e k m).length = m := by
  rw [readFrom, List.length_map, List.length_range']

theorem getElem?_parts {e₁ e₂ : ℕ → Option JsValue} {c : ℕ} (hc : c ≤ n)
    (h₁ : ∀ i, i < c → (e₁ i).getD .undefined = (e i).getD .undefined)
    (h₂ : ∀ i, i < n - c → (e₂ i).getD .undefined = (e (c + i)).getD .undefined) (i : ℕ) :
    (readFrom e₁ 0 c ++ readFrom e₂ 0 (n - c))[i]? =
      if i < n then some ((e i).getD .undefined) else none := by
  rw [List.getElem?_append, length_readFrom, getElem?_readFrom, getElem?_readFrom, Nat.zero_add,
    Nat.zero_add]
  by_cases hi : i < c
  · rw [if_pos hi, if_pos hi, if_pos (hi.trans_le hc), h₁ i hi]
  · rw [if_neg hi]
    by_cases hin : i < n
    · rw [if_pos (by omega), if_pos hin, h₂ _ (by omega), Nat.add_sub_cancel' (Nat.le_of_not_lt hi)]
    · rw [if_neg (by omega), if_neg hin]

theorem getD_copied (m : ℕ) (u : Option JsValue) : (copied m u).getD .undefined = u.getD .undefined := by
  unfold copied
  split <;> rfl

/-- `slice(0, v).concat(slice(v))` is the array again. -/
def Splits (w : World) (s o : ℕ) (v : JsValue) : Prop :=
  ∃ w₁ r₁ w₂ r₂ w₃ r, arraySlice s o [.int32 0, v] w = .ok (.object r₁) w₁ ∧
    arraySlice s o [v] w₁ = .ok (.object r₂) w₂ ∧
    arrayConcat s (.object r₁) [.object r₂] w₂ = .ok (.object r) w₃ ∧ (w₃.objects r).class_ = .array ∧
    (w₃.objects r).indexed.length = (w.objects o).indexed.length ∧ ∀ i, w₃.element r i = w.element o i

/-- The length is not the last one, the second part is not as long as `concat` refuses, and no element is
missing. -/
def FitsSplit (w : World) (o k : ℕ) : Prop :=
  let n := (w.objects o).indexed.length
  n < 2 ^ 32 - 1 ∧ (n = 2 ^ 32 - 2 → k ≠ 0) ∧ ∀ i, i < n → w.element o i ≠ none

theorem Building.plainCopies {m : ℕ} (he : ∀ i v, e i = some v → v ≠ .empty) (hm : m < 2 ^ 32)
    (hb : Building w₀ w r m fun i => if i < m then copied m (e (k + i)) else none) : PlainArray w r := by
  refine hb.plainArray hm fun i u hu => ?_
  split at hu
  · unfold copied at hu
    split at hu
    · cases hu
      cases he' : e (k + i) with
      | none => exact nofun
      | some v => exact he _ v he'
    · exact he _ u hu
  · cases hu

theorem Building.getD_copies {m i : ℕ}
    (hb : Building w₀ w r m fun i => if i < m then copied m (e (k + i)) else none)
    (hi : i < m) : (w.element r i).getD .undefined = (e (k + i)).getD .undefined := by
  rw [hb.element, if_pos hi, getD_copied]

theorem PlainArray.slices_at (h : PlainArray w o) (hs : w.ArrayStructure s) (hv : v.IsNumber k)
    (hn : (w.objects o).indexed.length < 2 ^ 32 - 1) :
    let n := (w.objects o).indexed.length
    let c := min (min k (2 ^ 31 - 1)) n
    ∃ w₁ r₁ w₂ r₂, arraySlice s o [.int32 0, v] w = .ok (.object r₁) w₁ ∧
      arraySlice s o [v] w₁ = .ok (.object r₂) w₂ ∧
      Building w w₁ r₁ c (fun i => if i < c then copied c (w.element o (0 + i)) else none) ∧
      Building w₁ w₂ r₂ (n - c)
        (fun i => if i < n - c then copied (n - c) (w.element o (c + i)) else none) := by
  intro n c
  obtain ⟨hnum, hne⟩ := hv.asNumber
  have hzero : (JsValue.int32 0).asNumber = .fin (0 : ℕ) := rfl
  have hnumeric : v = .undefined ∨ v.isNumber = true := .inr hv.getNumber.1
  have hfirst : window (F64.wrapped n) n [.int32 0, v] = (0, c) := by
    change ((JsValue.int32 0).asNumber.wrapped n, if v = .undefined then n else v.asNumber.wrapped n) = _
    rw [if_neg hne, hzero, hnum, wrapped_natCast, wrapped_natCast]
    simp [c]
  have hsecond : window (F64.wrapped n) n [v] = (c, n) := by
    change (v.asNumber.wrapped n, n) = _
    rw [hnum, wrapped_natCast]
  have hlast : ¬ AsksLast [.int32 0, v] := by
    rintro ⟨q, hq, -, hneg⟩
    obtain rfl := F64.fin.inj (hnum.symm.trans hq)
    exact absurd hneg (not_lt.mpr (Nat.cast_nonneg k))
  have hargs : Numeric [.int32 0, v] := by
    intro u hu
    rcases List.mem_pair.mp hu with rfl | rfl
    · exact .inr rfl
    · exact hnumeric
  have hrest : Numeric [v] := fun u hu => hargs u (List.mem_cons_of_mem _ hu)
  obtain ⟨w₁, r₁, hrun₁, hb₁⟩ := h.readsAs.slice h.own.inv hargs h.own.sound hs hn hlast hfirst
  have h₁ := h.grow hb₁.grow hb₁.own.sound
  have hobj := (hb₁.grow.frame o h.own.lt).object
  obtain ⟨w₂, r₂, hrun₂, hb₂⟩ := h₁.readsAs.slice h₁.own.inv hrest
    h₁.own.sound (hb₁.arrayStructure hs) (by rwa [hobj]) id
    (show window (F64.wrapped _) _ [v] = (c, n) by rw [hobj]; exact hsecond)
  rw [h.element_grow hb₁.grow] at hb₂
  exact ⟨w₁, r₁, w₂, r₂, hrun₁, hrun₂, hb₁, hb₂⟩

/-- **The parts join** exactly where `FitsSplit` says so. -/
theorem PlainArray.splits_iff (h : PlainArray w o) (hs : w.ArrayStructure s) (hv : v.IsNumber k)
    (hk : k ≤ (w.objects o).indexed.length) : Splits w s o v ↔ FitsSplit w o k := by
  unfold FitsSplit
  dsimp only
  by_cases hn : (w.objects o).indexed.length < 2 ^ 32 - 1
  swap
  · have hnumeric : Numeric [.int32 0, v] := by
      intro u hu
      rcases List.mem_pair.mp hu with rfl | rfl
      · exact .inr rfl
      · exact .inr hv.getNumber.1
    obtain ⟨w', hthrow⟩ := h.readsAs.slice_throws h.own.inv hnumeric (.inl hn) s
    refine iff_of_false ?_ fun hc => hn hc.1
    rintro ⟨w₁, r₁, w₂, r₂, w₃, r, hrun, -⟩
    rw [hthrow] at hrun
    cases hrun
  obtain ⟨w₁, r₁, w₂, r₂, hrun₁, hrun₂, hb₁, hb₂⟩ := h.slices_at hs hv hn
  have helem : ∀ i, (w.objects o).indexed.length ≤ i → w.element o i = none := fun i => h.element_of_le
  obtain ⟨n, hlength⟩ : ∃ n, n = (w.objects o).indexed.length := ⟨_, rfl⟩
  rw [← hlength] at hk hn hb₁ hb₂ helem ⊢
  obtain ⟨c, hc⟩ : ∃ c, c = min (min k (2 ^ 31 - 1)) n := ⟨_, rfl⟩
  rw [← hc] at hb₁ hb₂
  -- both parts are arrays, the first of which stays as it is
  have hmid := hb₁.plainCopies h.readsAs.value (by omega)
  have hobj := (hb₂.grow.frame r₁ hmid.own.lt).object
  have hp₁ := hmid.grow hb₂.grow hb₂.own.sound
  have hp₂ := hb₂.plainCopies h.readsAs.value (by omega)
  have hlen₁ : (w₂.objects r₁).indexed.length = c := by rw [hobj, hb₁.length]
  have hread₁ : ∀ i, i < c → (w₂.element r₁ i).getD .undefined = (w.element o i).getD .undefined := by
    intro i hi
    rw [hmid.element_grow hb₂.grow, hb₁.getD_copies hi, Nat.zero_add]
  have hops : ∀ p, JsValue.object p ∈ [.object r₁, .object r₂] →
      ReadsAs w₂ p (w₂.objects p).indexed.length (w₂.element p) := by
    intro p hp
    rcases List.mem_pair.mp hp with hp | hp <;> obtain rfl := JsValue.object.inj hp
    · exact hp₁.readsAs
    · exact hp₂.readsAs
  obtain ⟨hends, hacc⟩ := concat_run hops hp₂.own.inv hp₂.own.sound
    (hb₂.arrayStructure (hb₁.arrayStructure hs)) (List.cons_ne_nil _ _) rfl
  have hdone : ∀ {w₁' r₁' w₂' r₂' w₃ r}, arraySlice s o [.int32 0, v] w = .ok (.object r₁') w₁' →
      arraySlice s o [v] w₁' = .ok (.object r₂') w₂' →
      arrayConcat s (.object r₁') [.object r₂'] w₂' = .ok (.object r) w₃ →
      arrayConcat s (.object r₁) [.object r₂] w₂ = .ok (.object r) w₃ := by
    intro w₁' r₁' w₂' r₂' w₃ r hr₁ hr₂ hr₃
    obtain ⟨hv₁, rfl⟩ := Result.ok.inj (hrun₁.symm.trans hr₁)
    obtain ⟨hv₂, rfl⟩ := Result.ok.inj (hrun₂.symm.trans hr₂)
    rwa [hv₁, hv₂]
  by_cases hlong : n - c < 2 ^ 32 - 2
  · have hall : ∀ u ∈ [JsValue.object r₂], AcceptedOperand (fun p => (w₂.objects p).indexed.length) u := by
      intro u hu
      refine ⟨r₂, List.mem_singleton.mp hu, ?_⟩
      change (w₂.objects r₂).indexed.length < 2 ^ 32 - 2
      rwa [hb₂.length]
    obtain ⟨ix, w₃, r, hrun₃, happ⟩ := hends hall
    obtain ⟨vs, hvs⟩ : ∃ vs, vs = [JsValue.object r₁, .object r₂].flatMap
        (operandValues (fun p => (w₂.objects p).indexed.length) w₂.element) := ⟨_, rfl⟩
    have hjoin : vs = readFrom (w₂.element r₁) 0 c ++ readFrom (w₂.element r₂) 0 (n - c) := by
      rw [hvs, List.flatMap_cons, List.flatMap_singleton, operandValues, operandValues, hlen₁, hb₂.length]
    have hcount : vs.length = n := by
      rw [hjoin, List.length_append, length_readFrom, length_readFrom]
      omega
    rw [← hvs] at happ
    obtain ⟨-, hb⟩ := (Appended.of_lt (by omega)).mp happ
    have hlen : (w₃.objects r).indexed.length = n := by
      rw [hb.length, hcount, hlen₁]
      omega
    have hread : ∀ i, w₃.element r i = if i < n then some ((w.element o i).getD .undefined) else none := by
      intro i
      rw [hb.element, hjoin]
      exact getElem?_parts (by omega) hread₁ (fun j hj => hb₂.getD_copies hj) i
    constructor
    · rintro ⟨w₁', r₁', w₂', r₂', w₃', r', hr₁, hr₂, hr₃, -, -, hsame⟩
      obtain ⟨hr, rfl⟩ := Result.ok.inj (hrun₃.symm.trans (hdone hr₁ hr₂ hr₃))
      obtain rfl : r = r' := JsValue.object.inj hr
      refine ⟨hn, by omega, fun i hi hhole => ?_⟩
      have hi' := (hread i).symm.trans (hsame i)
      rw [if_pos hi, hhole] at hi'
      cases hi'
    · rintro ⟨-, -, hfull⟩
      refine ⟨w₁, r₁, w₂, r₂, w₃, r, hrun₁, hrun₂, hrun₃, hb.class_eq, hlen.trans hlength, fun i => ?_⟩
      rw [hread]
      split
      · next hi =>
        obtain ⟨u, hu⟩ := Option.ne_none_iff_exists'.mp (hfull i hi)
        rw [hu]
        rfl
      · next hi => exact (helem i (Nat.le_of_not_lt hi)).symm
  · refine iff_of_false ?_ fun hc => by
      have := hc.2.1
      omega
    rintro ⟨w₁', r₁', w₂', r₂', w₃', r', hr₁, hr₂, hr₃, -⟩
    obtain ⟨p, hp, hlt⟩ := hacc _ _ (hdone hr₁ hr₂ hr₃) (.object r₂) (List.mem_singleton.mpr rfl)
    obtain rfl := JsValue.object.inj hp
    change (w₂.objects r₂).indexed.length < 2 ^ 32 - 2 at hlt
    rw [hb₂.length] at hlt
    exact hlong hlt

theorem plainArray_stackWorld : PlainArray stackWorld 0 where
  own := dataArray_stackWorld.own
  class_eq := rfl
  u32 := show 0 < 2 ^ 32 by decide
  data _ _ hs := nomatch hs

theorem arrayStructure_stackWorld : stackWorld.ArrayStructure 0 where
  lt := show 0 < 1 by decide
  shared := rfl
  noLength := nofun
  bare _ hp := nomatch hp

end Starlight
