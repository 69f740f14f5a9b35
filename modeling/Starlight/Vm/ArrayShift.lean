import Starlight.Vm.ArrayLike

/-!
# `shift`

`array_shift` moves the elements down one by one. It asks whether a value is `undefined` to find out whether
there is an element, so an element that is `undefined` is lost as a hole; and it sets the length through an
int32, which is negative from `2 ^ 31` on. On all other array-like objects it is the left shift.
-/

namespace Starlight

open JsObject World Exec

variable {w w' : World} {o n k rest i : ℕ} {e e' : ℕ → Option JsValue} {v first : JsValue}

def Script.run (o : ℕ) : Script → Vm JsValue
  | .done v => return v
  | .throw e => Exec.fail (.throw e)
  | .length next => do
    let n ← getLength o
    (next n).run o
  | .get name next => do
    let v ← getSlot o name (fun _ => false) Slot.new
    (next v).run o
  | .act op next => do
    op.exec o
    next.run o

/-- There is an element before if and only if there is one after, with the same value. -/
def SameElement : Option JsValue → Option JsValue → Prop := Option.Rel fun v u => v.sameValue u = true

def Shifts (w : World) (o n : ℕ) (e : ℕ → Option JsValue) : Prop :=
  ∃ w' e', arrayShift.run o w = .ok ((e 0).getD .undefined) w' ∧ ArrayLike w' o (n - 1) e' ∧
    (∀ k, k < n - 1 → SameElement (e (k + 1)) (e' k)) ∧ e' (n - 1) = none

/-- What `shift` takes for an element. -/
def defined (old : Option JsValue) : Option JsValue := old.filter (· ≠ .undefined)

def shiftEnd (first : JsValue) (n : ℕ) : Script :=
  .act (.delete (.index (n - 1)) false) <| .act (.put Symbol.length (.newU32 (n - 1)) false) (.done first)

theorem ArrayLike.shiftStep (h : ArrayLike w o n e) (k : ℕ) (first : JsValue) (rest : ℕ) :
    ∃ w' u, (Starlight.shiftFrom first (k + 1) (rest + 1)).run o w =
        (Starlight.shiftFrom first (k + 2) rest).run o w' ∧
      ArrayLike w' o n (Function.update e k u) ∧ SameElement (defined (e (k + 1))) u := by
  have hrun : (Starlight.shiftFrom first (k + 1) (rest + 1)).run o w =
      (if (e (k + 1)).getD .undefined = .undefined then
          Script.act (.delete (.index k) false) (Starlight.shiftFrom first (k + 2) rest)
        else .act (.put (.index k) ((e (k + 1)).getD .undefined) false)
          (Starlight.shiftFrom first (k + 2) rest)).run o w := by
    rw [Starlight.shiftFrom, Script.run, bind_of_ok (h.get (k + 1) _)]
    rfl
  by_cases hv : (e (k + 1)).getD .undefined = .undefined
  · obtain ⟨w', hdel, h'⟩ := h.delete k false
    refine ⟨w', none, ?_, h', ?_⟩
    · rw [hrun, if_pos hv, Script.run]
      have hexec : (ObjectOp.delete (.index k) false).exec o w = .ok () w' := by
        rw [ObjectOp.exec, bind_of_ok hdel]
        rfl
      exact bind_of_ok hexec _
    · have hnone : defined (e (k + 1)) = none := by
        cases he : e (k + 1) with
        | none => rfl
        | some v =>
          rw [he] at hv
          obtain rfl : v = .undefined := hv
          rfl
      rw [hnone]
      exact .none
  · obtain ⟨v, he⟩ : ∃ v, e (k + 1) = some v := by
      cases he : e (k + 1) with
      | none =>
        rw [he] at hv
        exact absurd rfl hv
      | some v => exact ⟨v, rfl⟩
    rw [he, Option.getD_some] at hv hrun
    have hlt := h.lt_length he
    obtain ⟨w', u, hput, h', hsame⟩ := h.put (i := k) (by omega) (h.value _ _ he) false
    refine ⟨w', some u, ?_, h', ?_⟩
    · rw [hrun, if_neg hv, Script.run]
      exact bind_of_ok hput _
    · have hdefined : defined (some v) = some v := by simp [defined, Option.filter, hv]
      rw [he, hdefined]
      exact .some hsame

/-- **The loop.** From `k + 1` on each element has moved down, and the others are where they were. -/
theorem ArrayLike.shiftFrom (h : ArrayLike w o n e) (first : JsValue) (hk : k + 1 + rest = n) :
    ∃ w' e', (Starlight.shiftFrom first (k + 1) rest).run o w = (shiftEnd first n).run o w' ∧
      ArrayLike w' o n e' ∧ (∀ i, k ≤ i → i + 1 < n → SameElement (defined (e (i + 1))) (e' i)) ∧
      ∀ i, i < k ∨ n ≤ i + 1 → e' i = e i := by
  induction rest generalizing k w e with
  | zero =>
    obtain rfl : k + 1 = n := hk
    exact ⟨w, e, rfl, h, fun i hi hlt => by omega, fun _ _ => rfl⟩
  | succ rest ih =>
    obtain ⟨w₁, u, hstep, h₁, hu⟩ := h.shiftStep k first rest
    obtain ⟨w', e', hrun, h', hmoved, hkept⟩ := ih (k := k + 1) h₁ (by omega)
    refine ⟨w', e', hstep.trans hrun, h', fun i hi hlt => ?_, fun i hi => ?_⟩
    · by_cases hik : i = k
      · subst hik
        rw [hkept i (.inl (Nat.lt_succ_self i)), Function.update_self]
        exact hu
      · have hm := hmoved i (by omega) hlt
        rwa [Function.update_of_ne (by omega)] at hm
    · rw [hkept i (by omega), Function.update_of_ne (by omega)]

theorem ArrayLike.elements_unique (h : ArrayLike w o n e) {m : ℕ} (h' : ArrayLike w o m e') : e' = e := by
  funext i
  have hs := (h'.stored i).symm.trans (h.stored i)
  cases he : e i <;> cases he' : e' i <;> rw [he, he'] at hs <;> simp_all

/-- What is left to do when the elements have moved. -/
def setsLength (o m : ℕ) (first : JsValue) : Vm JsValue := do
  JsObject.put o Symbol.length (.newU32 m) false
  return first

theorem ArrayLike.shift (h : ArrayLike w o (n + 1) e) : ∃ w' e',
    arrayShift.run o w = setsLength o n ((e 0).getD .undefined) w' ∧ ArrayLike w' o (n + 1) e' ∧
      (∀ i, i < n → SameElement (defined (e (i + 1))) (e' i)) ∧ e' n = none := by
  obtain ⟨w₀, hlen, h₀, -⟩ := h.getLength
  have hall : 0 + 1 + n = n + 1 := by omega
  obtain ⟨w₁, e₁, hloop, h₁, hmoved, -⟩ := h₀.shiftFrom ((e 0).getD .undefined) hall
  obtain ⟨w', hdel, h'⟩ := h₁.delete n false
  have hexec : (ObjectOp.delete (.index n) false).exec o w₁ = .ok () w' := by
    rw [ObjectOp.exec, bind_of_ok hdel]
    rfl
  refine ⟨w', _, ?_, h', fun i hi => ?_, Function.update_self ..⟩
  · rw [arrayShift, Script.run, bind_of_ok hlen]
    dsimp only
    rw [Script.run, bind_of_ok (h₀.get 0 _), hloop, shiftEnd, Script.run]
    exact bind_of_ok hexec _
  · rw [Function.update_of_ne (by omega)]
    exact hmoved i (Nat.zero_le i) (by omega)

theorem ArrayLike.setsLength_ok (h : ArrayLike w o (n + 1) e) (hlast : e n = none) (hn : n < 2 ^ 31)
    (first : JsValue) : ∃ w', setsLength o n first w = .ok first w' ∧ ArrayLike w' o n e := by
  have hnum := isNumber_newU32 hn
  obtain ⟨w', hput, h'⟩ : ∃ w', JsObject.put o Symbol.length (.newU32 n) false w = .ok () w' ∧
      ArrayLike w' o n e := by
    by_cases hc : (w.objects o).class_ = .array
    · exact h.cut_array hc hlast hnum false
    · obtain ⟨w', hput, hlike, s, hs, hd, hw, hval⟩ := h.putLength hc (.newU32 n) false
      have hc' : (w'.objects o).class_ ≠ .array := by
        rwa [(h.own.touch_put hput).1.class_eq]
      refine ⟨w', hput, hlike n (by omega) ?_⟩
      rw [HasLength, if_neg hc']
      refine ⟨s, hs, hd, hw, ?_⟩
      rcases hval with hval | ⟨hsame, hold⟩
      · rwa [hval]
      · have := hnum.unique ((sameValue_int32 hold).mp hsame)
        omega
  exact ⟨w', bind_of_ok hput _, h'⟩

theorem ArrayLike.not_setsLength (h : ArrayLike w o (n + 1) e) (hn : 2 ^ 31 ≤ n) (first : JsValue)
    (hrun : setsLength o n first w = .ok v w') : ¬ HasLength w' o n := by
  have hn' : n < 2 ^ 32 := lt_trans (Nat.lt_succ_self n) h.u32
  intro hlen
  by_cases hc : (w.objects o).class_ = .array
  · obtain ⟨-, hw⟩ := h.length.of_array hc
    have hneg : (BitVec.ofNat 32 n).toInt < 0 := by
      rw [toInt_ofNat hn' hn]
      omega
    have herr : setsLength o n first w = .error (.throw (.typeError "invalid array length")) w := by
      rw [setsLength, bind_apply, JsValue.newU32, put_length_negative hc hw hneg]
    rw [herr] at hrun
    cases hrun
  · obtain ⟨w₁, hput, -, s, hs, -, -, hval⟩ := h.putLength hc (.newU32 n) false
    rw [setsLength, bind_of_ok hput] at hrun
    obtain rfl : w₁ = w' := (Result.ok.inj hrun).2
    have hc' : (w₁.objects o).class_ ≠ .array := by
      rwa [(h.own.touch_put hput).1.class_eq]
    obtain ⟨s', hs', -, -, hnum⟩ := hlen.of_not_array hc'
    obtain rfl : s = s' := Option.some_inj.mp (hs.symm.trans hs')
    rcases hval with hval | ⟨-, hold⟩
    · exact not_isNumber_newU32 hn' hn (hval ▸ hnum)
    · have := hnum.unique hold
      omega

/-- The array `[null, undefined]`. -/
def pairWorld : World :=
  (arrayWorld.after (.on 0 (.put (.index 0) .null false))).after (.on 0 (.put (.index 1) .undefined false))

theorem reachable_pairWorld : Reachable (fun w op => op.KeepsSlots w) pairWorld :=
  (reachable_arrayWorld.step (.on 0 (.put (.index 0) .null false)) (show 0 < 1 by decide)
    trivial rfl).step (.on 0 (.put (.index 1) .undefined false)) (show 0 < 1 by decide)
    trivial rfl

theorem arrayLike_pairWorld : ArrayLike pairWorld 0 2 fun i => [JsValue.null, .undefined][i]? where
  own := ⟨reachable_pairWorld.layout_inv, show 0 < 1 by decide, reachable_pairWorld.soundElements, rfl,
    fun p hp => nomatch hp⟩
  extensible := rfl
  length := ⟨rfl, rfl⟩
  u32 := by decide
  stored
    | 0 => rfl
    | 1 => rfl
    | _ + 2 => rfl
  value
    | 0, _, rfl => by decide
    | 1, _, rfl => by decide

end Starlight
