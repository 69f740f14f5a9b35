import Starlight.Vm.Descriptors
import Starlight.Vm.StringIndex

/-!
# The operator `in`

`OP_IN` converts the key and then asks for an own property. The object that it is asked about may have
the key from its prototypes, which is what `has_property` and every lookup answer, so `in` agrees with
them just when the object owns the key or no prototype has it.
-/

namespace Starlight

open JsObject World Exec

variable {w w' : World} {o i : ℕ} {n : Symbol}

/-- `OP_IN` on `rhs`; `toSymbol` is the conversion of the key, which may run code. -/
def opIn (toSymbol : Vm Symbol) (rhs : JsValue) : Vm Bool :=
  match rhs with
  | .object o => do
    let sym ← toSymbol
    hasOwnProperty o sym
  | _ => Vm.throwTypeError "'in' requires object"

/-- A lookup of an index among the own properties that answers: whether it finds one does not depend on
the slot, and a miss changes nothing. -/
theorem owns_of_getOwnIndexedPropertySlot {slot slot' : Slot} {found : Bool}
    (hrun : getOwnIndexedPropertySlot o i slot w = .ok (found, slot') w') :
    (found = true ↔ Owns w o (.index i)) ∧ (found = false → w' = w ∧ slot' = slot) := by
  by_cases htext : (w.objects o).InText i
  · obtain ⟨text, hc, hlt⟩ := htext
    cases hch : text.toList[i]? with
    | none =>
      unfold getOwnIndexedPropertySlot at hrun
      rw [Vm.object_bind, hc] at hrun
      dsimp only at hrun
      rw [if_pos hlt, hch] at hrun
      cases hrun
    | some ch =>
      obtain ⟨c, w₁, hown, -⟩ := getOwnIndexedPropertySlot_of_char hc hlt hch slot
      obtain ⟨c', w₂, hnew, -⟩ := getOwnIndexedPropertySlot_of_char hc hlt hch Slot.new
      rw [hown] at hrun
      cases hrun
      exact ⟨⟨fun _ => ⟨_, w₂, hnew⟩, fun _ => rfl⟩, fun hf => by cases hf⟩
  · have heq := getOwnIndexedPropertySlot_of_not_inText htext
    rw [heq, getOwnIndexedPropertySlotMethod_eq] at hrun
    have hnew : getOwnPropertySlot o (.index i) Slot.new w = _ :=
      (heq Slot.new).trans (getOwnIndexedPropertySlotMethod_eq o i Slot.new w)
    cases hs : (w.objects o).indexed.stored i with
    | none =>
      rw [hs] at hrun hnew
      cases hrun
      refine ⟨⟨fun h => (by cases h), ?_⟩, fun _ => ⟨rfl, rfl⟩⟩
      rintro ⟨s, w₁, h⟩
      rw [hnew] at h
      cases h
    | some s =>
      rw [hs] at hrun hnew
      cases hrun
      exact ⟨⟨fun _ => ⟨_, _, hnew⟩, fun _ => rfl⟩, fun h => by cases h⟩

theorem found_index_iff_hasName {fuel : ℕ} {slot slot' : Slot} {found : Bool}
    (hrun : getIndexedPropertySlotFrom fuel o i slot w = .ok (found, slot') w') :
    found = true ↔ HasName w o (.index i) := by
  induction fuel generalizing o slot with
  | zero => cases hrun
  | succ fuel ih =>
    obtain ⟨⟨found₁, slot₁⟩, w₁, hown, hrest⟩ := bind_eq_ok hrun
    obtain ⟨howns, hmiss⟩ := owns_of_getOwnIndexedPropertySlot hown
    rw [hasName_iff, ← howns]
    cases found₁ with
    | true =>
      cases hrest
      exact ⟨fun _ => .inl rfl, fun _ => rfl⟩
    | false =>
      obtain ⟨rfl, rfl⟩ := hmiss rfl
      simp only [Bool.false_eq_true, if_false, Vm.object_bind, Exec.gets_bind, false_or] at hrest ⊢
      have hproto : (w₁.shapes.structures (w₁.objects o).structure_).prototype = w₁.prototype o := rfl
      rw [hproto] at hrest
      cases hp : w₁.prototype o with
      | none =>
        rw [hp] at hrest
        cases hrest
        exact ⟨fun hc => (nomatch hc), fun ⟨p, hc, _⟩ => (nomatch hc)⟩
      | some p =>
        rw [hp] at hrest
        rw [ih hrest]
        exact ⟨fun h => ⟨p, rfl, h⟩, fun ⟨q, hq, h⟩ => by cases hq; exact h⟩

theorem hasProperty_iff_hasName (h : w.Inv layoutPolicy) (ho : o < w.nextObject) {b : Bool}
    (hrun : hasProperty o n w = .ok b w') : b = true ↔ HasName w o n := by
  by_cases hname : ∀ i, n ≠ .index i
  · exact (hasProperty_spec h ho hname hrun).2
  · push Not at hname
    obtain ⟨i, rfl⟩ := hname
    obtain ⟨⟨found, slot⟩, w₁, hget, hret⟩ := bind_eq_ok hrun
    cases hret
    exact found_index_iff_hasName hget

theorem hasOwnProperty_iff_owns {b : Bool} (hrun : hasOwnProperty o n w = .ok b w') :
    b = true ↔ Owns w o n := by
  obtain ⟨⟨found, slot⟩, w₁, hget, hret⟩ := bind_eq_ok hrun
  cases hret
  constructor
  · rintro rfl
    exact ⟨slot, w', hget⟩
  · rintro ⟨slot', w₂, hown⟩
    rw [hget] at hown
    cases hown
    rfl

/-- **`in` agrees with the lookup**, whatever the conversion of the key does, just when the object owns
the key or no prototype has it. -/
theorem opIn_iff {toSymbol : Vm Symbol} {w₀ w₁ w₂ : World} (hkey : toSymbol w₀ = .ok n w)
    (h : Reachable (fun w op => op.KeepsSlots w) w) (ho : o < w.nextObject) {b found : Bool}
    (hin : opIn toSymbol (.object o) w₀ = .ok b w₁) (hhas : hasProperty o n w = .ok found w₂) :
    (found = true ↔ HasName w o n) ∧
      (b = found ↔ (Owns w o n ∨ ∀ p, w.prototype o = some p → ¬ HasName w p n)) := by
  have hfound := hasProperty_iff_hasName h.layout_inv ho hhas
  change (toSymbol >>= fun sym => hasOwnProperty o sym) w₀ = _ at hin
  rw [bind_of_ok hkey] at hin
  have hown := hasOwnProperty_iff_owns hin
  refine ⟨hfound, ?_⟩
  rw [Bool.eq_iff_iff, hown, hfound, hasName_iff]
  constructor
  · intro heq
    by_cases ho : Owns w o n
    · exact .inl ho
    · exact .inr fun p hp hn => ho (heq.mpr (.inr ⟨p, hp, hn⟩))
  · rintro (ho | hno)
    · exact ⟨fun _ => .inl ho, fun _ => ho⟩
    · exact ⟨.inl, fun hn => hn.resolve_right fun ⟨p, hp, hn⟩ => hno p hp hn⟩

/-- An object that inherits `x`. -/
noncomputable def inheritedWorld : World :=
  ((loneWorld .object).after (.on 0 (.put (.key "x") .null true))).after
    (.newUniqueObject (some 0) false .object)

theorem reachable_inheritedWorld : Reachable (fun w op => op.KeepsSlots w) inheritedWorld := by
  have h := (reachable_loneWorld .object).step (.on 0 (.put (.key "x") .null true))
    (show 0 < 1 by decide) trivial rfl
  exact h.step (.newUniqueObject (some 0) false .object)
    (fun p hp => by cases hp; exact show 0 < 1 by decide) trivial rfl

theorem opIn_iff_inheritedWorld : Owns inheritedWorld 0 (.key "x") ∨
    ∀ p, inheritedWorld.prototype 0 = some p → ¬ HasName inheritedWorld p (.key "x") :=
  (opIn_iff (show (pure (.key "x") : Vm Symbol) inheritedWorld = .ok (.key "x") inheritedWorld from rfl)
    reachable_inheritedWorld (show 0 < 2 by decide)
    (show opIn (pure (.key "x")) (.object 0) inheritedWorld = .ok true _ from rfl)
    (show hasProperty 0 (.key "x") inheritedWorld = .ok true _ from rfl)).2.mp rfl

/-- `"x" in o` is false, and `o` has `x` from its prototype. -/
theorem not_opIn_hasProperty :
    ¬ ∀ w, Reachable (fun w op => op.KeepsSlots w) w → ∀ o, o < w.nextObject → ∀ n b found w₁ w₂,
      opIn (pure n) (.object o) w = .ok b w₁ → hasProperty o n w = .ok found w₂ → b = found := by
  intro h
  exact Bool.false_ne_true (h inheritedWorld reachable_inheritedWorld 1 (show 1 < 2 by decide)
    (.key "x") false true _ _ rfl rfl)

end Starlight
