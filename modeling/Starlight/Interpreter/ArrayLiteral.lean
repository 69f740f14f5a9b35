import Starlight.Interpreter.SpreadCall

/-!
# Array literals

The elements of a literal are pushed from the last to the first, `undefined` for one that is left out, and
`OP_SPREAD` expands those that are spread. `OP_NEWARRAY` makes the array with the number of elements that
are written as its length, and stores the expanded values from index `0` on.

So the values are always at the right places, but the array is as long as they are only if spread elements
that are empty are made up for by longer ones.
-/

namespace Starlight

open Exec

variable {ε ρ : Type}

/-- The object is an array with these elements and no others. -/
def World.IsArrayOf (w : World) (arr : ℕ) (vs : List JsValue) : Prop :=
  (w.objects arr).class_ = .array ∧ (w.objects arr).indexed.length = vs.length ∧
    ∀ i, (w.objects arr).indexed.stored i = (vs[i]?).map fun v => ⟨v, objectData⟩

namespace Engine

variable (E : Engine ε ρ)

def elementOperand : Option (Argument ε) → Run ρ Operand
  | some arg => E.operand arg
  | none => return .value .undefined

def pushElements : List (Option (Argument ε)) → List Operand → Run ρ (List Operand)
  | [], stack => return stack
  | elem :: elems, stack => do
    let operand ← E.elementOperand elem
    pushElements elems (operand :: stack)

def arrayLiteral (elems : List (Option (Argument ε))) : Run ρ JsValue := do
  let stack ← E.pushElements elems.reverse []
  let (arr, _) ← Run.onHeap (JsArray.ofOperands E.arrayStructure elems.length stack)
  return .object arr

/-- The operands of the elements in source order, evaluated from the last to the first. -/
def elementOperands : List (Option (Argument ε)) → Run ρ (List Operand)
  | [] => return []
  | elem :: elems => do
    let operands ← elementOperands elems
    let operand ← E.elementOperand elem
    return operand :: operands

def MakesArray (elems : List (Option (Argument ε))) (s : World × ρ) : Prop :=
  ∀ operands s', E.elementOperands elems s = .ok operands s' → ∃ arr s'',
    E.arrayLiteral elems s = .ok (.object arr) s'' ∧ s''.1.IsArrayOf arr (operands.flatMap Operand.values)

variable {E} {elems : List (Option (Argument ε))} {s s' : World × ρ} {operands : List Operand}

theorem pushElements_append (elems elems' : List (Option (Argument ε))) (stack : List Operand) :
    E.pushElements (elems ++ elems') stack = E.pushElements elems stack >>= E.pushElements elems' := by
  induction elems generalizing stack with
  | nil => rfl
  | cons elem elems ih =>
    rw [List.cons_append, pushElements, pushElements, bind_bind]
    exact congrArg _ (funext fun operand => ih (operand :: stack))

theorem pushElements_reverse (elems : List (Option (Argument ε))) (stack : List Operand) :
    E.pushElements elems.reverse stack =
      E.elementOperands elems >>= fun operands => pure (operands ++ stack) := by
  induction elems generalizing stack with
  | nil => rfl
  | cons elem elems ih =>
    rw [List.reverse_cons, pushElements_append, ih, elementOperands, bind_bind, bind_bind]
    refine congrArg _ (funext fun operands => ?_)
    rw [bind_bind]
    rfl

theorem elementOperand_ne_empty {elem : Option (Argument ε)} {operand : Operand}
    (h : E.elementOperand elem s = .ok operand s') : ∀ v ∈ operand.values, v ≠ .empty := by
  cases elem with
  | some arg => exact operand_ne_empty h
  | none =>
    cases h
    exact List.forall_mem_singleton.mpr nofun

theorem elementOperands_spec (h : E.elementOperands elems s = .ok operands s') :
    operands.length = elems.length ∧ ∀ v ∈ operands.flatMap Operand.values, v ≠ .empty := by
  induction elems generalizing operands s' with
  | nil =>
    cases h
    exact ⟨rfl, nofun⟩
  | cons elem elems ih =>
    obtain ⟨ops, s₁, hops, h⟩ := bind_eq_ok h
    obtain ⟨operand, s₂, hop, h⟩ := bind_eq_ok h
    cases h
    obtain ⟨hlen, hne⟩ := ih hops
    refine ⟨congrArg Nat.succ hlen, ?_⟩
    rw [List.flatMap_cons]
    exact List.forall_mem_append.mpr ⟨elementOperand_ne_empty hop, hne⟩

theorem arrayLiteral_eq (h : E.elementOperands elems s = .ok operands s')
    (hplain : s'.1.PlainArrays E.arrayStructure) : ∃ ix,
    JsArray.Holds elems.length (operands.flatMap Operand.values) ix ∧
      E.arrayLiteral elems s =
        .ok (.object s'.1.nextObject) (s'.1.withArray E.arrayStructure ix, s'.2) := by
  obtain ⟨hlen, hne⟩ := elementOperands_spec h
  obtain ⟨ix, hix, hrun⟩ := JsArray.ofOperands_eq hplain operands [] hne
  rw [hlen] at hix hrun
  refine ⟨ix, hix, ?_⟩
  have hpush : E.pushElements elems.reverse [] s = .ok (operands ++ []) s' := by
    rw [pushElements_reverse, bind_of_ok h]
    rfl
  have hmake : Run.onHeap (JsArray.ofOperands E.arrayStructure elems.length (operands ++ [])) s' =
      .ok (s'.1.nextObject, []) (s'.1.withArray E.arrayStructure ix, s'.2) := by
    unfold Run.onHeap
    rw [hrun]
  rw [arrayLiteral, bind_of_ok hpush, bind_of_ok hmake]
  rfl

theorem isArrayOf_withArray (w : World) (arrayStructure : ℕ) {count : ℕ} {ix : IndexedElements}
    {vs : List JsValue} (h : JsArray.Holds count vs ix) :
    (w.withArray arrayStructure ix).IsArrayOf w.nextObject vs ↔ count ≤ vs.length := by
  unfold World.IsArrayOf
  rw [JsArray.indexed_withArray_self, JsArray.objects_withArray_self, h.length]
  constructor
  · rintro ⟨-, hlen, -⟩
    exact max_eq_right_iff.mp hlen
  · intro hle
    exact ⟨rfl, max_eq_right hle, h.stored⟩

/-- **When an array literal makes the array that is written.** Where arrays inherit no elements it does as
long as the elements expand to no fewer values than there are elements. -/
theorem makesArray_iff (E : Engine ε ρ) (elems : List (Option (Argument ε))) (s : World × ρ)
    (hplain : ∀ operands s', E.elementOperands elems s = .ok operands s' →
      s'.1.PlainArrays E.arrayStructure) :
    E.MakesArray elems s ↔ ∀ operands s', E.elementOperands elems s = .ok operands s' →
      elems.length ≤ (operands.flatMap Operand.values).length := by
  refine forall_congr' fun operands => forall_congr' fun s' => imp_congr_right fun h => ?_
  obtain ⟨ix, hix, hrun⟩ := arrayLiteral_eq h (hplain _ _ h)
  refine Iff.trans ?_ (isArrayOf_withArray s'.1 E.arrayStructure hix)
  constructor
  · rintro ⟨arr, s'', hok, harr⟩
    rw [hrun] at hok
    cases hok
    exact harr
  · intro harr
    exact ⟨_, _, hrun, harr⟩

theorem elementOperands_nullsEngine (count : ℕ) :
    (nullsEngine count).elementOperands [some ⟨(), true⟩, none] (functionWorld, ()) =
      .ok [.spread (List.replicate count .null), .value .undefined] (functionWorld, ()) := rfl

theorem plainArrays_elementOperands (count : ℕ) (operands : List Operand) (s' : World × Unit)
    (h : (nullsEngine count).elementOperands [some ⟨(), true⟩, none] (functionWorld, ()) =
      .ok operands s') : s'.1.PlainArrays (nullsEngine count).arrayStructure := by
  rw [elementOperands_nullsEngine] at h
  cases h
  exact ⟨rfl, nofun⟩

/-- `[...[null, null], ,]` has three elements. -/
theorem makesArray_nullsEngine :
    (nullsEngine 2).MakesArray [some ⟨(), true⟩, none] (functionWorld, ()) := by
  refine (makesArray_iff (nullsEngine 2) _ _ (plainArrays_elementOperands 2)).mpr fun operands s' h => ?_
  rw [elementOperands_nullsEngine] at h
  cases h
  decide

/-- `[...[], ,]` is two long instead of one. -/
theorem not_makesArray_nullsEngine :
    ¬ (nullsEngine 0).MakesArray [some ⟨(), true⟩, none] (functionWorld, ()) := by
  intro h
  obtain ⟨arr, s'', hok, -, hlen, -⟩ := h _ _ (elementOperands_nullsEngine 0)
  obtain ⟨ix, hix, hrun⟩ := arrayLiteral_eq (elementOperands_nullsEngine 0)
    (plainArrays_elementOperands 0 _ _ (elementOperands_nullsEngine 0))
  rw [hrun] at hok
  cases hok
  rw [JsArray.indexed_withArray_self, hix.length] at hlen
  exact absurd hlen (by decide)

end Engine

end Starlight
