import Starlight.Interpreter.SpreadCall

/-!
# Bound functions

`function_bind` keeps a receiver and arguments for a target. When the bound function is called,
`JsFunction::call` calls the target with these, and with nothing else: the arguments of the call are not
appended. When it is constructed, the new object is not passed on either, since the receiver that is kept
takes its place.

Two functions are the same here if no choice of what functions do tells them apart. Frames do not keep the
callee (`new_frame`), so that what functions do does not depend on it.
-/

namespace Starlight

open Exec Engine

variable {ρ : Type}

def functionBind (target : FuncType) (args : List JsValue) : FuncType :=
  .bound (args.getD 0 .undefined) (args.drop 1) target

namespace Bodies

/-- What a function does is independent of the callee of its frame. -/
def IgnoresCallee (B : Bodies ρ) : Prop :=
  ∀ f callee callee' this ctor env, B.eval f callee this ctor env = B.eval f callee' this ctor env

/-- A call of one function with some arguments is the call of another one. -/
def SameCall (ρ : Type) (ty : FuncType) (args : Arguments) (ty' : FuncType) (args' : Arguments) : Prop :=
  ∀ B : Bodies ρ, B.IgnoresCallee → ∀ callee callee', B.call ty args callee = B.call ty' args' callee'

def SameConstruct (ρ : Type) (ty : FuncType) (args : Arguments) (ty' : FuncType) (args' : Arguments) :
    Prop :=
  ∀ B : Bodies ρ, B.IgnoresCallee → ∀ structure_ callee callee',
    B.construct ty args structure_ callee = B.construct ty' args' structure_ callee'

variable {B : Bodies ρ} {f : FuncType} {t t' this : JsValue} {as bs : List JsValue} {ctor : Bool}

theorem ignoresCallee_observers (q : Arguments → World × ρ → JsValue) : (observers q).IgnoresCallee :=
  fun _ _ _ _ _ _ => rfl

theorem call_callee (hB : B.IgnoresCallee) (ty : FuncType) (args : Arguments) (callee callee' : JsValue) :
    B.call ty args callee = B.call ty args callee' := by
  induction ty generalizing args with
  | bound this values target ih => exact ih _
  | user g =>
    rw [call, call, performVmCall, performVmCall]
    refine congrArg _ (funext fun p => ?_)
    obtain ⟨this, env⟩ := p
    exact hB ..
  | native | closure | generator => rfl

theorem call_functionBind (callee : JsValue) : B.call (functionBind f (t :: as)) ⟨this, bs, ctor⟩ callee =
    B.call f ⟨t, as, ctor⟩ callee := rfl

theorem call_of_isBound (hf : f.isBound = true) (callee : JsValue) :
    B.call f ⟨t, as, ctor⟩ callee = B.call f ⟨t', bs, ctor⟩ callee := by
  cases f with
  | bound => rfl
  | native | closure | user | generator => cases hf

theorem eq_of_sameCall [Inhabited ρ] (hf : f.isBound = false)
    (h : ∀ B : Bodies ρ, B.IgnoresCallee → ∀ callee,
      B.call f ⟨t, as, ctor⟩ callee = B.call f ⟨t', bs, ctor⟩ callee) : t = t' ∧ as = bs := by
  let q : Arguments → World × ρ → JsValue := fun args _ =>
    if args.this = t' ∧ args.values = bs then .null else .undefined
  have hrun := congrFun (h (observers q) (ignoresCallee_observers q) .undefined)
    (functionWorld, default)
  rw [call_observers_of_not_bound q hf, call_observers_of_not_bound q hf] at hrun
  by_contra hne
  have hvalue : (if t = t' ∧ as = bs then JsValue.null else .undefined) =
      if t' = t' ∧ bs = bs then .null else .undefined := (Result.ok.inj hrun).1
  rw [if_neg hne, if_pos ⟨rfl, rfl⟩] at hvalue
  cases hvalue

/-! ### Constructions -/

theorem construct_of_not_isGenerator (structure_ : ℕ) (s : World × ρ) : ∃ s',
    ∀ (B : Bodies ρ) ty args callee, ty.isGenerator = false →
      B.construct ty args (some structure_) callee s =
        Run.ofCode (B.call ty ⟨.object s.1.nextObject, args.values, true⟩ callee) s' := by
  obtain ⟨w', hnew⟩ : ∃ w', JsObject.new structure_ .object s.1 = .ok s.1.nextObject w' := ⟨_, rfl⟩
  have hheap : Run.onHeap (JsObject.new structure_ .object) s = .ok s.1.nextObject (w', s.2) := by
    unfold Run.onHeap
    rw [hnew]
  refine ⟨(w', s.2), fun B ty args callee hgen => ?_⟩
  rw [construct, hgen, if_neg Bool.false_ne_true]
  change (Run.onHeap (JsObject.new structure_ .object) >>= fun obj => Run.ofCode
    (B.call ty ⟨.object obj, args.values, true⟩ callee)) s = _
  rw [bind_of_ok hheap]

theorem sameConstruct_of_isBound (hf : f.isBound = true) :
    SameConstruct ρ (functionBind f (t :: as)) ⟨this, bs, ctor⟩ f ⟨this, as ++ bs, ctor⟩ := by
  intro B hB structure_ callee callee'
  have hgen : f.isGenerator = false := by
    cases f with
    | bound => rfl
    | native | closure | user | generator => cases hf
  have hbound : (functionBind f (t :: as)).isGenerator = false := rfl
  have hcall : ∀ obj, B.call (functionBind f (t :: as)) ⟨.object obj, bs, true⟩ callee =
      B.call f ⟨.object obj, as ++ bs, true⟩ callee' := fun obj => by
    rw [call_callee hB f _ callee' callee]
    exact (call_functionBind callee).trans (call_of_isBound hf callee)
  rw [construct, construct, hgen, hbound, if_neg Bool.false_ne_true, if_neg Bool.false_ne_true]
  simp only [hcall]

theorem isBound_of_sameConstruct [Inhabited ρ]
    (h : SameConstruct ρ (functionBind f (t :: as)) ⟨this, bs, ctor⟩ f ⟨this, as ++ bs, ctor⟩) :
    f.isBound = true := by
  by_contra hf
  rw [Bool.not_eq_true] at hf
  let B : Bodies ρ := observers fun args _ => args.this
  have hreceiver : ∀ n : ℕ, t = .object n := fun n => by
    have hrun := congrFun (h B (ignoresCallee_observers _) (some 0) .undefined .undefined)
      ({ functionWorld with nextObject := n }, default)
    obtain ⟨s', hmake⟩ := construct_of_not_isGenerator 0
      (({ functionWorld with nextObject := n }, default) : World × ρ)
    have hcall : ∀ args, B.call f args .undefined s' = .ok args.this s' := fun args =>
      call_observers_of_not_bound _ hf args _ _
    have hbound : (functionBind f (t :: as)).isGenerator = false := rfl
    rw [hmake _ _ _ _ hbound, call_functionBind, Run.ofCode_eq_ok.mpr (hcall _)] at hrun
    cases hgen : f.isGenerator with
    | true =>
      -- a generator is not constructed, but it is called if it is bound
      rw [construct, hgen, if_pos rfl] at hrun
      cases hrun
    | false =>
      rw [hmake _ _ _ _ hgen, Run.ofCode_eq_ok.mpr (hcall _)] at hrun
      exact (Result.ok.inj hrun).1
  have hobject := (hreceiver 0).symm.trans (hreceiver 1)
  cases hobject

/-! ### Bound functions and their targets -/

/-- A bound function is called like its target, with the arguments kept and the ones of the call, only if
the call has none, or if the target is bound itself. -/
theorem sameCall_functionBind [Inhabited ρ] :
    SameCall ρ (functionBind f (t :: as)) ⟨this, bs, ctor⟩ f ⟨t, as ++ bs, ctor⟩ ↔
      bs = [] ∨ f.isBound = true := by
  constructor
  · intro h
    cases hf : f.isBound with
    | true => exact .inr rfl
    | false =>
      have hargs := (eq_of_sameCall hf fun B hB callee => h B hB callee callee).2
      exact .inl (List.self_eq_append_right.mp hargs)
  · rintro (rfl | hf) B hB callee callee' <;> rw [call_callee hB f _ callee' callee]
    · rw [List.append_nil]
      exact call_functionBind callee
    · exact (call_functionBind callee).trans (call_of_isBound hf callee)

/-- **Bound functions.** The arguments of a call are dropped, so that it is the call of the target that is
expected only if there are none; the same for a function that is bound twice, where those of the second
`bind` are dropped, too. A construction does not use the new object. Only targets that drop what they get
themselves, because they are bound, do not show this. -/
theorem functionBind_agrees_iff [Inhabited ρ] (f : FuncType) (t t₂ this : JsValue)
    (as as₂ bs : List JsValue) :
    (SameCall ρ (functionBind f (t :: as)) ⟨this, bs, false⟩ f ⟨t, as ++ bs, false⟩ ↔
      bs = [] ∨ f.isBound = true) ∧
    (SameConstruct ρ (functionBind f (t :: as)) ⟨this, bs, true⟩ f ⟨this, as ++ bs, true⟩ ↔
      f.isBound = true) ∧
    (SameCall ρ (functionBind (functionBind f (t :: as)) (t₂ :: as₂)) ⟨this, bs, false⟩
        f ⟨t, as ++ as₂ ++ bs, false⟩ ↔
      as₂ ++ bs = [] ∨ f.isBound = true) := by
  have hagain : SameCall ρ (functionBind (functionBind f (t :: as)) (t₂ :: as₂)) ⟨this, bs, false⟩
      f ⟨t, as ++ as₂ ++ bs, false⟩ ↔ SameCall ρ (functionBind f (t :: as)) ⟨this, as₂ ++ bs, false⟩
        f ⟨t, as ++ (as₂ ++ bs), false⟩ := by
    rw [List.append_assoc]
    exact Iff.rfl
  exact ⟨sameCall_functionBind, ⟨isBound_of_sameConstruct, sameConstruct_of_isBound⟩,
    hagain.trans sameCall_functionBind⟩

/-- `f.bind(null, null)` called with `null` is not `f` called with both, and `new` of it is not `new` of
`f`. -/
theorem not_functionBind_agrees :
    ¬ SameCall Unit (functionBind (.native 0) [.null, .null]) ⟨.undefined, [.null], false⟩
        (.native 0) ⟨.null, [.null, .null], false⟩ ∧
      ¬ SameConstruct Unit (functionBind (.native 0) [.null, .null]) ⟨.undefined, [.null], true⟩
        (.native 0) ⟨.undefined, [.null, .null], true⟩ ∧
      ¬ SameCall Unit (functionBind (functionBind (.native 0) [.null, .null]) [.null, .null])
        ⟨.undefined, [], false⟩ (.native 0) ⟨.null, [.null, .null], false⟩ := by
  refine ⟨fun h => ?_, fun h => ?_, fun h => ?_⟩
  · have hcall : SameCall Unit (functionBind (.native 0) [.null, .null]) ⟨.undefined, [.null], false⟩
        (.native 0) ⟨.null, [.null] ++ [.null], false⟩ := h
    rcases sameCall_functionBind.mp hcall with hnil | hbound <;> contradiction
  · have hconstruct : SameConstruct Unit (functionBind (.native 0) [.null, .null])
        ⟨.undefined, [.null], true⟩ (.native 0) ⟨.undefined, [.null] ++ [.null], true⟩ := h
    exact absurd (isBound_of_sameConstruct hconstruct) Bool.false_ne_true
  · have hcall : SameCall Unit (functionBind (.native 0) [.null, .null]) ⟨.null, [.null], false⟩
        (.native 0) ⟨.null, [.null] ++ [.null], false⟩ := h
    rcases sameCall_functionBind.mp hcall with hnil | hbound <;> contradiction

end Bodies

end Starlight
