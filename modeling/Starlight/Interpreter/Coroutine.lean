import Starlight.Interpreter.Generator

/-!
# Generators are coroutines

The state of a suspended body is its `Continuation`, whichever part of the stack or of the heap holds it:
`HeapCallFrame.save` keeps it, and `HeapCallFrame.restore` brings it back wherever the new frame starts.

A run of a generator is then a run of a `Coroutine` as long as the run is `Orderly`
(`generator_coroutine`). A call that is not orderly can always be followed by one that shows it
(`disorderly_call`).
-/

namespace Starlight.Generator

/-! ### Continuations -/

/-- What a body is resumed with. The handlers count from the lowest operand. -/
@[ext] structure Continuation where
  operands : List JsValue
  env : ℕ
  codeBlock : Option ℕ
  this : JsValue
  ip : ℕ
  tryStack : List Handler

/-- A value that is sent to the body takes the place of the one that it yielded. -/
def Continuation.send (k : Continuation) (v : JsValue) : Continuation :=
  { k with operands := k.operands.dropLast ++ [v] }

@[simp] theorem Continuation.send_send (k : Continuation) (v w : JsValue) :
    (k.send v).send w = k.send w := by
  rw [send, send, List.dropLast_concat]
  rfl

def CallFrame.continuation (cf : CallFrame) (mem : Memory) : Continuation :=
  ⟨cf.operands mem, cf.env, cf.codeBlock, cf.this, cf.ip,
    cf.tryStack.map fun h => { h with sp := h.sp - cf.limit }⟩

def HeapCallFrame.continuation (frame : HeapCallFrame) : Continuation :=
  ⟨frame.stack, frame.env, some frame.codeBlock, frame.this, frame.ip, frame.tryStack⟩

namespace CallFrame

variable (cf : CallFrame) (mem : Memory)

@[simp] theorem length_operands : (cf.operands mem).length = cf.sp - cf.limit := by
  rw [operands, List.length_map, List.length_range]

theorem operands_new (cursor env : ℕ) : (new cursor env).operands mem = [] := by
  rw [operands, new, Nat.sub_self]
  rfl

theorem operands_grow (v : JsValue) :
    cf.grow.operands (Function.update mem cf.sp v) = cf.operands mem ++ [v] := by
  have hlen : cf.sp + 1 - cf.limit = (cf.sp - cf.limit) + 1 := Nat.succ_sub cf.limit_le
  have htop : cf.limit + (cf.sp - cf.limit) = cf.sp := Nat.add_sub_cancel' cf.limit_le
  simp only [operands, grow, hlen, List.range_succ, List.map_append, List.map_cons, List.map_nil, htop,
    Function.update_self]
  refine congrArg (· ++ [v]) (List.map_congr_left fun i hi => Function.update_of_ne ?_ _ _)
  have := List.mem_range.mp hi
  omega

theorem operands_update_top (h : cf.limit < cf.sp) (v : JsValue) :
    cf.operands (Function.update mem (cf.sp - 1) v) = (cf.operands mem).dropLast ++ [v] := by
  obtain ⟨n, hn⟩ : ∃ n, cf.sp - cf.limit = n + 1 :=
    Nat.exists_eq_succ_of_ne_zero (Nat.sub_ne_zero_of_lt h)
  have htop : cf.limit + n = cf.sp - 1 := by omega
  simp only [operands, hn, List.range_succ, List.map_append, List.map_cons, List.map_nil, htop,
    Function.update_self, List.dropLast_concat]
  refine congrArg (· ++ [v]) (List.map_congr_left fun i hi => Function.update_of_ne ?_ _ _)
  have := List.mem_range.mp hi
  omega

theorem continuation_update_top (h : cf.limit < cf.sp) (v : JsValue) :
    cf.continuation (Function.update mem (cf.sp - 1) v) = (cf.continuation mem).send v := by
  rw [continuation, operands_update_top cf mem h]
  rfl

theorem pushAll_spec (vs : List JsValue) (cf : CallFrame) (mem : Memory) :
    (pushAll vs cf mem).1.operands (pushAll vs cf mem).2 = cf.operands mem ++ vs ∧
      (pushAll vs cf mem).1.sp = cf.sp + vs.length ∧ (pushAll vs cf mem).1.limit = cf.limit ∧
      (pushAll vs cf mem).1.tryStack = cf.tryStack := by
  induction vs generalizing cf mem with
  | nil => exact ⟨(List.append_nil _).symm, rfl, rfl, rfl⟩
  | cons v vs ih =>
    obtain ⟨hops, hsp, hlimit, htry⟩ := ih cf.grow (Function.update mem cf.sp v)
    rw [operands_grow, List.append_assoc, List.singleton_append] at hops
    refine ⟨hops, ?_, hlimit, htry⟩
    rw [pushAll, hsp, List.length_cons, Nat.add_comm vs.length, ← Nat.add_assoc]
    rfl

end CallFrame

namespace HeapCallFrame

open CallFrame

variable {frame : HeapCallFrame} {cf : CallFrame} {mem : Memory}

theorem continuation_restore (frame : HeapCallFrame) (mem : Memory) (cursor env : ℕ) :
    (frame.restore (.new cursor env) mem).1.continuation (frame.restore (.new cursor env) mem).2 =
      frame.continuation := by
  obtain ⟨hops, -, -, htry⟩ := pushAll_spec frame.stack (.new cursor env) mem
  rw [operands_new, List.nil_append] at hops
  refine Continuation.ext hops rfl rfl rfl rfl ?_
  simp only [CallFrame.continuation, restore, htry]
  show List.map _ (List.map _ frame.tryStack) = frame.tryStack
  rw [List.map_map]
  refine (List.map_congr_left fun h _ => ?_).trans (List.map_id _)
  rw [Function.comp_apply, Nat.add_sub_cancel_left]
  rfl

theorem continuation_save {code : ℕ} (h : cf.codeBlock = some code) :
    (save cf mem code).continuation = cf.continuation mem := by
  rw [CallFrame.continuation, h]
  rfl

theorem stack_save_ne_nil {code : ℕ} (h : cf.limit < cf.sp) : (save cf mem code).stack ≠ [] := by
  refine List.length_pos_iff.mp ?_
  show 0 < (cf.operands mem).length
  rw [length_operands]
  omega

theorem setLast_spec (h : frame.stack ≠ []) (v : JsValue) :
    ∃ frame', frame.setLast v = some frame' ∧ frame'.continuation = frame.continuation.send v :=
  ⟨_, dif_neg h, rfl⟩

end HeapCallFrame

/-! ### Coroutines -/

/-- A body that is resumed where it stopped, and not any more once it has ended. -/
inductive Coroutine where
  | fresh (k : Continuation)
  | suspended (k : Continuation)
  | running
  | finished

namespace Coroutine

/-- A call, with whether there is room for a frame, or the end of a run of the body. -/
inductive Event where
  | call (magic : GeneratorMagic) (arg : JsValue) (room : Bool)
  | yields (kind : FuncRet) (k : Continuation) (v : JsValue)
  | returns (v : JsValue)
  | throws (e : JsValue)

def resume (k : Continuation) (room : Bool) : Response Continuation × Coroutine :=
  if room then (.resumed k, running) else (.error (.rangeError "stack overflow"), finished)

def call : Coroutine → GeneratorMagic → JsValue → Bool → Response Continuation × Coroutine
  | fresh k, .next, _, room => resume k room
  | suspended k, .next, arg, room => resume (k.send arg) room
  | running, _, _, _ => (.error (.typeError "cannot invoke a running generator"), running)
  | _, magic, arg, _ => (Gen.answer magic arg, finished)

def machine : Transducer Event (Response Continuation) Coroutine where
  step
    | c, .call magic arg room => some (c.call magic arg room)
    | running, .yields kind k v =>
      some (if kind = .yieldStar then .raw v else .result v false, suspended k)
    | running, .returns v => some (.result v true, finished)
    | running, .throws e => some (.error (.exception e), finished)
    | _, _ => none

end Coroutine

def Event.view : Event → Coroutine.Event
  | .call magic arg st => .call magic arg (decide (st.cursor < st.stop))
  | .finish (.yields kind y) => .yields kind (y.frame.continuation y.mem) (y.mem (y.frame.sp - 1))
  | .finish (.returns v) => .returns v
  | .finish (.throws e) => .throws e

def Response.view (r : Response (CallFrame × Memory)) : Response Continuation :=
  r.map fun x => x.1.continuation x.2

/-- A generator with the state of the coroutine. What it yielded last is no part of that: the next value
that is sent takes its place. -/
def Gen.Models (g : Gen) : Coroutine → Prop
  | .fresh k => g.data.state = .suspended ∧ g.pending = false ∧ g.data.funcState.frame.continuation = k
  | .suspended k => (g.data.state = .yield ∨ g.data.state = .yieldStar) ∧ g.pending = false ∧
      g.data.funcState.frame.stack ≠ [] ∧ ∀ v, g.data.funcState.frame.continuation.send v = k.send v
  | .running => g.data.state = .executing ∧ g.pending = true
  | .finished => g.data.state = .complete ∧ g.pending = false

/-- Before the body has ended it is only resumed by `next`. -/
def Orderly (g : Gen) : Event → Prop
  | .call magic _ _ => magic = .next ∨ g.data.state = .executing ∨ g.data.state = .complete
  | .finish _ => True

/-- What a generator that is complete answers. -/
def Exhausted (e : Event) (r : Response (CallFrame × Memory)) : Prop :=
  r.isResumed = false ∧ ∀ arg st, e = .call .next arg st → r = .result .undefined true

/-! ### Steps -/

/-- The answers correspond, and so do the states. -/
def Agree (x : Response (CallFrame × Memory) × Gen) (y : Response Continuation × Coroutine) : Prop :=
  y.1 = x.1.view ∧ x.2.Models y.2

namespace Gen

variable {g : Gen} {c : Coroutine} {magic : GeneratorMagic} {arg : JsValue} {st : StackTop} {o : Outcome}

theorem resumeBody_agree (hp : g.pending = false) :
    Agree (g.resumeBody st)
      (Coroutine.resume g.data.funcState.frame.continuation (decide (st.cursor < st.stop))) := by
  by_cases h : st.stop ≤ st.cursor
  · rw [decide_eq_false (Nat.not_lt.mpr h), resumeBody, asyncFuncResume, if_pos h]
    exact ⟨rfl, rfl, hp⟩
  · rw [decide_eq_true (Nat.lt_of_not_le h), resumeBody, asyncFuncResume, if_neg h]
    refine ⟨congrArg Response.resumed ?_, rfl, rfl⟩
    exact (HeapCallFrame.continuation_restore _ _ _ _).symm

theorem resumeBody_isResumed (h : st.cursor < st.stop) : (g.resumeBody st).1.isResumed = true := by
  rw [resumeBody, asyncFuncResume, if_neg (Nat.not_le.mpr h)]
  rfl

theorem call_complete (h : g.data.state = .complete) : g.call magic arg st = some (answer magic arg, g) := by
  rw [call, h]

theorem call_executing (h : g.data.state = .executing) :
    g.call magic arg st = some (.error (.typeError "cannot invoke a running generator"), g) := by
  rw [call, h]

theorem call_suspended (h : g.data.state = .suspended) : g.call .next arg st =
    some ((g.setFuncState { g.data.funcState with throw := false }).resumeBody st) := by
  rw [call, h]
  rfl

theorem call_suspended_of_ne (h : g.data.state = .suspended) (hm : magic ≠ .next) :
    g.call magic arg st = some (answer magic arg, g) := by
  rw [call, h]
  exact if_neg hm

theorem call_throw_yield (h : g.data.state = .yield) : g.call .throw arg st =
    some (.error (.exception arg), g.setFuncState { g.data.funcState with throw := true }) := by
  rw [call, h]
  rfl

theorem call_yield (arg : JsValue) (st : StackTop) (h : g.data.state = .yield ∨ g.data.state = .yieldStar)
    (hne : g.data.funcState.frame.stack ≠ []) (ht : ¬(magic = .throw ∧ g.data.state = .yield)) :
    ∃ frame, frame.continuation = g.data.funcState.frame.continuation.send arg ∧
      g.call magic arg st =
        some ((g.setFuncState { g.data.funcState with frame := frame }).resumeBody st) := by
  obtain ⟨frame, hframe, hsend⟩ := HeapCallFrame.setLast_spec hne arg
  refine ⟨frame, hsend, ?_⟩
  rcases h with h | h <;> simp [call, h, hframe] at ht ⊢
  exact fun hm => absurd hm ht

theorem call_agree (hm : g.Models c) (ho : Orderly g (.call magic arg st)) :
    Option.Rel Agree (g.call magic arg st) (some (c.call magic arg (decide (st.cursor < st.stop)))) := by
  cases c with
  | fresh k =>
    obtain ⟨hs, hp, rfl⟩ := hm
    obtain rfl : magic = .next := by simpa [Orderly, hs] using ho
    rw [call_suspended hs]
    exact .some (resumeBody_agree hp)
  | suspended k =>
    obtain ⟨hs, hp, hne, hk⟩ := hm
    obtain rfl : magic = .next := by rcases hs with hs | hs <;> simpa [Orderly, hs] using ho
    have hnext : ¬(GeneratorMagic.next = .throw ∧ g.data.state = .yield) := by simp
    obtain ⟨frame, hframe, hcall⟩ := call_yield arg st hs hne hnext
    rw [hcall, Coroutine.call, ← hk, ← hframe]
    exact .some (resumeBody_agree hp)
  | running =>
    rw [call_executing hm.1]
    exact .some ⟨rfl, hm⟩
  | finished =>
    rw [call_complete hm.1]
    cases magic <;> exact .some ⟨rfl, hm⟩

theorem step_finish (hp : g.pending = true) : machine.step g (.finish o) = some (g.finish o) := if_pos hp

theorem step_finish_eq_none (hp : g.pending = false) : machine.step g (.finish o) = none :=
  if_neg (by simp [hp])

theorem finish_agree (hm : g.Models c) (hp : g.pending = true) :
    Option.Rel Agree (some (g.finish o)) (Coroutine.machine.step c (Event.finish o).view) := by
  cases c with
  | fresh k | suspended k => exact absurd hm.2.1 (by simp [hp])
  | finished => exact absurd hm.2 (by simp [hp])
  | running =>
    cases o with
    | yields kind y =>
      -- the operand that was yielded is overwritten by what the body is resumed with
      let mem := Function.update y.mem (y.frame.sp - 1) .undefined
      have hne : (HeapCallFrame.save y.frame mem y.code).stack ≠ [] :=
        HeapCallFrame.stack_save_ne_nil y.operand
      have hsend : ∀ v, (HeapCallFrame.save y.frame mem y.code).continuation.send v =
          (y.frame.continuation y.mem).send v := fun v => by
        rw [HeapCallFrame.continuation_save y.code_eq, CallFrame.continuation_update_top _ _ y.operand,
          Continuation.send_send]
      refine .some ?_
      rw [finish]
      split
      · exact ⟨rfl, .inr rfl, rfl, hne, hsend⟩
      · exact ⟨rfl, .inl rfl, rfl, hne, hsend⟩
    | returns v | throws e => exact .some ⟨rfl, rfl, rfl⟩

theorem coroutine_finish_eq_none (hm : g.Models c) (hp : g.pending = false) :
    Coroutine.machine.step c (Event.finish o).view = none := by
  cases c with
  | running => exact absurd hm.2 (by simp [hp])
  | fresh | suspended | finished => cases o <;> rfl

theorem step_agree {e : Event} (hm : g.Models c) (ho : Orderly g e) :
    Option.Rel Agree (machine.step g e) (Coroutine.machine.step c e.view) := by
  cases e with
  | call magic arg st => exact call_agree hm ho
  | finish o =>
    cases hp : g.pending with
    | true =>
      rw [step_finish hp]
      exact finish_agree hm hp
    | false =>
      rw [step_finish_eq_none hp, coroutine_finish_eq_none hm hp]
      exact .none

theorem step_complete {e : Event} {x : Response (CallFrame × Memory) × Gen}
    (h : g.data.state = .complete ∧ g.pending = false) (hx : machine.step g e = some x) :
    (x.2.data.state = .complete ∧ x.2.pending = false) ∧ Exhausted e x.1 := by
  cases e with
  | call magic arg st =>
    obtain rfl : (answer magic arg, g) = x := Option.some_injective _ ((call_complete h.1).symm.trans hx)
    refine ⟨h, ?_, ?_⟩
    · cases magic <;> rfl
    · rintro arg st ⟨⟩
      rfl
  | finish o =>
    rw [step_finish_eq_none h.2] at hx
    cases hx

end Gen

/-! ### Runs -/

variable {cf : CallFrame} {mem : Memory} {code : ℕ} {es : List Event}

theorem create_models (hcode : cf.codeBlock = some code) :
    (Gen.create cf mem code).Models (.fresh (cf.continuation mem)) :=
  ⟨rfl, rfl, HeapCallFrame.continuation_save hcode⟩

/-- **Generators.** An orderly run of a generator is a run of a coroutine, which resumes the body with the
operands, the environment and the handlers that it stopped with. A generator that runs refuses every call,
and one that is complete never resumes the body again. -/
theorem generator_coroutine (hcode : cf.codeBlock = some code)
    (h : machine.Along Orderly (.create cf mem code) es) :
    Option.Rel (fun x y => y.1 = x.1.map Response.view ∧ x.2.Models y.2)
      (machine.run (.create cf mem code) es)
      (Coroutine.machine.run (.fresh (cf.continuation mem)) (es.map Event.view)) ∧
    ∀ x, machine.run (.create cf mem code) es = some x →
      (x.2.data.state = .executing → ∀ magic arg st, machine.step x.2 (.call magic arg st) =
        some (.error (.typeError "cannot invoke a running generator"), x.2)) ∧
      (x.2.data.state = .complete → ∀ es' y, machine.run x.2 es' = some y →
        y.2.data.state = .complete ∧ List.Forall₂ Exhausted es' y.1) := by
  have hrel := Transducer.run_simulates (f := Event.view) (g := Response.view) Gen.step_agree
    (create_models hcode) h
  refine ⟨hrel, fun x hx => ⟨fun hs magic arg st => Gen.call_executing hs, fun hs es' y hy => ?_⟩⟩
  -- a completed generator is the model of a finished coroutine, so that no resumption is pending
  obtain ⟨c, hc⟩ : ∃ c, x.2.Models c := by
    obtain ⟨y, -, hR⟩ := Transducer.exists_of_rel (hx ▸ hrel)
    exact ⟨y.2, hR.2⟩
  have hp : x.2.pending = false := by
    cases c with
    | fresh => exact hc.2.1
    | suspended => exact hc.2.1
    | running => exact absurd (hs.symm.trans hc.1) (by decide)
    | finished => exact hc.2
  obtain ⟨hinv, hall⟩ := Transducer.run_invariant
    (I := fun g => g.data.state = .complete ∧ g.pending = false) Gen.step_complete ⟨hs, hp⟩ hy
  exact ⟨hinv.1, hall⟩

def yieldFrame : CallFrame :=
  { (CallFrame.new 0 0).grow with codeBlock := some 0 }

/-- A run of a body to that frame. -/
def yieldRun : Event :=
  .finish (.yields .yield ⟨yieldFrame, fun _ => .undefined, 0, rfl, Nat.zero_lt_one⟩)

/-- A call on a stack of eight values. -/
def callOn (magic : GeneratorMagic) : Event := .call magic .null ⟨fun _ => .undefined, 0, 8⟩

/-- Two values are asked for, and one is yielded. -/
theorem generator_coroutine_yield : Option.Rel (fun x y => y.1 = x.1.map Response.view ∧ x.2.Models y.2)
    (machine.run (.create yieldFrame (fun _ => .undefined) 0) [callOn .next, yieldRun, callOn .next])
    (Coroutine.machine.run (.fresh (yieldFrame.continuation fun _ => .undefined))
      ([callOn .next, yieldRun, callOn .next].map Event.view)) :=
  have h : machine.Along Orderly (.create yieldFrame (fun _ => .undefined) 0)
      [callOn .next, yieldRun, callOn .next] :=
    ⟨.inl rfl, fun _ _ => ⟨trivial, fun _ _ => ⟨.inl rfl, fun _ _ => trivial⟩⟩⟩
  (generator_coroutine rfl h).1

/-- After a `throw` at the `yield` the body is still resumed. -/
theorem next_of_throw :
    (machine.run (.create yieldFrame (fun _ => .undefined) 0)
      [callOn .next, yieldRun, callOn .throw, callOn .next]).map (fun x => x.1.map Response.isResumed) =
        some [true, false, false, true] ∧
    (Coroutine.machine.run (.fresh (yieldFrame.continuation fun _ => .undefined))
      ([callOn .next, yieldRun, callOn .throw, callOn .next].map Event.view)).map
        (fun x => x.1.map Response.isResumed) = some [true, false, false, false] := by
  decide

theorem disorderly_call {g : Gen} {c : Coroutine} {magic : GeneratorMagic} {arg arg' : JsValue}
    {st : StackTop} (hm : g.Models c) (ho : ¬Orderly g (.call magic arg st)) (hroom : st.cursor < st.stop) :
    ∃ r g', g.call magic arg st = some (r, g') ∧
      (r.isResumed = true ∨ ∃ r' g'', g'.call .next arg' st = some (r', g'') ∧ r'.isResumed = true) := by
  cases c with
  | fresh k =>
    have hne : magic ≠ .next := fun h => ho (.inl h)
    exact ⟨_, g, Gen.call_suspended_of_ne hm.1 hne,
      .inr ⟨_, _, Gen.call_suspended hm.1, Gen.resumeBody_isResumed hroom⟩⟩
  | suspended k =>
    obtain ⟨hs, -, hne, -⟩ := hm
    by_cases ht : magic = .throw ∧ g.data.state = .yield
    · -- the state is still `yield`, and `next` resumes the body
      obtain ⟨rfl, hy⟩ := ht
      let g' := g.setFuncState { g.data.funcState with throw := true }
      have hnext : ¬(GeneratorMagic.next = .throw ∧ g'.data.state = .yield) := by simp
      obtain ⟨frame, -, hcall⟩ := Gen.call_yield (g := g') arg' st hs hne hnext
      exact ⟨_, g', Gen.call_throw_yield hy, .inr ⟨_, _, hcall, Gen.resumeBody_isResumed hroom⟩⟩
    · obtain ⟨frame, -, hcall⟩ := Gen.call_yield arg st hs hne ht
      exact ⟨_, _, hcall, .inl (Gen.resumeBody_isResumed hroom)⟩
  | running => exact absurd (.inr (.inl hm.1)) ho
  | finished => exact absurd (.inr (.inr hm.1)) ho

end Starlight.Generator
