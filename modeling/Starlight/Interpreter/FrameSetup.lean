import Starlight.Compiler.Compile
import Starlight.Interpreter.ArrayLiteral
import Starlight.Vm.ArrayLike
import Starlight.Vm.NewArguments

/-!
# The frame of a call

`perform_vm_call` and `setup_for_vm_call` make the environment of a call: the parameters in its first
slots, the rest array in the slot that the compiler chose, and the arguments object in another. Both take
the same steps, the one to run the code right away and the other to hand the environment to its caller.

The length of the rest array is a difference of unsigned numbers, so that a call must give the parameters
before it; the length of the arguments object is an `i32`.
-/

namespace Starlight

open JsObject World Exec

/-- What a call takes from the context. -/
structure Globals where
  arrayStructure : ℕ
  argumentsStructure : ℕ
  globalObject : ℕ

/-- `Arguments`, and the environment that the function closes over. Callers count the arguments in a `u32`. -/
structure VmCall where
  scope : ℕ
  this : JsValue
  args : List JsValue
  values : ∀ v ∈ args, v ≠ .empty
  count : args.length < 2 ^ 32

/-- What calls find in the heap: arrays that inherit no elements, and arguments objects that inherit neither
elements nor a length. -/
structure World.ReadyForCalls (w : World) (g : Globals) : Prop where
  inv : w.Inv layoutPolicy
  sound : w.SoundElements
  arrays : w.PlainArrays g.arrayStructure
  array_lt : g.arrayStructure < w.shapes.nextStructure
  array_shared : w.shapes.Shared g.arrayStructure
  arguments : w.PlainArguments g.argumentsStructure

theorem grow_withArray {w : World} {g : Globals} (h : w.ReadyForCalls g) {count : ℕ} {vs : List JsValue}
    {ix : IndexedElements} (hix : JsArray.Holds count vs ix) :
    Grow layoutPolicy w (w.withArray g.arrayStructure ix) ∧
      (w.withArray g.arrayStructure ix).SoundElements := by
  have hg : Grows layoutPolicy w (JsObject.new g.arrayStructure .array w) fun o w' =>
      o = w.nextObject ∧ w'.nextObject = o + 1 ∧ (w'.objects o).class_ = .array :=
    grows_newObject h.inv trivial h.array_lt h.array_shared fun hc => hc.elim
  have hobj : JsObject.new g.arrayStructure .array w =
      .ok w.nextObject (w.withArray g.arrayStructure .new) := rfl
  have hgrow := (Result.Sat.of_ok hg hobj).1
  have hix' : modifyIndexed w.nextObject (fun _ => ix) (w.withArray g.arrayStructure .new) =
      .ok () (w.withArray g.arrayStructure ix) := by
    rw [modifyIndexed_apply, JsArray.withElements_withArray]
  have hguard : Guards layoutPolicy False w.nextObject (w.withArray g.arrayStructure .new)
      (modifyIndexed w.nextObject (fun _ => ix) (w.withArray g.arrayStructure .new)) _ :=
    guards_modifyIndexed hgrow.inv (Nat.lt_succ_self _) (.sparse 0) fun i s hs =>
      .inr ⟨storable_objectData (hix.attributes hs), fun ha => ?_⟩
  · refine ⟨hgrow.touch (Result.Sat.of_ok hguard hix').1.toTouch le_rfl, fun b => ?_⟩
    by_cases hb : b = w.nextObject
    · subst hb
      rw [JsArray.indexed_withArray_self]
      exact hix.sound
    · have hother : (w.withArray g.arrayStructure ix).objects b = w.objects b := Function.update_of_ne hb ..
      rw [hother]
      exact h.sound b
  · rw [hix.attributes hs] at ha
    cases ha

namespace CodeBlock

variable (c : CodeBlock) (g : Globals) (call : VmCall)

/-- The slots of the environment. -/
def frameSize : ℕ :=
  c.paramCount + c.varCount + (c.restAt.map fun _ => 1).getD 0 + if c.useArguments then 1 else 0

def setSlot (slot : ℕ) (v : JsValue) : Act Unit := do
  if slot < (← Exec.gets fun a => a.env.length) then
    Exec.modify fun a => { a with env := a.env.set slot v }
  else
    Exec.fail .panic

/-- The loop over the parameters, from `i` on; the index after them. -/
def copyParams (args : List JsValue) : ℕ → ℕ → Act ℕ
  | i, 0 => return i
  | i, n + 1 => do
    setSlot i (args.getD i .undefined)
    copyParams args (i + 1) n

/-- The rest array, if there is a rest parameter; its length is a difference of `u32`s. -/
def bindRest (args : List JsValue) (i : ℕ) : Act Unit :=
  match c.restAt with
  | some rest => do
    let argsArr ← Act.heap (JsArray.new g.arrayStructure
      (BitVec.ofNat 32 args.length - BitVec.ofNat 32 i).toNat)
    let _ ← Act.heap (JsArray.putAll argsArr 0 (args.drop i))
    setSlot rest (.object argsArr)
  | none => pure ()

/-- The arguments object, if the code uses it. -/
def bindArguments (args : List JsValue) (i : ℕ) : Act Unit :=
  if c.useArguments then do
    let obj ← JsArguments.new g.argumentsStructure c.paramCount args
    JsArguments.putRest obj i (args.drop i)
    setSlot c.argsAt (.object obj)
  else
    pure ()

def thisValue (this : JsValue) : JsValue :=
  if c.strict && !this.isObject then .undefined
  else if this = .undefined then .object g.globalObject
  else this

def setupForVmCall : Act (JsValue × ℕ) := do
  Exec.modify fun a => { a with mapping := [], env := List.replicate c.frameSize .undefined }
  let i ← copyParams call.args 0 c.paramCount
  bindRest c g call.args i
  bindArguments c g call.args i
  return (thisValue c g call.this, call.scope)

def performVmCall {α : Type} (eval : JsValue → ℕ → Act α) : Act α := do
  Exec.modify fun a => { a with mapping := [], env := List.replicate c.frameSize .undefined }
  let i ← copyParams call.args 0 c.paramCount
  bindRest c g call.args i
  bindArguments c g call.args i
  eval (thisValue c g call.this) call.scope

/-! ### What the environment is to hold -/

/-- The environment of a call with these arguments. -/
structure Bound (args : List JsValue) (a : Activation) : Prop where
  params : ∀ i, i < c.paramCount → a.env[i]? = some (args.getD i .undefined)
  rest : ∀ slot, c.restAt = some slot → ∃ arr, a.env[slot]? = some (.object arr) ∧
    a.world.IsArrayOf arr (args.drop c.paramCount)
  arguments : c.useArguments = true → ∃ obj s, a.env[c.argsAt]? = some (.object obj) ∧
    namedSlot (a.world.table obj) (a.world.objects obj) Symbol.length = some s ∧
    s.attributes.data = true ∧ s.value.IsNumber args.length

/-- Both functions make the same environment, which is that of the call, and no subtraction wraps. -/
structure BindsParameters (a : Activation) : Prop where
  same : ∀ (α : Type) (eval : JsValue → ℕ → Act α),
    performVmCall c g call eval a = (setupForVmCall c g call >>= fun r => eval r.1 r.2) a
  bound : ∃ a', setupForVmCall c g call a = .ok (thisValue c g call.this, call.scope) a' ∧
    c.Bound call.args a'
  no_underflow : c.restAt ≠ none → c.paramCount ≤ call.args.length

/-- The slots of the frame are apart, the call gives the parameters before a rest parameter, and the number
of the arguments is an `i32` where it is asked for. -/
structure FitsFrame (count : ℕ) : Prop where
  rest : ∀ slot, c.restAt = some slot → c.paramCount ≤ count ∧ c.paramCount ≤ slot ∧ slot < c.frameSize
  arguments : c.useArguments = true → count < 2 ^ 31 ∧ c.paramCount ≤ c.argsAt ∧ c.argsAt < c.frameSize ∧
    c.restAt ≠ some c.argsAt

/-! ### The steps -/

variable {c g call} {a a' : Activation} {args : List JsValue} {i n slot : ℕ} {v : JsValue}

theorem performVmCall_eq {α : Type} (eval : JsValue → ℕ → Act α) :
    performVmCall c g call eval = setupForVmCall c g call >>= fun r => eval r.1 r.2 := by
  unfold performVmCall setupForVmCall
  simp only [bind_bind]
  rfl

theorem setSlot_of_lt (h : slot < a.env.length) (v : JsValue) :
    setSlot slot v a = .ok () { a with env := a.env.set slot v } := by
  unfold setSlot
  rw [gets_bind, if_pos h]
  rfl

theorem setSlot_of_le (h : a.env.length ≤ slot) (v : JsValue) : setSlot slot v a = .error .panic a := by
  unfold setSlot
  rw [gets_bind, if_neg (Nat.not_lt.mpr h)]
  rfl

/-- **The step lemma of the parameters**: those before `i` are left. -/
theorem copyParams_eq (args : List JsValue) (h : i + n ≤ a.env.length) : ∃ env, copyParams args i n a =
    .ok (i + n) { a with env := env } ∧ env.length = a.env.length ∧
      ∀ j, env[j]? = if i ≤ j ∧ j < i + n then some (args.getD j .undefined) else a.env[j]? := by
  induction n generalizing i a with
  | zero => exact ⟨a.env, rfl, rfl, fun j => by rw [if_neg (by omega)]⟩
  | succ n ih =>
    obtain ⟨env, hrun, hlen, henv⟩ := ih (i := i + 1)
      (a := { a with env := a.env.set i (args.getD i .undefined) }) (by simpa using (by omega))
    refine ⟨env, ?_, by rw [hlen, List.length_set], fun j => ?_⟩
    · rw [copyParams, bind_of_ok (setSlot_of_lt (by omega) _), hrun]
      congr 1
      omega
    · rw [henv]
      by_cases hj : j = i
      · subst hj
        rw [if_neg (by omega), if_pos (by omega), List.getElem?_set_self (by omega)]
      · rw [List.getElem?_set_ne (Ne.symm hj)]
        by_cases hin : i + 1 ≤ j ∧ j < i + 1 + n
        · rw [if_pos hin, if_pos (by omega)]
        · rw [if_neg hin, if_neg (by omega)]

/-- What the rest array leaves. -/
structure Rested (c : CodeBlock) (args : List JsValue) (i : ℕ) (a a' : Activation) : Prop where
  mapping : a'.mapping = a.mapping
  grow : Grow layoutPolicy a.world a'.world
  sound : a'.world.SoundElements
  shapes : a'.world.shapes = a.world.shapes
  none : c.restAt = none → a' = a
  some : ∀ rest, c.restAt = some rest → rest < a.env.length ∧
    a'.env = a.env.set rest (.object a.world.nextObject) ∧ a.world.nextObject < a'.world.nextObject ∧
    (a'.world.objects a.world.nextObject).class_ = .array ∧
    JsArray.Holds (BitVec.ofNat 32 args.length - BitVec.ofNat 32 i).toNat (args.drop i)
      (a'.world.objects a.world.nextObject).indexed

theorem Rested.length_env (h : Rested c args i a a') : a'.env.length = a.env.length := by
  cases hr : c.restAt with
  | none => rw [h.none hr]
  | some rest => rw [(h.some rest hr).2.1, List.length_set]

/-- A slot that the compiler chose is in the frame. -/
def RestInFrame (c : CodeBlock) (a : Activation) : Prop := ∀ rest, c.restAt = some rest → rest < a.env.length

/-- **The step lemma of the rest array.** -/
theorem bindRest_spec (h : a.world.ReadyForCalls g) (hargs : ∀ v ∈ args, v ≠ .empty) :
    (∃ a', bindRest c g args i a = .ok () a' ∧ Rested c args i a a') ∨
      ((∃ a', bindRest c g args i a = .error .panic a') ∧ ¬ RestInFrame c a) := by
  cases hr : c.restAt with
  | none =>
    refine .inl ⟨a, ?_, rfl, h.inv.read_refl.grow h.inv, h.sound, rfl, fun _ => rfl, fun rest hrest => ?_⟩
    · unfold bindRest
      rw [hr]
      rfl
    · rw [hr] at hrest
      cases hrest
  | some rest =>
    set count := (BitVec.ofNat 32 args.length - BitVec.ofNat 32 i).toNat with hcount
    obtain ⟨ix, hix, hput⟩ := JsArray.putAll_eq h.arrays (JsArray.holds_new count) (args.drop i)
      fun v hv => hargs v (List.mem_of_mem_drop hv)
    rw [List.nil_append] at hix
    obtain ⟨hgrow, hsound⟩ := grow_withArray h hix
    set w₁ := a.world.withArray g.arrayStructure (IndexedElements.new.setLength count)
    have hnew : Act.heap (JsArray.new g.arrayStructure count) a =
        .ok a.world.nextObject { a with world := w₁ } := Act.heap_of_ok JsArray.new_eq
    have hputs := Act.heap_of_ok (a := { a with world := w₁ }) hput
    have hrun : bindRest c g args i a = setSlot rest (.object a.world.nextObject)
        { a with world := a.world.withArray g.arrayStructure ix } := by
      unfold bindRest
      rw [hr]
      dsimp only
      rw [bind_of_ok hnew]
      exact bind_of_ok hputs _
    set a₂ : Activation := { a with world := a.world.withArray g.arrayStructure ix } with ha₂
    by_cases hlt : rest < a₂.env.length
    · refine .inl ⟨_, hrun.trans (setSlot_of_lt hlt _), rfl, hgrow, hsound, rfl, fun hn => ?_,
        fun r hr' => ?_⟩
      · rw [hr] at hn
        cases hn
      · obtain rfl := Option.some.inj (hr.symm.trans hr')
        refine ⟨hlt, rfl, Nat.lt_succ_self _, ?_, ?_⟩
        · change ((a.world.withArray g.arrayStructure ix).objects a.world.nextObject).class_ = _
          rw [JsArray.objects_withArray_self]
        · change JsArray.Holds _ _ ((a.world.withArray g.arrayStructure ix).objects _).indexed
          rw [JsArray.indexed_withArray_self]
          exact hix
    · exact .inr ⟨⟨_, hrun.trans (setSlot_of_le (Nat.le_of_not_lt hlt) _)⟩, fun hin => hlt (hin rest hr)⟩

/-- What the arguments object leaves. -/
structure Argued (c : CodeBlock) (count : ℕ) (a a' : Activation) : Prop where
  grow : Grow layoutPolicy a.world a'.world
  none : c.useArguments = false → a' = a
  some : c.useArguments = true → c.argsAt < a.env.length ∧
    a'.env = a.env.set c.argsAt (.object a.world.nextObject) ∧
    (a'.world.objects a.world.nextObject).class_ = .object ∧
    namedSlot (a'.world.table a.world.nextObject) (a'.world.objects a.world.nextObject) Symbol.length =
      some (lengthSlot count)

/-- **The step lemma of the arguments object.** -/
theorem bindArguments_spec (hinv : a.world.Inv layoutPolicy) (hs : a.world.SoundElements)
    (hp : a.world.PlainArguments g.argumentsStructure) (hmap : a.mapping = [])
    (hargs : ∀ v ∈ args, v ≠ .empty) :
    (∃ a', bindArguments c g args c.paramCount a = .ok () a' ∧ Argued c args.length a a') ∨
      ((∃ a', bindArguments c g args c.paramCount a = .error .panic a') ∧
        ¬ (c.useArguments = true → c.argsAt < a.env.length)) := by
  cases hu : c.useArguments with
  | false =>
    refine .inl ⟨a, ?_, hinv.read_refl.grow hinv, fun _ => rfl, fun hc => ?_⟩
    · unfold bindArguments
      rw [hu]
      rfl
    · rw [hu] at hc
      cases hc
  | true =>
    obtain ⟨w', hrun, hm⟩ := JsArguments.make_eq hinv hs hp hmap c.paramCount args hargs
    set a₂ : Activation := ⟨w', (List.range (min c.paramCount args.length)).map some, a.env⟩ with ha₂
    have hbind : bindArguments c g args c.paramCount a =
        setSlot c.argsAt (.object a.world.nextObject) a₂ := by
      obtain ⟨obj, a₁, hnew, hrest⟩ := bind_eq_ok hrun
      obtain ⟨u, a₂', hput, hret⟩ := bind_eq_ok hrest
      cases hret
      unfold bindArguments
      rw [hu, if_pos rfl, bind_of_ok hnew, bind_of_ok hput]
    by_cases hlt : c.argsAt < a₂.env.length
    · refine .inl ⟨_, hbind.trans (setSlot_of_lt hlt _), hm.grow, fun hc => ?_,
        fun _ => ⟨hlt, rfl, hm.class_eq, hm.slot⟩⟩
      rw [hu] at hc
      cases hc
    · exact .inr ⟨⟨_, hbind.trans (setSlot_of_le (Nat.le_of_not_lt hlt) _)⟩, fun hin => hlt (hin rfl)⟩

/-- The environment after the parameters. -/
def paramSlots (c : CodeBlock) (args : List JsValue) (env : List JsValue) : Prop :=
  env.length = c.frameSize ∧ ∀ j, j < c.paramCount → env[j]? = some (args.getD j .undefined)

/-- **The frame.** It comes to an end if the slots that the compiler chose are in the frame. -/
theorem setupForVmCall_spec (call : VmCall) (h : a.world.ReadyForCalls g) :
    (∃ env a₂ a', c.paramSlots call.args env ∧ Rested c call.args c.paramCount ⟨a.world, [], env⟩ a₂ ∧
      Argued c call.args.length a₂ a' ∧
      setupForVmCall c g call a = .ok (thisValue c g call.this, call.scope) a') ∨
    ((∃ a', setupForVmCall c g call a = .error .panic a') ∧
      ¬ ((∀ rest, c.restAt = some rest → rest < c.frameSize) ∧
        (c.useArguments = true → c.argsAt < c.frameSize))) := by
  obtain ⟨env, hcopy, hlen, henv⟩ := copyParams_eq call.args (i := 0) (n := c.paramCount)
    (a := ⟨a.world, [], List.replicate c.frameSize .undefined⟩) (by
      rw [List.length_replicate, frameSize]
      omega)
  rw [List.length_replicate] at hlen
  rw [Nat.zero_add] at hcopy
  have hsetup : setupForVmCall c g call a = (bindRest c g call.args c.paramCount >>= fun _ =>
      bindArguments c g call.args c.paramCount >>= fun _ =>
        pure (thisValue c g call.this, call.scope)) ⟨a.world, [], env⟩ := by
    unfold setupForVmCall
    rw [modify_bind, bind_of_ok hcopy]
  rw [hsetup]
  rcases bindRest_spec (c := c) (g := g) (i := c.paramCount) (a := ⟨a.world, [], env⟩) h call.values with
    ⟨a₂, hrest, hrested⟩ | ⟨⟨a₂, hrest⟩, hout⟩
  · have henv₂ : a₂.env.length = c.frameSize := hrested.length_env.trans hlen
    rw [bind_of_ok hrest]
    rcases bindArguments_spec (c := c) (g := g) hrested.grow.inv hrested.sound
      (h.arguments.grow h.inv hrested.grow hrested.shapes) hrested.mapping call.values with
      ⟨a', hargs, hargued⟩ | ⟨⟨a', hargs⟩, hout⟩
    · refine .inl ⟨env, a₂, a', ⟨hlen, fun j hj => ?_⟩, hrested, hargued, bind_of_ok hargs _⟩
      rw [henv, if_pos (by omega)]
    · refine .inr ⟨⟨a', ?_⟩, fun hin => hout (by rw [henv₂]; exact hin.2)⟩
      rw [bind_apply, hargs]
  · refine .inr ⟨⟨a₂, ?_⟩, fun hin => hout fun rest hr => ?_⟩
    · rw [bind_apply, hrest]
    · change rest < env.length
      rw [hlen]
      exact hin.1 rest hr

/-! ### The slots of the frame -/

/-- The states of a frame: after the parameters, after the rest array and after the arguments object. -/
structure Frame (c : CodeBlock) (args : List JsValue) (w : World) (env : List JsValue) (a₂ a' : Activation) :
    Prop where
  params : c.paramSlots args env
  rested : Rested c args c.paramCount ⟨w, [], env⟩ a₂
  argued : Argued c args.length a₂ a'

namespace Frame

variable {w : World} {env : List JsValue} {a₂ : Activation} {j rest : ℕ} (h : Frame c args w env a₂ a')

include h

theorem env_arguments (hu : c.useArguments = true) :
    a'.env[c.argsAt]? = some (.object a₂.world.nextObject) := by
  obtain ⟨hlt, henv, -⟩ := h.argued.some hu
  rw [henv, List.getElem?_set_self hlt]

theorem env_of_ne (hne : c.useArguments = true → c.argsAt ≠ j) : a'.env[j]? = a₂.env[j]? := by
  cases hu : c.useArguments with
  | false => rw [h.argued.none hu]
  | true =>
    obtain ⟨-, henv, -⟩ := h.argued.some hu
    rw [henv, List.getElem?_set_ne (hne hu)]

theorem env_rest (hr : c.restAt = some rest) (hne : c.useArguments = true → c.argsAt ≠ rest) :
    a'.env[rest]? = some (.object w.nextObject) := by
  obtain ⟨hlt, henv, -⟩ := h.rested.some rest hr
  rw [h.env_of_ne hne, henv, List.getElem?_set_self hlt]

theorem env_param (hj : j < c.paramCount) (hr : c.restAt ≠ some j)
    (hne : c.useArguments = true → c.argsAt ≠ j) : a'.env[j]? = some (args.getD j .undefined) := by
  rw [h.env_of_ne hne, ← h.params.2 j hj]
  cases hrest : c.restAt with
  | none => rw [h.rested.none hrest]
  | some rest =>
    obtain ⟨-, henv, -⟩ := h.rested.some rest hrest
    rw [henv, List.getElem?_set_ne fun hc => hr (by rw [hrest, hc])]

theorem env_new (hj : c.restAt = some j ∨ (c.useArguments = true ∧ c.argsAt = j)) :
    ∃ b, w.nextObject ≤ b ∧ a'.env[j]? = some (.object b) := by
  by_cases hu : c.useArguments = true ∧ c.argsAt = j
  · refine ⟨_, h.rested.grow.nextObject_le, ?_⟩
    rw [← hu.2]
    exact h.env_arguments hu.1
  · exact ⟨_, le_rfl, h.env_rest (hj.resolve_right hu) fun hua hc => hu ⟨hua, hc⟩⟩

theorem param_le (hnew : ∀ b, JsValue.object b ∈ args → b < w.nextObject)
    (hparams : ∀ i, i < c.paramCount → a'.env[i]? = some (args.getD i .undefined))
    (hj : c.restAt = some j ∨ (c.useArguments = true ∧ c.argsAt = j)) : c.paramCount ≤ j := by
  by_contra hlt
  obtain ⟨b, hb, henv⟩ := h.env_new hj
  have hparam := hparams j (by omega)
  rw [henv, List.getD_eq_getElem?_getD] at hparam
  cases hv : args[j]? with
  | none =>
    rw [hv] at hparam
    cases hparam
  | some v =>
    rw [hv] at hparam
    cases hparam
    have := hnew b (List.mem_of_getElem? hv)
    omega

theorem isArrayOf (hr : c.restAt = some rest) (hle : c.paramCount ≤ args.length)
    (hcount : args.length < 2 ^ 32) : a'.world.IsArrayOf w.nextObject (args.drop c.paramCount) := by
  obtain ⟨-, -, hlt, hclass, hix⟩ := h.rested.some rest hr
  have hsub : (BitVec.ofNat 32 args.length - BitVec.ofNat 32 c.paramCount).toNat =
      args.length - c.paramCount := by
    rw [BitVec.toNat_sub, BitVec.toNat_ofNat, BitVec.toNat_ofNat, Nat.mod_eq_of_lt hcount,
      Nat.mod_eq_of_lt (lt_of_le_of_lt hle hcount)]
    omega
  rw [hsub] at hix
  unfold World.IsArrayOf
  rw [(h.argued.grow.frame _ hlt).object]
  refine ⟨hclass, ?_, hix.stored⟩
  rw [hix.length, List.length_drop, max_self]

theorem length_rest (hr : c.restAt = some rest) (hlt : args.length < c.paramCount)
    (hp : c.paramCount ≤ 2 ^ 32) :
    (a'.world.objects w.nextObject).indexed.length = 2 ^ 32 - (c.paramCount - args.length) := by
  obtain ⟨-, -, hnew, -, hix⟩ := h.rested.some rest hr
  rw [(h.argued.grow.frame _ hnew).object, hix.length, List.drop_eq_nil_of_le hlt.le, List.length_nil,
    Nat.max_zero, BitVec.toNat_sub, BitVec.toNat_ofNat, BitVec.toNat_ofNat,
    Nat.mod_eq_of_lt (show args.length < 2 ^ 32 by omega)]
  omega

end Frame

/-- **When a call binds its parameters.** Both functions make the same environment, and it is that of the
call, just when the slots are apart, a rest parameter comes after no more parameters than there are
arguments, and the number of arguments is an `i32` where an arguments object is made. -/
theorem bindsParameters_iff (c : CodeBlock) (g : Globals) (call : VmCall) (a : Activation)
    (h : a.world.ReadyForCalls g) (hnew : ∀ b, JsValue.object b ∈ call.args → b < a.world.nextObject) :
    c.BindsParameters g call a ↔ c.FitsFrame call.args.length := by
  constructor
  · rintro ⟨-, ⟨a', hok, hbound⟩, hunder⟩
    rcases setupForVmCall_spec call h with ⟨env, a₂, a₃, hparams, hrested, hargued, hrun⟩ | ⟨⟨a₃, hrun⟩, -⟩
    · obtain rfl : a₃ = a' := by
        rw [hrun] at hok
        exact (Result.ok.inj hok).2
      have hframe : Frame c call.args a.world env a₂ a₃ := ⟨hparams, hrested, hargued⟩
      refine ⟨fun rest hr => ⟨hunder (by rw [hr]; exact nofun),
        hframe.param_le hnew hbound.params (.inl hr), ?_⟩, fun hu => ?_⟩
      · have := (hrested.some rest hr).1
        rwa [hparams.1] at this
      · have henv := hframe.env_arguments hu
        obtain ⟨hlt, -, hclass, hslot⟩ := hargued.some hu
        refine ⟨?_, hframe.param_le hnew hbound.params (.inr ⟨hu, rfl⟩), ?_, fun hr => ?_⟩
        · -- the length is what was assigned to it
          obtain ⟨obj, s, hobj, hs, -, hnum⟩ := hbound.arguments hu
          rw [henv] at hobj
          cases hobj
          rw [hslot] at hs
          cases hs
          by_contra hlarge
          exact not_isNumber_newU32 call.count (Nat.le_of_not_lt hlarge) hnum
        · exact lt_of_lt_of_eq hlt (hrested.length_env.trans hparams.1)
        · obtain ⟨arr, harr, hclass', -⟩ := hbound.rest _ hr
          rw [henv] at harr
          cases harr
          rw [hclass] at hclass'
          cases hclass'
    · rw [hrun] at hok
      cases hok
  · intro hfits
    rcases setupForVmCall_spec call h with ⟨env, a₂, a₃, hparams, hrested, hargued, hrun⟩ | ⟨-, hout⟩
    · have hframe : Frame c call.args a.world env a₂ a₃ := ⟨hparams, hrested, hargued⟩
      refine ⟨fun α eval => by rw [performVmCall_eq], ⟨a₃, hrun, fun i hi => ?_, fun rest hr => ?_,
        fun hu => ?_⟩, fun hr => ?_⟩
      · refine hframe.env_param hi (fun hr => ?_) fun hu hc => ?_
        · have := (hfits.rest i hr).2.1
          omega
        · have := (hfits.arguments hu).2.1
          omega
      · refine ⟨_, hframe.env_rest hr fun hu hc => (hfits.arguments hu).2.2.2 (hc ▸ hr), ?_⟩
        exact hframe.isArrayOf hr (hfits.rest rest hr).1 call.count
      · exact ⟨_, _, hframe.env_arguments hu, (hargued.some hu).2.2.2, rfl,
          isNumber_newU32 (hfits.arguments hu).1⟩
      · obtain ⟨rest, hrest⟩ := Option.ne_none_iff_exists'.mp hr
        exact (hfits.rest rest hrest).1
    · exact absurd ⟨fun rest hr => (hfits.rest rest hr).2.2, fun hu => (hfits.arguments hu).2.2.1⟩ hout

/-! ### The slots that the compiler chooses -/

theorem declareParams_rest (names : List String) (x : String) (p : ℕ) (s : ByteCompiler) : ∃ s',
    ByteCompiler.declareParams (names.map .ident ++ [.rest x]) p s = .ok () s' ∧
      s'.paramCount = s.paramCount + names.length ∧ s'.varCount = p + names.length + 1 ∧
      s'.restAt = some ((p + names.length) % 2 ^ 16) ∧ s'.useArguments = s.useArguments := by
  induction names generalizing p s with
  | nil => exact ⟨_, rfl, rfl, rfl, rfl, rfl⟩
  | cons name names ih =>
    obtain ⟨s', hrun, hparam, hvar, hrest, huse⟩ := ih (p + 1)
      { s with
        scope := { s.scope with vars := s.scope.vars.insert name ⟨p % 2 ^ 16, .var, false⟩ }
        bindings := s.bindings ++ [⟨name, p % 2 ^ 16⟩]
        paramCount := s.paramCount + 1 }
    refine ⟨s', hrun, ?_, ?_, ?_, huse⟩
    · rw [hparam, List.length_cons, Nat.add_assoc, Nat.add_comm 1]
    · rw [hvar, List.length_cons]
      omega
    · rw [hrest, List.length_cons]
      congr 2
      omega

/-- So a function with a rest parameter binds its parameters if it has fewer than `2 ^ 16` others and the
call gives all of them. -/
theorem fitsFrame_declareParams (names : List String) (x : String) (s s' : ByteCompiler)
    (hnew : s.paramCount = 0) (huse : s.useArguments = false)
    (hrun : ByteCompiler.declareParams (names.map .ident ++ [.rest x]) 0 s = .ok () s') (count : ℕ) :
    s'.toCodeBlock.FitsFrame count ↔ names.length < 2 ^ 16 ∧ names.length ≤ count := by
  obtain ⟨s₁, hrun', hparam, hvar, hrest, huse'⟩ := declareParams_rest names x 0 s
  obtain rfl : s₁ = s' := by
    rw [hrun'] at hrun
    exact (Result.ok.inj hrun).2
  rw [hnew, Nat.zero_add] at hparam
  rw [Nat.zero_add] at hvar hrest
  rw [huse] at huse'
  have hsize : s₁.toCodeBlock.frameSize = names.length + (names.length + 1) + 1 := by
    rw [frameSize, hparam, hvar, hrest, huse']
    rfl
  constructor
  · intro h
    obtain ⟨hle, hslot, -⟩ := h.rest _ hrest
    rw [hparam] at hle hslot
    exact ⟨by omega, hle⟩
  · rintro ⟨hsmall, hle⟩
    refine ⟨fun slot hslot => ?_, fun hu => ?_⟩
    · obtain rfl := Option.some.inj (hrest.symm.trans hslot)
      rw [hparam, hsize, Nat.mod_eq_of_lt hsmall]
      omega
    · rw [huse'] at hu
      cases hu

/-! ### A function with a rest parameter -/

/-- A heap with the structures of arrays and of arguments objects. -/
def callWorld : World :=
  ((World.init ⟨fun _ => [], fun _ => []⟩).after (.newStructure none true)).after (.newStructure none false)

def restFunction : CodeBlock :=
  { CodeBlock.new "f" with paramCount := 1, varCount := 2, restAt := some 1 }

/-- The context of `callWorld`. -/
def callGlobals : Globals := ⟨0, 1, 0⟩

def twoNulls : VmCall := ⟨0, .undefined, [.null, .null], by simp, by decide⟩

/-- `f()`. -/
def noArguments : VmCall := ⟨0, .undefined, [], nofun, by decide⟩

theorem readyForCalls_callWorld : callWorld.ReadyForCalls callGlobals := by
  have h₀ : Reachable (fun w op => op.KeepsSlots w) (World.init ⟨fun _ => [], fun _ => []⟩) :=
    ⟨_, .refl⟩
  have h₁ := h₀.step (.newStructure none true) (fun _ hp => by cases hp) trivial rfl
  have h₂ : Reachable (fun w op => op.KeepsSlots w) callWorld :=
    h₁.step (.newStructure none false) (fun _ hp => by cases hp) trivial rfl
  exact ⟨h₂.layout_inv, h₂.soundElements, ⟨rfl, nofun⟩, by decide, by decide,
    ⟨by decide, by decide, rfl, nofun, nofun⟩⟩

theorem bindsParameters_twoNulls :
    restFunction.BindsParameters callGlobals twoNulls ⟨callWorld, [], []⟩ := by
  refine (bindsParameters_iff restFunction callGlobals twoNulls ⟨callWorld, [], []⟩
    readyForCalls_callWorld fun b hb => ?_).mpr ⟨fun slot hslot => ?_, nofun⟩
  · simp [twoNulls] at hb
  · cases hslot
    decide

/-- `f()` gets a rest array of `2 ^ 32 - 1` elements. -/
theorem not_bindsParameters_noArguments :
    ¬ restFunction.BindsParameters callGlobals noArguments ⟨callWorld, [], []⟩ := by
  rintro ⟨-, ⟨a', hok, hbound⟩, -⟩
  obtain ⟨arr, harr, -, hlen, -⟩ := hbound.rest 1 rfl
  rcases setupForVmCall_spec (c := restFunction) (a := ⟨callWorld, [], []⟩) noArguments
    readyForCalls_callWorld with
    ⟨env, a₂, a₃, hparams, hrested, hargued, hrun⟩ | ⟨⟨a₃, hrun⟩, -⟩
  · have hframe : Frame restFunction noArguments.args callWorld env a₂ a₃ := ⟨hparams, hrested, hargued⟩
    rw [hrun] at hok
    obtain rfl := (Result.ok.inj hok).2
    rw [hframe.env_rest rfl nofun] at harr
    cases harr
    rw [hframe.length_rest rfl (by decide) (by decide)] at hlen
    exact absurd hlen (by decide)
  · rw [hrun] at hok
    cases hok

end CodeBlock

end Starlight
