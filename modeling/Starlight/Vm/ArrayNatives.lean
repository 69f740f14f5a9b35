import Starlight.Vm.ArrayRuns

/-!
# `push`, `pop` and `shift`

A native function of arrays is a script: the operations that it makes on the array, each chosen from the
results of the ones before. A session is a run of the heap together with the scripts that are under way.
A getter or setter that a script calls is a stretch of the session in which the script is pending, so any
code may run between two operations of a script, and a script may be given up because of an exception.
-/

namespace Starlight

open JsObject World Exec

variable {w w' : World} {o : ℕ}

/-- The rest of a native function on an array. -/
inductive Script where
  | done (v : JsValue)
  | throw (e : JsError)
  | length (next : ℕ → Script)
  | get (name : Symbol) (next : JsValue → Script)
  | act (op : ObjectOp) (next : Script)

/-- The conversion of a length to `u32`, with its check. -/
def lengthOf (v : JsValue) : Option ℕ :=
  if (F64.ofInt v.getNumber.toU32).eq v.getNumber then some v.getNumber.toU32 else none

/-- The loop of `array_push` and what follows it. -/
def pushFrom (n : ℕ) : List JsValue → Script
  | [] => .act (.put Symbol.length (.newF64 n) false) (.done (.newF64 n))
  | arg :: args => .act (.put (.index (n % 2 ^ 32)) arg false) (pushFrom (n + 1) args)

def arrayPush (args : List JsValue) : Script :=
  .get Symbol.length fun v =>
    match lengthOf v with
    | none => .throw (.rangeError "invalid length")
    | some n =>
      if n + args.length ≤ 0x100000000 then pushFrom n args
      else .throw (.rangeError "array size exceeded")

def arrayPop : Script :=
  .get Symbol.length fun v =>
    match lengthOf v with
    | none => .throw (.rangeError "invalid length")
    | some 0 => .act (.put Symbol.length (.newF64 0) true) (.done .undefined)
    | some (index + 1) =>
      .get (.index index) fun element =>
        .act (.delete (.index index) true) <|
          .act (.put Symbol.length (.int32 (BitVec.ofNat 32 index)) true) (.done element)

def shiftFrom (first : JsValue) (k : ℕ) : ℕ → Script
  | 0 => .act (.delete (.index (k - 1)) false) <|
      .act (.put Symbol.length (.newU32 (k - 1)) false) (.done first)
  | rest + 1 => .get (.index k) fun v =>
      if v = .undefined then .act (.delete (.index (k - 1)) false) (shiftFrom first (k + 1) rest)
      else .act (.put (.index (k - 1)) v false) (shiftFrom first (k + 1) rest)

def arrayShift : Script :=
  .length fun length =>
    match length with
    | 0 => .act (.put Symbol.length (.int32 0) false) (.done .undefined)
    | rest + 1 => .get (.index 0) fun first => shiftFrom first 1 rest

/-- The native functions that change the length of their array. -/
inductive IsNative : Script → Prop
  | push (args : List JsValue) : IsNative (arrayPush args)
  | pop : IsNative arrayPop
  | shift : IsNative arrayShift

/-- A heap and the scripts under way. -/
structure Session where
  world : World
  pending : List Script

inductive Session.Step (ok : World → KeyOp → Prop) (o : ℕ) : Session → Session → Prop
  | run {w w' : World} (ps : List Script) : KeyStep ok w w' → Step ok o ⟨w, ps⟩ ⟨w', ps⟩
  | call {s : Script} (w : World) (ps : List Script) : IsNative s → Step ok o ⟨w, ps⟩ ⟨w, s :: ps⟩
  | length (w : World) (ps qs : List Script) (next : ℕ → Script) :
      Step ok o ⟨w, ps ++ .length next :: qs⟩ ⟨w, ps ++ next (w.objects o).indexed.length :: qs⟩
  | get {w w' : World} {name : Symbol} (strict : ℕ → Bool) {v : JsValue} (ps qs : List Script)
      (next : JsValue → Script) : o < w.nextObject →
      ok w (.heap (.on o (.get name strict))) →
      (getSlot o name strict Slot.new w).state? = some w' →
      -- a getter may return anything
      (∀ v' w'', getSlot o name strict Slot.new w = .ok v' w'' → v = v') →
      Step ok o ⟨w, ps ++ .get name next :: qs⟩ ⟨w', ps ++ next v :: qs⟩
  | act {w w' : World} {op : ObjectOp} (ps qs : List Script) (next : Script) :
      (Op.on o op).Valid w → ok w (.heap (.on o op)) → (op.exec o w).state? = some w' →
      Step ok o ⟨w, ps ++ .act op next :: qs⟩ ⟨w', ps ++ next :: qs⟩
  | leave (w : World) (ps qs : List Script) (s : Script) : Step ok o ⟨w, ps ++ s :: qs⟩ ⟨w, ps ++ qs⟩

theorem Session.Step.world {ok : World → KeyOp → Prop} {s s' : Session} (h : Session.Step ok o s s') :
    s'.world = s.world ∨ KeyStep ok s.world s'.world := by
  cases h with
  | run ps hstep => exact .inr hstep
  | call w ps hs => exact .inl rfl
  | length w ps qs next => exact .inl rfl
  | @get w w' name strict v ps qs next hv hok hrun _ =>
    refine .inr ⟨.heap (.on o (.get name strict)), hv, hok, ?_⟩
    change ((getSlot o name strict Slot.new >>= fun _ => pure ()) w).state? = some w'
    rw [Exec.bind_apply]
    cases hr : getSlot o name strict Slot.new w <;> rw [hr] at hrun <;> exact hrun
  | @act w w' op ps qs next hv hok hrun => exact .inr ⟨.heap (.on o op), hv, hok, hrun⟩
  | leave w ps qs s => exact .inl rfl

theorem defineOwnProperty_element (hc : (w.objects o).class_ = .array) (i : ℕ)
    (desc : PropertyDescriptor) (throwable : Bool) :
    defineOwnProperty o (.index i) desc throwable w =
      defineOwnIndexedPropertyInternal o i desc throwable w := by
  have hslot : defineOwnPropertySlot o (.index i) desc Slot.new throwable w =
      (do return (← defineOwnIndexedPropertyInternal o i desc throwable, Slot.new) :
        Vm (Bool × Slot)) w := by
    change defineOwnIndexedPropertySlot o i desc Slot.new throwable w = _
    unfold defineOwnIndexedPropertySlot
    rw [Vm.object_bind, hc]
    rfl
  rw [defineOwnProperty, Exec.bind_apply, hslot, Exec.bind_apply]
  cases defineOwnIndexedPropertyInternal o i desc throwable w <;> rfl

/-- What holds of an array whatever was done to it. -/
structure ArrayExotic (w : World) (o : ℕ) : Prop where
  below : ∀ i, Owns w o (.index i) → i < (w.objects o).indexed.length
  u32 : (w.objects o).indexed.length < 2 ^ 32
  rejects : ∀ i desc throwable, (w.objects o).indexed.length ≤ i →
    (w.objects o).indexed.writable = false →
    defineOwnProperty o (.index i) desc throwable w = Vm.reject throwable
      "adding an element to the array which length is not writable is rejected" false w

theorem ArraySound.exotic (h : ArraySound w o) : ArrayExotic w o where
  below i hown := by
    rcases ((owns_iff h.inv h.lt (.index i)).mp hown).2 with hs | hs
    · obtain ⟨text, htext, -⟩ := hs
      rw [h.class_eq] at htext
      cases htext
    · obtain ⟨s, hs⟩ := Option.isSome_iff_exists.mp hs
      exact (h.sound o).lt_of_stored hs
  u32 := h.u32
  rejects i desc throwable hle hw := by
    rw [defineOwnProperty_element h.class_eq, defineOwnIndexedPropertyInternal, Vm.object_bind,
      decide_eq_true hle, hw]
    rfl

/-- The operations that a session may make at all. -/
def KeyOp.Allowed (o : ℕ) (w : World) (op : KeyOp) : Prop := op.KeepsSlots w ∧ op.OnArray o

/-- The operations after which array `o` is as it should be. -/
def KeyOp.Orderly (o : ℕ) (w : World) (op : KeyOp) : Prop := op.Allowed o w ∧ op.KeepsLength w o

theorem arraySound_session {s s' : Session} (h : ArraySound s.world o)
    (hstep : Session.Step (KeyOp.Orderly o) o s s') :
    ArraySound s'.world o ∧ ((s.world.objects o).indexed.writable = false →
      (s'.world.objects o).indexed.length = (s.world.objects o).indexed.length) := by
  rcases hstep.world with heq | ⟨op, hv, ⟨⟨hslots, hop⟩, hk⟩, hrun⟩
  · rw [heq]
    exact ⟨h, fun _ => rfl⟩
  · exact arraySound_step h hv hslots hop hk hrun

theorem arraySound_run {s s' : Session} (h : ArraySound s.world o)
    (hrun : Relation.ReflTransGen (Session.Step (KeyOp.Orderly o) o) s s') : ArraySound s'.world o := by
  induction hrun with
  | refl => exact h
  | tail _ hstep ih => exact (arraySound_session ih hstep).1

/-- The descriptor that makes a length read-only. -/
def lockedDesc : PropertyDescriptor :=
  { attrs := { data := true, undefEnumerable := true, undefConfigurable := true, undefValue := true,
               undefGetter := true, undefSetter := true }
    fst := .undefined, snd := .undefined }

/-- An array whose length is read-only. -/
def lockedWorld : World := arrayWorld.after (.on 0 (.define Symbol.length lockedDesc true))

theorem reachable_lockedWorld : Reachable (fun w op => op.KeepsSlots w) lockedWorld :=
  reachable_arrayWorld.step (.on 0 (.define Symbol.length lockedDesc true)) (show 0 < 1 by decide)
    (fun h => h.1) rfl

end Starlight
