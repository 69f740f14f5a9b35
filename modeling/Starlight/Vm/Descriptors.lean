import Starlight.Vm.ForIn
import Starlight.Vm.KeyOrder

/-!
# Descriptor objects

`Object.getOwnPropertyDescriptor` turns a property into an object with a field for everything that is to
be said of it, `to_property_descriptor` turns such an object into a descriptor again. It asks for each
field whether the object has it, itself or by inheritance, before it reads it; a getter that it meets on
the way may do anything that a run can do.
-/

namespace Starlight

open JsObject World Exec

variable {w w' : World} {o : ℕ} {n name : Symbol}

/-! ### The code -/

def JsValue.toBoolean (v : JsValue) : Bool :=
  if v.isNumber then !v.getNumber.eq (.fin 0) && !v.getNumber.isNan
  else match v with
    | .string _ text => text ≠ ""
    | .null => false
    | .undefined => false
    | .bool b => b
    | _ => true

namespace JsObject

def hasProperty (o : ℕ) (name : Symbol) : Vm Bool := do
  let (found, _) ← getPropertySlot o name Slot.new
  return found

def getCalling (call : JsValue → JsValue → Vm JsValue) (strict : ℕ → Bool) (o : ℕ) (name : Symbol) :
    Vm JsValue := fun w =>
  match getSlot o name strict Slot.new w with
  | .error (.invoke callee this _) w' => call callee this w'
  | r => r

def newEmpty (emptyObjectStruct : ℕ) : Vm ℕ := JsObject.new emptyObjectStruct .object

end JsObject

section Code

variable (call : JsValue → JsValue → Vm JsValue) (strict : ℕ → Bool)

/-- A field of a descriptor object: `has_property`, then `get`. -/
def readField (o : ℕ) (name : Symbol) : Vm (Option JsValue) := do
  if ← hasProperty o name then
    return some (← getCalling call strict o name)
  else
    return none

/-- The fields `get` and `set` have to be callable or undefined. -/
def readFunction (o : ℕ) (name : Symbol) (msg : String) : Vm (Option JsValue) := do
  match ← readField call strict o name with
  | some r =>
    if !(← Vm.isCallable r) && r ≠ .undefined then
      Vm.throwTypeError msg
    else
      return some r
  | none => return none

def toPropertyDescriptorOf (target : JsValue) : Vm PropertyDescriptor :=
  match target with
  | .object obj => do
    let enumerable ← readField call strict obj (.key "enumerable")
    let configurable ← readField call strict obj (.key "configurable")
    let value ← readField call strict obj (.key "value")
    let writable ← readField call strict obj (.key "writable")
    let get ← readFunction call strict obj (.key "get") "property 'get' is not callable"
    let set ← readFunction call strict obj (.key "set") "property 'set' is not callable"
    match toPropertyDescriptor value (writable.map JsValue.toBoolean) get set
        (enumerable.map JsValue.toBoolean) (configurable.map JsValue.toBoolean) with
    | some desc => return desc
    | none => Vm.throwTypeError "invalid property descriptor object"
  | _ => Vm.throwTypeError "ToPropertyDescriptor requires Object argument"

def objectDefineProperty (first : JsValue) (name : Symbol) (attr : JsValue) : Vm JsValue :=
  match first with
  | .object obj => do
    let desc ← toPropertyDescriptorOf call strict attr
    let _ ← defineOwnProperty obj name desc true
    return .object obj
  | _ => Vm.throwTypeError "Object.defineProperty requires Object argument"

end Code

/-- `define_own_property` with a `DataDescriptor` that is writable and configurable. -/
def setField (res : ℕ) (name : Symbol) (v : JsValue) : Vm Unit := do
  let _ ← defineOwnProperty res name (.dataDescriptor v { writable := true, configurable := true }) false

def objectGetOwnPropertyDescriptor (emptyObjectStruct : ℕ) (first : JsValue) (name : Symbol) :
    Vm JsValue :=
  match first with
  | .object o => do
    match ← getOwnProperty o name with
    | some desc => do
      let res ← newEmpty emptyObjectStruct
      setField res (.key "configurable") (.bool desc.attrs.configurable)
      setField res (.key "enumerable") (.bool desc.attrs.enumerable)
      if desc.attrs.data then do
        setField res (.key "value") desc.fst
        setField res (.key "writable") (.bool desc.attrs.writable)
      else do
        setField res (.key "get") desc.fst
        setField res (.key "set") desc.snd
      return .object res
    | none => return .undefined
  | _ => Vm.throwTypeError "Object.getOwnPropertyDescriptor requires object argument"

/-! ### What an object has -/

/-- The object has the name, itself or by inheritance. -/
inductive HasName (w : World) : ℕ → Symbol → Prop
  | own {o : ℕ} {n : Symbol} : Owns w o n → HasName w o n
  | inherited {o p : ℕ} {n : Symbol} : w.prototype o = some p → HasName w p n → HasName w o n

theorem owns_iff_of_not_index (h : w.Inv layoutPolicy) (ho : o < w.nextObject)
    (hname : ∀ i, n ≠ .index i) :
    Owns w o n ↔ (overridesLength (w.objects o).class_ ∧ n = Symbol.length) ∨ n ∈ w.table o := by
  have := ownsNamed_iff (n := n) h ho
  unfold OwnsNamed at this
  rwa [and_iff_left hname, and_iff_right hname] at this

theorem getOwnNonIndexedPropertySlot_ok (h : w.Inv layoutPolicy) (ho : o < w.nextObject)
    (hname : ∀ i, n ≠ .index i) (slot : Slot) : ∃ found slot' w',
      getOwnNonIndexedPropertySlot o n slot w = .ok (found, slot') w' ∧
        (found = true ↔ Owns w o n) := by
  rw [owns_iff_of_not_index h ho hname]
  by_cases hs : overridesLength (w.objects o).class_ ∧ n = Symbol.length
  · obtain ⟨hc, rfl⟩ := hs
    unfold getOwnNonIndexedPropertySlot
    rw [Vm.object_bind]
    cases hcl : (w.objects o).class_ with
    | array | string text =>
      dsimp only
      rw [if_pos rfl]
      exact ⟨true, _, w, rfl, fun _ => .inl ⟨trivial, rfl⟩, fun _ => rfl⟩
    | object | function | global => rw [hcl] at hc; exact hc.elim
  · rw [or_iff_right hs]
    cases he : (w.table o).lookup n with
    | some e =>
      obtain ⟨w', k, -, hrun⟩ := getOwnNonIndexedPropertySlot_of_named h ho
        (namedSlot_of_lookup he (List.getElem?_eq_getElem (h.offset_lt ho he))) hs slot
      exact ⟨true, _, w', hrun, fun _ => Finmap.mem_of_lookup_eq_some he, fun _ => rfl⟩
    | none =>
      obtain ⟨slot', w', hrun⟩ := getOwnNonIndexedPropertySlot_of_absent h ho he hs slot
      refine ⟨false, slot', w', hrun, fun hc => (nomatch hc), fun hn => ?_⟩
      exact absurd hn (Finmap.lookup_eq_none.mp he)

theorem World.Read.owns (hr : Read layoutPolicy w w') (h : w.Inv layoutPolicy) (ho : o < w.nextObject)
    (hname : ∀ i, n ≠ .index i) : Owns w' o n ↔ Owns w o n := by
  rw [owns_iff_of_not_index hr.inv (hr.nextObject ▸ ho) hname, owns_iff_of_not_index h ho hname,
    hr.objects, hr.table h ho]

theorem World.Read.hasName (hr : Read layoutPolicy w w') (h : w.Inv layoutPolicy)
    (ho : o < w.nextObject) (hname : ∀ i, n ≠ .index i) : HasName w' o n ↔ HasName w o n := by
  constructor
  · intro hn
    induction hn with
    | own hown => exact .own ((hr.owns h ho hname).mp hown)
    | inherited hp _ ih =>
      rw [hr.prototype h ho] at hp
      exact .inherited hp (ih (h.prototype_lt ho hp) hname)
  · intro hn
    induction hn with
    | own hown => exact .own ((hr.owns h ho hname).mpr hown)
    | inherited hp _ ih =>
      exact .inherited (by rw [hr.prototype h ho]; exact hp) (ih (h.prototype_lt ho hp) hname)

theorem hasName_iff : HasName w o n ↔ Owns w o n ∨ ∃ p, w.prototype o = some p ∧ HasName w p n := by
  constructor
  · intro h
    cases h with
    | own hown => exact .inl hown
    | inherited hp h => exact .inr ⟨_, hp, h⟩
  · rintro (hown | ⟨p, hp, h⟩)
    · exact .own hown
    · exact .inherited hp h

theorem found_iff_hasName (h : w.Inv layoutPolicy) (ho : o < w.nextObject)
    (hname : ∀ i, n ≠ .index i) {fuel : ℕ} {slot slot' : Slot} {found : Bool}
    (hrun : getNonIndexedPropertySlotFrom fuel o n slot w = .ok (found, slot') w') :
    found = true ↔ HasName w o n := by
  induction fuel generalizing w o slot with
  | zero => cases hrun
  | succ fuel ih =>
    obtain ⟨found₁, slot₁, w₁, hown, howns⟩ := getOwnNonIndexedPropertySlot_ok h ho hname slot
    have hr : Read layoutPolicy w w₁ :=
      (Result.Sat.of_ok (reads_getOwnNonIndexedPropertySlot h ho n slot) hown).1
    unfold getNonIndexedPropertySlotFrom at hrun
    rw [Exec.bind_of_ok hown] at hrun
    cases found₁ with
    | true =>
      cases hrun
      exact ⟨fun _ => .own (howns.mp rfl), fun _ => rfl⟩
    | false =>
      have hnot : ¬ Owns w o n := fun hc => absurd (howns.mpr hc) Bool.false_ne_true
      simp only [Bool.false_eq_true, if_false, Vm.object_bind, Exec.gets_bind] at hrun
      have hproto : (w₁.shapes.structures (w₁.objects o).structure_).prototype = w.prototype o :=
        hr.prototype h ho
      rw [hproto] at hrun
      rw [hasName_iff, or_iff_right hnot]
      cases hp : w.prototype o with
      | none =>
        rw [hp] at hrun
        cases hrun
        exact ⟨fun hc => (nomatch hc), fun ⟨p, hc, _⟩ => (nomatch hc)⟩
      | some p =>
        rw [hp] at hrun
        have hlt := h.prototype_lt ho hp
        rw [ih hr.inv (hr.nextObject ▸ hlt) hrun, hr.hasName h hlt hname]
        exact ⟨fun hn => ⟨p, rfl, hn⟩, fun ⟨q, hq, hn⟩ => by cases hq; exact hn⟩

theorem getNonIndexedPropertySlotFrom_ok {l : List ℕ} (hl : w.Chain o l) (h : w.Inv layoutPolicy)
    (ho : o < w.nextObject) (hname : ∀ i, n ≠ .index i) {fuel : ℕ} (hf : l.length ≤ fuel)
    (slot : Slot) : ∃ found slot' w',
      getNonIndexedPropertySlotFrom fuel o n slot w = .ok (found, slot') w' := by
  induction l generalizing w o fuel slot with
  | nil => cases hl
  | cons b l ih =>
    obtain ⟨fuel, rfl⟩ : ∃ k, fuel = k + 1 := ⟨fuel - 1, by rw [List.length_cons] at hf; omega⟩
    obtain ⟨found₁, slot₁, w₁, hown, -⟩ := getOwnNonIndexedPropertySlot_ok h ho hname slot
    have hr : Read layoutPolicy w w₁ :=
      (Result.Sat.of_ok (reads_getOwnNonIndexedPropertySlot h ho n slot) hown).1
    unfold getNonIndexedPropertySlotFrom
    rw [Exec.bind_of_ok hown]
    cases found₁ with
    | true => exact ⟨true, slot₁, w₁, rfl⟩
    | false =>
      simp only [Bool.false_eq_true, if_false, Vm.object_bind, Exec.gets_bind]
      have hproto : (w₁.shapes.structures (w₁.objects o).structure_).prototype = w.prototype o :=
        hr.prototype h ho
      rw [hproto]
      cases hl with
      | last hp =>
        rw [hp]
        exact ⟨false, slot₁, w₁, rfl⟩
      | cons hp hl =>
        rw [hp]
        have hlt := h.prototype_lt ho hp
        exact ih ((World.Chain.read hr h hlt).mpr hl) hr.inv (hr.nextObject ▸ hlt)
          (Nat.le_of_succ_le_succ hf) slot₁

theorem hasProperty_spec (h : w.Inv layoutPolicy) (ho : o < w.nextObject) (hname : ∀ i, n ≠ .index i)
    {b : Bool} (hrun : hasProperty o n w = .ok b w') :
    Read layoutPolicy w w' ∧ (b = true ↔ HasName w o n) := by
  obtain ⟨⟨found, slot⟩, w₁, hget, hret⟩ := bind_eq_ok hrun
  cases hret
  rw [getPropertySlot_of_not_index hname] at hget
  exact ⟨(Result.Sat.of_ok (reads_getNonIndexedPropertySlot h ho n Slot.new) hget).1,
    found_iff_hasName h ho hname hget⟩

theorem hasProperty_ok {l : List ℕ} (hl : w.Chain o l) (h : w.Inv layoutPolicy)
    (ho : o < w.nextObject) (hname : ∀ i, n ≠ .index i) :
    ∃ b w', hasProperty o n w = .ok b w' ∧ Read layoutPolicy w w' ∧ (b = true ↔ HasName w o n) := by
  obtain ⟨found, slot, w', hrun⟩ := getNonIndexedPropertySlotFrom_ok hl h ho hname
    (le_trans (hl.length_le h ho) (Nat.le_succ _)) Slot.new
  have hhas : hasProperty o n w = .ok found w' := by
    unfold hasProperty
    rw [getPropertySlot_of_not_index hname]
    exact Exec.bind_of_ok (a := (found, slot)) hrun _
  exact ⟨found, w', hhas, hasProperty_spec h ho hname hhas⟩

/-! ### Reading the fields -/

/-- What the code of a getter does to the heap is a further stretch of the run. -/
def RunsCode (call : JsValue → JsValue → Vm JsValue) : Prop :=
  ∀ callee this w v w', call callee this w = .ok v w' →
    Relation.ReflTransGen (Step fun w op => op.KeepsSlots w) w w'

/-- What stays when other code has run. -/
structure Goes (w w' : World) : Prop where
  inv : w'.Inv layoutPolicy
  nextObject_le : w.nextObject ≤ w'.nextObject

theorem World.Read.goes (hr : Read layoutPolicy w w') : Goes w w' := ⟨hr.inv, hr.nextObject.ge⟩

theorem Goes.trans {w'' : World} (h : Goes w w') (h' : Goes w' w'') : Goes w w'' :=
  ⟨h'.inv, h.nextObject_le.trans h'.nextObject_le⟩

theorem goes_of_run (h : w.Inv layoutPolicy)
    (hrun : Relation.ReflTransGen (Step fun w op => op.KeepsSlots w) w w') : Goes w w' := by
  induction hrun with
  | refl => exact ⟨h, le_rfl⟩
  | tail _ hstep ih =>
    obtain ⟨op, hv, hk, hs⟩ := hstep
    have hkept := Result.Sat.state
      (keeps_exec ih.inv hv hk (op.fits_layoutPolicy _) trivial trivial) hs
    exact ih.trans ⟨hkept.inv, hkept.nextObject_le⟩

variable {call : JsValue → JsValue → Vm JsValue} {strict : ℕ → Bool}

theorem goes_getCalling (hcall : RunsCode call) (h : w.Inv layoutPolicy) (ho : o < w.nextObject)
    {v : JsValue} (hrun : getCalling call strict o name w = .ok v w') : Goes w w' := by
  have hreads := reads_getSlot (P := layoutPolicy) h ho name strict
  unfold getCalling at hrun
  cases hget : getSlot o name strict Slot.new w with
  | ok v₁ w₁ =>
    rw [hget] at hrun hreads
    cases hrun
    exact hreads.1.goes
  | error e w₁ =>
    rw [hget] at hrun hreads
    have hr : Read layoutPolicy w w₁ := hreads
    cases e with
    | invoke callee this args =>
      exact hr.goes.trans (goes_of_run hr.inv (hcall callee this w₁ v w' hrun))
    | throw e | convert v | panic => cases hrun
  | stuck | diverge => rw [hget] at hrun; cases hrun

/-- **The step lemma of the fields.** -/
theorem readField_spec (hcall : RunsCode call) (h : w.Inv layoutPolicy) (ho : o < w.nextObject)
    (hname : ∀ i, name ≠ .index i) {v : Option JsValue}
    (hrun : readField call strict o name w = .ok v w') :
    Goes w w' ∧ (v.isNone = true ↔ ¬ HasName w o name) := by
  obtain ⟨b, w₁, hhas, hrun⟩ := bind_eq_ok hrun
  obtain ⟨hr, hb⟩ := hasProperty_spec h ho hname hhas
  rw [← hb]
  cases b with
  | false =>
    cases hrun
    exact ⟨hr.goes, fun _ => Bool.false_ne_true, fun _ => rfl⟩
  | true =>
    obtain ⟨v₁, w₂, hget, hret⟩ := bind_eq_ok hrun
    cases hret
    exact ⟨hr.goes.trans (goes_getCalling hcall hr.inv (hr.nextObject ▸ ho) hget),
      fun hc => (nomatch hc), fun hc => absurd rfl hc⟩

theorem readField_of_readFunction {msg : String} {v : Option JsValue}
    (hrun : readFunction call strict o name msg w = .ok v w') :
    readField call strict o name w = .ok v w' := by
  obtain ⟨r, w₁, hread, hrun⟩ := bind_eq_ok hrun
  cases r with
  | none =>
    cases hrun
    exact hread
  | some r =>
    obtain ⟨b, w₂, hcall, hrun⟩ := bind_eq_ok hrun
    obtain rfl : w₁ = w₂ := by cases hcall; rfl
    clear hcall
    split at hrun
    · cases hrun
    · cases hrun
      exact hread

/-- The fields are asked for one after the other, and each is found absent just when the object then has
no such property. -/
inductive Asks (call : JsValue → JsValue → Vm JsValue) (strict : ℕ → Bool) (o : ℕ) :
    World → List (Symbol × Bool) → World → Prop
  | nil (w : World) : Asks call strict o w [] w
  | cons {w w₁ w' : World} {name : Symbol} {absent : Bool} {v : Option JsValue}
      {fields : List (Symbol × Bool)} : readField call strict o name w = .ok v w₁ →
      (absent = true ↔ ¬ HasName w o name) → Asks call strict o w₁ fields w' →
      Asks call strict o w ((name, absent) :: fields) w'

theorem undef_toPropertyDescriptor {value : Option JsValue} {writable : Option Bool}
    {get set : Option JsValue} {enumerable configurable : Option Bool} {d : PropertyDescriptor}
    (h : toPropertyDescriptor value writable get set enumerable configurable = some d) :
    d.attrs.undefEnumerable = enumerable.isNone ∧ d.attrs.undefConfigurable = configurable.isNone ∧
      d.attrs.undefValue = value.isNone ∧ d.attrs.undefWritable = writable.isNone ∧
      d.attrs.undefGetter = get.isNone ∧ d.attrs.undefSetter = set.isNone := by
  unfold toPropertyDescriptor at h
  dsimp only at h
  split at h
  · cases h
  next hk =>
  split at h
  · next ha =>
    have hd : value = none ∧ writable = none := by
      rw [ha] at hk
      simpa using hk
    obtain ⟨rfl, rfl⟩ := hd
    cases h
    exact ⟨rfl, rfl, rfl, rfl, rfl, rfl⟩
  next ha =>
  have hacc : get = none ∧ set = none := by simpa using ha
  obtain ⟨rfl, rfl⟩ := hacc
  split at h
  · cases h
    exact ⟨rfl, rfl, rfl, rfl, rfl, rfl⟩
  next hd =>
  have hd : value = none ∧ writable = none := by simpa using hd
  obtain ⟨rfl, rfl⟩ := hd
  cases h
  exact ⟨rfl, rfl, rfl, rfl, rfl, rfl⟩

/-- The fields that a descriptor marks as absent, in the order in which they are asked for. -/
def PropertyDescriptor.absences (d : PropertyDescriptor) : List (Symbol × Bool) :=
  [(.key "enumerable", d.attrs.undefEnumerable), (.key "configurable", d.attrs.undefConfigurable),
    (.key "value", d.attrs.undefValue), (.key "writable", d.attrs.undefWritable),
    (.key "get", d.attrs.undefGetter), (.key "set", d.attrs.undefSetter)]

theorem asks_absences (hcall : RunsCode call) (h : w.Inv layoutPolicy) (ho : o < w.nextObject)
    {d : PropertyDescriptor} (hrun : toPropertyDescriptorOf call strict (.object o) w = .ok d w') :
    Asks call strict o w d.absences w' := by
  have hkey : ∀ (t : String) i, Symbol.key t ≠ .index i := fun _ _ => by simp
  obtain ⟨enumerable, w₁, he, hrun⟩ := bind_eq_ok hrun
  obtain ⟨configurable, w₂, hc, hrun⟩ := bind_eq_ok hrun
  obtain ⟨value, w₃, hv, hrun⟩ := bind_eq_ok hrun
  obtain ⟨writable, w₄, hw, hrun⟩ := bind_eq_ok hrun
  obtain ⟨get, w₅, hg, hrun⟩ := bind_eq_ok hrun
  obtain ⟨set, w₆, hs, hrun⟩ := bind_eq_ok hrun
  replace hg := readField_of_readFunction hg
  replace hs := readField_of_readFunction hs
  obtain ⟨g₁, ha₁⟩ := readField_spec hcall h ho (hkey _) he
  have ho₁ := lt_of_lt_of_le ho g₁.nextObject_le
  obtain ⟨g₂, ha₂⟩ := readField_spec hcall g₁.inv ho₁ (hkey _) hc
  have ho₂ := lt_of_lt_of_le ho₁ g₂.nextObject_le
  obtain ⟨g₃, ha₃⟩ := readField_spec hcall g₂.inv ho₂ (hkey _) hv
  have ho₃ := lt_of_lt_of_le ho₂ g₃.nextObject_le
  obtain ⟨g₄, ha₄⟩ := readField_spec hcall g₃.inv ho₃ (hkey _) hw
  have ho₄ := lt_of_lt_of_le ho₃ g₄.nextObject_le
  obtain ⟨g₅, ha₅⟩ := readField_spec hcall g₄.inv ho₄ (hkey _) hg
  have ho₅ := lt_of_lt_of_le ho₄ g₅.nextObject_le
  obtain ⟨-, ha₆⟩ := readField_spec hcall g₅.inv ho₅ (hkey _) hs
  cases hdesc : toPropertyDescriptor value (writable.map JsValue.toBoolean) get set
      (enumerable.map JsValue.toBoolean) (configurable.map JsValue.toBoolean) with
  | none =>
    rw [hdesc] at hrun
    cases hrun
  | some desc =>
    rw [hdesc] at hrun
    cases hrun
    obtain ⟨hue, huc, huv, huw, hug, hus⟩ := undef_toPropertyDescriptor hdesc
    rw [Option.isNone_map] at hue huc huw
    unfold PropertyDescriptor.absences
    rw [hue, huc, huv, huw, hug, hus]
    exact .cons he ha₁ (.cons hc ha₂ (.cons hv ha₃ (.cons hw ha₄ (.cons hg ha₅
      (.cons hs ha₆ (.nil _))))))

end Starlight
