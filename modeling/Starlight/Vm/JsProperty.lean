import Starlight.Vm.Property

/-!
# Properties and descriptors as the language has them

`JsProperty` is what a program can tell of a property: its value up to `JsValue.denote`, the functions
behind an accessor, the attributes. `Fields` are the fields of a property descriptor that are present.
`redefine` is ECMAScript's `ValidateAndApplyPropertyDescriptor` for a property that exists, `create` for
one that does not; neither is taken from the engine.
-/

namespace Starlight

/-- A property, as far as a program can tell. -/
inductive JsProperty where
  | data (value : JsValue.Denotation) (writable enumerable configurable : Bool)
  | accessor (get set : JsValue) (enumerable configurable : Bool)
deriving DecidableEq

/-- The fields of a property descriptor that are present. -/
structure Fields where
  value : Option JsValue.Denotation := none
  writable : Option Bool := none
  get : Option JsValue := none
  set : Option JsValue := none
  enumerable : Option Bool := none
  configurable : Option Bool := none
deriving DecidableEq

namespace Fields

def isData (f : Fields) : Bool := f.value.isSome || f.writable.isSome

def isAccessor (f : Fields) : Bool := f.get.isSome || f.set.isSome

end Fields

namespace JsProperty

def enumerable : JsProperty → Bool
  | data _ _ e _ => e
  | accessor _ _ e _ => e

def configurable : JsProperty → Bool
  | data _ _ _ c => c
  | accessor _ _ _ c => c

/-- The descriptor that `[[GetOwnProperty]]` returns. -/
def fields : JsProperty → Fields
  | data v w e c =>
    { value := some v, writable := some w, enumerable := some e, configurable := some c }
  | accessor g s e c =>
    { get := some g, set := some s, enumerable := some e, configurable := some c }

/-- The property that a descriptor creates: absent fields have their defaults. -/
def create (f : Fields) : JsProperty :=
  if f.isAccessor then
    accessor (f.get.getD .undefined) (f.set.getD .undefined) (f.enumerable.getD false)
      (f.configurable.getD false)
  else
    data (f.value.getD JsValue.undefined.denote) (f.writable.getD false) (f.enumerable.getD false)
      (f.configurable.getD false)

/-- Steps 5 and after of `[[DefineOwnProperty]]`: absent fields keep what the property has. -/
def redefine (p : JsProperty) (f : Fields) : Option JsProperty :=
  if !p.configurable && (f.configurable.any id || f.enumerable.any (· != p.enumerable)) then none
  else
    let enumerable := f.enumerable.getD p.enumerable
    let configurable := f.configurable.getD p.configurable
    match p with
    | data v w _ c =>
      if f.isAccessor then
        if c then
          some (accessor (f.get.getD .undefined) (f.set.getD .undefined) enumerable configurable)
        else none
      else if !c && !w && (f.writable.any id || f.value.any (· != v)) then none
      else some (data (f.value.getD v) (f.writable.getD w) enumerable configurable)
    | accessor g s _ c =>
      if f.isData then
        if c then
          some (data (f.value.getD JsValue.undefined.denote) (f.writable.getD false) enumerable
            configurable)
        else none
      else if !c && (f.get.any (· != g) || f.set.any (· != s)) then none
      else some (accessor (f.get.getD g) (f.set.getD s) enumerable configurable)

/-- The property that an accepted descriptor makes of another. -/
def apply (p : JsProperty) (f : Fields) : JsProperty :=
  let enumerable := f.enumerable.getD p.enumerable
  let configurable := f.configurable.getD p.configurable
  match p with
  | data v w _ _ =>
    if f.isAccessor then
      accessor (f.get.getD .undefined) (f.set.getD .undefined) enumerable configurable
    else data (f.value.getD v) (f.writable.getD w) enumerable configurable
  | accessor g s _ _ =>
    if f.isData then
      data (f.value.getD JsValue.undefined.denote) (f.writable.getD false) enumerable configurable
    else accessor (f.get.getD g) (f.set.getD s) enumerable configurable

theorem redefine_eq_none_or (p : JsProperty) (f : Fields) :
    p.redefine f = none ∨ p.redefine f = some (p.apply f) := by
  unfold redefine
  split
  · exact .inl rfl
  cases p with
  | data v w e c | accessor g s e c =>
    unfold apply
    dsimp only
    split
    · split
      · exact .inr rfl
      · exact .inl rfl
    · split
      · exact .inl rfl
      · exact .inr rfl

theorem redefine_eq_some {p : JsProperty} {f : Fields} (h : p.redefine f ≠ none) :
    p.redefine f = some (p.apply f) :=
  (redefine_eq_none_or p f).resolve_left h

theorem redefine_eq_none {p : JsProperty} {f : Fields} (hc : p.configurable = false)
    (h : (f.configurable.any id || f.enumerable.any (· != p.enumerable)) = true) :
    p.redefine f = none := by
  unfold redefine
  rw [hc, h]
  rfl

theorem redefine_eq_none_iff {p : JsProperty} {f : Fields} :
    p.redefine f = none ↔ p.configurable = false ∧
      (f.configurable.any id = true ∨ f.enumerable.any (· != p.enumerable) = true ∨ match p with
        | data v w _ _ => f.isAccessor = true ∨
            (w = false ∧ (f.writable.any id = true ∨ f.value.any (· != v) = true))
        | accessor g s _ _ => f.isData = true ∨ f.get.any (· != g) = true ∨ f.set.any (· != s) = true) := by
  unfold redefine
  split
  · next h =>
    simp only [Bool.and_eq_true, Bool.not_eq_true', Bool.or_eq_true] at h
    exact iff_of_true rfl ⟨h.1, h.2.imp_right .inl⟩
  next h =>
  simp only [Bool.and_eq_true, Bool.not_eq_true', Bool.or_eq_true, not_and, not_or] at h
  cases p with
  | data v w e c | accessor g s e c =>
    dsimp only [configurable, enumerable] at h ⊢
    split
    · next hk => cases c <;> simp [hk]
    next hk =>
    split
    · next hv =>
      simp only [Bool.and_eq_true, Bool.not_eq_true', Bool.or_eq_true] at hv
      grind
    · next hv =>
      simp only [Bool.and_eq_true, Bool.not_eq_true', Bool.or_eq_true] at hv
      grind

theorem redefine_data_eq_none {v : JsValue.Denotation} {w e c : Bool} {f : Fields} :
    (data v w e c).redefine f = none ↔ c = false ∧
      (f.configurable.any id = true ∨ f.enumerable.any (· != e) = true ∨ f.isAccessor = true ∨
        (w = false ∧ (f.writable.any id = true ∨ f.value.any (· != v) = true))) :=
  redefine_eq_none_iff

theorem redefine_accessor_eq_none {g s : JsValue} {e c : Bool} {f : Fields} :
    (accessor g s e c).redefine f = none ↔ c = false ∧
      (f.configurable.any id = true ∨ f.enumerable.any (· != e) = true ∨ f.isData = true ∨
        f.get.any (· != g) = true ∨ f.set.any (· != s) = true) :=
  redefine_eq_none_iff

end JsProperty

namespace Fields

structure Within (f g : Fields) : Prop where
  value : f.value = none ∨ f.value = g.value
  writable : f.writable = none ∨ f.writable = g.writable
  get : f.get = none ∨ f.get = g.get
  set : f.set = none ∨ f.set = g.set
  enumerable : f.enumerable = none ∨ f.enumerable = g.enumerable
  configurable : f.configurable = none ∨ f.configurable = g.configurable

end Fields

theorem getD_eq_iff {α : Type} {a : Option α} {b : α} : a.getD b = b ↔ a = none ∨ a = some b := by
  cases a <;> simp

theorem JsProperty.redefine_eq_some_self {p : JsProperty} {f : Fields} :
    p.redefine f = some p ↔ f.Within p.fields := by
  constructor
  · intro h
    have ha : p.apply f = p := by
      rcases redefine_eq_none_or p f with hn | hs
      · rw [hn] at h; cases h
      · exact Option.some.inj (hs.symm.trans h)
    cases p with
    | data v w e c =>
      unfold apply at ha
      dsimp only at ha
      split at ha
      · cases ha
      next hacc =>
      injection ha with hv hw he hc
      have hacc : f.get = none ∧ f.set = none := by simpa [Fields.isAccessor] using hacc
      exact ⟨getD_eq_iff.mp hv, getD_eq_iff.mp hw, .inl hacc.1, .inl hacc.2, getD_eq_iff.mp he,
        getD_eq_iff.mp hc⟩
    | accessor g s e c =>
      unfold apply at ha
      dsimp only at ha
      split at ha
      · cases ha
      next hdata =>
      injection ha with hg hs he hc
      have hdata : f.value = none ∧ f.writable = none := by simpa [Fields.isData] using hdata
      exact ⟨.inl hdata.1, .inl hdata.2, getD_eq_iff.mp hg, getD_eq_iff.mp hs, getD_eq_iff.mp he,
        getD_eq_iff.mp hc⟩
  · rintro ⟨hv, hw, hg, hs, he, hc⟩
    rcases f with ⟨value, writable, get, set, enumerable, configurable⟩
    cases p with
    | data v w e c =>
      obtain rfl : get = none := hg.elim id id
      obtain rfl : set = none := hs.elim id id
      have hne : (!c && (configurable.any id || enumerable.any (· != e))) = false := by
        rcases he with rfl | rfl <;> rcases hc with rfl | rfl <;> simp [fields]
      have hnv : (!c && !w && (writable.any id || value.any (· != v))) = false := by
        rcases hv with rfl | rfl <;> rcases hw with rfl | rfl <;> simp [fields]
      simp only [redefine, JsProperty.configurable, JsProperty.enumerable, hne, hnv]
      rw [getD_eq_iff.mpr hv, getD_eq_iff.mpr hw, getD_eq_iff.mpr he, getD_eq_iff.mpr hc]
      rfl
    | accessor g s e c =>
      obtain rfl : value = none := hv.elim id id
      obtain rfl : writable = none := hw.elim id id
      have hne : (!c && (configurable.any id || enumerable.any (· != e))) = false := by
        rcases he with rfl | rfl <;> rcases hc with rfl | rfl <;> simp [fields]
      have hns : (!c && (get.any (· != g) || set.any (· != s))) = false := by
        rcases hg with rfl | rfl <;> rcases hs with rfl | rfl <;> simp [fields]
      simp only [redefine, JsProperty.configurable, JsProperty.enumerable, hne, hns]
      rw [getD_eq_iff.mpr hg, getD_eq_iff.mpr hs, getD_eq_iff.mpr he, getD_eq_iff.mpr hc]
      rfl

/-! ### Descriptors of the engine -/

namespace PropertyDescriptor

def fields (d : PropertyDescriptor) : Fields where
  value := if d.attrs.data && !d.attrs.undefValue then some d.fst.denote else none
  writable := if d.attrs.data && !d.attrs.undefWritable then some d.attrs.writable else none
  get := if d.attrs.accessor && !d.attrs.undefGetter then some d.fst else none
  set := if d.attrs.accessor && !d.attrs.undefSetter then some d.snd else none
  enumerable := if d.attrs.undefEnumerable then none else some d.attrs.enumerable
  configurable := if d.attrs.undefConfigurable then none else some d.attrs.configurable

/-- The descriptor says of every attribute either what it is or that it is absent, and has the fields of
one kind of property only. -/
structure WellFormed (d : PropertyDescriptor) : Prop where
  kind : d.attrs.data = true → d.attrs.accessor = false
  not_empty : d.attrs.empty = false
  configurable : d.attrs.undefConfigurable = true → d.attrs.configurable = false
  enumerable : d.attrs.undefEnumerable = true → d.attrs.enumerable = false
  writable : d.attrs.undefWritable = true → d.attrs.writable = false
  data : d.attrs.data = true → d.attrs.undefValue = false ∨ d.attrs.undefWritable = false
  generic : d.attrs.data = false → d.attrs.undefValue = true
  accessor : d.attrs.accessor = true → d.attrs.undefGetter = false ∨ d.attrs.undefSetter = false
  getter : d.attrs.accessor = true → d.attrs.undefGetter = true → d.fst = .undefined
  setter : d.attrs.accessor = true → d.attrs.undefSetter = true → d.snd = .undefined
  value : d.attrs.undefValue = false → d.fst ≠ .empty ∧ d.fst.isAccessorCell = false

end PropertyDescriptor

/-- `to_property_descriptor`, from the fields that it finds in the object: `none` where it throws. -/
def toPropertyDescriptor (value : Option JsValue) (writable : Option Bool)
    (get set : Option JsValue) (enumerable configurable : Option Bool) : Option PropertyDescriptor :=
  let attrs : AttrExternal :=
    { enumerable := enumerable.getD false, undefEnumerable := enumerable.isNone
      configurable := configurable.getD false, undefConfigurable := configurable.isNone
      data := value.isSome || writable.isSome, undefValue := value.isNone
      writable := writable.getD false, undefWritable := writable.isNone
      accessor := get.isSome || set.isSome
      undefGetter := get.isNone, undefSetter := set.isNone }
  if attrs.accessor && attrs.data then none
  else if attrs.accessor then
    some (.accessorDescriptor (get.getD .undefined) (set.getD .undefined) { attrs with data := false })
  else if attrs.data then some (.dataDescriptor (value.getD .undefined) attrs)
  else some { attrs := { attrs with undefValue := true, undefGetter := true, undefSetter := true,
                                    undefWritable := true }
              fst := .empty, snd := .empty }

theorem getD_of_isNone {α : Type} {a : Option α} (h : a.isNone = true) (b : α) : a.getD b = b := by
  rw [Option.isNone_iff_eq_none.mp h, Option.getD_none]

theorem wellFormed_toPropertyDescriptor {value : Option JsValue} {writable : Option Bool}
    {get set : Option JsValue} {enumerable configurable : Option Bool} {d : PropertyDescriptor}
    (hv : ∀ v, value = some v → v ≠ .empty ∧ v.isAccessorCell = false)
    (h : toPropertyDescriptor value writable get set enumerable configurable = some d) :
    d.WellFormed ∧ d.fields =
      ⟨value.map JsValue.denote, writable, get, set, enumerable, configurable⟩ := by
  unfold toPropertyDescriptor at h
  dsimp only at h
  have hconf : configurable.isNone = true → configurable.getD false = false :=
    fun hn => getD_of_isNone hn false
  have henum : enumerable.isNone = true → enumerable.getD false = false :=
    fun hn => getD_of_isNone hn false
  split at h
  · cases h
  · next hk =>
    split at h
    · next ha =>
      cases h
      have hd : value = none ∧ writable = none := by
        rw [ha] at hk
        simpa using hk
      obtain ⟨rfl, rfl⟩ := hd
      refine ⟨⟨fun hc => (by cases hc), rfl, hconf, henum, fun _ => rfl, fun hc => (by cases hc),
        fun _ => rfl, fun _ => ?_, fun _ hn => getD_of_isNone hn _, fun _ hn => getD_of_isNone hn _,
        fun hc => (by cases hc)⟩, ?_⟩
      · cases get <;> cases set <;> simp_all [PropertyDescriptor.accessorDescriptor]
      · cases get <;> cases set <;> cases enumerable <;> cases configurable <;> rfl
    · next ha =>
      have hacc : get = none ∧ set = none := by simpa using ha
      obtain ⟨rfl, rfl⟩ := hacc
      split at h
      · next hd =>
        cases h
        refine ⟨⟨fun _ => rfl, rfl, hconf, henum, fun hn => getD_of_isNone hn _, fun _ => ?_,
          fun hc => (by cases hc), fun hc => (by cases hc), fun hc => (by cases hc),
          fun hc => (by cases hc), fun hn => ?_⟩, ?_⟩
        · cases value <;> cases writable <;> simp_all [PropertyDescriptor.dataDescriptor]
        · cases value with
          | none => cases hn
          | some v => exact hv v rfl
        · cases value <;> cases writable <;> cases enumerable <;> cases configurable <;> rfl
      · next hd =>
        cases h
        have hd : value = none ∧ writable = none := by simpa using hd
        obtain ⟨rfl, rfl⟩ := hd
        refine ⟨⟨fun hc => (by cases hc), rfl, hconf, henum, fun _ => rfl, fun hc => (by cases hc),
          fun _ => rfl, fun hc => (by cases hc), fun hc => (by cases hc), fun hc => (by cases hc),
          fun hc => (by cases hc)⟩, ?_⟩
        cases enumerable <;> cases configurable <;> rfl

end Starlight
