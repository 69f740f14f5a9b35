import Starlight.Vm.JsProperty
import Starlight.Vm.HeapRuns

/-!
# Validation and application of descriptors

`is_defined_property_accepted` and `merge` against `ValidateAndApplyPropertyDescriptor`. They agree
except in two cases. A zero is not written over a zero of the other sign when the descriptor changes
nothing else, because the early test for a descriptor without effect compares with `same_value`. And an
accessor property that becomes a data property keeps its accessor cell as its value when the descriptor
has no value.
-/

namespace Starlight

open Exec

variable {w w' : World}

namespace JsValue

theorem denote_eq_number {v : JsValue} (h : v.isNumber = true) : v.denote = .number v.getNumber := by
  cases v <;> first | rfl | cases h

theorem isNumber_of_denote {v : JsValue} {d : F64} (h : v.denote = .number d) : v.isNumber = true := by
  cases v <;> first | rfl | cases h

theorem isNumber_of_isZero {v : JsValue} (h : v.isZero = true) :
    v.isNumber = true ∧ (v.getNumber = .negZero ∨ v.getNumber = .fin 0) := by
  have hd : v.denote = .number .negZero ∨ v.denote = .number (.fin 0) := by
    simpa [isZero] using h
  have hn : v.isNumber = true := hd.elim isNumber_of_denote isNumber_of_denote
  rw [denote_eq_number hn] at hd
  simpa [hn] using hd

theorem sameValue_of_numbers {v u : JsValue} (hv : v.isNumber = true) (hu : u.isNumber = true) :
    sameValue v u = (v.getNumber.eq u.getNumber || (v.getNumber.isNan && u.getNumber.isNan)) := by
  simp only [sameValue, hv, hu, Bool.not_true, Bool.false_eq_true, if_true, if_false]
  cases v.getNumber.eq u.getNumber <;> rfl

theorem sameValue_iff {v u : JsValue} :
    sameValue v u = true ↔ v.denote = u.denote ∨ (v.isZero = true ∧ u.isZero = true) := by
  constructor
  · intro h
    by_cases hz : v.isZero = true ∧ u.isZero = true
    · exact .inr hz
    · exact .inl (denote_eq_of_sameValue h hz)
  · rintro (h | ⟨hv, hu⟩)
    · by_cases hn : v.isNumber = true
      · have hu := isNumber_of_denote (h.symm.trans (denote_eq_number hn))
        rw [denote_eq_number hn, denote_eq_number hu] at h
        rw [sameValue_of_numbers hn hu, JsValue.Denotation.number.inj h]
        cases u.getNumber <;> simp [F64.eq, F64.isNan]
      · cases v <;> cases u <;> simp_all [denote, sameValue, isNumber, isObject]
    · obtain ⟨hn, hz⟩ := isNumber_of_isZero hv
      obtain ⟨hn', hz'⟩ := isNumber_of_isZero hu
      rw [sameValue_of_numbers hn hn']
      rcases hz with hz | hz <;> rcases hz' with hz' | hz' <;> rw [hz, hz'] <;> rfl

end JsValue

namespace StoredSlot

def property (accs : ℕ → Accessor) (s : StoredSlot) : JsProperty :=
  let a := s.attributes
  if a.accessor then
    match s.value with
    | .accessor c => .accessor (accs c).getter (accs c).setter a.enumerable a.configurable
    | _ => .accessor .undefined .undefined a.enumerable a.configurable
  else .data s.value.denote a.writable a.enumerable a.configurable

/-- The slot has a kind, and holds an accessor cell exactly when it is an accessor property. -/
structure Proper (s : StoredSlot) : Prop where
  typed : s.attributes.Typed
  cell : s.value.isAccessorCell = s.attributes.accessor

/-- What `[[DefineOwnProperty]]` does with a property that exists: apply the descriptor if it is
accepted. -/
def redefine (s : StoredSlot) (d : PropertyDescriptor) (throwable : Bool) : Vm (Bool × StoredSlot) := do
  let (accepted, returned) ← s.isDefinedPropertyAccepted d throwable
  if accepted then
    let s ← s.merge d
    return (returned, s)
  else
    return (returned, s)

/-- What `isDefinedPropertyAccepted` concludes: nothing to do, apply the descriptor, or refuse it. -/
inductive Verdict where
  | keep
  | apply
  | refuse
deriving DecidableEq

/-- The descriptor changes nothing. -/
def noEffect (accs : ℕ → Accessor) (s : StoredSlot) (d : PropertyDescriptor) : Bool :=
  let a := s.attributes
  (d.attrs.undefConfigurable || d.attrs.configurable == a.configurable) &&
  (d.attrs.undefEnumerable || d.attrs.enumerable == a.enumerable) &&
  (d.attrs.data == a.data && d.attrs.accessor == a.accessor) &&
  (if d.attrs.data then
    (d.attrs.undefWritable || d.attrs.writable == a.writable) &&
      (d.attrs.undefValue || JsValue.sameValue d.fst s.value)
  else if d.attrs.accessor then
    match s.value with
    | .accessor c => decide (d.fst = (accs c).getter) && decide (d.snd = (accs c).setter)
    | _ => false
  else true)

def kindVerdict (accs : ℕ → Accessor) (s : StoredSlot) (d : PropertyDescriptor) : Verdict :=
  let a := s.attributes
  if d.attrs.isGeneric then .apply
  else if a.data != d.attrs.data then if !a.configurable then .refuse else .apply
  else if a.data then
    if !a.configurable && !a.writable then
      if d.attrs.writable then .refuse
      else if !JsValue.sameValue s.value d.fst then .refuse
      else .apply
    else .apply
  else if !a.configurable then
    match s.value with
    | .accessor c =>
      if (!d.attrs.undefSetter && (accs c).setter != d.snd) ||
        (!d.attrs.undefGetter && (accs c).getter != d.fst) then .refuse
      else .apply
    | _ => .apply
  else .apply

/-- The verdict as the engine reaches it. -/
def verdict (accs : ℕ → Accessor) (s : StoredSlot) (d : PropertyDescriptor) : Verdict :=
  let a := s.attributes
  if d.attrs.isAbsent then .keep
  else if noEffect accs s d then .keep
  else if !a.configurable && d.attrs.configurable then .refuse
  else if !a.configurable && !d.attrs.undefEnumerable && a.enumerable != d.attrs.enumerable then .refuse
  else kindVerdict accs s d

/-- The outcome that goes with a verdict. -/
def Verdict.Yields (throwable : Bool) (w : World) (r : Result Fault World (Bool × Bool)) :
    Verdict → Prop
  | keep => r = .ok (false, true) w
  | apply => r = .ok (true, true) w
  | refuse => ∃ msg, r = Vm.reject throwable msg (false, false) w

variable {s : StoredSlot} {d : PropertyDescriptor}

theorem Proper.exists_cell (h : s.Proper) (ha : s.attributes.accessor = true) :
    ∃ c, s.value = .accessor c := by
  have hc := h.cell
  rw [ha] at hc
  cases hv : s.value <;> rw [hv] at hc <;> first | exact ⟨_, rfl⟩ | cases hc

theorem accessor_eq {c : ℕ} (ha : s.attributes.accessor = true) (hv : s.value = .accessor c) :
    s.accessor = pure c := by
  rw [accessor, if_pos ha, hv]

theorem absent_or_eq {u x y : Bool} : (u || x == y) = !(!u && x != y) := by
  cases u <;> cases x <;> cases y <;> rfl

theorem mergeWithNoEffect_eq (h : s.Proper) (d : PropertyDescriptor) (w : World) :
    s.mergeWithNoEffect d w = .ok (noEffect w.accessors s d) w := by
  unfold mergeWithNoEffect noEffect
  simp only [absent_or_eq]
  split
  · next hc => simp [hc]
  next hc =>
  split
  · next he => simp [he]
  next he =>
  rw [Bool.eq_false_of_not_eq_true hc, Bool.eq_false_of_not_eq_true he]
  split
  · next hk =>
    rw [Bool.or_eq_true, bne_iff_ne, bne_iff_ne] at hk
    rcases hk with hk | hk <;> simp [hk]
  next hk =>
  obtain ⟨hdata, hacc⟩ : d.attrs.data = s.attributes.data ∧
      d.attrs.accessor = s.attributes.accessor := by simpa using hk
  rw [hdata, hacc]
  split
  · next hd =>
    split
    · next hw => simp [hw]
    next hw =>
    rw [Bool.eq_false_of_not_eq_true hw]
    split
    · next hv => simp [hv]
    · next hv => simp [hv]
  next hd =>
  split
  · next ha =>
    obtain ⟨c, hv⟩ := h.exists_cell ha
    rw [accessor_eq ha hv]
    simp [hv, ha, hd]
  · next ha => simp [ha, hd]

theorem Verdict.yields_reject (throwable : Bool) (msg : String) (w : World) :
    refuse.Yields throwable w (Vm.reject throwable msg (false, false) w) :=
  ⟨msg, rfl⟩

theorem Verdict.yields_ite {c : Prop} [Decidable c] {throwable : Bool} {w : World} {u v : Verdict}
    {x y : Vm (Bool × Bool)} (hx : c → u.Yields throwable w (x w))
    (hy : ¬ c → v.Yields throwable w (y w)) :
    (if c then u else v).Yields throwable w ((if c then x else y) w) := by
  split
  · next h => exact hx h
  · next h => exact hy h

theorem isDefinedPropertyAccepted_yields (h : s.Proper) (d : PropertyDescriptor) (throwable : Bool)
    (w : World) : (verdict w.accessors s d).Yields throwable w
      (s.isDefinedPropertyAccepted d throwable w) := by
  unfold isDefinedPropertyAccepted verdict kindVerdict
  refine Verdict.yields_ite (fun _ => rfl) fun _ => ?_
  rw [Exec.bind_of_ok (mergeWithNoEffect_eq h d w)]
  refine Verdict.yields_ite (fun _ => rfl) fun _ => ?_
  refine Verdict.yields_ite (fun _ => Verdict.yields_reject ..) fun _ => ?_
  refine Verdict.yields_ite (fun _ => Verdict.yields_reject ..) fun _ => ?_
  refine Verdict.yields_ite (fun _ => rfl) fun _ => ?_
  refine Verdict.yields_ite (fun _ => ?_) fun _ => ?_
  · exact Verdict.yields_ite (fun _ => Verdict.yields_reject ..) fun _ => rfl
  refine Verdict.yields_ite (fun _ => ?_) fun hd => ?_
  · refine Verdict.yields_ite (fun _ => ?_) fun _ => rfl
    refine Verdict.yields_ite (fun _ => Verdict.yields_reject ..) fun _ => ?_
    exact Verdict.yields_ite (fun _ => Verdict.yields_reject ..) fun _ => rfl
  refine Verdict.yields_ite (fun _ => ?_) fun _ => rfl
  -- an accessor property that cannot be configured
  have ha := h.typed.accessor_of_not_data hd
  obtain ⟨c, hv⟩ := h.exists_cell ha
  rw [accessor_eq ha hv, hv]
  exact Verdict.yields_ite (fun _ => Verdict.yields_reject ..) fun _ => rfl

/-! ### The verdict against the specification -/

/-- What the specification says of a property and the fields of a descriptor that got this verdict. -/
def Verdict.Judges (p : JsProperty) (f : Fields) : Verdict → Prop
  | keep => p.redefine f = some p
  | apply => p.redefine f = some (p.apply f)
  | refuse => p.redefine f = none

/-- The descriptor writes a zero over a zero of the other sign, and asks for no other change. -/
structure SwapsZeros (s : StoredSlot) (d : PropertyDescriptor) : Prop where
  slot : s.attributes.data = true
  data : d.attrs.data = true
  present : d.attrs.undefValue = false
  old : s.value.isZero = true
  new : d.fst.isZero = true
  ne : d.fst.denote ≠ s.value.denote
  configurable : d.attrs.undefConfigurable = true ∨ d.attrs.configurable = s.attributes.configurable
  enumerable : d.attrs.undefEnumerable = true ∨ d.attrs.enumerable = s.attributes.enumerable
  writable : d.attrs.undefWritable = true ∨ d.attrs.writable = s.attributes.writable

/-- The descriptor makes a data property of an accessor property, and has no value. -/
structure KeepsCell (s : StoredSlot) (d : PropertyDescriptor) : Prop where
  slot : s.attributes.accessor = true
  configurable : s.attributes.configurable = true
  data : d.attrs.data = true
  absent : d.attrs.undefValue = true

variable {accs : ℕ → Accessor}

theorem property_of_data (hd : s.attributes.accessor = false) :
    s.property accs = .data s.value.denote s.attributes.writable s.attributes.enumerable
      s.attributes.configurable := by
  unfold property
  simp [hd]

theorem property_of_accessor {c : ℕ} (ha : s.attributes.accessor = true) (hv : s.value = .accessor c) :
    s.property accs = .accessor (accs c).getter (accs c).setter s.attributes.enumerable
      s.attributes.configurable := by
  unfold property
  simp [ha, hv]

theorem property_configurable : (s.property accs).configurable = s.attributes.configurable := by
  unfold property
  dsimp only
  split
  · split <;> rfl
  · rfl

theorem property_enumerable : (s.property accs).enumerable = s.attributes.enumerable := by
  unfold property
  dsimp only
  split
  · split <;> rfl
  · rfl

end StoredSlot

namespace PropertyDescriptor.WellFormed

variable {d : PropertyDescriptor}

theorem isAccessor_fields (h : d.WellFormed) : d.fields.isAccessor = d.attrs.accessor := by
  unfold Fields.isAccessor fields
  cases ha : d.attrs.accessor with
  | false => rfl
  | true => rcases h.accessor ha with hu | hu <;> simp [hu]

theorem isData_fields (h : d.WellFormed) : d.fields.isData = d.attrs.data := by
  unfold Fields.isData fields
  cases hd : d.attrs.data with
  | false => rfl
  | true => rcases h.data hd with hu | hu <;> simp [hu]

theorem isGeneric_eq (h : d.WellFormed) :
    d.attrs.isGeneric = (!d.attrs.data && !d.attrs.accessor) := by
  rw [AttrExternal.isGeneric, h.not_empty, Bool.not_false, Bool.and_true]

theorem of_accessor (h : d.WellFormed) (ha : d.attrs.accessor = true) :
    d.attrs.data = false ∧ d.attrs.isGeneric = false := by
  have hd : d.attrs.data = false := by
    by_contra hd
    rw [h.kind (by simpa using hd)] at ha
    cases ha
  refine ⟨hd, ?_⟩
  rw [h.isGeneric_eq, ha, Bool.not_true, Bool.and_false]

theorem any_configurable (h : d.WellFormed) :
    d.fields.configurable.any id = d.attrs.configurable := by
  unfold fields
  cases hu : d.attrs.undefConfigurable with
  | true => rw [h.configurable hu]; rfl
  | false => rfl

theorem any_writable (h : d.WellFormed) (hd : d.attrs.data = true) :
    d.fields.writable.any id = d.attrs.writable := by
  unfold fields
  cases hu : d.attrs.undefWritable with
  | true => rw [h.writable hu, hd]; rfl
  | false => rw [hd]; rfl

theorem any_enumerable (d : PropertyDescriptor) (e : Bool) :
    d.fields.enumerable.any (· != e) = (!d.attrs.undefEnumerable && e != d.attrs.enumerable) := by
  unfold fields
  cases d.attrs.undefEnumerable with
  | true => rfl
  | false => exact bne_comm

theorem any_value (hd : d.attrs.data = true) (v : JsValue.Denotation) :
    d.fields.value.any (· != v) = (!d.attrs.undefValue && d.fst.denote != v) := by
  unfold fields
  cases d.attrs.undefValue <;> simp [hd]

theorem any_get (ha : d.attrs.accessor = true) (g : JsValue) :
    d.fields.get.any (· != g) = (!d.attrs.undefGetter && g != d.fst) := by
  unfold fields
  cases d.attrs.undefGetter <;> simp [ha, bne_comm]

theorem any_set (ha : d.attrs.accessor = true) (t : JsValue) :
    d.fields.set.any (· != t) = (!d.attrs.undefSetter && t != d.snd) := by
  unfold fields
  cases d.attrs.undefSetter <;> simp [ha, bne_comm]

end PropertyDescriptor.WellFormed

namespace StoredSlot

variable {s : StoredSlot} {d : PropertyDescriptor} {accs : ℕ → Accessor}

theorem Verdict.judges_ite {c : Prop} [Decidable c] {p : JsProperty} {f : Fields} {u v : Verdict}
    (hu : c → u.Judges p f) (hv : ¬ c → v.Judges p f) : (if c then u else v).Judges p f := by
  split
  · next h => exact hu h
  · next h => exact hv h

theorem within_of_noEffect (h : s.Proper) (hd : d.WellFormed) (hn : noEffect accs s d = true) :
    d.fields.Within (s.property accs).fields ↔ ¬ SwapsZeros s d := by
  unfold noEffect at hn
  simp only [Bool.and_eq_true, Bool.or_eq_true, beq_iff_eq] at hn
  obtain ⟨⟨⟨hc, he⟩, hdata, hacc⟩, hv⟩ := hn
  have henum : d.fields.enumerable = none ∨ d.fields.enumerable = some s.attributes.enumerable := by
    rcases he with he | he <;> simp [PropertyDescriptor.fields, he]
  have hconf : d.fields.configurable = none ∨
      d.fields.configurable = some s.attributes.configurable := by
    rcases hc with hc | hc <;> simp [PropertyDescriptor.fields, hc]
  cases hds : d.attrs.data with
  | true =>
    rw [if_pos hds, Bool.and_eq_true, Bool.or_eq_true, Bool.or_eq_true, beq_iff_eq] at hv
    have hna := hd.kind hds
    rw [property_of_data (hacc ▸ hna)]
    constructor
    · intro hw hz
      rcases hw.value with hv' | hv'
      · simp [PropertyDescriptor.fields, hds, hz.present] at hv'
      · simp only [PropertyDescriptor.fields, hds, hz.present, JsProperty.fields] at hv'
        exact hz.ne (by simpa using hv')
    · intro hz
      refine ⟨?_, ?_, .inl (by simp [PropertyDescriptor.fields, hna]),
        .inl (by simp [PropertyDescriptor.fields, hna]), henum, hconf⟩
      · cases hu : d.attrs.undefValue with
        | true => exact .inl (by simp [PropertyDescriptor.fields, hu])
        | false =>
          have hval : d.fst.denote = s.value.denote := by
            by_contra hne
            rcases JsValue.sameValue_iff.mp (hv.2.resolve_left (by simp [hu])) with hv' | ⟨hz₁, hz₂⟩
            · exact hne hv'
            · exact hz ⟨hdata ▸ hds, hds, hu, hz₂, hz₁, hne, hc, he, hv.1⟩
          exact .inr (by simp [PropertyDescriptor.fields, hu, hds, hval, JsProperty.fields])
      · rcases hv.1 with hw | hw
        · exact .inl (by simp [PropertyDescriptor.fields, hw])
        · cases hu : d.attrs.undefWritable with
          | true => exact .inl (by simp [PropertyDescriptor.fields, hu])
          | false => exact .inr (by simp [PropertyDescriptor.fields, hu, hds, hw, JsProperty.fields])
  | false =>
    have ha : s.attributes.accessor = true :=
      h.typed.accessor_of_not_data (by rw [← hdata, hds]; exact Bool.false_ne_true)
    obtain ⟨c, hvc⟩ := h.exists_cell ha
    rw [if_neg (by simp [hds]), if_pos (hacc ▸ ha), hvc] at hv
    simp only [Bool.and_eq_true, decide_eq_true_eq] at hv
    rw [property_of_accessor ha hvc]
    refine iff_of_true ⟨.inl (by simp [PropertyDescriptor.fields, hds]),
      .inl (by simp [PropertyDescriptor.fields, hds]), ?_, ?_, henum, hconf⟩
      (fun hz => by rw [hz.data] at hds; cases hds)
    · cases hu : d.attrs.undefGetter with
      | true => exact .inl (by simp [PropertyDescriptor.fields, hu])
      | false =>
        exact .inr (by simp [PropertyDescriptor.fields, hu, hacc, ha, hv.1, JsProperty.fields])
    · cases hu : d.attrs.undefSetter with
      | true => exact .inl (by simp [PropertyDescriptor.fields, hu])
      | false =>
        exact .inr (by simp [PropertyDescriptor.fields, hu, hacc, ha, hv.2, JsProperty.fields])

theorem within_of_isAbsent (hd : d.WellFormed) (ha : d.attrs.isAbsent = true) (p : JsProperty) :
    d.fields.Within p.fields := by
  simp only [AttrExternal.isAbsent, Bool.and_eq_true, hd.isGeneric_eq, Bool.not_eq_true'] at ha
  obtain ⟨⟨hc, he⟩, hds, hacc⟩ := ha
  constructor <;> exact .inl (by simp [PropertyDescriptor.fields, hc, he, hds, hacc])

/-- A descriptor that has an effect on a property that is read-only and cannot be configured, in its
value or in its writability. -/
theorem value_of_not_noEffect (hn : noEffect accs s d = false) (hds : d.attrs.data = true)
    (hk : s.attributes.data = d.attrs.data) (ha : d.attrs.accessor = s.attributes.accessor)
    (hconf : d.attrs.configurable = s.attributes.configurable)
    (henum : d.attrs.undefEnumerable = true ∨ d.attrs.enumerable = s.attributes.enumerable)
    (hw : d.attrs.writable = s.attributes.writable) :
    d.attrs.undefValue = false ∧ JsValue.sameValue d.fst s.value = false := by
  unfold noEffect at hn
  dsimp only at hn
  rw [hconf, hk, ha, if_pos hds, hw] at hn
  rcases henum with henum | henum <;> simpa [henum] using hn

/-- What both kinds of property have may be changed: it is configurable, or the descriptor does not ask
for a change. -/
def Free (s : StoredSlot) (d : PropertyDescriptor) : Prop :=
  s.attributes.configurable = false → d.attrs.configurable = false ∧
    (d.attrs.undefEnumerable = true ∨ d.attrs.enumerable = s.attributes.enumerable)

theorem Free.common (h : Free s d) (hd : d.WellFormed) (hconf : s.attributes.configurable = false) :
    d.fields.configurable.any id = false ∧
      d.fields.enumerable.any (· != s.attributes.enumerable) = false := by
  rw [hd.any_configurable, PropertyDescriptor.WellFormed.any_enumerable]
  obtain ⟨hc, he | he⟩ := h hconf
  · exact ⟨hc, by rw [he]; rfl⟩
  · exact ⟨hc, by rw [he, bne_self_eq_false, Bool.and_false]⟩

theorem kindVerdict_judges_data (ha : s.attributes.accessor = false) (h : s.Proper)
    (hd : d.WellFormed) (hn : noEffect accs s d = false) (hfree : Free s d) :
    (kindVerdict accs s d).Judges (s.property accs) d.fields := by
  have hsd : s.attributes.data = true := by rw [h.typed.data_or_accessor, ha, Bool.not_false]
  unfold kindVerdict
  dsimp only
  rw [property_of_data ha, hsd]
  have hok (hs : d.attrs.accessor = false) (hv : s.attributes.configurable = false →
      s.attributes.writable = false → d.fields.writable.any id = false ∧
        d.fields.value.any (· != s.value.denote) = false) :
      Verdict.apply.Judges (.data s.value.denote s.attributes.writable s.attributes.enumerable
        s.attributes.configurable) d.fields := by
    refine JsProperty.redefine_eq_some fun hn => ?_
    obtain ⟨hconf, hn⟩ := JsProperty.redefine_data_eq_none.mp hn
    rw [(hfree.common hd hconf).1, (hfree.common hd hconf).2, hd.isAccessor_fields, hs] at hn
    simp only [Bool.false_eq_true, false_or] at hn
    rw [(hv hconf hn.1).1, (hv hconf hn.1).2] at hn
    simpa using hn.2
  refine Verdict.judges_ite (fun hg => ?_) fun hg => ?_
  · rw [hd.isGeneric_eq, Bool.and_eq_true, Bool.not_eq_true', Bool.not_eq_true'] at hg
    exact hok hg.2 fun _ _ => by simp [PropertyDescriptor.fields, hg.1]
  refine Verdict.judges_ite (fun hk => ?_) fun hk => ?_
  · have hds : d.attrs.data = false := by simpa using hk
    have hda : d.attrs.accessor = true := by
      simpa [hd.isGeneric_eq, hds] using hg
    refine Verdict.judges_ite (fun hconf => ?_) fun hconf => ?_
    · refine JsProperty.redefine_data_eq_none.mpr ⟨by simpa using hconf, .inr (.inr (.inl ?_))⟩
      rw [hd.isAccessor_fields, hda]
    · refine JsProperty.redefine_eq_some fun hn => ?_
      simp [(JsProperty.redefine_data_eq_none.mp hn).1] at hconf
  have hds : d.attrs.data = true := by simpa using hk
  have hda := hd.kind hds
  rw [if_pos rfl]
  refine Verdict.judges_ite (fun hro => ?_) fun hro => hok hda fun hconf hw => ?_
  · rw [Bool.and_eq_true, Bool.not_eq_true', Bool.not_eq_true'] at hro
    refine Verdict.judges_ite (fun hw => ?_) fun hw => ?_
    · refine JsProperty.redefine_data_eq_none.mpr
        ⟨hro.1, .inr (.inr (.inr ⟨hro.2, .inl ?_⟩))⟩
      rw [hd.any_writable hds, hw]
    have hw : d.attrs.writable = false := by simpa using hw
    -- there is an effect, so it is the value that is not the same
    obtain ⟨hdc, hde⟩ := hfree hro.1
    obtain ⟨hu, hne⟩ := value_of_not_noEffect hn hds (hsd.trans hds.symm) (hda.trans ha.symm)
      (hdc.trans hro.1.symm) hde (hw.trans hro.2.symm)
    rw [if_pos (by rw [JsValue.sameValue_comm, hne, Bool.not_false])]
    refine JsProperty.redefine_data_eq_none.mpr ⟨hro.1, .inr (.inr (.inr ⟨hro.2, .inr ?_⟩))⟩
    rw [PropertyDescriptor.WellFormed.any_value hds, hu, Bool.not_false, Bool.true_and, bne_iff_ne]
    intro heq
    rw [JsValue.sameValue_iff.mpr (.inl heq)] at hne
    cases hne
  · simp [hconf, hw] at hro

theorem kindVerdict_judges_accessor (ha : s.attributes.accessor = true) (h : s.Proper)
    (hd : d.WellFormed) (hfree : Free s d) :
    (kindVerdict accs s d).Judges (s.property accs) d.fields := by
  have hsd : s.attributes.data = false := by rw [h.typed.data_or_accessor, ha, Bool.not_true]
  obtain ⟨c, hv⟩ := h.exists_cell ha
  unfold kindVerdict
  dsimp only
  rw [property_of_accessor ha hv, hsd, hv]
  -- the descriptor stays with accessors and asks for no other functions if it may not
  have hok (hs : d.attrs.data = false) (hv : s.attributes.configurable = false →
      d.fields.get.any (· != (accs c).getter) = false ∧
        d.fields.set.any (· != (accs c).setter) = false) :
      Verdict.apply.Judges (.accessor (accs c).getter (accs c).setter s.attributes.enumerable
        s.attributes.configurable) d.fields := by
    refine JsProperty.redefine_eq_some fun hn => ?_
    obtain ⟨hconf, hn⟩ := JsProperty.redefine_accessor_eq_none.mp hn
    rw [(hfree.common hd hconf).1, (hfree.common hd hconf).2, hd.isData_fields, hs, (hv hconf).1, (hv hconf).2] at hn
    simp at hn
  refine Verdict.judges_ite (fun hg => ?_) fun hg => ?_
  · rw [hd.isGeneric_eq, Bool.and_eq_true, Bool.not_eq_true', Bool.not_eq_true'] at hg
    exact hok hg.1 fun _ => by simp [PropertyDescriptor.fields, hg.2]
  refine Verdict.judges_ite (fun hk => ?_) fun hk => ?_
  · -- a change to a data property
    have hds : d.attrs.data = true := by simpa using hk
    refine Verdict.judges_ite (fun hconf => ?_) fun hconf => ?_
    · refine JsProperty.redefine_accessor_eq_none.mpr ⟨by simpa using hconf, .inr (.inr (.inl ?_))⟩
      rw [hd.isData_fields, hds]
    · refine JsProperty.redefine_eq_some fun hn => ?_
      simp [(JsProperty.redefine_accessor_eq_none.mp hn).1] at hconf
  have hds : d.attrs.data = false := by simpa using hk
  have hda : d.attrs.accessor = true := by simpa [hd.isGeneric_eq, hds] using hg
  rw [if_neg Bool.false_ne_true]
  refine Verdict.judges_ite (fun hconf => ?_) fun hconf => hok hds fun hconf' => ?_
  · refine Verdict.judges_ite (fun hcell => ?_) fun hcell => hok hds fun _ => ?_
    · refine JsProperty.redefine_accessor_eq_none.mpr ⟨by simpa using hconf, ?_⟩
      rw [PropertyDescriptor.WellFormed.any_get hda, PropertyDescriptor.WellFormed.any_set hda]
      exact .inr (.inr (.inr ((Bool.or_eq_true _ _).mp hcell).symm))
    · rw [PropertyDescriptor.WellFormed.any_get hda, PropertyDescriptor.WellFormed.any_set hda]
      rw [Bool.not_eq_true, Bool.or_eq_false_iff] at hcell
      exact hcell.symm
  · simp [hconf'] at hconf

theorem verdict_judges (h : s.Proper) (hd : d.WellFormed) (hz : ¬ SwapsZeros s d) :
    (verdict accs s d).Judges (s.property accs) d.fields := by
  unfold verdict
  refine Verdict.judges_ite (fun ha => ?_) fun _ => ?_
  · exact JsProperty.redefine_eq_some_self.mpr (within_of_isAbsent hd ha _)
  refine Verdict.judges_ite (fun hn => ?_) fun hn => ?_
  · exact JsProperty.redefine_eq_some_self.mpr ((within_of_noEffect h hd hn).mpr hz)
  refine Verdict.judges_ite (fun hc => ?_) fun hc => ?_
  · rw [Bool.and_eq_true, Bool.not_eq_true'] at hc
    refine JsProperty.redefine_eq_none (property_configurable.trans hc.1) ?_
    rw [hd.any_configurable, hc.2, Bool.true_or]
  refine Verdict.judges_ite (fun he => ?_) fun he => ?_
  · rw [Bool.and_assoc, Bool.and_eq_true, Bool.not_eq_true'] at he
    refine JsProperty.redefine_eq_none (property_configurable.trans he.1) ?_
    rw [PropertyDescriptor.WellFormed.any_enumerable, property_enumerable, he.2, Bool.or_true]
  -- past these tests, what all properties have in common may be changed
  have hfree : Free s d := by
    intro hconf
    rw [hconf] at hc he
    have hc : d.attrs.configurable = false := by simpa using hc
    refine ⟨hc, ?_⟩
    cases hu : d.attrs.undefEnumerable with
    | true => exact .inl rfl
    | false =>
      have he : s.attributes.enumerable = d.attrs.enumerable := by simpa [hu] using he
      exact .inr he.symm
  cases ha : s.attributes.accessor with
  | false => exact kindVerdict_judges_data ha h hd (Bool.eq_false_of_not_eq_true hn) hfree
  | true => exact kindVerdict_judges_accessor ha h hd hfree

/-! ### Merging against the specification -/

def OnlyCell (s : StoredSlot) (w w' : World) : Prop :=
  ∃ acc n, w' = { w with accessors := acc, nextAccessor := n } ∧
    ∀ c, c < w.nextAccessor → s.value ≠ .accessor c → acc c = w.accessors c

theorem OnlyCell.refl (s : StoredSlot) (w : World) : s.OnlyCell w w :=
  ⟨w.accessors, w.nextAccessor, rfl, fun _ _ _ => rfl⟩

theorem getD_enumerable (d : PropertyDescriptor) (e : Bool) :
    d.fields.enumerable.getD e = if d.attrs.undefEnumerable then e else d.attrs.enumerable := by
  unfold PropertyDescriptor.fields
  cases d.attrs.undefEnumerable <;> rfl

theorem getD_configurable (d : PropertyDescriptor) (c : Bool) :
    d.fields.configurable.getD c =
      if d.attrs.undefConfigurable then c else d.attrs.configurable := by
  unfold PropertyDescriptor.fields
  cases d.attrs.undefConfigurable <;> rfl

theorem mergeAttrs_fields (s : StoredSlot) (d : PropertyDescriptor) :
    (mergeAttrs s.attributes d).enumerable = d.fields.enumerable.getD s.attributes.enumerable ∧
      (mergeAttrs s.attributes d).configurable =
        d.fields.configurable.getD s.attributes.configurable := by
  rw [getD_enumerable, getD_configurable]
  exact (mergeAttrs_common s.attributes d).symm

theorem merge_generic (hg : d.attrs.isGeneric = true) (w : World) :
    s.merge d w = .ok { s with attributes := mergeAttrs s.attributes d } w := by
  unfold merge
  rw [if_pos hg]
  rfl

theorem merge_data (hg : d.attrs.isGeneric = false) (hd : d.attrs.data = true) (w : World) :
    s.merge d w = .ok ⟨if d.attrs.undefValue then s.value else d.fst,
      mergeAttrs s.attributes d⟩ w := by
  unfold merge
  rw [if_neg (by simp [hg]), if_pos hd]
  rfl

def mergedCell (d : PropertyDescriptor) (ac : Accessor) : Accessor where
  getter := if d.attrs.undefGetter then ac.getter else d.fst
  setter := if d.attrs.undefSetter then ac.setter else d.snd

theorem modify_mergedCell (d : PropertyDescriptor) (c : ℕ) (v : StoredSlot) (w : World) :
    (do
      Vm.onlyIf (!d.attrs.undefGetter) (Vm.modifyAccessor c fun ac => { ac with getter := d.fst })
      Vm.onlyIf (!d.attrs.undefSetter) (Vm.modifyAccessor c fun ac => { ac with setter := d.snd })
      return v : Vm StoredSlot) w =
    .ok v { w with accessors := Function.update w.accessors c (mergedCell d (w.accessors c)) } := by
  unfold mergedCell Vm.onlyIf Vm.modifyAccessor
  cases d.attrs.undefGetter <;> cases d.attrs.undefSetter <;>
    simp [Exec.bind_apply, Function.update_idem]

theorem merge_accessor {c : ℕ} (hg : d.attrs.isGeneric = false) (hd : d.attrs.data = false)
    (ha : s.attributes.accessor = true) (hv : s.value = .accessor c) (w : World) :
    s.merge d w = .ok ⟨.accessor c, mergeAttrs s.attributes d⟩
      { w with accessors := Function.update w.accessors c (mergedCell d (w.accessors c)) } := by
  unfold merge mergeCell
  rw [if_neg (by simp [hg]), if_neg (by simp [hd])]
  simp only [ha, if_true, accessor_eq ha hv, hv]
  exact modify_mergedCell d c _ w

theorem merge_toAccessor (hg : d.attrs.isGeneric = false) (hd : d.attrs.data = false)
    (ha : s.attributes.accessor = false) (w : World) :
    s.merge d w = .ok ⟨.accessor w.nextAccessor, mergeAttrs s.attributes d⟩
      { w with
        accessors := Function.update w.accessors w.nextAccessor
          (mergedCell d ⟨.undefined, .undefined⟩)
        nextAccessor := w.nextAccessor + 1 } := by
  unfold merge mergeCell
  rw [if_neg (by simp [hg]), if_neg (by simp [hd])]
  simp only [ha, Bool.false_eq_true, if_false]
  refine (modify_mergedCell d w.nextAccessor _ _).trans ?_
  simp [Function.update_idem]

/-- What `merge` comes to: the property that the specification says, unless the accessor cell stays. -/
structure Merged (s : StoredSlot) (d : PropertyDescriptor) (w : World) (s' : StoredSlot)
    (w' : World) : Prop where
  frame : s.OnlyCell w w'
  cell : s'.value.isAccessorCell = s'.attributes.accessor
  property : s'.property w'.accessors = (s.property w.accessors).apply d.fields

theorem merged_generic (h : s.Proper) (hd : d.WellFormed) (hg : d.attrs.isGeneric = true)
    (w : World) : s.Merged d w { s with attributes := mergeAttrs s.attributes d } w := by
  obtain ⟨hacc, -, hw⟩ := mergeAttrs_kind s.attributes d
  obtain ⟨he, hc⟩ := mergeAttrs_fields s d
  rw [if_pos hg] at hacc hw
  rw [hd.isGeneric_eq, Bool.and_eq_true, Bool.not_eq_true', Bool.not_eq_true'] at hg
  refine ⟨.refl s w, h.cell.trans hacc.symm, ?_⟩
  cases ha : s.attributes.accessor with
  | false =>
    rw [property_of_data ha, property_of_data (hacc.trans ha)]
    dsimp only
    rw [he, hc, hw]
    unfold JsProperty.apply
    rw [hd.isAccessor_fields, hg.2]
    simp [PropertyDescriptor.fields, hg.1, JsProperty.enumerable, JsProperty.configurable]
  | true =>
    obtain ⟨c, hv⟩ := h.exists_cell ha
    rw [property_of_accessor ha hv,
      property_of_accessor (s := ⟨s.value, mergeAttrs s.attributes d⟩) (hacc.trans ha) hv]
    dsimp only
    rw [he, hc]
    unfold JsProperty.apply
    rw [hd.isData_fields, hg.1]
    simp [PropertyDescriptor.fields, hg.2, JsProperty.enumerable, JsProperty.configurable]

theorem merged_data (h : s.Proper) (hd : d.WellFormed) (hds : d.attrs.data = true)
    (hk : s.attributes.accessor = true → d.attrs.undefValue = false) (w : World) :
    s.Merged d w ⟨if d.attrs.undefValue then s.value else d.fst, mergeAttrs s.attributes d⟩ w := by
  obtain ⟨hacc, -, hw⟩ := mergeAttrs_kind s.attributes d
  obtain ⟨he, hc⟩ := mergeAttrs_fields s d
  have hg : d.attrs.isGeneric = false := by rw [hd.isGeneric_eq, hds]; rfl
  rw [hg, hds] at hacc hw
  simp only [Bool.false_eq_true, if_false, if_true, Bool.not_true] at hacc hw
  have hcell : (if d.attrs.undefValue then s.value else d.fst).isAccessorCell = false := by
    cases hu : d.attrs.undefValue with
    | true =>
      rw [if_pos rfl, h.cell]
      by_contra ha
      rw [hk (by simpa using ha)] at hu
      cases hu
    | false => exact (hd.value hu).2
  refine ⟨.refl s w, hcell.trans hacc.symm, ?_⟩
  rw [property_of_data hacc]
  dsimp only
  rw [he, hc, hw]
  cases ha : s.attributes.accessor with
  | false =>
    rw [property_of_data ha]
    unfold JsProperty.apply
    rw [hd.isAccessor_fields, hd.kind hds]
    cases hu : d.attrs.undefValue <;> cases hu' : d.attrs.undefWritable <;>
      simp [PropertyDescriptor.fields, hds, hu, hu', JsProperty.enumerable, JsProperty.configurable]
  | true =>
    obtain ⟨c, hv⟩ := h.exists_cell ha
    rw [property_of_accessor ha hv, h.typed.not_writable ha]
    unfold JsProperty.apply
    rw [hd.isData_fields, hds]
    cases hu' : d.attrs.undefWritable <;>
      simp [PropertyDescriptor.fields, hds, hk ha, hu', JsProperty.enumerable,
        JsProperty.configurable]

theorem merged_accessor {c : ℕ} (hd : d.WellFormed) (hda : d.attrs.accessor = true)
    (ha : s.attributes.accessor = true) (hv : s.value = .accessor c) (w : World) :
    s.Merged d w ⟨.accessor c, mergeAttrs s.attributes d⟩
      { w with accessors := Function.update w.accessors c (mergedCell d (w.accessors c)) } := by
  obtain ⟨hacc, -, -⟩ := mergeAttrs_kind s.attributes d
  obtain ⟨he, hc⟩ := mergeAttrs_fields s d
  obtain ⟨hds, hg⟩ := hd.of_accessor hda
  rw [hg, hds] at hacc
  refine ⟨⟨_, _, rfl, fun c' _ hne => Function.update_of_ne ?_ _ _⟩, hacc.symm, ?_⟩
  · rintro rfl
    exact hne hv
  rw [property_of_accessor ha hv, property_of_accessor (c := c) hacc rfl]
  dsimp only
  rw [he, hc, Function.update_self]
  unfold JsProperty.apply mergedCell
  rw [hd.isData_fields, hds]
  cases hg : d.attrs.undefGetter <;> cases hs : d.attrs.undefSetter <;>
    simp [PropertyDescriptor.fields, hda, hg, hs, JsProperty.enumerable, JsProperty.configurable]

theorem merged_toAccessor (hd : d.WellFormed) (hda : d.attrs.accessor = true)
    (ha : s.attributes.accessor = false) (w : World) :
    s.Merged d w ⟨.accessor w.nextAccessor, mergeAttrs s.attributes d⟩
      { w with
        accessors := Function.update w.accessors w.nextAccessor
          (mergedCell d ⟨.undefined, .undefined⟩)
        nextAccessor := w.nextAccessor + 1 } := by
  obtain ⟨hacc, -, -⟩ := mergeAttrs_kind s.attributes d
  obtain ⟨he, hc⟩ := mergeAttrs_fields s d
  obtain ⟨hds, hg⟩ := hd.of_accessor hda
  rw [hg, hds] at hacc
  refine ⟨⟨_, _, rfl, fun c' hlt _ => Function.update_of_ne hlt.ne _ _⟩, hacc.symm, ?_⟩
  rw [property_of_data ha, property_of_accessor (c := w.nextAccessor) hacc rfl]
  dsimp only
  rw [he, hc, Function.update_self]
  unfold JsProperty.apply mergedCell
  rw [hd.isAccessor_fields, hda]
  cases hg : d.attrs.undefGetter <;> cases hs : d.attrs.undefSetter <;>
    simp [PropertyDescriptor.fields, hda, hg, hs, JsProperty.enumerable, JsProperty.configurable]

/-- **Merging.** Unless an accessor property becomes a data property without a value, `merge` makes of
the property what the specification says. -/
theorem merge_merged (h : s.Proper) (hd : d.WellFormed)
    (hk : s.attributes.accessor = true → d.attrs.data = true → d.attrs.undefValue = false)
    (w : World) : ∃ s' w', s.merge d w = .ok s' w' ∧ s.Merged d w s' w' := by
  cases hg : d.attrs.isGeneric with
  | true => exact ⟨_, _, merge_generic hg w, merged_generic h hd hg w⟩
  | false =>
    cases hds : d.attrs.data with
    | true => exact ⟨_, _, merge_data hg hds w, merged_data h hd hds (fun ha => hk ha hds) w⟩
    | false =>
      have hda : d.attrs.accessor = true := by simpa [hd.isGeneric_eq, hds] using hg
      cases ha : s.attributes.accessor with
      | true =>
        obtain ⟨c, hv⟩ := h.exists_cell ha
        exact ⟨_, _, merge_accessor hg hds ha hv w, merged_accessor hd hda ha hv w⟩
      | false => exact ⟨_, _, merge_toAccessor hg hds ha w, merged_toAccessor hd hda ha w⟩

/-! ### The property that a descriptor creates -/

/-- `StoredSlot::new` creates the property that the specification says. -/
def Creates (d : PropertyDescriptor) (w : World) : Prop :=
  ∃ s' w', StoredSlot.new d w = .ok s' w' ∧ s'.value.isAccessorCell = s'.attributes.accessor ∧
    s'.property w'.accessors = .create d.fields

theorem getD_false {u b : Bool} (h : u = true → b = false) :
    (if u then none else some b).getD false = b := by
  cases u with
  | true => exact (h rfl).symm
  | false => rfl

theorem creates (hd : d.WellFormed) (w : World) : Creates d w := by
  unfold Creates StoredSlot.new
  dsimp only
  have he : d.fields.enumerable.getD false = d.attrs.enumerable := getD_false hd.enumerable
  have hc : d.fields.configurable.getD false = d.attrs.configurable := getD_false hd.configurable
  unfold JsProperty.create
  rw [hd.isAccessor_fields, he, hc]
  cases hds : d.attrs.data with
  | true =>
    have hw : d.fields.writable.getD false = d.attrs.writable := by
      have := hd.writable
      cases hu : d.attrs.undefWritable <;> simp_all [PropertyDescriptor.fields]
    refine ⟨_, w, rfl, ?_, ?_⟩
    · cases hu : d.attrs.undefValue with
      | true => rfl
      | false => exact (hd.value hu).2
    · rw [hd.kind hds, hw, property_of_data rfl]
      cases hu : d.attrs.undefValue <;>
        simp [PropertyDescriptor.fields, hds, hu, createData, AttrSafe.unSafe,
          AttrExternal.setConfigurable, AttrExternal.setEnumerable, AttrExternal.setWritable,
          AttrExternal.setData, AttrExternal.fillEnumerableAndConfigurable]
  | false =>
    cases hda : d.attrs.accessor with
    | true =>
      refine ⟨_, _, rfl, rfl, ?_⟩
      rw [property_of_accessor (c := w.nextAccessor) rfl rfl]
      have hg : d.fields.get.getD .undefined = d.fst := by
        unfold PropertyDescriptor.fields
        cases hu : d.attrs.undefGetter with
        | true => rw [hd.getter hda hu, Bool.not_true, Bool.and_false]; rfl
        | false => rw [hda]; rfl
      have hs : d.fields.set.getD .undefined = d.snd := by
        unfold PropertyDescriptor.fields
        cases hu : d.attrs.undefSetter with
        | true => rw [hd.setter hda hu, Bool.not_true, Bool.and_false]; rfl
        | false => rw [hda]; rfl
      rw [if_pos rfl, hg, hs]
      dsimp only
      rw [Function.update_self]
      rfl
    | false =>
      refine ⟨_, w, rfl, rfl, ?_⟩
      rw [property_of_data rfl]
      simp [PropertyDescriptor.fields, hds, createData, AttrSafe.unSafe,
        AttrExternal.setConfigurable, AttrExternal.setEnumerable, AttrExternal.setData,
        AttrExternal.fillEnumerableAndConfigurable]

/-! ### The main result -/

/-- The engine does to the slot what the specification does to the property that it stands for: it
refuses what the specification refuses, and what it comes to otherwise is the property that the
specification says, with an accessor cell exactly if it is an accessor property. -/
def Follows (s : StoredSlot) (d : PropertyDescriptor) (throwable : Bool) (w : World) : Prop :=
  match (s.property w.accessors).redefine d.fields with
  | none => ∃ msg, s.redefine d throwable w = Vm.reject throwable msg (false, s) w
  | some p => ∃ s' w', s.redefine d throwable w = .ok (true, s') w' ∧ s.OnlyCell w w' ∧
      s'.value.isAccessorCell = s'.attributes.accessor ∧ s'.property w'.accessors = p

theorem redefine_of_refuse {throwable : Bool} (h : s.Proper) (hv : verdict w.accessors s d = .refuse) :
    ∃ msg, s.redefine d throwable w = Vm.reject throwable msg (false, s) w := by
  have hy := isDefinedPropertyAccepted_yields h d throwable w
  rw [hv] at hy
  obtain ⟨msg, hr⟩ := hy
  refine ⟨msg, ?_⟩
  unfold redefine
  rw [Exec.bind_apply, hr]
  cases throwable <;> rfl

theorem redefine_of_keep (throwable : Bool) (h : s.Proper) (hv : verdict w.accessors s d = .keep) :
    s.redefine d throwable w = .ok (true, s) w := by
  have hy := isDefinedPropertyAccepted_yields h d throwable w
  rw [hv] at hy
  unfold redefine
  rw [Exec.bind_of_ok hy]
  rfl

theorem redefine_of_apply (throwable : Bool) (h : s.Proper)
    (hv : verdict w.accessors s d = .apply) {s' : StoredSlot} {w' : World} (hm : s.merge d w = .ok s' w') :
    s.redefine d throwable w = .ok (true, s') w' := by
  have hy := isDefinedPropertyAccepted_yields h d throwable w
  rw [hv] at hy
  unfold redefine
  rw [Exec.bind_of_ok hy]
  dsimp only
  rw [if_pos rfl, Exec.bind_of_ok hm]
  rfl

theorem verdict_of_swapsZeros (hz : SwapsZeros s d) (hs : s.Proper) (hd : d.WellFormed) :
    verdict accs s d = .keep ∧ noEffect accs s d = true := by
  have hn : noEffect accs s d = true := by
    have ha := hs.typed.not_accessor_of_data hz.slot
    unfold noEffect
    dsimp only
    rw [hz.data, hd.kind hz.data, hz.slot, ha, JsValue.sameValue_iff.mpr (.inr ⟨hz.new, hz.old⟩)]
    rcases hz.configurable with hc | hc <;> rcases hz.enumerable with he | he <;>
      rcases hz.writable with hw | hw <;> simp [hc, he, hw]
  refine ⟨?_, hn⟩
  unfold verdict
  rw [hn]
  split <;> rfl

theorem not_follows_of_swapsZeros {throwable : Bool} (hz : SwapsZeros s d) (h : s.Proper)
    (hd : d.WellFormed) : ¬ s.Follows d throwable w := by
  obtain ⟨hv, hn⟩ : verdict w.accessors s d = .keep ∧ noEffect w.accessors s d = true :=
    verdict_of_swapsZeros hz h hd
  have hr := redefine_of_keep throwable h hv
  intro hf
  unfold Follows at hf
  cases hp : (s.property w.accessors).redefine d.fields with
  | none =>
    rw [hp, hr] at hf
    obtain ⟨msg, hf⟩ := hf
    cases throwable <;> cases hf
  | some p =>
    rw [hp, hr] at hf
    obtain ⟨s', w', hf, -, -, hprop⟩ := hf
    cases hf
    exact (within_of_noEffect h hd hn).mp
      (JsProperty.redefine_eq_some_self.mp (hprop ▸ hp)) hz

theorem verdict_of_keepsCell (hk : KeepsCell s d) (h : s.Proper) (hd : d.WellFormed) :
    verdict accs s d = .apply := by
  have hsd : s.attributes.data = false := by
    rw [h.typed.data_or_accessor, hk.slot, Bool.not_true]
  have hg : d.attrs.isGeneric = false := by rw [hd.isGeneric_eq, hk.data]; rfl
  have ha : d.attrs.isAbsent = false := by rw [AttrExternal.isAbsent, hg, Bool.and_false]
  have hn : noEffect accs s d = false := by
    unfold noEffect
    dsimp only
    rw [hk.data, hsd]
    simp
  unfold verdict kindVerdict
  dsimp only
  rw [ha, hn, hk.configurable, hg, hk.data, hsd]
  rfl

theorem not_follows_of_keepsCell {throwable : Bool} (hk : KeepsCell s d) (h : s.Proper)
    (hd : d.WellFormed) : ¬ s.Follows d throwable w := by
  have hg : d.attrs.isGeneric = false := by rw [hd.isGeneric_eq, hk.data]; rfl
  have hr := redefine_of_apply throwable h (verdict_of_keepsCell hk h hd)
    (merge_data hg hk.data w)
  rw [hk.absent, if_pos rfl] at hr
  obtain ⟨hacc, -⟩ := mergeAttrs_kind s.attributes d
  rw [hg, if_neg Bool.false_ne_true, hk.data, Bool.not_true] at hacc
  intro hf
  unfold Follows at hf
  cases hp : (s.property w.accessors).redefine d.fields with
  | none =>
    rw [hp, hr] at hf
    obtain ⟨msg, hf⟩ := hf
    cases throwable <;> cases hf
  | some p =>
    rw [hp, hr] at hf
    obtain ⟨s', w', hf, -, hcell, -⟩ := hf
    cases hf
    rw [h.cell, hk.slot, hacc] at hcell
    cases hcell

/-- **Validation and application of a descriptor.** The engine follows the specification exactly when
the descriptor neither swaps zeros nor leaves an accessor cell in a data property. -/
theorem descriptor_validation {throwable : Bool} (h : s.Proper) (hd : d.WellFormed) :
    (s.Follows d throwable w ∧ Creates d w) ↔ ¬ SwapsZeros s d ∧ ¬ KeepsCell s d := by
  constructor
  · exact fun hf => ⟨fun hz => not_follows_of_swapsZeros hz h hd hf.1,
      fun hk => not_follows_of_keepsCell hk h hd hf.1⟩
  rintro ⟨hz, hk⟩
  refine ⟨?_, creates hd w⟩
  have hj : (verdict w.accessors s d).Judges (s.property w.accessors) d.fields :=
    verdict_judges h hd hz
  unfold Follows
  cases hv : verdict w.accessors s d with
  | keep =>
    rw [hv] at hj
    rw [show (s.property w.accessors).redefine d.fields = some _ from hj]
    exact ⟨s, w, redefine_of_keep throwable h hv, .refl s w, h.cell, rfl⟩
  | refuse =>
    rw [hv] at hj
    rw [show (s.property w.accessors).redefine d.fields = none from hj]
    exact redefine_of_refuse h hv
  | apply =>
    rw [hv] at hj
    have hj : (s.property w.accessors).redefine d.fields = some _ := hj
    have hk' : s.attributes.accessor = true → d.attrs.data = true → d.attrs.undefValue = false := by
      intro ha hds
      by_contra hu
      refine hk ⟨ha, ?_, hds, by simpa using hu⟩
      by_contra hc
      obtain ⟨c, hcell⟩ := h.exists_cell ha
      rw [property_of_accessor ha hcell, JsProperty.redefine_accessor_eq_none.mpr
        ⟨by simpa using hc, .inr (.inr (.inl (hd.isData_fields.trans hds)))⟩] at hj
      cases hj
    obtain ⟨s', w', hm, hmerged⟩ := merge_merged h hd hk' w
    rw [hj]
    exact ⟨s', w', redefine_of_apply throwable h hv hm, hmerged.frame, hmerged.cell, hmerged.property⟩

/-- `{ value: -0 }`. -/
def negZeroDescriptor : PropertyDescriptor :=
  .dataDescriptor (.double .negZero)
    { undefWritable := true, undefEnumerable := true, undefConfigurable := true }

theorem negZeroDescriptor_wellFormed : negZeroDescriptor.WellFormed :=
  (wellFormed_toPropertyDescriptor (by rintro v ⟨⟩; exact ⟨nofun, rfl⟩)
    (rfl : toPropertyDescriptor (some (.double .negZero)) none none none none none =
      some negZeroDescriptor)).1

theorem descriptor_validation_null :
    (⟨.null, objectData⟩ : StoredSlot).Follows negZeroDescriptor false uniqueWorld :=
  ((descriptor_validation ⟨createData_typed _, rfl⟩ negZeroDescriptor_wellFormed).mpr
    ⟨fun h => (by cases h.old), fun h => (by cases h.slot)⟩).1

/-- Negative zero is not written over zero. -/
theorem not_descriptor_validation :
    ¬ ∀ (s : StoredSlot) (d : PropertyDescriptor) (throwable : Bool) (w : World),
      s.Proper → d.WellFormed → s.Follows d throwable w := by
  intro h
  refine not_follows_of_swapsZeros ?_ ⟨createData_typed _, rfl⟩ negZeroDescriptor_wellFormed
    (h ⟨.int32 0, objectData⟩ negZeroDescriptor false uniqueWorld ⟨createData_typed _, rfl⟩
      negZeroDescriptor_wellFormed)
  exact ⟨rfl, rfl, rfl, rfl, rfl, by decide, .inl rfl, .inl rfl, .inl rfl⟩

end StoredSlot

end Starlight
