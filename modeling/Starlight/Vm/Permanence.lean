import Starlight.Vm.LookupSpec

/-!
# What stays of a property that cannot be configured

`SameProperty` relates a stored property to what has become of it: it is still there, it is still of
the same kind and as enumerable as before, an accessor has its getter and setter, and a data property
that was not writable has its value. `Permanent` says so of every named property of an object that
cannot be configured.

`Guard` adds this to the frame of an operation, and `Guards` is the form of specification that goes
with it. The flag `proper` says whether the descriptors in play are proper ones; a descriptor that is
one of data and of an accessor at once can replace a value by another one that `same_value` does not
tell apart.
-/

namespace Starlight

open JsObject World

/-- A descriptor of data is not one of an accessor. -/
def PropertyDescriptor.Proper (desc : PropertyDescriptor) : Prop :=
  desc.attrs.data = true → desc.attrs.accessor = false

variable {α β : Type} {P : Policy} {proper : Prop} {w w' w'' : World} {o : ℕ}

structure SameProperty (proper : Prop) (w w' : World) (s s' : StoredSlot) : Prop where
  configurable : s'.attributes.configurable = false
  enumerable : s'.attributes.enumerable = s.attributes.enumerable
  data : s'.attributes.data = s.attributes.data
  accessor : s'.attributes.accessor = s.attributes.accessor
  cell : s.attributes.accessor = true →
    s'.value = s.value ∧ ∀ c, s.value = .accessor c → w'.accessors c = w.accessors c
  writable : s.attributes.data = true → s.attributes.writable = false →
    s'.attributes.writable = false
  value : proper → s.attributes.data = true → s.attributes.writable = false → s'.value = s.value

theorem SameProperty.of_accessors {s : StoredSlot} (hc : s.attributes.configurable = false)
    (hacc : ∀ c, s.cell = some c → w'.accessors c = w.accessors c) :
    SameProperty proper w w' s s := by
  refine ⟨hc, rfl, rfl, rfl, fun ha => ⟨rfl, fun c hv => hacc c ?_⟩, fun _ hw => hw,
    fun _ _ _ => rfl⟩
  rw [StoredSlot.cell, if_pos ha, hv]

theorem SameProperty.congr {w₁ w₂ : World} {s s' : StoredSlot} (h : SameProperty proper w₁ w₂ s s')
    (hacc : w'.accessors = w.accessors) : SameProperty proper w w' s s' :=
  { h with cell := fun ha => ⟨(h.cell ha).1, fun c _ => by rw [hacc]⟩ }

theorem SameProperty.trans {s s' s'' : StoredSlot} (h : SameProperty proper w w' s s')
    (h' : SameProperty proper w' w'' s' s'') : SameProperty proper w w'' s s'' where
  configurable := h'.configurable
  enumerable := h'.enumerable.trans h.enumerable
  data := h'.data.trans h.data
  accessor := h'.accessor.trans h.accessor
  cell ha := by
    obtain ⟨hv, hacc⟩ := h.cell ha
    obtain ⟨hv', hacc'⟩ := h'.cell (h.accessor.trans ha)
    exact ⟨hv'.trans hv, fun c hc => (hacc' c (hv.trans hc)).trans (hacc c hc)⟩
  writable hd hw := h'.writable (h.data.trans hd) (h.writable hd hw)
  value hp hd hw := (h'.value hp (h.data.trans hd) (h.writable hd hw)).trans (h.value hp hd hw)

/-- The named properties of object `o` that cannot be configured are still there. -/
def Permanent (proper : Prop) (o : ℕ) (w w' : World) : Prop :=
  ∀ n s, namedSlot (w.table o) (w.objects o) n = some s → s.attributes.configurable = false →
    ∃ s', namedSlot (w'.table o) (w'.objects o) n = some s' ∧ SameProperty proper w w' s s'

theorem Permanent.trans (h : Permanent proper o w w') (h' : Permanent proper o w' w'') :
    Permanent proper o w w'' := by
  intro n s hs hc
  obtain ⟨s', hs', hsame⟩ := h n s hs hc
  obtain ⟨s'', hs'', hsame'⟩ := h' n s' hs' hsame.configurable
  exact ⟨s'', hs'', hsame.trans hsame'⟩

theorem Permanent.of_namedSlot
    (hslot : ∀ n, namedSlot (w'.table o) (w'.objects o) n = namedSlot (w.table o) (w.objects o) n)
    (hacc : ∀ n s c, namedSlot (w.table o) (w.objects o) n = some s →
      s.attributes.configurable = false → s.cell = some c → w'.accessors c = w.accessors c) :
    Permanent proper o w w' :=
  fun n s hs hc => ⟨s, (hslot n).trans hs, .of_accessors hc fun c => hacc n s c hs hc⟩

theorem Permanent.of_object {f : JsObject → JsObject}
    (hst : (f (w.objects o)).structure_ = (w.objects o).structure_)
    (hsl : (f (w.objects o)).slots = (w.objects o).slots) :
    Permanent proper o w { w with objects := Function.update w.objects o (f (w.objects o)) } := by
  refine .of_namedSlot (fun n => ?_) fun _ _ _ _ _ _ => rfl
  simp only [namedSlot, World.table, Function.update_self, hst, hsl]

theorem Permanent.of_others (name : Symbol) (hacc : w'.accessors = w.accessors)
    (hother : ∀ n s, n ≠ name → namedSlot (w.table o) (w.objects o) n = some s →
      namedSlot (w'.table o) (w'.objects o) n = some s)
    (hself : ∀ s, namedSlot (w.table o) (w.objects o) name = some s →
      s.attributes.configurable = false →
      ∃ s', namedSlot (w'.table o) (w'.objects o) name = some s' ∧ SameProperty proper w w' s s') :
    Permanent proper o w w' := by
  intro n s hs hc
  by_cases hn : n = name
  · subst hn
    exact hself s hs hc
  · exact ⟨s, hother n s hn hs, .of_accessors hc fun c _ => by rw [hacc]⟩

theorem World.SameObject.permanent (h : SameObject w w' o) : Permanent proper o w w' := by
  refine .of_namedSlot (fun n => by rw [h.table, h.object]) fun n s c hs _ hc => ?_
  refine h.accessor (.named n) c ?_
  rw [World.cellAt, JsObject.cellAt, slotAt, hs, Option.bind_some, hc]

theorem World.Read.permanent (h : Read P w w') (hw : w.Inv P) (ho : o < w.nextObject) :
    Permanent proper o w w' :=
  .of_namedSlot (fun n => by rw [h.table hw ho, h.objects]) fun _ _ _ _ _ _ => by rw [h.accessors]

/-- The frame of an operation on object `o` that keeps what cannot be configured. -/
structure World.Guard (P : Policy) (proper : Prop) (o : ℕ) (w w' : World) : Prop
    extends Touch P o w w' where
  permanent : o < w.nextObject → Permanent proper o w w'

theorem World.Guard.trans (h : Guard P proper o w w') (h' : Guard P proper o w' w'') :
    Guard P proper o w w'' :=
  ⟨h.toTouch.trans h'.toTouch, fun ho => (h.permanent ho).trans (h'.permanent (h.nextObject ▸ ho))⟩

theorem World.Read.guard (h : Read P w w') (hw : w.Inv P) (o : ℕ) : Guard P proper o w w' :=
  ⟨h.touch hw o, fun ho => h.permanent hw ho⟩

theorem World.Inv.guard_refl (h : w.Inv P) (o : ℕ) : Guard P proper o w w :=
  h.read_refl.guard h o

/-- The computation touches at most object `o`, keeps what cannot be configured about it, and a normal
end satisfies `R`. -/
def Guards (P : Policy) (proper : Prop) (o : ℕ) (w : World) (r : Result Fault World α)
    (R : α → World → Prop) : Prop :=
  r.Sat (fun a w' => Guard P proper o w w' ∧ R a w') fun _ w' => Guard P proper o w w'

theorem Guards.touches {r : Result Fault World α} {R : α → World → Prop}
    (h : Guards P proper o w r R) : Touches P o w r R :=
  Result.Sat.mono h (fun _ _ ha => ⟨ha.1.toTouch, ha.2⟩) fun _ _ he => he.toTouch

theorem Guards.mono {r : Result Fault World α} {R R' : α → World → Prop}
    (h : Guards P proper o w r R) (hR : ∀ a w', Guard P proper o w w' → R a w' → R' a w') :
    Guards P proper o w r R' :=
  Result.Sat.mono h (fun a w' ha => ⟨ha.1, hR a w' ha.1 ha.2⟩) fun _ _ he => he

theorem Reads.bind_guards (hw : w.Inv P) {x : Vm α} {f : α → Vm β} {R : α → Prop}
    {S : β → World → Prop} (hx : Reads P w (x w) R)
    (hf : ∀ a w', Read P w w' → R a → Guards P proper o w' (f a w') S) :
    Guards P proper o w ((x >>= f) w) S :=
  Result.Sat.bind
    (Result.Sat.mono hx (fun _ _ ha => ha) fun _ _ he => he.guard hw o)
    fun a w' ⟨hr, ha⟩ => Result.Sat.mono (hf a w' hr ha)
      (fun _ _ hb => ⟨(hr.guard hw o).trans hb.1, hb.2⟩) fun _ _ he => (hr.guard hw o).trans he

theorem Guards.bind {x : Vm α} {f : α → Vm β} {R : α → World → Prop} {S : β → World → Prop}
    (hx : Guards P proper o w (x w) R)
    (hf : ∀ a w', Guard P proper o w w' → R a w' → Guards P proper o w' (f a w') S) :
    Guards P proper o w ((x >>= f) w) S :=
  Result.Sat.bind hx fun a w' ⟨ht, ha⟩ => Result.Sat.mono (hf a w' ht ha)
    (fun _ _ hb => ⟨ht.trans hb.1, hb.2⟩) fun _ _ he => ht.trans he

theorem Reads.guards (hw : w.Inv P) {r : Result Fault World α} {R : α → Prop}
    (h : Reads P w r R) : Guards P proper o w r fun a _ => R a :=
  Result.Sat.mono h (fun _ _ ha => ⟨ha.1.guard hw o, ha.2⟩) fun _ _ he => he.guard hw o

theorem Guards.of_ok {a : α} {R : α → World → Prop} (ht : Touch P o w w')
    (hp : Permanent proper o w w') (hr : R a w') : Guards P proper o w (.ok a w') R :=
  ⟨⟨ht, fun _ => hp⟩, hr⟩

theorem Guards.pure (hw : w.Inv P) {a : α} {R : α → World → Prop} (h : R a w) :
    Guards P proper o w ((Pure.pure a : Vm α) w) R := ⟨hw.guard_refl o, h⟩

theorem Guards.fail (hw : w.Inv P) (e : Fault) (R : α → World → Prop) :
    Guards P proper o w ((Exec.fail e : Vm α) w) R := hw.guard_refl o

theorem Guards.ite {c : Prop} [Decidable c] {x y : Vm α} {R : α → World → Prop}
    (hx : c → Guards P proper o w (x w) R) (hy : ¬ c → Guards P proper o w (y w) R) :
    Guards P proper o w ((if c then x else y) w) R := by
  by_cases hc : c
  · rw [if_pos hc]; exact hx hc
  · rw [if_neg hc]; exact hy hc

end Starlight
