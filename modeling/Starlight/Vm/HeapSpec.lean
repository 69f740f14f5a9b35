import Starlight.Vm.Heap
import Starlight.Vm.ObjectSpec

/-!
# The invariant along runs

Every operation keeps the invariant of the heap, provided that a unique structure is never given to a
second object and that the length of a string object is not redefined. `HeapOk` is that condition on
the steps of a run.
-/

namespace Starlight

open JsObject World

variable {α β : Type} {P : Policy} {w w' : World} {o : ℕ}

/-! ### New objects -/

/-- Nothing happened to the objects there were. -/
structure Grow (P : Policy) (w w' : World) : Prop where
  inv : w'.Inv P
  nextObject_le : w.nextObject ≤ w'.nextObject
  nextAccessor_le : w.nextAccessor ≤ w'.nextAccessor
  nextStructure_le : w.shapes.nextStructure ≤ w'.shapes.nextStructure
  class_eq : ∀ b, b < w.nextObject → (w'.objects b).class_ = (w.objects b).class_
  frame : ∀ b, b < w.nextObject → SameObject w w' b
  stable : Stable w w'

theorem Grow.trans {w'' : World} (h : Grow P w w') (h' : Grow P w' w'') : Grow P w w'' where
  inv := h'.inv
  nextObject_le := h.nextObject_le.trans h'.nextObject_le
  nextAccessor_le := h.nextAccessor_le.trans h'.nextAccessor_le
  nextStructure_le := h.nextStructure_le.trans h'.nextStructure_le
  class_eq b hb := (h'.class_eq b (lt_of_lt_of_le hb h.nextObject_le)).trans (h.class_eq b hb)
  frame b hb := (h.frame b hb).trans (h'.frame b (lt_of_lt_of_le hb h.nextObject_le))
  stable := h.stable.trans h'.stable h.nextStructure_le

theorem Grow.touch {w'' : World} (h : Grow P w w') (ht : Touch P o w' w'')
    (ho : w.nextObject ≤ o) : Grow P w w'' where
  inv := ht.inv
  nextObject_le := ht.nextObject ▸ h.nextObject_le
  nextAccessor_le := h.nextAccessor_le.trans ht.nextAccessor_le
  nextStructure_le := h.nextStructure_le.trans ht.nextStructure_le
  class_eq b hb := (ht.class_eq b).trans (h.class_eq b hb)
  frame b hb := (h.frame b hb).trans
    (ht.frame b (lt_of_lt_of_le hb h.nextObject_le) (Nat.ne_of_lt (lt_of_lt_of_le hb ho)))
  stable := h.stable.trans ht.stable h.nextStructure_le

/-- The computation adds to the heap at most. -/
def Grows (P : Policy) (w : World) (r : Result Fault World α) (R : α → World → Prop) : Prop :=
  r.Sat (fun a w' => Grow P w w' ∧ R a w') fun _ w' => Grow P w w'

/-- The store `σ` with a new object. -/
def World.withObject (w : World) (σ : Shapes) (obj : JsObject) : World :=
  { w with shapes := σ
           objects := Function.update w.objects w.nextObject obj
           nextObject := w.nextObject + 1 }

def JsObject.fresh (σ : Shapes) (s : ℕ) (class_ : Class) : JsObject :=
  { class_ := class_, structure_ := s, indexed := .new
    slots := List.replicate (σ.storageCapacity s) .empty
    extensible := true, callable := class_ = .function, constructStruct := none }

theorem objectOk_fresh {σ : Shapes} {s : ℕ} {class_ : Class} (bound : ℕ) (hempty : P .empty)
    (hlen : P.noLength → overridesLength class_ → Symbol.length ∉ σ.view s) :
    ObjectOk P (σ.view s) (σ.storageCapacity s) bound (JsObject.fresh σ s class_) := by
  have hslot : ∀ {l t}, slotAt (σ.view s) (JsObject.fresh σ s class_) l = some t →
      t.value = .empty := by
    intro l t ht
    cases l with
    | sparse i => cases ht
    | named n =>
      obtain ⟨e, -, ht⟩ := Option.bind_eq_some_iff.mp ht
      obtain ⟨v, hv, rfl⟩ := Option.map_eq_some_iff.mp ht
      exact List.eq_of_mem_replicate (List.mem_of_getElem? hv)
  have hcell : ∀ {l c}, JsObject.cellAt (σ.view s) (JsObject.fresh σ s class_) l = some c → False := by
    intro l c hc
    obtain ⟨t, ht, hc⟩ := Option.bind_eq_some_iff.mp hc
    have := (StoredSlot.cell_eq_some.mp hc).2
    rw [hslot ht] at this
    cases this
  exact
    { slots := by simp [JsObject.fresh]
      accessor := fun hs _ => .inl (hslot hs)
      data := fun {n t} hs _ => by rw [hslot (l := .named n) hs]; exact hempty
      sparse_typed := fun hs => by cases hs
      cell_inj := fun hc => (hcell hc).elim
      no_length := hlen }

/-- **Creating an object** on a shared structure, or on a new one, keeps the invariant. -/
theorem World.Inv.grow_withObject (h : w.Inv P) {σ' : Shapes} {s : ℕ} {class_ : Class}
    (hempty : P .empty) (hinv : σ'.Inv fun r => r = s ∨ w.held r)
    (hnext : w.shapes.nextStructure ≤ σ'.nextStructure)
    (hshape : ∀ r, r < w.shapes.nextStructure → w.shapes.SameShape σ' r)
    (hs : σ'.Shared s ∨ w.shapes.nextStructure ≤ s)
    (hproto : ∀ r p, r < σ'.nextStructure → (σ'.structures r).prototype = some p →
      p < w.nextObject)
    (hlen : P.noLength → overridesLength class_ → Symbol.length ∉ σ'.view s) :
    Grow P w (w.withObject σ' (JsObject.fresh σ' s class_)) := by
  set w' := w.withObject σ' (JsObject.fresh σ' s class_) with hw'
  have hself : w'.objects w.nextObject = JsObject.fresh σ' s class_ := by
    simp [hw', World.withObject]
  have hother : ∀ {b}, b < w.nextObject → w'.objects b = w.objects b := by
    intro b hb
    simp [hw', World.withObject, Nat.ne_of_lt hb]
  have hcases : ∀ {b}, b < w'.nextObject → b < w.nextObject ∨ b = w.nextObject :=
    fun hb => Nat.lt_succ_iff_lt_or_eq.mp hb
  have hframe : ∀ b, b < w.nextObject → SameObject w w' b := fun b hb =>
    ⟨hother hb, hshape _ (h.live hb).1, fun _ _ _ => rfl⟩
  have hheld : ∀ r, w'.held r → r = s ∨ w.held r := by
    rintro r ⟨b, hb, rfl⟩
    rcases hcases hb with hb | rfl
    · exact .inr ⟨b, hb, by rw [hother hb]⟩
    · exact .inl (by rw [hself]; rfl)
  have hinv' : σ'.Inv w'.held := hinv.mono fun r hr =>
    ⟨hinv.held_lt (hheld r hr), .inr (hheld r hr)⟩
  have hlive' : ∀ {b}, b < w'.nextObject → σ'.Live w'.held (w'.objects b).structure_ :=
    fun hb => hinv'.held ⟨_, hb, rfl⟩
  have hnocell : ∀ l c, w'.cellAt w.nextObject l ≠ some c := by
    intro l c hc
    have hok := objectOk_fresh (P := P) (σ := σ') (s := s) 0 hempty hlen
    obtain ⟨t, ht, hc⟩ := World.cellAt_eq_some.mp hc
    rw [World.table, hself] at ht
    obtain ⟨ha, hv⟩ := StoredSlot.cell_eq_some.mp hc
    rcases hok.accessor ht ha with he | ⟨c', -, hlt⟩
    · rw [hv] at he; cases he
    · exact Nat.not_lt_zero _ hlt
  -- another object is not on `s` unless `s` is shared
  have hsep : ∀ {b}, b < w.nextObject → (w.objects b).structure_ = s → σ'.Shared s := by
    intro b hb hbs
    rcases hs with hsh | hge
    · exact hsh
    · have := (h.live hb).1; omega
  refine ⟨⟨hinv', ?_, ?_, fun {r p} hr hp => ?_, ?_⟩, Nat.le_succ _, le_rfl, hnext, ?_, hframe, ?_⟩
  case refine_1 =>
    intro b b' hb hb' heq hu
    rcases hcases hb with hb | rfl <;> rcases hcases hb' with hb' | rfl
    · rw [hother hb, hother hb'] at heq
      rw [hother hb] at hu
      exact h.sole hb hb' heq fun hsh => hu ((hshape _ (h.live hb).1).shared.mpr hsh)
    · rw [hother hb, hself] at heq
      rw [hother hb] at hu
      exact absurd (heq ▸ hsep hb heq) hu
    · rw [hother hb', hself] at heq
      rw [hself] at hu
      exact absurd (hsep hb' heq.symm) hu
    · rfl
  case refine_2 =>
    intro b hb
    rcases hcases hb with hb | rfl
    · have hsame := hframe b hb
      have hcap : w'.capacity b = w.capacity b := by
        have hl' := hlive' (b := b) (Nat.lt_succ_of_lt hb)
        rw [World.capacity, hother hb, World.capacity]
        rw [hother hb] at hl'
        exact storageCapacity_eq h.shapes hinv' (h.live hb) hl' hsame.shape
      rw [hsame.table, hcap, hother hb]
      exact h.ok hb
    · rw [World.table, World.capacity, hself]
      exact objectOk_fresh _ hempty hlen
  case refine_3 => exact Nat.lt_succ_of_lt (hproto r p hr hp)
  case refine_4 =>
    intro b b' l l' c hb hb' hne hc hc'
    rcases hcases hb with hb | rfl
    · rcases hcases hb' with hb' | rfl
      · rw [(hframe b hb).cellAt] at hc
        rw [(hframe b' hb').cellAt] at hc'
        exact h.cells hb hb' hne hc hc'
      · exact hnocell l' c hc'
    · exact hnocell l c hc
  case refine_5 => exact fun b hb => by rw [hother hb]
  case refine_6 =>
    intro r hr hl
    have hview : ∀ n e, (w.shapes.view r).lookup n = some e →
        (w'.shapes.view r).lookup n = some e := fun n e hn => by
      change (σ'.view r).lookup n = some e
      rw [(hshape r hr).view]
      exact hn
    refine ⟨⟨hr, ?_⟩, hview⟩
    rcases hl.2 with hsh | hheld'
    · exact .inl ((hshape r hr).shared.mp hsh)
    · rcases hheld r hheld' with rfl | hheld'
      · rcases hs with hsh | hge
        · exact .inl ((hshape r hr).shared.mp hsh)
        · omega
      · exact .inr hheld'

theorem World.Inv.newRoot (h : w.Inv P) (prototype : Option ℕ) (unique indexed : Bool)
    {L' : ℕ → Prop} (hL : ∀ r, L' r → r = w.shapes.nextStructure ∨ w.held r) :
    (w.shapes.ctor1 prototype unique indexed).2.Inv L' ∧
      (∀ r, r < w.shapes.nextStructure →
        w.shapes.SameShape (w.shapes.ctor1 prototype unique indexed).2 r) ∧
      (w.shapes.ctor1 prototype unique indexed).2.view w.shapes.nextStructure = ∅ :=
  h.shapes.newRoot prototype unique indexed L' hL

theorem World.Inv.proto_ctor1 (h : w.Inv P) {prototype : Option ℕ}
    (hp : ∀ p, prototype = some p → p < w.nextObject) (unique indexed : Bool) (r p : ℕ)
    (hr : r < (w.shapes.ctor1 prototype unique indexed).2.nextStructure)
    (hpr : ((w.shapes.ctor1 prototype unique indexed).2.structures r).prototype = some p) :
    p < w.nextObject := by
  unfold Shapes.ctor1 at hr hpr
  rcases Nat.lt_succ_iff_lt_or_eq.mp hr with hr | rfl
  · rw [Shapes.structures_alloc_of_lt _ _ hr] at hpr
    exact h.proto_lt hr hpr
  · rw [Shapes.structures_alloc_new] at hpr
    exact hp p hpr

theorem World.Inv.grow_newStructure (h : w.Inv P) {prototype : Option ℕ}
    (hp : ∀ p, prototype = some p → p < w.nextObject) (indexed : Bool) :
    Grow P w { w with shapes := (w.shapes.newIndexed prototype indexed).2 } := by
  obtain ⟨hinv, hshape, -⟩ := h.newRoot prototype false indexed fun r hr => .inr hr
  refine ⟨⟨hinv, fun ho ho' heq hu => ?_, fun {b} hb => ?_, fun {r p} hr hpr => ?_, ?_⟩, le_rfl, le_rfl,
    Nat.le_succ _, fun _ _ => rfl, fun b hb => ⟨rfl, hshape _ (h.live hb).1, fun _ _ _ => rfl⟩, ?_⟩
  case refine_1 => exact h.sole ho ho' heq fun hsh => hu ((hshape _ (h.live ho).1).shared.mpr hsh)
  case refine_2 =>
    have hsh := hshape _ (h.live hb).1
    have htab : World.table { w with shapes := (w.shapes.newIndexed prototype indexed).2 } b =
        w.table b := hsh.view
    have hcap : World.capacity { w with shapes := (w.shapes.newIndexed prototype indexed).2 } b =
        w.capacity b :=
      storageCapacity_eq h.shapes hinv (h.live hb) (hinv.held ⟨b, hb, rfl⟩) hsh
    rw [htab, hcap]
    exact h.ok hb
  case refine_3 => exact h.proto_ctor1 hp false indexed r p hr hpr
  case refine_4 =>
    intro b b' l l' c hb hb' hne hc
    have htab : ∀ {b}, b < w.nextObject →
        World.table { w with shapes := (w.shapes.newIndexed prototype indexed).2 } b = w.table b :=
      fun hb => (hshape _ (h.live hb).1).view
    rw [World.cellAt, htab hb] at hc
    rw [World.cellAt, htab hb']
    exact h.cells hb hb' hne hc
  case refine_5 =>
    intro r hr hl
    refine ⟨⟨hr, hl.2.imp_left (hshape r hr).shared.mp⟩, fun n e hn => ?_⟩
    change ((w.shapes.newIndexed prototype indexed).2.view r).lookup n = some e
    rw [Shapes.newIndexed, (hshape r hr).view]
    exact hn

theorem grows_newObject (h : w.Inv P) {s : ℕ} {class_ : Class} (hempty : P .empty)
    (hlt : s < w.shapes.nextStructure) (hs : w.shapes.Shared s)
    (hlen : P.noLength → overridesLength class_ → Symbol.length ∉ w.shapes.view s) :
    Grows P w (JsObject.new s class_ w) fun o w' => o = w.nextObject ∧ w'.nextObject = o + 1 ∧
      (w'.objects o).class_ = class_ := by
  refine ⟨h.grow_withObject hempty (h.shapes.mono ?_) le_rfl
    (fun r _ => Shapes.SameShape.refl _ r) (.inl hs) (fun r p hr hp => h.proto_lt hr hp) hlen,
    rfl, rfl, ?_⟩
  · rintro r (rfl | hr)
    · exact ⟨hlt, .inl hs⟩
    · exact ⟨h.shapes.held_lt hr, .inr hr⟩
  · change (Function.update w.objects w.nextObject _ w.nextObject).class_ = class_
    rw [Function.update_self]

theorem grows_newUniqueObject (h : w.Inv P) {prototype : Option ℕ} {class_ : Class}
    (hempty : P .empty) (hp : ∀ p, prototype = some p → p < w.nextObject) (indexed : Bool) :
    Grows P w ((Op.newUniqueObject prototype indexed class_).exec w) fun _ _ => True := by
  obtain ⟨hinv, hshape, hview⟩ := h.newRoot prototype true indexed fun r hr => hr
  have hnot : Symbol.length ∉
      (w.shapes.ctor1 prototype true indexed).2.view w.shapes.nextStructure := by
    rw [hview]
    exact Finmap.notMem_empty
  exact ⟨h.grow_withObject hempty hinv (Nat.le_succ _) hshape (.inr le_rfl)
    (h.proto_ctor1 hp true indexed) fun _ _ => hnot, trivial⟩

/-! ### Copies -/

theorem Touches.expectOk {x : Vm α} {R : α → World → Prop} (hx : Touches P o w (x w) R) :
    Touches P o w (Vm.expectOk x w) R := by
  unfold Vm.expectOk
  cases hr : x w with
  | ok a w' | error e w' | stuck => rw [hr] at hx; exact hx
  | diverge => trivial

theorem touches_copyAll (h : w.Inv P) {source target : ℕ} (hs : source < w.nextObject)
    (ht : target < w.nextObject) (hclass : (w.objects target).class_ = (w.objects source).class_)
    (hstr : ¬ isString (w.objects source).class_) (hundef : P .undefined) (names : List Symbol) :
    Touches P target w (copyAll source target names w) fun _ _ => True := by
  induction names generalizing w with
  | nil => exact Touches.pure h trivial
  | cons name names ih =>
    refine Reads.bind_touches h (reads_getOwnProperty h hs name) fun r w₁ hr hdesc => ?_
    have hs₁ : source < w₁.nextObject := hr.nextObject ▸ hs
    have ht₁ : target < w₁.nextObject := hr.nextObject ▸ ht
    cases r with
    | none => exact Touches.fail hr.inv _ _
    | some desc =>
      have hd : DefineOk P w₁ target name desc :=
        (hdesc desc rfl).1.defineOk (f := id) ⟨fun _ => rfl, fun _ => rfl, fun _ => rfl, fun _ => rfl⟩ hstr
          (by rw [hr.objects]; exact hclass)
      refine Touches.bind (guards_defineOwnProperty hr.inv ht₁ false hundef hd False.elim).touches.expectOk
        fun _ w₂ ht₂ _ => ih ht₂.inv (ht₂.nextObject ▸ hs₁) (ht₂.nextObject ▸ ht₁) ?_ ?_
      · rw [ht₂.class_eq, ht₂.class_eq, hr.objects]
        exact hclass
      · rw [ht₂.class_eq, hr.objects]
        exact hstr

theorem grows_copy (h : w.Inv P) {source : ℕ} (hs : source < w.nextObject) (hempty : P .empty)
    (hundef : P .undefined) (hsh : w.shapes.Shared (w.objects source).structure_)
    (hstr : ¬ isString (w.objects source).class_) :
    Grows P w (JsObject.copy source w) fun _ _ => True := by
  unfold JsObject.copy
  rw [Vm.object_bind]
  refine Result.Sat.bind (Result.Sat.mono (grows_newObject (P := P) h hempty (h.live hs).1 hsh
    fun hp hc => (h.ok hs).no_length hp hc) (fun a w₁ ha => ha) fun _ _ he => he) ?_
  rintro target w₁ ⟨hg, rfl, hnext, hclass⟩
  have hs₁ : source < w₁.nextObject := lt_of_lt_of_le hs hg.nextObject_le
  have ht₁ : w.nextObject < w₁.nextObject := by omega
  have hcl : (w₁.objects source).class_ = (w.objects source).class_ := hg.class_eq _ hs
  have hrest : Touches P w.nextObject w₁ ((getOwnPropertyNames source true >>= fun names =>
      copyAll source w.nextObject names >>= fun _ => (pure w.nextObject : Vm ℕ)) w₁)
      fun _ _ => True := by
    refine Reads.bind_touches hg.inv (reads_getOwnPropertyNames hg.inv hs₁ true)
      fun names w₂ hr₂ _ => ?_
    refine Touches.bind (touches_copyAll hr₂.inv (hr₂.nextObject ▸ hs₁) (hr₂.nextObject ▸ ht₁)
      (by rw [hr₂.objects, hclass, hcl]) (by rw [hr₂.objects, hcl]; exact hstr) hundef names)
      fun _ w₃ ht₃ _ => Touches.pure ht₃.inv trivial
  exact Result.Sat.mono hrest (fun _ _ ha => ⟨hg.touch ha.1 le_rfl, trivial⟩)
    fun _ _ he => hg.touch he le_rfl

/-! ### Steps and runs -/

/-- The steps that keep the slot layout: a structure given to a new object is shared, so that a unique
structure stays with the object it was made for, and nobody redefines the length of a string object. -/
def Op.KeepsSlots (w : World) : Op → Prop
  | .newObject s _ => w.shapes.Shared s
  | .newFromPoint map _ => w.shapes.Shared map
  | .copy source => w.shapes.Shared (w.objects source).structure_ ∧
      ¬ isString (w.objects source).class_
  | .on o (.define name _ _) => ¬ (isString (w.objects o).class_ ∧ name = Symbol.length)
  | .on o .freeze => ¬ isString (w.objects o).class_
  | .on o .seal_ => ¬ isString (w.objects o).class_
  | _ => True

/-- What the policy asks of a step: the words it stores, and the structures that arrays and string
objects are created on. -/
def Op.Fits (P : Policy) (w : World) : Op → Prop
  | .newObject s class_ => P.noLength → overridesLength class_ → Symbol.length ∉ w.shapes.view s
  | .newFromPoint s class_ => P.noLength → overridesLength class_ → Symbol.length ∉ w.shapes.view s
  | .on _ (.put _ val _) => P val
  | .on o (.define name desc _) => Definable P w o name desc
  | _ => True

/-- What holds from one state of a run to the next. -/
structure Kept (P : Policy) (w w' : World) : Prop where
  inv : w'.Inv P
  nextObject_le : w.nextObject ≤ w'.nextObject
  nextStructure_le : w.shapes.nextStructure ≤ w'.shapes.nextStructure
  class_eq : ∀ b, b < w.nextObject → (w'.objects b).class_ = (w.objects b).class_
  stable : Stable w w'

theorem Grow.kept (h : Grow P w w') : Kept P w w' :=
  { h with }

theorem World.Touch.kept (h : Touch P o w w') : Kept P w w' :=
  ⟨h.inv, h.nextObject.ge, h.nextStructure_le, fun b _ => h.class_eq b, h.stable⟩

/-- The computation keeps the invariant, however it ends. -/
def Keeps (P : Policy) (w : World) (r : Result Fault World α) : Prop :=
  r.Sat (fun _ w' => Kept P w w') fun _ w' => Kept P w w'

theorem Grows.keeps {r : Result Fault World α} {R : α → World → Prop} (h : Grows P w r R) :
    Keeps P w r := Result.Sat.mono h (fun _ _ ha => ha.1.kept) fun _ _ he => he.kept

theorem Touches.keeps {r : Result Fault World α} {R : α → World → Prop} (h : Touches P o w r R) :
    Keeps P w r := Result.Sat.mono h (fun _ _ ha => ha.1.kept) fun _ _ he => he.kept

theorem Guards.drop {proper : Prop} {x : Vm α} {R : α → World → Prop}
    (h : Guards P proper o w (x w) R) :
    Guards P proper o w ((do let _ ← x) w) fun _ _ => True :=
  Guards.bind h fun _ _ ht _ => Guards.pure ht.inv trivial

theorem Grows.drop {x : Vm α} {R : α → World → Prop} (h : Grows P w (x w) R) :
    Grows P w ((do let _ ← x) w) fun _ _ => True :=
  Result.Sat.bind h fun _ _ ha => ⟨ha.1, trivial⟩

/-- The steps whose definitions use proper descriptors. -/
def Op.Proper : Op → Prop
  | .on _ (.define _ desc _) => desc.Proper
  | _ => True

theorem guards_exec {proper : Prop} (h : w.Inv P) {op : ObjectOp} (hv : (Op.on o op).Valid w)
    (hk : (Op.on o op).KeepsSlots w) (hf : (Op.on o op).Fits P w) (hundef : P .undefined)
    (hp : proper → (Op.on o op).Proper) :
    Guards P proper o w (op.exec o w) fun _ _ => True := by
  cases op with
  | get name strict => exact ((reads_getSlot h hv name strict).guards h).drop
  | getOwnProperty name => exact ((reads_getOwnProperty h hv name).guards h).drop
  | getOwnPropertyNames all => exact ((reads_getOwnPropertyNames h hv all).guards h).drop
  | put name val throwable => exact guards_put h hv throwable hundef hf
  | define name desc throwable =>
    refine (guards_defineOwnProperty h hv throwable hundef ?_ hp).drop
    by_cases hl : overridesLength (w.objects o).class_ ∧ name = Symbol.length
    · refine .inr (.inl ⟨?_, hl.2⟩)
      cases hc : (w.objects o).class_ with
      | array => rfl
      | string v => exact absurd ⟨by rw [hc]; trivial, hl.2⟩ hk
      | _ => rw [hc] at hl; exact hl.1.elim
    · exact .inr (.inr ⟨hl, hf⟩)
  | defineLengthTo desc newLen throwable => exact (guards_defineLengthTo h hv _ _ _).drop
  | delete name throwable => exact (guards_delete h hv name throwable).drop
  | changeExtensible val => exact (guards_changeExtensible h hv val).mono fun _ _ _ _ => trivial
  | changePrototype prototype =>
    exact (guards_changePrototype h hv.1 hv.2).mono fun _ _ _ _ => trivial
  | changeIndexed =>
    have hv : o < w.nextObject := hv
    obtain ⟨ht, htgt⟩ := h.shapes.changeIndexedTransition (h.live hv)
    exact (guards_transition h hv _ rfl ht htgt fun p hp => h.prototype_lt hv hp).mono
      fun _ _ _ _ => trivial
  | freeze => exact (guards_freeze h hv hundef hk).drop
  | seal_ => exact (guards_seal h hv hundef hk).drop

theorem touches_exec (h : w.Inv P) {op : ObjectOp} (hv : (Op.on o op).Valid w)
    (hk : (Op.on o op).KeepsSlots w) (hf : (Op.on o op).Fits P w) (hundef : P .undefined) :
    Touches P o w (op.exec o w) fun _ _ => True :=
  (guards_exec h hv hk hf hundef False.elim).touches

theorem World.Inv.read_clearTransition (h : w.Inv P) (s : ℕ) (key : TransitionKey)
    (hs : s < w.shapes.nextStructure) :
    Read P w { w with shapes := w.shapes.modifyStructure s fun st =>
      { st with transitions := st.transitions.clear key } } := by
  have hsame : Shapes.SameProperties (w.shapes.structures s)
      { w.shapes.structures s with
        transitions := (w.shapes.structures s).transitions.clear key } :=
    ⟨rfl, rfl, rfl, rfl, rfl, TransitionsTable.clear_enabled _ _, TransitionsTable.clear_unique _ _⟩
  have hshape : ∀ r, w.shapes.SameShape (w.shapes.modifyStructure s fun st =>
      { st with transitions := st.transitions.clear key }) r := by
    intro r
    refine ⟨Shapes.view_modifyStructure hsame r, ?_, ?_, Shapes.shared_modifyStructure hsame r⟩
    all_goals
      by_cases hr : r = s
      · subst hr; rw [Shapes.structures_modifyStructure_self]
      · rw [Shapes.structures_modifyStructure_ne _ hr]
  refine h.read_shapes (s := s) ⟨?_, fun r _ => hshape r, rfl, fun r => (hshape r).prototype⟩
  exact h.shapes.modifyStructure hsame (fun hsh hfind => h.shapes.transition hs hsh
    (TransitionsTable.find_clear _ _ hfind)) fun _ => rfl

theorem World.Inv.read_rehash (h : w.Inv P) (order : HashOrder) :
    Read P w { w with hashOrder := order } :=
  ⟨⟨h.shapes, h.sole, h.ok, h.proto_lt, h.cells⟩, rfl, rfl, rfl, rfl, rfl,
    fun r _ => Shapes.SameShape.refl _ r⟩

theorem newFromPoint_exec {map : ℕ} (hsh : w.shapes.Shared map) (class_ : Class) :
    (Op.newFromPoint map class_).exec w = (Op.newObject map class_).exec w := by
  have hu : (w.shapes.structures map).isUnique = false := by
    simpa using mt Shapes.not_shared_iff.mpr (not_not.mpr hsh)
  have hpoint : w.shapes.newFromPoint map = (map, w.shapes) := by
    unfold Shapes.newFromPoint
    rw [if_neg (by simp [hu])]
  have hrun : (Op.newFromPoint map class_).exec w =
      (do let _ ← JsObject.new (w.shapes.newFromPoint map).1 class_)
        { w with shapes := (w.shapes.newFromPoint map).2 } := rfl
  rw [hrun, hpoint]
  rfl

/-- **The step lemma.** -/
theorem keeps_exec (h : w.Inv P) {op : Op} (hv : op.Valid w) (hk : op.KeepsSlots w)
    (hf : op.Fits P w) (hempty : P .empty) (hundef : P .undefined) : Keeps P w (op.exec w) := by
  cases op with
  | newStructure prototype indexed => exact (h.grow_newStructure hv indexed).kept
  | newObject s class_ => exact (grows_newObject h hempty hv hk hf).drop.keeps
  | newUniqueObject prototype indexed class_ =>
    exact (grows_newUniqueObject h hempty hv indexed).keeps
  | newFromPoint map class_ =>
    rw [newFromPoint_exec hk]
    exact (grows_newObject h hempty hv hk hf).drop.keeps
  | copy source => exact (grows_copy h hv hempty hundef hk.1 hk.2).drop.keeps
  | on o op => exact (touches_exec h hv hk hf hundef).keeps
  | clearTransition s key => exact ((h.read_clearTransition s key hv).touch h 0).kept
  | rehash order => exact ((h.read_rehash order).touch h 0).kept

end Starlight
