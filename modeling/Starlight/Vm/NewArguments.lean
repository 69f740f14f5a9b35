import Starlight.Vm.ArgumentsRuns
import Starlight.Vm.DescriptorFields
import Starlight.Vm.OwnElements

/-!
# A new arguments object

`perform_vm_call` makes an arguments object whose first elements are defined, then its `length` is
assigned, and then the elements beyond the parameters. Where the prototype of arguments objects has no
elements and no `length`, all of this ends normally, changes nothing else of the heap and leaves an own
property `length`.
-/

namespace Starlight

open JsObject World Exec

variable {P : Policy} {w₀ w w' : World} {o p n fuel : ℕ} {v : JsValue} {a : Activation}
  {L : Option StoredSlot}

/-- The structure of arguments objects has no properties, and their prototypes have neither elements nor
a `length`. -/
structure World.PlainArguments (w : World) (s : ℕ) : Prop where
  lt : s < w.shapes.nextStructure
  shared : w.shapes.Shared s
  view : w.shapes.view s = ∅
  bare : ∀ p, (w.shapes.structures s).prototype = some p → w.Bare w.nextObject p
  noLength : ∀ p, (w.shapes.structures s).prototype = some p → ¬ HasName w p Symbol.length

theorem Act.heap_of_ok {α : Type} {x : Vm α} {r : α} (h : x a.world = .ok r w') :
    Act.heap x a = .ok r { a with world := w' } := by
  unfold Act.heap
  rw [h]

/-! ### The prototypes -/

theorem World.Bare.chain (h : w.Bare fuel p) : ∃ l, w.Chain p l := by
  induction fuel generalizing p with
  | zero => exact h.elim
  | succ fuel ih =>
    obtain ⟨-, -, hproto⟩ := h
    cases hp : w.prototype p with
    | none => exact ⟨_, .last hp⟩
    | some q =>
      obtain ⟨l, hl⟩ := ih (hproto q hp)
      exact ⟨_, .cons hp hl⟩

/-- The structures are as before, so that arguments objects are plain as long as nothing happens to the
objects that there are. -/
theorem World.PlainArguments.grow {s : ℕ} (h : w₀.PlainArguments s) (hinv : w₀.Inv layoutPolicy)
    (hg : Grow layoutPolicy w₀ w) (hs : w.shapes = w₀.shapes) : w.PlainArguments s where
  lt := hs ▸ h.lt
  shared := hs ▸ h.shared
  view := hs ▸ h.view
  bare p hp := by
    rw [hs] at hp
    exact (h.bare p hp).grow hg hg.nextObject_le
  noLength p hp hn := by
    rw [hs] at hp
    exact h.noLength p hp (hn.of_grow hg hinv (by simp [Symbol.length]) (h.bare p hp).lt)

/-! ### The object in the making -/

/-- The object is a plain one that was made after `w₀`, with elements below index `n` only and with `L` as
its `length`. -/
structure Making (w₀ w : World) (s n : ℕ) (L : Option StoredSlot) : Prop where
  grow : Grow layoutPolicy w₀ w
  own : OwnElements w w₀.nextObject
  class_eq : (w.objects w₀.nextObject).class_ = .object
  extensible : (w.objects w₀.nextObject).extensible = true
  writable : (w.objects w₀.nextObject).indexed.writable = true
  length_le : (w.objects w₀.nextObject).indexed.length ≤ n
  rest : ∀ j, (w.objects w₀.nextObject).indexed.length ≤ j →
    (w.objects w₀.nextObject).indexed.sparse j = none
  prototype : w.prototype w₀.nextObject = (w₀.shapes.structures s).prototype
  slot : namedSlot (w.table w₀.nextObject) (w.objects w₀.nextObject) Symbol.length = L

theorem making_new {s : ℕ} (h : w₀.Inv layoutPolicy) (hs : w₀.SoundElements) (hp : w₀.PlainArguments s) :
    ∃ w, JsObject.new s .object w₀ = .ok w₀.nextObject w ∧ Making w₀ w s 0 none := by
  obtain ⟨w, hrun, hg, hm, hix⟩ := made_new h hp.lt hp.shared hp.view
  have hrun : JsObject.new s .object w₀ = .ok w₀.nextObject w := hrun
  have hkeep := keeps_new s .object w₀ hs
  rw [hrun] at hkeep
  refine ⟨w, hrun, hg, ⟨hg.inv, hm.lt, hkeep, by rw [hm.class_eq]; rfl, fun p hpp => ?_⟩, hm.class_eq,
    hm.extensible, by rw [hix]; rfl, by rw [hix]; exact Nat.le_refl 0, fun j _ => by rw [hix]; rfl,
    hm.prototype, hm.slots _⟩
  rw [hm.prototype] at hpp
  exact (hp.bare p hpp).above hg le_rfl hg.nextObject_le

theorem Making.mono {s m : ℕ} (h : Making w₀ w s n L) (hm : n ≤ m) : Making w₀ w s m L :=
  { h with length_le := h.length_le.trans hm }

theorem Making.creatable {s : ℕ} (h : Making w₀ w s n L) : Creatable w w₀.nextObject n :=
  ⟨h.extensible, .inr h.writable, fun j hj _ => h.rest j hj⟩

theorem Making.stored {s : ℕ} (h : Making w₀ w s n L) :
    (w.objects w₀.nextObject).indexed.stored n = none := by
  cases hs : (w.objects w₀.nextObject).indexed.stored n with
  | none => rfl
  | some e =>
    have := (h.own.sound w₀.nextObject).lt_of_stored hs
    have := h.length_le
    omega

/-- **The step lemma of the elements.** -/
theorem Making.define {s : ℕ} (h : Making w₀ w s n L) (hv : v ≠ .empty) (throwable : Bool) :
    ∃ w', defineOwnIndexedPropertyInternal w₀.nextObject n (createDesc v) throwable w = .ok true w' ∧
      Making w₀ w' s (n + 1) L := by
  obtain ⟨w', ix, hrun, hrew, hst, hsparse⟩ := h.own.define hv h.stored h.creatable throwable
  have hlen : ix.length = n + 1 := by
    rw [hst.length]
    have := h.length_le
    omega
  refine ⟨w', hrun, h.grow.touch hrew.touch le_rfl, hrew.ownElements h.own, hrew.class_eq.trans h.class_eq,
    hrew.extensible.trans h.extensible, ?_, ?_, fun j hj => ?_, hrew.prototype.trans h.prototype,
    (hrew.namedSlot _).trans h.slot⟩
  · rw [hrew.indexed, hst.writable, h.writable]
  · rw [hrew.indexed, hlen]
  · rw [hrew.indexed, hlen] at hj
    rw [hrew.indexed, hsparse j (by omega)]
    exact h.rest j (by have := h.length_le; omega)

/-! ### The length -/

theorem put_new (h : w.Inv layoutPolicy) (ho : o < w.nextObject) {name : Symbol}
    (hname : ∀ i, name ≠ .index i) (hc : (w.objects o).class_ = .object)
    (hext : (w.objects o).extensible = true)
    (hn : namedSlot (w.table o) (w.objects o) name = none) (hchain : ∃ l, w.Chain o l)
    (hno : ¬ HasName w o name) (v : JsValue) (throwable : Bool) :
    ∃ w' slot', (getPropertySlot o name Slot.new >>= fun r =>
        putFrom o v throwable r.1 r.2 id fun desc slot =>
          defineOwnNonIndexedPropertySlotMethod o name desc slot throwable) w = .ok slot' w' ∧
      put o name v throwable w = .ok () w' ∧
      StoredAt w w' o name ⟨v, createData { writable := true, enumerable := true, configurable := true }⟩ ∧
      (w'.objects o).extensible = (w.objects o).extensible ∧ w'.prototype o = w.prototype o := by
  have hs : ¬ (overridesLength (w.objects o).class_ ∧ name = Symbol.length) := by
    rw [hc]
    exact fun hl => hl.1
  obtain ⟨l, hl⟩ := hchain
  obtain ⟨found, slot, w₁, hlook⟩ := getNonIndexedPropertySlotFrom_ok hl h ho hname
    (le_trans (hl.length_le h ho) (Nat.le_succ _)) Slot.new
  have hlook : getPropertySlot o name Slot.new w = .ok (found, slot) w₁ := by
    rw [getPropertySlot_of_not_index hname]
    exact hlook
  obtain ⟨hr, hchain⟩ := Result.Sat.of_ok (reads_getPropertySlot_of_not_index h ho hname) hlook
  have hfound : found = false := by
    rw [getPropertySlot_of_not_index hname] at hlook
    exact Bool.eq_false_iff.mpr fun hc => hno ((found_iff_hasName h ho hname hlook).mp hc)
  subst hfound
  have hnot : slot.isNotFound = true := by
    cases hchain with
    | absent c => rfl
  have ho₁ : o < w₁.nextObject := hr.nextObject ▸ ho
  have hn₁ : namedSlot (w₁.table o) (w₁.objects o) name = none := by
    rw [hr.table h ho, hr.objects]
    exact hn
  have hcan : canPut o false slot w₁ = .ok true w₁ := by
    unfold canPut
    rw [if_neg Bool.false_ne_true, Vm.object_bind, hr.objects, hext]
    rfl
  obtain ⟨w₂, slot₂, hr₂, hmethod⟩ := defineOwnNonIndexedPropertySlotMethod_new hr.inv ho₁ hname
    (by rw [hr.objects]; exact hs) (by rw [hr.objects, hext]) hn₁ (createDesc v) slot hnot throwable
  obtain ⟨off, w', hadd, hst, hext', hproto⟩ : ∃ off w', addProperty o name ⟨v, createData
      { writable := true, enumerable := true, configurable := true }⟩ w₂ = .ok off w' ∧
      StoredAt w₂ w' o name ⟨v, createData { writable := true, enumerable := true, configurable := true }⟩ ∧
      (w'.objects o).extensible = (w₂.objects o).extensible ∧ w'.prototype o = w₂.prototype o :=
    addProperty_ok hr₂.inv (hr₂.nextObject ▸ ho₁)
      (by rw [hr₂.table hr.inv ho₁, hr₂.objects]; exact hn₁) (createData_typed _)
  have hread : Read layoutPolicy w w₂ := hr.trans hr₂
  rw [Exec.bind_of_ok (storedSlotNew_createDesc v w₂), Exec.bind_of_ok hadd] at hmethod
  -- objects of this class have no way of their own to define a property
  have hvirtual : defineOwnNonIndexedPropertySlot o name (createDesc v) slot throwable w₁ =
      defineOwnNonIndexedPropertySlotMethod o name (createDesc v) slot throwable w₁ := by
    rw [defineOwnNonIndexedPropertySlot_eq (by simp [hr.objects, hc]), if_neg (by simp [hr.objects, hc])]
  have hput : ∀ define : PropertyDescriptor → Slot → Vm (Bool × Slot), define (createDesc v) slot w₁ =
      .ok (true, { slot₂.markPutResult .new off with base := some o }) w' →
      putFrom o v throwable false slot id define w₁ =
        .ok { slot₂.markPutResult .new off with base := some o } w' := fun define hdef => by
    unfold putFrom
    rw [Exec.bind_of_ok hcan, if_neg (by simp), if_neg (by simp [hnot]), if_neg (by simp [hnot])]
    exact Exec.bind_of_ok hdef _
  refine ⟨w', { slot₂.markPutResult .new off with base := some o }, ?_, ?_,
    ⟨(hread.othersKept h ho name).trans hst.others, hst.self, by rw [hst.class_eq, hread.objects]⟩,
    by rw [hext', hread.objects], hproto.trans (hread.prototype h ho)⟩
  · rw [Exec.bind_of_ok hlook]
    exact hput _ hmethod
  · have hslot : putNonIndexedSlot o name v Slot.new throwable w =
        .ok { slot₂.markPutResult .new off with base := some o } w' := by
      unfold putNonIndexedSlot
      rw [Exec.bind_of_ok hlook]
      exact hput _ (hvirtual.trans hmethod)
    cases name with
    | index i => exact absurd rfl (hname i)
    | key text | priv id => exact Exec.bind_of_ok hslot _

/-- The length of the new object. -/
def lengthSlot (n : ℕ) : StoredSlot :=
  ⟨.int32 (BitVec.ofNat 32 n), createData { writable := true, enumerable := true, configurable := true }⟩

/-- **The step lemma of the length.** -/
theorem Making.putLength {s : ℕ} (hp : w₀.PlainArguments s) (h₀ : w₀.Inv layoutPolicy)
    (h : Making w₀ w s n none) (a : Activation) (ha : a.world = w) (count : ℕ) : ∃ w',
      Act.ignored (JsArguments.put w₀.nextObject Symbol.length (.int32 (BitVec.ofNat 32 count)) false) a =
        .ok () { a with world := w' } ∧ Making w₀ w' s n (some (lengthSlot count)) := by
  have hname : ∀ i, Symbol.length ≠ .index i := by simp [Symbol.length]
  have hchain : ∃ l, w.Chain w₀.nextObject l := by
    cases hpp : (w₀.shapes.structures s).prototype with
    | none => exact ⟨_, .last (h.prototype.trans hpp)⟩
    | some q =>
      obtain ⟨l, hl⟩ := (hp.bare q hpp).chain
      exact ⟨_, .cons (h.prototype.trans hpp) (hl.grow h.grow h₀ (hp.bare q hpp).lt)⟩
  have hno : ¬ HasName w w₀.nextObject Symbol.length := by
    intro hc
    cases hc with
    | own hown =>
      rw [owns_iff_of_not_index h.own.inv h.own.lt hname, h.class_eq] at hown
      rcases hown with hown | hown
      · exact hown.1
      · exact Finmap.lookup_eq_none.mp (lookup_of_namedSlot_none h.own.inv h.own.lt h.slot) hown
    | inherited hq hn' =>
      have hpp := h.prototype.symm.trans hq
      exact hp.noLength _ hpp (hn'.of_grow h.grow h₀ hname (hp.bare _ hpp).lt)
  obtain ⟨w', slot', hrun, hput, hst, hext, hproto⟩ := put_new h.own.inv h.own.lt hname h.class_eq
    h.extensible h.slot hchain hno (.int32 (BitVec.ofNat 32 count)) false
  obtain ⟨ht, hsound⟩ := h.own.touch_put hput
  have hix : (w'.objects w₀.nextObject).indexed = (w.objects w₀.nextObject).indexed := hst.others.indexed
  refine ⟨w', ?_, h.grow.touch ht le_rfl, h.own.touch ht hsound hproto, hst.class_eq.trans h.class_eq,
    hext.trans h.extensible, by rw [hix, h.writable], by rw [hix]; exact h.length_le,
    by rw [hix]; exact h.rest, hproto.trans h.prototype, hst.self⟩
  obtain ⟨⟨found, slot⟩, w₁, hlook, hrest⟩ := bind_eq_ok hrun
  have hassign : JsArguments.put w₀.nextObject Symbol.length (.int32 (BitVec.ofNat 32 count)) false a =
      .ok true { a with world := w' } := by
    refine Act.heap_of_ok ?_
    rw [ha, Exec.bind_of_ok hlook]
    exact Exec.bind_of_ok hrest _
  unfold Act.ignored
  rw [hassign]

/-! ### The runs -/

theorem Making.defineOwn {s : ℕ} (h : Making w₀ a.world s n L) (hmap : a.mapped n = none) (hv : v ≠ .empty)
    (throwable : Bool) : ∃ w', JsArguments.defineOwnIndexedPropertySlot w₀.nextObject n (createDesc v)
      throwable a = .ok true { a with world := w' } ∧ Making w₀ w' s (n + 1) L := by
  obtain ⟨w', hdef, h'⟩ := h.define hv throwable
  refine ⟨w', ?_, h'⟩
  have hheap : Act.heap (Act.caught (defineOwnIndexedPropertyInternal w₀.nextObject n (createDesc v)
      throwable)) a = .ok true { a with world := w' } := by
    refine Act.heap_of_ok ?_
    unfold Act.caught
    rw [hdef]
  have hnone : ({ a with world := w' } : Activation).mapped n = none := hmap
  unfold JsArguments.defineOwnIndexedPropertySlot
  rw [bind_of_ok hheap, if_pos rfl, modify_bind]
  unfold JsArguments.redefine
  rw [hnone]
  rfl

theorem Making.defineInit {s : ℕ} (h : Making w₀ a.world s n L) (hmap : a.mapping = [])
    (vs : List JsValue) (hvs : ∀ v ∈ vs, v ≠ .empty) : ∃ w',
      JsArguments.defineInit w₀.nextObject n vs a = .ok () { a with world := w' } ∧
        Making w₀ w' s (n + vs.length) L := by
  induction vs generalizing n a with
  | nil => exact ⟨a.world, rfl, h⟩
  | cons v vs ih =>
    obtain ⟨hv, hvs⟩ := List.forall_mem_cons.mp hvs
    have hnone : a.mapped n = none := by
      unfold Activation.mapped
      rw [hmap]
      rfl
    obtain ⟨w₁, hdef, h₁⟩ := h.defineOwn hnone hv false
    obtain ⟨w', hrest, h'⟩ := ih (a := { a with world := w₁ }) h₁ hmap hvs
    refine ⟨w', ?_, by rwa [List.length_cons, Nat.add_comm vs.length, ← Nat.add_assoc]⟩
    unfold JsArguments.defineInit
    rw [bind_of_ok hdef]
    exact hrest

theorem Making.putOwn {s : ℕ} (h : Making w₀ a.world s n L) (hmap : a.mapped n = none) (hv : v ≠ .empty) :
    ∃ w', JsArguments.put w₀.nextObject (.index n) v false a = .ok true { a with world := w' } ∧
      Making w₀ w' s (n + 1) L := by
  obtain ⟨w', hdef, h'⟩ := h.defineOwn hmap hv false
  refine ⟨w', ?_, h'⟩
  have hstored := h.stored
  have hown : JsArguments.getOwnIndexedPropertySlot w₀.nextObject n Slot.new a =
      .ok (false, Slot.new) a := by
    have hrun : Act.heap (getOwnIndexedPropertySlotMethod w₀.nextObject n Slot.new) a =
        .ok (false, Slot.new) a := by
      refine Act.heap_of_ok ?_
      rw [getOwnIndexedPropertySlotMethod_eq, hstored]
    unfold JsArguments.getOwnIndexedPropertySlot
    rw [bind_of_ok hrun]
    rfl
  have hlook : JsArguments.getIndexedPropertySlot w₀.nextObject n Slot.new a =
      .ok (false, Slot.new) a := by
    unfold JsArguments.getIndexedPropertySlot
    rw [bind_of_ok hown]
    dsimp only
    rw [if_neg Bool.false_ne_true, gets_bind]
    cases hp : a.world.prototype w₀.nextObject with
    | some q =>
      rw [World.prototype] at hp
      rw [hp]
      exact Act.heap_of_ok ((h.own.bare q hp).lookup 0 n)
    | none =>
      rw [World.prototype] at hp
      rw [hp]
      rfl
  have hcan : Act.heap (canPut w₀.nextObject false Slot.new) a = .ok true a := by
    refine Act.heap_of_ok ?_
    unfold canPut
    rw [if_neg Bool.false_ne_true, Vm.object_bind, h.extensible]
    rfl
  have hnot : Slot.new.isNotFound = true := rfl
  change JsArguments.putIndexedSlot w₀.nextObject n v false a = _
  unfold JsArguments.putIndexedSlot
  rw [bind_of_ok hlook]
  dsimp only
  rw [bind_of_ok hcan, if_neg (by simp), if_neg (by simp [hnot]), if_neg (by simp [hnot])]
  exact bind_of_ok hdef _

theorem Making.putRest {s : ℕ} (h : Making w₀ a.world s n L) (hmap : a.mapping.length ≤ n)
    (vs : List JsValue) (hvs : ∀ v ∈ vs, v ≠ .empty) : ∃ w',
      JsArguments.putRest w₀.nextObject n vs a = .ok () { a with world := w' } ∧
        Making w₀ w' s (n + vs.length) L := by
  induction vs generalizing n a with
  | nil => exact ⟨a.world, rfl, h⟩
  | cons v vs ih =>
    obtain ⟨hv, hvs⟩ := List.forall_mem_cons.mp hvs
    have hnone : a.mapped n = none := by
      unfold Activation.mapped
      rw [List.getElem?_eq_none hmap]
      rfl
    obtain ⟨w₁, hput, h₁⟩ := h.putOwn hnone hv
    obtain ⟨w', hrest, h'⟩ := ih (a := { a with world := w₁ }) h₁ (Nat.le_succ_of_le hmap) hvs
    refine ⟨w', ?_, by rwa [List.length_cons, Nat.add_comm vs.length, ← Nat.add_assoc]⟩
    unfold JsArguments.putRest
    rw [bind_of_ok hput]
    exact hrest

/-- **The arguments object of a call.** It has an own `length`, the number of arguments as an `i32`. -/
theorem JsArguments.make_eq {s : ℕ} (h : a.world.Inv layoutPolicy) (hs : a.world.SoundElements)
    (hp : a.world.PlainArguments s) (hmap : a.mapping = []) (paramCount : ℕ) (args : List JsValue)
    (hargs : ∀ v ∈ args, v ≠ .empty) : ∃ w',
      (JsArguments.new s paramCount args >>= fun o =>
        JsArguments.putRest o paramCount (args.drop paramCount) >>= fun _ => pure o) a =
        .ok a.world.nextObject ⟨w', (List.range (min paramCount args.length)).map some, a.env⟩ ∧
      Making a.world w' s (max paramCount args.length) (some (lengthSlot args.length)) := by
  obtain ⟨w₁, hobj, h₁⟩ := making_new h hs hp
  obtain ⟨w₂, hinit, h₂⟩ := Making.defineInit (a := { a with world := w₁ }) h₁ hmap (args.take paramCount)
    fun v hv => hargs v (List.mem_of_mem_take hv)
  obtain ⟨w₃, hlen, h₃⟩ := h₂.putLength hp h { a with world := w₂ } rfl args.length
  rw [List.length_take, Nat.zero_add] at h₃
  set mapping := (List.range (min paramCount args.length)).map some with hmapping
  have hnew : JsArguments.new s paramCount args a = .ok a.world.nextObject ⟨w₃, mapping, a.env⟩ := by
    have hobj : Act.heap (JsObject.new s .object) a = .ok a.world.nextObject { a with world := w₁ } :=
      Act.heap_of_ok hobj
    unfold JsArguments.new
    rw [bind_of_ok hobj, bind_of_ok hinit, bind_of_ok hlen, modify_bind]
    rfl
  obtain ⟨w₄, hrest, h₄⟩ := Making.putRest (a := ⟨w₃, mapping, a.env⟩) (h₃.mono (min_le_left _ _))
    (by simp [hmapping]) (args.drop paramCount) fun v hv => hargs v (List.mem_of_mem_drop hv)
  rw [List.length_drop] at h₄
  refine ⟨w₄, ?_, h₄.mono (by omega)⟩
  rw [bind_of_ok hnew, bind_of_ok hrest]
  rfl

end Starlight
