import Starlight.Vm.UpdateSpec

/-!
# Adding, replacing and removing named properties

The three ways in which an operation changes the named properties of an object, and the transitions
that keep them. Each computes a transition, moves the object and writes one slot; the intermediate
states need not satisfy the invariant, so each is one application of the store rule.
-/

namespace Starlight

open JsObject World

variable {α : Type} {P : Policy} {proper : Prop} {w w' : World} {o : ℕ}

/-! ### Moving to another structure -/

theorem storageCapacity_target {σ σ' : Shapes} {L L' : ℕ → Prop} {s s' : ℕ} (h : σ.Inv L)
    (h' : σ'.Inv L') (hs : σ.Live L s) (hs' : σ'.Live L' s')
    (hsize : tableLen (σ'.view s') + (σ'.structures s').deleted.length =
      tableLen (σ.view s) + (σ.structures s).deleted.length) :
    σ'.storageCapacity s' = σ.storageCapacity s := by
  unfold Shapes.storageCapacity
  rw [h.getSlotsSize_eq hs, h'.getSlotsSize_eq hs', hsize]

def World.moved (w : World) (o : ℕ) (σ : Shapes) (s : ℕ) : World :=
  { w with shapes := σ
           objects := Function.update w.objects o { w.objects o with structure_ := s } }

theorem World.table_moved (w : World) (o : ℕ) (σ : Shapes) (s : ℕ) :
    (w.moved o σ s).table o = σ.view s := by
  simp [World.table, World.moved]

@[simp] theorem World.slots_moved (w : World) (o : ℕ) (σ : Shapes) (s : ℕ) :
    ((w.moved o σ s).objects o).slots = (w.objects o).slots := by
  simp [World.moved]

theorem World.Inv.touch_moved (h : w.Inv P) (ho : o < w.nextObject) {σ' : Shapes} {s' : ℕ}
    (ht : w.shapes.Transitioned σ' w.held (w.objects o).structure_ s')
    (hsize : tableLen (σ'.view s') + (σ'.structures s').deleted.length =
      tableLen (w.table o) + (w.shapes.structures (w.objects o).structure_).deleted.length)
    (hsub : ∀ n e, (σ'.view s').lookup n = some e → (w.table o).lookup n = some e)
    (hproto : ∀ p, (σ'.structures s').prototype = some p → p < w.nextObject) :
    Touch P o w (w.moved o σ' s') := by
  have hcap := storageCapacity_target h.shapes ht.inv (h.live ho) ht.live hsize
  refine h.touch_slot ho ht ?_ (.sparse 0) (fun l s hs => .inl ?_) (fun hp hc hmem => ?_) hproto rfl
  · dsimp only
    rw [hcap]
    exact (h.ok ho).slots
  · cases l with
    | sparse i => exact hs
    | named n =>
      obtain ⟨e, he, hs⟩ := Option.bind_eq_some_iff.mp hs
      exact Option.bind_eq_some_iff.mpr ⟨e, hsub n e he, hs⟩
  · obtain ⟨e, he⟩ := Finmap.mem_iff.mp hmem
    exact (h.ok ho).no_length hp hc (Finmap.mem_of_lookup_eq_some (hsub _ e he))

theorem guards_transition (h : w.Inv P) (ho : o < w.nextObject) (f : Shapes → ℕ → ℕ × Shapes)
    {σ' : Shapes} {s' : ℕ} (hf : f w.shapes (w.objects o).structure_ = (s', σ'))
    {prototype : Option ℕ} (ht : w.shapes.Transitioned σ' w.held (w.objects o).structure_ s')
    (htgt : Shapes.Target w.shapes σ' (w.objects o).structure_ s' (w.table o)
      (w.shapes.structures (w.objects o).structure_).deleted prototype)
    (hproto : ∀ p, prototype = some p → p < w.nextObject) :
    Guards P proper o w (transition o f w) fun _ w' => w'.table o = w.table o ∧
      (w'.objects o).extensible = (w.objects o).extensible ∧
        (w'.objects o).indexed = (w.objects o).indexed := by
  have hrun : transition o f w = .ok () (w.moved o (f w.shapes (w.objects o).structure_).2
      (f w.shapes (w.objects o).structure_).1) := rfl
  rw [hrun, hf]
  have htab : (w.moved o σ' s').table o = w.table o := by rw [World.table_moved, htgt.view]
  refine Guards.of_ok (h.touch_moved ho ht ?_ ?_ ?_)
    (.of_namedSlot (fun n => ?_) fun _ _ _ _ _ _ => rfl) ⟨htab, by simp [World.moved],
      by simp [World.moved]⟩
  · rw [htgt.view, htgt.deleted]
  · intro n e he; rwa [htgt.view] at he
  · intro p hp; exact hproto p (htgt.prototype ▸ hp)
  · rw [htab, namedSlot, World.slots_moved]
    rfl

theorem World.Inv.prototype_lt (h : w.Inv P) (ho : o < w.nextObject) {p : ℕ}
    (hp : (w.shapes.structures (w.objects o).structure_).prototype = some p) : p < w.nextObject :=
  h.proto_lt (h.live ho).1 hp

theorem guards_makeIndexed (h : w.Inv P) (ho : o < w.nextObject) :
    Guards P proper o w (makeIndexed o w) fun _ w' => w'.table o = w.table o := by
  unfold makeIndexed
  rw [Vm.object_bind, Exec.gets_bind]
  refine Guards.ite (fun _ => Guards.pure h rfl) fun _ => ?_
  obtain ⟨ht, htgt⟩ := h.shapes.changeIndexedTransition (h.live ho)
  exact (guards_transition h ho _ rfl ht htgt fun p hp => h.prototype_lt ho hp).mono
    fun _ _ _ hr => hr.1

theorem guards_changePrototype (h : w.Inv P) (ho : o < w.nextObject) {prototype : Option ℕ}
    (hp : ∀ p, prototype = some p → p < w.nextObject) :
    Guards P proper o w (changePrototype o prototype w) fun _ w' => w'.table o = w.table o ∧
      (w'.objects o).extensible = (w.objects o).extensible ∧
        (w'.objects o).indexed = (w.objects o).indexed := by
  unfold changePrototype
  obtain ⟨ht, htgt⟩ := h.shapes.changePrototypeTransition (h.live ho) prototype
  exact guards_transition h ho _ rfl ht htgt hp

/-! ### Writing one slot -/

def World.stored (w : World) (o : ℕ) (σ : Shapes) (s : ℕ) (slots : List JsValue) : World :=
  { w with shapes := σ
           objects := Function.update w.objects o
             { w.objects o with structure_ := s, slots := slots } }

theorem World.table_stored (w : World) (o : ℕ) (σ : Shapes) (s : ℕ) (slots : List JsValue) :
    (w.stored o σ s slots).table o = σ.view s := by
  simp [World.table, World.stored]

@[simp] theorem World.slots_stored (w : World) (o : ℕ) (σ : Shapes) (s : ℕ)
    (slots : List JsValue) : ((w.stored o σ s slots).objects o).slots = slots := by
  simp [World.stored]

/-- **Writing a named slot.** -/
theorem World.Inv.touch_stored (h : w.Inv P) (ho : o < w.nextObject) {σ' : Shapes} {s' : ℕ}
    {slots : List JsValue} {name : Symbol} {stored : StoredSlot}
    (ht : w.shapes.Transitioned σ' w.held (w.objects o).structure_ s')
    (hcap : σ'.storageCapacity s' ≤ slots.length)
    (hst : Storable P w o (.named name) stored)
    (hself : ∀ e, (σ'.view s').lookup name = some e →
      e.attrs = stored.attributes ∧ slots[e.offset]? = some stored.value)
    (hother : ∀ n e, n ≠ name → (σ'.view s').lookup n = some e →
      (w.table o).lookup n = some e ∧ slots[e.offset]? = (w.objects o).slots[e.offset]?)
    (hlen : ¬ (overridesLength (w.objects o).class_ ∧ name = Symbol.length))
    (hproto : ∀ p, (σ'.structures s').prototype = some p → p < w.nextObject) :
    Touch P o w (w.stored o σ' s' slots) := by
  refine h.touch_slot ho ht hcap (.named name) (fun l s hs => ?_) (fun hp hc hmem => ?_) hproto rfl
  · cases l with
    | sparse i => exact .inl hs
    | named n =>
      obtain ⟨e, he, hs⟩ := Option.bind_eq_some_iff.mp hs
      obtain ⟨v, hv, rfl⟩ := Option.map_eq_some_iff.mp hs
      by_cases hn : n = name
      · subst hn
        obtain ⟨ha, hv'⟩ := hself e he
        obtain rfl : stored.value = v := Option.some_inj.mp (hv'.symm.trans hv)
        rw [ha]
        exact .inr ⟨hst, fun _ => rfl⟩
      · obtain ⟨he', hv'⟩ := hother n e hn he
        refine .inl (Option.bind_eq_some_iff.mpr ⟨e, he', ?_⟩)
        rw [← hv', hv]
        rfl
  · obtain ⟨e, he⟩ := Finmap.mem_iff.mp hmem
    by_cases hn : Symbol.length = name
    · exact hlen ⟨hc, hn.symm⟩
    · exact (h.ok ho).no_length hp hc (Finmap.mem_of_lookup_eq_some (hother _ e hn he).1)

theorem Vm.setDirect_of_lt {n : ℕ} {v : JsValue} (h : n < (w.objects o).slots.length) :
    Vm.setDirect o n v w = .ok ()
      (w.stored o w.shapes (w.objects o).structure_ ((w.objects o).slots.set n v)) := by
  unfold Vm.setDirect
  rw [if_pos h]
  rfl

theorem World.stored_stored (w : World) (o : ℕ) (σ σ' : Shapes) (s s' : ℕ)
    (slots slots' : List JsValue) :
    (w.stored o σ s slots).stored o σ' s' slots' = w.stored o σ' s' slots' := by
  simp [World.stored]

theorem World.stored_moved (w : World) (o : ℕ) (σ σ' : Shapes) (s s' : ℕ)
    (slots : List JsValue) : (w.moved o σ s).stored o σ' s' slots = w.stored o σ' s' slots := by
  simp [World.stored, World.moved]

@[simp] theorem World.shapes_moved (w : World) (o : ℕ) (σ : Shapes) (s : ℕ) :
    (w.moved o σ s).shapes = σ := rfl

theorem Vm.shapes?_of_some {f : Shapes → Option (α × Shapes)} {a : α} {σ : Shapes}
    (h : f w.shapes = some (a, σ)) : Vm.shapes? f w = .ok a { w with shapes := σ } := by
  unfold Vm.shapes?
  rw [h]

/-! ### Adding a property -/

/-- The object after a property was added: `name` has slot `off`, which holds the value, and the other
properties are as they were. -/
structure AddedTo (w w' : World) (o : ℕ) (name : Symbol) (stored : StoredSlot) (off : ℕ) : Prop where
  table : w'.table o = (w.table o).insert name ⟨off, stored.attributes⟩
  value : (w'.objects o).slots[off]? = some stored.value

theorem addProperty_eq (w : World) (o : ℕ) (name : Symbol) (stored : StoredSlot) {s off : ℕ}
    {σ : Shapes} (hadd : w.shapes.addPropertyTransition (w.objects o).structure_ name
      stored.attributes = (s, off, σ)) (hoff : off < σ.storageCapacity s) :
    addProperty o name stored w = .ok off (w.stored o σ s
      ((resize (w.objects o).slots (σ.storageCapacity s)).set off stored.value)) := by
  have hrun : addProperty o name stored w = (Vm.setDirect o off stored.value >>= fun _ => pure off)
      (w.stored o σ s (resize (w.objects o).slots (σ.storageCapacity s))) := by
    unfold addProperty
    rw [Vm.object_bind]
    unfold Vm.shapes
    rw [Exec.update_bind]
    simp only [hadd]
    unfold setStructure Vm.modifyObject
    simp only [Exec.modify_bind, Exec.gets_bind, World.stored, Function.update_self,
      Function.update_idem]
  rw [hrun, Exec.bind_of_ok (Vm.setDirect_of_lt (by simpa using hoff)), Exec.pure_apply,
    World.stored_stored]
  simp [World.stored]

theorem guards_addProperty (h : w.Inv P) (ho : o < w.nextObject) {name : Symbol}
    {stored : StoredSlot} (hn : name ∉ w.table o)
    (hlen : ¬ (overridesLength (w.objects o).class_ ∧ name = Symbol.length))
    (hst : Storable P w o (.named name) stored) :
    Guards P proper o w (addProperty o name stored w) fun off w' => AddedTo w w' o name stored off := by
  have hadd := h.shapes.addPropertyTransition (h.live ho) hn hst.typed
  rcases heq : w.shapes.addPropertyTransition (w.objects o).structure_ name stored.attributes with
    ⟨s, off, σ⟩
  rw [heq] at hadd
  obtain ⟨ht, hview, hproto, hfree⟩ := hadd
  dsimp only at ht hview hproto hfree
  have hlay := ht.inv.layout ht.live
  have hsize := ht.inv.getSlotsSize_eq ht.live
  have hcap := Shapes.getSlotsSize_le_storageCapacity σ s
  have hlt : ∀ {n e}, (σ.view s).lookup n = some e → e.offset < σ.storageCapacity s := by
    intro n e he
    have := hlay.lt he
    omega
  have hself : (σ.view s).lookup name = some ⟨off, stored.attributes⟩ := by
    rw [hview, Finmap.lookup_insert]
  have hoff := hlt hself
  rw [addProperty_eq w o name stored heq hoff]
  have hother : ∀ {n e}, n ≠ name → (w.table o).lookup n = some e → e.offset ≠ off :=
    fun {n e} hne hold hc => hne (hlay.inj (by rwa [hview, Finmap.lookup_insert_of_ne _ hne]) hself hc)
  refine Guards.of_ok (h.touch_stored ho ht ?_ hst ?_ ?_ hlen ?_) (.of_others name rfl ?_ ?_) ⟨?_, ?_⟩
  · simp
  · intro e he
    obtain rfl := Option.some_inj.mp (hself.symm.trans he)
    exact ⟨rfl, by rw [List.getElem?_set_self (by simpa using hoff)]⟩
  · intro n e hne he
    have hold : (w.table o).lookup n = some e := by
      rw [hview, Finmap.lookup_insert_of_ne _ hne] at he; exact he
    refine ⟨hold, ?_⟩
    rw [List.getElem?_set_ne (hother hne hold).symm,
      getElem?_resize (hlt he) (h.offset_lt ho hold)]
  · intro p hp
    exact h.prototype_lt ho (hproto ▸ hp)
  · intro n s' hne hs
    obtain ⟨e, he, hs⟩ := Option.bind_eq_some_iff.mp hs
    have he' : (σ.view s).lookup n = some e := by rwa [hview, Finmap.lookup_insert_of_ne _ hne]
    refine Option.bind_eq_some_iff.mpr ⟨e, by rwa [World.table_stored], ?_⟩
    rwa [World.slots_stored, List.getElem?_set_ne (hother hne he).symm,
      getElem?_resize (hlt he') (h.offset_lt ho he)]
  · intro s' hs
    obtain ⟨e, he, -⟩ := Option.bind_eq_some_iff.mp hs
    exact absurd (Finmap.mem_of_lookup_eq_some he) hn
  · exact (World.table_stored _ _ _ _ _).trans hview
  · rw [World.slots_stored, List.getElem?_set_self (by simpa using hoff)]

/-! ### Replacing a property -/

/-- Redefining a property that has slot `e.offset` puts the object on a structure with the new
attributes, by a transition if they change at all, and writes the value to the slot. -/
theorem replaceProperty_run (h : w.Inv P) (ho : o < w.nextObject) {name : Symbol} {e : MapEntry}
    (he : (w.table o).lookup name = some e) {stored : StoredSlot} (hty : stored.attributes.Typed) :
    ∃ σ s, replaceProperty o name e.attrs e.offset stored w =
        .ok () (w.stored o σ s ((w.objects o).slots.set e.offset stored.value)) ∧
      w.shapes.Transitioned σ w.held (w.objects o).structure_ s ∧
      σ.view s = (w.table o).insert name { e with attrs := stored.attributes } ∧
      (σ.structures s).deleted = (w.shapes.structures (w.objects o).structure_).deleted ∧
      (σ.structures s).prototype = (w.shapes.structures (w.objects o).structure_).prototype := by
  have hlive := h.live ho
  have hlt := h.offset_lt ho he
  unfold replaceProperty changeAttributes
  by_cases hattr : e.attrs = stored.attributes
  · have hentry : { e with attrs := stored.attributes } = e := by rw [← hattr]
    refine ⟨_, _, ?_, h.shapes.transitioned_refl hlive, ?_, rfl, rfl⟩
    · rw [if_neg (not_not.mpr hattr), Exec.pure_bind_apply, Vm.setDirect_of_lt hlt]
    · rw [hentry]
      exact (insert_of_lookup he).symm
  · obtain ⟨s, σ, hrun, ht, htgt⟩ := h.shapes.changeAttributesTransition hlive he hty
    refine ⟨σ, s, ?_, ht, htgt.view, htgt.deleted, htgt.prototype⟩
    have hmove : (Vm.object o >>= fun obj => Vm.shapes? (fun σ =>
          σ.changeAttributesTransition obj.structure_ name stored.attributes) >>= fun s =>
            setStructure o s) w = .ok () (w.moved o σ s) := by
      rw [Vm.object_bind, Exec.bind_of_ok (Vm.shapes?_of_some hrun)]
      rfl
    have hs : ((w.moved o σ s).objects o).structure_ = s := by simp [World.moved]
    rw [if_pos hattr, Exec.bind_of_ok hmove, Vm.setDirect_of_lt (by rwa [World.slots_moved]),
      World.slots_moved, World.shapes_moved, World.stored_moved, hs]

theorem guards_replace (h : w.Inv P) (ho : o < w.nextObject) {name : Symbol} {e : MapEntry}
    (he : (w.table o).lookup name = some e) (stored : StoredSlot)
    (hlen : ¬ (overridesLength (w.objects o).class_ ∧ name = Symbol.length))
    (hst : Storable P w o (.named name) stored)
    (hsame : ∀ v, (w.objects o).slots[e.offset]? = some v → e.attrs.configurable = false →
      SameProperty proper w w ⟨v, e.attrs⟩ stored) :
    Guards P proper o w (replaceProperty o name e.attrs e.offset stored w) fun _ w' =>
      (w'.table o).lookup name = some { e with attrs := stored.attributes } := by
  have hlive := h.live ho
  have hlay := h.shapes.layout hlive
  have hlt := h.offset_lt ho he
  obtain ⟨σ, s, hrun, ht, hview, hdel, hproto⟩ := replaceProperty_run h ho he hst.typed
  have hcap : σ.storageCapacity s = w.capacity o := by
    refine storageCapacity_target h.shapes ht.inv hlive ht.live ?_
    rw [hview, hdel, tableLen_insert_of_mem (Finmap.mem_of_lookup_eq_some he)]
    rfl
  have hother : ∀ {n d}, n ≠ name → (w.table o).lookup n = some d →
      ((w.objects o).slots.set e.offset stored.value)[d.offset]? = (w.objects o).slots[d.offset]? :=
    fun hne hd => List.getElem?_set_ne fun hc => hne (hlay.inj hd he hc.symm)
  rw [hrun]
  refine Guards.of_ok (h.touch_stored ho ht ?_ hst ?_ ?_ hlen ?_) (.of_others name rfl ?_ ?_) ?_
  · rw [hcap, List.length_set]
    exact (h.ok ho).slots
  · intro d hd
    rw [hview, Finmap.lookup_insert] at hd
    obtain rfl := Option.some_inj.mp hd
    exact ⟨rfl, List.getElem?_set_self hlt⟩
  · intro n d hne hd
    rw [hview, Finmap.lookup_insert_of_ne _ hne] at hd
    exact ⟨hd, hother hne hd⟩
  · intro p hp
    exact h.prototype_lt ho (hproto ▸ hp)
  · intro n s' hne hs
    obtain ⟨d, hd, hs⟩ := Option.bind_eq_some_iff.mp hs
    refine Option.bind_eq_some_iff.mpr ⟨d, ?_, ?_⟩
    · rwa [World.table_stored, hview, Finmap.lookup_insert_of_ne _ hne]
    · rwa [World.slots_stored, hother hne hd]
  · intro s' hs hconf
    obtain ⟨d, hd, hs⟩ := Option.bind_eq_some_iff.mp hs
    obtain rfl := Option.some_inj.mp (he.symm.trans hd)
    obtain ⟨v, hv, rfl⟩ := Option.map_eq_some_iff.mp hs
    refine ⟨stored, Option.bind_eq_some_iff.mpr ⟨{ e with attrs := stored.attributes }, ?_, ?_⟩,
      (hsame v hv hconf).congr rfl⟩
    · rw [World.table_stored, hview, Finmap.lookup_insert]
    · rw [World.slots_stored, List.getElem?_set_self hlt]
      rfl
  · rw [World.table_stored, hview, Finmap.lookup_insert]

/-! ### Removing a property -/

theorem removeProperty_run (h : w.Inv P) (ho : o < w.nextObject) {name : Symbol} {e : MapEntry}
    (he : (w.table o).lookup name = some e) {s : ℕ} {σ : Shapes}
    (hrun : w.shapes.deletePropertyTransition (w.objects o).structure_ name = some (s, σ)) :
    removeProperty o name e.offset w =
      .ok () (w.stored o σ s ((w.objects o).slots.set e.offset .empty)) := by
  have hs : ((w.moved o σ s).objects o).structure_ = s := by simp [World.moved]
  unfold removeProperty
  rw [Vm.object_bind, Exec.bind_of_ok (Vm.shapes?_of_some hrun)]
  change Vm.setDirect o e.offset .empty (w.moved o σ s) = _
  rw [Vm.setDirect_of_lt (by rw [World.slots_moved]; exact h.offset_lt ho he), World.slots_moved,
    World.shapes_moved, World.stored_moved, hs]

theorem guards_remove (h : w.Inv P) (ho : o < w.nextObject) {name : Symbol} {e : MapEntry}
    (he : (w.table o).lookup name = some e) (hconf : e.attrs.configurable = true) :
    Guards P proper o w (removeProperty o name e.offset w) fun _ w' =>
      w'.table o = (w.table o).erase name := by
  have hlive := h.live ho
  have hlay := h.shapes.layout hlive
  have hlt := h.offset_lt ho he
  obtain ⟨s, σ, hrun, ht, htgt⟩ := h.shapes.deletePropertyTransition hlive he
  rw [removeProperty_run h ho he hrun]
  have hcap : σ.storageCapacity s = w.capacity o := by
    refine storageCapacity_target h.shapes ht.inv hlive ht.live ?_
    have := tableLen_erase_of_mem (Finmap.mem_of_lookup_eq_some he)
    rw [htgt.view, htgt.deleted, List.length_cons]
    change _ = tableLen (w.table o) + _
    change tableLen ((w.table o).erase name) + 1 = _ at this
    change tableLen ((w.table o).erase name) + _ = _
    omega
  have hold : ∀ {n d}, (σ.view s).lookup n = some d → n ≠ name ∧ (w.table o).lookup n = some d := by
    intro n d hd
    rw [htgt.view, lookup_erase_eq] at hd
    split at hd
    · cases hd
    · exact ⟨‹_›, hd⟩
  refine Guards.of_ok
    (h.touch_slot ho ht ?_ (.sparse 0) (fun l s' hs' => .inl ?_) (fun hp hc hmem => ?_) ?_ rfl)
    (.of_others name rfl ?_ ?_) ?_
  · dsimp only
    rw [hcap, List.length_set]
    exact (h.ok ho).slots
  · cases l with
    | sparse i => exact hs'
    | named n =>
      obtain ⟨d, hd, hs'⟩ := Option.bind_eq_some_iff.mp hs'
      obtain ⟨hne, hd⟩ := hold hd
      refine Option.bind_eq_some_iff.mpr ⟨d, hd, ?_⟩
      rwa [List.getElem?_set_ne fun hc => hne (hlay.inj hd he hc.symm)] at hs'
  · obtain ⟨d, hd⟩ := Finmap.mem_iff.mp hmem
    exact (h.ok ho).no_length hp hc (Finmap.mem_of_lookup_eq_some (hold hd).2)
  · intro p hp
    exact h.prototype_lt ho (htgt.prototype ▸ hp)
  · intro n s' hne hs
    obtain ⟨d, hd, hs⟩ := Option.bind_eq_some_iff.mp hs
    refine Option.bind_eq_some_iff.mpr ⟨d, ?_, ?_⟩
    · rwa [World.table_stored, htgt.view, lookup_erase_eq, if_neg hne]
    · rwa [World.slots_stored, List.getElem?_set_ne fun hc => hne (hlay.inj hd he hc.symm)]
  · intro s' hs hnc
    obtain ⟨d, hd, hs⟩ := Option.bind_eq_some_iff.mp hs
    obtain rfl := Option.some_inj.mp (he.symm.trans hd)
    obtain ⟨v, -, rfl⟩ := Option.map_eq_some_iff.mp hs
    rw [hconf] at hnc
    cases hnc
  · rw [World.table_stored]
    exact htgt.view

/-! ### Defining a property -/

theorem guards_storedSlotNew (h : w.Inv P) (ho : o < w.nextObject) (l : Loc)
    {desc : PropertyDescriptor} (hundef : P .undefined)
    (hval : ∀ n, l = .named n → desc.attrs.data = true → desc.attrs.undefValue = false →
      P desc.fst) :
    Guards P proper o w (StoredSlot.new desc w) fun s w' =>
      Storable P w' o l s ∧ w'.objects = w.objects ∧ w'.shapes = w.shapes := by
  have hacc : ∀ {a : AttrExternal} {v : JsValue}, (createData a).accessor = true →
      v = .empty ∨ ∃ c, v = .accessor c ∧ c < w.nextAccessor ∧ FreshFor w o l c := by
    intro a v ha
    unfold createData at ha
    dsimp only at ha
    split at ha <;> cases ha
  unfold StoredSlot.new
  refine Guards.ite (fun hd => ?_) fun _ => Guards.ite (fun _ => ?_) fun _ => ?_
  · refine Guards.pure h ⟨⟨createData_typed _, hacc, fun n hn _ => ?_⟩, rfl, rfl⟩
    dsimp only
    split
    · exact hundef
    · next huv => exact hval n hn hd (by simpa using huv)
  · refine Guards.bind (guards_newAccessor h ho _ _ l)
      fun c w₁ ht₁ ⟨_, hlt, hfresh, hobj, hsh⟩ => ?_
    exact Guards.pure ht₁.inv ⟨⟨createAccessor_typed _, fun _ => .inr ⟨c, rfl, hlt, hfresh⟩,
      fun _ _ hd => nomatch hd⟩, hobj, hsh⟩
  · exact Guards.pure h ⟨⟨createData_typed _, hacc, fun _ _ _ => hundef⟩, rfl, rfl⟩

/-- What a definition asks of its descriptor: a data value satisfies `P`, and so does the word that is
left behind when an accessor property becomes a data property without a value. -/
structure Definable (P : Policy) (w : World) (o : ℕ) (name : Symbol)
    (desc : PropertyDescriptor) : Prop where
  value : desc.attrs.data = true → desc.attrs.undefValue = false → P desc.fst
  leak : ∀ e v, (w.table o).lookup name = some e → (w.objects o).slots[e.offset]? = some v →
    e.attrs.accessor = true → desc.attrs.data = true → desc.attrs.undefValue = true → P v

theorem Definable.of_value {name : Symbol} {desc : PropertyDescriptor}
    (hv : desc.attrs.undefValue = false) (hp : P desc.fst) : Definable P w o name desc where
  value _ _ := hp
  leak _ _ _ _ _ _ hu := by rw [hv] at hu; cases hu

/-- What the slot says after a definition: it may not be cached, or it belongs to a new property, or
it gives the place and the attributes of the property that was redefined. -/
def DefinedBy (w w' : World) (o : ℕ) (name : Symbol) (desc : PropertyDescriptor) (slot : Slot) :
    Prop :=
  slot.putCacheable = false ∨ slot.putResult = .new ∨ ∃ off a, slot.offset = some off ∧
    (w.table o).lookup name = some ⟨off, a⟩ ∧
      (w'.table o).lookup name = some ⟨off, StoredSlot.mergeAttrs a desc⟩

/-- `defineOwnNonIndexedPropertySlotMethod`, for a name that the class does not answer itself. -/
theorem guards_defineOwnNonIndexedPropertySlotMethod (h : w.Inv P) (ho : o < w.nextObject)
    {name : Symbol} (hname : ∀ i, name ≠ .index i) {desc : PropertyDescriptor} (slot : Slot)
    (throwable : Bool) (hundef : P .undefined) (hd : Definable P w o name desc)
    (hlen : ¬ (overridesLength (w.objects o).class_ ∧ name = Symbol.length))
    (hslot : slot.isNotFound = true ∨ slot.base ≠ some o ∨ name ∈ w.table o)
    (hput : slot.putCacheable = false) (hproper : proper → desc.Proper) :
    Guards P proper o w (defineOwnNonIndexedPropertySlotMethod o name desc slot throwable w)
      fun r w' => DefinedBy w w' o name desc r.2 := by
  unfold defineOwnNonIndexedPropertySlotMethod
  have hown : Reads P w ((if slot.isUsed then (pure (true, slot) : Vm (Bool × Slot))
      else getOwnPropertySlot o name slot) w) fun r => OwnLookup w o name slot r.1 r.2 := by
    rw [Slot.isUsed, if_neg Bool.false_ne_true, getOwnPropertySlot_of_not_index hname]
    exact reads_getOwnNonIndexedPropertySlot h ho _ slot
  refine Reads.bind_guards h hown ?_
  rintro ⟨found, slot'⟩ w₁ hr hlook
  have hw₁ := hr.inv
  have ho₁ : o < w₁.nextObject := hr.nextObject ▸ ho
  have htab : w₁.table o = w.table o := hr.table h ho
  cases hlook with
  | special v a _ hs => exact absurd hs hlen
  | absent c he =>
    have hnot : name ∉ w.table o := by rwa [← Finmap.lookup_eq_none]
    refine Guards.ite (fun hc => ?_) fun _ => ?_
    · simp only [Bool.and_eq_true, Bool.not_eq_true', decide_eq_true_eq] at hc
      rcases hslot with hs | hs | hs
      · exact absurd (hc.1.symm.trans hs) Bool.false_ne_true
      · exact absurd hc.2 hs
      · exact absurd hs hnot
    · rw [Vm.object_bind]
      refine Guards.ite (fun _ => ?_) fun _ => ?_
      · exact (Reads.reject hw₁ _ _ (R := fun r => r.2.putCacheable = false) hput).guards hw₁
          |>.mono fun r w' _ hr => .inl hr
      · refine Guards.bind (guards_storedSlotNew hw₁ ho₁ (.named name) hundef
          fun _ _ => hd.value) fun stored w₂ ht₂ hr₂ => ?_
        obtain ⟨hst, hobj, hsh⟩ := hr₂
        have htab₂ : w₂.table o = w.table o := by
          rw [World.table, hobj, hsh]; exact htab
        refine Guards.bind (guards_addProperty ht₂.inv (ht₂.nextObject ▸ ho₁)
          (by rw [htab₂]; exact hnot) (by rw [hobj, hr.objects]; exact hlen) hst)
          fun off w₃ ht₃ _ => Guards.pure ht₃.inv (.inr (.inl rfl))
  | named e v c he hv hs =>
    have he₁ : (w₁.table o).lookup name = some e := htab ▸ he
    have hv₁ : (w₁.objects o).slots[e.offset]? = some v := hr.objects ▸ hv
    have hslot₁ := namedSlot_of_lookup he₁ hv₁
    have hst : Storable P w₁ o (.named name) ⟨v, e.attrs⟩ := hw₁.storable ho₁ hslot₁
    refine Guards.ite (fun _ => ?_) fun hc => ?_
    · refine Reads.bind_guards hw₁
        (reads_isDefinedPropertyAccepted hw₁ hst.hasCell hst.typed desc throwable) ?_
      rintro ⟨accepted, returned⟩ w₂ hr₂ hacc
      refine Guards.ite (fun ha => ?_) fun _ => Guards.pure hr₂.inv (.inl hput)
      have ho₂ : o < w₂.nextObject := hr₂.nextObject ▸ ho₁
      have he₂ : (w₂.table o).lookup name = some e := hr₂.table hw₁ ho₁ ▸ he₁
      have hslot₂ : namedSlot (w₂.table o) (w₂.objects o) name = some ⟨v, e.attrs⟩ := by
        rw [hr₂.table hw₁ ho₁, hr₂.objects]
        exact hslot₁
      refine Guards.bind (guards_merge hr₂.inv ho₂ (hr₂.inv.storable (l := .named name) ho₂ hslot₂)
        (fun n hn => ⟨hd.value, fun hda huv ha => hd.leak e v he hv ha hda huv⟩) fun n hn => ?_)
        fun stored w₃ ht₃ hr₃ => ?_
      · cases hn
        rw [hr₂.accessors]
        exact ⟨hslot₂, fun hconf => (hacc hconf ha).mono hproper⟩
      obtain ⟨hst₃, hattr, hobj₃, hsh₃, hsame⟩ := hr₃
      have he₃ : (w₃.table o).lookup name = some e := by
        rw [World.table, hobj₃, hsh₃]; exact he₂
      have hrep : Guards P proper o w₃ _ _ := guards_replace ht₃.inv (ht₃.nextObject ▸ ho₂) he₃ stored
        (by rw [hobj₃, hr₂.objects, hr.objects]; exact hlen) hst₃ fun v' hv' hconf => by
          rw [hobj₃, hr₂.objects, hv₁] at hv'
          cases hv'
          exact (hsame name rfl hconf).congr rfl
      refine Guards.bind hrep fun _ w₄ ht₄ he₄ => ?_
      rw [hattr] at he₄
      exact Guards.pure ht₄.inv (.inr (.inr ⟨e.offset, e.attrs, rfl, he, he₄⟩))
    · refine absurd ?_ hc
      simp [Slot.isNotFound, Slot.attributes, hst.typed.isNotFound]

end Starlight
