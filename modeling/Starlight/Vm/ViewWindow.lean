import Starlight.Vm.DataView

/-!
# Windows of views

Whatever the functions of `DataView` read or write lies in the window of the view, also when the buffer has
another block by now. A call that throws has touched no byte.
-/

namespace Starlight

open Exec

variable {h : BufferHeap}

section

variable {α β : Type} {W : Set (BitVec 64)}

/-- Code that neither reads nor changes the heap. -/
def Steady (x : Buffers α) : Prop := (∃ a, ∀ h, x h = .ok a h) ∨ ∃ e, ∀ h, x h = .error e h

/-- The code changes nothing, and its value depends on the bytes in `W` only. If it fails, it has read no
byte. -/
def ReadsWithin (W : Set (BitVec 64)) (h : BufferHeap) (x : Buffers α) : Prop :=
  (∃ a, ∀ m : Memory, (∀ p ∈ W, m p = h.memory p) → x (h.withMemory m) = .ok a (h.withMemory m)) ∨
    (∃ e, ∀ m, x (h.withMemory m) = .error e (h.withMemory m)) ∨ ∀ m, x (h.withMemory m) = .stuck

/-- The code reads no byte, and changes nothing but bytes in `W`. If it fails, it has changed none. -/
def WritesWithin (W : Set (BitVec 64)) (h : BufferHeap) (x : Buffers Unit) : Prop :=
  (∃ p bs, (∀ m : Memory, ∀ a, a ∉ W → m.store p bs a = m a) ∧
      ∀ m, x (h.withMemory m) = .ok () (h.withMemory (m.store p bs))) ∨
    (∃ e, ∀ m, x (h.withMemory m) = .error e (h.withMemory m)) ∨ ∀ m, x (h.withMemory m) = .stuck

theorem Steady.state {x : Buffers α} {h' : BufferHeap} {a : α} (hx : Steady x) (hrun : x h = .ok a h') :
    h' = h := by
  rcases hx with ⟨b, hb⟩ | ⟨e, he⟩
  · rw [hb] at hrun
    exact (Result.ok.inj hrun).2.symm
  · rw [he] at hrun
    cases hrun

theorem steady_convert (r : Except Failure α) : Steady (Buffers.convert r) := by
  cases r with
  | ok a => exact .inl ⟨a, fun _ => rfl⟩
  | error e => exact .inr ⟨_, fun _ => rfl⟩

theorem Steady.bind {x : Buffers α} {f : α → Buffers β} (hx : Steady x) (hf : ∀ a, Steady (f a)) :
    Steady (x >>= f) := by
  rcases hx with ⟨a, ha⟩ | ⟨e, he⟩
  · have heq : ∀ h, (x >>= f) h = f a h := fun h => bind_of_ok (ha h) f
    exact (hf a).imp (fun ⟨b, hb⟩ => ⟨b, fun h => (heq h).trans (hb h)⟩)
      fun ⟨e, he⟩ => ⟨e, fun h => (heq h).trans (he h)⟩
  · exact .inr ⟨e, fun h => by rw [bind_apply, he]⟩

theorem steady_toIndex (c : Conversions) (val : JsValue) : Steady (toIndex c val) := by
  refine (steady_convert _).bind fun res => ?_
  split
  · exact .inr ⟨_, fun _ => rfl⟩
  · split
    · exact .inr ⟨_, fun _ => rfl⟩
    · exact .inl ⟨_, fun _ => rfl⟩

theorem ReadsWithin.congr {x y : Buffers α} (hy : ReadsWithin W h y)
    (heq : ∀ m, x (h.withMemory m) = y (h.withMemory m)) : ReadsWithin W h x :=
  hy.imp (fun ⟨b, hb⟩ => ⟨b, fun m hm => (heq m).trans (hb m hm)⟩)
    (Or.imp (fun ⟨e, he⟩ => ⟨e, fun m => (heq m).trans (he m)⟩) fun hs m => (heq m).trans (hs m))

theorem WritesWithin.congr {x y : Buffers Unit} (hy : WritesWithin W h y)
    (heq : ∀ m, x (h.withMemory m) = y (h.withMemory m)) : WritesWithin W h x :=
  hy.imp (fun ⟨p, bs, hframe, hb⟩ => ⟨p, bs, hframe, fun m => (heq m).trans (hb m)⟩)
    (Or.imp (fun ⟨e, he⟩ => ⟨e, fun m => (heq m).trans (he m)⟩) fun hs m => (heq m).trans (hs m))

theorem ReadsWithin.run {x : Buffers α} (hx : ReadsWithin W h x) :
    (∃ a, x h = .ok a h) ∨ (∃ e, x h = .error e h) ∨ x h = .stuck :=
  hx.imp (fun ⟨a, ha⟩ => ⟨a, ha h.memory fun _ _ => rfl⟩)
    (Or.imp (fun ⟨e, he⟩ => ⟨e, he h.memory⟩) fun hs => hs h.memory)

theorem WritesWithin.run {x : Buffers Unit} (hx : WritesWithin W h x) :
    (∃ p bs, x h = .ok () (h.withMemory (h.memory.store p bs))) ∨ (∃ e, x h = .error e h) ∨ x h = .stuck :=
  hx.imp (fun ⟨p, bs, _, hb⟩ => ⟨p, bs, hb h.memory⟩)
    (Or.imp (fun ⟨e, he⟩ => ⟨e, he h.memory⟩) fun hs => hs h.memory)

theorem ReadsWithin.map {x : Buffers α} (hx : ReadsWithin W h x) (f : α → β) :
    ReadsWithin W h (x >>= fun a => pure (f a)) := by
  rcases hx with ⟨a, ha⟩ | ⟨e, he⟩ | hs
  · exact .inl ⟨f a, fun m hm => bind_of_ok (ha m hm) _⟩
  · exact .inr (.inl ⟨e, fun m => by rw [bind_apply, he]⟩)
  · exact .inr (.inr fun m => by rw [bind_apply, hs])

theorem readsWithin_fail (e : BufferFault) : ReadsWithin W h (fail e : Buffers α) :=
  .inr (.inl ⟨e, fun _ => rfl⟩)

theorem writesWithin_fail (e : BufferFault) : WritesWithin W h (fail e) := .inr (.inl ⟨e, fun _ => rfl⟩)

theorem readsWithin_attached {o : ℕ} {f : Bool → Buffers α}
    (hf : ReadsWithin W h (f (h.buffer o).attached)) :
    ReadsWithin W h (gets (fun h => (h.buffer o).attached) >>= f) :=
  hf.congr fun _ => rfl

theorem writesWithin_attached {o : ℕ} {f : Bool → Buffers Unit}
    (hf : WritesWithin W h (f (h.buffer o).attached)) :
    WritesWithin W h (gets (fun h => (h.buffer o).attached) >>= f) :=
  hf.congr fun _ => rfl

theorem Steady.readsWithin {x : Buffers α} {f : α → Buffers β} (hx : Steady x)
    (hf : ∀ a, ReadsWithin W h (f a)) : ReadsWithin W h (x >>= f) := by
  rcases hx with ⟨a, ha⟩ | ⟨e, he⟩
  · exact (hf a).congr fun m => bind_of_ok (ha _) f
  · exact .inr (.inl ⟨e, fun m => by rw [bind_apply, he]⟩)

theorem Steady.writesWithin {x : Buffers α} {f : α → Buffers Unit} (hx : Steady x)
    (hf : ∀ a, WritesWithin W h (f a)) : WritesWithin W h (x >>= f) := by
  rcases hx with ⟨a, ha⟩ | ⟨e, he⟩
  · exact (hf a).congr fun m => bind_of_ok (ha _) f
  · exact .inr (.inl ⟨e, fun m => by rw [bind_apply, he]⟩)

end

/-- The addresses that a view covers. -/
def DataView.window (v : DataView) (h : BufferHeap) : Set (BitVec 64) :=
  {a | (a - ((h.buffer v.buffer).data + BitVec.ofNat 64 v.offset)).toNat < v.length}

/-- The window of an object, if it is a view. -/
def BufferHeap.windowOf (h : BufferHeap) (this : JsValue) : Set (BitVec 64) :=
  {a | ∃ o v, this = .object o ∧ h.views o = some v ∧ a ∈ v.window h}

section

variable {v : DataView} {t : ElementType} {offset i n : ℕ} {a : BitVec 64}

@[simp] theorem length_nativeBytes (system : Endianess) (w bits : ℕ) :
    (nativeBytes system w bits).length = w := by
  unfold nativeBytes
  split
  · rw [List.length_reverse, length_leBytes]
  · exact length_leBytes w bits

theorem DataView.mem_window (hn : offset + n ≤ v.length) (hi : (a - v.address h offset).toNat < n) :
    a ∈ v.window h := by
  have hsum : a - ((h.buffer v.buffer).data + BitVec.ofNat 64 v.offset) =
      BitVec.ofNat 64 offset + (a - v.address h offset) := by
    rw [DataView.address]
    bv_omega
  change (a - _).toNat < v.length
  rw [hsum, BitVec.toNat_add, BitVec.toNat_ofNat]
  have := Nat.mod_le (offset % 2 ^ 64 + (a - v.address h offset).toNat) (2 ^ 64)
  have := Nat.mod_le offset (2 ^ 64)
  omega

theorem writesWithin_set (system : Endianess) (v : DataView) (h : BufferHeap) (t : ElementType)
    (offset bits : ℕ) (littleEndian : Bool) :
    WritesWithin (v.window h) h (v.set system t offset bits littleEndian) := by
  by_cases hlen : v.length < offset + t.size
  · exact .inr (.inr fun m => DataView.set_stuck hlen bits littleEndian)
  have hle := Nat.le_of_not_lt hlen
  cases hatt : (h.buffer v.buffer).attached with
  | false => exact .inr (.inr fun m => DataView.set_detached (h := h.withMemory m) hatt bits littleEndian)
  | true =>
    refine .inl ⟨v.address h offset, nativeBytes system t.size
      (byteSwap system t.size bits (if littleEndian then .little else .big)), fun m a ha => ?_,
      fun m => DataView.set_eq (h := h.withMemory m) hatt hle bits littleEndian⟩
    refine Memory.store_of_le (Nat.le_of_not_lt fun hlt => ha (DataView.mem_window hle ?_))
    rwa [length_nativeBytes] at hlt

theorem readsWithin_get (system : Endianess) (v : DataView) (h : BufferHeap) (t : ElementType)
    (offset : ℕ) (littleEndian : Bool) (hatt : (h.buffer v.buffer).attached = true)
    (hlen : offset + t.size ≤ v.length) :
    ReadsWithin (v.window h) h (v.get system t offset littleEndian) := by
  refine .inl ⟨byteSwap system t.size (ofNativeBytes system (h.memory.load (v.address h offset) t.size))
    (if littleEndian then .little else .big), fun m hm => ?_⟩
  have hload : m.load (v.address h offset) t.size = h.memory.load (v.address h offset) t.size := by
    refine Memory.load_congr fun i hi => hm _ (DataView.mem_window hlen ?_)
    rw [Memory.toNat_add_sub_mod]
    exact (Nat.mod_le i _).trans_lt hi
  rw [← hload]
  exact DataView.get_eq (h := h.withMemory m) hatt hlen littleEndian

theorem windowOf_object {o : ℕ} (hv : h.views o = some v) : h.windowOf (.object o) = v.window h := by
  ext a
  constructor
  · rintro ⟨o', v', ho, hv', ha⟩
    obtain rfl := JsValue.object.inj ho
    obtain rfl := Option.some.inj (hv.symm.trans hv')
    exact ha
  · exact fun ha => ⟨o, v, rfl, hv, ha⟩

theorem writesWithin_dataViewPrototypeSet (system : Endianess) (t : ElementType) (found : JsValue → String)
    (c : Conversions) (this : JsValue) (args : List JsValue) (h : BufferHeap) :
    WritesWithin (h.windowOf this) h (dataViewPrototypeSet system t found c this args) := by
  cases this with
  | object o =>
    cases hv : h.views o with
    | none =>
      have hnone := fun m => tryFromView_none (h := h.withMemory m) hv found
      refine .inr (.inl ⟨.throw (.typeError s!"Expected class 'DataView' but found '{found (.object o)}'"),
        fun m => ?_⟩)
      rw [dataViewPrototypeSet, bind_apply, hnone]
    | some v =>
      rw [windowOf_object hv]
      refine WritesWithin.congr ?_ fun m => bind_of_ok (tryFromView_some (h := h.withMemory m) hv found) _
      refine (steady_toIndex c _).writesWithin fun byteOffset => writesWithin_attached ?_
      split
      · exact writesWithin_fail _
      · split
        · exact writesWithin_fail _
        · exact (steady_convert _).writesWithin fun num => writesWithin_set system v h _ _ _ _
  | _ => exact .inr (.inl ⟨_, fun m => rfl⟩)

theorem readsWithin_dataViewPrototypeGet (system : Endianess) (t : ElementType) (c : Conversions)
    (this : JsValue) (args : List JsValue) (h : BufferHeap) :
    ReadsWithin (h.windowOf this) h (dataViewPrototypeGet system t c this args) := by
  cases this with
  | object o =>
    have hthis : ∀ m, thisView (.object o) (h.withMemory m) = .ok (h.views o) (h.withMemory m) :=
      fun _ => rfl
    refine ReadsWithin.congr ?_ fun m => bind_of_ok (hthis m) _
    cases hv : h.views o with
    | none => exact readsWithin_fail _
    | some v =>
      rw [windowOf_object hv]
      refine (steady_toIndex c _).readsWithin fun byteOffset => readsWithin_attached ?_
      split
      · exact readsWithin_fail _
      · next hatt =>
        split
        · exact readsWithin_fail _
        · next hlen =>
          have hatt' := Bool.eq_true_of_not_eq_false hatt
          exact (readsWithin_get system v h t _ _ hatt' (Nat.le_of_not_lt hlen)).map t.toValue
  | _ => exact .inr (.inl ⟨_, fun m => rfl⟩)

end

end Starlight
