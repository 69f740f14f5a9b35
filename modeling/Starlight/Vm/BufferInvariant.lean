import Starlight.Vm.ViewWindow

/-!
# Bounds of buffers and views

Between calls, a buffer with a block is attached, and the block is its own and has as many bytes as the
slot says; a buffer without one has length zero (`Consistent`). The window of a view was a part of its
buffer when the view was made.
-/

namespace Starlight

open Exec

/-! ### Lengths -/

namespace ArrayBuffer

variable {b : ArrayBuffer} {size : ℕ}

@[simp] theorem byteLength_setSize (b : ArrayBuffer) (size : ℕ) :
    (b.setSize size).byteLength = size % 2 ^ 32 := by
  rw [byteLength, setSize]
  dsimp only
  rw [getInt32_new_u32 (Nat.mod_lt size (Nat.two_pow_pos 32))]

end ArrayBuffer

namespace BufferHeap

variable {h h' : BufferHeap} {o o' size : ℕ} {b : ArrayBuffer} {p : BitVec 64} {libc : Allocator}
  {zero : Bool}

theorem buffer_setBuffer (h : BufferHeap) (o o' : ℕ) (b : ArrayBuffer) :
    (h.setBuffer o b).buffer o' = if o' = o then b else h.buffer o' := by
  change (Function.update h.buffers o (some b) o').getD .prototype = _
  rw [Function.update_apply]
  split <;> rfl

@[simp] theorem buffer_setBuffer_self (h : BufferHeap) (o : ℕ) (b : ArrayBuffer) :
    (h.setBuffer o b).buffer o = b := by
  rw [buffer_setBuffer, if_pos rfl]

/-! ### The invariant -/

structure BlocksApart (blocks : List (BitVec 64 × ℕ)) : Prop where
  size_pos : ∀ b ∈ blocks, 0 < b.2
  fits : ∀ b ∈ blocks, b.1.toNat + b.2 ≤ 2 ^ 64
  apart : blocks.Pairwise fun b b' => b.1.toNat + b.2 ≤ b'.1.toNat ∨ b'.1.toNat + b'.2 ≤ b.1.toNat

structure Consistent (h : BufferHeap) : Prop where
  blocks : BlocksApart h.blocks
  unborn : ∀ o, h.nextObject ≤ o → h.buffers o = none ∧ h.views o = none
  owned : ∀ o, (h.buffer o).data ≠ 0 → (h.buffer o).attached = true ∧
    ((h.buffer o).data, (h.buffer o).byteLength) ∈ h.blocks
  empty : ∀ o, (h.buffer o).data = 0 → (h.buffer o).byteLength = 0
  exclusive : ∀ o o', (h.buffer o).data = (h.buffer o').data → (h.buffer o).data ≠ 0 → o = o'

/-- A step on buffer `o` leaves the other objects alone. -/
structure Changes (h : BufferHeap) (o : ℕ) (h' : BufferHeap) : Prop where
  nextObject : h'.nextObject = h.nextObject
  views : h'.views = h.views
  buffers : ∀ o', o' ≠ o → h'.buffers o' = h.buffers o'

theorem Changes.trans {h'' : BufferHeap} (h₁ : h.Changes o h') (h₂ : h'.Changes o h'') :
    h.Changes o h'' where
  nextObject := h₂.nextObject.trans h₁.nextObject
  views := h₂.views.trans h₁.views
  buffers o' ho := (h₂.buffers o' ho).trans (h₁.buffers o' ho)

theorem changes_setBuffer (h : BufferHeap) (o : ℕ) (b : ArrayBuffer) : h.Changes o (h.setBuffer o b) :=
  ⟨rfl, rfl, fun _ ho => Function.update_of_ne ho _ _⟩

theorem Consistent.change (hc : h.Consistent) (hch : h.Changes o h') (ho : o < h.nextObject)
    (hblocks : BlocksApart h'.blocks)
    (hkept : ∀ o', o' ≠ o → (h.buffer o').data ≠ 0 → (h.buffer o').data ≠ (h'.buffer o).data ∧
      ((h.buffer o').data, (h.buffer o').byteLength) ∈ h'.blocks)
    (howned : (h'.buffer o).data ≠ 0 → (h'.buffer o).attached = true ∧
      ((h'.buffer o).data, (h'.buffer o).byteLength) ∈ h'.blocks)
    (hempty : (h'.buffer o).data = 0 → (h'.buffer o).byteLength = 0) : h'.Consistent := by
  have hother : ∀ o', o' ≠ o → h'.buffer o' = h.buffer o' := fun o' ho' => by
    rw [buffer, hch.buffers o' ho', buffer]
  refine ⟨hblocks, fun o' ho' => ?_, fun o' hdata => ?_, fun o' hdata => ?_, fun o₁ o₂ heq hdata => ?_⟩
  · rw [hch.nextObject] at ho'
    rw [hch.buffers o' (by omega), hch.views]
    exact hc.unborn o' ho'
  · by_cases ho' : o' = o
    · subst ho'
      exact howned hdata
    · rw [hother o' ho'] at hdata ⊢
      exact ⟨(hc.owned o' hdata).1, (hkept o' ho' hdata).2⟩
  · by_cases ho' : o' = o
    · subst ho'
      exact hempty hdata
    · rw [hother o' ho'] at hdata ⊢
      exact hc.empty o' hdata
  · by_cases h₁ : o₁ = o
    · by_cases h₂ : o₂ = o
      · rw [h₁, h₂]
      · subst h₁
        rw [hother o₂ h₂] at heq
        exact absurd heq.symm (hkept o₂ h₂ (heq ▸ hdata)).1
    · rw [hother o₁ h₁] at heq hdata
      by_cases h₂ : o₂ = o
      · subst h₂
        exact absurd heq (hkept o₁ h₁ hdata).1
      · rw [hother o₂ h₂] at heq
        exact hc.exclusive o₁ o₂ heq hdata

/-! ### The steps -/

@[simp] theorem buffer_alloc (h : BufferHeap) (o : ℕ) (p : BitVec 64) (size : ℕ) (zero : Bool) :
    (h.alloc p size zero).buffer o = h.buffer o := by
  unfold alloc
  split <;> rfl

theorem Consistent.mem_of_data (hc : h.Consistent) (hd : (h.buffer o).data ≠ 0) :
    ((h.buffer o).data, (h.buffer o).byteLength) ∈ h.blocks := (hc.owned o hd).2

theorem changes_detach (h : BufferHeap) (o : ℕ) : h.Changes o (h.detach o) := by
  unfold detach
  split
  · exact ⟨rfl, rfl, fun _ ho => Function.update_of_ne ho _ _⟩
  · exact changes_setBuffer _ _ _

theorem Consistent.buffer_detach (hc : h.Consistent) (o : ℕ) : ((h.detach o).buffer o).data = 0 ∧
    ((h.detach o).buffer o).attached = false ∧ ((h.detach o).buffer o).byteLength = 0 := by
  unfold detach
  split
  · rw [buffer_setBuffer_self]
    exact ⟨rfl, rfl, ArrayBuffer.byteLength_setSize ((h.buffer o).setData 0) 0⟩
  · next hd =>
    rw [buffer_setBuffer_self]
    exact ⟨not_not.mp hd, rfl, hc.empty o (not_not.mp hd)⟩

theorem Consistent.detach (hc : h.Consistent) (ho : o < h.nextObject) : (h.detach o).Consistent := by
  obtain ⟨hdata, -, hlen⟩ := hc.buffer_detach o
  refine hc.change (changes_detach h o) ho ?_ (fun o' ho' hd => ⟨?_, ?_⟩) (fun hd => absurd hdata hd)
    fun _ => hlen
  · unfold BufferHeap.detach
    split
    · exact ⟨fun b hb => hc.blocks.size_pos b (List.mem_of_mem_filter hb),
        fun b hb => hc.blocks.fits b (List.mem_of_mem_filter hb), hc.blocks.apart.filter _⟩
    · exact hc.blocks
  · rwa [hdata]
  · have hmem := hc.mem_of_data hd
    unfold BufferHeap.detach
    split
    · next hown =>
      refine List.mem_filter.mpr ⟨hmem, decide_eq_true fun heq => ?_⟩
      exact ho' (hc.exclusive o' o heq hd)
    · exact hmem

theorem changes_alloc (h : BufferHeap) (o : ℕ) (p : BitVec 64) (size : ℕ) (zero : Bool) :
    h.Changes o (h.alloc p size zero) := by
  unfold alloc
  split
  · exact ⟨rfl, rfl, fun _ _ => rfl⟩
  · exact ⟨rfl, rfl, fun _ _ => rfl⟩

theorem blocks_alloc (h : BufferHeap) {p : BitVec 64} (hp : p ≠ 0) (size : ℕ) (zero : Bool) :
    (h.alloc p size zero).blocks = (p, size) :: h.blocks := by
  rw [alloc, if_neg hp]

theorem Consistent.alloc (hc : h.Consistent) (ho : o < h.nextObject) (hp : p ≠ 0)
    (hret : h.Returns p size) (hpos : 0 < size) (hd : b.data = p) (hatt : b.attached = true)
    (hlen : b.byteLength = size) : ((h.alloc p size zero).setBuffer o b).Consistent := by
  obtain ⟨hfits, hfresh⟩ := hret.resolve_left hp
  have hblocks : ((h.alloc p size zero).setBuffer o b).blocks = (p, size) :: h.blocks :=
    blocks_alloc h hp _ _
  refine hc.change ((changes_alloc h o p size zero).trans (changes_setBuffer _ o b)) ho ?_ ?_ ?_ ?_
  · rw [hblocks]
    exact ⟨List.forall_mem_cons.mpr ⟨hpos, hc.blocks.size_pos⟩,
      List.forall_mem_cons.mpr ⟨hfits, hc.blocks.fits⟩, List.pairwise_cons.mpr ⟨hfresh, hc.blocks.apart⟩⟩
  · intro o' ho' hd'
    rw [hblocks, buffer_setBuffer_self, hd]
    have hmem := hc.mem_of_data hd'
    refine ⟨?_, List.mem_cons_of_mem _ hmem⟩
    rintro rfl
    have hsize := hc.blocks.size_pos _ hmem
    have := hfresh _ hmem
    dsimp only at hsize this
    omega
  · rw [hblocks, buffer_setBuffer_self, hd, hlen]
    exact fun _ => ⟨hatt, List.mem_cons_self⟩
  · rw [buffer_setBuffer_self, hd]
    exact fun h0 => absurd h0 hp

theorem Consistent.setBuffer (hc : h.Consistent) (ho : o < h.nextObject) (hd : b.data = 0)
    (hlen : b.byteLength = 0) : (h.setBuffer o b).Consistent := by
  refine hc.change (changes_setBuffer h o b) ho hc.blocks (fun o' ho' hd' => ⟨?_, hc.mem_of_data hd'⟩) ?_ ?_
  · rwa [buffer_setBuffer_self, hd]
  · rw [buffer_setBuffer_self]
    exact fun hne => absurd hd hne
  · rw [buffer_setBuffer_self]
    exact fun _ => hlen

end BufferHeap

open BufferHeap

variable {h h' : BufferHeap} {o : ℕ}

theorem createDataBlock_cases (libc : Allocator) (o size : ℕ) (zero : Bool) (h : BufferHeap) :
    (size = 0 ∧ createDataBlock libc o size zero h =
      .ok () ((h.detach o).setBuffer o (((h.detach o).buffer o).setAttached true))) ∨
    (0 < size ∧ size < 2 ^ 32 ∧ libc.place (h.detach o) size ≠ 0 ∧ createDataBlock libc o size zero h =
      .ok () (((h.detach o).alloc (libc.place (h.detach o) size) size zero).setBuffer o
        (((((h.detach o).buffer o).setData (libc.place (h.detach o) size)).setAttached true).setSize
          size))) ∨
    (0 < size ∧ (2 ^ 32 ≤ size ∨ libc.place (h.detach o) size = 0) ∧
      ∃ e, createDataBlock libc o size zero h = .error e (h.detach o) ∨
        createDataBlock libc o size zero h =
          .error e ((h.detach o).setBuffer o (((h.detach o).buffer o).setData 0))) := by
  unfold createDataBlock
  rw [modify_bind]
  by_cases hzero : size = 0
  · exact .inl ⟨hzero, by rw [if_pos hzero]; rfl⟩
  rw [if_neg hzero]
  by_cases hlarge : 2 ^ 32 - 1 < size
  · rw [if_pos hlarge]
    exact .inr (.inr ⟨Nat.pos_of_ne_zero hzero, .inl (by omega), _, .inl rfl⟩)
  rw [if_neg hlarge, gets_bind, modify_bind]
  by_cases hp : libc.place (h.detach o) size = 0
  · rw [if_pos hp, hp]
    exact .inr (.inr ⟨Nat.pos_of_ne_zero hzero, .inr rfl, _, .inr rfl⟩)
  · refine .inr (.inl ⟨Nat.pos_of_ne_zero hzero, by omega, hp, ?_⟩)
    rw [if_neg hp, modify_apply, buffer_setBuffer_self]
    congr 1
    unfold setBuffer
    rw [Function.update_idem]

theorem BufferHeap.Consistent.leaves_createDataBlock (hc : h.Consistent) (ho : o < h.nextObject)
    (libc : Allocator) (size : ℕ) (zero : Bool) :
    (createDataBlock libc o size zero h).Leaves Consistent := by
  have hdet := hc.detach ho
  have ho' : o < (h.detach o).nextObject := (changes_detach h o).nextObject ▸ ho
  obtain ⟨hdata, -, hlen⟩ := hc.buffer_detach o
  rcases createDataBlock_cases libc o size zero h with ⟨-, hrun⟩ | ⟨hpos, hlt, hp, hrun⟩ |
    ⟨-, -, e, hrun | hrun⟩
  · rw [hrun]
    exact hdet.setBuffer ho' hdata hlen
  · rw [hrun]
    refine hdet.alloc ho' hp (libc.returns _ _) hpos rfl rfl ?_
    rw [ArrayBuffer.byteLength_setSize, Nat.mod_eq_of_lt hlt]
  · rw [hrun]
    exact hdet
  · rw [hrun]
    exact hdet.setBuffer ho' rfl hlen

theorem BufferHeap.Consistent.newBuffer (hc : h.Consistent) : (h.newBuffer .new).Consistent := by
  have hgrown : ({ h with nextObject := h.nextObject + 1 } : BufferHeap).Consistent :=
    ⟨hc.blocks, fun o ho => hc.unborn o (Nat.le_of_succ_le ho), hc.owned, hc.empty, hc.exclusive⟩
  exact hgrown.setBuffer (Nat.lt_succ_self h.nextObject) rfl (ArrayBuffer.byteLength_setSize _ 0)

theorem BufferHeap.Consistent.withMemory (hc : h.Consistent) (m : Memory) : (h.withMemory m).Consistent :=
  { hc with }

/-! ### Runs -/

namespace BufferHeap

/-- A call of the interface of buffers and views. -/
inductive BufferOp where
  | construct (c : Conversions) (ctorCall : Bool) (args : List JsValue)
  | slice (c : Conversions) (this : JsValue) (args : List JsValue)
  | detach (o : ℕ)
  | createDataBlock (o size : ℕ) (zero : Bool)
  | view (c : Conversions) (ctorCall : Bool) (args : List JsValue)
  | get (t : ElementType) (c : Conversions) (this : JsValue) (args : List JsValue)
  | set (t : ElementType) (found : JsValue → String) (c : Conversions) (this : JsValue)
    (args : List JsValue)

/-- The call, without its result. -/
def BufferOp.exec (libc : Allocator) (system : Endianess) : BufferOp → Buffers Unit
  | .construct c ctorCall args => do let _ ← arrayBufferConstructor libc c ctorCall args
  | .slice c this args => do let _ ← arrayBufferSlice libc c this args
  | .detach o => modify fun h => h.detach o
  | .createDataBlock o size zero => Starlight.createDataBlock libc o size zero
  | .view c ctorCall args => do let _ ← dataViewConstructor c ctorCall args
  | .get t c this args => do let _ ← dataViewPrototypeGet system t c this args
  | .set t found c this args => dataViewPrototypeSet system t found c this args

def BufferOp.Valid (h : BufferHeap) : BufferOp → Prop
  | .detach o => (h.buffers o).isSome = true
  | .createDataBlock o _ _ => (h.buffers o).isSome = true
  | _ => True

/-- The heaps that runs reach. -/
inductive Reachable (system : Endianess) : BufferHeap → Prop
  | init (memory : Memory) : Reachable system (init memory)
  | step {h h' : BufferHeap} {libc : Allocator} {op : BufferOp} (hr : Reachable system h) (hop : op.Valid h)
      (hrun : (op.exec libc system h).state? = some h') : Reachable system h'

theorem consistent_init (memory : Memory) : (init memory).Consistent := by
  have hbuffer : ∀ o, (init memory).buffer o = .prototype := by
    intro o
    change (Function.update (fun _ => none) 0 (some ArrayBuffer.prototype) o).getD .prototype = _
    rw [Function.update_apply]
    split <;> rfl
  refine ⟨⟨nofun, nofun, .nil⟩, fun o ho => ⟨?_, rfl⟩, fun o hd => ?_, fun o _ => ?_, fun o o' _ hd => ?_⟩
  · have hne : o ≠ 0 := Nat.pos_iff_ne_zero.mp ho
    change Function.update (fun _ => none) 0 (some ArrayBuffer.prototype) o = none
    rw [Function.update_of_ne hne]
  · rw [hbuffer] at hd
    exact absurd rfl hd
  · rw [hbuffer]
    rfl
  · rw [hbuffer] at hd
    exact absurd rfl hd

theorem Consistent.lt_nextObject (hc : h.Consistent) (hb : (h.buffers o).isSome = true) :
    o < h.nextObject := by
  by_contra hle
  rw [(hc.unborn o (Nat.le_of_not_lt hle)).1] at hb
  exact Bool.false_ne_true hb

theorem keeps_convert {α : Type} (r : Except Failure α) : (Buffers.convert r).Keeps Consistent := by
  cases r with
  | ok a => exact keeps_pure a
  | error e => exact keeps_fail _

theorem keeps_toIndex (c : Conversions) (val : JsValue) : (toIndex c val).Keeps Consistent :=
  (keeps_convert _).bind fun _ => (keeps_fail _).ite ((keeps_fail _).ite (keeps_pure _))

theorem leaves_newBlock {α : Type} (hc : h.Consistent) (libc : Allocator) (size : ℕ) (zero : Bool)
    {f : Unit → Buffers α} (hf : ∀ h', h'.Consistent → (f () h').Leaves Consistent) :
    ((Starlight.createDataBlock libc h.nextObject size zero >>= f) (h.newBuffer .new)).Leaves Consistent :=
  leaves_bind (hc.newBuffer.leaves_createDataBlock (Nat.lt_succ_self h.nextObject) libc size zero)
    fun _ h' _ hc' => hf h' hc'

theorem keeps_arrayBufferConstructor (libc : Allocator) (c : Conversions) (ctorCall : Bool)
    (args : List JsValue) : (arrayBufferConstructor libc c ctorCall args).Keeps Consistent := by
  refine (keeps_fail _).ite fun h hc => ?_
  rw [newArrayBuffer, update_bind]
  cases (argAt args 0).toInt32 c with
  | error e => exact hc.newBuffer
  | ok length =>
    rw [Buffers.convert, pure_bind_apply, gets_bind]
    split
    · trivial
    · exact leaves_newBlock hc libc _ _ fun h' hc' => hc'

theorem keeps_thisBuffer (this : JsValue) : (thisBuffer this).Keeps Consistent := by
  have hobject : (toObject this).Keeps Consistent := by
    cases this <;> first | exact keeps_pure _ | exact keeps_fail _
  refine hobject.bind fun o => ?_
  cases o with
  | none => exact keeps_pure _
  | some o => exact (keeps_gets _).bind fun _ => keeps_pure _

theorem Consistent.copyDataBlockBytes (hc : h.Consistent) (dst : ℕ) (dstIndex : BitVec 64) (src : ℕ)
    (srcIndex : BitVec 64) (count : ℕ) :
    (Starlight.copyDataBlockBytes dst dstIndex src srcIndex count h).Consistent := by
  unfold Starlight.copyDataBlockBytes
  split
  · exact hc
  · exact hc.withMemory _

theorem keeps_arrayBufferSlice (libc : Allocator) (c : Conversions) (this : JsValue) (args : List JsValue) :
    (arrayBufferSlice libc c this args).Keeps Consistent := by
  refine (keeps_thisBuffer this).bind fun buf => ?_
  cases buf with
  | none => exact keeps_fail _
  | some buf =>
    refine (keeps_convert _).bind fun start => (keeps_convert _).bind fun fin h hc => ?_
    rw [gets_bind, newArrayBuffer, update_bind]
    refine leaves_newBlock hc libc _ _ fun h' hc' => ?_
    rw [gets_bind]
    split
    · exact hc'
    · exact hc'.copyDataBlockBytes _ _ _ _ _

theorem Consistent.newView (hc : h.Consistent) (v : DataView) : ({ h with
    views := Function.update h.views h.nextObject (some v)
    nextObject := h.nextObject + 1 } : BufferHeap).Consistent :=
  ⟨hc.blocks, fun o ho => ⟨(hc.unborn o (Nat.le_of_succ_le ho)).1, by
    have hne : o ≠ h.nextObject := (Nat.lt_of_succ_le ho).ne'
    change Function.update h.views h.nextObject (some v) o = none
    rw [Function.update_of_ne hne]
    exact (hc.unborn o (Nat.le_of_succ_le ho)).2⟩, hc.owned, hc.empty, hc.exclusive⟩

theorem keeps_viewLength (c : Conversions) (byteLength : JsValue) (offset bufferLength : ℕ) :
    (viewLength c byteLength offset bufferLength).Keeps Consistent :=
  (keeps_pure _).ite ((keeps_toIndex c _).bind fun _ => (keeps_fail _).ite (keeps_pure _))

theorem keeps_dataViewConstructor (c : Conversions) (ctorCall : Bool) (args : List JsValue) :
    (dataViewConstructor c ctorCall args).Keeps Consistent := by
  refine (keeps_fail _).ite ((keeps_gets _).bind fun buffer => ?_)
  cases buffer with
  | none => exact keeps_fail _
  | some buffer =>
    refine (keeps_toIndex c _).bind fun offset => (keeps_gets _).bind fun bufferLength => ?_
    refine (keeps_fail _).ite ((keeps_viewLength c _ _ _).bind fun length => ?_)
    exact keeps_update fun h hc => hc.newView _

theorem keeps_dataViewPrototypeGet (system : Endianess) (t : ElementType) (c : Conversions) (this : JsValue)
    (args : List JsValue) : (dataViewPrototypeGet system t c this args).Keeps Consistent := by
  intro h hc
  rcases (readsWithin_dataViewPrototypeGet system t c this args h).run with ⟨a, hrun⟩ | ⟨e, hrun⟩ | hrun
  · rwa [hrun]
  · rwa [hrun]
  · rw [hrun]
    trivial

theorem keeps_dataViewPrototypeSet (system : Endianess) (t : ElementType) (found : JsValue → String)
    (c : Conversions) (this : JsValue) (args : List JsValue) :
    (dataViewPrototypeSet system t found c this args).Keeps Consistent := by
  intro h hc
  rcases (writesWithin_dataViewPrototypeSet system t found c this args h).run with
    ⟨p, bs, hrun⟩ | ⟨e, hrun⟩ | hrun
  · rw [hrun]
    exact hc.withMemory _
  · rwa [hrun]
  · rw [hrun]
    trivial

/-- **A call** keeps the invariant. -/
theorem Consistent.exec (hc : h.Consistent) (libc : Allocator) (system : Endianess) (op : BufferOp)
    (hop : op.Valid h) : (op.exec libc system h).Leaves Consistent := by
  cases op with
  | construct c ctorCall args =>
    exact ((keeps_arrayBufferConstructor libc c ctorCall args).bind fun _ => keeps_pure ()) h hc
  | slice c this args => exact ((keeps_arrayBufferSlice libc c this args).bind fun _ => keeps_pure ()) h hc
  | detach o => exact hc.detach (hc.lt_nextObject hop)
  | createDataBlock o size zero => exact hc.leaves_createDataBlock (hc.lt_nextObject hop) libc size zero
  | view c ctorCall args =>
    exact ((keeps_dataViewConstructor c ctorCall args).bind fun _ => keeps_pure ()) h hc
  | get t c this args =>
    exact ((keeps_dataViewPrototypeGet system t c this args).bind fun _ => keeps_pure ()) h hc
  | set t found c this args => exact keeps_dataViewPrototypeSet system t found c this args h hc

/-- **The invariant of every run.** -/
theorem Reachable.consistent {system : Endianess} (hr : Reachable system h) : h.Consistent := by
  induction hr with
  | init memory => exact consistent_init memory
  | step _ hop hrun ih => exact (ih.exec _ system _ hop).state hrun

/-! ### What the invariant says -/

/-- The buffer has a block of `n` bytes that no other buffer has. -/
structure Owns (h : BufferHeap) (o n : ℕ) : Prop where
  mem : ((h.buffer o).data, n) ∈ h.blocks
  exact : ∀ b ∈ h.blocks, b.1 = (h.buffer o).data → b.2 = n
  exclusive : ∀ o', (h.buffer o').data = (h.buffer o).data → o' = o

theorem BlocksApart.eq_of_fst_eq {blocks : List (BitVec 64 × ℕ)} (hb : BlocksApart blocks) :
    ∀ b ∈ blocks, ∀ b' ∈ blocks, b.1 = b'.1 → b = b' := by
  have hne : blocks.Pairwise fun b b' => b.1 ≠ b'.1 := by
    refine hb.apart.imp_of_mem fun {b b'} hmem hmem' hapart heq => ?_
    have h₁ := hb.size_pos b hmem
    have h₂ := hb.size_pos b' hmem'
    rw [heq] at hapart
    omega
  refine List.Pairwise.forall_of_forall_of_flip (fun b _ _ => rfl) ?_ ?_
  · exact hne.imp fun h heq => absurd heq h
  · exact hne.imp fun h heq => absurd heq.symm h

theorem Consistent.owns (hc : h.Consistent) (hlen : 0 < (h.buffer o).byteLength) :
    h.Owns o (h.buffer o).byteLength := by
  have hd : (h.buffer o).data ≠ 0 := fun hd => hlen.ne' (hc.empty o hd)
  have hmem := hc.mem_of_data hd
  refine ⟨hmem, fun b hb heq => ?_, fun o' heq => (hc.exclusive o o' heq.symm hd).symm⟩
  rw [hc.blocks.eq_of_fst_eq b hb _ hmem heq]

theorem Consistent.byteLength_of_detached (hc : h.Consistent) (hatt : (h.buffer o).attached = false) :
    (h.buffer o).byteLength = 0 := by
  refine hc.empty o (by_contra fun hd => ?_)
  rw [(hc.owned o hd).1] at hatt
  exact Bool.noConfusion hatt

theorem viewLength_le {c : Conversions} {byteLength : JsValue} {offset bufferLength n : ℕ}
    (hle : offset ≤ bufferLength) (hrun : viewLength c byteLength offset bufferLength h = .ok n h') :
    h' = h ∧ offset + n ≤ bufferLength := by
  unfold viewLength at hrun
  split at hrun
  · obtain ⟨rfl, rfl⟩ := Result.ok.inj hrun
    exact ⟨rfl, by omega⟩
  · obtain ⟨res, h₁, hres, hrest⟩ := bind_eq_ok hrun
    obtain rfl := (steady_toIndex c byteLength).state hres
    split at hrest
    · cases hrest
    · obtain ⟨rfl, rfl⟩ := Result.ok.inj hrest
      exact ⟨rfl, by omega⟩

theorem dataViewConstructor_spec {c : Conversions} {ctorCall : Bool} {args : List JsValue}
    (hrun : dataViewConstructor c ctorCall args h = .ok o h') :
    ∃ v, h'.views o = some v ∧ v.offset + v.length ≤ (h'.buffer v.buffer).byteLength := by
  unfold dataViewConstructor at hrun
  split at hrun
  · cases hrun
  obtain ⟨buffer, h₁, hbuffer, hview⟩ := bind_eq_ok hrun
  obtain ⟨-, rfl⟩ := Result.ok.inj hbuffer
  cases buffer with
  | none => cases hview
  | some buffer =>
    obtain ⟨offset, h₂, hoffset, hrest⟩ := bind_eq_ok hview
    obtain rfl := (steady_toIndex c _).state hoffset
    rw [gets_bind] at hrest
    split at hrest
    · cases hrest
    next hle =>
    obtain ⟨n, h₃, hn, hnew⟩ := bind_eq_ok hrest
    obtain ⟨rfl, hfits⟩ := viewLength_le (Nat.le_of_not_lt hle) hn
    obtain ⟨rfl, rfl⟩ := Result.ok.inj hnew
    exact ⟨⟨buffer, offset, n⟩, Function.update_self .., hfits⟩

/-- In every heap that runs reach: an attached buffer with bytes has a block of exactly that many for
itself, a detached one has length zero, a view is within its buffer when it is made, and reading and writing
stay within the window of the view. -/
theorem buffers_and_views_in_bounds {system : Endianess} (hr : Reachable system h) :
    (∀ o, (h.buffer o).attached = true → 0 < (h.buffer o).byteLength →
      h.Owns o (h.buffer o).byteLength) ∧
    (∀ o, (h.buffer o).attached = false → (h.buffer o).byteLength = 0) ∧
    (∀ c ctorCall args o h', dataViewConstructor c ctorCall args h = .ok o h' →
      ∃ v, h'.views o = some v ∧ v.offset + v.length ≤ (h'.buffer v.buffer).byteLength) ∧
    (∀ t c this args, ReadsWithin (h.windowOf this) h (dataViewPrototypeGet system t c this args)) ∧
    ∀ t found c this args,
      WritesWithin (h.windowOf this) h (dataViewPrototypeSet system t found c this args) :=
  ⟨fun _ _ hlen => hr.consistent.owns hlen, fun _ hatt => hr.consistent.byteLength_of_detached hatt,
    fun _ _ _ _ _ hrun => dataViewConstructor_spec hrun,
    fun t c this args => readsWithin_dataViewPrototypeGet system t c this args h,
    fun t found c this args => writesWithin_dataViewPrototypeSet system t found c this args h⟩

/-- A run that gives the prototype a block. -/
theorem buffers_and_views_in_bounds_prototype :
    ∃ h : BufferHeap, Reachable .little h ∧ (h.buffer 0).byteLength = 4 ∧ h.Owns 0 4 := by
  have hr : Reachable .little _ :=
    @Reachable.step .little _ _ (.single 4096) (.createDataBlock 0 4 true) (.init fun _ => 0) rfl rfl
  exact ⟨_, hr, rfl, (buffers_and_views_in_bounds hr).1 0 rfl (by decide)⟩

end BufferHeap

end Starlight
