import Starlight.Vm.BufferInvariant

/-!
# Slices of buffers

`array_buffer_slice` computes its first position in the integers of 32 bits, and does not clamp it when it
is not positive: a start of zero gives the length, and a start before the buffer a position before it.
-/

namespace Starlight

open Exec BufferHeap

/-! ### Positions -/

def relativePosition (r : ℤ) (n : ℕ) : ℕ := if r < 0 then (max (n + r) 0).toNat else (min r n).toNat

/-- The number of bytes that `array_buffer_slice` copies. -/
def sliceCount (start : BitVec 32) (relativeEnd : ℤ) (n : ℕ) : ℕ :=
  (max ((sliceFinale relativeEnd n : ℤ) - (sliceFirst start n).toInt) 0).toNat

/-- The number of bytes between two relative positions. -/
def lengthBetween (start relativeEnd : ℤ) (n : ℕ) : ℕ :=
  relativePosition relativeEnd n - relativePosition start n

/-- The starts for which a slice is right: the positive ones, zero when the slice is empty, and the negative
ones that do not leave the buffer or the `i32`. -/
def StartsInside (start : BitVec 32) (relativeEnd : ℤ) (n : ℕ) : Prop :=
  0 < start.toInt ∨ start = 0 ∧ n < 2 ^ 31 ∧ relativePosition relativeEnd n = 0 ∨
    start.toInt < 0 ∧ 0 ≤ n + start.toInt ∧ n + start.toInt < 2 ^ 31

section

variable {start : BitVec 32} {relativeEnd : ℤ} {n : ℕ}

theorem toInt_sliceFirst (start : BitVec 32) (n : ℕ) : (sliceFirst start n).toInt =
    if start.toInt ≤ 0 then (n + start.toInt).bmod (2 ^ 32) else min start.toInt n := by
  unfold sliceFirst
  split
  · rw [BitVec.toInt_signExtend_of_le (by decide), BitVec.toInt_add, BitVec.toInt_ofNat', Int.bmod_add_bmod]
  · next h =>
    have hnat : (start.toNat : ℤ) = start.toInt := by
      rw [BitVec.toInt_eq_toNat_cond] at h ⊢
      split at h <;> omega
    have hlt := start.isLt
    rw [BitVec.toInt_ofNat', Int.bmod_def]
    omega

theorem finale_eq (relativeEnd : ℤ) (n : ℕ) :
    sliceFinale relativeEnd n = relativePosition relativeEnd n := rfl

theorem relativePosition_le (r : ℤ) (n : ℕ) : relativePosition r n ≤ n := by
  unfold relativePosition
  split <;> omega

theorem sliceCount_eq_iff (hn : n < 2 ^ 32) :
    sliceCount start relativeEnd n = lengthBetween start.toInt relativeEnd n ↔
      StartsInside start relativeEnd n := by
  have hzero : start = 0 ↔ start.toInt = 0 := ⟨fun h => h ▸ rfl, fun h => BitVec.eq_of_toInt_eq h⟩
  have hle := relativePosition_le relativeEnd n
  have hlow := start.le_toInt
  have hhigh := start.toInt_lt
  unfold sliceCount lengthBetween StartsInside
  rw [finale_eq, toInt_sliceFirst, hzero, Int.bmod_def]
  generalize relativePosition relativeEnd n = final at *
  unfold relativePosition
  split_ifs <;> omega

theorem sliceFirst_of_startsInside (hn : n < 2 ^ 32) (h : StartsInside start relativeEnd n)
    (hpos : 0 < sliceCount start relativeEnd n) :
    (sliceFirst start n).toNat = relativePosition start.toInt n ∧
      (sliceFirst start n).toNat + sliceCount start relativeEnd n ≤ n := by
  have hle := relativePosition_le relativeEnd n
  have hint := toInt_sliceFirst start n
  have hnat := BitVec.toInt_eq_toNat_cond (sliceFirst start n)
  have hzero : start = 0 ↔ start.toInt = 0 := ⟨fun h => h ▸ rfl, fun h => BitVec.eq_of_toInt_eq h⟩
  have hlow := start.le_toInt
  have hhigh := start.toInt_lt
  have hlt := (sliceFirst start n).isLt
  unfold sliceCount StartsInside at *
  rw [finale_eq] at *
  rw [hzero] at h
  rw [Int.bmod_def] at hint
  generalize relativePosition relativeEnd n = final at *
  generalize sliceFirst start n = first at *
  unfold relativePosition
  split_ifs at * <;> omega

end

/-! ### The copy -/

structure Sliced (h : BufferHeap) (o first len o' : ℕ) (h' : BufferHeap) : Prop where
  fresh : h.buffers o' = none
  attached : (h'.buffer o').attached = true
  byteLength : (h'.buffer o').byteLength = len
  bytes : ∀ k, k < len → h'.memory ((h'.buffer o').data + BitVec.ofNat 64 k) =
    h.memory ((h.buffer o).data + BitVec.ofNat 64 (first + k))
  source : h'.buffers o = h.buffers o
  sourceBytes : ∀ k, k < (h.buffer o).byteLength →
    h'.memory ((h.buffer o).data + BitVec.ofNat 64 k) = h.memory ((h.buffer o).data + BitVec.ofNat 64 k)

/-- The end of a slice that is taken. -/
def relativeEndOf (args : List JsValue) (fin : BitVec 32) (n : ℕ) : ℤ :=
  if argAt args 1 = .undefined then n else fin.toInt

/-- The call gives a new buffer with the bytes between the two positions, and what it reads of the source is
in the source. -/
def SliceLaw (libc : Allocator) (c : Conversions) (o : ℕ) (args : List JsValue) (start fin : BitVec 32)
    (h : BufferHeap) : Prop :=
  let n := (h.buffer o).byteLength
  let relativeEnd := relativeEndOf args fin n
  (∃ o' h', arrayBufferSlice libc c (.object o) args h = .ok o' h' ∧
    Sliced h o (relativePosition start.toInt n) (lengthBetween start.toInt relativeEnd n) o' h') ∧
  (0 < sliceCount start relativeEnd n →
    (sliceFirst start n).toNat + sliceCount start relativeEnd n ≤ n)

def sliceHeap (h : BufferHeap) : BufferHeap := (h.newBuffer .new).detach h.nextObject

section

variable {h h' : BufferHeap} {o : ℕ} {libc : Allocator} {c : Conversions} {args : List JsValue}
  {start fin : BitVec 32}

theorem buffers_sliceHeap (hne : o ≠ h.nextObject) : (sliceHeap h).buffers o = h.buffers o :=
  ((changes_detach _ _).buffers o hne).trans (Function.update_of_ne hne _ _)

theorem arrayBufferSlice_cases (libc : Allocator) (hb : (h.buffers o).isSome = true)
    (hatt : (h.buffer o).attached = true) (hne : o ≠ h.nextObject)
    (hstart : (argAt args 0).toInt32 c = .ok start) (hfin : (argAt args 1).toInt32 c = .ok fin) {count : ℕ}
    (hcount : sliceCount start (relativeEndOf args fin (h.buffer o).byteLength) (h.buffer o).byteLength =
      count) :
    (count = 0 ∧ arrayBufferSlice libc c (.object o) args h = .ok h.nextObject
      ((sliceHeap h).setBuffer h.nextObject (((sliceHeap h).buffer h.nextObject).setAttached true))) ∨
    (0 < count ∧ count < 2 ^ 32 ∧ libc.place (sliceHeap h) count ≠ 0 ∧
      arrayBufferSlice libc c (.object o) args h = .ok h.nextObject
        (copyDataBlockBytes h.nextObject 0 o (sliceFirst start (h.buffer o).byteLength) count
          (((sliceHeap h).alloc (libc.place (sliceHeap h) count) count true).setBuffer h.nextObject
            (((((sliceHeap h).buffer h.nextObject).setData (libc.place (sliceHeap h) count)).setAttached
              true).setSize count)))) ∨
    (0 < count ∧ (2 ^ 32 ≤ count ∨ libc.place (sliceHeap h) count = 0) ∧
      ∃ e h', arrayBufferSlice libc c (.object o) args h = .error e h') := by
  have hthis : thisBuffer (.object o) h = .ok (some o) h := by
    change Result.ok (if (h.buffers o).isSome = true then some o else none) h = _
    rw [if_pos hb]
  have hs : Buffers.convert ((argAt args 0).toInt32 c) h = .ok start h :=
    congrArg (Buffers.convert · h) hstart
  have he : Buffers.convert ((argAt args 1).toInt32 c) h = .ok fin h :=
    congrArg (Buffers.convert · h) hfin
  have hrun : arrayBufferSlice libc c (.object o) args h =
      (createDataBlock libc h.nextObject count true >>= fun _ => do
        let attached ← gets fun h' => (h'.buffer o).attached && (h'.buffer h.nextObject).attached
        if attached = false then Buffers.throwTypeError "Cannot split with detached ArrayBuffers"
        else do
          modify (copyDataBlockBytes h.nextObject 0 o (sliceFirst start (h.buffer o).byteLength) count)
          return h.nextObject) (h.newBuffer .new) := by
    subst hcount
    unfold arrayBufferSlice
    rw [bind_of_ok hthis]
    dsimp only
    rw [bind_of_ok hs, bind_of_ok he]
    rfl
  have hkept : ∀ {h' : BufferHeap}, (sliceHeap h).Changes h.nextObject h' →
      (h'.buffer o).attached = true := by
    intro h' hch
    rw [buffer, hch.buffers o hne, buffers_sliceHeap hne]
    exact hatt
  have hblocks := createDataBlock_cases libc h.nextObject count true (h.newBuffer .new)
  rw [show (h.newBuffer .new).detach h.nextObject = sliceHeap h from rfl] at hblocks
  rw [hrun]
  rcases hblocks with ⟨hzero, hblock⟩ | ⟨hpos, hlt, hp, hblock⟩ |
    ⟨hpos, hfull, e, hblock | hblock⟩
  · refine .inl ⟨hzero, ?_⟩
    rw [bind_of_ok hblock, gets_bind, buffer_setBuffer_self, hkept (changes_setBuffer _ _ _)]
    subst hzero
    rfl
  · refine .inr (.inl ⟨hpos, hlt, hp, ?_⟩)
    rw [bind_of_ok hblock, gets_bind, buffer_setBuffer_self,
      hkept ((changes_alloc _ _ _ _ _).trans (changes_setBuffer _ _ _))]
    rfl
  · exact .inr (.inr ⟨hpos, hfull, e, _, by rw [bind_apply, hblock]⟩)
  · exact .inr (.inr ⟨hpos, hfull, e, _, by rw [bind_apply, hblock]⟩)

theorem memory_sliceHeap (h : BufferHeap) : (sliceHeap h).memory = h.memory := by
  unfold sliceHeap detach
  split <;> rfl

theorem blocks_sliceHeap (h : BufferHeap) : (sliceHeap h).blocks = h.blocks := by
  have hdata : ((h.newBuffer .new).buffer h.nextObject).data = 0 :=
    congrArg ArrayBuffer.data (buffer_setBuffer_self h h.nextObject .new)
  rw [sliceHeap, detach, if_neg (not_not_intro hdata)]
  rfl

theorem store_apart {p q : BitVec 64} {size n i : ℕ} (hret : h.Returns p size) (hp : p ≠ 0)
    (hmem : (q, n) ∈ h.blocks) (hfits : q.toNat + n ≤ 2 ^ 64) (hi : i < n) (m : Memory)
    {bs : List (BitVec 8)} (hbs : bs.length = size) :
    m.store p bs (q + BitVec.ofNat 64 i) = m (q + BitVec.ofNat 64 i) := by
  obtain ⟨hend, hothers⟩ := hret.resolve_left hp
  have hapart := hothers (q, n) hmem
  dsimp only at hapart
  refine Memory.store_of_le ?_
  have hlt := q.isLt
  rw [hbs, BitVec.toNat_sub, BitVec.toNat_add, BitVec.toNat_ofNat]
  omega

theorem copyDataBlockBytes_of_pos {dst src count : ℕ} {dstIndex srcIndex : BitVec 64} (hpos : 0 < count) :
    copyDataBlockBytes dst dstIndex src srcIndex count h =
      h.withMemory (h.memory.store ((h.buffer dst).data + dstIndex)
        (h.memory.load ((h.buffer src).data + srcIndex) count)) :=
  if_neg hpos.ne'

theorem sliced_of_block (hc : h.Consistent) (hne : o ≠ h.nextObject) {p first : BitVec 64} {count : ℕ}
    (hpos : 0 < count) (hlt : count < 2 ^ 32) (hp : p ≠ 0) (hret : (sliceHeap h).Returns p count)
    (hfirst : first.toNat + count ≤ (h.buffer o).byteLength) :
    Sliced h o first.toNat count h.nextObject (copyDataBlockBytes h.nextObject 0 o first count
      (((sliceHeap h).alloc p count true).setBuffer h.nextObject
        (((((sliceHeap h).buffer h.nextObject).setData p).setAttached true).setSize count))) := by
  have hmem := (hc.owns (hpos.trans_le ((Nat.le_add_left _ _).trans hfirst))).mem
  have hfits := hc.blocks.fits _ hmem
  rw [← blocks_sliceHeap h] at hmem
  have hkept : ∀ i, i < (h.buffer o).byteLength → ∀ (m : Memory) (bs : List (BitVec 8)), bs.length = count →
      m.store p bs ((h.buffer o).data + BitVec.ofNat 64 i) = m ((h.buffer o).data + BitVec.ofNat 64 i) :=
    fun i hi m bs hbs => store_apart hret hp hmem hfits hi m hbs
  rw [copyDataBlockBytes_of_pos hpos, buffer_setBuffer_self, buffer_setBuffer, if_neg hne, buffer_alloc,
    show (sliceHeap h).buffer o = h.buffer o from congrArg (·.getD .prototype) (buffers_sliceHeap hne)]
  have hmemory : (((sliceHeap h).alloc p count true).setBuffer h.nextObject
      (((((sliceHeap h).buffer h.nextObject).setData p).setAttached true).setSize count)).memory =
        h.memory.store p (List.replicate count 0) := by
    rw [← memory_sliceHeap h, alloc, if_neg hp]
    rfl
  rw [hmemory]
  have hdata : (((((sliceHeap h).buffer h.nextObject).setData p).setAttached true).setSize count).data + 0 =
      p := BitVec.add_zero p
  have haddr : ∀ k, (h.buffer o).data + first + BitVec.ofNat 64 k =
      (h.buffer o).data + BitVec.ofNat 64 (first.toNat + k) := fun k => by
    rw [BitVec.add_assoc, BitVec.ofNat_add, BitVec.ofNat_toNat, BitVec.setWidth_eq]
  refine ⟨(hc.unborn _ le_rfl).1, ?_, ?_, fun k hk => ?_, ?_, fun k hk => ?_⟩
  · exact congrArg ArrayBuffer.attached (buffer_setBuffer_self _ h.nextObject _)
  · refine (congrArg ArrayBuffer.byteLength (buffer_setBuffer_self _ h.nextObject _)).trans ?_
    rw [ArrayBuffer.byteLength_setSize, Nat.mod_eq_of_lt hlt]
  · have hnew : ∀ (hh : BufferHeap) (b : ArrayBuffer) (m : Memory), b.data = p →
        (((hh.setBuffer h.nextObject b).withMemory m).buffer h.nextObject).data = p := fun hh b m hb =>
      (congrArg ArrayBuffer.data (buffer_setBuffer_self hh h.nextObject b)).trans hb
    rw [hnew _ _ _ rfl]
    change Memory.store _ _ _ _ = _
    rw [hdata, Memory.store, Memory.toNat_add_sub p (by omega), Memory.getElem?_load, if_pos hk,
      Option.getD_some, haddr, hkept _ (by omega) _ _ List.length_replicate]
  · exact (((changes_alloc _ _ p count true).trans (changes_setBuffer _ _ _)).buffers o hne).trans
      (buffers_sliceHeap hne)
  · change Memory.store _ _ _ _ = _
    rw [hdata, hkept k hk _ _ (Memory.length_load _ _ _), hkept k hk _ _ List.length_replicate]

theorem byteLength_lt (b : ArrayBuffer) : b.byteLength < 2 ^ 32 := b.slot.getInt32.isLt

/-- **Slices** of the buffers that runs make. -/
theorem slice_iff {system : Endianess} (hr : BufferHeap.Reachable system h)
    (hb : (h.buffers o).isSome = true) (hatt : (h.buffer o).attached = true)
    (hstart : (argAt args 0).toInt32 c = .ok start) (hfin : (argAt args 1).toInt32 c = .ok fin)
    (hroom : ∀ size, 0 < size → size ≤ (h.buffer o).byteLength → libc.place (sliceHeap h) size ≠ 0) :
    SliceLaw libc c o args start fin h ↔
      StartsInside start (relativeEndOf args fin (h.buffer o).byteLength) (h.buffer o).byteLength := by
  have hc := hr.consistent
  have hne : o ≠ h.nextObject := (hc.lt_nextObject hb).ne
  have hcases := arrayBufferSlice_cases libc hb hatt hne hstart hfin rfl
  have hcount := @sliceCount_eq_iff start (relativeEndOf args fin (h.buffer o).byteLength) _
    (byteLength_lt (h.buffer o))
  have hempty : ((sliceHeap h).buffer h.nextObject).byteLength = 0 := (hc.newBuffer.buffer_detach _).2.2
  unfold SliceLaw
  dsimp only
  constructor
  · rintro ⟨⟨o', h', hrun, hsliced⟩, -⟩
    refine hcount.mp ?_
    rcases hcases with ⟨hzero, hok⟩ | ⟨hpos, hlt, hp, hok⟩ | ⟨-, -, e, h'', herr⟩
    · obtain ⟨rfl, rfl⟩ := Result.ok.inj (hok.symm.trans hrun)
      have hlen := hsliced.byteLength
      rw [buffer_setBuffer_self] at hlen
      exact hzero.trans (hempty.symm.trans hlen)
    · obtain ⟨rfl, rfl⟩ := Result.ok.inj (hok.symm.trans hrun)
      have hlen := hsliced.byteLength
      rw [copyDataBlockBytes_of_pos hpos] at hlen
      have hsize : ∀ (hh : BufferHeap) (b : ArrayBuffer) (m : Memory) (len : ℕ),
          (((hh.setBuffer h.nextObject (b.setSize len)).withMemory m).buffer h.nextObject).byteLength =
            len % 2 ^ 32 := fun hh b m len =>
        (congrArg ArrayBuffer.byteLength (buffer_setBuffer_self hh h.nextObject _)).trans
          (ArrayBuffer.byteLength_setSize b len)
      rw [hsize, Nat.mod_eq_of_lt hlt] at hlen
      exact hlen
    · cases herr.symm.trans hrun
  · intro hinside
    have hlen := hcount.mpr hinside
    have hin := fun hpos => sliceFirst_of_startsInside (byteLength_lt (h.buffer o)) hinside hpos
    refine ⟨?_, fun hpos => (hin hpos).2⟩
    rcases hcases with ⟨hzero, hok⟩ | ⟨hpos, hlt, hp, hok⟩ | ⟨hpos, hfull, -⟩
    · refine ⟨_, _, hok, (hc.unborn _ le_rfl).1, ?_, ?_, fun k hk => ?_, ?_, fun k _ => ?_⟩
      · rw [buffer_setBuffer_self]
        rfl
      · rw [buffer_setBuffer_self, ← hlen, hzero]
        exact hempty
      · rw [← hlen, hzero] at hk
        exact absurd hk (Nat.not_lt_zero k)
      · exact (Function.update_of_ne hne _ _).trans (buffers_sliceHeap hne)
      · exact congrFun (memory_sliceHeap h) _
    · refine ⟨_, _, hok, ?_⟩
      rw [← hlen, ← (hin hpos).1]
      exact sliced_of_block hc hne hpos hlt hp (libc.returns _ _) (hin hpos).2
    · have hle := (Nat.le_add_left _ _).trans (hin hpos).2
      have hn := byteLength_lt (h.buffer o)
      rcases hfull with hbig | hfull
      · exact absurd (hle.trans_lt hn) (Nat.not_lt.mpr hbig)
      · exact absurd hfull (hroom _ hpos hle)

end

/-! ### A buffer of four bytes -/

/-- In the heap after `new ArrayBuffer(4)`, the call `slice(1)` is right. -/
theorem slice_iff_one : ∃ h : BufferHeap, BufferHeap.Reachable .little h ∧ (h.buffer 1).byteLength = 4 ∧
    SliceLaw (.single 8192) noMethods 1 [.int32 1] 1 0 h := by
  have hr : BufferHeap.Reachable .little _ :=
    @BufferHeap.Reachable.step .little _ _ (.single 4096) (.construct noMethods true [.int32 4])
      (.init fun _ => 0) trivial rfl
  refine ⟨_, hr, rfl, (slice_iff hr rfl rfl rfl rfl fun size hpos hle => ?_).mpr (.inl (by decide))⟩
  have hle' : size ≤ 4 := hle
  interval_cases size <;> decide

/-- In the same heap, `slice(0)` gives no bytes. -/
theorem not_slice : ∃ h : BufferHeap, BufferHeap.Reachable .little h ∧ (h.buffer 1).attached = true ∧
    (h.buffer 1).byteLength = 4 ∧ (argAt [.int32 0] 0).toInt32 noMethods = .ok 0 ∧
    (argAt [.int32 0] 1).toInt32 noMethods = .ok 0 ∧
    ¬ SliceLaw (.single 8192) noMethods 1 [.int32 0] 0 0 h := by
  have hr : BufferHeap.Reachable .little _ :=
    @BufferHeap.Reachable.step .little _ _ (.single 4096) (.construct noMethods true [.int32 4])
      (.init fun _ => 0) trivial rfl
  refine ⟨_, hr, rfl, rfl, rfl, rfl, ?_⟩
  rintro ⟨⟨o', h', hrun, hsliced⟩, -⟩
  have hlen : (h'.buffer o').byteLength = 4 := hsliced.byteLength
  obtain ⟨rfl, rfl⟩ := Result.ok.inj hrun
  exact absurd hlen (by decide)

end Starlight
