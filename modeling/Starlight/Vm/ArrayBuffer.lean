import Starlight.Lib.ByteMemory
import Starlight.Vm.IntegerConversion
import Starlight.Vm.IntegerValues
import Starlight.Vm.World

/-!
# Array buffers

The native part of an `ArrayBuffer` is a pointer to a block of `malloc` and a flag; its length is a number
in the first slot of the object. The heap here holds the memory, the blocks that were handed out, and the
buffers and views under the numbers of their objects. Where a block is placed is up to the allocator, which
returns zero when there is no room.

The prototype is a buffer as well, whose slot is empty.
-/

namespace Starlight

structure ArrayBuffer where
  data : BitVec 64
  attached : Bool
  slot : Boxed

structure DataView where
  buffer : ℕ
  offset : ℕ
  length : ℕ

/-- The state that buffers and views are part of. -/
structure BufferHeap where
  memory : Memory
  blocks : List (BitVec 64 × ℕ)
  buffers : ℕ → Option ArrayBuffer
  views : ℕ → Option DataView
  nextObject : ℕ

/-- How a function of buffers stops before its end: it throws, or a conversion fails. -/
inductive BufferFault where
  | throw (e : JsError)
  | conversion (e : Failure)
deriving DecidableEq

/-- Code over buffers. A failed assertion is `stuck`. -/
abbrev Buffers (α : Type) := Exec BufferFault BufferHeap α

namespace Buffers

variable {α : Type}

def throwTypeError (msg : String) : Buffers α := Exec.fail (.throw (.typeError msg))

def throwRangeError (msg : String) : Buffers α := Exec.fail (.throw (.rangeError msg))

def convert : Except Failure α → Buffers α
  | .ok a => return a
  | .error e => Exec.fail (.conversion e)

end Buffers

/-- Objects without methods. -/
def noMethods : Conversions := ⟨fun _ _ _ => .ok none⟩

def argAt (args : List JsValue) (i : ℕ) : JsValue := args.getD i .undefined

namespace ArrayBuffer

def byteLength (b : ArrayBuffer) : ℕ := b.slot.getInt32.toNat

def setSize (b : ArrayBuffer) (size : ℕ) : ArrayBuffer := { b with slot := .new .u32 (size % 2 ^ 32 : ℕ) }

def setData (b : ArrayBuffer) (p : BitVec 64) : ArrayBuffer := { b with data := p }

def setAttached (b : ArrayBuffer) (attached : Bool) : ArrayBuffer := { b with attached := attached }

def new : ArrayBuffer := setSize ⟨0, false, .encodeEmptyValue⟩ 0

def prototype : ArrayBuffer := ⟨0, false, .encodeEmptyValue⟩

end ArrayBuffer

namespace BufferHeap

/-- The state before the first call: the prototype, with number `0`. -/
def init (memory : Memory) : BufferHeap :=
  ⟨memory, [], Function.update (fun _ => none) 0 (some .prototype), fun _ => none, 1⟩

/-- The buffer of an object, or the prototype. -/
def buffer (h : BufferHeap) (o : ℕ) : ArrayBuffer := (h.buffers o).getD .prototype

def setBuffer (h : BufferHeap) (o : ℕ) (b : ArrayBuffer) : BufferHeap :=
  { h with buffers := Function.update h.buffers o (some b) }

def withMemory (h : BufferHeap) (m : Memory) : BufferHeap := { h with memory := m }

def free (h : BufferHeap) (p : BitVec 64) : BufferHeap := { h with blocks := h.blocks.filter (·.1 ≠ p) }

/-- `libc::calloc` and `libc::malloc`, which return `p`. -/
def alloc (h : BufferHeap) (p : BitVec 64) (size : ℕ) (zero : Bool) : BufferHeap :=
  if p = 0 then h
  else
    { h with
      blocks := (p, size) :: h.blocks
      memory := if zero then h.memory.store p (List.replicate size 0) else h.memory }

/-- The allocator may return `p` for a block of `size` bytes: there is no room, or the block ends before the
last address and meets no other block. -/
def Returns (h : BufferHeap) (p : BitVec 64) (size : ℕ) : Prop :=
  p = 0 ∨ p.toNat + size ≤ 2 ^ 64 ∧
    ∀ b ∈ h.blocks, p.toNat + size ≤ b.1.toNat ∨ b.1.toNat + b.2 ≤ p.toNat

instance (h : BufferHeap) (p : BitVec 64) (size : ℕ) : Decidable (h.Returns p size) := by
  unfold Returns
  infer_instance

def detach (h : BufferHeap) (o : ℕ) : BufferHeap :=
  if (h.buffer o).data ≠ 0 then
    (h.free (h.buffer o).data).setBuffer o ((((h.buffer o).setData 0).setSize 0).setAttached false)
  else h.setBuffer o ((h.buffer o).setAttached false)

def newBuffer (h : BufferHeap) (b : ArrayBuffer) : BufferHeap :=
  { h.setBuffer h.nextObject b with nextObject := h.nextObject + 1 }

end BufferHeap

/-- The allocator: where it places a block of so many bytes. -/
structure Allocator where
  place : BufferHeap → ℕ → BitVec 64
  returns : ∀ (h : BufferHeap) (size : ℕ), h.Returns (place h size) size

/-- The allocator with room at one address. -/
def Allocator.single (p : BitVec 64) : Allocator where
  place h size := if h.Returns p size then p else 0
  returns h size := by
    split
    · next hp => exact hp
    · exact .inl rfl

open Exec

section

variable (libc : Allocator)

def createDataBlock (o size : ℕ) (zero : Bool) : Buffers Unit := do
  modify fun h => h.detach o
  if size = 0 then
    modify fun h => h.setBuffer o ((h.buffer o).setAttached true)
  else if 2 ^ 32 - 1 < size then
    Buffers.throwRangeError "Cannot allocate a data block for the ArrayBuffer"
  else do
    let p ← gets fun h => libc.place h size
    modify fun h => (h.alloc p size zero).setBuffer o ((h.buffer o).setData p)
    if p = 0 then
      Buffers.throwRangeError "Cannot allocate a data block for the ArrayBuffer"
    else
      modify fun h => h.setBuffer o (((h.buffer o).setAttached true).setSize size)

def newArrayBuffer : Buffers ℕ := update fun h => (h.nextObject, h.newBuffer .new)

def arrayBufferConstructor (c : Conversions) (ctorCall : Bool) (args : List JsValue) : Buffers ℕ := do
  if ctorCall = false then
    Buffers.throwTypeError "ArrayBuffer() called in function context instead of constructor"
  else do
    let this ← newArrayBuffer
    let length ← Buffers.convert ((argAt args 0).toInt32 c)
    let buf ← gets fun h => h.buffer this
    if buf.attached then stuck
    else do
      createDataBlock libc this (length.signExtend 64).toNat true
      return this

/-- `to_object`, as far as classes are concerned: `none` is the wrapper object of a primitive. -/
def toObject : JsValue → Buffers (Option ℕ)
  | .undefined | .null => Buffers.throwTypeError "ToObject to null or undefined"
  | .object o => return some o
  | .int32 _ | .double _ | .string .. | .symbol _ | .bool _ => return none
  | _ => Buffers.throwTypeError "NYI: JsValue::to_object cases"

/-- `to_object` and the test of the class. -/
def thisBuffer (this : JsValue) : Buffers (Option ℕ) := do
  match ← toObject this with
  | none => return none
  | some o => do
    let isBuffer ← gets fun h => (h.buffers o).isSome
    return if isBuffer then some o else none

/-- `first` of `array_buffer_slice`, a `usize`. A negative sum is a number near `2 ^ 64`. -/
def sliceFirst (relativeStart : BitVec 32) (len : ℕ) : BitVec 64 :=
  if relativeStart.toInt ≤ 0 then (BitVec.ofNat 32 len + relativeStart).signExtend 64
  else BitVec.ofNat 64 (min relativeStart.toNat len)

def sliceFinale (relativeEnd : ℤ) (len : ℕ) : ℕ :=
  if relativeEnd < 0 then (max (len + relativeEnd) 0).toNat else (min relativeEnd len).toNat

def copyDataBlockBytes (dst : ℕ) (dstIndex : BitVec 64) (src : ℕ) (srcIndex : BitVec 64) (count : ℕ) :
    BufferHeap → BufferHeap := fun h =>
  if count = 0 then h
  else
    { h with
      memory := h.memory.store ((h.buffer dst).data + dstIndex)
        (h.memory.load ((h.buffer src).data + srcIndex) count) }

def arrayBufferSlice (c : Conversions) (this : JsValue) (args : List JsValue) : Buffers ℕ := do
  match ← thisBuffer this with
  | none => Buffers.throwTypeError "ArrayBuffer.prototype.slice is not generic"
  | some buf => do
    let start ← Buffers.convert ((argAt args 0).toInt32 c)
    let fin ← Buffers.convert ((argAt args 1).toInt32 c)
    let len ← gets fun h => (h.buffer buf).byteLength
    let first := sliceFirst start len
    let finale := sliceFinale (if argAt args 1 = .undefined then len else fin.toInt) len
    let newLen := (max ((finale : ℤ) - first.toInt) 0).toNat
    let newBuf ← newArrayBuffer
    createDataBlock libc newBuf newLen true
    let attached ← gets fun h => (h.buffer buf).attached && (h.buffer newBuf).attached
    if attached = false then
      Buffers.throwTypeError "Cannot split with detached ArrayBuffers"
    else do
      modify (copyDataBlockBytes newBuf 0 buf first newLen)
      return newBuf

end

end Starlight
