import Starlight.Vm.ArrayBuffer
import Starlight.Vm.Descriptors

/-!
# Data views

A view is a window of a buffer. Reading and writing go through the memory of the machine, in its own order
of bytes. `data_view_prototype_set` stores a `u8` after a clamp, the other numbers after a saturating cast,
and for four of the types it stores a whole double.
-/

namespace Starlight

/-- `f32`. -/
def binary32 : BinaryFormat := ⟨23, 8, -149⟩

namespace F64

/-- `f32::from_bits`, and the cast to a double. -/
def ofBits32 (bits : BitVec 32) : F64 :=
  let M := bits.toNat % 2 ^ 31
  if binary32.infinity < M then .nan
  else if M = binary32.infinity then if bits.msb then .negInf else .posInf
  else if bits.msb then if M = 0 then .negZero else .fin (-binary32.value M)
  else .fin (binary32.value M)

/-- The bits of `x as f32`. -/
def toBits32 : F64 → BitVec 32
  | .nan => 0x7fc00000#32
  | .posInf => 0x7f800000#32
  | .negInf => 0xff800000#32
  | .negZero => 0x80000000#32
  | .fin q => BitVec.ofNat 32 ((if q < 0 then 2 ^ 31 else 0) + min (binary32.encode |q|) binary32.infinity)

/-- `x as T`, which saturates. -/
def toInteger (t : IntType) : F64 → ℤ
  | .nan | .negZero => 0
  | .posInf => if t.signed then 2 ^ (t.bits - 1) - 1 else 2 ^ t.bits - 1
  | .negInf => if t.signed then -2 ^ (t.bits - 1) else 0
  | .fin q =>
    max (if t.signed then -2 ^ (t.bits - 1) else 0)
      (min (truncRat q) (if t.signed then 2 ^ (t.bits - 1) - 1 else 2 ^ t.bits - 1))

def clampU8 (x : F64) : F64 :=
  if x.lt (.fin 0) then .fin 0
  else if F64.lt (.fin 255) x then .fin 255
  else x

end F64

def toIndex (c : Conversions) (val : JsValue) : Buffers ℕ := do
  let value := if val = .undefined then .int32 0 else val
  let res ← Buffers.convert (c.toNumber value)
  if res.lt (.fin 0) then Buffers.throwRangeError "Negative index"
  else if res.lt (.fin 9007199254740991) = false ∧ res.isNan = false then
    Buffers.throwRangeError "The value given for the index must be between 0 and 2 ^ 53 - 1"
  else return (res.toInteger .u64).toNat

inductive Endianess where
  | little | big | native
deriving DecidableEq

inductive ElementType where
  | int (t : IntType)
  | f32
  | f64
deriving DecidableEq

namespace ElementType

def size : ElementType → ℕ
  | int t => t.bits / 8
  | f32 => 4
  | f64 => 8

def toValue (t : ElementType) (bits : ℕ) : Boxed :=
  match t with
  | int t => .new t (t.cast bits)
  | f32 =>
    let x := F64.ofBits32 (BitVec.ofNat 32 bits)
    if x.isNan then .encodeF64Value Boxed.pureNan else .encodeF64Value x.toBits
  | f64 => .encodeUntrustedF64Value (BitVec.ofNat 64 bits)

/-- What `data_view_prototype_set` stores of a number: the type that it calls `JsDataView::set` with, and
the bits. -/
def stored (t : ElementType) (num : F64) : ElementType × ℕ :=
  match t with
  | int .u8 => (int .u8, (num.clampU8.toInteger .u8).toNat)
  | f64 => (f64, num.toBits.toNat)
  | f32 => (f32, num.toBits32.toNat)
  | int .i64 => (int .i64, (IntType.u64.cast (num.toInteger .i64)).toNat)
  | int .u64 => (int .u64, (num.toInteger .u64).toNat)
  | int .u32 => (int .u32, (num.toInteger .u32).toNat)
  | int .u16 => (f64, num.toBits.toNat)
  | int .i32 => (f64, num.toBits.toNat)
  | int .i16 => (f64, num.toBits.toNat)
  | int .i8 => (f64, num.toBits.toNat)

end ElementType

/-- The bytes of a value in the memory of the machine. -/
def nativeBytes (system : Endianess) (w bits : ℕ) : List (BitVec 8) :=
  if system = .big then (leBytes w bits).reverse else leBytes w bits

/-- The value of bytes in the memory of the machine. -/
def ofNativeBytes (system : Endianess) (bs : List (BitVec 8)) : ℕ :=
  if system = .big then ofLeBytes bs.reverse else ofLeBytes bs

def byteSwap (system : Endianess) (w bits : ℕ) (endian : Endianess) : ℕ :=
  if endian ≠ .native ∧ endian ≠ system then ofLeBytes (leBytes w bits).reverse else bits

open Exec

section

variable (system : Endianess)

namespace DataView

/-- The first byte of an access. -/
def address (v : DataView) (h : BufferHeap) (offset : ℕ) : BitVec 64 :=
  (h.buffer v.buffer).data + BitVec.ofNat 64 v.offset + BitVec.ofNat 64 offset

def get (t : ElementType) (v : DataView) (offset : ℕ) (littleEndian : Bool) : Buffers ℕ := do
  let attached ← gets fun h => (h.buffer v.buffer).attached
  if attached = false then stuck
  else if v.length < offset + t.size then stuck
  else do
    let bytes ← gets fun h => h.memory.load (v.address h offset) t.size
    return byteSwap system t.size (ofNativeBytes system bytes) (if littleEndian then .little else .big)

def set (t : ElementType) (v : DataView) (offset bits : ℕ) (littleEndian : Bool) : Buffers Unit := do
  let attached ← gets fun h => (h.buffer v.buffer).attached
  if attached = false then stuck
  else if v.length < offset + t.size then stuck
  else do
    let value := byteSwap system t.size bits (if littleEndian then .little else .big)
    modify fun h =>
      h.withMemory (h.memory.store (v.address h offset) (nativeBytes system t.size value))

variable {system} {t : ElementType} {v : DataView} {h : BufferHeap} {offset : ℕ}

theorem get_eq (hatt : (h.buffer v.buffer).attached = true) (hlen : offset + t.size ≤ v.length)
    (littleEndian : Bool) : v.get system t offset littleEndian h =
      .ok (byteSwap system t.size (ofNativeBytes system (h.memory.load (v.address h offset) t.size))
        (if littleEndian then .little else .big)) h := by
  unfold DataView.get
  rw [gets_bind, hatt, if_neg Bool.noConfusion, if_neg (Nat.not_lt.mpr hlen)]
  rfl

theorem set_eq (hatt : (h.buffer v.buffer).attached = true) (hlen : offset + t.size ≤ v.length)
    (bits : ℕ) (littleEndian : Bool) : v.set system t offset bits littleEndian h =
      .ok () (h.withMemory (h.memory.store (v.address h offset) (nativeBytes system t.size
        (byteSwap system t.size bits (if littleEndian then .little else .big))))) := by
  unfold DataView.set
  rw [gets_bind, hatt, if_neg Bool.noConfusion, if_neg (Nat.not_lt.mpr hlen)]
  rfl

theorem set_stuck (hlen : v.length < offset + t.size) (bits : ℕ) (littleEndian : Bool) :
    v.set system t offset bits littleEndian h = .stuck := by
  unfold DataView.set
  rw [gets_bind, if_pos hlen]
  split <;> rfl

theorem set_detached (hatt : (h.buffer v.buffer).attached = false) (bits : ℕ) (littleEndian : Bool) :
    v.set system t offset bits littleEndian h = .stuck := by
  unfold DataView.set
  rw [gets_bind, hatt, if_pos rfl]
  rfl

end DataView

/-- `to_object` and the test of the class. -/
def thisView (this : JsValue) : Buffers (Option DataView) := do
  match ← toObject this with
  | none => return none
  | some o => gets fun h => h.views o

def dataViewPrototypeGet (t : ElementType) (c : Conversions) (this : JsValue) (args : List JsValue) :
    Buffers Boxed := do
  match ← thisView this with
  | none => Buffers.throwTypeError "DataView.prototype.get<T> called on a non DataView object"
  | some v => do
    let byteOffset ← toIndex c (argAt args 0)
    let littleEndian := (argAt args 1).toBoolean
    let attached ← gets fun h => (h.buffer v.buffer).attached
    if attached = false then
      Buffers.throwTypeError "DataView.prototype.get<T> called on a detached ArrayBuffer"
    else if v.length < byteOffset + t.size then
      Buffers.throwRangeError
        s!"DataView.prototype.get<T>(): Cannot read that many bytes {byteOffset + t.size}"
    else do
      let bits ← v.get system t byteOffset littleEndian
      return t.toValue bits

def tryFromView (found : JsValue → String) (value : JsValue) : Buffers DataView :=
  match value with
  | .object o => do
    match ← gets fun h => h.views o with
    | some v => return v
    | none => Buffers.throwTypeError s!"Expected class 'DataView' but found '{found value}'"
  | _ => Buffers.throwTypeError "Expected object"

theorem tryFromView_some {h : BufferHeap} {o : ℕ} {v : DataView} (hv : h.views o = some v)
    (found : JsValue → String) : tryFromView found (.object o) h = .ok v h := by
  unfold tryFromView
  dsimp only
  rw [gets_bind, hv]
  rfl

theorem tryFromView_none {h : BufferHeap} {o : ℕ} (hv : h.views o = none) (found : JsValue → String) :
    tryFromView found (.object o) h =
      .error (.throw (.typeError s!"Expected class 'DataView' but found '{found (.object o)}'")) h := by
  unfold tryFromView
  dsimp only
  rw [gets_bind, hv]
  rfl

def dataViewPrototypeSet (t : ElementType) (found : JsValue → String) (c : Conversions) (this : JsValue)
    (args : List JsValue) : Buffers Unit := do
  let v ← tryFromView found this
  let byteOffset ← toIndex c (argAt args 0)
  let littleEndian := (argAt args 2).toBoolean
  let attached ← gets fun h => (h.buffer v.buffer).attached
  if attached = false then
    Buffers.throwTypeError "DataView.prototype.set<T> called on a detached ArrayBuffer"
  else if v.length < byteOffset + t.size then
    Buffers.throwRangeError
      s!"DataView.prototype.set<T>(): Cannot write that many bytes {byteOffset + t.size}"
  else do
    let num ← Buffers.convert (c.toNumber (argAt args 1))
    let (t', bits) := t.stored num
    v.set system t' byteOffset bits littleEndian

def viewLength (c : Conversions) (byteLength : JsValue) (offset bufferLength : ℕ) : Buffers ℕ :=
  if byteLength = .undefined then return bufferLength - offset
  else do
    let res ← toIndex c byteLength
    if bufferLength < offset + res then
      Buffers.throwRangeError ("new DataView(buffer, [byteOffset], byteLength]): " ++
        "byteOffset + byteLength must be <= the buffer's byte length")
    else return res

def dataViewConstructor (c : Conversions) (ctorCall : Bool) (args : List JsValue) : Buffers ℕ := do
  if ctorCall = false then
    Buffers.throwTypeError "DataView() called in a function context instead of constructor"
  else do
    let buffer ← gets fun h =>
      match argAt args 0 with
      | .object o => if (h.buffers o).isSome then some o else none
      | _ => none
    match buffer with
    | none =>
      Buffers.throwTypeError
        "new DataView(buffer, [byteOffset], [byteLength]): buffer must be an ArrayBuffer"
    | some buffer => do
      let offset ← toIndex c (argAt args 1)
      let bufferLength ← gets fun h => (h.buffer buffer).byteLength
      if bufferLength < offset then
        Buffers.throwRangeError ("new DataView(buffer, [byteOffset], byteLength]): " ++
          "byteOffset must be <= the buffer's byte length")
      else do
        let viewByteLength ← viewLength c (argAt args 2) offset bufferLength
        update fun h =>
          (h.nextObject, { h with
            views := Function.update h.views h.nextObject (some ⟨buffer, offset, viewByteLength⟩)
            nextObject := h.nextObject + 1 })

end

end Starlight
