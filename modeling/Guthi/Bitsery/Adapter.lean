import Guthi.Lib.Bytes

/-!
# Bitsery — buffer adapters and size prefixes

What the serializer of the file tree uses of `include/serializer/bitsery`: the output and
input adapters over a byte vector (`adapter/buffer.h`) and the variable-width size prefix
(`writeSize` and `readSize` of `details/adapter_common.h`), under the default configuration
(little endian, adapter errors and data errors checked).

The main facts are the read-back lemmas. `Ready r bs` says that the reader `r` has recorded no
error and that exactly `bs` is left to read; a read of what was written then returns it and
leaves the reader ready for the rest (`Ready.readBuffer`, `Ready.readBytes1`,
`Ready.readBytes2`, `Ready.readSize`).
-/

namespace Guthi.Bitsery

/-! ## The output adapter -/

/-- `OutputBufferAdapter` over a growing byte vector. `bytes` is the written prefix of the
buffer; how the vector grows behind it is not visible. `assertsHold` records whether every
assertion met so far held: a debug build stops at the first that does not, a release build
goes on writing. -/
structure OutputBufferAdapter where
  bytes : Bytes := []
  assertsHold : Bool := true
deriving DecidableEq, Repr

namespace OutputBufferAdapter

/-- `assert(cond)`. -/
def assert (w : OutputBufferAdapter) (cond : Bool) : OutputBufferAdapter :=
  { w with assertsHold := w.assertsHold && cond }

/-- `writeBuffer(data, size)`. -/
def writeBuffer (w : OutputBufferAdapter) (buf : Bytes) : OutputBufferAdapter :=
  { w with bytes := w.bytes ++ buf }

def writeBytes1 (w : OutputBufferAdapter) (v : UInt8) : OutputBufferAdapter := w.writeBuffer [v]

/-- `writeBytes<2>(v)`. -/
def writeBytes2 (w : OutputBufferAdapter) (v : UInt16) : OutputBufferAdapter :=
  w.writeBuffer (leBytes16 v)

/-- `writeSize(adapter, size)`. The last form is for sizes below `2 ^ 30`, which is only asserted.
-/
def writeSize (w : OutputBufferAdapter) (size : Nat) : OutputBufferAdapter :=
  if size < 0x80 then
    w.writeBytes1 (UInt8.ofNat size)
  else if size < 0x4000 then
    (w.writeBytes1 (UInt8.ofNat (size >>> 8 ||| 0x80))).writeBytes1 (UInt8.ofNat size)
  else
    (((w.assert (size < 0x40000000)).writeBytes1 (UInt8.ofNat (size >>> 24 ||| 0xC0))).writeBytes1
      (UInt8.ofNat (size >>> 16))).writeBytes2 (UInt16.ofNat size)

end OutputBufferAdapter

/-- The prefix that is written in front of `size` elements. -/
def sizeBytes (size : Nat) : Bytes := (OutputBufferAdapter.writeSize {} size).bytes

namespace OutputBufferAdapter

@[simp] theorem assert_bytes (w : OutputBufferAdapter) (cond : Bool) :
    (w.assert cond).bytes = w.bytes := rfl

@[simp] theorem writeBuffer_bytes (w : OutputBufferAdapter) (buf : Bytes) :
    (w.writeBuffer buf).bytes = w.bytes ++ buf := rfl

@[simp] theorem writeBytes1_bytes (w : OutputBufferAdapter) (v : UInt8) :
    (w.writeBytes1 v).bytes = w.bytes ++ [v] := rfl

@[simp] theorem writeBytes2_bytes (w : OutputBufferAdapter) (v : UInt16) :
    (w.writeBytes2 v).bytes = w.bytes ++ leBytes16 v := rfl

/-- Only a size can fail an assertion. -/
@[simp] theorem writeBuffer_assertsHold (w : OutputBufferAdapter) (buf : Bytes) :
    (w.writeBuffer buf).assertsHold = w.assertsHold := rfl

@[simp] theorem writeBytes1_assertsHold (w : OutputBufferAdapter) (v : UInt8) :
    (w.writeBytes1 v).assertsHold = w.assertsHold := rfl

@[simp] theorem writeBytes2_assertsHold (w : OutputBufferAdapter) (v : UInt16) :
    (w.writeBytes2 v).assertsHold = w.assertsHold := rfl

/-- A size prefix is appended; the same bytes whatever was written before. -/
@[simp] theorem writeSize_bytes (w : OutputBufferAdapter) (size : Nat) :
    (w.writeSize size).bytes = w.bytes ++ sizeBytes size := by
  unfold sizeBytes writeSize
  split
  · simp
  · split <;> simp

/-- Below `2 ^ 30` no assertion of `writeSize` fails. -/
theorem writeSize_assertsHold (w : OutputBufferAdapter) {size : Nat} (h : size < 2 ^ 30) :
    (w.writeSize size).assertsHold = w.assertsHold := by
  unfold writeSize
  split
  · rfl
  · split
    · rfl
    · simp [assert, show size < 1073741824 by omega]

end OutputBufferAdapter

/-- A prefix has at least one byte. -/
theorem sizeBytes_length_pos (size : Nat) : 0 < (sizeBytes size).length := by
  unfold sizeBytes OutputBufferAdapter.writeSize
  split
  · simp
  · split <;> simp

/-! ## The input adapter -/

/-- `enum class ReaderError`, the values the input adapter can take on. -/
inductive ReaderError where
  | noError
  | readingError
  | dataOverflow
  | invalidData
  | invalidPointer
deriving DecidableEq, Repr

/-- The values of the enumeration, which `error()` reads back from the offset. -/
def ReaderError.code : ReaderError → Nat
  | .noError => 0
  | .readingError => 1
  | .dataOverflow => 2
  | .invalidData => 3
  | .invalidPointer => 4

/-- `InputBufferAdapter`. `_overflowOnReadEndPos` is always true here, since nothing calls
`currentReadEndPos`. -/
structure InputBufferAdapter where
  data : Bytes
  currOffset : Nat
  endReadOffset : Nat
  bufferSize : Nat
deriving DecidableEq, Repr

namespace InputBufferAdapter

/-- `InputBufferAdapter(data.begin(), data.size())`. -/
def ofData (data : Bytes) : InputBufferAdapter :=
  { data, currOffset := 0, endReadOffset := data.length, bufferSize := data.length }

/-- `error() == ReaderError::NoError`. -/
def noError (r : InputBufferAdapter) : Bool := r.currOffset ≤ r.endReadOffset

/-- `error(e)`: the first error is recorded by moving the offset past an emptied buffer. -/
def error (r : InputBufferAdapter) (e : ReaderError) : InputBufferAdapter :=
  if r.currOffset ≤ r.endReadOffset then
    { r with endReadOffset := 0, bufferSize := 0, currOffset := e.code }
  else r

/-- The whole buffer was read, and no error has moved the offset. -/
def isCompletedSuccessfully (r : InputBufferAdapter) : Bool := r.currOffset = r.bufferSize

/-- `readInternalBufferChecked` and `readInternalValueChecked`: the next `size` bytes, or
zeros and a recorded overflow when fewer are left. -/
def readBuffer (r : InputBufferAdapter) (size : Nat) : Bytes × InputBufferAdapter :=
  if r.currOffset + size ≤ r.endReadOffset then
    ((r.data.drop r.currOffset).take size, { r with currOffset := r.currOffset + size })
  else
    (List.replicate size 0, r.error .dataOverflow)

/-- `readBytes<1>`. -/
def readBytes1 (r : InputBufferAdapter) : UInt8 × InputBufferAdapter :=
  ((r.readBuffer 1).1.headD 0, (r.readBuffer 1).2)

/-- `readBytes<2>`. -/
def readBytes2 (r : InputBufferAdapter) : UInt16 × InputBufferAdapter :=
  let buf := (r.readBuffer 2).1
  (ofLeBytes16 (buf.getD 0 0) (buf.getD 1 0), (r.readBuffer 2).2)

/-- The three forms of a size prefix, told apart by the top bits of its first byte. -/
def readSizeRaw (r : InputBufferAdapter) : Nat × InputBufferAdapter :=
  let (hb, r) := r.readBytes1
  if hb.toNat < 0x80 then
    (hb.toNat, r)
  else
    let (lb, r) := r.readBytes1
    -- the second highest bit tells the four-byte form from the two-byte form
    if hb.toNat &&& 0x40 ≠ 0 then
      let (lw, r) := r.readBytes2
      ((((hb.toNat &&& 0x3F) <<< 8 ||| lb.toNat) <<< 16) ||| lw.toNat, r)
    else
      ((hb.toNat &&& 0x7F) <<< 8 ||| lb.toNat, r)

/-- `details::readSize`. With `maxSize` given, a larger size is an error and reads as zero
(`handleReadMaxSize`). -/
def readSize (r : InputBufferAdapter) (maxSize : Option Nat) : Nat × InputBufferAdapter :=
  let (size, r) := r.readSizeRaw
  match maxSize with
  | none => (size, r)
  | some max => if size > max then (0, r.error .invalidData) else (size, r)

end InputBufferAdapter

/-! ## Reading back what was written -/

namespace InputBufferAdapter

/-- The reader `n` bytes further on. -/
def advance (r : InputBufferAdapter) (n : Nat) : InputBufferAdapter :=
  { r with currOffset := r.currOffset + n }

theorem advance_advance (r : InputBufferAdapter) (m n : Nat) :
    (r.advance m).advance n = r.advance (m + n) := by
  simp [advance, Nat.add_assoc]

/-- No error so far, and exactly `rest` is left to read. -/
structure Ready (r : InputBufferAdapter) (rest : Bytes) : Prop where
  endReadOffset : r.endReadOffset = r.data.length
  bufferSize : r.bufferSize = r.data.length
  offset : r.currOffset ≤ r.data.length
  rest : r.data.drop r.currOffset = rest

/-- At the start all the data is ahead. -/
theorem ready_ofData (data : Bytes) : Ready (ofData data) data :=
  ⟨rfl, rfl, Nat.zero_le _, rfl⟩

namespace Ready

variable {r : InputBufferAdapter}

/-- What was read and what is ahead make up the data. -/
theorem length {rest : Bytes} (h : Ready r rest) :
    r.currOffset + rest.length = r.data.length := by
  have := h.offset
  rw [← h.rest, List.length_drop]
  omega

/-- Behind a part of what is ahead, the rest is. -/
theorem advance {bs rest : Bytes} (h : Ready r (bs ++ rest)) :
    Ready (r.advance bs.length) rest := by
  have hlen := h.length
  rw [List.length_append] at hlen
  refine ⟨h.endReadOffset, h.bufferSize, ?_, ?_⟩
  · show r.currOffset + bs.length ≤ r.data.length
    omega
  · show r.data.drop (r.currOffset + bs.length) = rest
    rw [← List.drop_drop, h.rest, List.drop_left]

theorem advance1 {b : UInt8} {rest : Bytes} (h : Ready r (b :: rest)) :
    Ready (r.advance 1) rest := by
  have h' : Ready r ([b] ++ rest) := h
  exact h'.advance

/-- A read of what is ahead gives it, and no error. -/
theorem readBuffer {bs rest : Bytes} (h : Ready r (bs ++ rest)) :
    r.readBuffer bs.length = (bs, r.advance bs.length) := by
  have hlen := h.length
  rw [List.length_append] at hlen
  -- so the check against the end passes
  have hle : r.currOffset + bs.length ≤ r.endReadOffset := by rw [h.endReadOffset]; omega
  rw [InputBufferAdapter.readBuffer, if_pos hle, h.rest, List.take_left]
  rfl

theorem readBytes1 {b : UInt8} {rest : Bytes} (h : Ready r (b :: rest)) :
    r.readBytes1 = (b, r.advance 1) := by
  have h' : Ready r ([b] ++ rest) := h
  have hread : r.readBuffer 1 = ([b], r.advance 1) := h'.readBuffer
  simp [InputBufferAdapter.readBytes1, hread]

/-- A word that was written is read back. -/
theorem readBytes2 {v : UInt16} {rest : Bytes} (h : Ready r (leBytes16 v ++ rest)) :
    r.readBytes2 = (v, r.advance 2) := by
  have hread : r.readBuffer 2 = (leBytes16 v, r.advance 2) := readBuffer h
  simp [InputBufferAdapter.readBytes2, hread, leBytes16, ofLeBytes16_leBytes16]

/-- With nothing ahead the reader is done, without an error. -/
theorem completed (h : Ready r []) : r.noError ∧ r.isCompletedSuccessfully := by
  have hlen : r.currOffset = r.data.length := by simpa using h.length
  simp [noError, isCompletedSuccessfully, h.endReadOffset, h.bufferSize, hlen]

end Ready

end InputBufferAdapter

/-! ### Size prefixes

Setting a tag bit above the payload is addition, and the tests and masks of the reader take
the tag off again. -/

/-- The tag of a two-byte size is added, since its bit is free. -/
theorem or_0x80 {x : Nat} (h : x < 0x80) : x ||| 0x80 = x + 0x80 := by
  rw [Nat.or_comm, show 0x80 = 2 ^ 7 * 1 from rfl, ← Nat.two_pow_add_eq_or_of_lt h]
  omega

/-- The tag of a four-byte size. -/
theorem or_0xC0 {x : Nat} (h : x < 0x40) : x ||| 0xC0 = x + 0xC0 := by
  rw [Nat.or_comm, show 0xC0 = 2 ^ 6 * 3 from rfl, ← Nat.two_pow_add_eq_or_of_lt h]
  omega

/-- What the reader tests and masks off, for each first byte of a two-byte size. -/
theorem masks_two_byte : ∀ x : Fin 64,
    (x.val + 0x80) &&& 0x40 = 0 ∧ (x.val + 0x80) &&& 0x7F = x.val := by decide

/-- The same for a four-byte size. -/
theorem masks_four_byte : ∀ x : Fin 64,
    (x.val + 0xC0) &&& 0x40 ≠ 0 ∧ (x.val + 0xC0) &&& 0x3F = x.val := by decide

/-- Shifting and or-ing puts numbers together, as long as the lower one fits below. -/
theorem shiftLeft_or (a : Nat) {b i : Nat} (h : b < 2 ^ i) : a <<< i ||| b = 2 ^ i * a + b := by
  rw [Nat.shiftLeft_eq, Nat.mul_comm, ← Nat.two_pow_add_eq_or_of_lt h]

/-- The three forms of a prefix, as bytes. -/
theorem sizeBytes_one {size : Nat} (h : size < 0x80) :
    sizeBytes size = [UInt8.ofNat size] := by
  simp [sizeBytes, OutputBufferAdapter.writeSize, h]

theorem sizeBytes_two {size : Nat} (h1 : ¬ size < 0x80) (h2 : size < 0x4000) :
    sizeBytes size = [UInt8.ofNat (size / 2 ^ 8 + 0x80), UInt8.ofNat size] := by
  simp only [sizeBytes, OutputBufferAdapter.writeSize, h1, h2, if_true, if_false,
    OutputBufferAdapter.writeBytes1_bytes, Nat.shiftRight_eq_div_pow]
  rw [or_0x80 (by omega)]
  rfl

theorem sizeBytes_four {size : Nat} (h1 : ¬ size < 0x80) (h2 : ¬ size < 0x4000)
    (h3 : size < 2 ^ 30) :
    sizeBytes size = UInt8.ofNat (size / 2 ^ 24 + 0xC0) :: UInt8.ofNat (size / 2 ^ 16)
      :: leBytes16 (UInt16.ofNat size) := by
  simp only [sizeBytes, OutputBufferAdapter.writeSize, h1, h2, if_false,
    OutputBufferAdapter.writeBytes1_bytes, OutputBufferAdapter.writeBytes2_bytes,
    OutputBufferAdapter.assert_bytes, Nat.shiftRight_eq_div_pow]
  rw [or_0xC0 (by omega)]
  rfl

namespace InputBufferAdapter.Ready

variable {r : InputBufferAdapter}

/-- A size prefix below `2 ^ 30` reads back as the size it was written for. -/
theorem readSizeRaw {size : Nat} {rest : Bytes} (hsize : size < 2 ^ 30)
    (h : Ready r (sizeBytes size ++ rest)) :
    r.readSizeRaw = (size, r.advance (sizeBytes size).length) := by
  by_cases h1 : size < 0x80
  · -- one byte, which is the size
    rw [sizeBytes_one h1] at h ⊢
    have hb : (UInt8.ofNat size).toNat = size := by
      rw [UInt8.toNat_ofNat', Nat.mod_eq_of_lt (by omega)]
    rw [InputBufferAdapter.readSizeRaw, readBytes1 h]
    simp [hb, h1]
  by_cases h2 : size < 0x4000
  · -- two bytes, high one first, tagged with 0x80
    rw [sizeBytes_two h1 h2] at h ⊢
    have hhb : (UInt8.ofNat (size / 2 ^ 8 + 0x80)).toNat = size / 2 ^ 8 + 0x80 := by
      rw [UInt8.toNat_ofNat', Nat.mod_eq_of_lt (by omega)]
    have hlb : (UInt8.ofNat size).toNat = size % 2 ^ 8 := UInt8.toNat_ofNat'
    -- the tag bit is not 0x40, and the mask takes it off
    obtain ⟨htag, hmask⟩ := masks_two_byte ⟨size / 2 ^ 8, by omega⟩
    have hrest := h.advance1
    rw [InputBufferAdapter.readSizeRaw, readBytes1 h]
    simp only [hhb, show ¬ size / 2 ^ 8 + 0x80 < 0x80 by omega, if_false]
    rw [readBytes1 (r := r.advance 1) hrest]
    simp only [htag, hmask, hlb, ne_eq, not_true_eq_false, if_false]
    rw [shiftLeft_or _ (by omega), advance_advance, Prod.mk.injEq]
    exact ⟨by omega, rfl⟩
  · -- two bytes tagged with 0xC0, then a word
    rw [sizeBytes_four h1 h2 hsize] at h ⊢
    have hhb : (UInt8.ofNat (size / 2 ^ 24 + 0xC0)).toNat = size / 2 ^ 24 + 0xC0 := by
      rw [UInt8.toNat_ofNat', Nat.mod_eq_of_lt (by omega)]
    have hlb : (UInt8.ofNat (size / 2 ^ 16)).toNat = size / 2 ^ 16 % 2 ^ 8 := UInt8.toNat_ofNat'
    have hlw : (UInt16.ofNat size).toNat = size % 2 ^ 16 := UInt16.toNat_ofNat'
    -- both tag bits are set
    obtain ⟨htag, hmask⟩ := masks_four_byte ⟨size / 2 ^ 24, by omega⟩
    have hrest := h.advance1
    have hrest2 := hrest.advance1
    rw [InputBufferAdapter.readSizeRaw, readBytes1 h]
    simp only [hhb, show ¬ size / 2 ^ 24 + 0xC0 < 0x80 by omega, if_false]
    rw [readBytes1 (r := r.advance 1) hrest]
    simp only [htag, hmask, hlb, ne_eq, not_false_eq_true, if_true]
    rw [readBytes2 (r := (r.advance 1).advance 1) hrest2]
    simp only [hlw]
    rw [shiftLeft_or _ (by omega), shiftLeft_or _ (by omega), advance_advance, advance_advance,
      Prod.mk.injEq]
    exact ⟨by omega, rfl⟩

/-- A size prefix reads back when it is within the limit asked for. -/
theorem readSize {size : Nat} {rest : Bytes} (maxSize : Option Nat) (hsize : size < 2 ^ 30)
    (hmax : ∀ max ∈ maxSize, size ≤ max) (h : Ready r (sizeBytes size ++ rest)) :
    r.readSize maxSize = (size, r.advance (sizeBytes size).length) := by
  rw [InputBufferAdapter.readSize, readSizeRaw hsize h]
  cases maxSize with
  | none => rfl
  | some max => simp [hmax max rfl]

end InputBufferAdapter.Ready

end Guthi.Bitsery
