import Guthi.Bitsery.Adapter
import Guthi.Lib.ByteVector
import Guthi.Lib.Fallible

/-!
# Bitsery — the output adapter and its vector

`OutputBufferAdapter` of `adapter/buffer.h` as it is: over a vector that grows
(`traits/core/std_defaults.h`), with an iterator into it that a move of the elements makes
invalid, a size of its own and a write position that can be set.

* `GrowingAdapter.run` — a run of writes and `currentWritePos` calls;
* `Written.run` — the bytes that there should be;
* `run_growing` — the adapter always comes to an end, writes inside the vector only, and resized
  to `writtenBytesCount` the vector is these bytes.
-/

namespace Guthi.Bitsery

/-! ## The vector -/

/-- `BufferAdapterTraits::increaseBufferSize(container)`. -/
def increaseBufferSize (g : Growth) (container : ByteVector) : ByteVector :=
  let newSize := container.elems.length * 3 / 2 + 128
  -- 64 is the size of a cache line
  let newSize := newSize - newSize % 64
  container.resize g (max newSize container.capacity)

/-- A vector that gets larger has zeros at its end. -/
theorem increaseBufferSize_elems (g : Growth) (v : ByteVector) :
    ∃ k, 0 < k ∧ (increaseBufferSize g v).elems = v.elems ++ List.replicate k 0 := by
  let newSize := v.elems.length * 3 / 2 + 128 - (v.elems.length * 3 / 2 + 128) % 64
  have hlarger : v.elems.length < max newSize v.capacity := by omega
  refine ⟨max newSize v.capacity - v.elems.length, by omega, ?_⟩
  show (v.resize g (max newSize v.capacity)).elems = _
  rw [ByteVector.resize_elems, takeD_of_length_le 0 hlarger.le]

/-- The vector gets longer by at least one byte. -/
theorem length_increaseBufferSize (g : Growth) (v : ByteVector) :
    v.elems.length < (increaseBufferSize g v).elems.length := by
  obtain ⟨k, hk, helems⟩ := increaseBufferSize_elems g v
  rw [helems, List.length_append, List.length_replicate]
  omega

/-! ## The adapter -/

/-- What `std::copy_n` can do wrong with an iterator. -/
inductive CopyFault where
  | invalidIterator
  | outOfRange
deriving DecidableEq, Repr

/-- `OutputBufferAdapter` with the vector that it writes to. `beginIt` is the iterator that was
taken when the elements had moved so many times. -/
structure GrowingAdapter where
  buffer : ByteVector
  beginIt : Nat
  currOffset : Nat := 0
  bufferSize : Nat := 0
  biggestCurrentPos : Nat := 0

namespace GrowingAdapter

/-- `updateIteratorAndSize()`: iterators and size are those of the vector as it is now. -/
def updateIteratorAndSize (w : GrowingAdapter) : GrowingAdapter :=
  { w with beginIt := w.buffer.moves, bufferSize := w.buffer.elems.length }

/-- `increaseBufferSize(*_buffer)` and `updateIteratorAndSize()`. -/
def grow (g : Growth) (w : GrowingAdapter) : GrowingAdapter :=
  { w with buffer := increaseBufferSize g w.buffer }.updateIteratorAndSize

/-- `OutputBufferAdapter(buffer)` and `init`. -/
def ofBuffer (g : Growth) (buffer : ByteVector) : GrowingAdapter :=
  let w : GrowingAdapter := { buffer, beginIt := buffer.moves }
  if buffer.elems.length = 0 then w.grow g else w.updateIteratorAndSize

/-- `std::copy_n(data, size, _beginIt + _currOffset)`. -/
def copyN (w : GrowingAdapter) (data : Bytes) : Except CopyFault GrowingAdapter :=
  if w.beginIt ≠ w.buffer.moves then .error .invalidIterator
  else if w.currOffset + data.length ≤ w.buffer.elems.length then
    .ok { w with buffer := w.buffer.overwritten w.currOffset data }
  else .error .outOfRange

/-- What the adapter still has to grow by: it may not know the size of its vector at first. -/
def stale (w : GrowingAdapter) : Nat := if w.bufferSize = w.buffer.elems.length then 0 else 1

/-- After `grow` the recorded size is that of the vector. -/
theorem stale_grow (g : Growth) (w : GrowingAdapter) : (w.grow g).stale = 0 := if_pos rfl

/-- What the loops go down by: at most one `grow` only updates the size, all others make the vector
longer. -/
theorem grow_decreases (g : Growth) (w : GrowingAdapter) {size : Nat} (h : w.bufferSize < size) :
    Prod.Lex (· < ·) (· < ·) ((w.grow g).stale, size - (w.grow g).bufferSize)
      (w.stale, size - w.bufferSize) := by
  rw [stale_grow]
  -- the size may lag behind the vector before the first round
  by_cases hsize : w.bufferSize = w.buffer.elems.length
  · have hlarger : w.bufferSize < (w.grow g).bufferSize := by
      rw [hsize]
      exact length_increaseBufferSize g w.buffer
    rw [stale, if_pos hsize]
    exact Prod.Lex.right 0 (by omega)
  · rw [stale, if_neg hsize]
    exact Prod.Lex.left _ _ Nat.one_pos

/-- `writeInternalBufferImpl`, and `writeInternalValueImpl` for the bytes of a value. -/
def writeInternalBuffer (g : Growth) (w : GrowingAdapter) (data : Bytes) :
    Except CopyFault GrowingAdapter :=
  if w.currOffset + data.length ≤ w.bufferSize then do
    let w ← w.copyN data
    return { w with currOffset := w.currOffset + data.length }
  else (w.grow g).writeInternalBuffer g data
termination_by (w.stale, w.currOffset + data.length - w.bufferSize)
decreasing_by
  exact w.grow_decreases g (show w.bufferSize < w.currOffset + data.length by omega)

/-- `setCurrentWritePos(pos)`: the vector grows until the position is in it. -/
def setCurrentWritePos (g : Growth) (w : GrowingAdapter) (pos : Nat) : GrowingAdapter :=
  if pos ≤ w.bufferSize then { w with currOffset := pos }
  else (w.grow g).setCurrentWritePos g pos
termination_by (w.stale, pos - w.bufferSize)
decreasing_by
  exact w.grow_decreases g (by omega)

/-- `currentWritePos(pos)`. -/
def currentWritePos (g : Growth) (w : GrowingAdapter) (pos : Nat) : GrowingAdapter :=
  let maxPos := if w.currOffset > pos then w.currOffset else pos
  let w := if maxPos > w.biggestCurrentPos then { w with biggestCurrentPos := maxPos } else w
  w.setCurrentWritePos g pos

/-- `writtenBytesCount()`. -/
def writtenBytesCount (w : GrowingAdapter) : Nat :=
  if w.currOffset > w.biggestCurrentPos then w.currOffset else w.biggestCurrentPos

/-- What a serializer does with the adapter. -/
inductive Call where
  | write (data : Bytes)
  | currentWritePos (pos : Nat)
deriving DecidableEq, Repr

/-- One call. -/
def call (g : Growth) (w : GrowingAdapter) : Call → Except CopyFault GrowingAdapter
  | .write data => w.writeInternalBuffer g data
  | .currentWritePos pos => .ok (w.currentWritePos g pos)

/-- Calls one after the other, up to the first that fails. -/
def run (g : Growth) (w : GrowingAdapter) (calls : List Call) : Except CopyFault GrowingAdapter :=
  calls.foldlM (call g) w

end GrowingAdapter

/-! ## The bytes -/

/-- The bytes written so far, and the position in them. -/
structure Written where
  bytes : Bytes
  pos : Nat
  le : pos ≤ bytes.length

namespace Written

/-- Nothing has been written yet. -/
theorem start_le : 0 ≤ ([] : Bytes).length := Nat.zero_le _

def start : Written where
  bytes := []
  pos := 0
  le := start_le

/-- Behind a write the position is in the text. -/
theorem write_le (a : Written) (data : Bytes) :
    a.pos + data.length ≤ (overwrite a.bytes a.pos data).length := by
  rw [length_overwrite_of_le a.le]
  exact Nat.le_max_right _ _

/-- The bytes go to the position, over what is there. -/
def write (a : Written) (data : Bytes) : Written where
  bytes := overwrite a.bytes a.pos data
  pos := a.pos + data.length
  le := a.write_le data

/-- Up to a position behind the end there are zeros. -/
theorem seek_le (a : Written) (pos : Nat) :
    pos ≤ (a.bytes ++ List.replicate (pos - a.bytes.length) 0).length := by
  rw [List.length_append, List.length_replicate]
  omega

/-- Go to a position; what is skipped is zero. -/
def seek (a : Written) (pos : Nat) : Written where
  bytes := a.bytes ++ List.replicate (pos - a.bytes.length) 0
  pos := pos
  le := a.seek_le pos

/-- What a call does to the text. -/
def call (a : Written) : GrowingAdapter.Call → Written
  | .write data => a.write data
  | .currentWritePos pos => a.seek pos

/-- The text after some calls. -/
def run (a : Written) (calls : List GrowingAdapter.Call) : Written := calls.foldl call a

end Written

/-! ## One and the other -/

namespace GrowingAdapter

/-- The vector has these bytes, and zeros behind them, and the adapter knows its size. -/
structure Backed (w : GrowingAdapter) (bytes : Bytes) : Prop where
  valid : w.beginIt = w.buffer.moves
  size : w.bufferSize = w.buffer.elems.length
  elems : ∃ k, w.buffer.elems = bytes ++ List.replicate k 0

/-- The adapter holds the text: position, count and vector agree with it. -/
structure Holds (w : GrowingAdapter) (a : Written) : Prop extends w.Backed a.bytes where
  offset : w.currOffset = a.pos
  count : max w.currOffset w.biggestCurrentPos = a.bytes.length

variable {g : Growth} {w : GrowingAdapter} {a : Written}

/-- The count is the greater of the position and the greatest that was left. -/
theorem writtenBytesCount_eq (w : GrowingAdapter) :
    w.writtenBytesCount = max w.currOffset w.biggestCurrentPos := by
  unfold writtenBytesCount
  split_ifs with h
  · exact (max_eq_left h.le).symm
  · exact (max_eq_right (Nat.le_of_not_gt h)).symm

/-- A vector that grows gets zeros. -/
theorem backed_grow {bytes : Bytes} (h : ∃ k, w.buffer.elems = bytes ++ List.replicate k 0) :
    (w.grow g).Backed bytes := by
  obtain ⟨k, helems⟩ := h
  obtain ⟨k', _, hgrown⟩ := increaseBufferSize_elems g w.buffer
  refine ⟨rfl, rfl, k + k', ?_⟩
  show (increaseBufferSize g w.buffer).elems = _
  rw [hgrown, helems, List.append_assoc, List.replicate_append_replicate]

/-- With room in the vector the copy is valid, and writes what `write` does. -/
theorem Backed.copyN {data : Bytes} (h : w.Backed a.bytes) (hoffset : w.currOffset = a.pos)
    (hfits : w.currOffset + data.length ≤ w.bufferSize) :
    ∃ w', w.copyN data = .ok w' ∧ w'.Backed (a.write data).bytes ∧
      w'.currOffset = w.currOffset ∧ w'.biggestCurrentPos = w.biggestCurrentPos := by
  -- behind the text the vector has zeros
  obtain ⟨k, helems⟩ := h.elems
  rw [h.size] at hfits
  refine ⟨{ w with buffer := w.buffer.overwritten w.currOffset data }, ?_,
    ⟨h.valid, h.size.trans (length_overwrite hfits).symm, ?_⟩, rfl, rfl⟩
  · rw [GrowingAdapter.copyN, if_neg (not_not.mpr h.valid), if_pos hfits]
  · show ∃ k, overwrite w.buffer.elems w.currOffset data =
      overwrite a.bytes a.pos data ++ List.replicate k 0
    rw [helems, hoffset]
    exact overwrite_append_replicate k 0 a.le

/-- A write is one in the text, whatever the vector does meanwhile. Induction over its rounds. -/
theorem Holds.writeInternalBuffer {data : Bytes} (h : w.Holds a) :
    ∃ w', w.writeInternalBuffer g data = .ok w' ∧ w'.Holds (a.write data) := by
  fun_induction GrowingAdapter.writeInternalBuffer g w data with
  | case1 w hroom =>
    obtain ⟨w', hcopy, hbacked, hcurr, hbiggest⟩ := h.copyN h.offset hroom
    refine ⟨{ w' with currOffset := w'.currOffset + data.length }, ?_,
      ⟨⟨hbacked.valid, hbacked.size, hbacked.elems⟩, ?_, ?_⟩⟩
    · rw [hcopy]
      rfl
    · show w'.currOffset + data.length = a.pos + data.length
      rw [hcurr, h.offset]
    · show max (w'.currOffset + data.length) w'.biggestCurrentPos =
        (overwrite a.bytes a.pos data).length
      rw [hcurr, hbiggest, length_overwrite_of_le a.le, ← h.count, ← h.offset]
      omega
  -- one round more: the text is the same in the longer vector
  | case2 w hroom ih => exact ih ⟨backed_grow h.elems, h.offset, h.count⟩

/-- Setting the position only makes the vector longer. -/
theorem Backed.setCurrentWritePos {bytes : Bytes} (h : w.Backed bytes) (pos : Nat) :
    (w.setCurrentWritePos g pos).Backed bytes ∧
      (w.setCurrentWritePos g pos).currOffset = pos ∧
      (w.setCurrentWritePos g pos).biggestCurrentPos = w.biggestCurrentPos ∧
      pos ≤ (w.setCurrentWritePos g pos).buffer.elems.length := by
  fun_induction GrowingAdapter.setCurrentWritePos g w pos with
  | case1 w hroom => exact ⟨⟨h.valid, h.size, h.elems⟩, rfl, rfl, h.size ▸ hroom⟩
  | case2 w hroom ih => exact ih (backed_grow h.elems)

/-- The two ifs of `currentWritePos` are maxima. -/
theorem currentWritePos_eq (w : GrowingAdapter) (pos : Nat) : w.currentWritePos g pos =
    { w with biggestCurrentPos := max (max w.currOffset pos) w.biggestCurrentPos
      }.setCurrentWritePos g pos := by
  have hmax : (if w.currOffset > pos then w.currOffset else pos) = max w.currOffset pos := by
    split_ifs <;> omega
  unfold currentWritePos
  rw [hmax]
  show GrowingAdapter.setCurrentWritePos g (if max w.currOffset pos > w.biggestCurrentPos then
    { w with biggestCurrentPos := max w.currOffset pos } else w) pos = _
  split_ifs with h
  · rw [max_eq_left h.le]
  · rw [max_eq_right (Nat.le_of_not_gt h)]

/-- A new position is one in the text. -/
theorem Holds.currentWritePos {pos : Nat} (h : w.Holds a) :
    (w.currentWritePos g pos).Holds (a.seek pos) := by
  let w₁ : GrowingAdapter :=
    { w with biggestCurrentPos := max (max w.currOffset pos) w.biggestCurrentPos }
  have hw₁ : w₁.Backed a.bytes := ⟨h.valid, h.size, h.elems⟩
  obtain ⟨hbacked, hcurr, hbiggest, hle⟩ := hw₁.setCurrentWritePos (g := g) pos
  obtain ⟨k, helems⟩ := hbacked.elems
  rw [currentWritePos_eq]
  refine ⟨⟨hbacked.valid, hbacked.size, k - (pos - a.bytes.length), ?_⟩, hcurr, ?_⟩
  · -- the vector has zeros up to the position
    rw [helems, List.length_append, List.length_replicate] at hle
    show _ = (a.bytes ++ List.replicate (pos - a.bytes.length) 0) ++ _
    rw [helems, List.append_assoc, List.replicate_append_replicate]
    congr 2
    omega
  · -- the greatest position that was left is where the text ends
    show max _ _ = (a.bytes ++ List.replicate (pos - a.bytes.length) 0).length
    rw [hcurr, hbiggest, List.length_append, List.length_replicate, ← h.count]
    show max pos (max (max w.currOffset pos) w.biggestCurrentPos) = _
    omega

/-- A call of the adapter is one on the text, and does not fail. -/
theorem Holds.call (h : w.Holds a) (c : Call) :
    ∃ w', w.call g c = .ok w' ∧ w'.Holds (a.call c) := by
  cases c with
  | write data => exact h.writeInternalBuffer
  | currentWritePos pos => exact ⟨_, rfl, h.currentWritePos⟩

theorem Holds.run (h : w.Holds a) (calls : List Call) :
    ∃ w', w.run g calls = .ok w' ∧ w'.Holds (a.run calls) := by
  induction calls generalizing w a with
  | nil => exact ⟨w, rfl, h⟩
  | cons c calls ih =>
    obtain ⟨w₁, hcall, hw₁⟩ := h.call c
    obtain ⟨w₂, hrun, hw₂⟩ := ih hw₁
    refine ⟨w₂, ?_, hw₂⟩
    show (c :: calls).foldlM (GrowingAdapter.call g) w = _
    rw [List.foldlM_cons, hcall]
    exact hrun

/-- An adapter over a new vector holds the empty text, also over an empty vector, which it grows. -/
theorem ofBuffer_holds (g : Growth) (size : Nat) : (ofBuffer g (.zeros size)).Holds .start := by
  unfold ofBuffer
  have hzeros : ∃ k, (ByteVector.zeros size).elems = [] ++ List.replicate k 0 := ⟨size, rfl⟩
  split_ifs with hempty
  · exact ⟨backed_grow hzeros, rfl, rfl⟩
  · exact ⟨⟨rfl, rfl, hzeros⟩, rfl, rfl⟩

/-- What `writtenBytesCount` counts is the text. -/
theorem Holds.writtenBytesCount (h : w.Holds a) : w.writtenBytesCount = a.bytes.length :=
  (writtenBytesCount_eq w).trans h.count

/-- Resized to no more than what was written, the vector has that. -/
theorem Holds.resize (h : w.Holds a) {size : Nat} (hsize : size ≤ a.bytes.length) :
    (w.buffer.resize g size).elems = a.bytes.take size := by
  obtain ⟨k, helems⟩ := h.elems
  have hle : size ≤ (a.bytes ++ List.replicate k 0).length := by
    rw [List.length_append]
    omega
  rw [ByteVector.resize_elems, helems, List.takeD_eq_take _ hle,
    List.take_append_of_le_length hsize]

end GrowingAdapter

/-- However the vector grows and whatever is called: every call comes to an end and writes inside
the vector, and in the end the vector has the bytes that were written, the last at each position. -/
theorem run_growing (g : Growth) (size : Nat) (calls : List GrowingAdapter.Call) :
    ∃ w, (GrowingAdapter.ofBuffer g (.zeros size)).run g calls = .ok w ∧
      w.currOffset = (Written.run .start calls).pos ∧
      w.writtenBytesCount = (Written.run .start calls).bytes.length ∧
      (w.buffer.resize g w.writtenBytesCount).elems = (Written.run .start calls).bytes := by
  obtain ⟨w, hrun, hw⟩ := (GrowingAdapter.ofBuffer_holds g size).run calls
  refine ⟨w, hrun, hw.offset, hw.writtenBytesCount, ?_⟩
  rw [hw.writtenBytesCount, hw.resize le_rfl, List.take_length]

/-- Calls that only write append. -/
theorem Written.run_writes (a : Written) (pieces : List Bytes) (ha : a.pos = a.bytes.length) :
    (a.run (pieces.map .write)).bytes = a.bytes ++ pieces.flatten := by
  induction pieces generalizing a with
  | nil => exact (List.append_nil _).symm
  | cons data pieces ih =>
    -- at the end of the text nothing is written over
    have hbytes : (a.write data).bytes = a.bytes ++ data := by
      show overwrite a.bytes a.pos data = _
      rw [overwrite, ha, List.take_length, List.drop_eq_nil_of_le (by omega), List.append_nil]
    have hpos : (a.write data).pos = (a.write data).bytes.length := by
      rw [hbytes, List.length_append, ← ha]
      rfl
    show ((a.write data).run (pieces.map .write)).bytes = _
    rw [ih (a.write data) hpos, hbytes, List.append_assoc, List.flatten_cons]

end Guthi.Bitsery
