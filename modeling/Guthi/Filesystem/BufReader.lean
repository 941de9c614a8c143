import Guthi.Lib.Bytes
import Guthi.Lib.Fallible
import Guthi.Lib.FixedArray
import Guthi.Lib.Run
import Mathlib.Data.List.Enum

/-!
# Guthi — the buffered reader

`Buffer` and `FileBufReader` of `filesystem/fs.hpp`, on a file whose `FetchBlockWithSize` gives the
next bytes, as `fread` does. The type of the bytes is left open, so that a byte can also carry its
place in the file: the reader moves bytes and never looks at them (`InOrder.map`).

* `AtStart.read_eq` — `Read` does not move on: it copies the first bytes again and again;
* `inOrder_iff` — when the blocks are the file in order nevertheless;
* `Skip` and `Unread` keep the position in eight bits: `Move.apply_exact_iff` for one call,
  `positionedExactly_iff` for a sequence of calls.
-/

namespace Guthi

/-- `Buffer::DEFAULT_BUFFER_SIZE`. -/
def defaultBufferSize : UInt32 := 4096

/-- `struct Buffer`. -/
structure FileSystem.Buffer (α : Type) where
  data : Vector α 4096
  pos : UInt32
  readPtr : UInt8
  capacity : UInt32

/-- A failed `assert`, and a copy that runs over the end of an array. -/
inductive BufferFault where
  | assertion
  | outOfBounds
deriving DecidableEq, Repr

/-- `FileBufReader`; `underlyingFile` is what the file has not given yet. -/
structure FileBufReader (α : Type) where
  underlyingFile : List α
  buffer : FileSystem.Buffer α

variable {α : Type}

/-- An access to the array of the buffer. -/
def inBounds {β : Type} : Option β → Except BufferFault β
  | some x => .ok x
  | none => .error .outOfBounds

/-- The source of a copy. -/
def bytesAt (data : Vector α 4096) (off size : Nat) : Option (List α) :=
  if off + size ≤ 4096 then some ((data.toList.drop off).take size) else none

namespace FileBufReader

/-- `FetchBlockWithSize(buffer.data + off, size)`: the next bytes of the file, and how many there
are. -/
def fetchBlockWithSize (r : FileBufReader α) (off size : Nat) :
    Except BufferFault (FileBufReader α × UInt32) := do
  let block := r.underlyingFile.take size
  let data ← inBounds (storeAt r.buffer.data off block)
  return ({ underlyingFile := r.underlyingFile.drop size, buffer := { r.buffer with data } },
    UInt32.ofNat block.length)

/-- The constructor; `raw` is what `malloc` returns. -/
def new (raw : Vector α 4096) (file : List α) : Except BufferFault (FileBufReader α) := do
  let r : FileBufReader α :=
    { underlyingFile := file
      buffer := { data := raw, pos := 0, readPtr := 0, capacity := defaultBufferSize } }
  let (r, fetched) ← r.fetchBlockWithSize 0 defaultBufferSize.toNat
  return { r with buffer := { r.buffer with pos := fetched } }

/-- `buffer.pos - buffer.read_ptr`. -/
def remaining (r : FileBufReader α) : UInt32 := r.buffer.pos - r.buffer.readPtr.toUInt32

/-- The branch of `Read` that moves the remaining bytes to the start and fetches more. -/
def refill (r : FileBufReader α) : Except BufferFault (FileBufReader α) := do
  let tail ← inBounds (bytesAt r.buffer.data r.buffer.readPtr.toNat r.remaining.toNat)
  let data ← inBounds (storeAt r.buffer.data 0 tail)
  let moved : FileBufReader α := { r with buffer := { r.buffer with data } }
  let (filled, fetched) ←
    moved.fetchBlockWithSize r.remaining.toNat (defaultBufferSize - r.remaining).toNat
  return { filled with buffer := { filled.buffer with pos := r.remaining + fetched, readPtr := 0 } }

/-- What a call has copied, the value that it returns, if any, and the reader it leaves. -/
structure ReadResult (α : Type) where
  block : List α
  returned : Option UInt32
  reader : FileBufReader α

/-- The end of `Read`: the bytes are copied, and nothing is returned. -/
def copyOut (r : FileBufReader α) (size : Nat) : Except BufferFault (ReadResult α) := do
  if r.remaining.toNat ≤ size then throw .assertion
  let block ← inBounds (bytesAt r.buffer.data r.buffer.readPtr.toNat size)
  return { block, returned := none, reader := r }

/-- `Read`: the read position is left as it is. -/
def read (r : FileBufReader α) (size : Nat) : Except BufferFault (ReadResult α) :=
  if defaultBufferSize.toNat ≤ size then .error .assertion
  else if r.remaining.toNat ≤ size then
    if r.buffer.pos ≠ r.buffer.capacity then .ok { block := [], returned := some 0, reader := r }
    else do
      let r ← r.refill
      r.copyOut size
  else r.copyOut size

/-- The calls, one after the other. -/
def reads (r : FileBufReader α) : List Nat → Except BufferFault (List (ReadResult α))
  | [] => .ok []
  | size :: sizes => do
    let result ← r.read size
    let results ← result.reader.reads sizes
    return result :: results

/-- The position is moved where it stays in front of the fill level. Both are widened to 32 bits for
the comparison, and the sum is narrowed to the eight bits of the field. -/
def skip (r : FileBufReader α) (noOfBytes : UInt32) : FileBufReader α :=
  if r.buffer.readPtr.toUInt32 + noOfBytes < r.buffer.pos then
    { r with buffer :=
        { r.buffer with readPtr := (r.buffer.readPtr.toUInt32 + noOfBytes).toUInt8 } }
  else r

/-- `Unread`. -/
def unread (r : FileBufReader α) (noOfBytes : UInt32) : FileBufReader α :=
  if r.buffer.readPtr.toUInt32 < noOfBytes then
    { r with buffer := { r.buffer with readPtr := 0 } }
  else
    { r with buffer :=
        { r.buffer with readPtr := (r.buffer.readPtr.toUInt32 - noOfBytes).toUInt8 } }

/-! ## Read -/

/-- The reader as the constructor leaves it. -/
structure AtStart (file : List α) (r : FileBufReader α) : Prop where
  readPtr : r.buffer.readPtr = 0
  capacity : r.buffer.capacity = defaultBufferSize
  pos : r.buffer.pos.toNat = min 4096 file.length
  filled : r.buffer.data.toList.take r.buffer.pos.toNat = file.take 4096

/-- A new reader has fetched the first block and stands at its beginning. -/
theorem new_atStart (raw : Vector α 4096) (file : List α) :
    ∃ r, new raw file = .ok r ∧ AtStart file r := by
  have hlen : (file.take 4096).length = min 4096 file.length := List.length_take
  obtain ⟨data, hdata⟩ : ∃ data, storeAt raw 0 (file.take 4096) = some data :=
    exists_storeAt raw (by omega)
  have hpos : (UInt32.ofNat (file.take 4096).length).toNat = min 4096 file.length := by
    rw [UInt32.toNat_ofNat', hlen]
    omega
  refine ⟨{ underlyingFile := file.drop 4096
            buffer := { data, pos := UInt32.ofNat (file.take 4096).length, readPtr := 0
                        capacity := defaultBufferSize } }, ?_, rfl, rfl, hpos, ?_⟩
  · show (do
      let data ← inBounds (storeAt raw 0 (file.take 4096))
      _) >>= _ = _
    rw [hdata]
    rfl
  · have hfilled : data.toList.take (0 + (file.take 4096).length) = [] ++ file.take 4096 :=
      take_storeAt rfl hdata
    rw [Nat.zero_add, hlen, List.nil_append] at hfilled
    show data.toList.take (UInt32.ofNat (file.take 4096).length).toNat = _
    rw [hpos, hfilled]

/-- What every call gives: the first bytes of the file if it has more than them, or else nothing. -/
def answer (file : List α) (r : FileBufReader α) (size : Nat) : ReadResult α :=
  if size < file.length then { block := file.take size, returned := none, reader := r }
  else { block := [], returned := some 0, reader := r }

namespace AtStart

variable {file : List α} {r : FileBufReader α} {size : Nat}

/-- At the beginning all that was fetched remains. -/
theorem remaining_eq (h : AtStart file r) : r.remaining = r.buffer.pos := by
  rw [remaining, h.readPtr]
  exact UInt32.sub_zero _

/-- `Read` does not move on, and never comes to fetch more. -/
theorem read_eq (h : AtStart file r) (hsize : size < 4096) :
    r.read size = .ok (answer file r size) := by
  have hpos := h.pos
  have hbig : ¬ defaultBufferSize.toNat ≤ size := by
    show ¬ 4096 ≤ size
    omega
  rw [read, if_neg hbig, h.remaining_eq, answer]
  -- less than the file has is copied out, anything else is refused
  by_cases hlt : size < file.length
  · have hfits : ¬ r.buffer.pos.toNat ≤ size := by omega
    have hblock : bytesAt r.buffer.data r.buffer.readPtr.toNat size = some (file.take size) := by
      have hmin : min size r.buffer.pos.toNat = size := by omega
      have hmin' : min size 4096 = size := by omega
      rw [h.readPtr, bytesAt, if_pos (by show 0 + size ≤ 4096; omega)]
      show some ((r.buffer.data.toList.drop 0).take size) = _
      rw [List.drop_zero, ← hmin, ← List.take_take, h.filled, List.take_take, hmin, hmin']
    rw [if_neg hfits, if_pos hlt, copyOut, h.remaining_eq, if_neg hfits]
    show (do
      let block ← inBounds (bytesAt r.buffer.data r.buffer.readPtr.toNat size)
      _) = _
    rw [hblock]
    rfl
  · have hcapacity : r.buffer.pos ≠ r.buffer.capacity := by
      intro hfull
      rw [hfull, h.capacity] at hpos
      have hcap : defaultBufferSize.toNat = 4096 := rfl
      omega
    rw [if_pos (by omega), if_pos hcapacity, if_neg hlt]

/-- All calls are answered from the same place. -/
theorem reads_eq (h : AtStart file r) {sizes : List Nat} (hsizes : ∀ size ∈ sizes, size < 4096) :
    r.reads sizes = .ok (sizes.map (answer file r)) := by
  induction sizes with
  | nil => rfl
  | cons size sizes ih =>
    have hreader : (answer file r size).reader = r := by
      unfold answer
      split_ifs <;> rfl
    rw [reads, h.read_eq (hsizes size (by simp)), ok_bind, hreader,
      ih fun size' hsize' => hsizes size' (by simp [hsize'])]
    rfl

end AtStart

/-- Every call either delivers as many bytes as it was asked for, or reports that fewer remain after
the `done` bytes that were delivered before. -/
def Answers (file : List α) : Nat → List Nat → List (ReadResult α) → Prop
  | _, [], [] => True
  | done, size :: sizes, result :: results =>
    (result.block.length = size ∨ (result.returned = some 0 ∧ file.length < done + size)) ∧
      Answers file (done + result.block.length) sizes results
  | _, _, _ => False

/-- All bytes that the calls have handed out. -/
def delivered (results : List (ReadResult α)) : List α := results.flatMap (·.block)

/-- The calls come to an end, each has its answer, and the blocks are the beginning of the file. -/
def InOrder (raw : Vector α 4096) (file : List α) (sizes : List Nat) : Prop :=
  ∃ results, new raw file >>= (·.reads sizes) = .ok results ∧ Answers file 0 sizes results ∧
    delivered results <+: file

/-- Calls for nothing, and for more than the file of `len` bytes has, may stand anywhere. The first
of the others is for less than the file, and all those behind it are for as much as the file has. -/
def OneBlock (len : Nat) (sizes : List Nat) : Prop :=
  match sizes.filter fun size => decide (0 < size ∧ size ≤ len) with
  | [] => True
  | first :: later => first < len ∧ ∀ size ∈ later, size = len

section

variable {file : List α} {r : FileBufReader α} {sizes : List Nat} {size done : Nat}

/-- A block smaller than the file is delivered from its beginning. -/
theorem answer_of_lt (h : size < file.length) :
    answer file r size = { block := file.take size, returned := none, reader := r } := if_pos h

/-- A block as large as the file is refused. -/
theorem answer_of_le (h : file.length ≤ size) :
    answer file r size = { block := [], returned := some 0, reader := r } := if_neg (by omega)

/-- A block of no bytes is empty. -/
theorem answer_zero_block : (answer file r 0).block = [] := by
  unfold answer
  split_ifs <;> rfl

/-- The first call and the others. -/
theorem answers_cons {result : ReadResult α} {results : List (ReadResult α)} :
    Answers file done (size :: sizes) (result :: results) ↔
      (result.block.length = size ∨ (result.returned = some 0 ∧ file.length < done + size)) ∧
      Answers file (done + result.block.length) sizes results := Iff.rfl

/-- In a file without repetition, the first bytes do not come twice. -/
theorem not_prefix_of_twice (hfile : file.Nodup) (hdone : 0 < done) (hsize : 0 < size)
    (hlt : size < file.length) (rest : List α) :
    ¬ file.take done ++ (file.take size ++ rest) <+: file := by
  intro hpre
  obtain ⟨b, tail, rfl⟩ := List.exists_cons_of_length_pos (by omega : 0 < file.length)
  obtain ⟨done, rfl⟩ := Nat.exists_eq_add_of_le' hdone
  obtain ⟨size, rfl⟩ := Nat.exists_eq_add_of_le' hsize
  have hnodup := List.Nodup.sublist hpre.sublist hfile
  exact List.disjoint_of_nodup_append hnodup (List.mem_cons_self) (List.mem_cons_self)

/-- Once some bytes were delivered. -/
theorem answers_later_iff (hfile : file.Nodup) (hdone : 0 < done) :
    Answers file done sizes (sizes.map (answer file r)) ∧
      file.take done ++ delivered (sizes.map (answer file r)) <+: file ↔
    ∀ size ∈ sizes.filter fun size => decide (0 < size ∧ size ≤ file.length),
      size = file.length := by
  induction sizes with
  | nil => simp [Answers, delivered, List.take_prefix]
  | cons size sizes ih =>
    rw [List.map_cons, answers_cons, delivered, List.flatMap_cons]
    rcases Nat.eq_zero_or_pos size with rfl | hsize
    · rw [List.filter_cons_of_neg (by simp), ← ih]
      simp [answer_zero_block, delivered]
    rcases Nat.lt_or_ge size file.length with hlt | hge
    · -- the first bytes once more
      rw [List.filter_cons_of_pos (by simp; omega), answer_of_lt hlt, List.forall_mem_cons]
      constructor
      · intro h
        exact absurd h.2 (not_prefix_of_twice hfile hdone hsize hlt _)
      · intro h
        omega
    · rw [answer_of_le hge]
      -- a call that is refused adds nothing to the condition, unless it asks for the whole file
      have hhead : (∀ t ∈ (size :: sizes).filter fun size => decide (0 < size ∧ size ≤ file.length),
          t = file.length) ↔
          ∀ t ∈ sizes.filter fun size => decide (0 < size ∧ size ≤ file.length),
            t = file.length := by
        simp only [List.mem_filter, List.mem_cons, decide_eq_true_eq]
        constructor
        · intro h t ht
          exact h t ⟨Or.inr ht.1, ht.2⟩
        · rintro h t ⟨rfl | ht, hle⟩
          · omega
          · exact h t ⟨ht, hle⟩
      rw [hhead, ← ih]
      exact ⟨fun h => ⟨h.1.2, h.2⟩, fun h => ⟨⟨Or.inr ⟨rfl, by omega⟩, h.1⟩, h.2⟩⟩

theorem answers_first_iff (hfile : file.Nodup) :
    Answers file 0 sizes (sizes.map (answer file r)) ∧
      delivered (sizes.map (answer file r)) <+: file ↔ OneBlock file.length sizes := by
  induction sizes with
  | nil => simp [Answers, delivered, OneBlock]
  | cons size sizes ih =>
    rw [List.map_cons, answers_cons, delivered, List.flatMap_cons]
    rcases Nat.eq_zero_or_pos size with rfl | hsize
    · rw [OneBlock, List.filter_cons_of_neg (by simp), ← OneBlock, ← ih]
      simp [answer_zero_block, delivered]
    -- a first block, the whole file, or more than the file
    rcases Nat.lt_trichotomy size file.length with hlt | heq | hgt
    · have hlen : (file.take size).length = size := by
        rw [List.length_take]
        omega
      rw [OneBlock, List.filter_cons_of_pos (by simp; omega), answer_of_lt hlt, hlen, Nat.zero_add]
      show (_ ∧ _) ∧ file.take size ++ delivered (sizes.map (answer file r)) <+: file ↔ _
      rw [and_iff_right (Or.inl rfl), answers_later_iff hfile hsize]
      exact (and_iff_right hlt).symm
    · -- as much as the file has, which is refused
      rw [OneBlock, List.filter_cons_of_pos (by simp; omega), answer_of_le heq.ge]
      constructor
      · rintro ⟨⟨h | h, _⟩, _⟩
        · have hzero : size = 0 := h.symm
          omega
        · omega
      · intro h
        omega
    · rw [OneBlock, List.filter_cons_of_neg (by simp; omega), ← OneBlock, ← ih,
        answer_of_le hgt.le]
      exact ⟨fun h => ⟨h.1.2, h.2⟩, fun h => ⟨⟨Or.inr ⟨rfl, by omega⟩, h.1⟩, h.2⟩⟩

/-- What the calls give for a file is settled by its contents. -/
theorem inOrder_iff_answers (raw : Vector α 4096) (file : List α)
    (hsizes : ∀ size ∈ sizes, size < 4096) : ∃ r : FileBufReader α,
      new raw file >>= (·.reads sizes) = .ok (sizes.map (answer file r)) ∧
      (InOrder raw file sizes ↔ Answers file 0 sizes (sizes.map (answer file r)) ∧
        delivered (sizes.map (answer file r)) <+: file) := by
  obtain ⟨r, hnew, hstart⟩ := new_atStart raw file
  have hreads : new raw file >>= (·.reads sizes) = .ok (sizes.map (answer file r)) := by
    rw [hnew, ok_bind, hstart.reads_eq hsizes]
  refine ⟨r, hreads, ?_⟩
  unfold InOrder
  rw [hreads]
  constructor
  · rintro ⟨results, hresults, h⟩
    cases hresults
    exact h
  · intro h
    exact ⟨_, rfl, h⟩

end

section

variable {β : Type} {f : α → β} {file : List α} {r : FileBufReader α} {r' : FileBufReader β}
variable {sizes : List Nat}

/-- The blocks of a file whose bytes are renamed. -/
theorem block_answer_map (size : Nat) :
    (answer (file.map f) r' size).block = (answer file r size).block.map f := by
  rw [answer, answer, List.length_map]
  split_ifs
  · exact List.map_take.symm
  · rfl

/-- The return values do not depend on the bytes. -/
theorem returned_answer_map (size : Nat) :
    (answer (file.map f) r' size).returned = (answer file r size).returned := by
  rw [answer, answer, List.length_map]
  split_ifs <;> rfl

/-- Renaming the bytes keeps the answers. -/
theorem answers_map {done : Nat} (h : Answers file done sizes (sizes.map (answer file r))) :
    Answers (file.map f) done sizes (sizes.map (answer (file.map f) r')) := by
  induction sizes generalizing done with
  | nil => trivial
  | cons size sizes ih =>
    rw [List.map_cons, answers_cons] at h ⊢
    rw [block_answer_map (r := r), returned_answer_map (r := r), List.length_map, List.length_map]
    exact ⟨h.1, ih h.2⟩

/-- Renaming the bytes renames those that are delivered. -/
theorem delivered_map : delivered (sizes.map (answer (file.map f) r')) =
    (delivered (sizes.map (answer file r))).map f := by
  rw [delivered, delivered, List.flatMap_map, List.flatMap_map, List.map_flatMap]
  simp only [block_answer_map (r := r)]

/-- `Read` moves bytes and never looks at them. -/
theorem InOrder.map {raw : Vector α 4096} (raw' : Vector β 4096)
    (hsizes : ∀ size ∈ sizes, size < 4096) (h : InOrder raw file sizes) :
    InOrder raw' (file.map f) sizes := by
  obtain ⟨r, _, hiff⟩ := inOrder_iff_answers raw file hsizes
  obtain ⟨r', _, hiff'⟩ := inOrder_iff_answers raw' (file.map f) hsizes
  obtain ⟨hanswers, hpre⟩ := hiff.mp h
  refine hiff'.mpr ⟨answers_map hanswers, ?_⟩
  rw [delivered_map (r := r)]
  exact hpre.map f

end

/-- A call that moves the read position. -/
inductive Move where
  | skip (noOfBytes : UInt32)
  | unread (noOfBytes : UInt32)
deriving DecidableEq, Repr

/-- What the call does. -/
def Move.apply (r : FileBufReader α) : Move → FileBufReader α
  | skip n => r.skip n
  | unread n => r.unread n

/-- Where a move leads from the position `p`, with `pos` bytes in the buffer. -/
def Move.ideal (pos p : Nat) : Move → Nat
  | skip n => if p + n.toNat < pos then p + n.toNat else p
  | unread n => p - n.toNat

/-- The sum of a skip fits 32 bits, and also the eight bits of the position if it is moved there. -/
def Move.Fits (r : FileBufReader α) : Move → Prop
  | skip n => r.buffer.readPtr.toNat + n.toNat < 2 ^ 32 ∧
      (r.buffer.readPtr.toNat + n.toNat < r.buffer.pos.toNat →
        r.buffer.readPtr.toNat + n.toNat < 2 ^ 8)
  | unread _ => True

section

variable {r : FileBufReader α} {n : UInt32}

/-- No call changes the fill level. -/
theorem Move.apply_pos (m : Move) : (m.apply r).buffer.pos = r.buffer.pos := by
  cases m with
  | skip n =>
    show (r.skip n).buffer.pos = _
    unfold FileBufReader.skip
    split_ifs <;> rfl
  | unread n =>
    show (r.unread n).buffer.pos = _
    unfold FileBufReader.unread
    split_ifs <;> rfl

/-- What `Skip` makes of the position: the sum is compared with 32 bits and stored with 8. -/
theorem toNat_skip : (r.skip n).buffer.readPtr.toNat =
    if (r.buffer.readPtr.toNat + n.toNat) % 2 ^ 32 < r.buffer.pos.toNat then
      (r.buffer.readPtr.toNat + n.toNat) % 2 ^ 8
    else r.buffer.readPtr.toNat := by
  have hsum : (r.buffer.readPtr.toUInt32 + n).toNat =
      (r.buffer.readPtr.toNat + n.toNat) % 2 ^ 32 := by
    rw [UInt32.toNat_add, UInt8.toNat_toUInt32]
  have hcond : r.buffer.readPtr.toUInt32 + n < r.buffer.pos ↔
      (r.buffer.readPtr.toNat + n.toNat) % 2 ^ 32 < r.buffer.pos.toNat := by
    rw [UInt32.lt_iff_toNat_lt, hsum]
  unfold skip
  simp only [hcond]
  split_ifs
  · show (r.buffer.readPtr.toUInt32 + n).toUInt8.toNat = _
    rw [UInt32.toNat_toUInt8, hsum]
    omega
  · rfl

theorem toNat_unread :
    (r.unread n).buffer.readPtr.toNat = r.buffer.readPtr.toNat - n.toNat := by
  have hlt : r.buffer.readPtr.toNat < 2 ^ 8 := r.buffer.readPtr.toNat_lt
  have hcond : r.buffer.readPtr.toUInt32 < n ↔ r.buffer.readPtr.toNat < n.toNat := by
    rw [UInt32.lt_iff_toNat_lt, UInt8.toNat_toUInt32]
  unfold unread
  simp only [hcond]
  -- back to the beginning, or by the given number
  split_ifs with h
  · show 0 = _
    omega
  · show (r.buffer.readPtr.toUInt32 - n).toUInt8.toNat = _
    rw [UInt32.toNat_toUInt8, UInt32.toNat_sub_of_le _ _ (by
      rw [UInt32.le_iff_toNat_le, UInt8.toNat_toUInt32]
      omega), UInt8.toNat_toUInt32]
    omega

/-- A move is exact where it fits. -/
theorem Move.apply_exact_iff (hpos : r.buffer.pos.toNat ≤ 4096)
    (hptr : r.buffer.readPtr.toNat ≤ r.buffer.pos.toNat) (m : Move) :
    (m.apply r).buffer.readPtr.toNat = m.ideal r.buffer.pos.toNat r.buffer.readPtr.toNat ↔
      m.Fits r := by
  have h8 : r.buffer.readPtr.toNat < 2 ^ 8 := r.buffer.readPtr.toNat_lt
  cases m with
  | unread n => exact iff_of_true toNat_unread trivial
  | skip n =>
    have hn : n.toNat < 2 ^ 32 := n.toNat_lt
    simp only [Move.apply, Move.ideal, Move.Fits, toNat_skip]
    -- a sum that wraps around lies in front of the position, hence of the fill level
    split_ifs <;> omega

/-- The exact position stays within the fill level. -/
theorem Move.ideal_le {pos p : Nat} (hp : p ≤ pos) (m : Move) : m.ideal pos p ≤ pos := by
  cases m with
  | skip n =>
    rw [Move.ideal]
    split_ifs <;> omega
  | unread n =>
    rw [Move.ideal]
    omega

end

/-- A reader beside the position where it should be. -/
structure Tracked (α : Type) where
  reader : FileBufReader α
  position : Nat

/-- A call moves both. -/
def Tracked.step (s : Tracked α) (m : Move) : Option (Tracked α) :=
  some { reader := m.apply s.reader, position := m.ideal s.reader.buffer.pos.toNat s.position }

/-- The reader stands where it should. -/
def Tracked.Exact (s : Tracked α) : Prop :=
  s.reader.buffer.readPtr.toNat = s.position ∧
    s.reader.buffer.readPtr.toNat ≤ s.reader.buffer.pos.toNat

/-- A reader at its position. -/
def tracked (r : FileBufReader α) : Tracked α :=
  { reader := r, position := r.buffer.readPtr.toNat }

/-- The position is exact after every call, and a skip that moved it can be taken back. -/
structure PositionedExactly (r : FileBufReader α) (moves : List Move) : Prop where
  exact : Throughout Tracked.step Tracked.Exact (tracked r) moves
  restores : ∀ before n after, moves = before ++ Move.skip n :: Move.unread n :: after →
    let r' := before.foldl (fun r m => m.apply r) r
    (r'.skip n).buffer.readPtr ≠ r'.buffer.readPtr →
      ((r'.skip n).unread n).buffer.readPtr = r'.buffer.readPtr

/-- The reader of a run is the one of the calls. -/
theorem foldlM_step (s : Tracked α) (moves : List Move) :
    ∃ t, moves.foldlM Tracked.step s = some t ∧
      t.reader = moves.foldl (fun r m => m.apply r) s.reader := by
  induction moves generalizing s with
  | nil => exact ⟨s, rfl, rfl⟩
  | cons m moves ih => exact ih _

/-- A skip that moved the position by as much as it says is taken back. -/
theorem restores_of_exact {s : Tracked α} {n : UInt32} {after : List Move}
    (h : Throughout Tracked.step Tracked.Exact s (Move.skip n :: Move.unread n :: after))
    (hmoved : (s.reader.skip n).buffer.readPtr ≠ s.reader.buffer.readPtr) :
    ((s.reader.skip n).unread n).buffer.readPtr = s.reader.buffer.readPtr := by
  obtain ⟨⟨hstart, _⟩, hlater⟩ := h
  have hskip : (s.reader.skip n).buffer.readPtr.toNat =
      (Move.skip n).ideal s.reader.buffer.pos.toNat s.position := (hlater _ rfl).1.1
  have hne : (s.reader.skip n).buffer.readPtr.toNat ≠ s.reader.buffer.readPtr.toNat :=
    fun heq => hmoved (UInt8.toNat_inj.mp heq)
  apply UInt8.toNat_inj.mp
  rw [toNat_unread]
  rw [Move.ideal] at hskip
  split_ifs at hskip <;> omega

/-- The position is exact throughout, and skips can be taken back, where every move fits. -/
theorem positionedExactly_iff {r : FileBufReader α} (hpos : r.buffer.pos.toNat ≤ 4096)
    (hptr : r.buffer.readPtr.toNat ≤ r.buffer.pos.toNat) (moves : List Move) :
    PositionedExactly r moves ↔
      EachStep Tracked.step (fun s m => m.Fits s.reader) (tracked r) moves := by
  -- the fill level does not change, so one step carries over to the run
  have hthroughout : Throughout Tracked.step Tracked.Exact (tracked r) moves ↔
      EachStep Tracked.step (fun s m => m.Fits s.reader) (tracked r) moves := by
    apply throughout_iff_eachStep (J := fun s => s.reader.buffer.pos.toNat ≤ 4096) _ _ hpos
    · exact ⟨rfl, hptr⟩
    · rintro s m s' hs ⟨⟩
      rw [Move.apply_pos]
      exact hs
    · rintro s m s' hs ⟨hposition, hle⟩ ⟨⟩
      have hexact := m.apply_exact_iff hs hle
      have hideal := m.ideal_le hle
      rw [← hexact]
      show (m.apply s.reader).buffer.readPtr.toNat = m.ideal _ s.position ∧
        (m.apply s.reader).buffer.readPtr.toNat ≤ (m.apply s.reader).buffer.pos.toNat ↔ _
      rw [← hposition, Move.apply_pos]
      constructor
      · exact And.left
      · intro heq
        exact ⟨heq, heq.trans_le hideal⟩
  constructor
  · intro h
    exact hthroughout.mp h.exact
  · intro h
    have hexact := hthroughout.mpr h
    refine ⟨hexact, ?_⟩
    rintro before n after rfl
    obtain ⟨t, hrun, ht⟩ := foldlM_step (tracked r) before
    show _ → _
    rw [show before.foldl (fun r m => m.apply r) r = t.reader from ht.symm]
    exact restores_of_exact (hexact.rest hrun)

/-- A reader at the beginning of a buffer with `pos` bytes in it. -/
def atBeginning (pos : UInt32) : FileBufReader UInt8 where
  underlyingFile := []
  buffer := { data := Vector.replicate 4096 0, pos, readPtr := 0, capacity := defaultBufferSize }

/-- The theorem at a run of three moves. -/
theorem positionedExactly_255 :
    PositionedExactly (atBeginning 400) [.skip 255, .skip 1000, .unread 100] ↔
      EachStep Tracked.step (fun s m => m.Fits s.reader) (tracked (atBeginning 400))
        [.skip 255, .skip 1000, .unread 100] :=
  positionedExactly_iff (by decide) (by decide) _

/-- Over 300 of 400 bytes: the position is 44 then. -/
theorem not_positionedExactly_300 : ¬ PositionedExactly (atBeginning 400) [.skip 300] := by
  intro h
  have hskip : ((atBeginning 400).skip 300).buffer.readPtr.toNat = 300 := (h.exact.2 _ rfl).1
  exact absurd hskip (by decide)

end FileBufReader

end Guthi
