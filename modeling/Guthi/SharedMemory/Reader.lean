import Guthi.Lib.Bytes
import Guthi.Lib.Fallible

/-!
# Guthi — reading the shared memory

`ShmSegment` of `shared_memory/shm.h`, and `parse_shared_memory` and one round of `read_shm` of
`core/read_sharedmemory.hpp`. The loop of `read_shm` runs over other indices of the buffer than
the ones after the message pointer of `parse_shared_memory`, which it does not use.

* `ShmSegment.ToReadFilesystem.readShm_eq` — what a round does with a message of the file system;
* `ShmSegment.framing_iff` — the rounds in which it keeps to the frame and to the buffer.
-/

namespace Guthi

/-- `SIZE_SHARED_MEM`. -/
def sizeSharedMem : Nat := 4096

structure ShmSegment where
  count : UInt16
  buff : Bytes
  length_buff : buff.length = sizeSharedMem

/-- `MESSAGE_FILESYSTEM`, the character `1`. -/
def messageFilesystem : UInt8 := 49

/-- The flag in front of a message that is to be read, the character `1` as well. -/
def flagToRead : UInt8 := 49

/-- `SharedMemoryInformation`, without the event type, which nothing reads. The message is the
index in the buffer that the pointer leads to. -/
structure SharedMemoryInformation where
  messageType : UInt8 := 0
  message : Option Nat := none
deriving DecidableEq, Repr

/-- `ptr[i]`. The error is an index outside of the buffer. -/
def byteAt (ptr : Bytes) (i : Nat) : Except Nat UInt8 :=
  match ptr[i]? with
  | none => .error i
  | some b => .ok b

def parseSharedMemory (ptr : Bytes) (count : Nat) : Except Nat SharedMemoryInformation :=
  if count < 1 then .ok {}
  else do
    -- the type is compared with both that are known, but either branch is empty
    let messageType ← byteAt ptr 1
    .ok { messageType := messageType, message := some 2 }

/-- One round of `read_shm`: the bytes passed to `DeserializeToFileContent`, if any. -/
def readShm (shm : ShmSegment) : Except Nat (Option Bytes) := do
  let flag ← byteAt shm.buff 0
  if flag = flagToRead then
    let info ← parseSharedMemory shm.buff shm.count.toNat
    if info.messageType = messageFilesystem then
      -- `for (int i = 1; i <= count; i++)`
      let serialized ← (List.range' 1 shm.count.toNat).mapM (byteAt shm.buff)
      .ok (some serialized)
    else .ok none
  else .ok none

/-! ## The loop -/

theorem byteAt_eq {ptr : Bytes} {i : Nat} (hi : i < ptr.length) : byteAt ptr i = .ok ptr[i] := by
  unfold byteAt
  rw [List.getElem?_eq_getElem hi]

theorem mapM_byteAt {ptr : Bytes} {n : Nat} : ∀ {s : Nat}, s + n ≤ ptr.length →
    (List.range' s n).mapM (byteAt ptr) = .ok ((ptr.drop s).take n) := by
  induction n with
  | zero => exact fun _ => rfl
  | succ n ih =>
    intro s hs
    have hlt : s < ptr.length := by omega
    rw [List.range'_succ, List.mapM_cons, byteAt_eq hlt, ih (by omega),
      List.drop_eq_getElem_cons hlt]
    rfl

/-- A loop that runs past the buffer stops at its end. -/
theorem mapM_byteAt_outside {ptr : Bytes} {n : Nat} : ∀ {s : Nat}, s ≤ ptr.length →
    ptr.length < s + n → (List.range' s n).mapM (byteAt ptr) = .error ptr.length := by
  induction n with
  | zero =>
    intro s hs hn
    omega
  | succ n ih =>
    intro s hs hn
    rw [List.range'_succ, List.mapM_cons]
    -- the byte is still inside, or the first one that is not
    rcases Nat.lt_or_ge s ptr.length with hlt | hge
    · rw [byteAt_eq hlt, ih (by omega) (by omega)]
      rfl
    · obtain rfl : s = ptr.length := by omega
      unfold byteAt
      rw [List.getElem?_eq_none (Nat.le_refl _)]
      rfl

/-! ## A round -/

namespace ShmSegment

/-- A message of the file system stands in the buffer to be read. -/
structure ToReadFilesystem (shm : ShmSegment) : Prop where
  flag : shm.buff[0]? = some flagToRead
  count : 1 ≤ shm.count.toNat
  messageType : shm.buff[1]? = some messageFilesystem

/-- The layout that `parse_shared_memory` assumes: flag, type, payload; `count` is the number of
bytes after the flag. -/
structure HoldsFrame (shm : ShmSegment) (payload : Bytes) : Prop where
  layout : ∃ rest, shm.buff = flagToRead :: messageFilesystem :: (payload ++ rest)
  count : shm.count.toNat = payload.length + 1

/-- A round passes the payload of a frame, and reads inside of the buffer. -/
structure Framing (shm : ShmSegment) : Prop where
  payload : ∀ payload, shm.HoldsFrame payload → readShm shm = .ok (some payload)
  inside : ∀ i, readShm shm ≠ .error i

variable {shm : ShmSegment}

theorem HoldsFrame.toRead {payload : Bytes} (h : shm.HoldsFrame payload) :
    shm.ToReadFilesystem := by
  obtain ⟨rest, hlayout⟩ := h.layout
  refine ⟨?_, by rw [h.count]; omega, ?_⟩
  · rw [hlayout]
    rfl
  · rw [hlayout]
    rfl

theorem ToReadFilesystem.buff_eq (h : shm.ToReadFilesystem) :
    ∃ rest, shm.buff = flagToRead :: messageFilesystem :: rest := by
  have hflag := h.flag
  have htype := h.messageType
  match shm.buff, hflag, htype with
  | _ :: _ :: rest, hflag, htype =>
    cases hflag
    cases htype
    exact ⟨rest, rfl⟩

/-- What is passed begins with the type byte, and the loop reads one byte beyond the buffer when
`count` is its size or more. -/
theorem ToReadFilesystem.readShm_eq (h : shm.ToReadFilesystem) :
    readShm shm = if shm.count.toNat < sizeSharedMem
      then .ok (some ((shm.buff.drop 1).take shm.count.toNat)) else .error sizeSharedMem := by
  have hlen := shm.length_buff
  have hflag : byteAt shm.buff 0 = .ok flagToRead := by simp [byteAt, h.flag]
  have htype : byteAt shm.buff 1 = .ok messageFilesystem := by simp [byteAt, h.messageType]
  have hparse : parseSharedMemory shm.buff shm.count.toNat =
      .ok { messageType := messageFilesystem, message := some 2 } := by
    rw [parseSharedMemory, if_neg (Nat.not_lt.mpr h.count), htype, ok_bind]
  rw [readShm, hflag, ok_bind, if_pos rfl, hparse, ok_bind, if_pos rfl]
  -- the loop reads the bytes from 1 to `count`
  split_ifs with hcount
  · rw [mapM_byteAt (by omega), ok_bind]
  · rw [mapM_byteAt_outside (by rw [hlen]; decide) (by omega), hlen]
    rfl

/-- Without such a message the round passes nothing. -/
theorem readShm_of_not_toRead (h : ¬ shm.ToReadFilesystem) : readShm shm = .ok none := by
  have hlen := shm.length_buff
  have hsize : 1 < shm.buff.length := by
    rw [hlen]
    decide
  rw [readShm, byteAt_eq (Nat.zero_lt_of_lt hsize), ok_bind]
  -- not to read, no bytes, or another type
  split_ifs with hflag
  · rw [parseSharedMemory]
    split_ifs with hcount
    · rfl
    · rw [byteAt_eq hsize, ok_bind, ok_bind, if_neg]
      rintro htype
      refine h ⟨?_, Nat.not_lt.mp hcount, ?_⟩
      · rw [List.getElem?_eq_getElem (Nat.zero_lt_of_lt hsize), hflag]
      · rw [List.getElem?_eq_getElem hsize]
        exact congrArg some htype
  · rfl

/-- **The reader's framing** is right exactly in the rounds that do not take the branch for the
file system: a payload is always passed with the type byte before it. -/
theorem framing_iff (shm : ShmSegment) : shm.Framing ↔ ¬ shm.ToReadFilesystem := by
  constructor
  · rintro ⟨hpayload, hinside⟩ hread
    have heq := hread.readShm_eq
    split_ifs at heq with hcount
    · obtain ⟨rest, hbuff⟩ := hread.buff_eq
      have hlen := shm.length_buff
      have hone := hread.count
      rw [hbuff, List.length_cons, List.length_cons] at hlen
      -- the bytes after the type byte are a frame, and one byte more is passed
      have hframe : shm.HoldsFrame (rest.take (shm.count.toNat - 1)) := by
        refine ⟨⟨rest.drop (shm.count.toNat - 1), by rw [hbuff, List.take_append_drop]⟩, ?_⟩
        rw [List.length_take]
        omega
      have hpassed := (hpayload _ hframe).symm.trans heq
      rw [hbuff, List.drop_one, List.tail_cons, Except.ok.injEq, Option.some.injEq] at hpassed
      have hsize := congrArg List.length hpassed
      rw [List.length_take, List.length_take, List.length_cons] at hsize
      omega
    · -- a read behind the buffer
      exact hinside _ heq
  · intro hread
    have heq := readShm_of_not_toRead hread
    refine ⟨fun payload hframe => absurd hframe.toRead hread, fun i herr => ?_⟩
    rw [heq] at herr
    cases herr

/-- A frame with one payload byte, in a buffer of zeros otherwise. -/
def exampleFrame (count : UInt16) : ShmSegment where
  count := count
  buff := flagToRead :: messageFilesystem :: 7 :: List.replicate 4093 0
  length_buff := by rw [List.length_cons, List.length_cons, List.length_cons,
    List.length_replicate]; rfl

theorem exampleFrame_toRead {count : UInt16} (hcount : 1 ≤ count.toNat) :
    (exampleFrame count).ToReadFilesystem := ⟨rfl, hcount, rfl⟩

/-- The payload is one byte, and two are passed; a larger count makes the loop read behind the
buffer. -/
theorem framing_typeByte :
    (exampleFrame 2).HoldsFrame [7] ∧
    readShm (exampleFrame 2) = .ok (some [messageFilesystem, 7]) ∧
    ¬ (exampleFrame 2).Framing ∧
    readShm (exampleFrame 4096) = .error sizeSharedMem := by
  have hpassed : readShm (exampleFrame 2) = .ok (some [messageFilesystem, 7]) := by
    have hcount : 1 ≤ (2 : UInt16).toNat := by decide
    rw [(exampleFrame_toRead hcount).readShm_eq, if_pos (by decide)]
    rfl
  have hframe : (exampleFrame 2).HoldsFrame [7] := ⟨⟨List.replicate 4093 0, rfl⟩, rfl⟩
  refine ⟨hframe, hpassed, fun hframing => ?_, ?_⟩
  · have hpayload := hframing.payload [7] hframe
    rw [hpassed] at hpayload
    exact absurd hpayload (by decide)
  · have hcount : 1 ≤ (4096 : UInt16).toNat := by decide
    rw [(exampleFrame_toRead hcount).readShm_eq, if_neg (by decide)]

end ShmSegment

end Guthi
