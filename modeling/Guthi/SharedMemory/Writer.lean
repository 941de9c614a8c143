import Guthi.Lib.FixedArray
import Guthi.SharedMemory.Reader

/-!
# Guthi — writing the shared memory

`write_data` of `shared_memory/shm.cpp`. The number of bytes to be copied is kept in the 16-bit
`count` of the segment, it is not compared with the size of the buffer, and without a size it is
the length of the string behind the first character.

* `writeData_eq` — what a call does, once the number is known;
* `writeData_complete_iff` — the calls that write the whole payload and nothing else.
-/

namespace Guthi

/-- How a write can go wrong: an access outside of the buffer, or of the data that were passed. -/
inductive ShmFault where
  | outOfBounds
  | sourceOverrun
deriving DecidableEq, Repr

/-- `strlen(s)`, where `s` are the bytes from the pointer on. -/
def strlen (s : Bytes) : Except ShmFault Nat :=
  match s.findIdx? (· = 0) with
  | none => .error .sourceOverrun
  | some n => .ok n

namespace ShmSegment

/-- `safe_memcpy(shm_segment->buff + index, count, data, count)`. -/
def copyTo (shm : ShmSegment) (index : Int) (data : Bytes) (count : Nat) :
    Except ShmFault ShmSegment :=
  if count = 0 then .ok shm
  else if h : 0 ≤ index ∧ index.toNat + count ≤ sizeSharedMem then
    if count ≤ data.length then
      .ok { shm with
        buff := overwrite shm.buff index.toNat (data.take count)
        length_buff := by
          have hlen := shm.length_buff
          have htake := List.length_take_le count data
          rw [length_overwrite (by omega), hlen] }
    else .error .sourceOverrun
  else .error .outOfBounds

def setFlag (shm : ShmSegment) (flag : UInt8) : ShmSegment where
  count := shm.count
  buff := shm.buff.set 0 flag
  length_buff := by rw [List.length_set, shm.length_buff]

end ShmSegment

/-- The flag that `write_data` puts in front, the character `0`. -/
def flagWritten : UInt8 := 48

/-- `write_data(data, size, position)`; `data` are the bytes from the pointer on. -/
def writeData (shm : ShmSegment) (data : Bytes) (size position : Int32) :
    Except ShmFault ShmSegment := do
  -- either length is cut to the 16 bits of `count`
  let count ← if size < 1 then UInt16.ofNat <$> strlen (data.drop 1)
    else .ok (UInt16.ofNat size.toInt.toNat)
  let shm := { shm with count }.setFlag flagWritten
  shm.copyTo (position.toInt + 1) data shm.count.toNat

/-! ## The number of bytes -/

theorem strlen_append_zero {s : Bytes} (hs : 0 ∉ s) (behind : Bytes) :
    strlen (s ++ 0 :: behind) = .ok s.length := by
  have hidx : (s ++ 0 :: behind).findIdx? (· = 0) = some s.length := by
    have hnone : s.findIdx? (· = 0) = none := by
      rw [List.findIdx?_eq_none_iff]
      intro b hb
      simpa using fun h0 : b = 0 => hs (h0 ▸ hb)
    -- the first NUL is the one behind `s`
    rw [List.findIdx?_append, hnone]
    simp [List.findIdx?_cons]
  rw [strlen, hidx]

theorem lt_of_strlen {s : Bytes} {n : Nat} (h : strlen s = .ok n) : n < s.length := by
  unfold strlen at h
  cases hidx : s.findIdx? (· = 0) with
  | none =>
    rw [hidx] at h
    cases h
  | some k =>
    rw [hidx] at h
    cases h
    exact (List.findIdx?_eq_some_iff_getElem.mp hidx).1

/-- What is to be written: as many bytes as the size says, or a string without its NUL. -/
def IsPayload (data : Bytes) (size : Int32) (payload : Bytes) : Prop :=
  if size < 1 then 0 ∉ payload ∧ ∃ behind, data = payload ++ 0 :: behind
  else size.toInt.toNat = payload.length ∧ ∃ behind, data = payload ++ behind

/-- The number of bytes is `n`, cut to 16 bits. -/
theorem writeData_eq {data : Bytes} {size position : Int32} {n : Nat} (shm : ShmSegment)
    (hn : if size < 1 then strlen (data.drop 1) = .ok n else size.toInt.toNat = n) :
    writeData shm data size position =
      ({ shm with count := UInt16.ofNat n }.setFlag flagWritten).copyTo (position.toInt + 1) data
        (n % 65536) := by
  have hcount : (UInt16.ofNat n).toNat = n % 65536 := UInt16.toNat_ofNat'
  unfold writeData
  rw [← hcount]
  split_ifs at hn ⊢
  · rw [hn]
    rfl
  · rw [hn]
    rfl

/-! ## Copying -/

/-- A piece whose length is cut to 16 bits stays inside of the buffer, behind `position`. -/
def CopiesInside (position n : Nat) : Prop :=
  n % 65536 = 0 ∨ position + 1 + n % 65536 ≤ sizeSharedMem

namespace ShmSegment

variable {shm : ShmSegment} {data : Bytes} {position count : Nat}

theorem copyTo_inside (shm : ShmSegment) (hdata : count ≤ data.length)
    (h : count = 0 ∨ position + 1 + count ≤ sizeSharedMem) :
    ∃ shm', shm.copyTo ((position : Int) + 1) data count = .ok shm' ∧ shm'.count = shm.count ∧
      shm'.buff = overwrite shm.buff (position + 1) (data.take count) := by
  unfold copyTo
  -- no bytes are copied to anywhere
  by_cases hcount : count = 0
  · rw [if_pos hcount]
    exact ⟨shm, rfl, rfl, by simp [overwrite, hcount]⟩
  · have hindex : ((position : Int) + 1).toNat = position + 1 := by omega
    have hfits : 0 ≤ (position : Int) + 1 ∧ ((position : Int) + 1).toNat + count ≤ sizeSharedMem :=
      ⟨by omega, by omega⟩
    rw [if_neg hcount, dif_pos hfits, if_pos hdata]
    exact ⟨_, rfl, rfl, congrArg (overwrite shm.buff · _) hindex⟩

theorem copyTo_outside (hcount : count ≠ 0) (h : sizeSharedMem < position + 1 + count) :
    shm.copyTo ((position : Int) + 1) data count = .error .outOfBounds := by
  have hout : ¬ (0 ≤ (position : Int) + 1 ∧
      ((position : Int) + 1).toNat + count ≤ sizeSharedMem) := by omega
  rw [copyTo, if_neg hcount, dif_neg hout]

end ShmSegment

/-! ## The whole payload -/

/-- The call stays inside of the buffer; and if the buffer has room for the payload, its length is
stored, all of it is written, and nothing else but the flag. -/
def Completes (shm : ShmSegment) (data : Bytes) (size position : Int32) (payload : Bytes) : Prop :=
  ∃ shm', writeData shm data size position = .ok shm' ∧
    (position.toInt.toNat + 1 + payload.length ≤ sizeSharedMem →
      shm'.count.toNat = payload.length ∧
      (shm'.buff.drop (position.toInt.toNat + 1)).take payload.length = payload ∧
      ∀ i, i ≠ 0 → i ≤ position.toInt.toNat ∨ position.toInt.toNat + payload.length < i →
        shm'.buff[i]? = shm.buff[i]?)

section

variable {shm : ShmSegment} {data payload : Bytes} {size position : Int32} {pos n : Nat}

/-- For a call that finds `n` bytes to write. -/
theorem completes_iff_of_number (hpos : position.toInt = pos)
    (hn : if size < 1 then strlen (data.drop 1) = .ok n else size.toInt.toNat = n)
    (hdata : n ≤ data.length) (hpayload : payload <+: data) :
    Completes shm data size position payload ↔ CopiesInside pos n ∧
      (pos + 1 + payload.length ≤ sizeSharedMem → n % 65536 = payload.length) := by
  have hmod : n % 65536 ≤ data.length := (Nat.mod_le _ _).trans hdata
  unfold Completes
  rw [writeData_eq shm hn, hpos, Int.toNat_natCast]
  by_cases hinside : CopiesInside pos n
  case neg =>
    -- the copy runs over the end
    obtain ⟨hne, hover⟩ := not_or.mp hinside
    rw [ShmSegment.copyTo_outside hne (Nat.not_le.mp hover)]
    refine iff_of_false ?_ fun h => hinside h.1
    rintro ⟨shm', herr, _⟩
    cases herr
  obtain ⟨shm', hok, hcount, hbuff⟩ := ShmSegment.copyTo_inside
    ({ shm with count := UInt16.ofNat n }.setFlag flagWritten) hmod hinside
  have hstored : shm'.count.toNat = n % 65536 := by
    rw [hcount]
    exact UInt16.toNat_ofNat'
  constructor
  · rintro ⟨_, hok', hpost⟩
    cases hok.symm.trans hok'
    exact ⟨hinside, fun hfits => hstored.symm.trans (hpost hfits).1⟩
  · rintro ⟨_, hlength⟩
    refine ⟨shm', hok, fun hfits => ?_⟩
    have hnumber := hlength hfits
    -- what was copied is the payload
    have htake : data.take (n % 65536) = payload := by
      rw [hnumber]
      exact List.prefix_iff_eq_take.mp hpayload ▸ rfl
    have hroom : pos + 1 + payload.length ≤ (shm.buff.set 0 flagWritten).length := by
      rw [List.length_set, shm.length_buff]
      exact hfits
    rw [htake] at hbuff
    refine ⟨hstored.trans hnumber, ?_, fun i hzero hi => ?_⟩
    · rw [hbuff]
      exact take_drop_overwrite hroom
    · -- the flag, and nothing else in front of the payload
      have hset : (shm.buff.set 0 flagWritten)[i]? = shm.buff[i]? := by
        rw [List.getElem?_set_ne (Ne.symm hzero)]
      rw [hbuff, ← hset]
      exact getElem?_overwrite_outside hroom (by omega)

/-- The calls that write what they should. With a size, the piece that is copied is inside of the
buffer. A string is written without its last character, so there has to be no room for it, and
the rest has to be inside; for an empty string the length is that of whatever is behind it. -/
def WritesWhole (data : Bytes) (size : Int32) (position : Nat) (payload : Bytes) : Prop :=
  if size < 1 then
    if payload = [] then ∃ k, strlen (data.drop 1) = .ok k ∧ k % 65536 = 0
    else sizeSharedMem < position + 1 + payload.length ∧ CopiesInside position (payload.length - 1)
  else CopiesInside position payload.length

theorem completes_iff_of_size (hpos : position.toInt = pos) (hsize : ¬ size < 1)
    (hpayload : IsPayload data size payload) :
    Completes shm data size position payload ↔ CopiesInside pos payload.length := by
  rw [IsPayload, if_neg hsize] at hpayload
  obtain ⟨hlength, behind, rfl⟩ := hpayload
  rw [completes_iff_of_number (n := payload.length) hpos (by rwa [if_neg hsize]) (by simp)
    (List.prefix_append _ _)]
  -- what fits has less than 65536 bytes
  refine and_iff_left fun hfits => Nat.mod_eq_of_lt ?_
  unfold sizeSharedMem at hfits
  omega

theorem completes_iff_of_string (hpos : position.toInt = pos) (hsize : size < 1)
    (hne : payload ≠ []) (hpayload : IsPayload data size payload) :
    Completes shm data size position payload ↔
      sizeSharedMem < pos + 1 + payload.length ∧ CopiesInside pos (payload.length - 1) := by
  rw [IsPayload, if_pos hsize] at hpayload
  obtain ⟨hnul, behind, rfl⟩ := hpayload
  obtain ⟨b, string, rfl⟩ := List.exists_cons_of_ne_nil hne
  -- the count is the length of all but the first character
  have hcount : strlen ((b :: string ++ 0 :: behind).drop 1) = .ok string.length :=
    strlen_append_zero (fun h0 => hnul (List.mem_cons_of_mem _ h0)) behind
  rw [completes_iff_of_number (n := string.length) hpos (by rwa [if_pos hsize]) (by simp; omega)
    (List.prefix_append _ _), and_comm, List.length_cons, Nat.add_sub_cancel]
  refine and_congr_left fun _ => ?_
  unfold sizeSharedMem
  omega

theorem completes_iff_of_empty (hpos : position.toInt = pos) (hsize : size < 1)
    (hpayload : IsPayload data size []) :
    Completes shm data size position [] ↔ ∃ k, strlen (data.drop 1) = .ok k ∧ k % 65536 = 0 := by
  rw [IsPayload, if_pos hsize] at hpayload
  obtain ⟨_, behind, rfl⟩ := hpayload
  cases hcount : strlen (([] ++ 0 :: behind).drop 1) with
  -- no NUL behind the first byte
  | error e =>
    refine iff_of_false ?_ (by simp)
    rintro ⟨shm', hok, _⟩
    rw [writeData, if_pos hsize, hcount] at hok
    cases hok
  | ok k =>
    have hk := lt_of_strlen hcount
    rw [completes_iff_of_number (n := k) hpos (by rwa [if_pos hsize]) ?_ (List.nil_prefix)]
    · simp only [Except.ok.injEq, exists_eq_left', List.length_nil, Nat.add_zero, CopiesInside]
      omega
    · simp only [List.nil_append, List.drop_one, List.tail_cons] at hk
      simp
      omega

end

/-- **The payload is written completely, and nothing else**, exactly in the calls of
`WritesWhole`. -/
theorem writeData_complete_iff {shm : ShmSegment} {data payload : Bytes} {size position : Int32}
    (hpos : 0 ≤ position) (hpayload : IsPayload data size payload) :
    Completes shm data size position payload ↔
      WritesWhole data size position.toInt.toNat payload := by
  have hnonneg : position.toInt = position.toInt.toNat := by
    have hle := Int32.le_iff_toInt_le.mp hpos
    rw [Int32.toInt_zero] at hle
    omega
  unfold WritesWhole
  -- an empty string, another string, a number of bytes
  split_ifs with hsize hempty
  · subst hempty
    exact completes_iff_of_empty hnonneg hsize hpayload
  · exact completes_iff_of_string hnonneg hsize hempty hpayload
  · exact completes_iff_of_size hnonneg hsize hpayload

def emptySegment : ShmSegment where
  count := 0
  buff := List.replicate sizeSharedMem 0
  length_buff := List.length_replicate

theorem writeData_complete_hello :
    Completes emptySegment (ascii "Hello" ++ [0]) 5 0 (ascii "Hello") := by
  have hpayload : IsPayload (ascii "Hello" ++ [0]) 5 (ascii "Hello") := by
    rw [IsPayload, if_neg (by decide)]
    exact ⟨rfl, [0], rfl⟩
  have hwhole : WritesWhole (ascii "Hello" ++ [0]) 5 0 (ascii "Hello") := by
    rw [WritesWhole, if_neg (by decide)]
    exact Or.inr (by decide)
  exact (writeData_complete_iff (by decide) hpayload).mpr hwhole

/-- The string of the call in `main`, without a size: its last character is not written. With a
size of 4096 the last byte is written behind the buffer. -/
theorem writeData_incomplete :
    IsPayload (ascii "Hello there" ++ [0]) 0 (ascii "Hello there") ∧
    ¬ Completes emptySegment (ascii "Hello there" ++ [0]) 0 0 (ascii "Hello there") ∧
    writeData emptySegment (List.replicate 4096 1) 4096 0 = .error .outOfBounds := by
  have hpayload : IsPayload (ascii "Hello there" ++ [0]) 0 (ascii "Hello there") := by
    rw [IsPayload, if_pos (by decide)]
    exact ⟨by decide, [], rfl⟩
  have hsize : (0 : Int32) < 1 := by decide
  have hne : ascii "Hello there" ≠ [] := by decide
  refine ⟨hpayload, fun h => ?_, ?_⟩
  · have hcond := (completes_iff_of_string rfl hsize hne hpayload).mp h
    exact absurd hcond.1 (by decide)
  · have hnumber : if (4096 : Int32) < 1 then strlen ((List.replicate 4096 1).drop 1) = .ok 4096
        else (4096 : Int32).toInt.toNat = 4096 := by
      rw [if_neg (by decide)]
      rfl
    have hover : sizeSharedMem < 0 + 1 + 4096 := by decide
    rw [writeData_eq _ hnumber]
    exact ShmSegment.copyTo_outside (by decide) hover

end Guthi
