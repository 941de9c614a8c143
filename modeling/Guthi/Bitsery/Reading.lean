import Guthi.Bitsery.Adapter

/-!
# Bitsery — reading arbitrary bytes

`Adapter.lean` reads back what was written. This module is about any input at all: what a read
takes when it succeeds, and what it does to the reader when it does not.

* `takeBytes`, `takeLe16`, `takeSize` — the reads as functions on byte strings, which fail where
  the adapter records an error; what they take does not depend on what follows
  (`takeBytes_append`, `takeLe16_append`, `takeSize_append`);
* `left` — how much the adapter can still read. No read raises it, and a size or byte that is
  not zero lowers it, also when the read runs into the end (`left_readSize_lt`);
* `noError_of_readBuffer` and its kin — an error stays recorded;
* `Ready.readBytes1_of_noError` and its kin — a read after which no error is recorded has taken
  what the function on byte strings takes.
-/

namespace Guthi.Bitsery

/-! ## Reads as functions on byte strings -/

/-- `n` bytes and what follows them; nothing if the bytes end before. -/
def takeBytes (n : Nat) (bs : Bytes) : Option (Bytes × Bytes) :=
  if n ≤ bs.length then some (bs.take n, bs.drop n) else none

/-- Two bytes, the low one first. -/
def takeLe16 : Bytes → Option (UInt16 × Bytes)
  | lo :: hi :: rest => some (ofLeBytes16 lo hi, rest)
  | _ => none

/-- The rest of a size whose first byte `hb` announces more than one byte. -/
def takeLongSize (hb : UInt8) : Bytes → Option (Nat × Bytes)
  | [] => none
  | lb :: rest =>
    if hb.toNat &&& 0x40 ≠ 0 then
      (takeLe16 rest).map fun (lw, rest) =>
        ((((hb.toNat &&& 0x3F) <<< 8 ||| lb.toNat) <<< 16) ||| lw.toNat, rest)
    else some ((hb.toNat &&& 0x7F) <<< 8 ||| lb.toNat, rest)

/-- A size of one, two or four bytes: the first byte says of how many. -/
def takeSize : Bytes → Option (Nat × Bytes)
  | [] => none
  -- below 0x80 the first byte is the size itself
  | hb :: rest => if hb.toNat < 0x80 then some (hb.toNat, rest) else takeLongSize hb rest

/-- Bytes that follow are left where they are. -/
theorem takeBytes_append {n : Nat} {bs buf rest : Bytes} (h : takeBytes n bs = some (buf, rest))
    (more : Bytes) : takeBytes n (bs ++ more) = some (buf, rest ++ more) := by
  unfold takeBytes at h ⊢
  split_ifs at h with hle
  cases h
  rw [if_pos (by rw [List.length_append]; omega), List.take_append_of_le_length hle,
    List.drop_append_of_le_length hle]

theorem takeLe16_append {v : UInt16} {bs rest : Bytes} (h : takeLe16 bs = some (v, rest))
    (more : Bytes) : takeLe16 (bs ++ more) = some (v, rest ++ more) := by
  match bs, h with
  | lo :: hi :: tail, h =>
    cases h
    rfl

theorem takeLongSize_append {hb : UInt8} {n : Nat} {bs rest : Bytes}
    (h : takeLongSize hb bs = some (n, rest)) (more : Bytes) :
    takeLongSize hb (bs ++ more) = some (n, rest ++ more) := by
  match bs, h with
  | lb :: tail, h =>
    simp only [List.cons_append, takeLongSize] at h ⊢
    split_ifs at h ⊢
    · -- four bytes: the last two are read as one word
      obtain ⟨⟨lw, rest'⟩, hlw, heq⟩ := Option.map_eq_some_iff.mp h
      cases heq
      rw [takeLe16_append hlw more]
      rfl
    · cases h
      rfl

/-- The size that is read does not depend on what follows it. -/
theorem takeSize_append {n : Nat} {bs rest : Bytes} (h : takeSize bs = some (n, rest))
    (more : Bytes) : takeSize (bs ++ more) = some (n, rest ++ more) := by
  match bs, h with
  | hb :: tail, h =>
    simp only [List.cons_append, takeSize] at h ⊢
    split_ifs at h ⊢
    · cases h
      rfl
    · exact takeLongSize_append h more

/-- What is taken and what is left make up the whole. -/
theorem length_of_takeBytes {n : Nat} {bs buf rest : Bytes}
    (h : takeBytes n bs = some (buf, rest)) : buf.length = n ∧ bs.length = n + rest.length := by
  unfold takeBytes at h
  split_ifs at h with hle
  cases h
  simp only [List.length_take, List.length_drop]
  omega

theorem length_of_takeLe16 {v : UInt16} {bs rest : Bytes} (h : takeLe16 bs = some (v, rest)) :
    bs.length = 2 + rest.length := by
  match bs, h with
  | lo :: hi :: tail, h =>
    cases h
    simp only [List.length_cons]
    omega

/-- The rest of a long size is one byte or three. -/
theorem length_of_takeLongSize {hb : UInt8} {n : Nat} {bs rest : Bytes}
    (h : takeLongSize hb bs = some (n, rest)) : rest.length < bs.length := by
  match bs, h with
  | lb :: tail, h =>
    simp only [takeLongSize] at h
    split_ifs at h
    · obtain ⟨⟨lw, rest'⟩, hlw, heq⟩ := Option.map_eq_some_iff.mp h
      cases heq
      have := length_of_takeLe16 hlw
      show rest'.length < (lb :: tail).length
      rw [List.length_cons]
      omega
    · cases h
      exact Nat.lt_succ_self _

/-- A size costs at least its first byte, so what follows it is shorter. -/
theorem length_of_takeSize {n : Nat} {bs rest : Bytes} (h : takeSize bs = some (n, rest)) :
    rest.length < bs.length := by
  match bs, h with
  | hb :: tail, h =>
    simp only [takeSize] at h
    split_ifs at h
    · cases h
      exact Nat.lt_succ_self _
    · exact (length_of_takeLongSize h).trans (Nat.lt_succ_self _)

namespace InputBufferAdapter

/-! ## How much is left -/

/-- The bytes that can still be read: none once an error is recorded. -/
def left (r : InputBufferAdapter) : Nat := r.endReadOffset - r.currOffset

theorem left_ofData (data : Bytes) : (ofData data).left = data.length := Nat.sub_zero _

/-- Once an error is recorded, nothing more is read. -/
theorem left_error_le (r : InputBufferAdapter) (e : ReaderError) : (r.error e).left ≤ r.left := by
  unfold error left
  split_ifs
  · -- the first error puts the end of the input at 0
    simp
  · exact Nat.le_refl _

/-- The first error is recorded, and a later one does not undo it. -/
theorem noError_of_error {r : InputBufferAdapter} {e : ReaderError} (he : e ≠ .noError) :
    (r.error e).noError = false := by
  unfold error noError
  split_ifs with h
  · cases e <;> simp_all [ReaderError.code]
  · simpa using h

/-- A read takes its bytes from the input, or gives zeros and takes none: both are accounted for. -/
theorem left_readBuffer (r : InputBufferAdapter) (n : Nat) :
    (r.readBuffer n).2.left + n ≤ r.left ∨
      (r.readBuffer n).1 = List.replicate n 0 ∧ (r.readBuffer n).2.left ≤ r.left := by
  unfold readBuffer
  split_ifs with h
  · left
    simp only [left]
    omega
  · -- past the end the adapter records `DataOverflow`
    exact Or.inr ⟨rfl, left_error_le r _⟩

/-- No read puts anything back. -/
theorem left_readBuffer_le (r : InputBufferAdapter) (n : Nat) :
    (r.readBuffer n).2.left ≤ r.left := by
  rcases left_readBuffer r n with h | h
  · omega
  · exact h.2

theorem left_readBytes1_le (r : InputBufferAdapter) : r.readBytes1.2.left ≤ r.left :=
  left_readBuffer_le r 1

/-- A byte that is not zero was there. -/
theorem left_readBytes1_lt {r : InputBufferAdapter} (h : r.readBytes1.1.toNat ≠ 0) :
    r.readBytes1.2.left < r.left := by
  rcases left_readBuffer r 1 with hread | ⟨hzero, _⟩
  · exact hread
  · simp [readBytes1, hzero] at h

theorem left_readBytes2_le (r : InputBufferAdapter) : r.readBytes2.2.left ≤ r.left :=
  left_readBuffer_le r 2

/-- The three outcomes of reading a size, by the form its first byte announces. -/
theorem readSizeRaw_cases (r : InputBufferAdapter) :
    let head := r.readBytes1
    let low := head.2.readBytes1
    (head.1.toNat < 0x80 ∧ r.readSizeRaw = (head.1.toNat, head.2)) ∨
    (¬ head.1.toNat < 0x80 ∧ head.1.toNat &&& 0x40 ≠ 0 ∧ r.readSizeRaw =
      ((((head.1.toNat &&& 0x3F) <<< 8 ||| low.1.toNat) <<< 16) ||| low.2.readBytes2.1.toNat,
        low.2.readBytes2.2)) ∨
    (¬ head.1.toNat < 0x80 ∧ ¬ head.1.toNat &&& 0x40 ≠ 0 ∧ r.readSizeRaw =
      ((head.1.toNat &&& 0x7F) <<< 8 ||| low.1.toNat, low.2)) := by
  intro head low
  by_cases hshort : head.1.toNat < 0x80
  · exact Or.inl ⟨hshort, if_pos hshort⟩
  · by_cases hlong : head.1.toNat &&& 0x40 ≠ 0
    · exact Or.inr (Or.inl ⟨hshort, hlong, (if_neg hshort).trans (if_pos hlong)⟩)
    · exact Or.inr (Or.inr ⟨hshort, hlong, (if_neg hshort).trans (if_neg hlong)⟩)

/-- Behind its first byte, a size takes what is left or less. -/
theorem left_readSizeRaw (r : InputBufferAdapter) :
    r.readSizeRaw.2.left ≤ r.readBytes1.2.left := by
  rcases readSizeRaw_cases r with ⟨_, h⟩ | ⟨_, _, h⟩ | ⟨_, _, h⟩
  · -- one byte: nothing else is read
    rw [h]
  · rw [h]
    show r.readBytes1.2.readBytes1.2.readBytes2.2.left ≤ r.readBytes1.2.left
    exact (left_readBytes2_le _).trans (left_readBytes1_le _)
  · rw [h]
    exact left_readBytes1_le _

/-- No size puts anything back, whether or not it exceeds its limit. -/
theorem left_readSize_le (r : InputBufferAdapter) (maxSize : Option Nat) :
    (r.readSize maxSize).2.left ≤ r.left := by
  have hraw := (left_readSizeRaw r).trans (left_readBytes1_le r)
  unfold readSize
  cases maxSize with
  | none => exact hraw
  | some max =>
    simp only
    split_ifs
    · exact (left_error_le _ _).trans hraw
    · exact hraw

/-- A size that is not zero has cost a byte, even if the input ended within it. -/
theorem left_readSize_lt {r : InputBufferAdapter} (h : (r.readSize none).1 ≠ 0) :
    (r.readSize none).2.left < r.left := by
  -- a size that is not zero has a first byte that is not: the longer forms have bit 7 set
  have hhead : r.readBytes1.1.toNat ≠ 0 := by
    intro hzero
    rcases readSizeRaw_cases r with ⟨_, heq⟩ | ⟨hlong, _, _⟩ | ⟨hlong, _, _⟩
    · exact h ((congrArg Prod.fst heq).trans hzero)
    · omega
    · omega
  exact (left_readSizeRaw r).trans_lt (left_readBytes1_lt hhead)

/-- A size beyond the limit is an error, and is given as 0. -/
theorem readSize_le (r : InputBufferAdapter) (max : Nat) : (r.readSize (some max)).1 ≤ max := by
  unfold readSize
  simp only
  split_ifs with h
  · exact Nat.zero_le _
  · exact Nat.le_of_not_gt h

/-! ## Errors stay recorded -/

/-- If no error is recorded after a read, none was before. -/
theorem noError_of_readBuffer {r : InputBufferAdapter} {n : Nat}
    (h : (r.readBuffer n).2.noError = true) : r.noError = true := by
  unfold readBuffer at h
  split_ifs at h with hle
  · simp only [noError, decide_eq_true_eq]
    omega
  · -- past the end: the error that is recorded contradicts `h`
    rw [noError_of_error (by decide)] at h
    cases h

theorem noError_of_readBytes1 {r : InputBufferAdapter} (h : r.readBytes1.2.noError = true) :
    r.noError = true := noError_of_readBuffer h

theorem noError_of_readBytes2 {r : InputBufferAdapter} (h : r.readBytes2.2.noError = true) :
    r.noError = true := noError_of_readBuffer h

theorem noError_of_readSizeRaw {r : InputBufferAdapter} (h : r.readSizeRaw.2.noError = true) :
    r.noError = true := by
  rcases readSizeRaw_cases r with ⟨_, heq⟩ | ⟨_, _, heq⟩ | ⟨_, _, heq⟩
  · -- each form is a chain of reads, and the error would have stayed at the first that failed
    rw [heq] at h
    exact noError_of_readBytes1 h
  · rw [heq] at h
    exact noError_of_readBytes1 (noError_of_readBytes1 (noError_of_readBytes2 h))
  · rw [heq] at h
    exact noError_of_readBytes1 (noError_of_readBytes1 h)

/-- Without an error the size kept to its limit, and is what the bytes say. -/
theorem readSize_of_noError {r : InputBufferAdapter} {maxSize : Option Nat}
    (h : (r.readSize maxSize).2.noError = true) :
    r.readSize maxSize = r.readSizeRaw ∧ ∀ max ∈ maxSize, r.readSizeRaw.1 ≤ max := by
  cases maxSize with
  | none => exact ⟨rfl, by simp⟩
  | some max =>
    unfold readSize at h ⊢
    simp only at h ⊢
    split_ifs at h ⊢ with hmax
    · -- a size beyond the limit has recorded `DataOverflow`
      rw [noError_of_error (by decide)] at h
      cases h
    · simpa using hmax

theorem noError_of_readSize {r : InputBufferAdapter} {maxSize : Option Nat}
    (h : (r.readSize maxSize).2.noError = true) : r.noError = true := by
  rw [(readSize_of_noError h).1] at h
  exact noError_of_readSizeRaw h

/-! ## Reads that succeed -/

namespace Ready

variable {r : InputBufferAdapter} {bs : Bytes}

/-- The bytes that a read without error gives are those that `takeBytes` takes. -/
theorem readBuffer_of_noError (h : Ready r bs) {n : Nat}
    (hok : (r.readBuffer n).2.noError = true) :
    ∃ rest, takeBytes n bs = some ((r.readBuffer n).1, rest) ∧ Ready (r.readBuffer n).2 rest := by
  -- else the read would have run into the end
  have hle : n ≤ bs.length := by
    unfold InputBufferAdapter.readBuffer at hok
    split_ifs at hok with hle
    · have := h.length
      have := h.endReadOffset
      omega
    · rw [noError_of_error (by decide)] at hok
      cases hok
  -- as a reader of what was written: the bytes that are read, then the rest
  have hsplit : Ready r (bs.take n ++ bs.drop n) := by rwa [List.take_append_drop]
  have hread := hsplit.readBuffer
  rw [List.length_take, Nat.min_eq_left hle] at hread
  refine ⟨bs.drop n, ?_, ?_⟩
  · rw [takeBytes, if_pos hle, hread]
  · rw [hread]
    have hrest := hsplit.advance
    rwa [List.length_take, Nat.min_eq_left hle] at hrest

/-- A byte that was read without error was the next one. -/
theorem readBytes1_of_noError (h : Ready r bs) (hok : r.readBytes1.2.noError = true) :
    ∃ rest, bs = r.readBytes1.1 :: rest ∧ Ready r.readBytes1.2 rest := by
  obtain ⟨rest, htake, hrest⟩ := h.readBuffer_of_noError (n := 1) hok
  unfold takeBytes at htake
  split_ifs at htake with hle
  match bs, hle, htake with
  | b :: tail, _, htake =>
    rw [Option.some.injEq, Prod.mk.injEq] at htake
    obtain ⟨hbuf, rfl⟩ := htake
    refine ⟨tail, ?_, hrest⟩
    rw [InputBufferAdapter.readBytes1, ← hbuf]
    rfl

theorem readBytes2_of_noError (h : Ready r bs) (hok : r.readBytes2.2.noError = true) :
    ∃ rest, takeLe16 bs = some (r.readBytes2.1, rest) ∧ Ready r.readBytes2.2 rest := by
  obtain ⟨rest, htake, hrest⟩ := h.readBuffer_of_noError (n := 2) hok
  unfold takeBytes at htake
  split_ifs at htake with hle
  match bs, hle, htake with
  | lo :: hi :: tail, _, htake =>
    rw [Option.some.injEq, Prod.mk.injEq] at htake
    obtain ⟨hbuf, rfl⟩ := htake
    refine ⟨tail, ?_, hrest⟩
    rw [InputBufferAdapter.readBytes2, ← hbuf]
    rfl

/-- The size that a read without error gives is the one that `takeSize` takes. -/
theorem readSizeRaw_of_noError (h : Ready r bs) (hok : r.readSizeRaw.2.noError = true) :
    ∃ rest, takeSize bs = some (r.readSizeRaw.1, rest) ∧ Ready r.readSizeRaw.2 rest := by
  rcases readSizeRaw_cases r with ⟨hshort, heq⟩ | ⟨hlong, hbit, heq⟩ | ⟨hlong, hbit, heq⟩
  · -- the forms of one, four and two bytes
    rw [heq] at hok ⊢
    obtain ⟨rest, hbs, hrest⟩ := h.readBytes1_of_noError hok
    refine ⟨rest, ?_, hrest⟩
    rw [hbs]
    simp only [takeSize, if_pos hshort]
  · rw [heq] at hok ⊢
    dsimp only at hok ⊢
    -- the last read had no error, so the earlier ones had none
    have hok₂ := noError_of_readBytes2 hok
    obtain ⟨rest₁, hbs, hrest₁⟩ := h.readBytes1_of_noError (noError_of_readBytes1 hok₂)
    obtain ⟨rest₂, hrest₁_eq, hrest₂⟩ := hrest₁.readBytes1_of_noError hok₂
    obtain ⟨rest, htake, hrest⟩ := hrest₂.readBytes2_of_noError hok
    refine ⟨rest, ?_, hrest⟩
    rw [hbs, hrest₁_eq]
    simp only [takeSize, takeLongSize, if_neg hlong, if_pos hbit, htake, Option.map_some]
  · rw [heq] at hok ⊢
    obtain ⟨rest₁, hbs, hrest₁⟩ := h.readBytes1_of_noError (noError_of_readBytes1 hok)
    obtain ⟨rest, hrest₁_eq, hrest⟩ := hrest₁.readBytes1_of_noError hok
    refine ⟨rest, ?_, hrest⟩
    rw [hbs, hrest₁_eq]
    simp only [takeSize, takeLongSize, if_neg hlong, if_neg hbit]

/-- The same for a size with a limit, which it keeps. -/
theorem readSize_of_noError (h : Ready r bs) {maxSize : Option Nat}
    (hok : (r.readSize maxSize).2.noError = true) :
    ∃ rest, takeSize bs = some ((r.readSize maxSize).1, rest) ∧
      (∀ max ∈ maxSize, (r.readSize maxSize).1 ≤ max) ∧ Ready (r.readSize maxSize).2 rest := by
  obtain ⟨heq, hmax⟩ := InputBufferAdapter.readSize_of_noError hok
  rw [heq] at hok ⊢
  obtain ⟨rest, htake, hrest⟩ := h.readSizeRaw_of_noError hok
  exact ⟨rest, htake, hmax, hrest⟩

/-- Without an error, the reading is complete exactly if nothing is left. -/
theorem isCompletedSuccessfully_iff (h : Ready r bs) :
    r.isCompletedSuccessfully = true ↔ bs = [] := by
  have hlen := h.length
  rw [isCompletedSuccessfully, decide_eq_true_eq, h.bufferSize, ← List.length_eq_zero_iff]
  omega

end Ready

end InputBufferAdapter

end Guthi.Bitsery
