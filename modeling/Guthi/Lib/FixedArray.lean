import Mathlib.Tactic

/-!
# Arrays of fixed size

`storeAt buf off data` copies `data` into the array `buf` from index `off` on, as `memcpy` does.
It is `none` when the data would run over the end of the array.

A buffer that is filled from its beginning, piece by piece, is described by its first elements:
`take_storeAt` says what one more piece makes of them.

`overwrite buf off data` is the same on a list, where the data are known to fit, or the list is to
get longer.
-/

namespace Guthi

variable {α : Type*} {n : Nat}

/-- Copy into an array at an offset; the copy must fit. -/
def storeAt (buf : Vector α n) (off : Nat) (data : List α) : Option (Vector α n) :=
  if h : off + data.length ≤ n then
    some ⟨(buf.toList.take off ++ (data ++ buf.toList.drop (off + data.length))).toArray, by
      simp
      omega⟩
  else none

variable {buf buf' : Vector α n} {off : Nat} {data : List α}

/-- A copy fails if it is longer than the room behind the offset. -/
theorem storeAt_eq_none : storeAt buf off data = none ↔ n < off + data.length := by
  unfold storeAt
  split_ifs with h <;> simp <;> omega

/-- What fits is copied. -/
theorem exists_storeAt (buf : Vector α n) (h : off + data.length ≤ n) :
    ∃ buf', storeAt buf off data = some buf' := by
  rw [← Option.ne_none_iff_exists', ne_eq, storeAt_eq_none]
  omega

/-- The array after a copy, as a list. -/
theorem toList_of_storeAt (h : storeAt buf off data = some buf') :
    off + data.length ≤ n ∧
      buf'.toList = buf.toList.take off ++ (data ++ buf.toList.drop (off + data.length)) := by
  unfold storeAt at h
  split_ifs at h with hfits
  cases h
  exact ⟨hfits, rfl⟩

/-- A piece that is stored behind what is there already. -/
theorem take_storeAt {pre : List α} (hpre : buf.toList.take off = pre)
    (h : storeAt buf off data = some buf') :
    buf'.toList.take (off + data.length) = pre ++ data := by
  obtain ⟨hfits, hlist⟩ := toList_of_storeAt h
  -- the offset is within the array, so `pre` has its length
  have hoff : (buf.toList.take off).length = off := by
    rw [List.length_take, Vector.length_toList]
    omega
  rw [hlist, ← hpre, ← List.append_assoc]
  nth_rewrite 1 [← hoff]
  rw [← List.length_append, List.take_left]

/-! ## On lists -/

/-- The same copy on a list. -/
def overwrite (buf : List α) (off : Nat) (data : List α) : List α :=
  buf.take off ++ (data ++ buf.drop (off + data.length))

section

variable {buf : List α}

/-- Within the list, no length changes. -/
theorem length_overwrite (h : off + data.length ≤ buf.length) :
    (overwrite buf off data).length = buf.length := by
  simp only [overwrite, List.length_append, List.length_take, List.length_drop]
  omega

theorem take_drop_overwrite (h : off + data.length ≤ buf.length) :
    ((overwrite buf off data).drop off).take data.length = data := by
  have hoff : (buf.take off).length = off := by
    rw [List.length_take]
    omega
  rw [overwrite, List.drop_left' hoff, List.take_left]

theorem getElem?_overwrite_outside (h : off + data.length ≤ buf.length) {i : Nat}
    (hi : i < off ∨ off + data.length ≤ i) : (overwrite buf off data)[i]? = buf[i]? := by
  have hoff : (buf.take off).length = off := by
    rw [List.length_take]
    omega
  unfold overwrite
  rcases hi with hi | hi
  · rw [List.getElem?_append_left (by omega), List.getElem?_take_of_lt hi]
  · rw [List.getElem?_append_right (by omega), List.getElem?_append_right (by omega),
      List.getElem?_drop, hoff]
    congr 1
    omega

/-- A copy that begins within the list makes it longer if it goes on behind. -/
theorem length_overwrite_of_le (h : off ≤ buf.length) :
    (overwrite buf off data).length = max buf.length (off + data.length) := by
  simp only [overwrite, List.length_append, List.length_take, List.length_drop]
  omega

/-- In an array that is padded, the padding goes on behind what was written. -/
theorem overwrite_append_replicate (k : Nat) (a : α) (hoff : off ≤ buf.length) :
    ∃ k', overwrite (buf ++ List.replicate k a) off data =
      overwrite buf off data ++ List.replicate k' a := by
  refine ⟨k - (off + data.length - buf.length), ?_⟩
  unfold overwrite
  rw [List.take_append_of_le_length hoff, List.drop_append, List.drop_replicate,
    List.append_assoc, List.append_assoc]

end

/-- A longer prefix than there is, is filled up. -/
theorem takeD_of_length_le (a : α) {size : Nat} : ∀ {l : List α}, l.length ≤ size →
    l.takeD size a = l ++ List.replicate (size - l.length) a := by
  induction size with
  | zero =>
    intro l hl
    rw [List.length_eq_zero_iff.mp (Nat.le_zero.mp hl)]
    rfl
  | succ size ih =>
    intro l hl
    cases l with
    | nil => rw [List.takeD_nil, List.nil_append, List.length_nil, Nat.sub_zero]
    | cons b l =>
      rw [List.takeD_succ, List.tail_cons, ih (Nat.le_of_succ_le_succ hl), List.length_cons,
        Nat.succ_sub_succ]
      rfl

end Guthi
