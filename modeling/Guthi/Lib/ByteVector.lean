import Guthi.Lib.Bytes
import Guthi.Lib.FixedArray

/-!
# Vectors of bytes

`std::vector<uint8_t>`: its elements, the storage that is reserved behind them, and how often the
elements have moved, since an iterator is not valid after the next move.

* `ByteVector.resize`, `ByteVector.reserve` — more or fewer elements; more storage;
* `ByteVector.overwritten` — a copy into the elements;
* `ByteVector.store` — `v[i] = x`, which is not checked and may go to the reserved storage.
-/

namespace Guthi

/-- The capacity of a vector of so many elements that has to move to get a greater size. The
library is free to choose any that is large enough. -/
structure Growth where
  capacityFor : Nat → Nat → Nat
  le : ∀ length size, size ≤ capacityFor length size

/-- A cell of the reserved storage that nothing has been written to is `none`. -/
structure ByteVector where
  elems : Bytes := []
  spare : List (Option UInt8) := []
  moves : Nat := 0

namespace ByteVector

/-- How many bytes the allocation has room for. -/
def capacity (v : ByteVector) : Nat := v.elems.length + v.spare.length

/-- `resize(size)`: new elements are zero. -/
def resize (g : Growth) (v : ByteVector) (size : Nat) : ByteVector :=
  let elems := v.elems.takeD size 0
  if size ≤ v.capacity then
    -- elements that go stay in the storage
    { v with
      elems
      spare := (v.elems.drop size).map some ++ v.spare.drop (size - v.elems.length) }
  else
    { elems
      spare := List.replicate (g.capacityFor v.elems.length size - size) none
      moves := v.moves + 1 }

/-- `reserve(capacity)`, which takes no more than it is asked for. -/
def reserve (v : ByteVector) (capacity : Nat) : ByteVector :=
  if capacity ≤ v.capacity then v
  else
    { v with
      spare := List.replicate (capacity - v.elems.length) none
      moves := v.moves + 1 }

/-- `std::vector<uint8_t> buffer(size)`. -/
def zeros (size : Nat) : ByteVector where
  elems := List.replicate size 0

/-- A copy into the elements, from `off` on. -/
def overwritten (v : ByteVector) (off : Nat) (data : Bytes) : ByteVector :=
  { v with elems := overwrite v.elems off data }

/-- `v[i] = x`. The operator does not check `i`, and the number of elements stays as it is; `none`
is a write outside of the storage. -/
def store (v : ByteVector) (i : Nat) (x : UInt8) : Option ByteVector :=
  if i < v.elems.length then some { v with elems := v.elems.set i x }
  else if i < v.capacity then
    some { v with spare := v.spare.set (i - v.elems.length) (some x) }
  else none

/-- The elements do not depend on how the vector grows. -/
theorem resize_elems (g : Growth) (v : ByteVector) (size : Nat) :
    (v.resize g size).elems = v.elems.takeD size 0 := by
  unfold resize
  split_ifs <;> rfl

/-- What is reserved for an empty vector, and nothing else. -/
theorem reserve_empty (n : Nat) : (reserve {} n).elems = [] ∧ (reserve {} n).capacity = n := by
  unfold reserve
  split_ifs with h
  · exact ⟨rfl, (Nat.le_zero.mp h).symm⟩
  · exact ⟨rfl, by simp [capacity]⟩

/-- A store behind the elements goes to the spare room, and makes no element. -/
theorem store_spare {v : ByteVector} {i : Nat} (x : UInt8) (hi : v.elems.length ≤ i)
    (hcapacity : i < v.capacity) :
    v.store i x = some { v with spare := v.spare.set (i - v.elems.length) (some x) } := by
  rw [store, if_neg (by omega), if_pos hcapacity]

end ByteVector

end Guthi
