import Mathlib.Tactic

/-!
# Memory and its owners

Blocks are allocated and deleted, and an address is not given out twice. A pointer is an address or
null.

* `Blocks.alloc`, `Blocks.delete` — to delete a null pointer does nothing, to delete a block that
  is gone fails;
* `Owned m ps` — of the pointers `ps`, exactly one leads to each block that is there, and none to
  any other address;
* `Owned.alloc`, `Owned.delete`, `Owned.load_alloc` — who owns a block may delete it, once, and
  read it until then.
-/

namespace Guthi

/-- The blocks by address; `none` is one that was deleted. -/
structure Blocks (α : Type*) where
  cells : List (Option α) := []

namespace Blocks

variable {α : Type*} {m : Blocks α}

/-- The block at `a`, if it is there. -/
def get (m : Blocks α) (a : Nat) : Option α := m.cells[a]?.join

/-- What a pointer leads to. -/
def load (m : Blocks α) (p : Option Nat) : Option α := p.bind m.get

/-- A new block, behind all others that there ever were. -/
def alloc (m : Blocks α) (b : α) : Blocks α × Nat := (⟨m.cells ++ [some b]⟩, m.cells.length)

/-- A null pointer can be deleted; else the block must be there. -/
def delete (m : Blocks α) : Option Nat → Option (Blocks α)
  | none => some m
  | some a => if (m.get a).isSome then some ⟨m.cells.set a none⟩ else none

/-- The new block is at its address, and all others are as before. -/
theorem get_alloc (m : Blocks α) (b : α) (a : Nat) :
    (m.alloc b).1.get a = if a = m.cells.length then some b else m.get a := by
  unfold alloc get
  -- below the new address, at it, or above
  rcases Nat.lt_trichotomy a m.cells.length with hlt | rfl | hgt
  · rw [if_neg hlt.ne, List.getElem?_append_left hlt]
  · simp
  · rw [if_neg hgt.ne', List.getElem?_eq_none (by simp; omega), List.getElem?_eq_none hgt.le]

/-- Nothing was at the next address. -/
theorem get_new (m : Blocks α) : m.get m.cells.length = none := by
  unfold get
  rw [List.getElem?_eq_none (Nat.le_refl _)]
  rfl

/-- What was deleted is gone, and nothing else. -/
theorem get_set_none (m : Blocks α) (a b : Nat) :
    (Blocks.mk (m.cells.set a none)).get b = if b = a then none else m.get b := by
  show (m.cells.set a none)[b]?.join = _
  by_cases hab : b = a
  · subst hab
    rw [if_pos rfl, List.getElem?_set_self']
    cases m.cells[b]? <;> rfl
  · rw [if_neg hab, List.getElem?_set_ne (Ne.symm hab)]
    rfl

end Blocks

/-- Each block that is there has one owner. -/
def Owned {α : Type*} (m : Blocks α) (ps : List (Option Nat)) : Prop :=
  ∀ a, ps.count (some a) = if (m.get a).isSome then 1 else 0

namespace Owned

variable {α : Type*} {m : Blocks α} {p : Option Nat} {ps qs : List (Option Nat)}

/-- Only how often each pointer is owned matters. -/
theorem congr (h : Owned m ps) (hcount : ∀ a, qs.count (some a) = ps.count (some a)) :
    Owned m qs :=
  fun a => (hcount a).trans (h a)

/-- The order of the owners does not matter. -/
theorem perm (h : Owned m ps) (hperm : qs.Perm ps) : Owned m qs :=
  h.congr fun _ => hperm.count_eq _

theorem null_cons : Owned m (none :: ps) ↔ Owned m ps := by
  unfold Owned
  simp

theorem isSome_of_mem (h : Owned m ps) {a : Nat} (ha : some a ∈ ps) : (m.get a).isSome := by
  by_contra hnone
  have hcount := h a
  rw [if_neg hnone] at hcount
  exact List.count_eq_zero.mp hcount ha

/-- No owner has the address of a block that is still to come. -/
theorem ne_new (h : Owned m ps) {a : Nat} (ha : some a ∈ ps) : a ≠ m.cells.length := by
  rintro rfl
  have hsome := h.isSome_of_mem ha
  rw [m.get_new] at hsome
  cases hsome

/-- Whoever asked for the block owns it. -/
theorem alloc (h : Owned m ps) (b : α) : Owned (m.alloc b).1 (some (m.alloc b).2 :: ps) := by
  intro a
  rw [List.count_cons, m.get_alloc, h a]
  show _ + (if (some m.cells.length == some a) = true then 1 else 0) = _
  by_cases ha : a = m.cells.length
  · subst ha
    simp [m.get_new]
  · simp [ha, Ne.symm ha]

/-- What was owned before is there as before. -/
theorem load_alloc (h : Owned m ps) (b : α) (hp : p ∈ ps) : (m.alloc b).1.load p = m.load p := by
  cases p with
  | none => rfl
  | some a =>
    show (m.alloc b).1.get a = m.get a
    rw [m.get_alloc, if_neg (h.ne_new hp)]

/-- An owner can delete its block, which does not touch those of the others. -/
theorem delete (h : Owned m (p :: ps)) : ∃ m', m.delete p = some m' ∧ Owned m' ps ∧
    ∀ q ∈ ps, m'.load q = m.load q := by
  cases p with
  | none =>
    refine ⟨m, rfl, fun a => ?_, fun _ _ => rfl⟩
    rw [← h a, List.count_cons]
    simp
  | some a =>
    have hsome := h.isSome_of_mem List.mem_cons_self
    -- it was the only owner
    have hzero : ps.count (some a) = 0 := by
      have hone := h a
      rw [List.count_cons_self, if_pos hsome] at hone
      omega
    refine ⟨_, if_pos hsome, fun b => ?_, fun q hq => ?_⟩
    · -- counting owners: none for the block that went, the same for all others
      rw [m.get_set_none]
      by_cases hab : b = a
      · rw [hab, hzero, if_pos rfl]
        rfl
      · rw [if_neg hab, ← h b, List.count_cons_of_ne]
        simpa using Ne.symm hab
    · cases q with
      | none => rfl
      | some b =>
        have hab : b ≠ a := by
          rintro rfl
          exact List.count_eq_zero.mp hzero hq
        show (Blocks.mk (m.cells.set a none)).get b = m.get b
        rw [m.get_set_none, if_neg hab]

end Owned

end Guthi
