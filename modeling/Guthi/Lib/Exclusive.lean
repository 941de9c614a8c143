import Mathlib.Tactic

/-!
# Semaphores with one permit

The value of a semaphore beside the processes that hold it, however the value and the processes
come about. `Exclusive value inside` says that there is one permit: it is free, or one process
holds it, or it is lost.

* `Exclusive.enter`, `Exclusive.leave` — taking the permit and giving it up;
* `Exclusive.ne_free` — it is not free while it is held.
-/

namespace Guthi

variable {π : Type*}

/-- At most one party is inside, once, and the value is 1 only if nobody is. -/
structure Exclusive (value : Nat) (inside : π → Nat) : Prop where
  value_le : value ≤ 1
  free : value = 1 → ∀ p, inside p = 0
  once : ∀ p, inside p ≤ 1
  alone : ∀ p q, 0 < inside p → 0 < inside q → p = q

namespace Exclusive

variable {value value' : Nat} {inside : π → Nat}

/-- With nobody inside, any value up to 1 will do. -/
theorem of_nobody (hvalue : value ≤ 1) (hnobody : ∀ p, inside p = 0) : Exclusive value inside :=
  ⟨hvalue, fun _ => hnobody, fun p => (hnobody p).le.trans (Nat.zero_le 1),
    fun p _ hp => absurd (hnobody p) hp.ne'⟩

/-- While somebody is inside, the value is 0. -/
theorem ne_free (h : Exclusive value inside) {p : π} (hp : 0 < inside p) : value = 0 := by
  have hle := h.value_le
  by_contra hne
  have hzero := h.free (by omega) p
  omega

variable [DecidableEq π]

/-- Whoever takes the value from 1 to 0 is the only one inside. -/
theorem enter (h : Exclusive 1 inside) (p : π) :
    Exclusive 0 (Function.update inside p (inside p + 1)) := by
  have hnobody := h.free rfl
  have hinside : ∀ q, Function.update inside p (inside p + 1) q = if q = p then 1 else 0 := by
    intro q
    rw [Function.update_apply, hnobody p, hnobody q]
  -- all others were outside and stay there
  have honly : ∀ q, 0 < Function.update inside p (inside p + 1) q → q = p := by
    intro q hq
    rw [hinside] at hq
    by_contra hne
    rw [if_neg hne] at hq
    exact Nat.lt_irrefl 0 hq
  refine ⟨Nat.zero_le 1, fun h0 => absurd h0 (by simp), fun q => ?_,
    fun q r hq hr => (honly q hq).trans (honly r hr).symm⟩
  rw [hinside]
  split_ifs <;> omega

/-- When the holder leaves nobody is inside. -/
theorem nobody_update (h : Exclusive value inside) {p : π} (hp : 0 < inside p) (q : π) :
    Function.update inside p 0 q = 0 := by
  rw [Function.update_apply]
  split_ifs with hq
  · rfl
  · by_contra hpos
    exact hq (h.alone q p (Nat.pos_of_ne_zero hpos) hp)

/-- The one inside leaves, and the value may go up again. -/
theorem leave (h : Exclusive value inside) {p : π} (hp : 0 < inside p) (hvalue : value' ≤ 1) :
    Exclusive value' (Function.update inside p 0) :=
  of_nobody hvalue (h.nobody_update hp)

end Exclusive

/-- A process that is not inside need not leave. -/
theorem update_zero_of_outside [DecidableEq π] {inside : π → Nat} {p : π} (hp : inside p = 0) :
    Function.update inside p 0 = inside := by
  rw [← hp, Function.update_eq_self]

end Guthi
