import Mathlib.Tactic

/-!
# Streams of delimited items

A stream carries items back to back. A reader takes one item off its front and gives the rest;
the items say themselves where they end if the reader finds each one whatever stands behind it.

* `CutsInto take s as` — the stream is cut into these items, and nothing is left of it;
* `CutsInto.unique` — in one way at most;
* `cutsInto_flatMap` — a stream of delimited items is cut into these.
-/

namespace Guthi

variable {α β : Type*} {take : List β → Option (α × List β)}

/-- `take` cuts the string into these pieces, up to its end. -/
inductive CutsInto (take : List β → Option (α × List β)) : List β → List α → Prop where
  | nil : CutsInto take [] []
  | cons {s rest : List β} {a : α} {as : List α} (hfirst : take s = some (a, rest))
      (hrest : CutsInto take rest as) : CutsInto take s (a :: as)

namespace CutsInto

/-- A string can be cut in one way only, since `take` is a function and the end is where it fails.
-/
theorem unique (hempty : take [] = none) {s : List β} {as bs : List α} (ha : CutsInto take s as)
    (hb : CutsInto take s bs) : as = bs := by
  induction ha generalizing bs with
  | nil =>
    cases hb with
    | nil => rfl
    | cons hfirst _ => exact absurd (hempty.symm.trans hfirst) (by simp)
  | cons hfirst _ ih =>
    cases hb with
    | nil => exact absurd (hempty.symm.trans hfirst) (by simp)
    | cons hfirst' hrest' =>
      have heq := hfirst.symm.trans hfirst'
      simp only [Option.some.injEq, Prod.mk.injEq] at heq
      obtain ⟨rfl, rfl⟩ := heq
      rw [ih hrest']

end CutsInto

/-- The reader finds the item whatever stands behind it. -/
def Delimits (take : List β → Option (α × List β)) (encode : α → List β) (a : α) : Prop :=
  ∀ rest, take (encode a ++ rest) = some (a, rest)

/-- Encodings one after the other are cut where each of them ends. -/
theorem cutsInto_flatMap {encode : α → List β} {as : List α}
    (h : ∀ a ∈ as, Delimits take encode a) : CutsInto take (as.flatMap encode) as := by
  induction as with
  | nil => exact .nil
  | cons a as ih =>
    rw [List.flatMap_cons]
    exact .cons (h a (by simp) _) (ih fun b hb => h b (by simp [hb]))

end Guthi
