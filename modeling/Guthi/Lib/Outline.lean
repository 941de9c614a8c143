import Mathlib.Tactic

/-!
# Outlines

A tree of labels written down as a list: each label with its depth, a node before what is below
it. The depths say where each node ends, so the list determines the tree.

* `Rose`, `Rose.outline` — the trees and their outlines;
* `outline_append_inj` — a tree can be told from whatever stands behind it, if that is not deeper;
* `outline_injective`.
-/

namespace Guthi

/-- Trees with any number of children. -/
inductive Rose (α : Type*) where
  | node (label : α) (children : List (Rose α))

namespace Rose

variable {α : Type*}

/-- Induction over trees: a property of everything directly below carries to the node. -/
theorem induct {P : Rose α → Prop} (step : ∀ a ts, (∀ t ∈ ts, P t) → P (.node a ts)) (t : Rose α) :
    P t := by
  match t with
  | .node a ts => exact step a ts fun t (ht : t ∈ ts) => induct step t
termination_by sizeOf t
decreasing_by
  have := List.sizeOf_lt_of_mem ht
  simp only [Rose.node.sizeOf_spec]
  omega

mutual

/-- The labels of a tree at depth `d`, with the depths. -/
def outline (d : Nat) : Rose α → List (Nat × α)
  | .node a ts => (d, a) :: outlineAll (d + 1) ts

/-- Trees one after the other at the same depth. -/
def outlineAll (d : Nat) : List (Rose α) → List (Nat × α)
  | [] => []
  | t :: ts => t.outline d ++ outlineAll d ts

end

/-- The mutual recursion goes over lists as `flatMap` does. -/
theorem outlineAll_eq_flatMap (d : Nat) (ts : List (Rose α)) :
    outlineAll d ts = ts.flatMap (outline d) := by
  induction ts with
  | nil => rfl
  | cons t ts ih => rw [outlineAll, ih, List.flatMap_cons]

/-- All of a tree is at its depth or below. -/
theorem le_of_mem_outline {t : Rose α} {d : Nat} : ∀ x ∈ t.outline d, d ≤ x.1 := by
  induction t using induct generalizing d with
  | step a ts ih =>
    intro x hx
    rw [outline, outlineAll_eq_flatMap] at hx
    rcases List.mem_cons.mp hx with rfl | hbelow
    · exact le_rfl
    · obtain ⟨t, ht, hx⟩ := List.mem_flatMap.mp hbelow
      exact (Nat.le_succ d).trans (ih t ht x hx)

/-- The list does not begin deeper than `d`. -/
def NotBelow (d : Nat) (rest : List (Nat × α)) : Prop := ∀ x ∈ rest.head?, x.1 ≤ d

theorem notBelow_nil (d : Nat) : NotBelow d ([] : List (Nat × α)) := by
  intro x hx
  cases hx

/-- What is not below `d` is not below anything deeper. -/
theorem NotBelow.mono {d e : Nat} (h : d ≤ e) {rest : List (Nat × α)} (hr : NotBelow d rest) :
    NotBelow e rest :=
  fun x hx => (hr x hx).trans h

/-- The outline of a tree begins with its root, at its depth. -/
theorem outline_cons (d : Nat) (t : Rose α) : ∃ a xs, t.outline d = (d, a) :: xs := by
  cases t with
  | node a ts => exact ⟨a, outlineAll (d + 1) ts, by rw [outline]⟩

/-- Trees at depth `d` begin at `d`, and what follows them was not below. -/
theorem notBelow_outlineAll {d : Nat} (ts : List (Rose α)) {rest : List (Nat × α)}
    (hr : NotBelow d rest) : NotBelow d (outlineAll d ts ++ rest) := by
  cases ts with
  | nil => exact hr
  | cons t ts =>
    obtain ⟨a, xs, hout⟩ := outline_cons d t
    intro x hx
    rw [outlineAll, hout] at hx
    cases hx
    exact le_rfl

/-- Something deeper cannot be what stands behind. -/
theorem outlineAll_cons_ne {d : Nat} (t : Rose α) (ts : List (Rose α)) {rest rest' : List (Nat × α)}
    (hr : NotBelow d rest') : outlineAll (d + 1) (t :: ts) ++ rest ≠ rest' := by
  rintro rfl
  obtain ⟨a, xs, hout⟩ := outline_cons (d + 1) t
  rw [outlineAll, hout] at hr
  exact absurd (hr (d + 1, a) rfl) (Nat.not_succ_le_self d)

/-- Where a tree ends can be seen from the depths. Induction over the tree; below a node, over the
list of what is there. -/
theorem outline_append_inj {t u : Rose α} {d : Nat} {rest rest' : List (Nat × α)}
    (hr : NotBelow d rest) (hr' : NotBelow d rest')
    (h : t.outline d ++ rest = u.outline d ++ rest') : t = u ∧ rest = rest' := by
  induction t using induct generalizing u d rest rest' with
  | step a ts ih =>
    obtain ⟨b, us⟩ := u
    rw [outline, outline, List.cons_append, List.cons_append, List.cons.injEq] at h
    obtain ⟨hlabel, hbelow⟩ := h
    have hall : ts = us ∧ rest = rest' := by
      clear hlabel
      induction ts generalizing us with
      -- an outline that goes on below cannot be what follows on the other side
      | nil =>
        cases us with
        | nil => exact ⟨rfl, hbelow⟩
        | cons u us => exact absurd hbelow.symm (outlineAll_cons_ne u us hr)
      | cons t ts ihs =>
        cases us with
        | nil => exact absurd hbelow (outlineAll_cons_ne t ts hr')
        | cons u us =>
          rw [outlineAll, outlineAll, List.append_assoc, List.append_assoc] at hbelow
          -- the first trees are equal, since what is behind them is not below them
          obtain ⟨rfl, hbehind⟩ := ih t (by simp)
            (notBelow_outlineAll ts (hr.mono d.le_succ))
            (notBelow_outlineAll us (hr'.mono d.le_succ)) hbelow
          obtain ⟨rfl, hrest⟩ := ihs (fun t' ht' => ih t' (by simp [ht'])) us hbehind
          exact ⟨rfl, hrest⟩
    obtain ⟨rfl, hrest⟩ := hall
    cases hlabel
    exact ⟨rfl, hrest⟩

/-- An outline determines its tree. -/
theorem outline_injective (d : Nat) : Function.Injective (outline (α := α) d) := by
  intro t u h
  refine (outline_append_inj (notBelow_nil d) (notBelow_nil d) ?_).1
  rw [List.append_nil, List.append_nil]
  exact h

end Rose

end Guthi
