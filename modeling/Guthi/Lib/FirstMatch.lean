import Mathlib.Tactic

/-!
# Guthi — updating the first match in a list

A directory keeps its entries in a plain vector and looks an entry up by a predicate: the
first match counts, later matches are never seen. `updateFirst p f l` replaces the first
element that satisfies `p`.

* `updateFirst_split` — what the update does, once the first match is known;
* `filter_updateFirst`, `filter_updateFirst_of_disjoint` — an update of one group of elements,
  seen from a filter that keeps or drops the whole group.
-/

namespace Guthi

variable {α : Type*}

/-- Apply `f` to the first element of the list that satisfies `p`. -/
def updateFirst (p : α → Bool) (f : α → α) : List α → List α
  | [] => []
  | a :: l => if p a then f a :: l else a :: updateFirst p f l

variable {p q : α → Bool} {f : α → α}

/-- The match behind elements that fail the test is the one that is updated. -/
theorem updateFirst_split {pre post : List α} {a : α} (hpre : ∀ b ∈ pre, p b = false)
    (ha : p a = true) : updateFirst p f (pre ++ a :: post) = pre ++ f a :: post := by
  induction pre with
  | nil => rw [List.nil_append, updateFirst, if_pos ha]; rfl
  | cons b pre ih =>
    have hb : p b = false := hpre b (by simp)
    rw [List.cons_append, updateFirst, if_neg (by simp [hb]),
      ih fun c hc => hpre c (by simp [hc])]
    rfl

/-- What is found splits the list: nothing in front of it passes the test. -/
theorem find?_split {l : List α} {a : α} (h : l.find? p = some a) :
    p a = true ∧ ∃ pre post, l = pre ++ a :: post ∧ ∀ b ∈ pre, p b = false := by
  obtain ⟨ha, pre, post, hl, hpre⟩ := List.find?_eq_some_iff_append.mp h
  exact ⟨ha, pre, post, hl, fun b hb => by simpa using hpre b hb⟩

/-- A filter that keeps every match commutes with the update. -/
theorem filter_updateFirst (hkeep : ∀ a, p a = true → q a = true) (hf : ∀ a, q (f a) = q a)
    (l : List α) : (updateFirst p f l).filter q = updateFirst p f (l.filter q) := by
  induction l with
  | nil => rfl
  | cons a l ih =>
    -- the match is here, and the filter keeps it; else it is further on in both
    by_cases hp : p a = true
    · have hq : q a = true := hkeep a hp
      rw [updateFirst, if_pos hp, List.filter_cons_of_pos (by rw [hf]; exact hq),
        List.filter_cons_of_pos hq, updateFirst, if_pos hp]
    · rw [updateFirst, if_neg hp]
      by_cases hq : q a = true
      · rw [List.filter_cons_of_pos hq, List.filter_cons_of_pos hq, updateFirst, if_neg hp, ih]
      · rw [List.filter_cons_of_neg hq, List.filter_cons_of_neg hq, ih]

/-- A filter that drops every match does not see the update. -/
theorem filter_updateFirst_of_disjoint (hdrop : ∀ a, p a = true → q a = false)
    (hf : ∀ a, q (f a) = q a) (l : List α) : (updateFirst p f l).filter q = l.filter q := by
  induction l with
  | nil => rfl
  | cons a l ih =>
    by_cases hp : p a = true
    · have hq : q a = false := hdrop a hp
      rw [updateFirst, if_pos hp, List.filter_cons_of_neg (by simp [hf, hq]),
        List.filter_cons_of_neg (by simp [hq])]
    · rw [updateFirst, if_neg hp, List.filter_cons, List.filter_cons, ih]

end Guthi
