import Mathlib.Tactic

/-!
# Computations that can fail

`Outcome P E r` is the postcondition of a computation in `Except`: its result `r` is a value
that satisfies `P`, or an error that satisfies `E`. One rule for each way of putting
computations together:

* `Outcome.bind` — one after the other;
* `Outcome.foldlM` — a loop and its invariant; `Outcome.foldlM_split` where the invariant
  speaks of the elements that are done and those that are to come;
* `Outcome.mapM` — the same computation for each element.

`bind_eq_ok` and `bind_eq_error` take a result of a sequence apart; `toOption_eq_some` leaves the
error out.

`Simulates R E r r'` relates two computations: where `r` has a value, `r'` has one that `R` relates
to it, and the errors of `r` are those of `r'` unless they are in `E`.

`exists_bound_forall_mem` is for computations with fuel, which need some bound for each element.
-/

namespace Guthi

variable {ε α β σ : Type}

@[simp] theorem ok_bind (a : α) (f : α → Except ε β) : (Except.ok a >>= f) = f a := rfl

/-- A sequence that has a result: both parts have one. -/
theorem bind_eq_ok {r : Except ε α} {f : α → Except ε β} {b : β} :
    r >>= f = .ok b ↔ ∃ a, r = .ok a ∧ f a = .ok b := by
  cases r with
  | ok a => simp
  | error e =>
    constructor
    · intro h
      cases h
    · rintro ⟨_, h, _⟩
      cases h

/-- A sequence that fails: one of the parts does. -/
theorem bind_eq_error {r : Except ε α} {f : α → Except ε β} {e : ε} :
    r >>= f = .error e ↔ r = .error e ∨ ∃ a, r = .ok a ∧ f a = .error e := by
  cases r with
  | ok a => simp
  | error e' =>
    constructor
    · intro h
      cases h
      exact Or.inl rfl
    · rintro (h | ⟨_, h, _⟩)
      · cases h
        rfl
      · cases h

/-- `toOption` keeps results. -/
theorem toOption_eq_some {r : Except ε α} {a : α} : r.toOption = some a ↔ r = .ok a := by
  cases r <;> simp [Except.toOption]

/-- A result has the property `P`, a failure the property `E`. -/
def Outcome (P : α → Prop) (E : ε → Prop) : Except ε α → Prop
  | .ok a => P a
  | .error e => E e

variable {P Q : α → Prop} {E F : ε → Prop}

theorem outcome_ok {a : α} : Outcome P E (.ok a) ↔ P a := Iff.rfl

theorem outcome_error {e : ε} : Outcome P E (.error e) ↔ E e := Iff.rfl

namespace Outcome

/-- What is known of a result. -/
theorem of_ok {r : Except ε α} (h : Outcome P E r) {a : α} (hr : r = .ok a) : P a := by
  rw [hr] at h
  exact h

/-- What is known of a failure. -/
theorem of_error {r : Except ε α} (h : Outcome P E r) {e : ε} (hr : r = .error e) : E e := by
  rw [hr] at h
  exact h

/-- Outcomes can be weakened. -/
theorem mono {r : Except ε α} (h : Outcome P E r) (hP : ∀ a, P a → Q a) (hE : ∀ e, E e → F e) :
    Outcome Q F r := by
  cases r with
  | ok a => exact hP a h
  | error e => exact hE e h

theorem bind {Q : β → Prop} {r : Except ε α} {f : α → Except ε β} (hr : Outcome P E r)
    (hf : ∀ a, r = .ok a → P a → Outcome Q E (f a)) : Outcome Q E (r >>= f) := by
  cases r with
  | ok a => exact hf a rfl hr
  | error e => exact hr

/-- A loop: the invariant may speak of what was done (`pre`) and of what is to come (`post`). -/
theorem foldlM_split {l : List α} {f : σ → α → Except ε σ} {I : List α → List α → σ → Prop}
    (hstep : ∀ pre x post s, pre ++ x :: post = l → I pre (x :: post) s →
      Outcome (I (pre ++ [x]) post) E (f s x)) {s : σ} (hs : I [] l s) :
    Outcome (I l []) E (l.foldlM f s) := by
  -- from any point of the list on
  suffices hrun : ∀ pre post s, pre ++ post = l → I pre post s →
      Outcome (I l []) E (post.foldlM f s) from hrun [] l s rfl hs
  intro pre post
  induction post generalizing pre with
  | nil =>
    intro s hl hI
    obtain rfl : pre = l := by simpa using hl
    exact hI
  | cons x post ih =>
    intro s hl hI
    rw [List.foldlM_cons]
    refine (hstep pre x post s hl hI).bind fun s' _ hs' => ?_
    exact ih (pre ++ [x]) s' (by simpa using hl) hs'

/-- A loop and its invariant. -/
theorem foldlM {l : List α} {f : σ → α → Except ε σ} {I : σ → Prop}
    (hstep : ∀ s, ∀ x ∈ l, I s → Outcome I E (f s x)) {s : σ} (hs : I s) :
    Outcome I E (l.foldlM f s) := by
  refine foldlM_split (I := fun _ _ => I) (fun pre x post s hl hI => ?_) hs
  exact hstep s x (by simp [← hl]) hI

/-- If each result has a property, all in the list have it. -/
theorem mapM {Q : β → Prop} {l : List α} {f : α → Except ε β}
    (hf : ∀ x ∈ l, Outcome Q E (f x)) : Outcome (fun ys => ∀ y ∈ ys, Q y) E (l.mapM f) := by
  induction l with
  | nil =>
    show ∀ y ∈ ([] : List β), Q y
    simp
  | cons x l ih =>
    rw [List.mapM_cons]
    refine (hf x (by simp)).bind fun y _ hy => ?_
    refine (ih fun x' hx' => hf x' (by simp [hx'])).bind fun ys _ hys => ?_
    show ∀ y' ∈ y :: ys, Q y'
    simpa using ⟨hy, hys⟩

end Outcome

/-! ## Two computations side by side -/

/-- The second computation gives what the first gives, up to `R`; where the first fails with an
error of `E`, it may do anything. -/
def Simulates (R : α → β → Prop) (E : ε → Prop) : Except ε α → Except ε β → Prop
  | .ok a, r' => ∃ b, r' = .ok b ∧ R a b
  | .error e, r' => E e ∨ r' = .error e

namespace Simulates

variable {R : α → β → Prop} {E : ε → Prop} {r : Except ε α} {r' : Except ε β}

theorem ok {a : α} {b : β} (h : R a b) : Simulates R E (.ok a) (.ok b) := ⟨b, rfl, h⟩

theorem error (e : ε) : Simulates R E (.error e) (.error e) := Or.inr rfl

/-- A result of the first is one of the second. -/
theorem of_ok (h : Simulates R E r r') {a : α} (hr : r = .ok a) : ∃ b, r' = .ok b ∧ R a b := by
  rw [hr] at h
  exact h

/-- A failure that is not excused is one of both. -/
theorem of_error (h : Simulates R E r r') {e : ε} (hr : r = .error e) (he : ¬ E e) :
    r' = .error e := by
  rw [hr] at h
  exact h.resolve_left he

/-- What the relation says of the first value. -/
theorem outcome {P : α → Prop} (h : Simulates R E r r') (hP : ∀ a b, R a b → P a) :
    Outcome P (fun _ => True) r := by
  cases r with
  | ok a =>
    obtain ⟨b, _, hab⟩ := h
    exact hP a b hab
  | error e => trivial

/-- The relation can be weakened. -/
theorem mono {S : α → β → Prop} (h : Simulates R E r r') (hRS : ∀ a b, R a b → S a b) :
    Simulates S E r r' := by
  cases r with
  | ok a =>
    obtain ⟨b, hb, hab⟩ := h
    exact ⟨b, hb, hRS a b hab⟩
  | error e => exact h

/-- Results that have to be equal. -/
theorem eq {s : Except ε α} (h : Simulates (· = ·) (fun _ => False) r s) : s = r := by
  cases r with
  | ok a =>
    obtain ⟨b, hb, rfl⟩ := h
    exact hb
  | error e => exact h.resolve_left id

/-- Sequences go along with each other part by part. -/
theorem bind {α' β' : Type} {S : α' → β' → Prop} {f : α → Except ε α'} {f' : β → Except ε β'}
    (h : Simulates R E r r') (hf : ∀ a b, R a b → Simulates S E (f a) (f' b)) :
    Simulates S E (r >>= f) (r' >>= f') := by
  cases r with
  | ok a =>
    obtain ⟨b, rfl, hab⟩ := h
    exact hf a b hab
  | error e =>
    rcases h with he | rfl
    · exact Or.inl he
    · exact Or.inr rfl

/-- What two computations have in common is the same of both. -/
theorem map_eq {γ : Type*} {F : α → γ} {G : β → γ}
    (h : Simulates (fun a b => F a = G b) (fun _ => False) r r') : r.map F = r'.map G := by
  cases r with
  | ok a =>
    obtain ⟨b, rfl, hab⟩ := h
    exact congrArg Except.ok hab
  | error e =>
    rw [h.resolve_left id]
    rfl

/-- A list and its image, element by element. -/
theorem mapM {γ δ α' β' : Type} {R : α' → β' → Prop} {f : γ → Except ε α'} {g : δ → Except ε β'}
    {φ : γ → δ} {l : List γ} (hall : ∀ x ∈ l, Simulates R E (f x) (g (φ x))) :
    Simulates (List.Forall₂ R) E (l.mapM f) ((l.map φ).mapM g) := by
  induction l with
  | nil => exact ok .nil
  | cons x l ih =>
    rw [List.map_cons, List.mapM_cons, List.mapM_cons]
    -- the first element, then the others
    refine (hall x (by simp)).bind fun a b hab => ?_
    refine (ih fun y hy => hall y (by simp [hy])).bind fun as bs hall => ?_
    exact ok (.cons hab hall)

end Simulates

/-- Finitely many bounds have a common one. -/
theorem exists_bound_forall_mem {α : Type} {P : α → Nat → Prop} {l : List α}
    (h : ∀ x ∈ l, ∃ bound, ∀ n, bound ≤ n → P x n) : ∃ bound, ∀ n, bound ≤ n → ∀ x ∈ l, P x n := by
  induction l with
  | nil => exact ⟨0, fun n _ x hx => (nomatch hx)⟩
  -- the greater of two bounds is enough for both
  | cons x l ih =>
    obtain ⟨b₁, h₁⟩ := h x (by simp)
    obtain ⟨b₂, h₂⟩ := ih fun y hy => h y (by simp [hy])
    refine ⟨max b₁ b₂, fun n hn y hy => ?_⟩
    rcases List.mem_cons.mp hy with rfl | hy
    · exact h₁ n (by omega)
    · exact h₂ n (by omega) y hy

end Guthi
