import Mathlib.Tactic

/-!
# Guthi — runs of a step function

A system is a step function `σ → α → Option σ`: the action either leads to a state, or ends the
run (it is not enabled, or the program stops).

* `Throughout step P s as` — `P` holds in every state of the run of `as` from `s`;
* `EachStep step C s as` — every step that is taken meets the condition `C`, which is read in
  the state before the step; `EachTry step C s as` — so does a step that ends the run;
* `EachStep.of_invariant`, `EachStep.try_of_invariant` — from one condition on the steps to another;
* `throughout_of_invariant` — what every step preserves holds throughout every run;
* `throughout_of_eachStep` — a property that steps under `C` preserve holds throughout every run
  of such steps; `throughout_iff_eachStep` — exactly then, if no other step preserves it;
* `costAlong step cost s as` — what the steps cost together, and `potential_le` — a potential that
  no step raises by more than its cost stays below that;
* `CanReach step A P s` — actions from `A` can lead from `s` to a state with `P`; an invariant that
  excludes `P` excludes this (`not_canReach`).
-/

namespace Guthi

variable {σ α : Type*} (step : σ → α → Option σ)

/-- The property holds now and after every step of the run. -/
def Throughout (P : σ → Prop) : σ → List α → Prop
  | s, [] => P s
  | s, a :: as => P s ∧ ∀ s', step s a = some s' → Throughout P s' as

/-- Every step of the run meets the condition. -/
def EachStep (C : σ → α → Prop) : σ → List α → Prop
  | _, [] => True
  | s, a :: as => ∀ s', step s a = some s' → C s a ∧ EachStep C s' as

/-- Every step that the run comes to meets the condition, whether or not it is taken. -/
def EachTry (C : σ → α → Prop) : σ → List α → Prop
  | _, [] => True
  | s, a :: as => C s a ∧ ∀ s', step s a = some s' → EachTry C s' as

variable {step} {P J : σ → Prop} {C : σ → α → Prop}

/-- A condition on the action alone is met by every run of such actions. -/
theorem eachTry_of_forall {as : List α} (h : ∀ s, ∀ a ∈ as, C s a) (s : σ) :
    EachTry step C s as := by
  induction as generalizing s with
  | nil => trivial
  | cons a as ih =>
    refine ⟨h s a (by simp), fun s' _ => ?_⟩
    exact ih (fun s b hb => h s b (by simp [hb])) s'

/-- Conditions that agree on the actions of a run agree on the run. -/
theorem eachTry_congr {D : σ → α → Prop} {as : List α} (h : ∀ s, ∀ a ∈ as, C s a ↔ D s a) (s : σ) :
    EachTry step C s as ↔ EachTry step D s as := by
  induction as generalizing s with
  | nil => exact Iff.rfl
  | cons a as ih =>
    refine and_congr (h s a (by simp)) (forall₂_congr fun s' _ => ?_)
    exact ih (fun s b hb => h s b (by simp [hb])) s'

/-- For a step that never fails: the first action, then the others. -/
theorem eachTry_cons_total {f : σ → α → σ} {s : σ} {a : α} {as : List α} :
    EachTry (fun s a => some (f s a)) C s (a :: as) ↔
      C s a ∧ EachTry (fun s a => some (f s a)) C (f s a) as := by
  show (C s a ∧ ∀ s', some (f s a) = some s' → _) ↔ _
  simp only [Option.some.injEq, forall_eq']

/-- For a system whose every action leads to a state, a run in two parts. -/
theorem eachTry_append {f : σ → α → σ} {s : σ} {as bs : List α} :
    EachTry (fun s a => some (f s a)) C s (as ++ bs) ↔
      EachTry (fun s a => some (f s a)) C s as ∧
      EachTry (fun s a => some (f s a)) C (as.foldl f s) bs := by
  induction as generalizing s with
  | nil => exact (and_iff_right trivial).symm
  | cons a as ih =>
    rw [List.cons_append, List.foldl_cons, eachTry_cons_total, eachTry_cons_total, ih, and_assoc]

/-- In such a system, a condition on the actions alone. -/
theorem eachStep_total_iff {f : σ → α → σ} {D : α → Prop} {s : σ} {as : List α} :
    EachStep (fun s a => some (f s a)) (fun _ a => D a) s as ↔ ∀ a ∈ as, D a := by
  induction as generalizing s with
  | nil => simp [EachStep]
  | cons a as ih =>
    show (∀ s', some (f s a) = some s' → D a ∧ _) ↔ _
    simp only [Option.some.injEq, forall_eq', ih, List.forall_mem_cons]

/-- A step that succeeds and meets the condition, in front of a run that does. -/
theorem EachStep.cons {s s' : σ} {a : α} {as : List α} (hs' : step s a = some s') (ha : C s a)
    (has : EachStep step C s' as) : EachStep step C s (a :: as) := by
  intro s'' hs''
  rw [hs', Option.some.injEq] at hs''
  subst hs''
  exact ⟨ha, has⟩

/-- Steps under `C` preserve `P`, and a step from a state with `P` meets `D`. -/
theorem EachStep.of_invariant {D : σ → α → Prop}
    (hstep : ∀ s a s', P s → C s a → step s a = some s' → P s') (hD : ∀ s a, P s → D s a) {s : σ}
    (hs : P s) {as : List α} (has : EachStep step C s as) : EachStep step D s as := by
  induction as generalizing s with
  | nil => trivial
  | cons a as ih =>
    intro s' hs'
    obtain ⟨ha, has'⟩ := has s' hs'
    exact ⟨hD s a hs, ih (hstep s a s' hs ha hs') has'⟩

/-- The same for `D` on every step that is tried. -/
theorem EachStep.try_of_invariant {D : σ → α → Prop}
    (hstep : ∀ s a s', P s → C s a → step s a = some s' → P s') (hD : ∀ s a, P s → D s a) {s : σ}
    (hs : P s) {as : List α} (has : EachStep step C s as) : EachTry step D s as := by
  induction as generalizing s with
  | nil => trivial
  | cons a as ih =>
    refine ⟨hD s a hs, fun s' hs' => ?_⟩
    obtain ⟨ha, has'⟩ := has s' hs'
    exact ih (hstep s a s' hs ha hs') has'

/-- The rule of invariants: steps under `C` preserve `P`, so a run of such steps holds it
throughout. -/
theorem throughout_of_eachStep
    (hstep : ∀ s a s', P s → C s a → step s a = some s' → P s') {s : σ} (hs : P s)
    {as : List α} (has : EachStep step C s as) : Throughout step P s as := by
  induction as generalizing s with
  | nil => exact hs
  | cons a as ih =>
    refine ⟨hs, fun s' hs' => ?_⟩
    obtain ⟨ha, has'⟩ := has s' hs'
    exact ih (hstep s a s' hs ha hs') has'

/-- What every step preserves holds in every run. -/
theorem throughout_of_invariant (hJ : ∀ s a s', J s → step s a = some s' → J s') {s : σ}
    (hs : J s) (as : List α) : Throughout step J s as := by
  induction as generalizing s with
  | nil => exact hs
  | cons a as ih => exact ⟨hs, fun s' hs' => ih (hJ s a s' hs hs')⟩

/-- A run holds throughout what it holds at its start. -/
theorem Throughout.start {s : σ} {as : List α} (h : Throughout step P s as) : P s := by
  cases as with
  | nil => exact h
  | cons a as => exact h.1

/-- What a run holds throughout holds throughout its second part. -/
theorem Throughout.rest {s t : σ} {as bs : List α} (h : Throughout step P s (as ++ bs))
    (hrun : as.foldlM step s = some t) : Throughout step P t bs := by
  induction as generalizing s with
  | nil =>
    cases hrun
    exact h
  | cons a as ih =>
    rw [List.foldlM_cons] at hrun
    obtain ⟨s', hs', hrest⟩ := Option.bind_eq_some_iff.mp hrun
    exact ih (h.2 s' hs') hrest

/-- The property holds in the last state of a run that does not end early. -/
theorem Throughout.last {s t : σ} {as : List α} (h : Throughout step P s as)
    (hrun : as.foldlM step s = some t) : P t := by
  rw [← List.append_nil as] at h
  exact (h.rest hrun).start

/-- What holds throughout can be weakened. -/
theorem Throughout.imp {Q : σ → Prop} (hPQ : ∀ s, P s → Q s) {s : σ} {as : List α}
    (h : Throughout step P s as) : Throughout step Q s as := by
  induction as generalizing s with
  | nil => exact hPQ s h
  | cons a as ih => exact ⟨hPQ s h.1, fun s' hs' => ih (h.2 s' hs')⟩

/-- What every step preserves holds beside any property of the run. -/
theorem Throughout.and_invariant (hJ : ∀ s a s', J s → step s a = some s' → J s') {s : σ}
    (hs : J s) {as : List α} (h : Throughout step P s as) :
    Throughout step (fun s => J s ∧ P s) s as := by
  induction as generalizing s with
  | nil => exact ⟨hs, h⟩
  | cons a as ih => exact ⟨⟨hs, h.1⟩, fun s' hs' => ih (hJ s a s' hs hs') (h.2 s' hs')⟩

/-- `J` is an invariant of every run; under it, a step preserves `P` exactly if it meets `C`. -/
theorem throughout_iff_eachStep (hJ : ∀ s a s', J s → step s a = some s' → J s')
    (hstep : ∀ s a s', J s → P s → step s a = some s' → (P s' ↔ C s a)) {s : σ} (hjs : J s)
    (hs : P s) (as : List α) : Throughout step P s as ↔ EachStep step C s as := by
  induction as generalizing s with
  | nil => exact ⟨fun _ => trivial, fun _ => hs⟩
  | cons a as ih =>
    refine ⟨fun h s' hs' => ?_, fun h => ⟨hs, fun s' hs' => ?_⟩⟩
    · -- one way: `P` holds after the step, so the step met `C`
      have hrest := h.2 s' hs'
      exact ⟨(hstep s a s' hjs hs hs').mp hrest.start,
        (ih (hJ s a s' hjs hs') hrest.start).mp hrest⟩
    · -- the other: the step met `C`, so `P` holds after it
      obtain ⟨ha, has'⟩ := h s' hs'
      have hs'P := (hstep s a s' hjs hs hs').mpr ha
      exact (ih (hJ s a s' hjs hs') hs'P).mpr has'

/-! ## What a run costs -/

variable (step) in
/-- What the steps of a run cost together, each in the state that it finds. -/
def costAlong (cost : σ → α → Nat) : σ → List α → Nat
  | _, [] => 0
  | s, a :: as => match step s a with
    | some s' => cost s a + costAlong cost s' as
    | none => 0

/-- A potential that no step raises by more than its cost is not raised by more than the cost of
the run. -/
theorem potential_le {cost : σ → α → Nat} {φ : σ → Nat}
    (hstep : ∀ s a s', J s → C s a → step s a = some s' → J s' ∧ φ s' ≤ φ s + cost s a) {s t : σ}
    (hs : J s) {as : List α} (has : EachStep step C s as) (hrun : as.foldlM step s = some t) :
    φ t ≤ φ s + costAlong step cost s as := by
  induction as generalizing s with
  | nil =>
    cases hrun
    exact Nat.le_add_right _ _
  | cons a as ih =>
    rw [List.foldlM_cons] at hrun
    obtain ⟨s', hs', hrest⟩ := Option.bind_eq_some_iff.mp hrun
    obtain ⟨ha, has'⟩ := has s' hs'
    obtain ⟨hjs', hle⟩ := hstep s a s' hs ha hs'
    -- the first step raises it by at most its cost, the rest by at most theirs
    have hlater := ih hjs' has' hrest
    rw [costAlong, hs']
    dsimp only
    omega

/-! ## What can still happen -/

section

variable (step) in
/-- Some actions with `A` lead from here to a state with `P`. -/
inductive CanReach (A : α → Prop) (P : σ → Prop) : σ → Prop
  | here {s : σ} (hs : P s) : CanReach A P s
  | next {s s' : σ} {a : α} (ha : A a) (hs' : step s a = some s') (h : CanReach A P s') :
      CanReach A P s

variable {A B : α → Prop}

/-- With more actions at least as much can be reached. -/
theorem CanReach.mono (hAB : ∀ a, A a → B a) {s : σ} (h : CanReach step A P s) :
    CanReach step B P s := by
  induction h with
  | here hs => exact .here hs
  | next ha hs' _ ih => exact .next (hAB _ ha) hs' ih

/-- What the actions preserve and excludes `P` excludes that they reach `P`. -/
theorem not_canReach (hJ : ∀ s a s', J s → A a → step s a = some s' → J s')
    (hP : ∀ s, J s → ¬ P s) {s : σ} (hs : J s) : ¬ CanReach step A P s := by
  intro h
  induction h with
  | here hPs => exact hP _ hs hPs
  | next ha hs' _ ih => exact ih (hJ _ _ _ hs ha hs')

end

end Guthi
