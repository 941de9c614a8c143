import Guthi.Lib.Fallible

/-!
# Loops with fuel

`whileLoop outOfFuel cond body fuel s` is a `while` loop whose body can fail or leave the loop. It
gives up with the error `outOfFuel` after `fuel` iterations, so a loop that never ends gives up
whatever the fuel.

* `whileLoop_next`, `whileLoop_leave`, `whileLoop_fails`, `whileLoop_stop` — one iteration;
  `whileLoop_stuck` — one that leads back to where it began;
* `whileLoop_mono` — more fuel does not change a result;
* `whileLoop_outcome` — an invariant of the body is one of the loop;
* `whileLoop_error`, `LoopSteps.run` — a loop fails in some iteration; up to there it is a chain of
  `LoopSteps`, which `LoopSteps.map` carries over to the body of another state;
* `Simulates.whileLoop` — bodies that simulate each other make loops that do;
* `ComesTo`, `whileLoop_comesTo` — what a computation comes to with enough fuel.
-/

namespace Guthi

variable {ε σ τ : Type}

/-- How an iteration ends: the loop goes on from a state, or is left in it. -/
inductive LoopStep (σ : Type) where
  | next (s : σ)
  | leave (s : σ)
deriving DecidableEq, Repr

/-- The same end of a body on another state. -/
def LoopStep.map (f : σ → τ) : LoopStep σ → LoopStep τ
  | .next s => .next (f s)
  | .leave s => .leave (f s)

/-- `while (cond) body`, with as many tests of the condition as there is fuel. -/
def whileLoop (outOfFuel : ε) (cond : σ → Bool) (body : σ → Except ε (LoopStep σ)) :
    Nat → σ → Except ε σ
  | 0, _ => .error outOfFuel
  | fuel + 1, s =>
    if cond s then
      body s >>= fun
        | .next s' => whileLoop outOfFuel cond body fuel s'
        | .leave s' => .ok s'
    else .ok s

section

variable {outOfFuel : ε} {cond : σ → Bool} {body : σ → Except ε (LoopStep σ)} {fuel : Nat}
  {s s' : σ}

/-- One test: the condition fails, or the body goes on, leaves the loop or fails. -/
theorem whileLoop_stop (hcond : cond s = false) :
    whileLoop outOfFuel cond body (fuel + 1) s = .ok s := by
  rw [whileLoop, hcond]
  rfl

theorem whileLoop_next (hcond : cond s = true) (hbody : body s = .ok (.next s')) :
    whileLoop outOfFuel cond body (fuel + 1) s = whileLoop outOfFuel cond body fuel s' := by
  rw [whileLoop, hcond, hbody]
  rfl

theorem whileLoop_leave (hcond : cond s = true) (hbody : body s = .ok (.leave s')) :
    whileLoop outOfFuel cond body (fuel + 1) s = .ok s' := by
  rw [whileLoop, hcond, hbody]
  rfl

theorem whileLoop_fails {e : ε} (hcond : cond s = true) (hbody : body s = .error e) :
    whileLoop outOfFuel cond body (fuel + 1) s = .error e := by
  rw [whileLoop, hcond, hbody]
  rfl

/-- A state that the body does not change. -/
theorem whileLoop_stuck (hcond : cond s = true) (hbody : body s = .ok (.next s)) :
    whileLoop outOfFuel cond body fuel s = .error outOfFuel := by
  induction fuel with
  | zero => rfl
  | succ fuel ih => rw [whileLoop_next hcond hbody, ih]

/-- A result does not change with more fuel. -/
theorem whileLoop_mono {r : Except ε σ} (hr : r ≠ .error outOfFuel) {more : Nat}
    (hmore : fuel ≤ more) (h : whileLoop outOfFuel cond body fuel s = r) :
    whileLoop outOfFuel cond body more s = r := by
  induction fuel generalizing more s with
  | zero => exact absurd h.symm hr
  | succ fuel ih =>
    obtain ⟨more, rfl⟩ := Nat.exists_eq_add_of_le' (Nat.one_le_of_lt hmore)
    rw [whileLoop] at h ⊢
    split_ifs at h ⊢ with hcond
    · -- the body does not see the fuel
      cases hbody : body s with
      | error e => rwa [hbody] at h
      | ok step =>
        rw [hbody] at h
        cases step with
        | next s' => exact ih (by omega) h
        | leave s' => exact h
    · exact h

/-- `k` iterations, after each of which the loop goes on. -/
inductive LoopSteps (cond : σ → Bool) (body : σ → Except ε (LoopStep σ)) : Nat → σ → σ → Prop where
  | refl {s : σ} : LoopSteps cond body 0 s s
  | step {k : Nat} {s s₁ s' : σ} (hcond : cond s = true) (hbody : body s = .ok (.next s₁))
      (hrest : LoopSteps cond body k s₁ s') : LoopSteps cond body (k + 1) s s'

/-- Iterations cost their number in fuel. -/
theorem LoopSteps.run {k : Nat} (h : LoopSteps cond body k s s') (outOfFuel : ε) (fuel : Nat) :
    whileLoop outOfFuel cond body (fuel + k) s = whileLoop outOfFuel cond body fuel s' := by
  induction h with
  | refl => rfl
  | step hcond hbody _ ih => exact (whileLoop_next hcond hbody).trans ih

/-- Iterations that look the same from `f s`, as long as `I` holds. -/
theorem LoopSteps.map {I : σ → Prop} {f : σ → σ} {k : Nat} (h : LoopSteps cond body k s s')
    (hbody : ∀ s s', I s → cond s = true → body s = .ok (.next s') →
      I s' ∧ cond (f s) = true ∧ body (f s) = .ok (.next (f s'))) (hs : I s) :
    I s' ∧ LoopSteps cond body k (f s) (f s') := by
  induction h with
  | refl => exact ⟨hs, .refl⟩
  | step hcond hstep _ ih =>
    obtain ⟨hs₁, hcond', hstep'⟩ := hbody _ _ hs hcond hstep
    obtain ⟨hs', hrest⟩ := ih hs₁
    exact ⟨hs', .step hcond' hstep' hrest⟩

/-- The iteration in which a loop fails. -/
theorem whileLoop_error {e : ε} (he : e ≠ outOfFuel)
    (h : whileLoop outOfFuel cond body fuel s = .error e) : ∃ k rest s', fuel = rest + 1 + k ∧
      LoopSteps cond body k s s' ∧ cond s' = true ∧ body s' = .error e := by
  induction fuel generalizing s with
  | zero =>
    cases h
    exact absurd rfl he
  | succ fuel ih =>
    cases hcond : cond s with
    | false =>
      rw [whileLoop_stop hcond] at h
      cases h
    | true =>
      cases hbody : body s with
      | error e' =>
        rw [whileLoop_fails hcond hbody] at h
        cases h
        exact ⟨0, fuel, s, rfl, .refl, hcond, hbody⟩
      | ok step =>
        cases step with
        | leave s' =>
          rw [whileLoop_leave hcond hbody] at h
          cases h
        -- the body goes on, and the failure is further down
        | next s₁ =>
          rw [whileLoop_next hcond hbody] at h
          obtain ⟨k, rest, s', rfl, hsteps, hcond', hbody'⟩ := ih h
          exact ⟨k + 1, rest, s', rfl, .step hcond hbody hsteps, hcond', hbody'⟩

/-- An iteration keeps `I`, or leaves the loop with `P`. -/
def LoopStep.Keeps (I P : σ → Prop) : LoopStep σ → Prop
  | .next s => I s
  | .leave s => P s

/-- The rule of invariants: `I` at every test, `P` when the loop is left. -/
theorem whileLoop_outcome {I P : σ → Prop} {E : ε → Prop}
    (hbody : ∀ s, I s → cond s = true → Outcome (LoopStep.Keeps I P) E (body s))
    (hstop : ∀ s, I s → cond s = false → P s) (hfuel : E outOfFuel) (fuel : Nat) (hs : I s) :
    Outcome P E (whileLoop outOfFuel cond body fuel s) := by
  induction fuel generalizing s with
  | zero => exact hfuel
  | succ fuel ih =>
    cases hcond : cond s with
    | false =>
      rw [whileLoop_stop hcond]
      exact hstop s hs hcond
    | true =>
      have hstep := hbody s hs hcond
      rw [whileLoop, hcond]
      refine hstep.bind fun step _ hkeeps => ?_
      cases step with
      | next s' => exact ih hkeeps
      | leave s' => exact hkeeps

/-- Iterations that end in the same way, in related states. -/
def LoopStep.Rel (R : σ → τ → Prop) : LoopStep σ → LoopStep τ → Prop
  | .next s, .next t => R s t
  | .leave s, .leave t => R s t
  | _, _ => False

/-- Loops whose bodies go along with each other do so, round by round. -/
theorem Simulates.whileLoop {R : σ → τ → Prop} {E : ε → Prop} {cond' : τ → Bool}
    {body' : τ → Except ε (LoopStep τ)} (hcond : ∀ s t, R s t → cond s = cond' t)
    (hbody : ∀ s t, R s t → Simulates (LoopStep.Rel R) E (body s) (body' t)) (fuel : Nat) {t : τ}
    (hst : R s t) : Simulates R E (whileLoop outOfFuel cond body fuel s)
      (whileLoop outOfFuel cond' body' fuel t) := by
  induction fuel generalizing s t with
  | zero => exact Simulates.error outOfFuel
  | succ fuel ih =>
    rw [Guthi.whileLoop, Guthi.whileLoop, hcond s t hst]
    split_ifs
    · refine (hbody s t hst).bind fun step step' hrel => ?_
      -- both go on or both leave: `LoopStep.Rel` excludes the rest
      cases step <;> cases step'
      · exact ih hrel
      · exact hrel.elim
      · exact hrel.elim
      · exact Simulates.ok hrel
    · exact Simulates.ok hst

end

/-! ## Enough fuel -/

/-- With enough fuel the computation comes to `r`; with less it gives up. -/
structure ComesTo (outOfFuel : ε) (run : Nat → Except ε σ) (r : Except ε σ) : Prop where
  reaches : ∃ n, ∀ fuel, run (fuel + n) = r
  before : ∀ fuel, run fuel = .error outOfFuel ∨ run fuel = r

namespace ComesTo

variable {outOfFuel : ε} {run : Nat → Except ε σ} {r : Except ε σ}

/-- A run that needs one unit of fuel and no more. -/
theorem const (h : ∀ fuel, run (fuel + 1) = r) (hzero : run 0 = .error outOfFuel) :
    ComesTo outOfFuel run r where
  reaches := ⟨1, h⟩
  before fuel := by
    cases fuel with
    | zero => exact Or.inl hzero
    | succ fuel => exact Or.inr (h fuel)

/-- What is done with the result does not need fuel. -/
theorem bind (h : ComesTo outOfFuel run r) (f : σ → Except ε τ) :
    ComesTo outOfFuel (fun fuel => run fuel >>= f) (r >>= f) where
  reaches := by
    obtain ⟨n, hn⟩ := h.reaches
    exact ⟨n, fun fuel => congrArg (· >>= f) (hn fuel)⟩
  before fuel := by
    rcases h.before fuel with hfuel | hfuel
    · exact Or.inl (congrArg (· >>= f) hfuel)
    · exact Or.inr (congrArg (· >>= f) hfuel)

/-- A result of the computation is the one that it comes to. -/
theorem eq_of_ne {r' : Except ε σ} {fuel : Nat} (h : ComesTo outOfFuel run r)
    (hrun : run fuel = r') (hne : r' ≠ .error outOfFuel) : r' = r := by
  rcases h.before fuel with hfuel | hfuel
  · exact absurd (hrun.symm.trans hfuel) hne
  · exact hrun.symm.trans hfuel

/-- There is a result for some fuel exactly if the run comes to one. -/
theorem exists_ok_iff (h : ComesTo outOfFuel run r) :
    (∃ fuel x, run fuel = .ok x) ↔ ∃ x, r = .ok x := by
  constructor
  · rintro ⟨fuel, x, hx⟩
    exact ⟨x, (h.eq_of_ne hx (by simp)).symm⟩
  · rintro ⟨x, hx⟩
    obtain ⟨n, hn⟩ := h.reaches
    exact ⟨0 + n, x, (hn 0).trans hx⟩

/-- What holds for every fuel is what holds of the end, and of running out of fuel. -/
theorem forall_iff {P : Except ε σ → Prop} (h : ComesTo outOfFuel run r)
    (hfuel : P (.error outOfFuel)) : (∀ fuel, P (run fuel)) ↔ P r := by
  obtain ⟨n, hn⟩ := h.reaches
  constructor
  · intro hall
    rw [← hn 0]
    exact hall (0 + n)
  · intro hr fuel
    rcases h.before fuel with hrun | hrun
    · exact hrun ▸ hfuel
    · exact hrun ▸ hr

end ComesTo

/-- A loop that ends comes to what it ends with. -/
theorem whileLoop_comesTo {outOfFuel : ε} {cond : σ → Bool} {body : σ → Except ε (LoopStep σ)}
    {s : σ} {r : Except ε σ} {n : Nat}
    (h : ∀ fuel, whileLoop outOfFuel cond body (fuel + n) s = r) :
    ComesTo outOfFuel (fun fuel => whileLoop outOfFuel cond body fuel s) r where
  reaches := ⟨n, h⟩
  before fuel := by
    by_cases hfuel : whileLoop outOfFuel cond body fuel s = .error outOfFuel
    · -- too little fuel; else more of it changes nothing
      exact Or.inl hfuel
    · refine Or.inr ?_
      have hmore := whileLoop_mono hfuel (Nat.le_add_right fuel n) rfl
      exact hmore.symm.trans (h fuel)

end Guthi
