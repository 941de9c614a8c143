import Guthi.FileTrack.Windows

/-!
# Guthi — outstanding requests of the Windows listener

Every time the listener comes to its outer loop, it queues a request for each directory whose
`completed` flag is set. The flag is set when the arrays are allocated, and again when a request
has completed; it is never cleared.

* `AllCompleted` — so the flags are set in every state, and every directory is queued again;
* `AtMostOne` — the property; `atMostOne_step_iff` — the step that may break it;
* `one_request_iff` — what a run has to be like, and a condition on the polling passes alone.
-/

namespace Guthi

namespace WinTracker

/-- No directory has more than one request outstanding. -/
def AtMostOne (s : WinTracker) : Prop := ∀ slot ∈ s.slots, slot.outstanding ≤ 1

/-- If the listener comes to a directory in its outer loop, the earlier requests for the
directory have completed. -/
def Requeues (s : WinTracker) (a : WinAction) : Prop :=
  match a, s.pc with
  | .listen, .queue c (_ + 1) => ∀ slot ∈ s.slots[c]?, slot.outstanding = 0
  | _, _ => True

/-- If a polling pass makes the listener go round again, no request is outstanding any more. -/
def PassComplete (s : WinTracker) (a : WinAction) : Prop :=
  match a, s.pc with
  | .listen, .visit _ 0 true => ∀ slot ∈ s.slots, slot.outstanding = 0
  | _, _ => True

/-- The flag of every directory is set. -/
def AllCompleted (s : WinTracker) : Prop := ∀ slot ∈ s.slots, slot.completed = true

/-! ## The steps of the others -/

/-- What the other threads and the system may do while the listener stands still. -/
structure Beside (s s' : WinTracker) : Prop where
  pc : s'.pc = s.pc ∨ s'.pc = s.pc.lengthen
  stop : s.stopListening = true → s'.stopListening = true
  reset : s.resetTracking = true → s'.resetTracking = true
  slots : s'.slots = s.slots ∨ ∃ j slot, s.slots[j]? = some slot ∧ s'.slots = s.slots.set j
    { slot with pending := false, outstanding := slot.outstanding - 1 }

theorem beside_insert (s : WinTracker) (handle : DirHandle) (ahead : Bool) :
    Beside s (s.insert handle ahead) := by
  -- at the end of the list, in front of the listener, or behind it
  unfold insert
  split_ifs
  · exact ⟨Or.inl rfl, id, id, Or.inl rfl⟩
  · exact ⟨Or.inr rfl, id, id, Or.inl rfl⟩
  · exact ⟨Or.inl rfl, id, id, Or.inl rfl⟩

/-- The others do not move the listener but for its list getting longer, and take back no wish. -/
theorem beside_step {s s' : WinTracker} {a : WinAction} (hs' : s.step a = some s')
    (ha : a ≠ .listen) : Beside s s' := by
  cases a with
  | listen => exact absurd rfl ha
  | stop =>
    cases hs'
    exact ⟨Or.inl rfl, fun _ => rfl, id, Or.inl rfl⟩
  | trackKnown =>
    unfold step at hs'
    split_ifs at hs'
    cases hs'
    exact ⟨Or.inl rfl, id, fun _ => rfl, Or.inl rfl⟩
  | trackFile handle ahead =>
    unfold step at hs'
    split_ifs at hs'
    cases hs'
    have hinsert := beside_insert s handle ahead
    exact ⟨hinsert.pc, hinsert.stop, fun _ => rfl, hinsert.slots⟩
  | trackFolder handle ahead =>
    cases hs'
    exact beside_insert s handle ahead
  | complete j =>
    change s.complete j = some s' at hs'
    unfold complete at hs'
    split at hs'
    · cases hs'
    · next slot hslot =>
      split_ifs at hs'
      cases hs'
      exact ⟨Or.inl rfl, id, id, Or.inr ⟨j, slot, hslot, rfl⟩⟩

/-! ## The flags -/

theorem AllCompleted.set {s : WinTracker} (h : s.AllCompleted) {j : Nat} {x : Slot}
    (hx : x.completed = true) : ∀ slot ∈ s.slots.set j x, slot.completed = true := by
  intro slot hslot
  rcases List.mem_or_eq_of_mem_set hslot with hold | rfl
  · exact h slot hold
  · exact hx

/-- No flag is ever reset. -/
theorem AllCompleted.step {s s' : WinTracker} {a : WinAction} (h : s.AllCompleted)
    (hs' : s.step a = some s') : s'.AllCompleted := by
  by_cases ha : a = .listen
  · subst ha
    -- the steps of the listener that touch the slots
    cases listens_of_listen hs' with
    | reset => exact fun slot hslot => (nomatch hslot)
    | allocate n =>
      intro slot hslot
      rw [List.eq_of_mem_replicate hslot]
    | queue c ahead slot hpc hslot =>
      have hcompleted := h slot (List.mem_of_getElem? hslot)
      apply h.set
      rw [if_pos hcompleted]
      exact hcompleted
    | notify j ahead relisten slot => exact h.set rfl
    | _ => exact h
  · rcases (beside_step hs' ha).slots with hsame | ⟨j, slot, hslot, hset⟩
    · unfold AllCompleted
      rwa [hsame]
    · unfold AllCompleted
      rw [hset]
      exact h.set (x := { slot with pending := false, outstanding := slot.outstanding - 1 })
        (h slot (List.mem_of_getElem? hslot))

/-! ## The requests -/

/-- A slot that gets no more requests keeps the bound. -/
theorem AtMostOne.set {s : WinTracker} (h : s.AtMostOne) {j : Nat} {slot x : Slot}
    (hslot : s.slots[j]? = some slot) (hx : x.outstanding ≤ slot.outstanding) :
    ∀ y ∈ s.slots.set j x, y.outstanding ≤ 1 := by
  intro y hy
  rcases List.mem_or_eq_of_mem_set hy with hold | rfl
  · exact h y hold
  · exact hx.trans (h slot (List.mem_of_getElem? hslot))

theorem atMostOne_step_iff {s s' : WinTracker} {a : WinAction} (hall : s.AllCompleted)
    (h : s.AtMostOne) (hs' : s.step a = some s') : s'.AtMostOne ↔ s.Requeues a := by
  by_cases ha : a = .listen
  · subst ha
    cases listens_of_listen hs' with
    -- the one step that issues a request
    | queue c ahead slot hpc hslot =>
      have hc := (List.getElem?_eq_some_iff.mp hslot).1
      simp only [Requeues, hpc, hslot, Option.mem_some_iff, forall_eq']
      rw [if_pos (hall slot (List.mem_of_getElem? hslot))]
      constructor
      · -- the slot of this step has one more than before
        intro h'
        have hone := h' _ (List.mem_set hc _)
        simp only at hone
        omega
      · intro hzero y hy
        rcases List.mem_or_eq_of_mem_set hy with hold | rfl
        · exact h y hold
        · simp only [hzero]
          omega
    | reset hpc => exact iff_of_true (fun y hy => (nomatch hy)) (by simp only [Requeues, hpc])
    | allocate n hpc =>
      refine iff_of_true (fun y hy => ?_) (by simp only [Requeues, hpc])
      rw [List.eq_of_mem_replicate hy]
      exact Nat.zero_le 1
    | notify j ahead relisten slot hpc hslot =>
      exact iff_of_true (h.set hslot (Nat.le_refl _)) (by simp only [Requeues, hpc])
    | leave hpc | stay hpc | goOn hpc | measure hpc | clear hpc | begin hpc | queued c hpc
    | quit hpc | poll hpc | interrupt hpc | lock hpc | visited j relisten hpc
    | skip j ahead relisten slot hpc =>
      exact iff_of_true h (by simp only [Requeues, hpc])
  · refine iff_of_true ?_ (by cases a <;> trivial)
    unfold AtMostOne
    rcases (beside_step hs' ha).slots with hsame | ⟨j, slot, hslot, hset⟩
    · rwa [hsame]
    · rw [hset]
      exact h.set hslot (Nat.sub_le _ _)

/-! ## Passes of the polling loop -/

/-- No request is outstanding for the directories from index `c` on. -/
def IdleFrom (c : Nat) (slots : List Slot) : Prop :=
  ∀ (i : Nat) (slot : Slot), c ≤ i → slots[i]? = some slot → slot.outstanding = 0

/-- A directory without a request gets none from the others. -/
theorem Beside.idleFrom {s s' : WinTracker} (h : Beside s s') {c : Nat}
    (hidle : IdleFrom c s.slots) : IdleFrom c s'.slots := by
  rcases h.slots with hsame | ⟨j, slot, hslot, hset⟩
  · rwa [hsame]
  · rw [hset]
    intro i y hi hy
    rw [List.getElem?_set] at hy
    split_ifs at hy with hji hlt
    · -- the slot of the completed request
      subst hji
      cases hy
      show slot.outstanding - 1 = 0
      rw [hidle j slot hi hslot]
    · exact hidle i y hi hy

/-- If the listener goes round its outer loop without a reset, no request is outstanding for the
directories it has still to come to. -/
def Settled (s : WinTracker) : Prop :=
  match s.pc with
  | .check => s.stopListening = true ∨ s.resetTracking = true ∨ IdleFrom 0 s.slots
  | .testReset => s.resetTracking = true ∨ IdleFrom 0 s.slots
  | .clear | .begin => IdleFrom 0 s.slots
  | .queue c _ => IdleFrom c s.slots
  | _ => True

theorem settled_start (tracked : List DirHandle) : (start tracked).Settled := Or.inr (Or.inl rfl)

theorem Settled.requeues {s : WinTracker} (h : s.Settled) (a : WinAction) : s.Requeues a := by
  unfold Requeues
  split
  · -- the listener stands at a directory
    next c ahead hpc =>
    simp only [Settled, hpc] at h
    exact fun slot hslot => h c slot (Nat.le_refl c) hslot
  · trivial

theorem Settled.listen {s s' : WinTracker} (h : s.Settled) (hpass : s.PassComplete .listen)
    (hs' : s.listen = some s') : s'.Settled := by
  unfold Settled at h
  cases listens_of_listen hs' with
  | leave | reset | measure | queued | poll | lock | skip | notify => trivial
  | stay hpc hstop =>
    simp only [hpc, hstop, Bool.false_eq_true, false_or] at h
    exact h
  | goOn hpc hreset =>
    simp only [hpc, hreset, Bool.false_eq_true, false_or] at h
    exact h
  | allocate n hpc =>
    intro i slot hi hslot
    rw [List.eq_of_mem_replicate (List.mem_of_getElem? hslot)]
  | clear hpc =>
    simp only [hpc] at h
    exact h
  | begin hpc =>
    simp only [hpc] at h
    exact h
  | queue c ahead slot hpc hslot =>
    simp only [hpc] at h
    intro i y hi hy
    rw [List.getElem?_set_ne (by omega)] at hy
    exact h i y (by omega) hy
  | quit hpc hstop => exact Or.inl hstop
  | interrupt hpc hreset => exact Or.inr (Or.inl hreset)
  | visited j relisten hpc =>
    -- what leads back to the outer loop is the end of a pass
    cases relisten with
    | false => trivial
    | true =>
      simp only [PassComplete, hpc] at hpass
      exact Or.inr (Or.inr fun i slot _ hslot => hpass slot (List.mem_of_getElem? hslot))

theorem Settled.beside {s s' : WinTracker} (h : s.Settled) (hbeside : Beside s s') :
    s'.Settled := by
  unfold Settled at h ⊢
  rcases hbeside.pc with hpc | hpc
  · -- the listener stands where it stood
    rw [hpc]
    cases hs : s.pc <;> simp only [hs] at h ⊢
    case check => exact h.imp hbeside.stop (Or.imp hbeside.reset hbeside.idleFrom)
    case testReset => exact h.imp hbeside.reset hbeside.idleFrom
    all_goals exact hbeside.idleFrom h
  · rw [hpc]
    cases hs : s.pc <;> simp only [hs, ListenPc.lengthen] at h ⊢
    case check => exact h.imp hbeside.stop (Or.imp hbeside.reset hbeside.idleFrom)
    case testReset => exact h.imp hbeside.reset hbeside.idleFrom
    all_goals exact hbeside.idleFrom h

theorem Settled.step {s s' : WinTracker} {a : WinAction} (h : s.Settled)
    (hpass : s.PassComplete a) (hs' : s.step a = some s') : s'.Settled := by
  by_cases ha : a = .listen
  · subst ha
    exact h.listen hpass hs'
  · exact h.beside (beside_step hs' ha)

/-! ## Runs -/

/-- Let any directories be tracked when the listener starts, and let the system complete requests
in any order. In every state of a run each directory has at most one request outstanding, exactly
if the earlier request for a directory has always completed when the outer loop comes to the
directory again. It is enough that a polling pass that leads back to the outer loop leaves no
request outstanding. -/
theorem one_request_iff (tracked : List DirHandle) (as : List WinAction) :
    (Throughout step AtMostOne (start tracked) as ↔ EachStep step Requeues (start tracked) as) ∧
    (EachStep step PassComplete (start tracked) as →
      Throughout step AtMostOne (start tracked) as) := by
  have hiff : Throughout step AtMostOne (start tracked) as ↔
      EachStep step Requeues (start tracked) as :=
    throughout_iff_eachStep (J := AllCompleted) (P := AtMostOne) (C := Requeues)
      (fun _ _ _ h hs' => h.step hs') (fun _ _ _ hall h hs' => atMostOne_step_iff hall h hs')
      (fun _ h => absurd h List.not_mem_nil) (fun _ h => absurd h List.not_mem_nil) as
  refine ⟨hiff, fun hpass => hiff.mpr ?_⟩
  -- `Settled` holds throughout, and at the list it is the condition
  exact hpass.of_invariant (P := Settled) (fun _ _ _ h hc hs' => h.step hc hs')
    (fun _ a h => h.requeues a) (settled_start tracked)

/-- Two directories are tracked, and the request for the first one completes: the listener queues
another one for the second as well. -/
theorem second_request_outstanding :
    ¬ Throughout step AtMostOne (start [1, 2])
      (List.replicate 11 .listen ++ .complete 0 :: List.replicate 8 .listen) := by
  intro h
  exact absurd (h.last rfl ⟨true, true, 2⟩ (by decide)) (by decide)

end WinTracker

end Guthi
