import Guthi.FileTrack.Windows

/-!
# Guthi — the listener's arrays and the directories

The arrays are as long as `tracked_directory` was when its size was read. This module says which
calls of `TrackFile` and `TrackFolder` the listener survives without an index that is out of
bounds.

* `Counts` — what holds in every run; `Fits` — the listener, left alone, stays in bounds
  (`staysInBounds_iff`);
* `Timely` — the condition on a call; `fits_step_iff` — it is exact;
* `index_in_bounds` — the theorem about runs.
-/

namespace Guthi

namespace WinTracker

/-- The index at which the listener is about to use the arrays. -/
def nextIndex (s : WinTracker) : Option Nat :=
  match s.pc with
  | .queue c (_ + 1) => some c
  | .visit j (_ + 1) _ => some j
  | _ => none

/-- The index that the listener uses next lies inside of the arrays. -/
def IndexInBounds (s : WinTracker) : Prop := ∀ i ∈ s.nextIndex, i < s.slots.length

/-- The listener, if it runs alone from now on, never indexes an array out of bounds. -/
def StaysInBounds (s : WinTracker) : Prop :=
  ∀ n, Throughout step IndexInBounds s (List.replicate n .listen)

/-! ## The invariant -/

/-- In every run: there are at least as many directories as elements, and an iteration has at
least these before it. -/
structure Counts (s : WinTracker) : Prop where
  slots_le : s.slots.length ≤ s.trackedDirectory.length
  at_pc : match s.pc with
    | .allocate n => n ≤ s.trackedDirectory.length
    | .queue c ahead => c ≤ s.slots.length ∧ s.slots.length ≤ c + ahead
    | .visit j ahead _ => j ≤ s.slots.length ∧ s.slots.length ≤ j + ahead
    | _ => True
  unset : s.locked = true → s.resetTracking = false

/-- The next test of `reset_tracking` leads to a new allocation, or the arrays are long enough. -/
def ResetCovered (s : WinTracker) : Prop :=
  s.resetTracking = true ∨ s.trackedDirectory.length ≤ s.slots.length

/-- The same when `stop_listening` is tested before, which may lead to the end. -/
def Covered (s : WinTracker) : Prop := s.stopListening = true ∨ s.ResetCovered

/-- The invariant: what the arrays must be long enough for, at each point of the listener. -/
def Fits (s : WinTracker) : Prop :=
  match s.pc with
  | .check | .poll => s.Covered
  | .testReset | .lock => s.ResetCovered
  | .measure | .stopped => True
  | .allocate n => s.trackedDirectory.length ≤ n
  | .clear | .begin => s.trackedDirectory.length ≤ s.slots.length
  | .queue c ahead => c + ahead ≤ s.slots.length ∧ s.Covered
  | .visit j ahead _ => j + ahead ≤ s.slots.length ∧ s.Covered

/-- The invariant of the counts holds at the start. -/
theorem counts_start (tracked : List DirHandle) : (start tracked).Counts :=
  ⟨Nat.zero_le _, trivial, fun h => (nomatch h)⟩

/-- At the start a reset is asked for. -/
theorem fits_start (tracked : List DirHandle) : (start tracked).Fits :=
  Or.inr (Or.inl rfl)

/-- An insertion does not take the lock. -/
theorem locked_insert (s : WinTracker) (handle : DirHandle) (ahead : Bool) :
    (s.insert handle ahead).locked = s.locked := by
  unfold WinTracker.insert
  split_ifs with hmem hahead
  · rfl
  · unfold locked
    cases s.pc <;> rfl
  · rfl

/-- An insertion keeps the counts. -/
theorem Counts.insert {s : WinTracker} (h : s.Counts) (handle : DirHandle) (ahead : Bool) :
    (s.insert handle ahead).Counts := by
  have hkept := locked_insert s handle ahead
  unfold WinTracker.insert at hkept ⊢
  -- known, in front of the iterator, or behind it
  split_ifs at hkept ⊢ with hmem hahead
  · exact h
  · have hpc := h.at_pc
    refine ⟨Nat.le_succ_of_le h.slots_le, ?_, fun hl => h.unset (hkept ▸ hl)⟩
    cases hs : s.pc <;> simp only [hs, ListenPc.lengthen, List.length_cons] at hpc ⊢ <;> omega
  · have hpc := h.at_pc
    refine ⟨Nat.le_succ_of_le h.slots_le, ?_, h.unset⟩
    cases hs : s.pc <;> simp only [hs, List.length_cons] at hpc ⊢ <;> omega

/-- A step of the listener keeps the counts. -/
theorem Counts.listen {s s' : WinTracker} (h : s.Counts) (hs' : s.listen = some s') :
    s'.Counts := by
  have hslots := h.slots_le
  have hat := h.at_pc
  cases listens_of_listen hs' with
  | leave hpc => exact ⟨hslots, trivial, fun hl => (nomatch hl)⟩
  | stay hpc => exact ⟨hslots, trivial, fun hl => (nomatch hl)⟩
  | reset hpc => exact ⟨Nat.zero_le _, trivial, fun hl => (nomatch hl)⟩
  | goOn hpc => exact ⟨hslots, trivial, fun hl => (nomatch hl)⟩
  | measure hpc => exact ⟨hslots, Nat.le_refl _, fun hl => (nomatch hl)⟩
  | allocate n hpc =>
    rw [hpc] at hat
    exact ⟨by rwa [List.length_replicate], trivial, fun hl => (nomatch hl)⟩
  | clear hpc => exact ⟨hslots, trivial, fun hl => (nomatch hl)⟩
  | begin hpc =>
    refine ⟨hslots, ?_, fun hl => (nomatch hl)⟩
    show 0 ≤ s.slots.length ∧ s.slots.length ≤ 0 + s.trackedDirectory.length
    omega
  | queued c hpc => exact ⟨hslots, trivial, fun hl => (nomatch hl)⟩
  | queue c ahead slot hpc hslot =>
    have hc := (List.getElem?_eq_some_iff.mp hslot).1
    simp only [hpc] at hat
    refine ⟨by rwa [List.length_set], ?_, fun hl => (nomatch hl)⟩
    simp only [List.length_set]
    omega
  | quit hpc => exact ⟨hslots, trivial, fun hl => (nomatch hl)⟩
  | poll hpc => exact ⟨hslots, trivial, fun hl => (nomatch hl)⟩
  | interrupt hpc => exact ⟨hslots, trivial, fun hl => (nomatch hl)⟩
  | lock hpc hreset =>
    refine ⟨hslots, ?_, fun _ => hreset⟩
    show 0 ≤ s.slots.length ∧ s.slots.length ≤ 0 + s.trackedDirectory.length
    omega
  | visited j relisten hpc =>
    cases relisten <;> exact ⟨hslots, trivial, fun hl => (nomatch hl)⟩
  | skip j ahead relisten slot hpc hslot hpending =>
    have hj := (List.getElem?_eq_some_iff.mp hslot).1
    have hlocked : s.locked = true := by rw [locked, hpc]
    simp only [hpc] at hat
    refine ⟨hslots, ?_, fun _ => h.unset hlocked⟩
    show j + 1 ≤ s.slots.length ∧ s.slots.length ≤ j + 1 + ahead
    omega
  | notify j ahead relisten slot hpc hslot hpending =>
    have hj := (List.getElem?_eq_some_iff.mp hslot).1
    have hlocked : s.locked = true := by rw [locked, hpc]
    simp only [hpc] at hat
    refine ⟨by rwa [List.length_set], ?_, fun _ => h.unset hlocked⟩
    simp only [List.length_set]
    omega

/-- Every action keeps the counts. -/
theorem Counts.step {s s' : WinTracker} {a : WinAction} (h : s.Counts)
    (hs' : s.step a = some s') : s'.Counts := by
  cases a with
  | trackKnown =>
    unfold WinTracker.step at hs'
    split_ifs at hs' with hlocked
    cases hs'
    exact ⟨h.slots_le, h.at_pc, fun hl => absurd hl hlocked⟩
  | trackFile handle ahead =>
    unfold WinTracker.step at hs'
    split_ifs at hs' with hlocked
    cases hs'
    have hinsert := h.insert handle ahead
    refine ⟨hinsert.slots_le, hinsert.at_pc, fun hl => absurd ?_ hlocked⟩
    rwa [← locked_insert s handle ahead]
  | trackFolder handle ahead =>
    cases hs'
    exact h.insert handle ahead
  | stop =>
    cases hs'
    exact ⟨h.slots_le, h.at_pc, h.unset⟩
  | listen => exact h.listen hs'
  | complete j =>
    change s.complete j = some s' at hs'
    unfold WinTracker.complete at hs'
    split at hs'
    · cases hs'
    · split_ifs at hs'
      cases hs'
      have hat := h.at_pc
      refine ⟨by rw [List.length_set]; exact h.slots_le, ?_, h.unset⟩
      simp only [List.length_set]
      exact hat

/-! ## The condition on calls -/

/-- A directory that is added now, ahead of an iteration under way or not, is not indexed before
the flags are tested again. -/
def InPlace (s : WinTracker) (ahead : Bool) : Prop :=
  match s.pc with
  | .check | .testReset | .measure | .poll | .lock | .stopped => True
  | .queue _ _ | .visit _ _ _ => ahead = false
  | .allocate _ | .clear | .begin => False

/-- The arrays are going to be allocated anew, or the listener ends. Behind the test of
`stop_listening` only a request for a reset counts. -/
def Announced (s : WinTracker) : Prop :=
  match s.pc with
  | .measure | .stopped => True
  | .testReset | .lock => s.resetTracking = true
  | _ => s.stopListening = true ∨ s.resetTracking = true

/-- A call adds no directory, or it does so while the listener is about to test one of the flags, to
read the size or to take the lock, or is in the middle of an iteration and past the place of the
new directory; `TrackFolder` moreover only if a reset has been asked for already, or the end in
time for the next test of it. -/
def Timely (s : WinTracker) : WinAction → Prop
  | .trackFile handle ahead => handle ∈ s.trackedDirectory ∨ s.InPlace ahead
  | .trackFolder handle ahead =>
    handle ∈ s.trackedDirectory ∨ s.InPlace ahead ∧ s.Announced
  | _ => True

/-- A new directory, with (`r`) or without a request for a reset. -/
theorem fits_insert_iff {s : WinTracker} (h : s.Counts) (hfits : s.Fits) {handle : DirHandle}
    (hnew : handle ∉ s.trackedDirectory) (ahead r : Bool) :
    Fits { s.insert handle ahead with resetTracking := s.resetTracking || r } ↔
      s.InPlace ahead ∧ (s.Announced ∨ r = true) := by
  obtain ⟨tracked, reset, stop, slots, pc⟩ := s
  have hslots := h.slots_le
  have hat := h.at_pc
  unfold WinTracker.insert
  rw [if_neg hnew]
  unfold Fits at hfits ⊢
  unfold InPlace Announced
  -- the arrays are not longer than the table was, so one more directory does not fit
  cases pc <;> cases ahead <;>
    simp only [ListenPc.lengthen, Covered, ResetCovered, List.length_cons, Bool.or_eq_true] at *
  all_goals grind

/-- A step of the listener keeps the arrays long enough. -/
theorem Fits.listen {s s' : WinTracker} (h : s.Fits) (hs' : s.listen = some s') : s'.Fits := by
  unfold Fits at h
  cases listens_of_listen hs' with
  | leave hpc hstop => trivial
  | stay hpc hstop =>
    simp only [hpc, Covered, hstop, Bool.false_eq_true, false_or] at h
    exact h
  | reset hpc hreset => trivial
  | goOn hpc hreset =>
    simp only [hpc, ResetCovered, hreset, Bool.false_eq_true, false_or] at h
    exact h
  | measure hpc => exact Nat.le_refl _
  | allocate n hpc =>
    simp only [hpc] at h
    show s.trackedDirectory.length ≤ (List.replicate n _).length
    rwa [List.length_replicate]
  | clear hpc =>
    simp only [hpc] at h
    exact h
  | begin hpc =>
    simp only [hpc] at h
    exact ⟨by rwa [Nat.zero_add], Or.inr (Or.inr h)⟩
  | queued c hpc =>
    simp only [hpc] at h
    exact h.2
  | queue c ahead slot hpc hslot =>
    simp only [hpc, Covered, ResetCovered] at h
    simp only [Fits, Covered, ResetCovered, List.length_set]
    exact ⟨by omega, h.2⟩
  | quit hpc hstop => exact Or.inl hstop
  | poll hpc hstop =>
    simp only [hpc, Covered, hstop, Bool.false_eq_true, false_or] at h
    exact h
  | interrupt hpc hreset => exact Or.inr (Or.inl hreset)
  | lock hpc hreset =>
    simp only [hpc, ResetCovered, hreset, Bool.false_eq_true, false_or] at h
    exact ⟨by rwa [Nat.zero_add], Or.inr (Or.inr h)⟩
  | visited j relisten hpc =>
    simp only [hpc] at h
    cases relisten <;> exact h.2
  | skip j ahead relisten slot hpc hslot hpending =>
    simp only [hpc, Covered, ResetCovered] at h
    simp only [Fits, Covered, ResetCovered]
    exact ⟨by omega, h.2⟩
  | notify j ahead relisten slot hpc hslot hpending =>
    simp only [hpc, Covered, ResetCovered] at h
    simp only [Fits, Covered, ResetCovered, List.length_set]
    exact ⟨by omega, h.2⟩

/-- Asking for a reset or for the end takes nothing away. -/
theorem Fits.of_flags {s t : WinTracker} (h : s.Fits) (hslots : t.slots.length = s.slots.length)
    (htracked : t.trackedDirectory = s.trackedDirectory) (hpc : t.pc = s.pc)
    (hstop : s.stopListening = true → t.stopListening = true)
    (hreset : s.resetTracking = true → t.resetTracking = true) : t.Fits := by
  have hresetCovered : s.ResetCovered → t.ResetCovered := by
    unfold ResetCovered
    rw [hslots, htracked]
    exact Or.imp hreset id
  have hcovered : s.Covered → t.Covered := Or.imp hstop hresetCovered
  unfold Fits at h ⊢
  rw [hpc, htracked, hslots]
  split <;> simp_all

/-- The arrays stay long enough exactly if the call is timely. -/
theorem fits_step_iff {s s' : WinTracker} {a : WinAction} (h : s.Counts) (hfits : s.Fits)
    (hs' : s.step a = some s') : s'.Fits ↔ s.Timely a := by
  cases a with
  | listen => exact iff_of_true (hfits.listen hs') trivial
  | stop =>
    cases hs'
    exact iff_of_true (hfits.of_flags rfl rfl rfl (fun _ => rfl) id) trivial
  | complete j =>
    refine iff_of_true ?_ trivial
    change s.complete j = some s' at hs'
    unfold WinTracker.complete at hs'
    split at hs'
    · cases hs'
    · split_ifs at hs'
      cases hs'
      exact hfits.of_flags (List.length_set) rfl rfl id id
  | trackKnown =>
    unfold WinTracker.step at hs'
    split_ifs at hs'
    cases hs'
    exact iff_of_true (hfits.of_flags rfl rfl rfl id fun _ => rfl) trivial
  | trackFile handle ahead =>
    unfold WinTracker.step at hs'
    split_ifs at hs'
    cases hs'
    by_cases hmem : handle ∈ s.trackedDirectory
    · refine iff_of_true ?_ (Or.inl hmem)
      unfold WinTracker.insert
      rw [if_pos hmem]
      exact hfits.of_flags rfl rfl rfl id fun _ => rfl
    · -- the first one asks for a reset, the folder does not
      have hiff := fits_insert_iff h hfits hmem ahead true
      rw [Bool.or_true] at hiff
      rw [hiff]
      unfold Timely
      simp [hmem]
  | trackFolder handle ahead =>
    cases hs'
    by_cases hmem : handle ∈ s.trackedDirectory
    · refine iff_of_true ?_ (Or.inl hmem)
      unfold WinTracker.insert
      rwa [if_pos hmem]
    · have hiff := fits_insert_iff h hfits hmem ahead false
      have hreset : (s.insert handle ahead).resetTracking = s.resetTracking := by
        unfold WinTracker.insert
        rw [if_neg hmem]
      rw [Bool.or_false, ← hreset] at hiff
      rw [show s.insert handle ahead = { s.insert handle ahead with } from rfl, hiff]
      unfold Timely
      simp [hmem]

/-! ## The listener alone -/

/-- A listener that stays in bounds is in bounds. -/
theorem StaysInBounds.inBounds {s : WinTracker} (h : s.StaysInBounds) : s.IndexInBounds := h 0

/-- Its next state stays in bounds too. -/
theorem StaysInBounds.next {s s' : WinTracker} (h : s.StaysInBounds)
    (hs' : s.listen = some s') : s'.StaysInBounds := fun n => (h (n + 1)).2 s' hs'

/-- Long arrays keep the index in bounds. -/
theorem Fits.inBounds {s : WinTracker} (h : s.Fits) : s.IndexInBounds := by
  intro i hi
  unfold Fits at h
  unfold nextIndex at hi
  split at hi
  case h_1 c ahead hpc =>
    cases hi
    simp only [hpc] at h
    omega
  case h_2 j ahead relisten hpc =>
    cases hi
    simp only [hpc] at h
    omega
  case h_3 => cases hi

/-- Long arrays keep the listener in bounds, as long as it is left alone. -/
theorem staysInBounds_of_fits {s : WinTracker} (h : s.Fits) : s.StaysInBounds := by
  intro n
  induction n generalizing s with
  | zero => exact h.inBounds
  | succ n ih => exact ⟨h.inBounds, fun s' hs' => ih (h.listen hs')⟩

/-- The same directories, flags and lengths. -/
structure SameSizes (s s' : WinTracker) : Prop where
  tracked : s'.trackedDirectory = s.trackedDirectory
  length : s'.slots.length = s.slots.length
  reset : s'.resetTracking = s.resetTracking
  stop : s'.stopListening = s.stopListening

/-- The cover depends on the sizes and the flags alone. -/
theorem SameSizes.covered {s s' : WinTracker} (h : SameSizes s s') : s'.Covered ↔ s.Covered := by
  unfold Covered ResetCovered
  rw [h.tracked, h.length, h.reset, h.stop]

/-- The listener takes the next directory of an iteration, if its index is in bounds. -/
theorem listen_queue {s : WinTracker} {c ahead : Nat} (hpc : s.pc = .queue c (ahead + 1))
    (hc : c < s.slots.length) :
    ∃ s', s.listen = some s' ∧ s'.pc = .queue (c + 1) ahead ∧ SameSizes s s' := by
  unfold listen
  simp only [hpc, List.getElem?_eq_getElem hc]
  exact ⟨_, rfl, rfl, rfl, List.length_set, rfl, rfl⟩

/-- One event is visited inside of the arrays. -/
theorem listen_visit {s : WinTracker} {j ahead : Nat} {relisten : Bool}
    (hpc : s.pc = .visit j (ahead + 1) relisten) (hj : j < s.slots.length) :
    ∃ s' again, s.listen = some s' ∧ s'.pc = .visit (j + 1) ahead again ∧ SameSizes s s' := by
  unfold listen
  simp only [hpc, List.getElem?_eq_getElem hj]
  split
  · exact ⟨_, _, rfl, rfl, rfl, rfl, rfl, rfl⟩
  · exact ⟨_, _, rfl, rfl, rfl, List.length_set, rfl, rfl⟩

/-- The listener, left alone, polls with the same table once the iteration is over, and the
iteration was not longer than the arrays. -/
theorem StaysInBounds.queue {ahead : Nat} {s : WinTracker} {c : Nat}
    (h : s.StaysInBounds) (hpc : s.pc = .queue c ahead) (hc : c ≤ s.slots.length) :
    c + ahead ≤ s.slots.length ∧
      ∃ s', s'.StaysInBounds ∧ s'.pc = .poll ∧ SameSizes s s' := by
  -- on the directories that are still ahead of the iterator
  induction ahead generalizing s c with
  | zero =>
    have hlisten : s.listen = some { s with pc := .poll } := by rw [listen, hpc]
    exact ⟨hc, _, h.next hlisten, rfl, rfl, rfl, rfl, rfl⟩
  | succ ahead ih =>
    have hlt : c < s.slots.length := h.inBounds c (by rw [nextIndex, hpc]; rfl)
    obtain ⟨s', hs', hpc', hsame⟩ := listen_queue hpc hlt
    obtain ⟨hle, s'', hstay, hpoll, hsame'⟩ := ih (h.next hs') hpc' (by rw [hsame.length]; omega)
    rw [hsame.length] at hle
    exact ⟨by omega, s'', hstay, hpoll, hsame'.tracked.trans hsame.tracked,
      hsame'.length.trans hsame.length, hsame'.reset.trans hsame.reset,
      hsame'.stop.trans hsame.stop⟩

/-- The same for the loop over the events: it ends at a test or at the next poll. -/
theorem StaysInBounds.visit {ahead : Nat} {s : WinTracker} {j : Nat} {relisten : Bool}
    (h : s.StaysInBounds) (hpc : s.pc = .visit j ahead relisten) (hj : j ≤ s.slots.length) :
    j + ahead ≤ s.slots.length ∧
      ∃ s', s'.StaysInBounds ∧ (s'.pc = .check ∨ s'.pc = .poll) ∧ SameSizes s s' := by
  -- on the directories that are still ahead of the iterator
  induction ahead generalizing s j relisten with
  | zero =>
    have hlisten : s.listen = some { s with pc := if relisten then .check else .poll } := by
      rw [listen, hpc]
    refine ⟨hj, _, h.next hlisten, ?_, rfl, rfl, rfl, rfl⟩
    cases relisten
    · exact Or.inr rfl
    · exact Or.inl rfl
  | succ ahead ih =>
    have hlt : j < s.slots.length := h.inBounds j (by rw [nextIndex, hpc]; rfl)
    obtain ⟨s', again, hs', hpc', hsame⟩ := listen_visit hpc hlt
    obtain ⟨hle, s'', hstay, hend, hsame'⟩ := ih (h.next hs') hpc' (by rw [hsame.length]; omega)
    rw [hsame.length] at hle
    exact ⟨by omega, s'', hstay, hend, hsame'.tracked.trans hsame.tracked,
      hsame'.length.trans hsame.length, hsame'.reset.trans hsame.reset,
      hsame'.stop.trans hsame.stop⟩

/-- Where the iteration begins, the arrays have a slot for every directory. -/
theorem StaysInBounds.begin {s : WinTracker} (h : s.StaysInBounds) (hpc : s.pc = .begin) :
    s.trackedDirectory.length ≤ s.slots.length := by
  have hlisten : s.listen = some { s with pc := .queue 0 s.trackedDirectory.length } := by
    rw [listen, hpc]
  have hle := ((h.next hlisten).queue rfl (Nat.zero_le _)).1
  rwa [Nat.zero_add] at hle

/-- Behind the poll, a reset is asked for or the arrays are long enough. -/
theorem StaysInBounds.lock {s : WinTracker} (h : s.StaysInBounds) (hpc : s.pc = .lock) :
    s.ResetCovered := by
  by_contra hcovered
  simp only [ResetCovered, not_or, Bool.not_eq_true] at hcovered
  obtain ⟨hreset, hlong⟩ := hcovered
  have hlisten : s.listen = some { s with pc := .visit 0 s.trackedDirectory.length false } := by
    simp only [listen, hpc, hreset, Bool.false_eq_true, if_false]
  have hle := ((h.next hlisten).visit rfl (Nat.zero_le _)).1
  rw [Nat.zero_add] at hle
  exact hlong hle

/-- At the poll, also the end may have been asked for. -/
theorem StaysInBounds.poll {s : WinTracker} (h : s.StaysInBounds) (hpc : s.pc = .poll) :
    s.Covered := by
  by_cases hstop : s.stopListening = true
  · exact Or.inl hstop
  · have hlisten : s.listen = some { s with pc := .lock } := by
      simp only [listen, hpc, if_neg hstop]
    exact Or.inr ((h.next hlisten).lock rfl)

/-- At the test of the reset flag, a reset is asked for or the arrays are long enough. -/
theorem StaysInBounds.testReset {s : WinTracker} (h : s.StaysInBounds)
    (hpc : s.pc = .testReset) : s.ResetCovered := by
  by_contra hcovered
  simp only [ResetCovered, not_or, Bool.not_eq_true] at hcovered
  obtain ⟨hreset, hlong⟩ := hcovered
  have hlisten : s.listen = some { s with pc := .begin } := by
    simp only [listen, hpc, hreset, Bool.false_eq_true, if_false]
  exact hlong ((h.next hlisten).begin rfl)

/-- At the test of the stop flag, also the end may have been asked for. -/
theorem StaysInBounds.check {s : WinTracker} (h : s.StaysInBounds) (hpc : s.pc = .check) :
    s.Covered := by
  by_cases hstop : s.stopListening = true
  · exact Or.inl hstop
  · have hlisten : s.listen = some { s with pc := .testReset } := by
      simp only [listen, hpc, if_neg hstop]
    exact Or.inr ((h.next hlisten).testReset rfl)

/-- Left alone, the listener stays in bounds exactly if the arrays are long enough until the next
test of the flags that is going to see a request. -/
theorem staysInBounds_iff {s : WinTracker} (h : s.Counts) : s.StaysInBounds ↔ s.Fits := by
  refine ⟨fun hstay => ?_, staysInBounds_of_fits⟩
  have hat := h.at_pc
  unfold Fits
  -- the listener is followed to where it uses the arrays next
  cases hpc : s.pc with
  | check => exact hstay.check hpc
  | testReset => exact hstay.testReset hpc
  | poll => exact hstay.poll hpc
  | lock => exact hstay.lock hpc
  | measure => trivial
  | stopped => trivial
  | begin => exact hstay.begin hpc
  | clear =>
    have hlisten : s.listen = some { s with resetTracking := false, pc := .begin } := by
      rw [listen, hpc]
    exact (hstay.next hlisten).begin rfl
  | allocate n =>
    have hlisten : s.listen = some
        { s with slots := List.replicate n ⟨true, false, 0⟩, pc := .clear } := by
      rw [listen, hpc]
    have hnext : WinTracker.listen { s with
        slots := List.replicate n ⟨true, false, 0⟩, pc := .clear } = some { s with
        slots := List.replicate n ⟨true, false, 0⟩, resetTracking := false, pc := .begin } := rfl
    have hle := ((hstay.next hlisten).next hnext).begin rfl
    rwa [List.length_replicate] at hle
  | queue c ahead =>
    simp only [hpc] at hat
    obtain ⟨hle, s', hstay', hpoll, hsame⟩ := hstay.queue hpc hat.1
    exact ⟨hle, hsame.covered.mp (hstay'.poll hpoll)⟩
  | visit j ahead relisten =>
    simp only [hpc] at hat
    obtain ⟨hle, s', hstay', hend, hsame⟩ := hstay.visit hpc hat.1
    exact ⟨hle, hsame.covered.mp (hend.elim hstay'.check hstay'.poll)⟩

/-! ## Runs -/

/-- Let any directories be tracked when the listener starts, and any calls and steps follow. If
every call is timely, the index is in bounds whenever the listener uses the arrays. And this is
exact: the listener, left alone after any step of the run, stays in bounds if and only if every
call was timely. -/
theorem index_in_bounds (tracked : List DirHandle) (as : List WinAction) :
    (EachStep step Timely (start tracked) as → Throughout step IndexInBounds (start tracked) as) ∧
    (EachStep step Timely (start tracked) as ↔
      Throughout step StaysInBounds (start tracked) as) := by
  -- one step is exact, so the run is
  have hiff : Throughout step Fits (start tracked) as ↔ EachStep step Timely (start tracked) as :=
    throughout_iff_eachStep (J := Counts) (P := Fits) (C := Timely)
      (fun _ _ _ h hs' => h.step hs') (fun _ _ _ h hfits hs' => fits_step_iff h hfits hs')
      (counts_start tracked) (fits_start tracked) as
  refine ⟨fun htimely => (hiff.mpr htimely).imp fun _ h => h.inBounds, fun htimely => ?_, ?_⟩
  · exact (hiff.mpr htimely).imp fun _ => staysInBounds_of_fits
  · intro hstay
    apply hiff.mp
    refine (hstay.and_invariant (J := Counts) (fun _ _ _ h hs' => h.step hs')
      (counts_start tracked)).imp ?_
    rintro s ⟨hcounts, h⟩
    exact (staysInBounds_iff hcounts).mp h

/-- `TrackFile` adds a directory between the reading of the size and the clearing of the flag: no
array has an element for it. The same happens when `TrackFolder` adds one while the listener
waits for the lock. -/
theorem reset_request_lost :
    ¬ Throughout step IndexInBounds (start [])
      (List.replicate 3 .listen ++ .trackFile 1 false :: List.replicate 3 .listen) ∧
    ¬ Throughout step IndexInBounds (start [])
      (List.replicate 8 .listen ++ [.trackFolder 1 false, .listen]) := by
  refine ⟨fun h => ?_, fun h => ?_⟩
  · exact absurd (h.last rfl 0 rfl) (by decide)
  · exact absurd (h.last rfl 0 rfl) (by decide)

end WinTracker

end Guthi
