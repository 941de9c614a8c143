import Guthi.FileTrack.Listen

/-!
# Guthi — the inner loop round by round

The inner loop of `FileTracker::ListenForChanges` between two of its rounds, for models in which
other threads take steps in the meantime: what `read` has put over the beginning of the buffer,
and the position.

* `InnerLoop.run_visit`, `InnerLoop.run_leave` — these are the rounds of `Tracker.eventLoop`;
* `InnerLoop.Nameless` — all events are of tracked files, so the loop has come to one of the first
  two events, and `left` is what its next rounds can still come to;
* `goesOn_iff`, `event_eq`, `next_eq` — a round on such events: the first event leads to the
  second, and the second to itself.
-/

namespace Guthi

open Tracker BatchEvent

/-- The batch that was read, and `pos`. -/
structure InnerLoop where
  batch : List BatchEvent := []
  pos : Int := 0
deriving DecidableEq, Repr

namespace InnerLoop

/-- The `bytes_read` bytes. -/
def bytes (l : InnerLoop) : Bytes := l.batch.flatMap encode

/-- `pos < bytes_read` -/
def goesOn (l : InnerLoop) : Bool := decide (l.pos < (l.bytes.length : Int))

/-- The event at `storage.buffer + pos`, where `stale` is what the buffer held before. -/
def event (l : InnerLoop) (stale : Bytes) : Option InotifyEvent :=
  if l.pos < 0 then none
  else InotifyEvent.readAt (l.bytes ++ stale.drop l.bytes.length) l.pos.toNat

/-- `pos = sizeof(*event) + event->len` -/
def next (l : InnerLoop) (event : InotifyEvent) : InnerLoop :=
  { l with pos := toInt (InotifyEvent.size + event.len.toNat) }

variable {l : InnerLoop} {e : BatchEvent} {rest : List BatchEvent}

@[simp] theorem next_batch (l : InnerLoop) (event : InotifyEvent) :
    (l.next event).batch = l.batch := by
  rw [next]

/-- The loop of `Listen.lean`, from the position that it has come to. -/
def run (l : InnerLoop) (answer : Nat → TrackHandle) (stale : Bytes) (fuel : Nat)
    (visited : List (Int × InotifyEvent)) (t : Tracker) :
    Except ListenFault (Tracker × List (Int × InotifyEvent)) :=
  eventLoop answer (l.bytes ++ stale.drop l.bytes.length) l.bytes.length fuel l.pos visited t

section

variable {answer : Nat → TrackHandle} {stale : Bytes} {fuel : Nat}
  {visited : List (Int × InotifyEvent)} {t t' : Tracker} {event : InotifyEvent}

/-- One more round of it is a round of `l`. -/
theorem run_visit (hgo : l.goesOn = true) (hevent : l.event stale = some event)
    (hhandle : t.handleEvent event.wd event.len (answer visited.length) = some t') :
    l.run answer stale (fuel + 1) visited t =
      (l.next event).run answer stale fuel (visited ++ [(l.pos, event)]) t' := by
  unfold InnerLoop.event at hevent
  -- the position is not negative
  split_ifs at hevent with hneg
  rw [run, eventLoop, if_pos (of_decide_eq_true hgo), if_neg hneg, hevent]
  dsimp only
  rw [hhandle, run, bytes, bytes, next]

theorem run_leave (hgo : l.goesOn = false) :
    l.run answer stale (fuel + 1) visited t = .ok (t, visited) := by
  rw [run, eventLoop, if_neg (of_decide_eq_false hgo)]

end

/-! ## Events without a name -/

/-- The loop is at its start or behind an event of 16 bytes. -/
structure Nameless (l : InnerLoop) : Prop where
  names : ∀ e ∈ l.batch, e.name = []
  pos : l.pos = 0 ∨ l.pos = 16

/-- The events that the loop has not visited, except that it stays at the second one: what comes
behind that is never visited. -/
def left (l : InnerLoop) : List BatchEvent := if l.pos = 0 then l.batch else l.batch.drop 1

theorem length_left_le (l : InnerLoop) : l.left.length ≤ l.batch.length := by
  unfold left
  split_ifs
  · exact le_refl _
  · exact List.length_drop ▸ Nat.sub_le _ _

theorem header_len {e : BatchEvent} (he : e.name = []) : e.header.len = 0 := by
  rw [header, he]
  rfl

theorem length_encode_nameless {e : BatchEvent} (he : e.name = []) : e.encode.length = 16 := by
  rw [length_encode, he]
  rfl

theorem nameless_start {batch : List BatchEvent} (h : ∀ e ∈ batch, e.name = []) :
    Nameless { batch } :=
  ⟨h, Or.inl rfl⟩

theorem Nameless.length_bytes (h : l.Nameless) : l.bytes.length = 16 * l.batch.length := by
  obtain ⟨batch, pos⟩ := l
  have hnames := h.names
  clear h
  unfold bytes
  dsimp only at hnames ⊢
  -- sixteen bytes an event
  induction batch with
  | nil => rfl
  | cons e batch ih =>
    rw [List.forall_mem_cons] at hnames
    rw [List.flatMap_cons, List.length_append, length_encode_nameless hnames.1, ih hnames.2,
      List.length_cons]
    omega

/-- The loop goes on as long as it has an event left. -/
theorem Nameless.goesOn_iff (h : l.Nameless) : l.goesOn = true ↔ l.left ≠ [] := by
  rw [goesOn, decide_eq_true_iff, h.length_bytes, left, ← List.length_pos_iff]
  rcases h.pos with hpos | hpos
  · rw [if_pos hpos]
    omega
  · rw [if_neg (by omega), List.length_drop]
    omega

/-- It reads the first event that is left. -/
theorem Nameless.event_eq (h : l.Nameless) (hleft : l.left = e :: rest) (stale : Bytes) :
    l.event stale = some e.header := by
  obtain ⟨batch, pos⟩ := l
  unfold left at hleft
  unfold event bytes
  dsimp only at hleft ⊢
  rcases h.pos with rfl | rfl
  · -- at the start of the batch
    rw [if_pos rfl] at hleft
    subst hleft
    rw [if_neg (lt_irrefl 0), List.flatMap_cons, List.append_assoc]
    exact readAt_encode e [] _
  · rw [if_neg (by decide)] at hleft
    match batch, hleft with
    | e₀ :: _, rfl =>
      -- the second event begins where the first one ends
      have hfirst := length_encode_nameless (h.names e₀ (by simp))
      have hread := fun post => readAt_encode e e₀.encode post
      rw [hfirst] at hread
      rw [if_neg (by decide), List.flatMap_cons, List.flatMap_cons, List.append_assoc,
        List.append_assoc]
      exact hread _

theorem mem_of_left (hleft : l.left = e :: rest) : e ∈ l.batch := by
  have hmem : e ∈ l.left := by
    rw [hleft]
    exact List.mem_cons_self
  unfold left at hmem
  split_ifs at hmem
  · exact hmem
  · exact List.mem_of_mem_drop hmem

/-- Behind every round the loop is at the second event. -/
theorem next_eq (he : e.name = []) : l.next e.header = { l with pos := 16 } := by
  have hsize : toInt (InotifyEvent.size + (0 : UInt32).toNat) = 16 := by decide
  rw [next, header_len he, hsize]

theorem Nameless.next (h : l.Nameless) (he : e.name = []) : (l.next e.header).Nameless := by
  rw [next_eq he]
  exact ⟨h.names, Or.inr rfl⟩

theorem left_next (he : e.name = []) : (l.next e.header).left = l.batch.drop 1 := by
  rw [next_eq he]
  exact if_neg (show ¬ (16 : Int) = 0 by decide)

/-- Of a batch of one event nothing is left after a round. -/
theorem left_next_single (h : l.batch.length ≤ 1) (he : e.name = []) :
    (l.next e.header).left = [] := by
  rw [left_next he]
  exact List.drop_eq_nil_of_le h

/-- On two events or more the loop has no end. -/
theorem Nameless.goesOn_of_two (h : l.Nameless) (htwo : 2 ≤ l.batch.length) :
    l.goesOn = true := by
  rw [h.goesOn_iff, left, ← List.length_pos_iff]
  split_ifs
  · omega
  · rw [List.length_drop]
    omega

end InnerLoop

end Guthi
