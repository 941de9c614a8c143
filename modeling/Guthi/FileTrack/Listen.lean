import Guthi.FileTrack.Tracker
import Guthi.Lib.Bytes

/-!
# Guthi — reading a batch of inotify events

The body of the outer loop of `FileTracker::ListenForChanges` (`file_track_linux.cpp`): one
`read` into a buffer of 1024 bytes, which returns a batch of events of variable size, and the
inner loop that walks over them. After each event the position is set to the size of that
event, not advanced by it.

* `eventLoop_unroll` — what one round of the loop has done when the loop ends;
* `visitsBatch_iff` — a batch is visited event by event exactly if it holds one event and does
  not fill the buffer.
-/

namespace Guthi

/-- The fixed part of `struct inotify_event`. -/
structure InotifyEvent where
  wd : TrackHandle
  mask : UInt32
  cookie : UInt32
  len : UInt32
deriving DecidableEq, Repr

namespace InotifyEvent

/-- `sizeof(inotify_event)`, without the name. -/
def size : Nat := 16

/-- The event that begins at `pos` of the buffer; `none` if it does not lie inside. -/
def readAt (buffer : Bytes) (pos : Nat) : Option InotifyEvent := do
  let (wd, rest) ← takeLe32 (buffer.drop pos)
  let (mask, rest) ← takeLe32 rest
  let (cookie, rest) ← takeLe32 rest
  let (len, _) ← takeLe32 rest
  return { wd := wd.toInt32, mask := mask, cookie := cookie, len := len }

end InotifyEvent

/-- How reading and handling a batch can fail. -/
inductive ListenFault where
  | assertion
  | outOfBounds
  | outOfFuel
deriving DecidableEq, Repr

namespace Tracker

/-- The conversion of a `size_t` to `int`. -/
def toInt (n : Nat) : Int := Int.bmod n (2 ^ 32)

/-- `while (pos < bytes_read)`. The `k`-th event that is visited finds the answer of
`inotify_add_watch` in `answer k`. The loop returns the events it has visited, each with the
offset at which it read it. -/
def eventLoop (answer : Nat → TrackHandle) (storage : Bytes) (bytesRead : Int) :
    Nat → Int → List (Int × InotifyEvent) → Tracker →
      Except ListenFault (Tracker × List (Int × InotifyEvent))
  | 0, _, _, _ => .error .outOfFuel
  | fuel + 1, pos, visited, t =>
    if pos < bytesRead then
      if pos < 0 then .error .outOfBounds
      else match InotifyEvent.readAt storage pos.toNat with
        | none => .error .outOfBounds
        | some event =>
          match t.handleEvent event.wd event.len (answer visited.length) with
          | none => .error .assertion
          | some t' =>
            -- `pos = sizeof(*event) + event->len`
            eventLoop answer storage bytesRead fuel (toInt (InotifyEvent.size + event.len.toNat))
              (visited ++ [(pos, event)]) t'
    else .ok (t, visited)

/-- One round of the outer loop: `read` has put `batch` over the beginning of the buffer. -/
def listenOnce (answer : Nat → TrackHandle) (stale batch : Bytes) (fuel : Nat) (t : Tracker) :
    Except ListenFault (Tracker × List (Int × InotifyEvent)) :=
  -- `assert(bytes_read < 1024)`
  if batch.length < 1024 then
    eventLoop answer (batch ++ stale.drop batch.length) batch.length fuel 0 [] t
  else .error .assertion

end Tracker

/-! ## Batches -/

/-- An event as the kernel reports it, with the bytes of its name. -/
structure BatchEvent where
  wd : TrackHandle
  mask : UInt32
  cookie : UInt32
  name : Bytes
deriving DecidableEq, Repr

namespace BatchEvent

/-- The event in front of its name. -/
def header (e : BatchEvent) : InotifyEvent where
  wd := e.wd
  mask := e.mask
  cookie := e.cookie
  len := UInt32.ofNat e.name.length

/-- An event as the kernel writes it. -/
def encode (e : BatchEvent) : Bytes :=
  leBytes32 e.wd.toUInt32 ++ leBytes32 e.mask ++ leBytes32 e.cookie ++
    leBytes32 (UInt32.ofNat e.name.length) ++ e.name

/-- The events of a batch at their true offsets. -/
def offsetsFrom : Nat → List BatchEvent → List (Int × InotifyEvent)
  | _, [] => []
  | pos, e :: es => (pos, e.header) :: offsetsFrom (pos + e.encode.length) es

theorem length_encode (e : BatchEvent) :
    e.encode.length = InotifyEvent.size + e.name.length := by
  simp only [encode, leBytes32, List.length_append, List.length_cons, List.length_nil,
    InotifyEvent.size]

theorem readAt_encode (e : BatchEvent) (pre post : Bytes) :
    InotifyEvent.readAt (pre ++ (e.encode ++ post)) pre.length = some e.header := by
  rw [InotifyEvent.readAt, List.drop_left, encode]
  simp only [List.append_assoc, takeLe32_leBytes32, Option.bind_eq_bind, Option.bind_some,
    UInt32.toInt32]
  rfl

end BatchEvent

namespace Tracker

open BatchEvent

/-- The listener visits the events of the batch once each, in order, at their offsets, and no
assertion fails. -/
def VisitsBatch (answer : Nat → TrackHandle) (stale : Bytes) (t : Tracker)
    (events : List BatchEvent) : Prop :=
  ∃ fuel t', listenOnce answer stale (events.flatMap encode) fuel t =
    .ok (t', offsetsFrom 0 events)

theorem handleEvent_isSome {t : Tracker} {wd : TrackHandle} {len : UInt32}
    {changeHandle : TrackHandle} (h : 0 ≤ changeHandle) :
    ∃ t', t.handleEvent wd len changeHandle = some t' := by
  have hnonneg : ¬ changeHandle < 0 := Int32.not_lt.mpr h
  -- only a failed registration asserts, and only for an event without a name
  unfold handleEvent
  split_ifs
  · exact ⟨_, rfl⟩
  · cases t.handleToFileName wd with
    | some fileName => exact ⟨_, rfl⟩
    | none => cases t.trackedDirectory wd <;> exact ⟨_, rfl⟩

theorem toInt_eq_self {n : Nat} (h : n < 2147483648) : toInt n = n := by
  have hlow : -(((2 ^ 32 : Nat) : Int) / 2) ≤ (n : Int) := by norm_num
  have hhigh : (n : Int) < (((2 ^ 32 : Nat) : Int) + 1) / 2 := by norm_num; omega
  exact Int.bmod_eq_of_le hlow hhigh

/-- One round of a loop that ends: it has ended, or it visits the event at its position and goes on
with the size of that event as its position. -/
theorem eventLoop_cases {answer : Nat → TrackHandle} {storage : Bytes} {bytesRead : Int}
    {fuel : Nat} {pos : Int} {visited : List (Int × InotifyEvent)} {t : Tracker}
    {r : Tracker × List (Int × InotifyEvent)}
    (h : eventLoop answer storage bytesRead fuel pos visited t = .ok r) :
    (¬ pos < bytesRead ∧ r = (t, visited)) ∨
    ∃ fuel' event t', fuel = fuel' + 1 ∧ InotifyEvent.readAt storage pos.toNat = some event ∧
      t.handleEvent event.wd event.len (answer visited.length) = some t' ∧
      eventLoop answer storage bytesRead fuel' (toInt (InotifyEvent.size + event.len.toNat))
        (visited ++ [(pos, event)]) t' = .ok r := by
  cases fuel with
  | zero => exact absurd h (by simp [eventLoop])
  | succ fuel =>
    rw [eventLoop] at h
    split_ifs at h with hpos hneg
    · -- the event lies in the storage, or the read is out of bounds
      cases hread : InotifyEvent.readAt storage pos.toNat with
      | none => simp [hread] at h
      | some event =>
        simp only [hread] at h
        cases hevent : t.handleEvent event.wd event.len (answer visited.length) with
        | none => simp [hevent] at h
        | some t' =>
          simp only [hevent] at h
          exact Or.inr ⟨fuel, event, t', rfl, rfl, hevent, h⟩
    · cases h
      exact Or.inl ⟨hpos, rfl⟩

theorem eventLoop_unroll {answer : Nat → TrackHandle} {storage : Bytes} {bytesRead : Int}
    {fuel : Nat} {pos : Int} {visited : List (Int × InotifyEvent)} {t : Tracker}
    {r : Tracker × List (Int × InotifyEvent)} (hpos : pos < bytesRead)
    (h : eventLoop answer storage bytesRead fuel pos visited t = .ok r) :
    ∃ fuel' event t', InotifyEvent.readAt storage pos.toNat = some event ∧
      eventLoop answer storage bytesRead fuel' (toInt (InotifyEvent.size + event.len.toNat))
        (visited ++ [(pos, event)]) t' = .ok r := by
  rcases eventLoop_cases h with ⟨hend, _⟩ | ⟨fuel', event, t', _, hread, _, hrest⟩
  · exact absurd hpos hend
  · exact ⟨fuel', event, t', hread, hrest⟩

/-- The loop only adds to what it has visited. -/
theorem visited_isPrefixOf {answer : Nat → TrackHandle} {storage : Bytes} {bytesRead : Int}
    {fuel : Nat} {pos : Int} {visited : List (Int × InotifyEvent)} {t : Tracker}
    {r : Tracker × List (Int × InotifyEvent)}
    (h : eventLoop answer storage bytesRead fuel pos visited t = .ok r) : visited <+: r.2 := by
  induction fuel generalizing pos visited t with
  | zero => exact absurd h (by simp [eventLoop])
  | succ fuel ih =>
    rcases eventLoop_cases h with ⟨_, rfl⟩ | ⟨_, event, t', hfuel, _, _, hrest⟩
    · exact List.prefix_refl _
    · cases hfuel
      exact (List.prefix_append _ _).trans (ih hrest)

theorem toInt_next {name : Bytes} (h : name.length < 1024) :
    toInt (InotifyEvent.size + (UInt32.ofNat name.length).toNat) =
      ((InotifyEvent.size + name.length : Nat) : Int) := by
  have hlen : (UInt32.ofNat name.length).toNat = name.length := by
    rw [UInt32.toNat_ofNat', Nat.mod_eq_of_lt (by omega)]
  -- no overflow of `pos`
  rw [hlen, toInt_eq_self (by rw [InotifyEvent.size]; omega)]

/-- At an event the loop visits it, and its next position is the size of the event. -/
theorem eventLoop_at_event {answer : Nat → TrackHandle} {pre post : Bytes} {bytesRead : Nat}
    {fuel : Nat} {visited : List (Int × InotifyEvent)} {t : Tracker} {e : BatchEvent}
    {r : Tracker × List (Int × InotifyEvent)} (hpos : pre.length < bytesRead)
    (hname : e.name.length < 1024)
    (h : eventLoop answer (pre ++ (e.encode ++ post)) bytesRead fuel pre.length visited t =
      .ok r) :
    ∃ fuel' t', eventLoop answer (pre ++ (e.encode ++ post)) bytesRead fuel'
      ((InotifyEvent.size + e.name.length : Nat) : Int)
      (visited ++ [((pre.length : Int), e.header)]) t' = .ok r := by
  obtain ⟨fuel', event, t', hread, h'⟩ := eventLoop_unroll (Int.ofNat_lt.mpr hpos) h
  rw [Int.toNat_natCast, readAt_encode e pre post] at hread
  cases hread
  rw [show e.header.len = UInt32.ofNat e.name.length from rfl, toInt_next hname] at h'
  exact ⟨fuel', t', h'⟩

/-- When the loop ends on a batch of several events, the third event it has visited is one that
it took from the offset which is the size of the second event. -/
theorem third_offset {answer : Nat → TrackHandle} {stale : Bytes} {fuel : Nat} {t : Tracker}
    {e₀ e₁ : BatchEvent} {rest : Bytes} {bytesRead : Nat}
    {r : Tracker × List (Int × InotifyEvent)}
    (hsize : e₀.encode.length + e₁.encode.length ≤ bytesRead) (hlt : bytesRead < 1024)
    (h : eventLoop answer (e₀.encode ++ (e₁.encode ++ (rest ++ stale))) bytesRead fuel 0 [] t =
      .ok r) : (r.2[2]?).map Prod.fst = some ((e₁.encode.length : Nat) : Int) := by
  have hlen₀ := length_encode e₀
  have hlen₁ := length_encode e₁
  rw [InotifyEvent.size] at hlen₀ hlen₁
  have hstart : ([] : Bytes).length < bytesRead := by simp; omega
  -- the first event: from 0 to its size
  obtain ⟨f₁, t₁, h₁⟩ := eventLoop_at_event (e := e₀) hstart (by omega) h
  rw [List.nil_append, ← length_encode] at h₁
  have hnext : e₀.encode.length < bytesRead := by omega
  -- the second one: `pos` is set to its size, not moved by it
  obtain ⟨f₂, t₂, h₂⟩ := eventLoop_at_event (e := e₁) hnext (by omega) h₁
  rw [← length_encode] at h₂
  -- the loop goes on, since that is less than what was read
  obtain ⟨f₃, ev, t₃, _, h₃⟩ := eventLoop_unroll (Int.ofNat_lt.mpr (by omega)) h₂
  obtain ⟨more, hmore⟩ := visited_isPrefixOf h₃
  rw [← hmore]
  rfl

/-- A batch of one event: the second test of the loop ends it. -/
theorem listenOnce_single {answer : Nat → TrackHandle} {stale : Bytes} {t t' : Tracker}
    {e : BatchEvent} (hlt : e.encode.length < 1024)
    (h : t.handleEvent e.header.wd e.header.len (answer 0) = some t') :
    listenOnce answer stale e.encode 2 t = .ok (t', [(0, e.header)]) := by
  have hlen := length_encode e
  unfold InotifyEvent.size at hlen
  have hread := readAt_encode e [] (stale.drop e.encode.length)
  rw [List.nil_append, List.length_nil] at hread
  have hpos : (0 : Int) < (e.encode.length : Int) := by omega
  rw [listenOnce, if_pos hlt, eventLoop, if_pos hpos, if_neg (lt_irrefl 0), Int.toNat_zero, hread]
  simp only [List.length_nil, h, List.nil_append]
  rw [eventLoop, show e.header.len = UInt32.ofNat e.name.length from rfl, toInt_next (by omega),
    ← length_encode, if_neg (lt_irrefl _)]

/-- For a batch that the buffer can hold, and when every registration succeeds, the listener
visits its events once each, in order and at their offsets, exactly if there is only one event
and the buffer is not full. -/
theorem visitsBatch_iff {answer : Nat → TrackHandle} {stale : Bytes} {t : Tracker}
    {events : List BatchEvent} (hanswer : ∀ k, 0 ≤ answer k) (hne : events ≠ []) :
    VisitsBatch answer stale t events ↔
      events.length = 1 ∧ (events.flatMap encode).length < 1024 := by
  constructor
  · rintro ⟨fuel, t', h⟩
    unfold listenOnce at h
    -- a full buffer asserts
    split_ifs at h with hlt
    refine ⟨?_, hlt⟩
    match events, hne with
    | [e], _ => rfl
    | e₀ :: e₁ :: es, _ =>
      rw [List.flatMap_cons, List.flatMap_cons, List.append_assoc, List.append_assoc] at h
      have hthird := third_offset (by simp) (by simpa using hlt) h
      -- the true offset of a third event is greater
      cases es with
      | nil => simp [offsetsFrom] at hthird
      | cons e₂ es =>
        have hlen₀ := length_encode e₀
        rw [InotifyEvent.size] at hlen₀
        simp only [offsetsFrom, List.getElem?_cons_succ, List.getElem?_cons_zero, Option.map_some,
          Option.some.injEq] at hthird
        omega
  · rintro ⟨hone, hlt⟩
    obtain ⟨e, rfl⟩ := List.length_eq_one_iff.mp hone
    rw [List.flatMap_singleton] at hlt
    obtain ⟨t', ht'⟩ : ∃ t', t.handleEvent e.header.wd e.header.len (answer 0) = some t' :=
      handleEvent_isSome (hanswer 0)
    refine ⟨2, t', ?_⟩
    rw [List.flatMap_singleton]
    exact listenOnce_single hlt ht'

/-- A write to a file that is watched under handle 1. -/
def exampleEvent : BatchEvent := { wd := 1, mask := 2, cookie := 0, name := [] }

theorem visitsBatch_iff_example :
    VisitsBatch (fun _ => 1) (List.replicate 1024 0) {} [exampleEvent] ↔
      [exampleEvent].length = 1 ∧ ([exampleEvent].flatMap encode).length < 1024 :=
  visitsBatch_iff (fun _ => by decide) (by simp)

/-- Two writes in one batch: after the second event the loop comes to the same event again. -/
theorem two_events_not_visited_once :
    ([exampleEvent, exampleEvent].flatMap encode).length ≤ 1024 ∧
    ¬ VisitsBatch (fun _ => 1) (List.replicate 1024 0) {} [exampleEvent, exampleEvent] := by
  refine ⟨by decide, ?_⟩
  rintro ⟨fuel, t', h⟩
  have hloop : eventLoop (fun _ => 1)
      (exampleEvent.encode ++ (exampleEvent.encode ++ ([] ++ List.replicate 992 0)))
      ((32 : Nat) : Int) fuel 0 [] {} = .ok (t', offsetsFrom 0 [exampleEvent, exampleEvent]) := h
  have hthird := third_offset (by decide) (by decide) hloop
  simp [offsetsFrom] at hthird

end Tracker

end Guthi
