import Guthi.Lib.Run

/-!
# Guthi — the event queue

`EventQueue` of `event/event.h` and `event/event.cpp`: a singly linked list with a head and a
tail pointer. Entries are allocated and never freed, so an entry is an index into the list of
all entries. `push_event` moves the tail only when the queue is empty.

* `Chain` — the linked list from a pointer on holds the given elements;
* `represents_throughout_iff` — along a run the linked list holds what a queue holds, exactly if
  every push finds the queue empty or with one entry which is the tail;
* `fifo_of_pushesAtTail` — then every pop and get answers like a queue; and otherwise some number
  of further pops does not.
-/

namespace Guthi

/-- `struct EventHandler`; the pointers to the event and to the function are values. -/
structure EventHandler (ε η : Type) where
  event : ε
  handler : η
deriving DecidableEq, Repr

/-- An entry of the linked list. -/
structure EventQueueEntry (ε η : Type) where
  handler : EventHandler ε η
  next : Option Nat
deriving DecidableEq, Repr

/-- `struct EventQueue`, with all entries that were ever allocated. -/
structure EventQueue (ε η : Type) where
  entries : List (EventQueueEntry ε η) := []
  head : Option Nat := none
  tail : Option Nat := none
deriving DecidableEq, Repr

namespace EventQueue

variable {ε η : Type}

/-- `entries[t].next = a`. -/
def setNext (entries : List (EventQueueEntry ε η)) (t a : Nat) : List (EventQueueEntry ε η) :=
  entries.modify t fun e => { e with next := some a }

/-- `push_event(e, handler)`; `none` when it dereferences a null pointer. -/
def pushEvent (q : EventQueue ε η) (e : ε) (handler : η) : Option (EventQueue ε η) :=
  let entry := q.entries.length
  let fresh : EventQueueEntry ε η := { handler := ⟨e, handler⟩, next := none }
  match q.head with
  | none => some { entries := q.entries ++ [fresh], head := some entry, tail := some entry }
  | some _ =>
    -- `tail->next = entry`; the tail itself is left where it is
    match q.tail with
    | none => none
    | some t => some { q with entries := setNext q.entries t entry ++ [fresh] }

/-- `getEvent`: the first entry. -/
def getEvent (q : EventQueue ε η) : Option (EventHandler ε η) := do
  let entry ← q.entries[← q.head]?
  return entry.handler

/-- `popEvent`: the first entry is taken off; the tail is left as it is. -/
def popEvent (q : EventQueue ε η) : Option (EventHandler ε η × EventQueue ε η) := do
  let entry ← q.entries[← q.head]?
  return (entry.handler, { q with head := entry.next })

/-! ## Beside a reference queue -/

/-- The calls of the queue. -/
inductive Op (ε η : Type) where
  | push (e : ε) (handler : η)
  | pop
  | get

/-- The event queue beside a queue of the same calls. -/
structure Pair (ε η : Type) where
  queue : EventQueue ε η := {}
  reference : List (EventHandler ε η) := []

/-- One call on both. `pop` and `get` are called only while more was pushed than popped. -/
def Pair.step (s : Pair ε η) : Op ε η → Option (Pair ε η)
  | .push e handler =>
    (s.queue.pushEvent e handler).map fun q => ⟨q, s.reference ++ [⟨e, handler⟩]⟩
  | .pop =>
    match s.reference with
    | [] => none
    | _ :: rest => s.queue.popEvent.map fun r => ⟨r.2, rest⟩
  | .get =>
    match s.reference with
    | [] => none
    | _ :: _ => s.queue.getEvent.map fun _ => s

/-- Whatever is called next answers like the reference queue and dereferences no null pointer. -/
structure Pair.Agrees (s : Pair ε η) : Prop where
  front : ∀ x rest, s.reference = x :: rest →
    s.queue.getEvent = some x ∧ ∃ q', s.queue.popEvent = some (x, q')
  push : ∀ e handler, ∃ q', s.queue.pushEvent e handler = some q'

/-- A push that appends: the queue is empty, or holds one entry and that is the tail. -/
def Pair.PushesAtTail (s : Pair ε η) : Op ε η → Prop
  | .push _ _ => s.queue.head = none ∨
      ∃ a entry, s.queue.head = some a ∧ s.queue.tail = some a ∧
        s.queue.entries[a]? = some entry ∧ entry.next = none
  | _ => True

/-- Following `next` from a pointer one finds exactly these elements. -/
def Chain (entries : List (EventQueueEntry ε η)) : Option Nat → List (EventHandler ε η) → Prop
  | p, [] => p = none
  | p, x :: xs => ∃ a entry, p = some a ∧ entries[a]? = some entry ∧ entry.handler = x ∧
      Chain entries entry.next xs

/-- The linked list holds what the reference queue holds. -/
def Pair.Represents (s : Pair ε η) : Prop := Chain s.queue.entries s.queue.head s.reference

/-- Pointers lead to later entries, and the tail is never behind the head. -/
structure Pair.Ordered (s : Pair ε η) : Prop where
  next : ∀ (a : Nat) entry b, s.queue.entries[a]? = some entry → entry.next = some b →
    a < b ∧ b < s.queue.entries.length
  tail : ∀ a, s.queue.head = some a →
    a < s.queue.entries.length ∧ ∃ t, s.queue.tail = some t ∧ t ≤ a

/-! ## What the calls do -/

/-- A push into an empty queue sets both ends. -/
theorem pushEvent_of_empty {q : EventQueue ε η} (hq : q.head = none) (e : ε) (handler : η) :
    q.pushEvent e handler = some
      { entries := q.entries ++ [{ handler := ⟨e, handler⟩, next := none }],
        head := some q.entries.length, tail := some q.entries.length } := by
  simp only [pushEvent, hq]

/-- A push into a queue with elements hangs the new entry on the tail, which stays where it is. -/
theorem pushEvent_of_tail {q : EventQueue ε η} {a t : Nat} (hq : q.head = some a)
    (ht : q.tail = some t) (e : ε) (handler : η) :
    q.pushEvent e handler = some
      { q with entries := setNext q.entries t q.entries.length ++
          [{ handler := ⟨e, handler⟩, next := none }] } := by
  simp only [pushEvent, hq, ht]

/-- `getEvent` answers the first element of the linked list. -/
theorem Chain.getEvent {q : EventQueue ε η} {x : EventHandler ε η} {xs : List (EventHandler ε η)}
    (h : Chain q.entries q.head (x :: xs)) : q.getEvent = some x := by
  obtain ⟨a, entry, hhead, hentry, hx, _⟩ := h
  simp [EventQueue.getEvent, hhead, hentry, hx]

/-- `popEvent` takes the first element off the linked list. -/
theorem Chain.popEvent {q : EventQueue ε η} {x : EventHandler ε η} {xs : List (EventHandler ε η)}
    (h : Chain q.entries q.head (x :: xs)) :
    ∃ q', q.popEvent = some (x, q') ∧ Chain q'.entries q'.head xs := by
  obtain ⟨a, entry, hhead, hentry, hx, hrest⟩ := h
  exact ⟨{ q with head := entry.next }, by simp [EventQueue.popEvent, hhead, hentry, hx], hrest⟩

/-! ## The linked list -/

section Chain

variable {entries : List (EventQueueEntry ε η)} {p : Option Nat} {l l' : List (EventHandler ε η)}

/-- At most one list hangs on a pointer. -/
theorem Chain.unique (h : Chain entries p l) (h' : Chain entries p l') : l = l' := by
  induction l generalizing p l' with
  | nil =>
    cases l' with
    | nil => rfl
    | cons x' xs' =>
      obtain ⟨a, _, hp, _⟩ := h'
      exact absurd (hp.symm.trans h) (by simp)
  | cons x xs ih =>
    obtain ⟨a, entry, hp, hentry, hx, hrest⟩ := h
    cases l' with
    | nil => exact absurd (hp.symm.trans h') (by simp)
    | cons x' xs' =>
      obtain ⟨a', entry', hp', hentry', hx', hrest'⟩ := h'
      obtain rfl : a = a' := Option.some.inj (hp.symm.trans hp')
      obtain rfl : entry = entry' := Option.some.inj (hentry.symm.trans hentry')
      rw [← hx, ← hx', ih hrest hrest']

theorem getElem?_setNext {t n a : Nat} (hne : a ≠ t) :
    (setNext entries t n)[a]? = entries[a]? := by
  rw [setNext, List.getElem?_modify]
  simp [Ne.symm hne]

/-- The entry itself gets the new successor. -/
theorem getElem?_setNext_self {t n : Nat} {entry : EventQueueEntry ε η}
    (ht : entries[t]? = some entry) :
    (setNext entries t n)[t]? = some { entry with next := some n } := by
  rw [setNext, List.getElem?_modify, ht]
  simp

@[simp] theorem length_setNext (t n : Nat) :
    (setNext entries t n).length = entries.length := by
  rw [setNext, List.length_modify]

/-- An entry stays when others come behind it. -/
theorem getElem?_append_of_some {a : Nat} {entry : EventQueueEntry ε η}
    (ha : entries[a]? = some entry) (es : List (EventQueueEntry ε η)) :
    (entries ++ es)[a]? = some entry := by
  rw [List.getElem?_append_left (List.getElem?_eq_some_iff.mp ha).1, ha]

/-- The new entry is the last one. -/
theorem getElem?_setNext_append (t : Nat) (e : EventQueueEntry ε η) :
    (setNext entries t entries.length ++ [e])[entries.length]? = some e := by
  rw [List.getElem?_append_right (by simp)]
  simp

/-- New entries do not change a linked list. -/
theorem Chain.append (h : Chain entries p l) (es : List (EventQueueEntry ε η)) :
    Chain (entries ++ es) p l := by
  induction l generalizing p with
  | nil => exact h
  | cons x xs ih =>
    obtain ⟨a, entry, hp, hentry, hx, hrest⟩ := h
    exact ⟨a, entry, hp, getElem?_append_of_some hentry es, hx, ih hrest⟩

/-- Setting the `next` of an entry in front of the list does not change the list. -/
theorem Chain.setNext_of_lt {t n : Nat}
    (hnext : ∀ (a : Nat) entry b, entries[a]? = some entry → entry.next = some b → a < b)
    (hp : ∀ a, p = some a → t < a) (h : Chain entries p l) :
    Chain (setNext entries t n) p l := by
  induction l generalizing p with
  | nil => exact h
  | cons x xs ih =>
    obtain ⟨a, entry, rfl, hentry, hx, hrest⟩ := h
    have hta : t < a := hp a rfl
    refine ⟨a, entry, rfl, by rw [getElem?_setNext (by omega)]; exact hentry, hx,
      ih (fun b hb => ?_) hrest⟩
    -- the list leads away from `t`
    have hab := hnext a entry b hentry hb
    omega

/-- A new entry is a list of its own. -/
theorem Chain.fresh (x : EventHandler ε η) :
    Chain (entries ++ [{ handler := x, next := none }]) (some entries.length) [x] :=
  ⟨entries.length, _, rfl, List.getElem?_concat_length, rfl, rfl⟩

/-- A new last entry that hangs on the first one cuts off what was between them. -/
theorem Chain.setNext_first {a : Nat} {entry : EventQueueEntry ε η}
    (hentry : entries[a]? = some entry) (x : EventHandler ε η) :
    Chain (setNext entries a entries.length ++ [{ handler := x, next := none }]) (some a)
      [entry.handler, x] :=
  ⟨a, _, rfl, getElem?_append_of_some (getElem?_setNext_self hentry) _, rfl, entries.length, _,
    rfl, getElem?_setNext_append a _, rfl, rfl⟩

/-- Hanging a new last entry on any entry makes the list at most one longer. -/
theorem Chain.length_setNext_le {t : Nat} (x : EventHandler ε η) (h : Chain entries p l) :
    ∃ l', Chain (setNext entries t entries.length ++ [{ handler := x, next := none }]) p l' ∧
      l'.length ≤ l.length + 1 := by
  induction l generalizing p with
  | nil => exact ⟨[], h, by simp⟩
  | cons y ys ih =>
    obtain ⟨a, entry, rfl, hentry, rfl, hrest⟩ := h
    -- the list now ends behind `t`, or `t` lies further on
    by_cases hat : a = t
    · subst hat
      exact ⟨[entry.handler, x], Chain.setNext_first hentry x, by simp⟩
    · obtain ⟨l', hl', hlen⟩ := ih hrest
      have hentry' : (setNext entries t entries.length)[a]? = some entry := by
        rw [getElem?_setNext hat, hentry]
      exact ⟨entry.handler :: l', ⟨a, entry, rfl, getElem?_append_of_some hentry' _, rfl, hl'⟩,
        by simpa using hlen⟩

end Chain

/-! ## One call -/

/-- The linked list holds fewer elements than the reference queue. -/
def Pair.Deficit (s : Pair ε η) : Prop :=
  ∃ l, Chain s.queue.entries s.queue.head l ∧ l.length < s.reference.length

/-- A queue that holds its reference answers like it. -/
theorem Pair.Represents.agrees {s : Pair ε η} (hs : s.Represents) (hord : s.Ordered) :
    s.Agrees := by
  refine ⟨fun x rest href => ?_, fun e handler => ?_⟩
  · rw [Represents, href] at hs
    obtain ⟨q', hq', _⟩ := hs.popEvent
    exact ⟨hs.getEvent, q', hq'⟩
  · cases hhead : s.queue.head with
    | none => exact ⟨_, pushEvent_of_empty hhead e handler⟩
    | some a =>
      obtain ⟨_, t, ht, _⟩ := hord.tail a hhead
      exact ⟨_, pushEvent_of_tail hhead ht e handler⟩

/-- When a push hangs the entry where it belongs. -/
theorem Pair.pushesAtTail_iff {s : Pair ε η} {a t : Nat} {entry : EventQueueEntry ε η}
    (hhead : s.queue.head = some a) (ht : s.queue.tail = some t)
    (hentry : s.queue.entries[a]? = some entry) (e : ε) (handler : η) :
    s.PushesAtTail (.push e handler) ↔ t = a ∧ entry.next = none := by
  simp [PushesAtTail, hhead, ht, hentry]

/-- A push into an empty queue represents the one element. -/
theorem Pair.push_of_empty {s : Pair ε η} (hhead : s.queue.head = none) (hs : s.Represents)
    (e : ε) (handler : η) :
    ∃ s', s.step (.push e handler) = some s' ∧ s'.Represents := by
  have href : s.reference = [] := by
    rw [Represents, hhead] at hs
    exact hs.unique rfl
  refine ⟨_, by rw [step, pushEvent_of_empty hhead]; rfl, ?_⟩
  rw [Represents, href]
  exact Chain.fresh ⟨e, handler⟩

/-- A push into a queue that is not empty appends to the linked list exactly if the tail is its
only entry; otherwise an element is missing. -/
theorem Pair.push_of_nonempty {s : Pair ε η} {a : Nat} (hhead : s.queue.head = some a)
    (hord : s.Ordered) (hs : s.Represents) (e : ε) (handler : η) :
    ∃ s', s.step (.push e handler) = some s' ∧
      ((s.PushesAtTail (.push e handler) ∧ s'.Represents) ∨
      (¬ s.PushesAtTail (.push e handler) ∧ s'.Deficit)) := by
  obtain ⟨_, t, ht, hta⟩ := hord.tail a hhead
  refine ⟨_, by rw [step, pushEvent_of_tail hhead ht]; rfl, ?_⟩
  simp only [Represents, Deficit, hhead] at hs ⊢
  cases href : s.reference with
  | nil =>
    rw [href] at hs
    exact absurd hs (by simp [Chain])
  | cons y ys =>
    rw [href] at hs
    obtain ⟨a', entry, ha', hentry, rfl, hrest⟩ := id hs
    obtain rfl : a = a' := Option.some.inj ha'
    rw [pushesAtTail_iff hhead ht hentry]
    by_cases hat : t = a
    · -- the new entry hangs on the first one
      subst hat
      have hchain := Chain.setNext_first hentry ⟨e, handler⟩
      cases ys with
      | nil => exact Or.inl ⟨⟨rfl, hrest⟩, hchain⟩
      | cons z zs =>
        obtain ⟨c, _, hc, _⟩ := hrest
        exact Or.inr ⟨by simp [hc], _, hchain, by simp⟩
    · -- the tail lies in front of the list, where nobody looks
      have hlt : t < a := lt_of_le_of_ne hta hat
      have hsame : Chain (setNext s.queue.entries t s.queue.entries.length) (some a) _ :=
        hs.setNext_of_lt (fun c entry' b hc hb => (hord.next c entry' b hc hb).1)
          fun b hb => Option.some.inj hb ▸ hlt
      exact Or.inr ⟨fun h => hat h.1, _, hsame.append _, by simp⟩

/-- A push goes right, or an element is missing after it. -/
theorem Pair.push_cases {s s' : Pair ε η} {e : ε} {handler : η} (hord : s.Ordered)
    (hs : s.Represents) (h : s.step (.push e handler) = some s') :
    (s.PushesAtTail (.push e handler) ∧ s'.Represents) ∨
    (¬ s.PushesAtTail (.push e handler) ∧ s'.Deficit) := by
  cases hhead : s.queue.head with
  | none =>
    obtain ⟨s'', hs'', hrep⟩ := push_of_empty hhead hs e handler
    obtain rfl : s' = s'' := Option.some.inj (h.symm.trans hs'')
    exact Or.inl ⟨Or.inl hhead, hrep⟩
  | some a =>
    obtain ⟨s'', hs'', hcases⟩ := push_of_nonempty hhead hord hs e handler
    obtain rfl : s' = s'' := Option.some.inj (h.symm.trans hs'')
    exact hcases

/-- The empty queue has no entries to order. -/
theorem Pair.ordered_empty : ({} : Pair ε η).Ordered := ⟨by simp, by simp⟩

/-- The empty queue represents the empty list. -/
theorem Pair.represents_empty : ({} : Pair ε η).Represents := rfl

/-- A push appends to the reference. -/
theorem Pair.step_push {s : Pair ε η} {q : EventQueue ε η} {e : ε} {handler : η}
    (hq : s.queue.pushEvent e handler = some q) :
    s.step (.push e handler) = some ⟨q, s.reference ++ [⟨e, handler⟩]⟩ := by
  rw [step, hq, Option.map_some]

/-- Behind a new last entry, every successor still lies behind its entry and among the entries. -/
theorem next_append {es : List (EventQueueEntry ε η)} (x : EventHandler ε η)
    (hes : ∀ (a : Nat) entry b, es[a]? = some entry → entry.next = some b →
      a < b ∧ b ≤ es.length) (a : Nat) (entry : EventQueueEntry ε η) (b : Nat)
    (ha : (es ++ [{ handler := x, next := none }])[a]? = some entry)
    (hb : entry.next = some b) :
    a < b ∧ b < (es ++ [({ handler := x, next := none } : EventQueueEntry ε η)]).length := by
  rw [List.length_append, List.length_singleton]
  rw [List.getElem?_append] at ha
  -- an old entry, or the new one, which has no successor
  split_ifs at ha with hlt
  · have := hes a entry b ha hb
    omega
  · rw [List.getElem?_singleton] at ha
    split_ifs at ha
    cases ha
    exact absurd hb (by simp)

/-- A push keeps the entries in order. -/
theorem Pair.Ordered.push {s s' : Pair ε η} {e : ε} {handler : η} (hord : s.Ordered)
    (h : s.step (.push e handler) = some s') : s'.Ordered := by
  obtain ⟨q, hq, rfl⟩ := Option.map_eq_some_iff.mp h
  cases hhead : s.queue.head with
  | none =>
    rw [pushEvent_of_empty hhead] at hq
    cases hq
    refine ⟨next_append ⟨e, handler⟩ fun a entry b ha hb => ?_, fun a ha => ?_⟩
    · exact (hord.next a entry b ha hb).imp_right Nat.le_of_lt
    · cases ha
      exact ⟨by simp, s.queue.entries.length, rfl, le_rfl⟩
  | some c =>
    obtain ⟨hc, t, ht, htc⟩ := hord.tail c hhead
    rw [pushEvent_of_tail hhead ht] at hq
    cases hq
    refine ⟨next_append ⟨e, handler⟩ fun a entry b ha hb => ?_, fun a ha => ?_⟩
    · rw [length_setNext]
      by_cases hat : a = t
      · -- the tail now leads to the new entry
        subst hat
        have hlt : a < s.queue.entries.length := by omega
        rw [getElem?_setNext_self (List.getElem?_eq_getElem hlt)] at ha
        cases ha
        cases hb
        exact ⟨hlt, le_rfl⟩
      · rw [getElem?_setNext hat] at ha
        exact (hord.next a entry b ha hb).imp_right Nat.le_of_lt
    · obtain ⟨halt, ht'⟩ := hord.tail a ha
      exact ⟨by simp; omega, ht'⟩

/-- Every call keeps the entries in order. -/
theorem Pair.Ordered.step {s s' : Pair ε η} {op : Op ε η} (hord : s.Ordered)
    (h : s.step op = some s') : s'.Ordered := by
  cases op with
  | push e handler => exact hord.push h
  | pop =>
    cases href : s.reference with
    | nil => simp [Pair.step, href] at h
    | cons x rest =>
      simp only [Pair.step, href] at h
      obtain ⟨r, hr, rfl⟩ := Option.map_eq_some_iff.mp h
      simp only [popEvent, Option.bind_eq_bind, Option.bind_eq_some_iff] at hr
      obtain ⟨a, ha, entry, hentry, hr⟩ := hr
      cases hr
      refine ⟨hord.next, fun b hb => ?_⟩
      obtain ⟨hab, hlt⟩ := hord.next a entry b hentry hb
      obtain ⟨_, t, ht, hta⟩ := hord.tail a ha
      exact ⟨hlt, t, ht, by omega⟩
  | get =>
    cases href : s.reference with
    | nil => simp [Pair.step, href] at h
    | cons x rest =>
      simp only [Pair.step, href] at h
      obtain ⟨_, _, rfl⟩ := Option.map_eq_some_iff.mp h
      exact hord

/-- A pop takes the first element off both. -/
theorem Pair.represents_pop {s s' : Pair ε η} (hs : s.Represents)
    (h : s.step .pop = some s') : s'.Represents := by
  cases href : s.reference with
  | nil => simp [step, href] at h
  | cons x rest =>
    rw [Represents, href] at hs
    obtain ⟨q', hq', hchain⟩ := hs.popEvent
    simp only [step, href, hq', Option.map_some, Option.some.injEq] at h
    subst h
    exact hchain

theorem Pair.step_get {s s' : Pair ε η} (h : s.step .get = some s') : s' = s := by
  cases href : s.reference with
  | nil => simp [step, href] at h
  | cons x rest =>
    simp only [step, href] at h
    obtain ⟨_, _, rfl⟩ := Option.map_eq_some_iff.mp h
    rfl

/-- After a call the linked list still holds the reference queue, or an element is missing; the
latter happens at a push that finds the tail not to be the only entry. -/
theorem Pair.step_cases {s s' : Pair ε η} {op : Op ε η} (hord : s.Ordered) (hs : s.Represents)
    (h : s.step op = some s') :
    (s.PushesAtTail op ∧ s'.Represents) ∨ (¬ s.PushesAtTail op ∧ s'.Deficit) := by
  cases op with
  | push e handler => exact push_cases hord hs h
  | pop => exact Or.inl ⟨trivial, represents_pop hs h⟩
  | get => exact Or.inl ⟨trivial, step_get h ▸ hs⟩

/-- A queue with an element missing does not represent its reference. -/
theorem Pair.Deficit.not_represents {s : Pair ε η} (h : s.Deficit) : ¬ s.Represents := by
  obtain ⟨l, hl, hlen⟩ := h
  intro hs
  rw [hl.unique hs] at hlen
  exact Nat.lt_irrefl _ hlen

/-- A missing element stays missing, as long as the answers agree. -/
theorem Pair.Deficit.step {s : Pair ε η} (h : s.Deficit) (hs : s.Agrees) (hord : s.Ordered)
    (op : Op ε η) : ∃ s', s.step op = some s' ∧ s'.Deficit := by
  obtain ⟨l, hl, hlen⟩ := h
  obtain ⟨x, rest, href⟩ : ∃ x rest, s.reference = x :: rest := by
    cases href : s.reference with
    | nil => simp [href] at hlen
    | cons x rest => exact ⟨x, rest, rfl⟩
  cases op with
  | push e handler =>
    cases hhead : s.queue.head with
    | none =>
      exact ⟨_, step_push (pushEvent_of_empty hhead e handler), [⟨e, handler⟩],
        Chain.fresh ⟨e, handler⟩, by simp [href]⟩
    | some a =>
      obtain ⟨_, t, ht, _⟩ := hord.tail a hhead
      obtain ⟨l', hl', hlen'⟩ := hl.length_setNext_le (t := t) ⟨e, handler⟩
      refine ⟨_, step_push (pushEvent_of_tail hhead ht e handler), l', hl', ?_⟩
      rw [List.length_append, List.length_singleton]
      omega
  | pop =>
    obtain ⟨hget, q', hq'⟩ := hs.front x rest href
    cases l with
    | nil =>
      have hhead : s.queue.head = none := hl
      simp [getEvent, hhead] at hget
    | cons y ys =>
      obtain ⟨q'', hq'', hchain⟩ := hl.popEvent
      refine ⟨⟨q'', rest⟩, by simp [Pair.step, href, hq''], ys, hchain, ?_⟩
      simpa [href] using hlen
  | get =>
    obtain ⟨hget, _⟩ := hs.front x rest href
    exact ⟨s, by simp [Pair.step, href, hget], l, hl, hlen⟩

/-! ## Runs -/

/-- Along a run the linked list holds the reference queue, exactly if every push finds the
queue empty or with the tail as its only entry. -/
theorem represents_throughout_iff (ops : List (Op ε η)) :
    Throughout Pair.step Pair.Represents {} ops ↔ EachStep Pair.step Pair.PushesAtTail {} ops := by
  refine throughout_iff_eachStep (J := Pair.Ordered) (fun s op s' h hs => h.step hs)
    (fun s op s' hord hs h => ?_) Pair.ordered_empty Pair.represents_empty ops
  rcases Pair.step_cases hord hs h with ⟨hpush, hrep⟩ | ⟨hpush, hdef⟩
  · exact iff_of_true hrep hpush
  · exact iff_of_false hdef.not_represents hpush

/-- An element that is missing is noticed at the latest when the queue is drained. -/
theorem Pair.Deficit.drain {s : Pair ε η} (h : s.Deficit) (hord : s.Ordered) :
    ∃ k, ¬ Throughout Pair.step Pair.Agrees s (List.replicate k .pop) := by
  obtain ⟨l, hl, hlen⟩ := h
  induction l generalizing s with
  | nil =>
    -- the linked list is empty while the reference queue is not
    refine ⟨0, fun hs => ?_⟩
    obtain ⟨x, rest, href⟩ := List.exists_cons_of_length_pos hlen
    have hhead : s.queue.head = none := hl
    have := (Throughout.start hs).front x rest href
    simp [getEvent, hhead] at this
  | cons y ys ih =>
    obtain ⟨q', hq', hchain⟩ := hl.popEvent
    obtain ⟨x, rest, href⟩ := List.exists_cons_of_length_pos (Nat.zero_lt_of_lt hlen)
    have hstep : s.step .pop = some ⟨q', rest⟩ := by simp [Pair.step, href, hq']
    obtain ⟨k, hk⟩ := ih (hord.step hstep) hchain (by simpa [href] using hlen)
    exact ⟨k + 1, fun hs => hk (hs.2 _ hstep)⟩

/-- A run after which an element is missing goes wrong at the latest in the drain. -/
theorem Pair.Deficit.run {s : Pair ε η} (h : s.Deficit) (hord : s.Ordered)
    (ops : List (Op ε η)) :
    ∃ k, ¬ Throughout Pair.step Pair.Agrees s (ops ++ List.replicate k .pop) := by
  induction ops generalizing s with
  | nil => exact h.drain hord
  | cons op ops ih =>
    by_cases hs : s.Agrees
    -- as long as all answers agree, every call goes through
    · obtain ⟨s', hs', hdef⟩ := h.step hs hord op
      obtain ⟨k, hk⟩ := ih hdef (hord.step hs')
      exact ⟨k, fun hall => hk (hall.2 s' hs')⟩
    · exact ⟨0, fun hall => hs hall.1⟩

/-- After a push at the wrong place, the drain shows it at the latest. -/
theorem exists_drain_of_not_eachStep {s : Pair ε η} (hord : s.Ordered) (hs : s.Represents)
    {ops : List (Op ε η)} (h : ¬ EachStep Pair.step Pair.PushesAtTail s ops) :
    ∃ k, ¬ Throughout Pair.step Pair.Agrees s (ops ++ List.replicate k .pop) := by
  induction ops generalizing s with
  | nil => exact absurd trivial h
  | cons op ops ih =>
    rw [EachStep] at h
    push Not at h
    obtain ⟨s', hs', hnot⟩ := h
    -- the run is followed up to its first push at the wrong place
    rcases Pair.step_cases hord hs hs' with ⟨hpush, hrep⟩ | ⟨_, hdef⟩
    · obtain ⟨k, hk⟩ := ih (hord.step hs') hrep (hnot hpush)
      exact ⟨k, fun hall => hk (hall.2 s' hs')⟩
    · obtain ⟨k, hk⟩ := hdef.run (hord.step hs') ops
      exact ⟨k, fun hall => hk (hall.2 s' hs')⟩

/-- In every run whose pushes all find the queue empty or with the tail as its only entry, every
pop and get answers like a queue and no null pointer is dereferenced; and any other run goes
wrong, at the latest when the queue is drained after it. -/
theorem fifo_of_pushesAtTail (ops : List (Op ε η)) :
    (EachStep Pair.step Pair.PushesAtTail {} ops → Throughout Pair.step Pair.Agrees {} ops) ∧
    (¬ EachStep Pair.step Pair.PushesAtTail {} ops →
      ∃ k, ¬ Throughout Pair.step Pair.Agrees {} (ops ++ List.replicate k .pop)) := by
  refine ⟨fun h => ?_, exists_drain_of_not_eachStep Pair.ordered_empty
    Pair.represents_empty⟩
  have hrep := (represents_throughout_iff ops).mpr h
  exact (hrep.and_invariant (fun _ _ _ hord hs => hord.step hs) Pair.ordered_empty).imp
    fun s hs => hs.2.agrees hs.1

/-- Three pushes and a pop: the third push has hung its entry behind the first one, and the
second is gone from the list. -/
theorem third_push_loses_event :
    ¬ Throughout Pair.step Pair.Agrees ({} : Pair Nat Nat)
      [.push 1 1, .push 2 2, .push 3 3, .pop] := by
  intro h
  have hlast := (((h.2 _ rfl).2 _ rfl).2 _ rfl).2 _ rfl
  exact absurd (hlast.front ⟨2, 2⟩ [⟨3, 3⟩] rfl).1 (by decide)

end EventQueue

end Guthi
