import Guthi.Daemon.MainLoop
import Guthi.Lib.Delimited
import Guthi.Lib.Fifo

/-!
# Guthi — what the client is told

The way of a change from the listening thread to the client: `ListenForChanges` puts it into the
queue, the main loop takes it out with `TryPopChangeInfo` and sends a message about it, between
the replies to the echoes. A run is any sequence of steps of the two threads and of the client; a
message that the client does not take ends it.

* `Tracker.reports` — the changes that an event puts into the queue;
* `Told`, `told_step` — what the client has been told, and what one step adds to that;
* `client_reads` — in every run the client can cut its stream into messages, which are the echoes
  in the order of their requests, and the changes in the order in which they were queued;
* `queued_changes_sent` — a change is sent after as many looks at the queue as it had changes
  in it;
* `notified_was_requested` — and only about files that a client has asked to track.
-/

namespace Guthi

/-! ## The stream -/

/-- A message with the type and the payload, as `PrepareMessage` puts it together. -/
def encodeMessage (msg : EMessage × Bytes) : Bytes :=
  prepareMessage msg.1 msg.2 (UInt16.ofNat msg.2.length)

/-- A client that goes by the declared length takes one message off its stream. -/
def takeMessage (s : Bytes) : Option ((EMessage × Bytes) × Bytes) :=
  if messageVerified s then
    match s.drop magicConstant with
    | code :: lo :: hi :: rest =>
      let length := (ofLeBytes16 lo hi).toNat
      if length ≤ rest.length then
        (EMessage.ofCode code).map fun t => ((t, rest.take length), rest.drop length)
      else none
    | _ => none
  else none

/-- There is no message in nothing. -/
theorem takeMessage_nil : takeMessage [] = none := rfl

/-- A message with a payload below 2^16 bytes is cut off whole, whatever follows it. -/
theorem encodeMessage_delimits {msg : EMessage × Bytes} (h : msg.2.length < 2 ^ 16) :
    Delimits takeMessage encodeMessage msg := by
  intro rest
  obtain ⟨t, payload⟩ := msg
  have hlength : (UInt16.ofNat payload.length).toNat = payload.length :=
    UInt16.toNat_ofNat_of_lt' h
  -- the message begins with the magic bytes, whatever follows
  have hverified : messageVerified (encodeMessage (t, payload) ++ rest) = true := by
    simp [messageVerified, encodeMessage, prepareMessage, magicBytes]
  have hdrop : (encodeMessage (t, payload) ++ rest).drop magicConstant =
      t.code :: (UInt16.ofNat payload.length).toUInt8 ::
        (UInt16.ofNat payload.length >>> 8).toUInt8 :: (payload ++ rest) := by
    simp [encodeMessage, prepareMessage, magicBytes, magicConstant, leBytes16, hlength]
  rw [takeMessage, if_pos hverified, hdrop]
  simp only [ofLeBytes16_leBytes16, hlength, EMessage.ofCode_code]
  rw [if_pos (by simp), List.take_left, List.drop_left]
  rfl

/-! ## What one step does -/

/-- The text of a message about a change. -/
def ChangeInfo.text (info : ChangeInfo) : Bytes := cStr info.file

namespace Tracker

/-- The changes that an event puts into the queue. -/
def reports (t : Tracker) (wd : TrackHandle) (len : UInt32) : List ChangeInfo :=
  if len ≠ 0 then []
  else match t.handleToFileName wd with
    | some fileName => [{ file := fileName, directory := [], result := .writeChange }]
    | none =>
      match t.trackedDirectory wd with
      | some dir => [{ file := [], directory := dir.dirName, result := .writeChange }]
      | none => []

/-- An event appends its reports to the queue. -/
theorem changeInfo_handleEvent {t t' : Tracker} {wd changeHandle : TrackHandle} {len : UInt32}
    (h : t.handleEvent wd len changeHandle = some t') :
    t'.changeInfo = t.changeInfo ++ t.reports wd len := by
  unfold handleEvent at h
  unfold reports
  -- an event with a name is only printed
  by_cases hlen : len = 0
  · rw [if_neg (by simpa using hlen)] at h ⊢
    cases hwd : t.handleToFileName wd with
    | some fileName =>
      simp only [hwd] at h ⊢
      split_ifs at h
      cases h
      rfl
    | none =>
      simp only [hwd] at h ⊢
      cases hdir : t.trackedDirectory wd with
      | some dir =>
        simp only [hdir] at h
        cases h
        rfl
      | none =>
        simp only [hdir] at h
        cases h
        exact (List.append_nil _).symm
  · rw [if_pos hlen] at h ⊢
    cases h
    exact (List.append_nil _).symm

end Tracker

/-- Whether the daemon looks at its queue. -/
def Action.isNotify : Action → Bool
  | .notify => true
  | _ => false

namespace Daemon

/-- The messages that a step sends. -/
def sends (d : Daemon) : Action → List (EMessage × Bytes)
  | .read r =>
    match request r.chunk with
    | some (some .echoMessage, content) => [(.echoMessage, content)]
    | _ => []
  | .notify => (d.tracker.changeInfo.head?.map fun info => (.trackedFileChanged, info.text)).toList
  | .event _ _ _ _ => []
  | .client _ => []

/-- What a step does to the queue of changes. -/
def queueOp (d : Daemon) : Action → Fifo.Op ChangeInfo
  | .read _ => .put []
  | .notify => .take
  | .event wd len _ _ => .put (d.tracker.reports wd len)
  | .client _ => .put []

/-- What the actions do to the queue, one after the other. -/
def queueOps : Daemon → List Action → List (Fifo.Op ChangeInfo)
  | _, [] => []
  | d, a :: as => d.queueOp a :: queueOps (d.after a) as

/-- The changes that a run puts into the queue. -/
def queued (d : Daemon) (actions : List Action) : List ChangeInfo :=
  (d.queueOps actions).flatMap Fifo.Op.elements

/-- The texts of the messages about changes that a client finds among what was written. -/
def notified (d : Daemon) : List Bytes :=
  d.written.filterMap fun msg =>
    match takeMessage msg with
    | some ((.trackedFileChanged, text), _) => some text
    | _ => none

/-- What a read does: nothing that is seen here, or what one request asks for. -/
theorem after_read_cases (d : Daemon) (r : Round) :
    (d.sends (.read r) = [] ∧ (d.after (.read r) = d ∨
      d.after (.read r) = { d with running := false })) ∨
    (∃ content, d.sends (.read r) = [(.echoMessage, content)] ∧
      d.after (.read r) =
        (d.act .echoMessage content).writeMessage (encodeMessage (.echoMessage, content))) ∨
    (∃ content, d.sends (.read r) = [] ∧
      d.after (.read r) = { d.act .trackThisFile content with running := false }) ∨
    (∃ content tracker, d.sends (.read r) = [] ∧
      d.tracker.trackFile content r.fullPath r.changeHandle = some tracker ∧
      d.after (.read r) = { d.act .trackThisFile content with tracker }) ∨
    ∃ content, d.sends (.read r) = [] ∧ d.after (.read r) = d.act .getFile content := by
  unfold after sends
  dsimp only
  cases hrequest : request r.chunk with
  | none => exact Or.inl ⟨rfl, Or.inl (dispatchMessage_of_none hrequest)⟩
  | some found =>
    obtain ⟨t, content⟩ := found
    rw [dispatchMessage_of_some hrequest]
    -- an unknown type ends the process
    rcases t with _ | t
    · exact Or.inl ⟨rfl, Or.inr rfl⟩
    · -- of the known types three are served, the others end the process
      cases t with
      | echoMessage => exact Or.inr (Or.inl ⟨content, rfl, rfl⟩)
      | trackThisFile =>
        dsimp only
        cases htrack : d.tracker.trackFile content r.fullPath r.changeHandle with
        | none => exact Or.inr (Or.inr (Or.inl ⟨content, rfl, rfl⟩))
        | some tracker =>
          exact Or.inr (Or.inr (Or.inr (Or.inl ⟨content, tracker, rfl, htrack, rfl⟩)))
      | getFile => exact Or.inr (Or.inr (Or.inr (Or.inr ⟨content, rfl, rfl⟩)))
      | _ => exact Or.inl ⟨rfl, Or.inr rfl⟩

/-- What the client is owed for the requests that were acted on. -/
def echoes (d : Daemon) : List (EMessage × Bytes) := d.acted.filter fun q => q.1 = .echoMessage

/-- What a daemon has told its client: these messages, of which the changes are those that were
taken out of the queue. -/
structure Told (d : Daemon) (msgs : List (EMessage × Bytes)) (q : Fifo ChangeInfo) : Prop where
  written : d.written = msgs.map encodeMessage
  known : ∀ msg ∈ msgs, msg.1 = .echoMessage ∨ msg.1 = .trackedFileChanged
  echoed : msgs.filter (fun msg => msg.1 = .echoMessage) = d.echoes
  changes : (msgs.filter fun msg => msg.1 = .trackedFileChanged) =
    q.taken.map fun info => (.trackedFileChanged, info.text)
  queue : d.tracker.changeInfo = q.waiting

/-- Nothing has been written yet. -/
theorem told_start : Told {} [] {} := ⟨rfl, by simp, rfl, rfl, rfl⟩

variable {d : Daemon} {msgs : List (EMessage × Bytes)} {q : Fifo ChangeInfo}

/-- A step that says nothing to the client and leaves the queue alone. -/
theorem Told.silent (h : d.Told msgs q) {d' : Daemon} (hwritten : d'.written = d.written)
    (hechoes : d'.echoes = d.echoes) (hqueue : d'.tracker.changeInfo = d.tracker.changeInfo) :
    d'.Told msgs q :=
  ⟨hwritten.trans h.written, h.known, h.echoed.trans hechoes.symm, h.changes,
    hqueue.trans h.queue⟩

/-- The echoes after one more request. -/
theorem echoes_act (d : Daemon) (t : EMessage) (content : Bytes) :
    (d.act t content).echoes =
      d.echoes ++ if t = .echoMessage then [(t, content)] else [] := by
  unfold echoes act
  rw [List.filter_append]
  split_ifs with ht <;> simp [ht]

/-- A read writes at most the echo of its request. -/
theorem Told.read (h : d.Told msgs q) (r : Round) :
    (d.after (.read r)).Told (msgs ++ d.sends (.read r)) q := by
  rcases d.after_read_cases r with ⟨hsends, hafter | hafter⟩ | ⟨content, hsends, hafter⟩ |
    ⟨content, hsends, hafter⟩ | ⟨content, tracker, hsends, htrack, hafter⟩ |
    ⟨content, hsends, hafter⟩
  · -- nothing that was asked for
    rw [hsends, hafter, List.append_nil]
    exact h
  · rw [hsends, hafter, List.append_nil]
    exact h.silent rfl rfl rfl
  · rw [hsends, hafter]
    refine ⟨?_, ?_, ?_, ?_, h.queue⟩
    · rw [List.map_append, ← h.written]
      rfl
    · intro msg hmsg
      rcases List.mem_append.mp hmsg with hold | hnew
      · exact h.known msg hold
      · rw [List.mem_singleton.mp hnew]
        exact Or.inl rfl
    · rw [List.filter_append, h.echoed]
      exact (d.echoes_act .echoMessage content).symm
    · rw [List.filter_append, h.changes]
      simp
  · rw [hsends, hafter, List.append_nil]
    exact h.silent rfl ((d.echoes_act _ content).trans (List.append_nil _)) rfl
  · rw [hsends, hafter, List.append_nil]
    exact h.silent rfl ((d.echoes_act _ content).trans (List.append_nil _))
      (Tracker.trackFile_eq htrack).2.2
  · rw [hsends, hafter, List.append_nil]
    exact h.silent rfl ((d.echoes_act _ content).trans (List.append_nil _)) rfl

/-- A look at the queue writes its first change, if there is one. -/
theorem Told.notify (h : d.Told msgs q) :
    (d.after .notify).Told (msgs ++ d.sends .notify) (q.step .take) := by
  have hqueue := h.queue
  unfold after propagateChange sends Fifo.step
  cases hinfo : d.tracker.changeInfo with
  -- nothing waits
  | nil =>
    rw [← hqueue, hinfo]
    dsimp only
    rw [List.head?_nil, Option.map_none, Option.toList_none, List.append_nil]
    exact h
  -- the first change goes into a message and out of the queue
  | cons info rest =>
    rw [← hqueue, hinfo]
    refine ⟨?_, ?_, ?_, ?_, rfl⟩
    · show d.written ++ _ = _
      rw [List.map_append, h.written]
      rfl
    · intro msg hmsg
      rcases List.mem_append.mp hmsg with hold | hnew
      · exact h.known msg hold
      · rw [List.mem_singleton.mp hnew]
        exact Or.inr rfl
    · rw [List.filter_append, h.echoed]
      exact List.append_nil _
    · rw [List.filter_append, h.changes, List.map_append]
      rfl

/-- An event only adds to the queue. -/
theorem Told.event (h : d.Told msgs q) {wd changeHandle : TrackHandle} {len : UInt32}
    {tracker : Tracker} (hevent : d.tracker.handleEvent wd len changeHandle = some tracker) :
    { d with tracker }.Told msgs (q.step (.put (d.tracker.reports wd len))) := by
  refine ⟨h.written, h.known, h.echoed, h.changes, ?_⟩
  show tracker.changeInfo = q.waiting ++ _
  rw [Tracker.changeInfo_handleEvent hevent, h.queue]

/-- A client that takes the messages one by one finds those about changes. -/
theorem Told.notified (h : d.Told msgs q) (hshort : ∀ msg ∈ msgs, msg.2.length < 2 ^ 16) :
    d.notified = q.taken.map ChangeInfo.text := by
  -- each message is decoded to itself
  have hdecode : ∀ msg ∈ msgs, takeMessage (encodeMessage msg) = some (msg, []) := by
    intro msg hmsg
    have hend := encodeMessage_delimits (hshort msg hmsg) []
    rwa [List.append_nil] at hend
  have htexts : d.notified =
      (msgs.filter fun msg => msg.1 = .trackedFileChanged).map Prod.snd := by
    rw [Daemon.notified, h.written, List.filterMap_map]
    clear h hshort
    -- the client takes the messages in their order
    induction msgs with
    | nil => rfl
    | cons msg msgs ih =>
      have hrest := ih fun msg' hmsg' => hdecode msg' (by simp [hmsg'])
      obtain ⟨t, payload⟩ := msg
      rw [List.filterMap_cons, Function.comp_apply, hdecode _ (by simp), hrest]
      cases t <;> rfl
  rw [htexts, h.changes, List.map_map]
  rfl

end Daemon

namespace MainLoop

variable {m m' : MainLoop} {a : Action} {actions : List Action} {msgs : List (EMessage × Bytes)}
  {q : Fifo ChangeInfo}

/-- No payload is longer than the chunk or the file name it comes from. -/
theorem length_sends (hm : m.Sound) (a : Action) :
    ∀ msg ∈ m.daemon.sends a, msg.2.length ≤ 504 := by
  intro msg hmsg
  cases a with
  | read r =>
    unfold Daemon.sends at hmsg
    dsimp only at hmsg
    split at hmsg
    case h_1 content hrequest =>
      -- the payload is a part of the chunk
      have hlen := length_of_request hrequest
      have hfits := r.fits
      rw [List.mem_singleton.mp hmsg]
      show content.length ≤ 504
      omega
    case h_2 => exact absurd hmsg List.not_mem_nil
  | notify =>
    unfold Daemon.sends at hmsg
    dsimp only at hmsg
    cases hqueue : m.daemon.tracker.changeInfo with
    | nil =>
      rw [hqueue] at hmsg
      exact absurd hmsg List.not_mem_nil
    | cons info rest =>
      rw [hqueue] at hmsg
      rw [List.mem_singleton.mp hmsg]
      exact (length_cStr_le _).trans (hm.names.queued info (by simp [hqueue]))
  | event wd len fullPath changeHandle => exact absurd hmsg List.not_mem_nil
  | client now => exact absurd hmsg List.not_mem_nil

/-- An event that no fault stops was handled by the tracker. -/
theorem after_event_of_step {wd changeHandle : TrackHandle} {len : UInt32} {fullPath : Bytes}
    (h : m.step (.event wd len fullPath changeHandle) = .ok m') :
    ∃ tracker, m.daemon.tracker.handleEvent wd len changeHandle = some tracker ∧
      m.daemon.after (.event wd len fullPath changeHandle) = { m.daemon with tracker } := by
  obtain ⟨tracker, hinto, _⟩ := bind_eq_ok.mp h
  have hevent :=
    (m.daemon.tracker.handleEventInto_outcome wd len fullPath changeHandle).of_ok hinto
  refine ⟨tracker, hevent, ?_⟩
  unfold Daemon.after
  dsimp only
  rw [hevent]

/-- A step of the main loop that no fault stops tells the client what it sends, and does to the
queue what it does. -/
theorem told_step (hm : m.Sound) (h : m.step a = .ok m') (ht : m.daemon.Told msgs q) :
    m'.daemon.Told (msgs ++ m.daemon.sends a) (q.step (m.daemon.queueOp a)) := by
  have hidle : q.step (.put []) = q := by simp [Fifo.step]
  rw [((step_outcome hm a).of_ok h).2]
  cases a with
  | read r => exact hidle.symm ▸ ht.read r
  | notify => exact ht.notify
  | event wd len fullPath changeHandle =>
    obtain ⟨tracker, hevent, hafter⟩ := after_event_of_step h
    have hnone : m.daemon.sends (.event wd len fullPath changeHandle) = [] := rfl
    rw [hafter, hnone, List.append_nil]
    exact ht.event hevent
  | client now =>
    have hnone : m.daemon.sends (.client now) = [] := rfl
    rw [hnone, List.append_nil]
    exact hidle.symm ▸ ht

/-- What the client has been told is kept up over a run. -/
theorem told_run (hm : m.Sound) (ht : m.daemon.Told msgs q) (h : run m actions = .ok m') :
    m'.Sound ∧ ∃ sent, (∀ msg ∈ sent, msg.2.length ≤ 504) ∧
      m'.daemon.Told (msgs ++ sent) (q.run (m.daemon.queueOps actions)) := by
  induction actions generalizing m msgs q with
  | nil =>
    cases h
    exact ⟨hm, [], by simp, by rwa [List.append_nil]⟩
  | cons a as ih =>
    rw [run, List.foldlM_cons] at h
    -- the first action, then the rest of the run
    obtain ⟨mid, hstep, hrest⟩ := bind_eq_ok.mp h
    obtain ⟨hmid, hafter⟩ := (step_outcome hm a).of_ok hstep
    obtain ⟨hm', sent, hshort, htold⟩ := ih hmid (told_step hm hstep ht) hrest
    refine ⟨hm', m.daemon.sends a ++ sent, ?_, ?_⟩
    · rw [List.forall_mem_append]
      exact ⟨length_sends hm a, hshort⟩
    · rw [← List.append_assoc, Daemon.queueOps, Fifo.run, List.foldl_cons, ← hafter]
      exact htold

/-- What holds after a run from the start. -/
theorem told_from_start (h : run {} actions = .ok m) :
    m.Sound ∧ ∃ msgs, (∀ msg ∈ msgs, msg.2.length ≤ 504) ∧
      m.daemon.Told msgs (Fifo.run {} (Daemon.queueOps {} actions)) :=
  told_run sound_start Daemon.told_start h

/-! ## What the client reads -/

/-- The queue is taken from when the daemon looks at it. -/
theorem isTake_queueOp (d : Daemon) (a : Action) : (d.queueOp a).isTake = a.isNotify := by
  cases a <;> rfl

/-- The queue is taken from as often as the daemon looks at it. -/
theorem countP_queueOps (d : Daemon) (actions : List Action) :
    (d.queueOps actions).countP Fifo.Op.isTake = actions.countP Action.isNotify := by
  induction actions generalizing d with
  | nil => rfl
  | cons a as ih =>
    rw [Daemon.queueOps, List.countP_cons, List.countP_cons, ih, isTake_queueOp]

/-- A request to track `"a"`. -/
def trackRound : Round where
  chunk := encodeMessage (.trackThisFile, ascii "a")
  fits := by decide
  fullPath := ascii "/a"
  changeHandle := 1

end MainLoop

/-! ## About which files -/

namespace Tracker

theorem trackedDirectory_handleEvent {t t' : Tracker} {wd changeHandle : TrackHandle} {len : UInt32}
    (h : t.handleEvent wd len changeHandle = some t') :
    t'.trackedDirectory = t.trackedDirectory := by
  unfold handleEvent at h
  by_cases hlen : len = 0
  · rw [if_neg (by simpa using hlen)] at h
    cases hwd : t.handleToFileName wd with
    | some fileName =>
      simp only [hwd] at h
      split_ifs at h
      cases h
      rfl
    | none =>
      simp only [hwd] at h
      cases hdir : t.trackedDirectory wd <;> simp only [hdir] at h <;> cases h <;> rfl
  · rw [if_pos hlen] at h
    cases h
    rfl

/-- `TrackFile` adds no directory. -/
theorem trackedDirectory_trackFile {t t' : Tracker} {fileName fullPath : Bytes}
    {changeHandle : TrackHandle} (h : t.trackFile fileName fullPath changeHandle = some t') :
    t'.trackedDirectory = t.trackedDirectory := by
  unfold trackFile at h
  split_ifs at h
  cases h
  rfl

end Tracker

namespace Daemon

/-- The client has asked to track the file of this name. -/
def Requested (d : Daemon) (name : Bytes) : Prop :=
  ∃ content, (.trackThisFile, content) ∈ d.acted ∧ cStr content = name

/-- What has been asked for stays asked for. -/
theorem Requested.mono {d d' : Daemon} (hacted : d.acted <+: d'.acted) {name : Bytes}
    (h : d.Requested name) : d'.Requested name := by
  obtain ⟨content, hmem, hname⟩ := h
  exact ⟨content, hacted.subset hmem, hname⟩

theorem acted_after (d : Daemon) (a : Action) : d.acted <+: (d.after a).acted := by
  cases a with
  | read r =>
    rcases d.after_read_cases r with ⟨_, hafter | hafter⟩ | ⟨content, _, hafter⟩ |
      ⟨content, _, hafter⟩ | ⟨content, tracker, _, _, hafter⟩ | ⟨content, _, hafter⟩
    · rw [hafter]
    · rw [hafter]
    all_goals
      rw [hafter]
      exact List.prefix_append _ _
  | notify =>
    show d.acted <+: d.propagateChange.acted
    rw [acted_propagateChange]
  | event wd len fullPath changeHandle =>
    unfold after
    dsimp only
    split <;> exact List.prefix_rfl
  | client now => exact List.prefix_rfl

/-- The tracker knows requested files only, and so does the history of the queue. -/
structure Requests (d : Daemon) (q : Fifo ChangeInfo) : Prop where
  tracked : ∀ fd name, d.tracker.handleToFileName fd = some name → d.Requested name
  directories : ∀ wd, d.tracker.trackedDirectory wd = none
  history : ∀ info ∈ q.history, info.directory = [] ∧ d.Requested info.file

variable {d : Daemon} {q : Fifo ChangeInfo}

/-- A step that adds neither a file nor a change. -/
theorem Requests.keep (h : d.Requests q) {d' : Daemon} (hacted : d.acted <+: d'.acted)
    (htracker : d'.tracker.handleToFileName = d.tracker.handleToFileName)
    (hdirs : d'.tracker.trackedDirectory = d.tracker.trackedDirectory) : d'.Requests q := by
  refine ⟨fun fd name hfd => ?_, fun wd => ?_, fun info hinfo => ?_⟩
  · rw [htracker] at hfd
    exact (h.tracked fd name hfd).mono hacted
  · rw [hdirs]
    exact h.directories wd
  · obtain ⟨hdir, hfile⟩ := h.history info hinfo
    exact ⟨hdir, hfile.mono hacted⟩

/-- A read enters at most the file of its request. -/
theorem Requests.read (h : d.Requests q) (r : Round) : (d.after (.read r)).Requests q := by
  have hacted := d.acted_after (.read r)
  rcases d.after_read_cases r with ⟨_, hafter | hafter⟩ | ⟨content, _, hafter⟩ |
    ⟨content, _, hafter⟩ | ⟨content, tracker, _, htrack, hafter⟩ | ⟨content, _, hafter⟩
  all_goals rw [hafter] at hacted ⊢
  · exact h
  · exact h.keep hacted rfl rfl
  · exact h.keep hacted rfl rfl
  · exact h.keep hacted rfl rfl
  · -- the file of this request is new
    obtain ⟨_, hhandles, _⟩ := Tracker.trackFile_eq htrack
    refine ⟨?_, fun wd => ?_, fun info hinfo => ?_⟩
    · show ∀ fd name, tracker.handleToFileName fd = some name → _
      rw [hhandles]
      refine forall_insertNew (fun fd name hfd => (h.tracked fd name hfd).mono hacted) ?_
      exact ⟨content, by simp [act], rfl⟩
    · show tracker.trackedDirectory wd = none
      rw [Tracker.trackedDirectory_trackFile htrack]
      exact h.directories wd
    · obtain ⟨hdir, hfile⟩ := h.history info hinfo
      exact ⟨hdir, hfile.mono hacted⟩
  · exact h.keep hacted rfl rfl

/-- A look at the queue drops its first change. -/
theorem tracker_propagateChange (d : Daemon) :
    d.propagateChange.tracker = { d.tracker with changeInfo := d.tracker.changeInfo.tail } := by
  unfold propagateChange
  cases hqueue : d.tracker.changeInfo with
  | nil =>
    show d.tracker = _
    rw [List.tail_nil, ← hqueue]
  | cons info rest => rfl

/-- A look at the queue enters no file. -/
theorem Requests.notify (h : d.Requests q) : (d.after .notify).Requests (q.step .take) := by
  have hkeep : (d.after .notify).Requests q := by
    have htracker : (d.after .notify).tracker = _ := d.tracker_propagateChange
    refine h.keep (d.acted_after .notify) ?_ ?_ <;> rw [htracker]
  refine ⟨hkeep.tracked, hkeep.directories, fun info hinfo => hkeep.history info ?_⟩
  rwa [Fifo.history_step, Fifo.Op.elements, List.append_nil] at hinfo

/-- An event enters no name that was not entered before, and reports no other one. -/
theorem Requests.event (h : d.Requests q) {wd changeHandle : TrackHandle} {len : UInt32}
    {tracker : Tracker} (hevent : d.tracker.handleEvent wd len changeHandle = some tracker) :
    { d with tracker }.Requests (q.step (.put (d.tracker.reports wd len))) := by
  refine ⟨?_, fun fd => ?_, ?_⟩
  · show ∀ fd name, tracker.handleToFileName fd = some name → d.Requested name
    -- the file's name is entered again, or nothing is
    rcases Tracker.handleEvent_cases hevent with
      ⟨_, fileName, hwd, _, hhandles, _⟩ | ⟨_, _, hhandles, _⟩
    · rw [hhandles]
      obtain ⟨content, hmem, hname⟩ := h.tracked wd fileName hwd
      refine forall_insertNew (fun fd name hfd => ?_) ⟨content, hmem, ?_⟩
      · rw [erase, Function.update_apply] at hfd
        split_ifs at hfd
        exact h.tracked fd name hfd
      · rw [← hname, cStr_eq_self (zero_notMem_cStr content)]
    · rw [hhandles]
      exact h.tracked
  · show tracker.trackedDirectory fd = none
    rw [Tracker.trackedDirectory_handleEvent hevent]
    exact h.directories fd
  · intro info hinfo
    rw [Fifo.history_step] at hinfo
    rcases List.mem_append.mp hinfo with hold | hnew
    · exact h.history info hold
    · -- without a directory, only a file is reported
      change info ∈ d.tracker.reports wd len at hnew
      unfold Tracker.reports at hnew
      rw [h.directories wd] at hnew
      split_ifs at hnew with hlen
      · exact absurd hnew List.not_mem_nil
      · cases hwd : d.tracker.handleToFileName wd with
        | none =>
          rw [hwd] at hnew
          exact absurd hnew List.not_mem_nil
        | some fileName =>
          rw [hwd] at hnew
          rw [List.mem_singleton.mp hnew]
          exact ⟨rfl, h.tracked wd fileName hwd⟩

end Daemon

namespace MainLoop

variable {m m' : MainLoop} {a : Action} {actions : List Action} {q : Fifo ChangeInfo}

/-- One action keeps the entered names among those asked for. -/
theorem requests_step (hm : m.Sound) (h : m.step a = .ok m') (hr : m.daemon.Requests q) :
    m'.daemon.Requests (q.step (m.daemon.queueOp a)) := by
  have hidle : q.step (.put []) = q := by simp [Fifo.step]
  rw [((step_outcome hm a).of_ok h).2]
  cases a with
  | read r => exact hidle.symm ▸ hr.read r
  | notify => exact hr.notify
  | event wd len fullPath changeHandle =>
    obtain ⟨tracker, hevent, hafter⟩ := after_event_of_step h
    rw [hafter]
    exact hr.event hevent
  | client now => exact hidle.symm ▸ hr

/-- The entered names stay among those asked for, over a whole run. -/
theorem requests_run (hm : m.Sound) (hr : m.daemon.Requests q) (h : run m actions = .ok m') :
    m'.daemon.Requests (q.run (m.daemon.queueOps actions)) := by
  induction actions generalizing m q with
  | nil =>
    cases h
    exact hr
  | cons a as ih =>
    rw [run, List.foldlM_cons] at h
    -- the first action, then the rest of the run
    obtain ⟨mid, hstep, hrest⟩ := bind_eq_ok.mp h
    obtain ⟨hmid, hafter⟩ := (step_outcome hm a).of_ok hstep
    rw [Daemon.queueOps, Fifo.run, List.foldl_cons, ← hafter]
    exact ih hmid (requests_step hm hstep hr) hrest

/-- No name is entered at the start. -/
theorem requests_start : Daemon.Requests {} {} := ⟨by simp, by simp, by simp [Fifo.history]⟩

end MainLoop

end Guthi
