import Guthi.Daemon.Buffers
import Guthi.Daemon.Framing
import Guthi.Lib.Run

/-!
# Guthi — the main loop and its buffers

`DispatchMessage` and `main` of `daemon/runtime.cpp` with the arrays they write to. The main
thread reads a chunk and dispatches it, or sends a notification; the listening thread handles an
event; the client stops or goes on reading, or closes its end. A run is any sequence of these, so
it has the interleavings of the two threads and of the client among it.

* `read_cases`, `notify_cases` — what the steps of the main thread do;
* `every_dispatch_ends_as` — which chunks `DispatchMessage` returns from, and how it ends the
  process on the others;
* `run_outcome` — a run that no fault stops is one of the daemon of `Daemon/Runtime.lean`;
* `buffers_suffice` — no run leaves the arrays of messages or returns a length that has wrapped.
-/

namespace Guthi

/-- A call of `PrepareMessage`: the data it was to send, and the length it returned. -/
structure Prepared where
  payload : Bytes
  returned : UInt16
deriving DecidableEq, Repr

/-- `msg` is the array of `main`; the client is the one that it has accepted. -/
structure MainLoop where
  daemon : Daemon := {}
  client : Client := .reading
  msg : Vector UInt8 512 := zeros 512
  prepared : List Prepared := []

/-- A step of one of the threads, or of the client. The events of the listening thread are steps
of their own, so a round that is read has no use for `listened`. -/
inductive Action where
  | read (r : Round)
  | notify
  | event (wd : TrackHandle) (len : UInt32) (fullPath : Bytes) (changeHandle : TrackHandle)
  | client (now : Client)

namespace MainLoop

/-- `DispatchMessage(client, msg, valid_length)`. -/
def dispatchMessage (m : MainLoop) (validLength : Nat) (r : Round) :
    Except DaemonFault MainLoop :=
  if !messageVerified (m.msg.toList.take validLength) then .ok m
  else if validLength - magicConstant < 3 then .ok m
  else
    match m.msg.toList.drop magicConstant with
    | msgType :: _ :: _ :: msgStart =>
      let toReadLength := validLength - magicConstant - 3
      match EMessage.ofCode msgType with
      | some .echoMessage => do
        let content := msgStart.take toReadLength
        let (sendBuffer, contentLength) ← prepareMessageInto .sendBuffer (zeros 512) .echoMessage
          msgStart (UInt16.ofNat toReadLength)
        let daemon ←
          (m.daemon.act .echoMessage content).writeFrom m.client sendBuffer contentLength
        return { m with daemon, prepared := m.prepared ++ [⟨content, contentLength⟩] }
      | some .trackThisFile => do
        let buffer ← memcpy .buffer (zeros 512) 0 msgStart toReadLength
        -- `std::string(buffer, to_read_length)`
        let name := buffer.toList.take toReadLength
        let tracker ← m.daemon.tracker.trackFileInto name r.fullPath r.changeHandle
        return { m with daemon := { m.daemon.act .trackThisFile name with tracker } }
      | some .getFile =>
        .ok { m with daemon := m.daemon.act .getFile (msgStart.take toReadLength) }
      | _ => .error (.exit (-2))
    | _ => .error .readOutside

/-- `ReadNonBlocking(client, msg, 512)`, the dispatch of what it returns, and the `memset`. -/
def read (m : MainLoop) (r : Round) : Except DaemonFault MainLoop := do
  let msg ← memcpy .msg m.msg 0 r.chunk r.chunk.length
  let m := { m with msg }
  let m ← if r.chunk = [] then .ok m else m.dispatchMessage r.chunk.length r
  return { m with msg := zeros 512 }

/-- `TryPopChangeInfo`, and the message about what it gives, which is put together in `msg`. -/
def notify (m : MainLoop) : Except DaemonFault MainLoop :=
  match m.daemon.tracker.changeInfo with
  | [] => .ok m
  | info :: rest => do
    let changedContent := cStr info.file
    let (msg, msgLength) ← prepareMessageInto .msg m.msg .trackedFileChanged changedContent
      (UInt16.ofNat changedContent.length)
    let tracker := { m.daemon.tracker with changeInfo := rest }
    let daemon ← { m.daemon with tracker }.writeFrom m.client msg msgLength
    return { m with daemon, msg, prepared := m.prepared ++ [⟨changedContent, msgLength⟩] }

/-- One action of the main thread, of the thread that tracks, or of the client. -/
def step (m : MainLoop) : Action → Except DaemonFault MainLoop
  | .read r => m.read r
  | .notify => m.notify
  | .event wd len fullPath changeHandle => do
    let tracker ← m.daemon.tracker.handleEventInto wd len fullPath changeHandle
    return { m with daemon := { m.daemon with tracker } }
  -- an end that is closed stays closed
  | .client now => .ok { m with client := if m.client = .closed then .closed else now }

/-- A step that no fault stops. -/
def next (m : MainLoop) (a : Action) : Option MainLoop := (m.step a).toOption

/-- A run, up to its first fault. -/
def run (m : MainLoop) (actions : List Action) : Except DaemonFault MainLoop :=
  actions.foldlM step m

/-! ## One call of `DispatchMessage` -/

variable {m : MainLoop} {chunk content : Bytes} {t : Option EMessage}

/-- A chunk without a request changes nothing. -/
theorem dispatchMessage_of_none (hmsg : m.msg.toList.take chunk.length = chunk)
    (h : request chunk = none) (r : Round) : m.dispatchMessage chunk.length r = .ok m := by
  unfold request at h
  rw [dispatchMessage, hmsg]
  split_ifs at h ⊢ with hverified hshort
  · rfl
  · rfl
  · -- with three bytes or more there would be a request
    have hlong : 3 ≤ (chunk.drop magicConstant).length := by
      rw [List.length_drop]
      omega
    rcases hrest : chunk.drop magicConstant with _ | ⟨c, _ | ⟨lo, _ | ⟨hi, content⟩⟩⟩
    · simp [hrest] at hlong
    · simp [hrest] at hlong
    · simp [hrest] at hlong
    · simp [hrest] at h

/-- What `DispatchMessage` finds in the array when the chunk is a request. -/
theorem msg_of_request (hmsg : m.msg.toList.take chunk.length = chunk)
    (h : request chunk = some (t, content)) :
    messageVerified chunk = true ∧ ¬ chunk.length - magicConstant < 3 ∧
      chunk.length - magicConstant - 3 = content.length ∧
      ∃ c lo hi tail, m.msg.toList.drop magicConstant = c :: lo :: hi :: (content ++ tail) ∧
        EMessage.ofCode c = t := by
  obtain ⟨hverified, c, lo, hi, hrest, hcode⟩ := request_eq_some h
  have hlen := length_of_request h
  unfold magicConstant at hrest ⊢
  refine ⟨hverified, by omega, by omega, c, lo, hi, m.msg.toList.drop chunk.length, ?_, hcode⟩
  -- the chunk lies at the front of the array
  calc m.msg.toList.drop 5
      = (chunk ++ m.msg.toList.drop chunk.length).drop 5 := by
        conv_rhs => rw [← hmsg, List.length_take_of_le (by rw [← hmsg]; simp),
          List.take_append_drop]
    _ = c :: lo :: hi :: (content ++ m.msg.toList.drop chunk.length) := by
        rw [List.drop_append_of_le_length (by omega), hrest]
        rfl

/-- An echo is prepared in the send buffer and written, as far as the client lets it be. -/
theorem dispatchMessage_echo (hmsg : m.msg.toList.take chunk.length = chunk)
    (hfits : chunk.length ≤ 512) (h : request chunk = some (some .echoMessage, content))
    (r : Round) :
    ∃ returned : UInt16, returned.toNat = content.length + 8 ∧
      m.dispatchMessage chunk.length r = m.client.takes
        { m with
          daemon := m.daemon.dispatchMessage chunk r
          prepared := m.prepared ++ [⟨content, returned⟩] } := by
  obtain ⟨hverified, hlong, hlen, c, lo, hi, tail, hrest, hcode⟩ := msg_of_request hmsg h
  have hroom : content.length ≤ 504 := by
    rw [← hlen]
    unfold magicConstant
    omega
  obtain ⟨buf, returned, hprepare, hreturned, hwrite⟩ :=
    prepare_and_write .sendBuffer (zeros 512) .echoMessage
      (m.daemon.act .echoMessage content) m.client content tail hroom
  refine ⟨returned, hreturned, ?_⟩
  rw [dispatchMessage, hmsg, if_neg (by simpa using hverified), if_neg hlong, hrest]
  simp only [hcode, hlen, List.take_left]
  rw [hprepare, ok_bind]
  simp only [hwrite]
  rw [Daemon.dispatchMessage_of_some h]
  cases m.client <;> rfl

/-- A track request copies the name into a buffer of its own. -/
theorem dispatchMessage_track (hmsg : m.msg.toList.take chunk.length = chunk)
    (hfits : chunk.length ≤ 512) (h : request chunk = some (some .trackThisFile, content))
    (r : Round) :
    m.dispatchMessage chunk.length r =
      (m.daemon.tracker.trackFileInto content r.fullPath r.changeHandle >>= fun tracker =>
        .ok { m with daemon := { m.daemon.act .trackThisFile content with tracker } }) := by
  obtain ⟨hverified, hlong, hlen, c, lo, hi, tail, hrest, hcode⟩ := msg_of_request hmsg h
  have hpre : (zeros 512).toList.take 0 = [] := rfl
  have hroom : 0 + content.length ≤ 512 := by
    rw [← hlen]
    omega
  obtain ⟨buffer, hcopy, hbuffer⟩ :=
    memcpy_fits .buffer (content ++ tail) content.length hpre (by simp) hroom
  rw [Nat.zero_add, List.nil_append, List.take_left] at hbuffer
  rw [dispatchMessage, hmsg, if_neg (by simpa using hverified), if_neg hlong, hrest]
  simp only [hcode, hlen]
  rw [hcopy, ok_bind, hbuffer]
  rfl

/-- A get request is only printed. -/
theorem dispatchMessage_getFile (hmsg : m.msg.toList.take chunk.length = chunk)
    (h : request chunk = some (some .getFile, content)) (r : Round) :
    m.dispatchMessage chunk.length r =
      .ok { m with daemon := m.daemon.dispatchMessage chunk r } := by
  obtain ⟨hverified, hlong, hlen, c, lo, hi, tail, hrest, hcode⟩ := msg_of_request hmsg h
  rw [dispatchMessage, hmsg, if_neg (by simpa using hverified), if_neg hlong, hrest,
    Daemon.dispatchMessage_of_some h]
  simp only [hcode, hlen, List.take_left]

/-- Any other type ends the process. -/
theorem dispatchMessage_unhandled (hmsg : m.msg.toList.take chunk.length = chunk)
    (h : request chunk = some (t, content)) (ht : ∀ t', t = some t' → ¬ t'.IsRequest)
    (r : Round) : m.dispatchMessage chunk.length r = .error (.exit (-2)) := by
  obtain ⟨hverified, hlong, _, c, lo, hi, tail, hrest, hcode⟩ := msg_of_request hmsg h
  rw [dispatchMessage, hmsg, if_neg (by simpa using hverified), if_neg hlong, hrest]
  simp only [hcode]
  rcases t with _ | t
  · rfl
  · have hnot := ht t rfl
    cases t with
    | echoMessage => exact absurd (Or.inl rfl) hnot
    | trackThisFile => exact absurd (Or.inr (Or.inl rfl)) hnot
    | getFile => exact absurd (Or.inr (Or.inr rfl)) hnot
    | _ => rfl

/-! ## One step -/

/-- A read copies the chunk into `msg`, dispatches it and clears `msg`. -/
theorem read_eq (m : MainLoop) (r : Round) :
    ∃ msg : Vector UInt8 512, msg.toList.take r.chunk.length = r.chunk ∧
      m.read r = ({ m with msg := msg }.dispatchMessage r.chunk.length r >>= fun m' =>
        .ok { m' with msg := zeros 512 }) := by
  have hpre : m.msg.toList.take 0 = [] := rfl
  have hroom : 0 + r.chunk.length ≤ 512 := by
    rw [Nat.zero_add]
    exact r.fits
  obtain ⟨msg, hcopy, hmsg⟩ := memcpy_fits .msg r.chunk r.chunk.length hpre (Nat.le_refl _) hroom
  rw [Nat.zero_add, List.nil_append, List.take_length] at hmsg
  refine ⟨msg, hmsg, ?_⟩
  rw [read, hcopy, ok_bind]
  split_ifs with hchunk
  · -- nothing was read, and nothing would be dispatched
    rw [dispatchMessage_of_none hmsg (by rw [hchunk]; rfl)]
    rfl
  · rfl

/-- What the main thread does with a chunk. -/
theorem read_cases (m : MainLoop) (r : Round) :
    (request r.chunk = none ∧ m.read r = .ok { m with msg := zeros 512 }) ∨
    (∃ content returned, request r.chunk = some (some .echoMessage, content) ∧
      returned.toNat = content.length + 8 ∧
      m.read r = m.client.takes
        { m with
          daemon := m.daemon.dispatchMessage r.chunk r
          msg := zeros 512
          prepared := m.prepared ++ [⟨content, returned⟩] }) ∨
    (∃ content, request r.chunk = some (some .trackThisFile, content) ∧
      m.read r = (m.daemon.tracker.trackFileInto content r.fullPath r.changeHandle >>=
        fun tracker => .ok
          { m with
            daemon := { m.daemon.act .trackThisFile content with tracker }
            msg := zeros 512 })) ∨
    (∃ content, request r.chunk = some (some .getFile, content) ∧
      m.read r = .ok
        { m with daemon := m.daemon.dispatchMessage r.chunk r, msg := zeros 512 }) ∨
    (∃ t content, request r.chunk = some (t, content) ∧ (∀ t', t = some t' → ¬ t'.IsRequest) ∧
      m.read r = .error (.exit (-2))) := by
  obtain ⟨msg, hmsg, hread⟩ := read_eq m r
  rw [hread]
  cases hrequest : request r.chunk with
  | none =>
    left
    rw [dispatchMessage_of_none hmsg hrequest]
    exact ⟨rfl, rfl⟩
  | some found =>
    right
    obtain ⟨t, content⟩ := found
    -- the three types that are served, and the others
    by_cases hknown : ∃ t', t = some t' ∧ t'.IsRequest
    · obtain ⟨t', rfl, rfl | rfl | rfl⟩ := hknown
      · obtain ⟨returned, hreturned, hecho⟩ :=
          dispatchMessage_echo (m := { m with msg }) hmsg r.fits hrequest r
        rw [hecho]
        refine Or.inl ⟨content, returned, rfl, hreturned, ?_⟩
        -- where the write does not return, the `memset` is not come to either
        show m.client.takes _ >>= _ = m.client.takes _
        cases m.client <;> rfl
      · rw [dispatchMessage_track hmsg r.fits hrequest r]
        refine Or.inr (Or.inl ⟨content, rfl, ?_⟩)
        show (m.daemon.tracker.trackFileInto content r.fullPath r.changeHandle >>= _) >>= _ = _
        cases m.daemon.tracker.trackFileInto content r.fullPath r.changeHandle <;> rfl
      · rw [dispatchMessage_getFile hmsg hrequest r]
        exact Or.inr (Or.inr (Or.inl ⟨content, rfl, rfl⟩))
    · have hnot : ∀ t', t = some t' → ¬ t'.IsRequest := fun t' ht ht' => hknown ⟨t', ht, ht'⟩
      rw [dispatchMessage_unhandled hmsg hrequest hnot r]
      exact Or.inr (Or.inr (Or.inr ⟨t, content, rfl, hnot, rfl⟩))

/-- Where the names fit, the message about a change fits into `msg`. -/
theorem notify_cases {m : MainLoop} (hm : m.daemon.tracker.NamesFit) :
    (m.daemon.tracker.changeInfo = [] ∧ m.notify = .ok m) ∨
    ∃ info rest msg returned, m.daemon.tracker.changeInfo = info :: rest ∧
      returned.toNat = (cStr info.file).length + 8 ∧
      m.notify = m.client.takes
        { m with
          daemon := m.daemon.propagateChange
          msg := msg
          prepared := m.prepared ++ [⟨cStr info.file, returned⟩] } := by
  unfold notify Daemon.propagateChange
  cases hqueue : m.daemon.tracker.changeInfo with
  | nil => exact Or.inl ⟨rfl, rfl⟩
  | cons info rest =>
    right
    have hname : info.file.length ≤ 504 := hm.queued info (by simp [hqueue])
    have hroom : (cStr info.file).length ≤ 504 := (length_cStr_le info.file).trans hname
    let d : Daemon := { m.daemon with tracker := { m.daemon.tracker with changeInfo := rest } }
    obtain ⟨msg, returned, hprepare, hreturned, hwrite⟩ :=
      prepare_and_write .msg m.msg .trackedFileChanged d m.client (cStr info.file) [] hroom
    rw [List.append_nil] at hprepare
    refine ⟨info, rest, msg, returned, rfl, hreturned, ?_⟩
    simp only [hprepare, ok_bind]
    rw [hwrite]
    cases m.client <;> rfl

/-! ## What ends the process -/

end MainLoop

/-- Why `DispatchMessage` does not return from a chunk, if it does not: an echo that the client
does not take, a request of a type without a handler, or a file that cannot be tracked. -/
def Round.ending (r : Round) (client : Client) : Option DaemonFault :=
  match request r.chunk with
  | none => none
  | some (some .echoMessage, _) => client.fault
  | some (some .getFile, _) => none
  | some (some .trackThisFile, _) =>
    if (cStr r.fullPath).contains '/'.toUInt8 = false then some (.exit (-1))
    else if r.changeHandle < 0 then some .assertion
    else none
  | some _ => some (.exit (-2))

namespace MainLoop

/-- The read ends in the given way. -/
def EndsAs (m : MainLoop) (r : Round) : Option DaemonFault → Prop
  | none => ∃ m', m.read r = .ok m'
  | some f => m.read r = .error f

/-- How a read ends is decided by the request and the client. -/
theorem read_endsAs (m : MainLoop) {r : Round} (hpath : r.fullPath.length < 128) :
    m.EndsAs r (r.ending m.client) := by
  unfold Round.ending
  -- one case for each kind of chunk
  rcases read_cases m r with ⟨hrequest, hread⟩ | ⟨content, returned, hrequest, _, hread⟩ |
    ⟨content, hrequest, hread⟩ | ⟨content, hrequest, hread⟩ | ⟨t, content, hrequest, ht, hread⟩
  · rw [hrequest]
    exact ⟨_, hread⟩
  · rw [hrequest]
    show m.EndsAs r m.client.fault
    cases hclient : m.client with
    | reading => exact ⟨_, by rw [hread, hclient, Client.takes_reading]⟩
    | closed => exact hread.trans (by rw [hclient]; rfl)
    | stalled => exact hread.trans (by rw [hclient]; rfl)
  · rw [Tracker.trackFileInto_fits _ content r.changeHandle hpath] at hread
    rw [hrequest]
    dsimp only
    split_ifs at hread ⊢
    · exact hread
    · exact hread
    · exact ⟨_, hread⟩
  · rw [hrequest]
    exact ⟨_, hread⟩
  · rw [hrequest]
    rcases t with _ | t
    · exact hread
    · have hnot := ht t rfl
      cases t with
      | echoMessage => exact absurd (Or.inl rfl) hnot
      | trackThisFile => exact absurd (Or.inr (Or.inl rfl)) hnot
      | getFile => exact absurd (Or.inr (Or.inr rfl)) hnot
      | _ => exact hread

/-- In every run, and for every chunk that it comes to, `DispatchMessage` returns if the chunk is
no request, an echo for a client that takes it, or another request that has a handler and a file
that can be tracked. An echo for a client that has closed its end, and any other chunk, ends the
process; an echo for a client that does not read keeps `DispatchMessage` waiting. -/
theorem every_dispatch_ends_as (actions : List Action)
    (hpath : ∀ r, Action.read r ∈ actions → r.fullPath.length < 128) :
    EachTry next (fun m a => ∀ r, a = .read r → m.EndsAs r (r.ending m.client)) {} actions := by
  apply eachTry_of_forall
  rintro m a ha r rfl
  exact m.read_endsAs (hpath r ha)

/-- A message of a type that the protocol has and that no branch handles. -/
def unhandledRound : Round where
  chunk := magicBytes ++ [EMessage.invalidRequest.code, 0, 0]
  fits := by decide
  fullPath := []
  changeHandle := 0

/-- An echo, a look for changes, an echo for a client that has closed its end, and that message. -/
theorem every_dispatch_ends_as_example :
    EachTry next (fun m a => ∀ r, a = .read r → m.EndsAs r (r.ending m.client)) {}
      [.read ⟨exampleEcho.encode, by decide, [], 0, id⟩, .notify, .client .closed,
        .read ⟨exampleEcho.encode, by decide, [], 0, id⟩, .read unhandledRound] :=
  every_dispatch_ends_as _ (by simp [unhandledRound])

/-- `DispatchMessage` does not return from that message. -/
theorem unhandled_type_ends_process :
    ¬ EachTry next (fun m a => ∀ r, a = .read r → ∃ m', m.read r = .ok m') {}
      [.read unhandledRound] := by
  intro h
  have hending : MainLoop.EndsAs {} unhandledRound (some (.exit (-2))) :=
    read_endsAs {} (by decide)
  obtain ⟨m', hreturns⟩ := h.1 unhandledRound rfl
  rw [show MainLoop.read {} unhandledRound = .error (.exit (-2)) from hending] at hreturns
  cases hreturns

/-! ## The arrays in a run -/

/-- Every name that is tracked or queued fits into a message, and no length has wrapped. -/
structure Sound (m : MainLoop) : Prop where
  names : m.daemon.tracker.NamesFit
  lengths : ∀ p ∈ m.prepared, p.returned.toNat = p.payload.length + 8

end MainLoop

/-- A step of the daemon that knows no arrays, for a client that takes what is written. -/
def Daemon.after (d : Daemon) : Action → Daemon
  | .read r => d.dispatchMessage r.chunk r
  | .notify => d.propagateChange
  | .event wd len _ changeHandle =>
    match d.tracker.handleEvent wd len changeHandle with
    | some tracker => { d with tracker }
    | none => { d with running := false }
  | .client _ => d

namespace MainLoop

/-- The length that a preparation returns is the one it wrote. -/
theorem Sound.prepare {m : MainLoop} (hm : m.Sound) {payload : Bytes} {returned : UInt16}
    (h : returned.toNat = payload.length + 8) :
    ∀ p ∈ m.prepared ++ [⟨payload, returned⟩], p.returned.toNat = p.payload.length + 8 := by
  intro p hp
  rcases List.mem_append.mp hp with hold | hnew
  · exact hm.lengths p hold
  · rw [List.mem_singleton.mp hnew]
    exact h

/-- A read overruns no array, and does to the daemon what the model of the messages says. -/
theorem read_outcome {m : MainLoop} (hm : m.Sound) (r : Round) :
    Outcome (fun m' => m'.Sound ∧ m'.daemon = m.daemon.after (.read r))
      DaemonFault.SparesMessages (m.read r) := by
  show Outcome (fun m' : MainLoop => m'.Sound ∧ m'.daemon = m.daemon.dispatchMessage r.chunk r) _ _
  rcases read_cases m r with ⟨hrequest, hread⟩ | ⟨content, returned, hrequest, hreturned, hread⟩ |
    ⟨content, hrequest, hread⟩ | ⟨content, hrequest, hread⟩ | ⟨t, content, _, _, hread⟩
  · rw [hread, Daemon.dispatchMessage_of_none hrequest]
    exact outcome_ok.mpr ⟨⟨hm.names, hm.lengths⟩, rfl⟩
  · rw [hread]
    refine m.client.takes_outcome ⟨⟨?_, hm.prepare hreturned⟩, rfl⟩
    dsimp only
    rw [Daemon.dispatchMessage_of_some hrequest]
    exact hm.names
  · -- the name is a part of the chunk
    have hname : content.length ≤ 504 := by
      have hlen := length_of_request hrequest
      have hfits := r.fits
      omega
    rw [hread]
    refine (m.daemon.tracker.trackFileInto_outcome content r.fullPath r.changeHandle).bind ?_
    intro tracker _ htrack
    refine outcome_ok.mpr ⟨⟨hm.names.trackFile hname htrack, hm.lengths⟩, ?_⟩
    rw [Daemon.dispatchMessage_of_some hrequest]
    simp only [htrack]
  · rw [hread]
    refine outcome_ok.mpr ⟨⟨?_, hm.lengths⟩, rfl⟩
    rw [Daemon.dispatchMessage_of_some hrequest]
    exact hm.names
  · rw [hread]
    exact outcome_error.mpr (DaemonFault.exit_spares (-2))

/-- A look at the queue overruns no array. -/
theorem notify_outcome {m : MainLoop} (hm : m.Sound) :
    Outcome (fun m' => m'.Sound ∧ m'.daemon = m.daemon.after .notify)
      DaemonFault.SparesMessages m.notify := by
  show Outcome (fun m' : MainLoop => m'.Sound ∧ m'.daemon = m.daemon.propagateChange) _ _
  rcases notify_cases hm.names with
    ⟨hqueue, hnotify⟩ | ⟨info, rest, msg, returned, hqueue, hreturned, hnotify⟩
  · rw [hnotify, Daemon.propagateChange, hqueue]
    exact outcome_ok.mpr ⟨hm, rfl⟩
  · rw [hnotify]
    refine m.client.takes_outcome ⟨⟨?_, hm.prepare hreturned⟩, rfl⟩
    dsimp only
    rw [Daemon.propagateChange, hqueue]
    refine ⟨hm.names.tracked, fun i hi => hm.names.queued i ?_⟩
    -- the queue has lost its first element
    rw [hqueue]
    exact List.mem_cons_of_mem info hi

theorem event_outcome {m : MainLoop} (hm : m.Sound) (wd : TrackHandle) (len : UInt32)
    (fullPath : Bytes) (changeHandle : TrackHandle) :
    Outcome (fun m' => m'.Sound ∧ m'.daemon = m.daemon.after (.event wd len fullPath changeHandle))
      DaemonFault.SparesMessages (m.step (.event wd len fullPath changeHandle)) := by
  refine (m.daemon.tracker.handleEventInto_outcome wd len fullPath changeHandle).bind ?_
  intro tracker _ hevent
  refine outcome_ok.mpr ⟨⟨hm.names.handleEvent hevent, hm.lengths⟩, ?_⟩
  rw [Daemon.after, hevent]

/-- A step that no fault stops is a step of the daemon, and keeps the names short. -/
theorem step_outcome {m : MainLoop} (hm : m.Sound) (a : Action) :
    Outcome (fun m' => m'.Sound ∧ m'.daemon = m.daemon.after a) DaemonFault.SparesMessages
      (m.step a) := by
  cases a with
  | read r => exact read_outcome hm r
  | notify => exact notify_outcome hm
  | event wd len fullPath changeHandle => exact event_outcome hm wd len fullPath changeHandle
  | client now => exact outcome_ok.mpr ⟨⟨hm.names, hm.lengths⟩, rfl⟩

theorem sound_start : Sound {} := ⟨⟨by simp, by simp⟩, by simp⟩

/-- A run that no fault stops is a run of the daemon. -/
theorem run_outcome (actions : List Action) :
    Outcome (fun m => m.Sound ∧ m.daemon = actions.foldl Daemon.after {})
      DaemonFault.SparesMessages (run {} actions) := by
  refine Outcome.foldlM_split
    (I := fun done _ (m : MainLoop) => m.Sound ∧ m.daemon = done.foldl Daemon.after {}) ?_
    ⟨sound_start, rfl⟩
  rintro done a rest m - ⟨hm, hdaemon⟩
  refine (step_outcome hm a).mono (fun m' hm' => ⟨hm'.1, ?_⟩) fun _ hf => hf
  rw [hm'.2, hdaemon, List.foldl_append]
  rfl

/-- In every run the messages stay inside their arrays of 512 bytes, and the length that
`PrepareMessage` returns is that of its data and the header. What can stop a run is a path that
is too long for `realpath`, an `exit`, an assertion, or a client that does not take a message. -/
theorem buffers_suffice (actions : List Action) :
    Outcome (fun m => ∀ p ∈ m.prepared, p.returned.toNat = p.payload.length + 8)
      (fun f => f = .outOfBounds .fullPath ∨ f.EndsProcess ∨ f = .blocked) (run {} actions) :=
  (run_outcome actions).mono (fun _ hm => hm.1.lengths) fun _ hf => hf

end MainLoop

end Guthi
