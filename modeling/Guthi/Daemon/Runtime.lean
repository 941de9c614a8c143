import Guthi.FileTrack.Tracker

/-!
# Guthi — the daemon

`daemon/runtime.cpp` and the message types of `daemon/daemon_protocol.h`. The daemon reads from
the client socket into a buffer of 512 bytes and hands what one read returns to
`DispatchMessage`; nothing is kept from one read to the next.

* `messageVerified`, `prepareMessage`, `dispatchMessage` — the functions of the source;
* `Round`, `serve` — the main loop. It runs until `ReadNonBlocking` fails: the list of rounds
  ends there.

The ordered list of requests that `DispatchMessage` has acted on is kept beside the state.
-/

namespace Guthi

/-- `EMessage`: the types of messages. -/
inductive EMessage where
  | getFile
  | checkIfInCache
  | requestFileMetadata
  | noSuchResourceExists
  | trackedFileChanged
  | trackThisFile
  | echoMessage
  | continuation
  | invalidRequest
  | getCachedFile
  | resetConnection
deriving DecidableEq, Repr

namespace EMessage

/-- Their numbers. -/
def code : EMessage → UInt8
  | .getFile => 0
  | .checkIfInCache => 1
  | .requestFileMetadata => 2
  | .noSuchResourceExists => 3
  | .trackedFileChanged => 4
  | .trackThisFile => 5
  | .echoMessage => 6
  | .continuation => 7
  | .invalidRequest => 8
  | .getCachedFile => 9
  | .resetConnection => 10

/-- `static_cast<EMessage>`; a byte that is no enumerator gives `none`. -/
def ofCode : UInt8 → Option EMessage
  | 0 => some .getFile
  | 1 => some .checkIfInCache
  | 2 => some .requestFileMetadata
  | 3 => some .noSuchResourceExists
  | 4 => some .trackedFileChanged
  | 5 => some .trackThisFile
  | 6 => some .echoMessage
  | 7 => some .continuation
  | 8 => some .invalidRequest
  | 9 => some .getCachedFile
  | 10 => some .resetConnection
  | _ => none

@[simp] theorem ofCode_code (t : EMessage) : ofCode t.code = some t := by
  cases t <;> rfl

end EMessage

/-- What a message begins with. -/
def magicBytes : Bytes := [0x48, 0x55, 0x54, 0x49, 0x4A]

/-- `MAGIC_CONSTANT`: the number of magic bytes. -/
def magicConstant : Nat := 5

/-- `MessageVerified`: it begins with the magic bytes, and is longer than these. -/
def messageVerified (msg : Bytes) : Bool :=
  if msg.length ≤ 5 then false
  else msg.take 5 = magicBytes

/-- `PrepareMessage`: the bytes it puts into the buffer. -/
def prepareMessage (msgType : EMessage) (data : Bytes) (length : UInt16) : Bytes :=
  magicBytes ++ msgType.code :: (leBytes16 length ++ data.take length.toNat)

/-- The daemon: its tracker, whether it still runs, the messages it has written, and those it has
acted on, with the contents it took for them. -/
structure Daemon where
  tracker : Tracker := {}
  running : Bool := true
  written : List Bytes := []
  acted : List (EMessage × Bytes) := []

/-- One round of the main loop: what `ReadNonBlocking` returns (at most as much as the buffer
holds), the answers of the system if that makes the daemon track a file, and what the listening
thread does to the tracker before the change queue is asked. -/
structure Round where
  chunk : Bytes
  fits : chunk.length ≤ 512
  fullPath : Bytes
  changeHandle : TrackHandle
  listened : Tracker → Tracker := id

namespace Daemon

/-- It acts on a message. -/
def act (d : Daemon) (msgType : EMessage) (content : Bytes) : Daemon :=
  { d with acted := d.acted ++ [(msgType, content)] }

/-- `WriteMessage`. -/
def writeMessage (d : Daemon) (msg : Bytes) : Daemon :=
  { d with written := d.written ++ [msg] }

/-- `DispatchMessage`, on all that was read from the client at once. -/
def dispatchMessage (d : Daemon) (msg : Bytes) (r : Round) : Daemon :=
  if !messageVerified msg then d
  else
    match msg.drop magicConstant with
    -- the two bytes of the length are read, but nothing is compared with it
    | msgType :: _ :: _ :: content =>
      match EMessage.ofCode msgType with
      | some .echoMessage =>
        (d.act .echoMessage content).writeMessage
          (prepareMessage .echoMessage content (UInt16.ofNat content.length))
      | some .trackThisFile =>
        match d.tracker.trackFile content r.fullPath r.changeHandle with
        | some tracker => { d.act .trackThisFile content with tracker := tracker }
        -- the assertion of `TrackFile`
        | none => { d.act .trackThisFile content with running := false }
      | some .getFile => d.act .getFile content
      -- no other type is expected of a client
      | _ => { d with running := false }
    | _ => d

/-- `TryPopChangeInfo`, and the broadcast of what it gives. -/
def propagateChange (d : Daemon) : Daemon :=
  match d.tracker.changeInfo with
  | [] => d
  | info :: rest =>
    { d with tracker := { d.tracker with changeInfo := rest } }.writeMessage
      (prepareMessage .trackedFileChanged (cStr info.file)
        (UInt16.ofNat (cStr info.file).length))

/-- One round of `main`: what was read is dispatched, then the changes are listened for and passed
on. -/
def round (d : Daemon) (r : Round) : Daemon :=
  if !d.running then d
  else
    let d := if r.chunk = [] then d else d.dispatchMessage r.chunk r
    if !d.running then d
    else { d with tracker := r.listened d.tracker }.propagateChange

/-- Round after round. -/
def serve (d : Daemon) (rounds : List Round) : Daemon :=
  rounds.foldl round d

end Daemon

end Guthi
