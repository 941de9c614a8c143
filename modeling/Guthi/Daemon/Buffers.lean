import Guthi.Daemon.Runtime
import Guthi.Lib.Fallible
import Guthi.Lib.FixedArray

/-!
# Guthi — the arrays of the daemon

The functions of `daemon/runtime.cpp` and `file_track_linux.cpp` that write into arrays of fixed
size, with every write checked: the arrays of 512 bytes that hold messages, and the 128 bytes
that `realpath` writes to. What is written to the socket goes to a client that may have closed
its end or have stopped reading.

* `memcpy_fits` — a copy that fits; `prepareMessageInto_fits` — a message that fits is put into
  the array as `prepareMessage` says;
* `trackFileInto_fits`, `handleEventInto_outcome` — with a path that fits, the operations of the
  tracker go as in `FileTrack/Tracker.lean`;
* `Tracker.NamesFit` — the names that the tracker holds are short enough to be sent.
-/

namespace Guthi

/-- The arrays that are written to: two of `DispatchMessage`, the one of `main`, and the one that
`TrackFile` gives to `realpath`. -/
inductive DaemonArray where
  | sendBuffer
  | buffer
  | msg
  | fullPath
deriving DecidableEq, Repr

/-- What can keep a function of the daemon from returning. After `sigpipe` the process is dead;
`blocked` is a `write` that waits for the client. -/
inductive DaemonFault where
  | outOfBounds (array : DaemonArray)
  | readOutside
  | exit (code : Int)
  | assertion
  | sigpipe
  | blocked
deriving DecidableEq, Repr

/-- There is no handler for SIGPIPE, so the signal ends the process as an `exit` does. -/
def DaemonFault.EndsProcess (f : DaemonFault) : Prop :=
  (∃ code, f = .exit code) ∨ f = .assertion ∨ f = .sigpipe

/-- No array of messages is at fault. -/
def DaemonFault.SparesMessages (f : DaemonFault) : Prop :=
  f = .outOfBounds .fullPath ∨ f.EndsProcess ∨ f = .blocked

theorem DaemonFault.exit_spares (code : Int) : (DaemonFault.exit code).SparesMessages :=
  Or.inr (Or.inl (Or.inl ⟨code, rfl⟩))

theorem DaemonFault.assertion_spares : DaemonFault.assertion.SparesMessages :=
  Or.inr (Or.inl (Or.inr (Or.inl rfl)))

/-- What a write to the client's socket meets: a client that takes what is written, one that has
closed its end, or one that does not read while the socket is full. -/
inductive Client where
  | reading
  | closed
  | stalled
deriving DecidableEq, Repr

/-- Why a `write` to this client does not return. -/
def Client.fault : Client → Option DaemonFault
  | .reading => none
  | .closed => some .sigpipe
  | .stalled => some .blocked

/-- A `write` to this client, behind which the result is `x`. -/
def Client.takes {α : Type} (client : Client) (x : α) : Except DaemonFault α :=
  match client.fault with
  | none => .ok x
  | some f => .error f

@[simp] theorem Client.takes_reading {α : Type} (x : α) : Client.reading.takes x = .ok x := rfl

/-- A write that does not return leaves the arrays alone. -/
theorem Client.takes_outcome {α : Type} {P : α → Prop} (client : Client) {x : α} (h : P x) :
    Outcome P DaemonFault.SparesMessages (client.takes x) := by
  cases client with
  | reading => exact outcome_ok.mpr h
  | closed => exact outcome_error.mpr (Or.inr (Or.inl (Or.inr (Or.inr rfl))))
  | stalled => exact outcome_error.mpr (Or.inr (Or.inr rfl))

variable {n : Nat}

/-- `memcpy(buf + off, src, length)`, where `src` are the bytes up to the end of the source. -/
def memcpy (array : DaemonArray) (buf : Vector UInt8 n) (off : Nat) (src : Bytes)
    (length : Nat) : Except DaemonFault (Vector UInt8 n) :=
  if src.length < length then .error .readOutside
  else match storeAt buf off (src.take length) with
    | some buf' => .ok buf'
    | none => .error (.outOfBounds array)

def zeros (n : Nat) : Vector UInt8 n := Vector.replicate n 0

/-- `PrepareMessage` on the array `buf`, with the length it returns. -/
def prepareMessageInto (array : DaemonArray) (buf : Vector UInt8 n) (msgType : EMessage)
    (data : Bytes) (length : UInt16) : Except DaemonFault (Vector UInt8 n × UInt16) := do
  let buf ← memcpy array buf 0 magicBytes 5
  let buf ← memcpy array buf 5 [msgType.code] 1
  -- `length & 0xFF` and `length >> 8`
  let buf ← memcpy array buf 6 [length.toUInt8] 1
  let buf ← memcpy array buf 7 [(length >>> 8).toUInt8] 1
  let buf ← memcpy array buf 8 data length.toNat
  return (buf, length + 8)

/-- `WriteMessage(client, buf, length)`: the `write` waits until the socket has taken all bytes,
and raises SIGPIPE if the client has closed its end. Nobody looks at what it returns. -/
def Daemon.writeFrom (d : Daemon) (client : Client) (buf : Vector UInt8 n) (length : UInt16) :
    Except DaemonFault Daemon :=
  if n < length.toNat then .error .readOutside
  else client.takes (d.writeMessage (buf.toList.take length.toNat))

/-- `char full_path[128] = {}; realpath(…, full_path)`. -/
def realpath (fullPath : Bytes) : Except DaemonFault (Vector UInt8 128) :=
  memcpy .fullPath (zeros 128) 0 (fullPath ++ [0]) (fullPath.length + 1)

namespace Tracker

/-- `TrackFile`, with `realpath` writing to the array of the stack. -/
def trackFileInto (t : Tracker) (fileName fullPath : Bytes) (changeHandle : TrackHandle) :
    Except DaemonFault Tracker := do
  let path ← realpath fullPath
  if (cStr path.toList).contains '/'.toUInt8 then
    match t.trackFile fileName path.toList changeHandle with
    | some t' => .ok t'
    | none => .error .assertion
  else .error (.exit (-1))

/-- One event of `ListenForChanges`. Only a tracked file is registered again. -/
def handleEventInto (t : Tracker) (wd : TrackHandle) (len : UInt32) (fullPath : Bytes)
    (changeHandle : TrackHandle) : Except DaemonFault Tracker := do
  if len = 0 ∧ (t.handleToFileName wd).isSome then
    let _ ← realpath fullPath
  match t.handleEvent wd len changeHandle with
  | some t' => .ok t'
  | none => .error .assertion

end Tracker

/-! ## Copies -/

/-- A copy that fits writes behind what is there. -/
theorem memcpy_fits (array : DaemonArray) (src : Bytes) (length : Nat) {buf : Vector UInt8 n}
    {off : Nat} {pre : Bytes} (hpre : buf.toList.take off = pre) (hsrc : length ≤ src.length)
    (hfits : off + length ≤ n) :
    ∃ buf', memcpy array buf off src length = .ok buf' ∧
      buf'.toList.take (off + length) = pre ++ src.take length := by
  have hlen : (src.take length).length = length := by simp [hsrc]
  have hroom : off + (src.take length).length ≤ n := by rw [hlen]; exact hfits
  obtain ⟨buf', hstore⟩ := exists_storeAt buf hroom
  have htake := take_storeAt hpre hstore
  rw [hlen] at htake
  refine ⟨buf', ?_, htake⟩
  rw [memcpy, if_neg (by omega), hstore]

/-- A copy succeeds only if it fits. -/
theorem memcpy_outcome (array : DaemonArray) (buf : Vector UInt8 n) (off : Nat) {src : Bytes}
    {length : Nat} (hsrc : length ≤ src.length) :
    Outcome (fun _ => off + length ≤ n) (· = .outOfBounds array)
      (memcpy array buf off src length) := by
  rw [memcpy, if_neg (by omega)]
  cases hstore : storeAt buf off (src.take length) with
  | some buf' =>
    have hfits := (toList_of_storeAt hstore).1
    rw [List.length_take, Nat.min_eq_left hsrc] at hfits
    exact outcome_ok.mpr hfits
  | none => exact outcome_error.mpr rfl

theorem prepareMessageInto_fits (array : DaemonArray) (buf : Vector UInt8 n) (msgType : EMessage)
    {data : Bytes} {length : UInt16} (hdata : length.toNat ≤ data.length)
    (hfits : 8 + length.toNat ≤ n) :
    ∃ buf', prepareMessageInto array buf msgType data length = .ok (buf', length + 8) ∧
      buf'.toList.take (8 + length.toNat) = prepareMessage msgType data length := by
  -- the five writes, each behind the one before
  have hpre : buf.toList.take 0 = [] := rfl
  obtain ⟨buf₁, h₁, hpre₁⟩ := memcpy_fits array magicBytes 5 hpre (by decide) (by omega)
  obtain ⟨buf₂, h₂, hpre₂⟩ := memcpy_fits array [msgType.code] 1 hpre₁ (by simp) (by omega)
  obtain ⟨buf₃, h₃, hpre₃⟩ := memcpy_fits array [length.toUInt8] 1 hpre₂ (by simp) (by omega)
  obtain ⟨buf₄, h₄, hpre₄⟩ := memcpy_fits array [(length >>> 8).toUInt8] 1 hpre₃ (by simp)
    (by omega)
  obtain ⟨buf₅, h₅, hpre₅⟩ := memcpy_fits array data length.toNat hpre₄ hdata hfits
  refine ⟨buf₅, ?_, ?_⟩
  · rw [prepareMessageInto, h₁, ok_bind, h₂, ok_bind, h₃, ok_bind, h₄, ok_bind, h₅]
    rfl
  · rw [hpre₅]
    -- magic bytes, type, length and payload in a row
    simp [prepareMessage, magicBytes, leBytes16]

/-- `PrepareMessage` and `WriteMessage` with a payload that fits into an array of 512 bytes. -/
theorem prepare_and_write (array : DaemonArray) (buf : Vector UInt8 512) (msgType : EMessage)
    (d : Daemon) (client : Client) (payload rest : Bytes) (hfits : payload.length ≤ 504) :
    ∃ buf' returned, prepareMessageInto array buf msgType (payload ++ rest)
        (UInt16.ofNat payload.length) = .ok (buf', returned) ∧
      returned.toNat = payload.length + 8 ∧
      d.writeFrom client buf' returned = client.takes
        (d.writeMessage (prepareMessage msgType payload (UInt16.ofNat payload.length))) := by
  have hlength : (UInt16.ofNat payload.length).toNat = payload.length := by
    rw [UInt16.toNat_ofNat', Nat.mod_eq_of_lt (by omega)]
  have hreturned : (UInt16.ofNat payload.length + 8).toNat = payload.length + 8 := by
    rw [UInt16.toNat_add, hlength, show (8 : UInt16).toNat = 8 from rfl,
      Nat.mod_eq_of_lt (by omega)]
  have hsource : (UInt16.ofNat payload.length).toNat ≤ (payload ++ rest).length := by
    rw [hlength]
    simp
  obtain ⟨buf', hprepare, hpre⟩ :=
    prepareMessageInto_fits array buf msgType hsource (by omega)
  refine ⟨buf', _, hprepare, hreturned, ?_⟩
  -- bytes behind the payload are not copied
  have hsame : prepareMessage msgType (payload ++ rest) (UInt16.ofNat payload.length) =
      prepareMessage msgType payload (UInt16.ofNat payload.length) := by
    simp [prepareMessage, hlength]
  rw [Daemon.writeFrom, if_neg (by omega), hreturned, Nat.add_comm, ← hsame, ← hpre, hlength]

/-! ## The tracker -/

/-- The path is what stands in front of the NUL. -/
theorem realpath_fits {fullPath : Bytes} (h : fullPath.length < 128) :
    ∃ path, realpath fullPath = .ok path ∧ cStr path.toList = cStr fullPath := by
  have hpre : (zeros 128).toList.take 0 = [] := rfl
  have hsrc : fullPath.length + 1 ≤ (fullPath ++ [0]).length := by simp
  obtain ⟨path, hpath, htake⟩ :=
    memcpy_fits .fullPath (fullPath ++ [0]) (fullPath.length + 1) hpre hsrc (by omega)
  refine ⟨path, hpath, ?_⟩
  have hall : (fullPath ++ [0]).take (fullPath.length + 1) = fullPath ++ [0] :=
    List.take_of_length_le (by simp)
  rw [Nat.zero_add, List.nil_append, hall] at htake
  have hsplit := List.take_append_drop (fullPath.length + 1) path.toList
  rw [htake, List.append_assoc, List.singleton_append] at hsplit
  -- what the array held before is behind the NUL
  rw [← hsplit, cStr_append_zero]

theorem realpath_outcome (fullPath : Bytes) :
    Outcome (fun path => cStr path.toList = cStr fullPath) (· = .outOfBounds .fullPath)
      (realpath fullPath) := by
  by_cases h : fullPath.length < 128
  · obtain ⟨path, hpath, hcStr⟩ := realpath_fits h
    rw [hpath]
    exact outcome_ok.mpr hcStr
  · have hcopy : Outcome (fun _ => 0 + (fullPath.length + 1) ≤ 128) (· = .outOfBounds .fullPath)
        (realpath fullPath) := memcpy_outcome .fullPath _ 0 (by simp)
    exact hcopy.mono (fun _ hfits => absurd hfits (by omega)) fun _ hf => hf

namespace Tracker

/-- `TrackFile` reads the path up to its NUL. -/
theorem trackFile_congr (t : Tracker) (fileName : Bytes) {path fullPath : Bytes}
    (changeHandle : TrackHandle) (h : cStr path = cStr fullPath) :
    t.trackFile fileName path changeHandle = t.trackFile fileName fullPath changeHandle := by
  rw [trackFile, trackFile, h]

/-- `TrackFile` with a path that fits. -/
theorem trackFileInto_fits (t : Tracker) (fileName : Bytes) {fullPath : Bytes}
    (changeHandle : TrackHandle) (hpath : fullPath.length < 128) :
    t.trackFileInto fileName fullPath changeHandle =
      if (cStr fullPath).contains '/'.toUInt8 = false then .error (.exit (-1))
      else if changeHandle < 0 then .error .assertion
      else .ok
        { t with
          nameToFileHandle := insertNew t.nameToFileHandle (cStr fileName) changeHandle
          handleToFileName := insertNew t.handleToFileName changeHandle (cStr fileName) } := by
  obtain ⟨path, hreal, hpath⟩ := realpath_fits hpath
  rw [trackFileInto, hreal, ok_bind, trackFile_congr t fileName changeHandle hpath, hpath]
  -- no slash: the daemon exits; no watch: it asserts
  by_cases hslash : (cStr fullPath).contains '/'.toUInt8 = true
  · rw [if_pos hslash, if_neg (by rw [hslash]; decide), trackFile,
      if_neg (not_not.mpr (List.contains_iff_mem.mp hslash))]
    by_cases hhandle : changeHandle < 0
    · rw [if_pos hhandle, if_pos hhandle]
    · rw [if_neg hhandle, if_neg hhandle]
  · rw [if_neg hslash, if_pos (Bool.eq_false_iff.mpr hslash)]

/-- `TrackFile` comes to what it comes to without the array, or to a fault that spares the messages.
-/
theorem trackFileInto_outcome (t : Tracker) (fileName fullPath : Bytes)
    (changeHandle : TrackHandle) :
    Outcome (fun t' => t.trackFile fileName fullPath changeHandle = some t')
      DaemonFault.SparesMessages (t.trackFileInto fileName fullPath changeHandle) := by
  refine ((realpath_outcome fullPath).mono (fun _ h => h) fun _ => Or.inl).bind ?_
  intro path _ hpath
  rw [trackFile_congr t fileName changeHandle hpath]
  by_cases hslash : (cStr path.toList).contains '/'.toUInt8 = true
  · rw [if_pos hslash]
    cases t.trackFile fileName fullPath changeHandle with
    | some t' => exact outcome_ok.mpr rfl
    | none => exact outcome_error.mpr DaemonFault.assertion_spares
  · rw [if_neg hslash]
    exact outcome_error.mpr (DaemonFault.exit_spares (-1))

/-- The same for `HandleEvent`. -/
theorem handleEventInto_outcome (t : Tracker) (wd : TrackHandle) (len : UInt32)
    (fullPath : Bytes) (changeHandle : TrackHandle) :
    Outcome (fun t' => t.handleEvent wd len changeHandle = some t')
      DaemonFault.SparesMessages (t.handleEventInto wd len fullPath changeHandle) := by
  have hlast : Outcome (fun t' => t.handleEvent wd len changeHandle = some t')
      DaemonFault.SparesMessages
      (match t.handleEvent wd len changeHandle with
      | some t' => Except.ok t'
      | none => .error DaemonFault.assertion) := by
    cases t.handleEvent wd len changeHandle with
    | some t' => exact outcome_ok.mpr rfl
    | none => exact outcome_error.mpr DaemonFault.assertion_spares
  -- only an event without a name is registered again
  unfold handleEventInto
  split_ifs
  · exact ((realpath_outcome fullPath).mono (fun _ h => h) fun _ => Or.inl).bind fun _ _ _ => hlast
  · exact hlast

/-! ## The names in the tracker -/

/-- The names that can be sent to the client are not longer than what one read can bring. -/
structure NamesFit (t : Tracker) : Prop where
  tracked : ∀ fd name, t.handleToFileName fd = some name → name.length ≤ 504
  queued : ∀ info ∈ t.changeInfo, info.file.length ≤ 504

/-- A name that fits stays one in the tracker. -/
theorem NamesFit.trackFile {t t' : Tracker} {fileName fullPath : Bytes}
    {changeHandle : TrackHandle} (h : t.NamesFit) (hname : fileName.length ≤ 504)
    (ht : t.trackFile fileName fullPath changeHandle = some t') : t'.NamesFit := by
  obtain ⟨_, hhandles, hqueue⟩ := trackFile_eq ht
  constructor
  · rw [hhandles]
    exact forall_insertNew h.tracked ((length_cStr_le fileName).trans hname)
  · rw [hqueue]
    exact h.queued

theorem NamesFit.handleEvent {t t' : Tracker} {wd changeHandle : TrackHandle} {len : UInt32}
    (h : t.NamesFit) (ht : t.handleEvent wd len changeHandle = some t') : t'.NamesFit := by
  rcases handleEvent_cases ht with
    ⟨_, fileName, hwd, _, hhandles, hqueue⟩ | ⟨_, _, hhandles, reports, hqueue, hreports⟩
  · have hname := h.tracked wd fileName hwd
    constructor
    · rw [hhandles]
      -- the name comes back under the new handle
      refine forall_insertNew (fun fd name hfd => ?_) ((length_cStr_le fileName).trans hname)
      rw [erase, Function.update_apply] at hfd
      split_ifs at hfd
      exact h.tracked fd name hfd
    · rw [hqueue]
      -- the changes queued before, and the one of this event
      intro info hinfo
      rcases List.mem_append.mp hinfo with hold | hnew
      · exact h.queued info hold
      · rw [List.mem_singleton.mp hnew]
        exact hname
  · constructor
    · rw [hhandles]
      exact h.tracked
    · rw [hqueue]
      intro info hinfo
      rcases List.mem_append.mp hinfo with hold | hnew
      · exact h.queued info hold
      · simp [hreports info hnew]

end Tracker

end Guthi
