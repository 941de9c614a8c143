import Guthi.SharedMemory.Writer

/-!
# Guthi — messages through the shared memory

Calls of `write_data` one after the other, by whichever processes, and what finds its way to the
other side: a round of `read_shm` between two calls, and `read_data` of `shared_memory/shm.cpp`.
Every call puts the flag `0` in front, and `read_shm` waits for the flag `1`.

* `wrote_of_writeData` — what a call that ends has done;
* `readShm_writes_iff` — the only messages that a round does not ignore;
* `shows_writes` — what is in the buffer after calls that write from its start;
* `readData_writes_iff` — when `read_data` prints what was written last.
-/

namespace Guthi

/-- The arguments of `write_data`. -/
structure Write where
  data : Bytes
  size : Int32 := 0
  position : Int32 := 0
deriving DecidableEq, Repr

namespace Write

/-- How many bytes are copied: the length that is found, cut to the 16 bits of `count`. -/
def number (w : Write) : Nat :=
  (if w.size < 1 then (strlen (w.data.drop 1)).toOption.getD 0 else w.size.toInt.toNat) % 65536

/-- The bytes that the call copies. -/
def copied (w : Write) : Bytes := w.data.take w.number

end Write

namespace ShmSegment

/-- The calls, one after the other. -/
def writes (shm : ShmSegment) : List Write → Except ShmFault ShmSegment
  | [] => .ok shm
  | w :: ws => do
    let shm ← writeData shm w.data w.size w.position
    shm.writes ws

/-- `read_data()`: what `printf("%s", buff)` prints. -/
def readData (shm : ShmSegment) : Except ShmFault Bytes :=
  match shm.buff.findIdx? (· = 0) with
  | none => .error .outOfBounds
  | some n => .ok (shm.buff.take n)

end ShmSegment

/-! ## One call -/

/-- The call ends. -/
structure Wrote (w : Write) (before after : ShmSegment) : Prop where
  number : w.number ≤ w.data.length
  count : after.count.toNat = w.number
  buff : after.buff =
    overwrite (before.buff.set 0 flagWritten) (w.position.toInt + 1).toNat w.copied
  inside : w.number = 0 ∨
    0 ≤ w.position.toInt + 1 ∧ (w.position.toInt + 1).toNat + w.number ≤ sizeSharedMem

section

variable {shm shm' before after : ShmSegment} {w : Write}

theorem ShmSegment.wrote_of_copyTo (hcount : shm.count.toNat = w.number)
    (hflag : shm.buff = before.buff.set 0 flagWritten)
    (h : shm.copyTo (w.position.toInt + 1) w.data w.number = .ok shm') : Wrote w before shm' := by
  unfold copyTo at h
  split_ifs at h with hzero hinside hdata
  · cases h
    refine ⟨by omega, hcount, ?_, Or.inl hzero⟩
    rw [Write.copied, hzero, hflag, overwrite, List.take_zero, List.nil_append, List.length_nil,
      Nat.add_zero, List.take_append_drop]
  · cases h
    refine ⟨hdata, hcount, ?_, Or.inr hinside⟩
    rw [← hflag]
    rfl

theorem wrote_of_writeData (h : writeData before w.data w.size w.position = .ok after) :
    Wrote w before after := by
  -- the number of bytes, cut to 16 bits, from `strlen` or from the argument
  have hnumber : ∃ n, n % 65536 = w.number ∧
      if w.size < 1 then strlen (w.data.drop 1) = .ok n else w.size.toInt.toNat = n := by
    unfold Write.number
    split_ifs with hsize
    · cases hstrlen : strlen (w.data.drop 1) with
      | ok n => exact ⟨n, rfl, rfl⟩
      | error e =>
        rw [writeData, if_pos hsize, hstrlen] at h
        cases h
    · exact ⟨_, rfl, rfl⟩
  obtain ⟨n, hmod, hn⟩ := hnumber
  rw [writeData_eq before hn, hmod] at h
  refine ShmSegment.wrote_of_copyTo ?_ rfl h
  rw [← hmod]
  exact UInt16.toNat_ofNat'

end

namespace Wrote

variable {before after : ShmSegment} {w : Write}

/-- As many bytes are copied as the call says. -/
theorem length_copied (h : Wrote w before after) : w.copied.length = w.number :=
  List.length_take_of_le h.number

/-- A call in front of the buffer leaves only what it copied, and what is behind that. -/
theorem buff_front (h : Wrote w before after) (hpos : w.position.toInt = -1)
    (hn : 1 ≤ w.number) : after.buff = w.copied ++ before.buff.drop w.number := by
  have hindex : (w.position.toInt + 1).toNat = 0 := by omega
  rw [h.buff, hindex, overwrite, h.length_copied, List.take_zero, List.nil_append, Nat.zero_add,
    List.drop_set_of_lt (by omega)]

/-- Any other call leaves its flag. -/
theorem flag (h : Wrote w before after) (hother : w.position.toInt ≠ -1 ∨ w.number = 0) :
    after.buff[0]? = some flagWritten := by
  have hlen := before.length_buff
  have hset : (before.buff.set 0 flagWritten)[0]? = some flagWritten := by
    rw [List.getElem?_set_self]
    rw [hlen]
    decide
  have hcopied := h.length_copied
  rw [h.buff, ← hset]
  -- nothing is copied, or it is copied behind the flag
  rcases h.inside with hzero | ⟨hfront, hroom⟩
  · obtain hnil : w.copied = [] := List.length_eq_zero_iff.mp (by omega)
    rw [hnil, overwrite, List.nil_append, List.length_nil, Nat.add_zero, List.take_append_drop]
  · refine getElem?_overwrite_outside ?_ (by omega)
    rw [List.length_set]
    omega

end Wrote

/-! ## The reader -/

/-- The call writes the flag that the reader waits for itself: it begins in front of the buffer.
The type is read from the next byte, which may be an older one. -/
structure Signals (w : Write) (before : ShmSegment) : Prop where
  position : w.position.toInt = -1
  number : 1 ≤ w.number
  flag : w.data[0]? = some flagToRead
  messageType :
    (if w.number = 1 then before.buff[1]? else w.data[1]?) = some messageFilesystem

section

variable {shm shm₀ before after : ShmSegment} {w : Write} {ws : List Write}

/-- A call signals the reader exactly if it writes the flag and the type itself. -/
theorem Wrote.toRead_iff (h : Wrote w before after) :
    after.ToReadFilesystem ↔ Signals w before := by
  -- only a call in front of the buffer writes the flag
  by_cases hfront : w.position.toInt = -1 ∧ 1 ≤ w.number
  case neg =>
    refine iff_of_false (fun hread => ?_) fun hsignals => hfront ⟨hsignals.1, hsignals.2⟩
    have hflag := h.flag (by omega)
    rw [hread.flag] at hflag
    exact absurd hflag (by decide)
  obtain ⟨hpos, hn⟩ := hfront
  have hbuff := h.buff_front hpos hn
  have hcopied := h.length_copied
  have hflag : after.buff[0]? = w.data[0]? := by
    rw [hbuff, List.getElem?_append_left (by omega)]
    exact List.getElem?_take_of_lt hn
  have htype : after.buff[1]? = if w.number = 1 then before.buff[1]? else w.data[1]? := by
    rw [hbuff]
    split_ifs with hone
    · rw [List.getElem?_append_right (by omega), hcopied, List.getElem?_drop, hone]
    · rw [List.getElem?_append_left (by omega)]
      exact List.getElem?_take_of_lt (by omega)
  constructor
  · intro hread
    exact ⟨hpos, hn, hflag.symm.trans hread.flag, htype.symm.trans hread.messageType⟩
  · intro hsignals
    exact ⟨hflag.trans hsignals.flag, by rw [h.count]; exact hn, htype.trans hsignals.messageType⟩

/-- What a round passes is a byte too long, and that byte was there before the call. -/
theorem Wrote.passed (h : Wrote w before after) (hsignals : Signals w before) :
    (after.buff.drop 1).take w.number =
      w.copied.drop 1 ++ (before.buff.drop w.number).take 1 := by
  have hn := hsignals.number
  have hcopied := h.length_copied
  have hrest : (w.copied.drop 1).length = w.number - 1 := by rw [List.length_drop, hcopied]
  have hone : w.number - (w.number - 1) = 1 := by omega
  rw [h.buff_front hsignals.position hn, List.drop_append_of_le_length (by omega),
    List.take_append, hrest, hone, List.take_of_length_le (by omega)]

/-- What the next round makes of the signal. -/
theorem Wrote.readShm_eq (h : Wrote w before after) (hsignals : Signals w before) :
    readShm after = if w.number < sizeSharedMem
      then .ok (some (w.copied.drop 1 ++ (before.buff.drop w.number).take 1))
      else .error sizeSharedMem := by
  rw [(h.toRead_iff.mpr hsignals).readShm_eq, h.count, h.passed hsignals]

/-- Two lists of calls, one after the other. -/
theorem writes_append {ws' : List Write} :
    shm.writes (ws ++ ws') = (do (← shm.writes ws).writes ws') := by
  induction ws generalizing shm with
  | nil => rfl
  | cons w ws ih =>
    show (writeData shm w.data w.size w.position >>= fun shm => shm.writes (ws ++ ws')) =
      (writeData shm w.data w.size w.position >>= fun shm => shm.writes ws) >>= _
    rw [bind_assoc]
    exact congrArg _ (funext fun shm => ih)

theorem wrote_of_writes (h : shm₀.writes (ws ++ [w]) = .ok shm) :
    ∃ before, shm₀.writes ws = .ok before ∧ Wrote w before shm := by
  rw [writes_append] at h
  obtain ⟨before, hws, hw⟩ := bind_eq_ok.mp h
  obtain ⟨after, hafter, hdone⟩ := bind_eq_ok.mp hw
  cases hdone
  exact ⟨before, hws, wrote_of_writeData hafter⟩

end

/-- The text behind the flag, with NULs behind it. -/
def Shows (shm : ShmSegment) (text : Bytes) : Prop :=
  ∃ k, shm.buff.drop 1 = text ++ List.replicate k 0

/-- What calls from the start of the buffer leave there: where a text was longer, its end can be
seen behind a shorter one. -/
def overlay (text : Bytes) : List Write → Bytes
  | [] => text
  | w :: ws => overlay (w.copied ++ text.drop w.number) ws

section

variable {shm shm₀ before after : ShmSegment} {w : Write} {ws : List Write} {text : Bytes}

theorem shows_emptySegment : Shows emptySegment [] := ⟨sizeSharedMem - 1, rfl⟩

/-- A call at the start of the buffer shows its bytes, and behind them what was there before. -/
theorem Shows.write (h : Shows before text) (hwrote : Wrote w before after)
    (hpos : w.position = 0) : Shows after (w.copied ++ text.drop w.number) := by
  obtain ⟨k, hk⟩ := h
  refine ⟨k - (w.number - text.length), ?_⟩
  have hlen := before.length_buff
  have htake : ((before.buff.set 0 flagWritten).take 1).length = 1 := by
    rw [List.length_take, List.length_set, hlen]
    rfl
  have hbuff := hwrote.buff
  rw [hpos] at hbuff
  rw [hbuff]
  show (overwrite (before.buff.set 0 flagWritten) 1 w.copied).drop 1 = _
  rw [overwrite, List.drop_left' htake, hwrote.length_copied, List.drop_set_of_lt (by omega),
    ← List.drop_drop, hk, List.drop_append, List.drop_replicate, List.append_assoc]

/-- The calls show what the bytes laid over each other are. -/
theorem shows_writes (h : Shows shm₀ text) (hpos : ∀ w ∈ ws, w.position = 0)
    (hrun : shm₀.writes ws = .ok shm) : Shows shm (overlay text ws) := by
  induction ws generalizing shm₀ text with
  | nil =>
    cases hrun
    exact h
  | cons w ws ih =>
    rw [List.forall_mem_cons] at hpos
    obtain ⟨after, hw, hrest⟩ := bind_eq_ok.mp hrun
    exact ih (h.write (wrote_of_writeData hw) hpos.1) hpos.2 hrest

theorem overlay_concat :
    overlay text (ws ++ [w]) = w.copied ++ (overlay text ws).drop w.number := by
  induction ws generalizing text with
  | nil => rfl
  | cons w' ws ih => exact ih

/-- Without NULs in the calls there is none in what is shown. -/
theorem zero_notMem_overlay (htext : 0 ∉ text) (hws : ∀ w ∈ ws, 0 ∉ w.copied) :
    0 ∉ overlay text ws := by
  induction ws generalizing text with
  | nil => exact htext
  | cons w ws ih =>
    rw [List.forall_mem_cons] at hws
    refine ih ?_ hws.2
    rw [List.mem_append, not_or]
    exact ⟨hws.1, fun hmem => htext (List.mem_of_mem_drop hmem)⟩

/-- The longest call decides how much is shown. -/
theorem length_overlay_le_iff {m : Nat} (hws : ∀ w ∈ ws, w.copied.length = w.number) :
    (overlay text ws).length ≤ m ↔ text.length ≤ m ∧ ∀ w ∈ ws, w.number ≤ m := by
  induction ws generalizing text with
  | nil => simp [overlay]
  | cons w ws ih =>
    rw [List.forall_mem_cons] at hws ⊢
    rw [overlay, ih hws.2, List.length_append, hws.1, List.length_drop, ← and_assoc]
    refine and_congr_left fun _ => ?_
    omega

/-- All calls of a run have copied what they found. -/
theorem length_copied_of_writes (h : shm₀.writes ws = .ok shm) :
    ∀ w ∈ ws, w.copied.length = w.number := by
  induction ws generalizing shm₀ with
  | nil => exact List.forall_mem_nil _
  | cons w ws ih =>
    obtain ⟨after, hw, hrest⟩ := bind_eq_ok.mp h
    exact List.forall_mem_cons.mpr ⟨(wrote_of_writeData hw).length_copied, ih hrest⟩

/-- `read_data` prints the flag and what is shown, up to the NUL, if there is room for one. -/
theorem readData_of_shows (hflag : shm.buff[0]? = some flagWritten) (h : Shows shm text)
    (htext : 0 ∉ text) :
    shm.readData = if text.length + 1 < sizeSharedMem then .ok (flagWritten :: text)
      else .error .outOfBounds := by
  obtain ⟨k, hk⟩ := h
  have hlen := shm.length_buff
  have hbuff : shm.buff = flagWritten :: text ++ List.replicate k 0 := by
    rw [List.cons_append, ← hk]
    cases hcons : shm.buff with
    | nil =>
      rw [hcons] at hflag
      cases hflag
    | cons b rest =>
      rw [hcons] at hflag
      cases hflag
      rfl
  have hnone : (flagWritten :: text).findIdx? (· = 0) = none := by
    rw [List.findIdx?_eq_none_iff, List.forall_mem_cons]
    exact ⟨rfl, fun b hb => by simpa using fun h0 : b = 0 => htext (h0 ▸ hb)⟩
  have hsize : text.length + 1 + k = sizeSharedMem := by
    rw [← hlen, hbuff, List.length_append, List.length_cons, List.length_replicate]
  rw [ShmSegment.readData, hbuff, List.findIdx?_append, hnone]
  -- without room for a NUL the print runs over the end
  rcases k with _ | k
  · rw [if_neg (by omega)]
    rfl
  · rw [if_pos (by omega), List.replicate_succ, List.findIdx?_cons]
    show Except.ok (List.take (0 + (flagWritten :: text).length) _) = _
    rw [Nat.zero_add, List.take_left]

/-- After calls that write text from the start of a new segment, `read_data` prints the flag and
what the last call has copied exactly if no earlier call copied more, and there is room for a
NUL. -/
theorem readData_writes_iff (hpos : ∀ w' ∈ ws ++ [w], w'.position = 0)
    (htext : ∀ w' ∈ ws ++ [w], 0 ∉ w'.copied)
    (h : emptySegment.writes (ws ++ [w]) = .ok shm) :
    shm.readData = .ok (flagWritten :: w.copied) ↔
      w.number + 1 < sizeSharedMem ∧ ∀ w' ∈ ws, w'.number ≤ w.number := by
  obtain ⟨before, hws, hwrote⟩ := wrote_of_writes h
  have hlast : w.position = 0 := hpos w (by simp)
  have hflag : shm.buff[0]? = some flagWritten := by
    refine hwrote.flag (Or.inl ?_)
    rw [hlast]
    decide
  have hshows := shows_writes shows_emptySegment hpos h
  have hnul := zero_notMem_overlay List.not_mem_nil htext
  obtain hlength : (overlay [] ws).length ≤ w.number ↔ _ :=
    length_overlay_le_iff (length_copied_of_writes hws)
  rw [readData_of_shows hflag hshows hnul, overlay_concat]
  have hcopied := hwrote.length_copied
  have hdrop : ((overlay [] ws).drop w.number).length = (overlay [] ws).length - w.number :=
    List.length_drop
  rw [List.length_append, hcopied, hdrop]
  constructor
  · intro hprints
    split_ifs at hprints with hroom
    rw [Except.ok.injEq, List.cons.injEq, List.append_right_eq_self] at hprints
    rw [hprints.2, List.length_nil] at hdrop
    exact ⟨by omega, (hlength.mp (by omega)).2⟩
  · rintro ⟨hroom, hshorter⟩
    have hle := hlength.mpr ⟨Nat.zero_le _, hshorter⟩
    rw [if_pos (by omega), List.drop_eq_nil_of_le hle, List.append_nil]

end

/-- A shorter message after a longer one. -/
theorem readData_writes_iff_shorter :
    ∃ shm, emptySegment.writes ([⟨ascii "abc", 3, 0⟩] ++ [⟨ascii "d", 1, 0⟩]) = .ok shm ∧
      (shm.readData = .ok (flagWritten :: Write.copied ⟨ascii "d", 1, 0⟩) ↔
        Write.number ⟨ascii "d", 1, 0⟩ + 1 < sizeSharedMem ∧
        ∀ w ∈ [(⟨ascii "abc", 3, 0⟩ : Write)], w.number ≤ Write.number ⟨ascii "d", 1, 0⟩) := by
  obtain ⟨shm, hrun⟩ : ∃ shm,
      emptySegment.writes ([⟨ascii "abc", 3, 0⟩] ++ [⟨ascii "d", 1, 0⟩]) = .ok shm := ⟨_, rfl⟩
  exact ⟨shm, hrun, readData_writes_iff (by decide) (by decide) hrun⟩

end Guthi
