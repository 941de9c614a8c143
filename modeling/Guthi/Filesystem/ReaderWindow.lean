import Guthi.Filesystem.BufReader

/-!
# Guthi — the buffered reader as a window on its file

`Read`, `Skip` and `Unread` of `FileBufReader` (`filesystem/fs.hpp`), called in any order. The
buffer is a window of 4096 bytes on the file: the moves stay in it, a `Read` does not move, and only
a `Read` that comes to the end of a full buffer moves the window on.

* `Window` — what the reader does, without a buffer;
* `WindowOn` — the reader has the bytes of its window;
* `replies_eq_window` — the two give the same replies, over every run;
* `Window.read_eq_error_iff` — the only reads that do not come back;
* `replies_small_reads` — what small reads never get to see.
-/

namespace Guthi

/-- What a call gives to its caller. -/
structure Reply (α : Type) where
  block : List α := []
  returned : Option UInt32 := none
deriving DecidableEq, Repr

namespace FileBufReader

variable {α : Type}

/-- The calls of a reader. -/
inductive Call where
  | read (size : Nat)
  | move (m : Move)

/-- One call: its reply and the reader after it. -/
def call (r : FileBufReader α) : Call → Except BufferFault (Reply α × FileBufReader α)
  | .read size => do
    let result ← r.read size
    return ({ block := result.block, returned := result.returned }, result.reader)
  | .move m => .ok ({}, m.apply r)

/-- The replies to a list of calls. -/
def replies (r : FileBufReader α) : List Call → Except BufferFault (List (Reply α))
  | [] => .ok []
  | c :: cs => do
    let (reply, r) ← r.call c
    let rest ← r.replies cs
    return reply :: rest

end FileBufReader

/-! ## Without a buffer -/

/-- A window on a file, from `base` on, and a position in it. -/
structure Window where
  base : Nat := 0
  position : Nat := 0
deriving DecidableEq, Repr

namespace Window

variable {α : Type} (file : List α)

/-- How many bytes of the file are in the window. -/
def fill (w : Window) : Nat := min 4096 (file.length - w.base)

/-- The bytes from the position on. -/
def bytes (w : Window) (size : Nat) : List α := (file.drop (w.base + w.position)).take size

/-- The window that begins at the position. -/
def forward (w : Window) : Window where
  base := w.base + w.position
  position := 0

/-- `Read`, in terms of the window: inside of it, behind a short file, or after moving it on. -/
def read (w : Window) (size : Nat) : Except BufferFault (Reply α × Window) :=
  if 4096 ≤ size then .error .assertion
  else if size < w.fill file - w.position then .ok ({ block := w.bytes file size }, w)
  else if w.fill file ≠ 4096 then .ok ({ returned := some 0 }, w)
  else if size < w.forward.fill file then .ok ({ block := w.forward.bytes file size }, w.forward)
  else .error .assertion

/-- A skip is computed in 32 bits and stored in eight. -/
def move (w : Window) : FileBufReader.Move → Window
  | .skip n =>
    if (w.position + n.toNat) % 2 ^ 32 < w.fill file then
      { w with position := (w.position + n.toNat) % 2 ^ 8 }
    else w
  | .unread n => { w with position := w.position - n.toNat }

/-- One call of the window machine. -/
def call (w : Window) : FileBufReader.Call → Except BufferFault (Reply α × Window)
  | .read size => w.read file size
  | .move m => .ok ({}, w.move file m)

/-- Its replies to a list of calls. -/
def replies (w : Window) : List FileBufReader.Call → Except BufferFault (List (Reply α))
  | [] => .ok []
  | c :: cs => do
    let (reply, w) ← w.call file c
    let rest ← w.replies cs
    return reply :: rest

variable {file} {w : Window}

/-- A window holds a block at most. -/
theorem fill_le : w.fill file ≤ 4096 := Nat.min_le_left _ _

/-- A move stays inside of the window. -/
theorem move_position_le (h : w.position ≤ w.fill file) (m : FileBufReader.Move) :
    (w.move file m).position ≤ w.fill file := by
  cases m with
  | skip n =>
    show (if (w.position + n.toNat) % 2 ^ 32 < w.fill file then _ else w).position ≤ _
    split_ifs
    · show (w.position + n.toNat) % 2 ^ 8 ≤ _
      omega
    · exact h
  | unread n =>
    show w.position - n.toNat ≤ _
    omega

/-- A move leaves the window where it is. -/
theorem move_base (m : FileBufReader.Move) : (w.move file m).base = w.base := by
  cases m with
  | skip n =>
    show (if (w.position + n.toNat) % 2 ^ 32 < w.fill file then _ else w).base = _
    split_ifs <;> rfl
  | unread n => rfl

/-- Behind a position in a full window, a read that the rest of the file is too short for is not
answered with zero. -/
theorem read_eq_error_iff {size : Nat} (hsize : size < 4096) {e : BufferFault} :
    w.read file size = .error e ↔ e = .assertion ∧ w.fill file = 4096 ∧ 1 ≤ w.position ∧
      file.length ≤ w.base + w.position + size := by
  have hforward : w.forward.fill file = min 4096 (file.length - (w.base + w.position)) := rfl
  have hfill : w.fill file = min 4096 (file.length - w.base) := rfl
  rw [read, if_neg (by omega)]
  -- inside, behind a short file, in the next window, or nowhere
  split_ifs with hinside hshort hnext
  · refine iff_of_false (fun h => nomatch h) ?_
    omega
  · exact iff_of_false (fun h => nomatch h) fun h => hshort h.2.1
  · refine iff_of_false (fun h => nomatch h) ?_
    omega
  · rw [Except.error.injEq, eq_comm]
    refine (and_iff_left ?_).symm
    omega

end Window

/-! ## The reader and its window -/

/-- The reader has the bytes of its window, and the file goes on behind it. -/
structure WindowOn {α : Type} (file : List α) (w : Window) (r : FileBufReader α) : Prop where
  underlyingFile : r.underlyingFile = file.drop (w.base + 4096)
  capacity : r.buffer.capacity = defaultBufferSize
  readPtr : r.buffer.readPtr.toNat = w.position
  pos : r.buffer.pos.toNat = w.fill file
  data : r.buffer.data.toList.take (w.fill file) = (file.drop w.base).take 4096
  position : w.position ≤ w.fill file

namespace WindowOn

variable {α : Type} {file : List α} {w : Window} {r r' : FileBufReader α} {size : Nat}

/-- The bytes that remain are those behind the position. -/
theorem remaining (h : WindowOn file w r) :
    r.remaining.toNat = w.fill file - w.position := by
  have hle : r.buffer.readPtr.toUInt32 ≤ r.buffer.pos := by
    rw [UInt32.le_iff_toNat_le, UInt8.toNat_toUInt32, h.readPtr, h.pos]
    exact h.position
  rw [FileBufReader.remaining, UInt32.toNat_sub_of_le _ _ hle, UInt8.toNat_toUInt32, h.readPtr,
    h.pos]

/-- The array of the buffer has the bytes of the window. -/
theorem bytesAt (h : WindowOn file w r) (hsize : w.position + size ≤ w.fill file) :
    bytesAt r.buffer.data r.buffer.readPtr.toNat size = some (w.bytes file size) := by
  have hfill : w.fill file ≤ 4096 := Window.fill_le
  have hbehind : min size (w.fill file - w.position) = size := by omega
  have hbehind' : min size (4096 - w.position) = size := by omega
  rw [h.readPtr, Guthi.bytesAt, if_pos (by omega), ← hbehind, ← List.take_take, ← List.drop_take,
    h.data, List.drop_take, List.take_take, hbehind, hbehind', List.drop_drop]
  rfl

/-- A new reader has the window at the beginning of the file. -/
theorem new (raw : Vector α 4096) (file : List α) :
    ∃ r, FileBufReader.new raw file = .ok r ∧ WindowOn file {} r := by
  obtain ⟨r, hr, hstart⟩ := FileBufReader.new_atStart raw file
  have hpos : r.buffer.pos.toNat = min 4096 (file.length - 0) := hstart.pos
  refine ⟨r, hr, ?_, hstart.capacity, ?_, hpos, ?_, Nat.zero_le _⟩
  · obtain ⟨⟨r', fetched⟩, hfetch, hdone⟩ := bind_eq_ok.mp hr
    obtain ⟨data, hdata, hdone'⟩ := bind_eq_ok.mp hfetch
    cases hdone'
    cases hdone
    rfl
  · rw [hstart.readPtr]
    rfl
  · -- the first block
    show r.buffer.data.toList.take (min 4096 (file.length - 0)) = file.take 4096
    rw [← hpos]
    exact hstart.filled

/-- Inside of the window the bytes are copied out. -/
theorem copyOut (h : WindowOn file w r) (hsize : size < w.fill file - w.position) :
    r.copyOut size = .ok { block := w.bytes file size, returned := none, reader := r } := by
  rw [FileBufReader.copyOut, h.remaining, if_neg (by omega)]
  show (do
    let block ← inBounds (Guthi.bytesAt r.buffer.data r.buffer.readPtr.toNat size)
    _) = _
  rw [h.bytesAt (by omega)]
  rfl

/-- What is not inside of the window fails the assertion. -/
theorem copyOut_fails (h : WindowOn file w r) (hsize : w.fill file - w.position ≤ size) :
    r.copyOut size = .error .assertion := by
  rw [FileBufReader.copyOut, h.remaining, if_pos hsize]
  rfl

/-- A refill, by the copies that it makes. -/
theorem refill_eq {tail : List α} {data data' : Vector α 4096}
    (htail : Guthi.bytesAt r.buffer.data r.buffer.readPtr.toNat r.remaining.toNat = some tail)
    (hdata : storeAt r.buffer.data 0 tail = some data)
    (hdata' : storeAt data r.remaining.toNat
      (r.underlyingFile.take (defaultBufferSize - r.remaining).toNat) = some data') :
    r.refill = .ok
      { underlyingFile := r.underlyingFile.drop (defaultBufferSize - r.remaining).toNat
        buffer := { r.buffer with
          data := data'
          pos := r.remaining + UInt32.ofNat
            (r.underlyingFile.take (defaultBufferSize - r.remaining).toNat).length
          readPtr := 0 } } := by
  simp only [FileBufReader.refill, FileBufReader.fetchBlockWithSize, htail, hdata, hdata',
    inBounds, ok_bind, pure_bind]
  rfl

/-- The bytes behind the position are moved to the start, and as many are fetched as there were in
front of it. -/
theorem refill (h : WindowOn file w r) (hfull : w.fill file = 4096) :
    ∃ r', r.refill = .ok r' ∧ WindowOn file w.forward r' := by
  have hle := h.position
  have hlong : 4096 ≤ file.length - w.base := by
    have hmin : min 4096 (file.length - w.base) = 4096 := hfull
    omega
  have hremaining : r.remaining.toNat = 4096 - w.position := by rw [h.remaining, hfull]
  -- the free part is as long as what is in front of the position
  have hroom : (defaultBufferSize - r.remaining).toNat = w.position := by
    rw [UInt32.toNat_sub_of_le _ _ (by
      rw [UInt32.le_iff_toNat_le, hremaining]
      exact Nat.sub_le _ _), hremaining]
    show 4096 - (4096 - w.position) = _
    omega
  have htail : (w.bytes file (4096 - w.position)).length = 4096 - w.position := by
    rw [Window.bytes, List.length_take, List.length_drop]
    omega
  have hblock : ((file.drop (w.base + 4096)).take w.position).length =
      min w.position (file.length - (w.base + 4096)) := by
    rw [List.length_take, List.length_drop]
  obtain ⟨data, hdata⟩ : ∃ data,
      storeAt r.buffer.data 0 (w.bytes file (4096 - w.position)) = some data :=
    exists_storeAt _ (by omega)
  obtain ⟨data', hdata'⟩ : ∃ data',
      storeAt data (4096 - w.position) ((file.drop (w.base + 4096)).take w.position) = some data' :=
    exists_storeAt _ (by omega)
  have hforward : w.forward.fill file =
      4096 - w.position + ((file.drop (w.base + 4096)).take w.position).length := by
    show min 4096 (file.length - (w.base + w.position)) = _
    omega
  -- the bytes behind the position, and those fetched behind them
  have hfilled : data'.toList.take (w.forward.fill file) =
      (file.drop (w.base + w.position)).take 4096 := by
    have hmoved : data.toList.take (4096 - w.position) = w.bytes file (4096 - w.position) := by
      have hnone : r.buffer.data.toList.take 0 = [] := rfl
      have htake := take_storeAt hnone hdata
      rwa [Nat.zero_add, htail, List.nil_append] at htake
    rw [hforward, take_storeAt hmoved hdata']
    show (file.drop (w.base + w.position)).take (4096 - w.position) ++ _ = _
    have hbehind : file.drop (w.base + 4096) =
        (file.drop (w.base + w.position)).drop (4096 - w.position) := by
      have hend : w.base + w.position + (4096 - w.position) = w.base + 4096 := by omega
      rw [List.drop_drop, hend]
    have hall : 4096 - w.position + w.position = 4096 := by omega
    rw [hbehind, ← List.take_add, hall]
  have hrun := refill_eq (r := r) (by rw [hremaining]; exact h.bytesAt (by omega)) hdata (by
    rw [hremaining, hroom, h.underlyingFile]
    exact hdata')
  rw [hroom, h.underlyingFile] at hrun
  refine ⟨_, hrun, ?_, h.capacity, rfl, ?_, hfilled, Nat.zero_le _⟩
  · have hend : w.base + 4096 + w.position = w.base + w.position + 4096 := by omega
    show (file.drop (w.base + 4096)).drop w.position = _
    rw [List.drop_drop, hend]
    rfl
  · show (r.remaining + UInt32.ofNat _).toNat = _
    rw [UInt32.toNat_add, UInt32.toNat_ofNat', hremaining, hforward]
    omega

/-- The reader moves as the window machine does. -/
theorem move (h : WindowOn file w r) (m : FileBufReader.Move) :
    WindowOn file (w.move file m) (m.apply r) := by
  have hfill : (w.move file m).fill file = w.fill file := by
    rw [Window.fill, Window.move_base]
    rfl
  -- the bytes stay where they are
  have hbuffer : (m.apply r).underlyingFile = r.underlyingFile ∧
      (m.apply r).buffer.capacity = r.buffer.capacity ∧
      (m.apply r).buffer.data = r.buffer.data := by
    cases m with
    | skip n =>
      show (r.skip n).underlyingFile = _ ∧ (r.skip n).buffer.capacity = _ ∧
        (r.skip n).buffer.data = _
      unfold FileBufReader.skip
      split_ifs <;> exact ⟨rfl, rfl, rfl⟩
    | unread n =>
      show (r.unread n).underlyingFile = _ ∧ (r.unread n).buffer.capacity = _ ∧
        (r.unread n).buffer.data = _
      unfold FileBufReader.unread
      split_ifs <;> exact ⟨rfl, rfl, rfl⟩
  -- `Skip` compares with 32 bits and stores 8
  have hptr : (m.apply r).buffer.readPtr.toNat = (w.move file m).position := by
    cases m with
    | skip n =>
      show (r.skip n).buffer.readPtr.toNat =
        (if (w.position + n.toNat) % 2 ^ 32 < w.fill file then _ else w).position
      rw [FileBufReader.toNat_skip, h.readPtr, h.pos]
      split_ifs <;> rfl
    | unread n =>
      show (r.unread n).buffer.readPtr.toNat = w.position - n.toNat
      rw [FileBufReader.toNat_unread, h.readPtr]
  obtain ⟨hfile, hcapacity, hdata⟩ := hbuffer
  refine ⟨?_, hcapacity.trans h.capacity, hptr, ?_, ?_, ?_⟩
  · rw [hfile, h.underlyingFile, Window.move_base]
  · rw [FileBufReader.Move.apply_pos, h.pos, hfill]
  · rw [hdata, hfill, h.data, Window.move_base]
  · rw [hfill]
    exact Window.move_position_le h.position m

/-- The reader replies as the window machine does, or both fail the assertion. -/
theorem read (h : WindowOn file w r) (size : Nat) :
    (∃ block returned r' w', r.read size = .ok ⟨block, returned, r'⟩ ∧
      w.read file size = .ok ({ block, returned }, w') ∧ WindowOn file w' r') ∨
    (r.read size = .error .assertion ∧ w.read file size = .error .assertion) := by
  have hsize : defaultBufferSize.toNat = 4096 := rfl
  have hcapacity : r.buffer.pos = r.buffer.capacity ↔ w.fill file = 4096 := by
    rw [h.capacity, ← UInt32.toNat_inj, h.pos, hsize]
  rw [FileBufReader.read, Window.read, hsize, h.remaining]
  by_cases hbig : 4096 ≤ size
  · rw [if_pos hbig, if_pos hbig]
    exact Or.inr ⟨rfl, rfl⟩
  rw [if_neg hbig, if_neg hbig]
  -- enough bytes in the window
  by_cases hinside : size < w.fill file - w.position
  · rw [if_neg (by omega), if_pos hinside, h.copyOut hinside]
    exact Or.inl ⟨_, _, r, w, rfl, rfl, h⟩
  rw [if_pos (by omega), if_neg hinside]
  -- only a full window is moved on
  by_cases hfull : w.fill file = 4096
  case neg =>
    rw [if_pos (fun hpos => hfull (hcapacity.mp hpos)), if_pos hfull]
    exact Or.inl ⟨_, _, r, w, rfl, rfl, h⟩
  rw [if_neg (not_not.mpr (hcapacity.mpr hfull)), if_neg (not_not.mpr hfull)]
  obtain ⟨r', hrefill, h'⟩ := h.refill hfull
  rw [hrefill, ok_bind]
  -- the next window, or the assertion
  by_cases hnext : size < w.forward.fill file
  · rw [if_pos hnext, h'.copyOut hnext]
    exact Or.inl ⟨_, _, r', w.forward, rfl, rfl, h'⟩
  · rw [if_neg hnext, h'.copyOut_fails (Nat.not_lt.mp hnext)]
    exact Or.inr ⟨rfl, rfl⟩

/-- One call: the same reply, or both fail. -/
theorem call (h : WindowOn file w r) (c : FileBufReader.Call) :
    (∃ reply r' w', r.call c = .ok (reply, r') ∧ w.call file c = .ok (reply, w') ∧
      WindowOn file w' r') ∨
    ∃ e, r.call c = .error e ∧ w.call file c = .error e := by
  -- a read, or a move that always succeeds
  cases c with
  | read size =>
    rw [FileBufReader.call, Window.call]
    rcases h.read size with ⟨block, returned, r', w', hr, hw, h'⟩ | ⟨hr, hw⟩
    · rw [hr, hw]
      exact Or.inl ⟨_, r', w', rfl, rfl, h'⟩
    · rw [hr, hw]
      exact Or.inr ⟨_, rfl, rfl⟩
  | move m => exact Or.inl ⟨{}, m.apply r, w.move file m, rfl, rfl, h.move m⟩

theorem replies (h : WindowOn file w r) (cs : List FileBufReader.Call) :
    r.replies cs = w.replies file cs := by
  induction cs generalizing r w with
  | nil => rfl
  | cons c cs ih =>
    rw [FileBufReader.replies, Window.replies]
    rcases h.call c with ⟨reply, r', w', hr, hw, h'⟩ | ⟨e, hr, hw⟩
    · rw [hr, hw, ok_bind, ok_bind]
      show (do
        let rest ← r'.replies cs
        _) = _
      rw [ih h']
    · rw [hr, hw]
      rfl

end WindowOn

namespace Window

variable {α : Type} {file file' : List α} {w w' : Window}

/-- The fill level at the beginning depends on the first block. -/
theorem fill_congr (hbase : w.base = 0) (hfile : file.take 4096 = file'.take 4096) :
    w.fill file = w.fill file' := by
  have hlength := congrArg List.length hfile
  rw [List.length_take, List.length_take] at hlength
  rw [fill, fill, hbase]
  exact hlength

theorem move_position_lt (h : w.position < 2 ^ 8) (m : FileBufReader.Move) :
    (w.move file m).position < 2 ^ 8 := by
  cases m with
  | skip n =>
    show (if (w.position + n.toNat) % 2 ^ 32 < w.fill file then _ else w).position < _
    split_ifs
    · exact Nat.mod_lt _ (by decide)
    · exact h
  | unread n =>
    show w.position - n.toNat < _
    omega

/-- The position has eight bits, so a small read does not come to the end of a full window. -/
theorem read_of_small {size : Nat} (hposition : w.position < 2 ^ 8) (hsize : size ≤ 3840) :
    w.read file size =
      .ok (if size < w.fill file - w.position then { block := w.bytes file size }
        else { returned := some 0 }, w) := by
  have hbig : ¬ 4096 ≤ size := by omega
  -- a position below 256 leaves more than 3840 bytes of a full window
  rw [read, if_neg hbig]
  split_ifs
  · rfl
  · rfl
  · omega
  · omega

/-- The bytes of the first window depend on the first block. -/
theorem bytes_congr {size : Nat} (hbase : w.base = 0) (hfile : file.take 4096 = file'.take 4096)
    (hsize : size + w.position ≤ 4096) : w.bytes file size = w.bytes file' size := by
  have hmin : min size (4096 - w.position) = size := by omega
  rw [bytes, bytes, hbase, Nat.zero_add, ← hmin, ← List.take_take, ← List.take_take,
    ← List.drop_take, ← List.drop_take, hfile]

/-- A small read does not tell two files with the same first block apart. -/
theorem read_small {size : Nat} (hbase : w.base = 0) (hposition : w.position < 2 ^ 8)
    (hfile : file.take 4096 = file'.take 4096) (hsize : size ≤ 3840) :
    ∃ reply, w.read file size = .ok (reply, w) ∧ w.read file' size = .ok (reply, w) := by
  rw [read_of_small hposition hsize, read_of_small hposition hsize, fill_congr hbase hfile,
    bytes_congr hbase hfile (by omega)]
  exact ⟨_, rfl, rfl⟩

/-- No number of small reads does. -/
theorem replies_small (hbase : w.base = 0) (hposition : w.position < 2 ^ 8)
    (hfile : file.take 4096 = file'.take 4096) {cs : List FileBufReader.Call}
    (hsmall : ∀ size, .read size ∈ cs → size ≤ 3840) :
    w.replies file cs = w.replies file' cs := by
  induction cs generalizing w with
  | nil => rfl
  | cons c cs ih =>
    -- the reads behind this one are small too
    have hlater : ∀ size, .read size ∈ cs → size ≤ 3840 :=
      fun size hmem => hsmall size (List.mem_cons_of_mem _ hmem)
    rw [replies, replies]
    cases c with
    | read size =>
      obtain ⟨reply, hread, hread'⟩ :=
        read_small hbase hposition hfile (hsmall size List.mem_cons_self)
      show w.read file size >>= _ = w.read file' size >>= _
      rw [hread, hread', ok_bind, ok_bind]
      show (do
        let rest ← w.replies file cs
        _) = _
      rw [ih hbase hposition hlater]
    | move m =>
      have hmove : w.move file m = w.move file' m := by
        cases m with
        | skip n =>
          rw [move, move, fill_congr hbase hfile]
        | unread n => rfl
      show (do
        let rest ← (w.move file m).replies file cs
        _) = (do
        let rest ← (w.move file' m).replies file' cs
        _)
      rw [← hmove, ih ((move_base m).trans hbase) (move_position_lt hposition m) hlater]

end Window

end Guthi
