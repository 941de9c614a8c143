import Guthi.Filesystem.BufReader

/-!
# Guthi — the buffered writer

`FileBufWriter` of `filesystem/fs.hpp`. `Printf` moves the fill level behind its text; `Write`
leaves it where it was, so its bytes are outside of what the next `Flush` passes on.

* `Ready` — what a writer stands for: the blocks that were passed on, and the filled part of the
  buffer; `Ready.write`, `Ready.printf`, `Ready.flush` — what a call makes of it;
* `written_eq_given_iff` — when the blocks are what the calls were given.
-/

namespace Guthi

/-- `FileBufWriter`; `underlyingFile` has the blocks that were passed to `WriteBlockWithSize`. -/
structure FileBufWriter where
  underlyingFile : List Bytes
  buffer : FileSystem.Buffer UInt8

namespace FileBufWriter

/-- The constructor; `raw` is what `malloc` returns. -/
def new (raw : Vector UInt8 4096) : FileBufWriter where
  underlyingFile := []
  buffer := { data := raw, pos := 0, readPtr := 0, capacity := defaultBufferSize }

/-- `Flush`: the filled part goes to the file as a block. -/
def flush (w : FileBufWriter) : Except BufferFault FileBufWriter := do
  let block ← inBounds (bytesAt w.buffer.data 0 w.buffer.pos.toNat)
  return { underlyingFile := w.underlyingFile ++ [block], buffer := { w.buffer with pos := 0 } }

/-- `Printf` with the text that its arguments make. `vsprintf` puts a NUL behind it. The assertion
is there under `_DEBUG` only: without it, `vsprintf` writes behind the buffer where this says
`assertion`. (As it stands, the template needs a cast of what `malloc` returns to compile.) -/
def printf (w : FileBufWriter) (text : Bytes) : Except BufferFault FileBufWriter :=
  if w.buffer.pos + UInt32.ofNat text.length < w.buffer.capacity then do
    let data ← inBounds (storeAt w.buffer.data w.buffer.pos.toNat (text ++ [0]))
    return { w with buffer :=
      { w.buffer with data, pos := w.buffer.pos + UInt32.ofNat text.length } }
  else .error .assertion

/-- `Write`. The fill level stays where it is. -/
def write (w : FileBufWriter) (bytes : Bytes) : Except BufferFault FileBufWriter :=
  if bytes.length < (w.buffer.capacity - w.buffer.pos).toNat then do
    let data ← inBounds (storeAt w.buffer.data w.buffer.pos.toNat bytes)
    return { w with buffer := { w.buffer with data } }
  else .error .assertion

/-- The calls of a writer. -/
inductive Call where
  | write (bytes : Bytes)
  | printf (text : Bytes)
  | flush
deriving DecidableEq, Repr

/-- One call. -/
def call (w : FileBufWriter) : Call → Except BufferFault FileBufWriter
  | .write bytes => w.write bytes
  | .printf text => w.printf text
  | .flush => w.flush

/-- The calls, one after the other. -/
def calls (w : FileBufWriter) (cs : List Call) : Except BufferFault FileBufWriter :=
  cs.foldlM call w

/-! ## What the calls are given -/

/-- The data that were given to `Write` and the text of `Printf`, in the order of the calls. -/
def given : List Call → Bytes
  | [] => []
  | .write bytes :: cs => bytes ++ given cs
  | .printf text :: cs => text ++ given cs
  | .flush :: cs => given cs

/-- The text of `Printf` alone. -/
def printed : List Call → Bytes
  | [] => []
  | .printf text :: cs => text ++ printed cs
  | _ :: cs => printed cs

/-- The text since the last `Flush`, of which `pending` bytes are in the buffer, leaves room for a
NUL. -/
def TextFits : Nat → List Call → Prop
  | _, [] => True
  | pending, .write _ :: cs => TextFits pending cs
  | pending, .printf text :: cs =>
    pending + text.length < 4096 ∧ TextFits (pending + text.length) cs
  | _, .flush :: cs => TextFits 0 cs

/-- No call of `Write` is given any bytes. -/
def WritesNothing (cs : List Call) : Prop := ∀ bytes, Call.write bytes ∈ cs → bytes = []

theorem writesNothing_cons_write {bytes : Bytes} {cs : List Call} :
    WritesNothing (.write bytes :: cs) ↔ bytes = [] ∧ WritesNothing cs := by
  simp [WritesNothing, or_imp, forall_and]

/-- The first call is a `Printf`. -/
theorem writesNothing_cons_printf {text : Bytes} {cs : List Call} :
    WritesNothing (.printf text :: cs) ↔ WritesNothing cs := by
  simp [WritesNothing]

theorem writesNothing_cons_flush {cs : List Call} :
    WritesNothing (.flush :: cs) ↔ WritesNothing cs := by
  simp [WritesNothing]

/-- The text of the `Printf` calls is a part of all. -/
theorem length_printed_le (cs : List Call) : (printed cs).length ≤ (given cs).length := by
  induction cs with
  | nil => exact Nat.le_refl _
  | cons c cs ih =>
    cases c <;> simp only [printed, given, List.length_append] <;> omega

/-- It is all exactly if `Write` was given nothing. -/
theorem printed_eq_given_iff (cs : List Call) : printed cs = given cs ↔ WritesNothing cs := by
  induction cs with
  | nil => simp [printed, given, WritesNothing]
  | cons c cs ih =>
    cases c with
    | write bytes =>
      rw [writesNothing_cons_write, ← ih]
      show printed cs = bytes ++ given cs ↔ _
      constructor
      · intro h
        have hlen := congrArg List.length h
        have hle := length_printed_le cs
        rw [List.length_append] at hlen
        obtain rfl : bytes = [] := List.eq_nil_of_length_eq_zero (by omega)
        exact ⟨rfl, h⟩
      · rintro ⟨rfl, h⟩
        exact h
    | printf text =>
      rw [writesNothing_cons_printf, ← ih]
      exact List.append_right_inj text
    | flush =>
      rw [writesNothing_cons_flush, ← ih]
      rfl

/-! ## What a call does -/

/-- The blocks that were passed on and the filled part of the buffer make up `out`. -/
structure Ready (w : FileBufWriter) (out : Bytes) : Prop where
  capacity : w.buffer.capacity = defaultBufferSize
  pos_lt : w.buffer.pos.toNat < 4096
  denotes : w.underlyingFile.flatten ++ w.buffer.data.toList.take w.buffer.pos.toNat = out

theorem ready_new (raw : Vector UInt8 4096) : Ready (new raw) [] where
  capacity := rfl
  pos_lt := by
    show 0 < 4096
    omega
  denotes := rfl

namespace Ready

variable {w w' : FileBufWriter} {out : Bytes}

/-- A `Flush` moves what the writer holds to the file. -/
theorem flush (h : Ready w out) : ∃ w', w.flush = .ok w' ∧ Ready w' out ∧
    w'.buffer.pos.toNat = 0 ∧ w'.underlyingFile.flatten = out := by
  have hblock : bytesAt w.buffer.data 0 w.buffer.pos.toNat =
      some (w.buffer.data.toList.take w.buffer.pos.toNat) := by
    have hpos := h.pos_lt
    rw [bytesAt, if_pos (by omega), List.drop_zero]
  have hout := h.denotes
  rw [FileBufWriter.flush, hblock]
  refine ⟨_, rfl, ⟨h.capacity, ?_, ?_⟩, rfl, ?_⟩
  · show 0 < 4096
    omega
  · show (w.underlyingFile ++ [_]).flatten ++ [] = out
    rw [List.append_nil, List.flatten_concat]
    exact hout
  · rw [List.flatten_concat]
    exact hout

/-- The bytes of `Write` are put behind the filled part, and stay there. -/
theorem write {bytes : Bytes} (h : Ready w out) (hw : w.write bytes = .ok w') :
    Ready w' out ∧ w'.buffer.pos = w.buffer.pos := by
  unfold FileBufWriter.write at hw
  split_ifs at hw
  obtain ⟨data, hdata, hw⟩ := bind_eq_ok.mp hw
  cases hw
  -- the bytes fit into the array, or the write faults
  cases hstore : storeAt w.buffer.data w.buffer.pos.toNat bytes with
  | none =>
    rw [hstore] at hdata
    cases hdata
  | some stored =>
    rw [hstore] at hdata
    cases hdata
    refine ⟨⟨h.capacity, h.pos_lt, ?_⟩, rfl⟩
    obtain ⟨hfits, hlist⟩ := toList_of_storeAt hstore
    have hlen : (w.buffer.data.toList.take w.buffer.pos.toNat).length = w.buffer.pos.toNat := by
      rw [List.length_take, Vector.length_toList]
      omega
    show w.underlyingFile.flatten ++ data.toList.take w.buffer.pos.toNat = out
    rw [hlist, List.take_left' hlen]
    exact h.denotes

/-- There is always room for no bytes. -/
theorem write_nil (h : Ready w out) : ∃ w', w.write [] = .ok w' := by
  have hpos := h.pos_lt
  obtain ⟨data, hdata⟩ : ∃ data, storeAt w.buffer.data w.buffer.pos.toNat [] = some data :=
    exists_storeAt w.buffer.data (by simp; omega)
  have hroom : ([] : Bytes).length < (w.buffer.capacity - w.buffer.pos).toNat := by
    rw [h.capacity, UInt32.toNat_sub_of_le _ _ (by
      rw [UInt32.le_iff_toNat_le]
      show _ ≤ 4096
      omega)]
    show 0 < 4096 - _
    omega
  rw [FileBufWriter.write, if_pos hroom, hdata]
  exact ⟨_, rfl⟩

/-- A `Printf` that fits appends its text. -/
theorem printf {text : Bytes} (h : Ready w out) (hfits : w.buffer.pos.toNat + text.length < 4096) :
    ∃ w', w.printf text = .ok w' ∧ Ready w' (out ++ text) ∧
      w'.buffer.pos.toNat = w.buffer.pos.toNat + text.length := by
  obtain ⟨data, hdata⟩ : ∃ data,
      storeAt w.buffer.data w.buffer.pos.toNat (text ++ [0]) = some data :=
    exists_storeAt w.buffer.data (by rw [List.length_append, List.length_singleton]; omega)
  have hpos : (w.buffer.pos + UInt32.ofNat text.length).toNat =
      w.buffer.pos.toNat + text.length := by
    rw [UInt32.toNat_add, UInt32.toNat_ofNat']
    omega
  have hroom : w.buffer.pos + UInt32.ofNat text.length < w.buffer.capacity := by
    rw [h.capacity, UInt32.lt_iff_toNat_lt, hpos]
    exact hfits
  rw [FileBufWriter.printf, if_pos hroom, hdata]
  refine ⟨_, rfl, ⟨h.capacity, hpos.trans_lt hfits, ?_⟩, hpos⟩
  obtain ⟨_, hlist⟩ := toList_of_storeAt hdata
  have hlen : (w.buffer.data.toList.take w.buffer.pos.toNat ++ text).length =
      w.buffer.pos.toNat + text.length := by
    rw [List.length_append, List.length_take, Vector.length_toList]
    omega
  show w.underlyingFile.flatten ++
    data.toList.take (w.buffer.pos + UInt32.ofNat text.length).toNat = out ++ text
  rw [hpos, hlist, List.append_assoc, ← List.append_assoc (w.buffer.data.toList.take _),
    List.take_left' hlen, ← List.append_assoc, h.denotes]

end Ready

/-- A `Printf` that does not fit faults, whether or not it notices. -/
theorem printf_fails {w : FileBufWriter} {text : Bytes}
    (hbig : 4096 ≤ w.buffer.pos.toNat + text.length) : ∃ e, w.printf text = .error e := by
  unfold printf
  by_cases hroom : w.buffer.pos + UInt32.ofNat text.length < w.buffer.capacity
  · -- the length was cut to 32 bits, and the text runs over the end
    have hnone : storeAt w.buffer.data w.buffer.pos.toNat (text ++ [0]) = none := by
      rw [storeAt_eq_none, List.length_append, List.length_singleton]
      omega
    rw [if_pos hroom, hnone]
    exact ⟨_, rfl⟩
  · rw [if_neg hroom]
    exact ⟨_, rfl⟩

/-! ## Sequences of calls -/

/-- The first call and the others. -/
theorem calls_cons (w : FileBufWriter) (c : Call) (cs : List Call) :
    w.calls (c :: cs) = w.call c >>= (·.calls cs) := rfl

/-- Two lists of calls, one after the other. -/
theorem calls_append (w : FileBufWriter) (cs ds : List Call) :
    w.calls (cs ++ ds) = w.calls cs >>= (·.calls ds) := List.foldlM_append

namespace Ready

variable {w w' : FileBufWriter} {out : Bytes} {cs : List Call}

/-- Only the text of `Printf` goes on, and it had to fit. -/
theorem calls (h : Ready w out) (hrun : w.calls cs = .ok w') :
    Ready w' (out ++ printed cs) ∧ TextFits w.buffer.pos.toNat cs := by
  induction cs generalizing w out with
  | nil =>
    cases hrun
    exact ⟨by rw [printed, List.append_nil]; exact h, trivial⟩
  | cons c cs ih =>
    rw [calls_cons] at hrun
    obtain ⟨w₁, hcall, hrest⟩ := bind_eq_ok.mp hrun
    cases c with
    | write bytes =>
      obtain ⟨h₁, hpos⟩ := h.write hcall
      rw [TextFits, ← hpos]
      exact ih h₁ hrest
    | printf text =>
      have hfits : w.buffer.pos.toNat + text.length < 4096 := by
        by_contra hbig
        obtain ⟨e, he⟩ : ∃ e, w.printf text = .error e := printf_fails (by omega)
        cases hcall.symm.trans he
      obtain ⟨w₂, hw₂, h₂, hpos⟩ := h.printf hfits
      cases hcall.symm.trans hw₂
      have hlater := ih h₂ hrest
      rw [List.append_assoc, hpos] at hlater
      exact ⟨hlater.1, hfits, hlater.2⟩
    | flush =>
      obtain ⟨w₂, hw₂, h₂, hpos, _⟩ := h.flush
      cases hcall.symm.trans hw₂
      rw [TextFits, ← hpos]
      exact ih h₂ hrest

/-- If `Write` is given nothing and the text fits, every call goes through. -/
theorem exists_calls (h : Ready w out) (hnothing : WritesNothing cs)
    (hfits : TextFits w.buffer.pos.toNat cs) : ∃ w', w.calls cs = .ok w' := by
  induction cs generalizing w out with
  | nil => exact ⟨w, rfl⟩
  | cons c cs ih =>
    simp only [calls_cons]
    cases c with
    | write bytes =>
      obtain ⟨rfl, hlater⟩ := writesNothing_cons_write.mp hnothing
      obtain ⟨w₁, hw₁⟩ := h.write_nil
      obtain ⟨h₁, hpos⟩ := h.write hw₁
      rw [TextFits, ← hpos] at hfits
      rw [call, hw₁]
      exact ih h₁ hlater hfits
    | printf text =>
      obtain ⟨hroom, hfits⟩ := hfits
      obtain ⟨w₁, hw₁, h₁, hpos⟩ := h.printf hroom
      rw [← hpos] at hfits
      rw [call, hw₁]
      exact ih h₁ (writesNothing_cons_printf.mp hnothing) hfits
    | flush =>
      obtain ⟨w₁, hw₁, h₁, hpos, _⟩ := h.flush
      rw [TextFits, ← hpos] at hfits
      rw [call, hw₁]
      exact ih h₁ (writesNothing_cons_flush.mp hnothing) hfits

/-- After a last `Flush` the blocks are the text. -/
theorem calls_flush (h : Ready w out) (hrun : w.calls (cs ++ [.flush]) = .ok w') :
    w'.underlyingFile.flatten = out ++ printed cs ∧ TextFits w.buffer.pos.toNat cs := by
  rw [calls_append] at hrun
  obtain ⟨w₁, hcalls, hflush⟩ := bind_eq_ok.mp hrun
  obtain ⟨h₁, hfits⟩ := h.calls hcalls
  -- the blocks are what the writer denotes
  obtain ⟨w₂, hw₂, _, _, hblocks⟩ := h₁.flush
  have hlast : w₁.calls [.flush] = .ok w₂ := by
    rw [calls_cons, call, hw₂]
    rfl
  cases hlast.symm.trans hflush
  exact ⟨hblocks, hfits⟩

end Ready

/-- The calls end well with all that they were given exactly if `Write` was given nothing and the
text fits. -/
theorem written_eq_given_iff (raw : Vector UInt8 4096) (cs : List Call) :
    (∃ w, (new raw).calls (cs ++ [.flush]) = .ok w ∧ w.underlyingFile.flatten = given cs) ↔
      WritesNothing cs ∧ TextFits 0 cs := by
  constructor
  · rintro ⟨w, hrun, hgiven⟩
    obtain ⟨hblocks, hfits⟩ := (ready_new raw).calls_flush hrun
    rw [List.nil_append] at hblocks
    exact ⟨(printed_eq_given_iff cs).mp (hblocks.symm.trans hgiven), hfits⟩
  · -- the calls go through, and what was printed is what was given
    rintro ⟨hnothing, hfits⟩
    obtain ⟨w₁, hw₁⟩ := (ready_new raw).exists_calls hnothing hfits
    obtain ⟨w, hw, _⟩ := ((ready_new raw).calls hw₁).1.flush
    have hrun : (new raw).calls (cs ++ [.flush]) = .ok w := by
      rw [calls_append, hw₁, ok_bind, calls_cons, call, hw]
      rfl
    obtain ⟨hblocks, _⟩ := (ready_new raw).calls_flush hrun
    refine ⟨w, hrun, ?_⟩
    rw [hblocks, List.nil_append]
    exact (printed_eq_given_iff cs).mpr hnothing

/-- One byte that is written and flushed: the block that is passed on is empty. -/
theorem written_of_one : ¬ ∃ w,
    (new (Vector.replicate 4096 0)).calls [.write [65], .flush] = .ok w ∧
    w.underlyingFile.flatten = given [.write [65], .flush] := by
  rintro ⟨w, hrun, hgiven⟩
  have hblocks : w.underlyingFile.flatten = [] ++ printed [.write [65]] :=
    ((ready_new _).calls_flush hrun).1
  cases hblocks.symm.trans hgiven

end FileBufWriter

end Guthi
