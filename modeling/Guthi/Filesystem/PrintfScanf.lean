import Guthi.Filesystem.BufWriter
import Guthi.Filesystem.ScanfTokens

/-!
# Guthi — numbers through a file

Numbers that are printed with `FileBufWriter::Printf`, flushed to a file, and read back with
`FileBufReader::Scanf` (`filesystem/fs.hpp`). Neither buffer is cleared by `malloc`, and a buffer
has no NUL behind what was fetched, so a number must not be the last of the file.

* `ReadsAll` — one call of `Scanf` after the other;
* `readsAll_of_gap` — they read what is in the buffer, up to a gap;
* `printf_scanf_iff` — when they read what was printed, however it was split into calls.
-/

namespace Guthi

section

variable {F : Type} (strtof : Bytes → F × Nat)

/-- Each call of `Scanf` stores the values of its tokens, and moves the reader just behind them. -/
def ReadsAll : FileBufReader UInt8 → List (List ScanItem) → Prop
  | _, [] => True
  | r, items :: parts => ∃ fuel r',
    r.scanf strtof (formatOf items) fuel = .ok (r', items.map (·.field.stored)) ∧
    r'.buffer.readPtr.toNat = r.buffer.readPtr.toNat + (inputOf items).length ∧
    ReadsAll r' parts

end

/-- Numbers for one call of `Scanf`, which comes to the end of their format. -/
structure Numbers (items : List ScanItem) : Prop where
  ne : items ≠ []
  separated : Separated items
  isNumber : ∀ i ∈ items, i.field.isNumber = true
  format : ∀ i ∈ items, ∀ c ∈ i.formatGap, isFormatSpace c = true
  length_format : (formatOf items).length < 2 ^ 32

section

variable {F : Type} {strtof : Bytes → F × Nat} {r r' : FileBufReader UInt8}
  {items : List ScanItem} {parts : List (List ScanItem)} {rest : Bytes}

theorem inputOf_append (items items' : List ScanItem) :
    inputOf (items ++ items') = inputOf items ++ inputOf items' := List.flatMap_append

theorem atGap_cStr (h : atGap rest = true) : atGap (cStr rest) = true := by
  cases rest with
  | nil => rfl
  | cons c rest =>
    have hc : c ≠ 0 := by
      rintro rfl
      cases h
    rw [cStr, List.takeWhile_cons_of_pos (by simpa using hc)]
    exact h

/-- One call, on numbers with a gap behind them. -/
theorem scanf_of_gap (strtof : Bytes → F × Nat) (hitems : Numbers items)
    (hdata : r.buffer.data.toList.drop r.buffer.readPtr.toNat = inputOf items ++ rest)
    (hrest : atGap rest = true)
    (hshort : r.buffer.readPtr.toNat + (inputOf items).length < 2 ^ 8) :
    ∃ fuel r', r.scanf strtof (formatOf items) fuel = .ok (r', items.map (·.field.stored)) ∧
      r'.buffer.data = r.buffer.data ∧
      r'.buffer.readPtr.toNat = r.buffer.readPtr.toNat + (inputOf items).length := by
  have hcstr : cStr (inputOf items ++ rest) = inputOf items ++ cStr rest :=
    cStr_append (zero_notMem_inputOf hitems.separated.valid) rest
  have hstring : ∀ inPos ≤ (inputOf items ++ cStr rest).length,
      r.stringAt inPos = (inputOf items ++ cStr rest).drop inPos := by
    intro inPos hin
    rw [← hcstr] at hin
    rw [FileBufReader.stringAt, ← List.drop_drop, hdata, cStr_drop hin, hcstr]
  obtain ⟨fuel, s, hrun, hstored, hinPos⟩ :
      ∃ fuel s, scanfLoop strtof r (formatOf items) fuel {} = .ok s ∧
        s.stored = [] ++ items.map (·.field.stored) ∧ s.inPos = 0 + (inputOf items).length :=
    scanfLoop_numbers_gap (formatOf_ne_nil hitems.ne) hitems.length_format hstring
      (atGap_cStr hrest) hitems.separated hitems.isNumber hitems.format rfl (Nat.zero_le _) rfl
  rw [Nat.zero_add] at hinPos
  rw [List.nil_append] at hstored
  have hresult := scanf_eq_ok.mpr ⟨s, hrun, rfl⟩
  rw [hstored] at hresult
  refine ⟨fuel, _, hresult, rfl, ?_⟩
  show (UInt8.ofNat (r.buffer.readPtr.toNat + s.inPos)).toNat = _
  rw [UInt8.toNat_ofNat', hinPos]
  omega

theorem readsAll_of_gap (strtof : Bytes → F × Nat) (hparts : ∀ items ∈ parts, Numbers items)
    (hgaps : ∀ i ∈ parts.flatten.tail, i.inputGap ≠ [])
    (hdata : r.buffer.data.toList.drop r.buffer.readPtr.toNat = inputOf parts.flatten ++ rest)
    (hrest : atGap rest = true)
    (hshort : r.buffer.readPtr.toNat + (inputOf parts.flatten).length < 2 ^ 8) :
    ReadsAll strtof r parts := by
  induction parts generalizing r with
  | nil => trivial
  | cons items parts ih =>
    rw [List.forall_mem_cons] at hparts
    obtain ⟨hitems, hparts⟩ := hparts
    have hlater : ∀ i ∈ parts.flatten, i.inputGap ≠ [] := by
      intro i hi
      refine hgaps i ?_
      rw [List.flatten_cons, List.tail_append_of_ne_nil hitems.ne]
      exact List.mem_append_right _ hi
    have hvalid : ∀ i ∈ parts.flatten, i.Valid := by
      intro i hi
      obtain ⟨items', hitems', hi⟩ := List.mem_flatten.mp hi
      exact (hparts items' hitems').separated.valid i hi
    rw [List.flatten_cons, inputOf_append, List.append_assoc] at hdata
    rw [List.flatten_cons, inputOf_append, List.length_append] at hshort
    obtain ⟨fuel, r', hscanf, hbuffer, hptr⟩ :=
      scanf_of_gap strtof hitems hdata (atGap_inputOf hvalid hlater hrest) (by omega)
    refine ⟨fuel, r', hscanf, hptr, ih hparts ?_ ?_ (by omega)⟩
    · exact fun i hi => hlater i (List.mem_of_mem_tail hi)
    · rw [hbuffer, hptr, ← List.drop_drop, hdata, List.drop_left]

/-- The position of the reader has eight bits. -/
theorem ReadsAll.short (h : ReadsAll strtof r parts) :
    r.buffer.readPtr.toNat + (inputOf parts.flatten).length < 2 ^ 8 := by
  induction parts generalizing r with
  | nil => exact r.buffer.readPtr.toNat_lt
  | cons items parts ih =>
    obtain ⟨_, r', _, hptr, hrest⟩ := h
    have hshort := ih hrest
    rw [List.flatten_cons, inputOf_append, List.length_append]
    omega

/-- The file behind the numbers goes on with a gap, and with whatever the buffer had there. -/
theorem data_of_atStart {file behind : Bytes} (hr : r.AtStart file)
    (hfile : file = inputOf items ++ behind) (hbehind : behind ≠ []) (hgap : atGap behind = true)
    (hshort : (inputOf items).length < 4096) :
    ∃ rest, r.buffer.data.toList.drop r.buffer.readPtr.toNat = inputOf items ++ rest ∧
      atGap rest = true := by
  obtain ⟨c, behind, rfl⟩ := List.exists_cons_of_ne_nil hbehind
  obtain ⟨room, hroom⟩ : ∃ room, 4096 - (inputOf items).length = room + 1 :=
    ⟨4096 - (inputOf items).length - 1, by omega⟩
  refine ⟨c :: (behind.take room ++ r.buffer.data.toList.drop r.buffer.pos.toNat), ?_, hgap⟩
  have hfilled := hr.filled
  rw [hfile, List.take_append, List.take_of_length_le hshort.le, hroom, List.take_succ_cons]
    at hfilled
  rw [hr.readPtr]
  have hsplit := List.take_append_drop r.buffer.pos.toNat r.buffer.data.toList
  rw [hfilled, List.append_assoc] at hsplit
  exact hsplit.symm

end

/-! ## There and back -/

/-- What `Printf` has put into the file, when nothing but text was written and it fitted. -/
theorem printed_to_file (raw : Vector UInt8 4096) {cs : List FileBufWriter.Call}
    (hnothing : FileBufWriter.WritesNothing cs) (hfits : FileBufWriter.TextFits 0 cs) :
    ∃ w, (FileBufWriter.new raw).calls (cs ++ [.flush]) = .ok w ∧
      w.underlyingFile.flatten = FileBufWriter.printed cs := by
  obtain ⟨w₁, hw₁⟩ := (FileBufWriter.ready_new raw).exists_calls hnothing hfits
  obtain ⟨w, hw, _⟩ := ((FileBufWriter.ready_new raw).calls hw₁).1.flush
  have hrun : (FileBufWriter.new raw).calls (cs ++ [.flush]) = .ok w := by
    rw [FileBufWriter.calls_append, hw₁, ok_bind, FileBufWriter.calls_cons, FileBufWriter.call, hw]
    rfl
  exact ⟨w, hrun, ((FileBufWriter.ready_new raw).calls_flush hrun).1⟩

/-- Numbers that were printed by whatever calls of `Printf` and `Flush`, with a gap behind the last,
are read back by whatever calls of `Scanf` have their formats, exactly if they take less than 256
bytes: whatever `malloc` has left in the two buffers. -/
theorem printf_scanf_iff {F : Type} (strtof : Bytes → F × Nat) (raw raw' : Vector UInt8 4096)
    {cs : List FileBufWriter.Call} {parts : List (List ScanItem)} {behind : Bytes}
    (hnothing : FileBufWriter.WritesNothing cs) (hfits : FileBufWriter.TextFits 0 cs)
    (hprinted : FileBufWriter.printed cs = inputOf parts.flatten ++ behind) (hbehind : behind ≠ [])
    (hgap : atGap behind = true) (hparts : ∀ items ∈ parts, Numbers items)
    (hgaps : ∀ i ∈ parts.flatten.tail, i.inputGap ≠ []) :
    (∃ w r, (FileBufWriter.new raw).calls (cs ++ [.flush]) = .ok w ∧
      FileBufReader.new raw' w.underlyingFile.flatten = .ok r ∧ ReadsAll strtof r parts) ↔
    (inputOf parts.flatten).length < 2 ^ 8 := by
  obtain ⟨w, hw, hfile⟩ := printed_to_file raw hnothing hfits
  obtain ⟨r, hr, hstart⟩ := FileBufReader.new_atStart raw' w.underlyingFile.flatten
  have hptr : r.buffer.readPtr.toNat = 0 := by
    rw [hstart.readPtr]
    rfl
  constructor
  · rintro ⟨w', r', hw', hr', hreads⟩
    cases hw.symm.trans hw'
    cases hr.symm.trans hr'
    have hshort := hreads.short
    rwa [hptr, Nat.zero_add] at hshort
  · intro hshort
    obtain ⟨rest, hdata, hrest⟩ := data_of_atStart hstart (hfile.trans hprinted) hbehind hgap
      (by omega)
    refine ⟨w, r, hw, hr, readsAll_of_gap strtof hparts hgaps hdata hrest ?_⟩
    rwa [hptr, Nat.zero_add]

theorem numbers_singleton {i : ScanItem} (hvalid : i.Valid) (hnumber : i.field.isNumber = true)
    (hgap : i.formatGap = []) : Numbers [i] where
  ne := List.cons_ne_nil _ _
  separated := ⟨List.forall_mem_singleton.mpr hvalid, List.forall_mem_nil _⟩
  isNumber := List.forall_mem_singleton.mpr hnumber
  format := by
    rw [List.forall_mem_singleton, hgap]
    exact List.forall_mem_nil _
  length_format := by
    show (i.formatGap ++ _ ++ []).length < _
    rw [hgap]
    exact Nat.lt_of_lt_of_le (Nat.lt_succ_self 2) (by decide)

/-- `-12` is flushed before the rest is printed, the two numbers are read by a call each, and
`malloc` has left digits in the buffers. -/
theorem printf_scanf_iff_two_calls :
    (∃ w r, (FileBufWriter.new (Vector.replicate 4096 57)).calls
        ([.printf (ascii "-12"), .flush, .printf (ascii " 0\n")] ++ [.flush]) = .ok w ∧
      FileBufReader.new (Vector.replicate 4096 57) w.underlyingFile.flatten = .ok r ∧
      ReadsAll (fun _ => ((), 0)) r
        [[⟨[], [], .number .minus 12⟩], [⟨[], ascii " ", .number .bare 0⟩]]) ↔
    (inputOf [⟨[], [], .number .minus 12⟩, ⟨[], ascii " ", .number .bare 0⟩]).length < 2 ^ 8 := by
  have hfirst : Numbers [⟨[], [], .number .minus 12⟩] :=
    numbers_singleton ⟨List.forall_mem_nil _, List.forall_mem_nil _, by decide, by decide⟩ rfl rfl
  have hsecond : Numbers [⟨[], ascii " ", .number .bare 0⟩] :=
    numbers_singleton ⟨List.forall_mem_nil _, List.forall_mem_singleton.mpr rfl, by decide,
      by decide⟩ rfl rfl
  have hprinted : FileBufWriter.printed [.printf (ascii "-12"), .flush, .printf (ascii " 0\n")] =
      inputOf [⟨[], [], .number .minus 12⟩, ⟨[], ascii " ", .number .bare 0⟩] ++ ascii "\n" := rfl
  exact printf_scanf_iff (fun _ => ((), 0)) _ _ (by simp [FileBufWriter.WritesNothing])
    (by simp [FileBufWriter.TextFits, ascii]) hprinted (by decide) rfl
    (List.forall_mem_cons.mpr ⟨hfirst, List.forall_mem_singleton.mpr hsecond⟩) (by decide)

end Guthi
