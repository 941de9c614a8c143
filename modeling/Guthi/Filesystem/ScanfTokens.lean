import Guthi.Filesystem.Scanf

/-!
# Guthi — numbers and words through Scanf

`Scanf` with a list of `%d` and `%s`, on an input with a number for each `%d` and a word for each
`%s`.

* `Visits.nodup`, `length_lt_of_visits` — a walk that ends comes to no directive twice, so a format
  on which the positions wrap around is not walked to its end;
* `scanfBody_number` — the iteration at a number; `scanfLoop_numbers_gap`, `scanfLoop_numbers` —
  the run over numbers;
* `scanfLoop_item` — what an iteration at any field was;
* `wordEnds_le_of_scanfLoop` — a `%s` leaves its word to be read again;
* `reads_iff` — when every argument has its value and the reader is behind the last token.
-/

namespace Guthi

/-! ## Fields -/

/-- What a directive of the format is to read. -/
inductive Field where
  | number (sign : Sign) (n : Nat)
  | word (text : Bytes)
deriving DecidableEq, Repr

namespace Field

/-- The character behind the `%`. -/
def directive : Field → UInt8
  | number _ _ => Char.toUInt8 'd'
  | word _ => Char.toUInt8 's'

/-- The token of the input. -/
def text : Field → Bytes
  | number sign n => sign.text ++ ascii n.repr
  | word text => text

/-- What is to be stored: a number in 32 bits, or the word. -/
def stored {F : Type} : Field → Stored F
  | number sign n => .int (UInt32.ofNat (sign.apply n % 2 ^ 32).toNat)
  | word text => .string (some text)

/-- A number fits 32 bits, with a sign or without; a word has some characters, none of which is
whitespace or a NUL. -/
def Fits : Field → Prop
  | number sign n => -2 ^ 31 ≤ sign.apply n ∧ sign.apply n < 2 ^ 32
  | word text => text ≠ [] ∧ ∀ c ∈ text, isSpace c = false ∧ c ≠ 0

/-- Whether the directive is `%d`. -/
def isNumber : Field → Bool
  | number _ _ => true
  | word _ => false

end Field

/-- A field with the whitespace in front of it, in the format and in the input. -/
structure ScanItem where
  formatGap : Bytes
  inputGap : Bytes
  field : Field
deriving DecidableEq, Repr

namespace ScanItem

/-- The item in the format. -/
def format (i : ScanItem) : Bytes := i.formatGap ++ [Char.toUInt8 '%', i.field.directive]

/-- The item in the input. -/
def input (i : ScanItem) : Bytes := i.inputGap ++ i.field.text

/-- Whitespace on both sides in front of a field that its directive can read. -/
structure Valid (i : ScanItem) : Prop where
  formatGap : ∀ c ∈ i.formatGap, isSpace c = true
  inputGap : ∀ c ∈ i.inputGap, isSpace c = true
  fits : i.field.Fits

end ScanItem

/-- The format of the items. -/
def formatOf (items : List ScanItem) : Bytes := items.flatMap ScanItem.format

/-- The input of the items. -/
def inputOf (items : List ScanItem) : Bytes := items.flatMap ScanItem.input

/-- The items are valid, and all but the first one are separated from the one in front. -/
structure Separated (items : List ScanItem) : Prop where
  valid : ∀ i ∈ items, i.Valid
  gaps : ∀ i ∈ items.tail, i.formatGap ≠ [] ∧ i.inputGap ≠ []

/-- The buffer holds the input from the position of the reader on, with a NUL behind it; there may
be some more whitespace between them. -/
def Holds (r : FileBufReader UInt8) (items : List ScanItem) : Prop :=
  ∃ spaces more, r.buffer.data.toList.drop r.buffer.readPtr.toNat =
    inputOf items ++ spaces ++ 0 :: more ∧ ∀ c ∈ spaces, isSpace c = true

/-- `Scanf` comes to an end, every argument has the value of its token, and the reader is just
behind the last of them. -/
def Reads {F : Type} (strtof : Bytes → F × Nat) (r : FileBufReader UInt8)
    (items : List ScanItem) : Prop :=
  ∃ fuel r' stored, r.scanf strtof (formatOf items) fuel = .ok (r', stored) ∧
    stored = items.map (·.field.stored) ∧
    r'.buffer.readPtr.toNat = r.buffer.readPtr.toNat + (inputOf items).length

/-! ## Walks that come to no directive twice -/

namespace Visits

variable {fmt : Bytes} {pos q : UInt32} {qs qs' : List UInt32}

/-- A position is walked from in one way only. -/
theorem unique (h : Visits fmt pos qs) (h' : Visits fmt pos qs') : qs = qs' := by
  induction h generalizing qs' with
  | behind hpos =>
    cases h' with
    | behind => rfl
    | last h => exact absurd h hpos
    | directive h => exact absurd h hpos
  | last hpos hskip hc hne _ =>
    cases h' with
    | behind h => exact absurd hpos h
    | last => rfl
    | directive _ hskip' hc' _ =>
      cases hskip.symm.trans hskip'
      cases hc.symm.trans hc'
      exact absurd rfl hne
  | directive hpos hskip hc _ ih =>
    cases h' with
    | behind h => exact absurd hpos h
    | last _ hskip' hc' hne _ =>
      cases hskip.symm.trans hskip'
      cases hc.symm.trans hc'
      exact absurd rfl hne
    | directive _ hskip' _ hrest' =>
      cases hskip.symm.trans hskip'
      exact congrArg _ (ih hrest')

/-- Behind one of its directives a walk goes on with fewer of them. -/
theorem behind_mem (h : Visits fmt pos qs) (hq : q ∈ qs) :
    ∃ after, Visits fmt (q + 2) after ∧ after.length < qs.length := by
  induction h with
  | behind => exact (nomatch hq)
  | last => exact (nomatch hq)
  | directive _ _ _ hrest ih =>
    -- the first directive, or a later one
    rcases List.mem_cons.mp hq with rfl | hq
    · exact ⟨_, hrest, Nat.lt_succ_self _⟩
    · obtain ⟨after, hafter, hlt⟩ := ih hq
      exact ⟨after, hafter, Nat.lt_succ_of_lt hlt⟩

/-- No directive is visited twice. -/
theorem nodup (h : Visits fmt pos qs) : qs.Nodup := by
  induction h with
  | behind => exact List.nodup_nil
  | last => exact List.nodup_nil
  | directive _ _ _ hrest ih =>
    refine List.nodup_cons.mpr ⟨fun hq => ?_, ih⟩
    obtain ⟨after, hafter, hlt⟩ := hrest.behind_mem hq
    rw [hafter.unique hrest] at hlt
    exact Nat.lt_irrefl _ hlt

/-- Every directive begins with a percent sign. -/
theorem percent (h : Visits fmt pos qs) (hq : q ∈ qs) :
    fmt[q.toNat]? = some (Char.toUInt8 '%') := by
  induction h with
  | behind => exact (nomatch hq)
  | last => exact (nomatch hq)
  | directive _ _ hc _ ih =>
    rcases List.mem_cons.mp hq with rfl | hq
    · have hlt := lt_of_formatAt hc (by decide)
      rw [formatAt_eq_ok, List.getElem?_append_left hlt] at hc
      exact hc
    · exact ih hq

end Visits

/-- The positions of the directives of a format. -/
def percents (fmt : Bytes) : List Nat :=
  (fmt.zipIdx.filter fun p => p.1 = Char.toUInt8 '%').map Prod.snd

/-- The positions of the percent signs. -/
theorem mem_percents {fmt : Bytes} {i : Nat} :
    i ∈ percents fmt ↔ fmt[i]? = some (Char.toUInt8 '%') := by
  simp only [percents, List.mem_map, List.mem_filter, decide_eq_true_eq, Prod.exists,
    List.mk_mem_zipIdx_iff_getElem?]
  constructor
  · rintro ⟨c, j, ⟨hc, rfl⟩, rfl⟩
    exact hc
  · intro h
    exact ⟨_, i, ⟨h, rfl⟩, rfl⟩

/-- There are as many of them as there are percent signs. -/
theorem length_percents (fmt : Bytes) : (percents fmt).length = fmt.count (Char.toUInt8 '%') := by
  rw [percents, List.length_map, ← List.countP_eq_length_filter, List.count]
  nth_rewrite 2 [← List.zipIdx_map_fst 0 fmt]
  rw [List.countP_map]
  refine List.countP_congr fun p _ => ?_
  simp

/-- A walk that comes to all directives, and to the last one in front of the last character: the
positions do not wrap around. -/
theorem length_lt_of_visits {fmt : Bytes} {qs : List UInt32} (h : Visits fmt 0 qs)
    (hall : fmt.count (Char.toUInt8 '%') ≤ qs.length)
    (hlast : fmt[fmt.length - 2]? = some (Char.toUInt8 '%')) : fmt.length < 2 ^ 32 := by
  have hnodup : (qs.map UInt32.toNat).Nodup :=
    h.nodup.map fun a b hab => UInt32.toNat_inj.mp hab
  have hsub : qs.map UInt32.toNat ⊆ percents fmt := by
    intro i hi
    obtain ⟨q, hq, rfl⟩ := List.mem_map.mp hi
    exact mem_percents.mpr (h.percent hq)
  -- the last directive is visited, as all are
  have hmem : fmt.length - 2 ∈ qs.map UInt32.toNat := by
    by_contra hout
    -- one position more than there are directives
    have hlen := ((List.nodup_cons.mpr ⟨hout, hnodup⟩).subperm
      (List.cons_subset.mpr ⟨mem_percents.mpr hlast, hsub⟩)).length_le
    rw [List.length_cons, List.length_map, length_percents] at hlen
    omega
  obtain ⟨q, hq, hposition⟩ := List.mem_map.mp hmem
  have hq32 : q.toNat < 2 ^ 32 := q.toNat_lt
  by_contra hlong
  rcases (by omega : fmt.length = 2 ^ 32 ∨ fmt.length = 2 ^ 32 + 1) with hlen | hlen
  · -- behind the last directive the walk begins again
    have hzero : q + 2 = 0 := by
      apply UInt32.toNat_inj.mp
      rw [UInt32.toNat_add]
      show (q.toNat + 2) % 2 ^ 32 = 0
      omega
    obtain ⟨after, hafter, hlt⟩ := h.behind_mem hq
    rw [hzero] at hafter
    rw [hafter.unique h] at hlt
    exact Nat.lt_irrefl _ hlt
  · -- the length was cut to one, and the walk does not begin
    have hbound : lastPos fmt = 0 := by
      rw [lastPos, hlen]
      rfl
    cases h with
    | behind => exact absurd hq List.not_mem_nil
    | last => exact absurd hq List.not_mem_nil
    | directive hpos =>
      rw [hbound] at hpos
      exact absurd hpos (by decide)

section

variable {items : List ScanItem}

/-- Whitespace has no percent sign in it. -/
theorem percent_notMem_gap {gap : Bytes} (h : ∀ c ∈ gap, isSpace c = true) :
    Char.toUInt8 '%' ∉ gap := by
  intro hmem
  exact absurd (h _ hmem) (by decide)

/-- The format has one percent sign for each item. -/
theorem count_formatOf (h : ∀ i ∈ items, i.Valid) :
    (formatOf items).count (Char.toUInt8 '%') = items.length := by
  induction items with
  | nil => rfl
  | cons i items ih =>
    have hgap := List.count_eq_zero.mpr (percent_notMem_gap (h i List.mem_cons_self).formatGap)
    have hdirective : [Char.toUInt8 '%', i.field.directive].count (Char.toUInt8 '%') = 1 := by
      cases i.field <;> rfl
    rw [formatOf, List.flatMap_cons, List.count_append, ScanItem.format, List.count_append, hgap,
      hdirective, List.length_cons, Nat.zero_add, Nat.add_comm]
    exact congrArg (· + 1) (ih fun j hj => h j (List.mem_cons_of_mem i hj))

/-- The format ends with a directive. -/
theorem formatOf_last (hne : items ≠ []) :
    (formatOf items)[(formatOf items).length - 2]? = some (Char.toUInt8 '%') := by
  obtain ⟨init, i, rfl⟩ := (List.eq_nil_or_concat' items).resolve_left hne
  have hsplit : formatOf (init ++ [i]) = formatOf init ++ i.formatGap ++
      [Char.toUInt8 '%', i.field.directive] := by
    rw [formatOf, List.flatMap_append, List.flatMap_singleton, ScanItem.format,
      ← List.append_assoc]
    rfl
  rw [hsplit, List.length_append]
  show (_ ++ _)[(formatOf init ++ i.formatGap).length + 2 - 2]? = _
  rw [Nat.add_sub_cancel, List.getElem?_append_right (Nat.le_refl _), Nat.sub_self]
  rfl

end

/-! ## One iteration -/

section

variable {fmt gap rest : Bytes} {pos : UInt32} {c : UInt8} {n : Nat}

/-- The inner loop over whitespace that it knows. -/
theorem skip_gap (hlen : fmt.length < 2 ^ 32) (hdrop : fmt.drop pos.toNat = gap ++ c :: rest)
    (hgap : ∀ d ∈ gap, isFormatSpace d = true) (hc : isFormatSpace c = false)
    (hn : gap.length < n) : ∃ q, skipFormatSpace fmt n pos = .ok q ∧
      q.toNat = pos.toNat + gap.length := by
  induction gap generalizing pos n with
  | nil =>
    obtain ⟨n, rfl⟩ := Nat.exists_eq_add_of_le' hn
    exact ⟨pos, skip_of_not_space (formatAt_of_drop hdrop) hc n, rfl⟩
  | cons d gap ih =>
    obtain ⟨n, rfl⟩ := Nat.exists_eq_add_of_le' (Nat.one_le_of_lt hn)
    have hd := formatAt_of_drop hdrop
    have hspace := hgap d List.mem_cons_self
    have hlt := lt_of_formatAt hd (ne_zero_of_isFormatSpace hspace)
    have hsucc := toNat_add_one pos (by omega)
    have hdrop' : fmt.drop (pos + 1).toNat = gap ++ c :: rest := by
      rw [hsucc, ← List.drop_drop, hdrop]
      rfl
    rw [List.length_cons] at hn
    obtain ⟨q, hq, hposition⟩ := ih (n := n) hdrop' (fun e he => hgap e (List.mem_cons_of_mem d he))
      (by omega)
    refine ⟨q, ?_, ?_⟩
    · rw [skipFormatSpace, hd, ok_bind, if_pos hspace]
      exact hq
    · rw [List.length_cons]
      omega

/-- The length of a text, from a position inside it. -/
theorem length_of_drop (hdrop : fmt.drop pos.toNat = rest) (hne : rest ≠ []) :
    fmt.length = pos.toNat + rest.length := by
  have hlen := congrArg List.length hdrop
  have hpos := List.length_pos_iff.mpr hne
  rw [List.length_drop] at hlen
  omega

/-- In front of two characters, the first one no whitespace for the loop: the inner loop comes to
it, and the outer loop is not at its end. -/
theorem skip_to {e : UInt8} (hlen : fmt.length < 2 ^ 32)
    (hdrop : fmt.drop pos.toNat = gap ++ c :: e :: rest)
    (hgap : ∀ d ∈ gap, isFormatSpace d = true) (hc : isFormatSpace c = false) :
    pos < lastPos fmt ∧ ∃ q, skipFormatSpace fmt (fmt.length + 1) pos = .ok q ∧
      q < lastPos fmt ∧ fmt.drop q.toNat = c :: e :: rest := by
  have hlength := length_of_drop hdrop (by simp)
  simp only [List.length_append, List.length_cons] at hlength
  have hfmt : fmt ≠ [] := List.ne_nil_of_length_pos (by omega)
  have hlast := toNat_lastPos hfmt hlen
  obtain ⟨q, hskip, hq⟩ := skip_gap (n := fmt.length + 1) hlen hdrop hgap hc (by omega)
  refine ⟨?_, q, hskip, ?_, ?_⟩
  · rw [UInt32.lt_iff_toNat_lt]
    omega
  · rw [UInt32.lt_iff_toNat_lt]
    omega
  · rw [hq, ← List.drop_drop, hdrop, List.drop_left]

/-- A character that is neither whitespace for the loop nor a directive, with others behind it. -/
theorem not_visits_gap {e : UInt8} {qs : List UInt32} (hlen : fmt.length < 2 ^ 32)
    (hdrop : fmt.drop pos.toNat = gap ++ c :: e :: rest)
    (hgap : ∀ d ∈ gap, isFormatSpace d = true) (hc : isFormatSpace c = false)
    (hne : c ≠ Char.toUInt8 '%') : ¬ Visits fmt pos qs := by
  obtain ⟨hpos, q, hskip, hq, hdrop'⟩ := skip_to hlen hdrop hgap hc
  exact not_visits_of_stuck hpos hskip (formatAt_of_drop hdrop') hne hq

/-- The iteration at a directive. -/
theorem scanfBody_gap {F : Type} (strtof : Bytes → F × Nat) (r : FileBufReader UInt8)
    {s : ScanfState F} {kind : UInt8} (hlen : fmt.length < 2 ^ 32)
    (hdrop : fmt.drop s.pos.toNat = gap ++ Char.toUInt8 '%' :: kind :: rest)
    (hgap : ∀ d ∈ gap, isFormatSpace d = true) : s.pos < lastPos fmt ∧ ∃ q,
      fmt.drop q.toNat = rest ∧ scanfBody strtof r fmt s =
        convert strtof r s kind >>= fun s' => .ok (.next { s' with pos := q }) := by
  obtain ⟨hpos, q, hskip, _, hdrop'⟩ := skip_to hlen hdrop hgap (by decide)
  have hlength := length_of_drop hdrop' (by simp)
  rw [List.length_cons, List.length_cons] at hlength
  have hkind : fmt.drop (q + 1).toNat = kind :: rest := by
    rw [toNat_add_one q (by omega), ← List.drop_drop, hdrop']
    rfl
  refine ⟨hpos, q + 2, ?_,
    scanfBody_directive hskip (formatAt_of_drop hdrop') (formatAt_of_drop hkind)⟩
  rw [toNat_add_two q (by omega), ← List.drop_drop, hdrop']
  rfl

end

/-! ## The input -/

section

variable {items : List ScanItem} {spaces rest : Bytes}

/-- A field is a word: not empty, without whitespace and NUL. -/
theorem Field.text_spec {f : Field} (h : f.Fits) :
    f.text ≠ [] ∧ ∀ c ∈ f.text, isSpace c = false ∧ c ≠ 0 := by
  cases f with
  | word text => exact h
  | number sign n =>
    refine ⟨List.append_ne_nil_of_right_ne_nil _ (ascii_repr_nonempty n), fun c hc => ?_⟩
    exact ⟨not_space_of_mem_number hc, ne_zero_of_mem_number hc⟩

/-- A number has a sign and digits. -/
theorem Field.exists_of_isNumber {f : Field} (h : f.isNumber = true) :
    ∃ sign n, f = .number sign n := by
  cases f with
  | number sign n => exact ⟨sign, n, rfl⟩
  | word text => cases h

theorem zero_notMem_inputOf (h : ∀ i ∈ items, i.Valid) : 0 ∉ inputOf items := by
  intro hmem
  obtain ⟨i, hi, hmem⟩ := List.mem_flatMap.mp hmem
  rcases List.mem_append.mp hmem with hmem | hmem
  · exact absurd ((h i hi).inputGap 0 hmem) (by decide)
  · exact ((Field.text_spec (h i hi).fits).2 0 hmem).2 rfl

theorem atGap_of_spaces (hspaces : ∀ c ∈ spaces, isSpace c = true) : atGap spaces = true := by
  cases spaces with
  | nil => rfl
  | cons c spaces => exact hspaces c List.mem_cons_self

/-- Items that begin with whitespace begin with a gap. -/
theorem atGap_inputOf (h : ∀ i ∈ items, i.Valid) (hgaps : ∀ i ∈ items, i.inputGap ≠ [])
    (hrest : atGap rest = true) : atGap (inputOf items ++ rest) = true := by
  cases items with
  | nil => exact hrest
  | cons i items =>
    obtain ⟨c, gap, hgap⟩ := List.exists_cons_of_ne_nil (hgaps i List.mem_cons_self)
    have hc := (h i List.mem_cons_self).inputGap c (by rw [hgap]; exact List.mem_cons_self)
    rw [inputOf, List.flatMap_cons, ScanItem.input, hgap]
    exact hc

/-- The first item of the input and the others. -/
theorem inputOf_cons (i : ScanItem) (items : List ScanItem) (spaces : Bytes) :
    inputOf (i :: items) ++ spaces =
      i.inputGap ++ (i.field.text ++ (inputOf items ++ spaces)) := by
  rw [inputOf, List.flatMap_cons, ScanItem.input, List.append_assoc, List.append_assoc]
  rfl

/-- The first item and the others make up the length. -/
theorem length_inputOf_cons (i : ScanItem) (items : List ScanItem) :
    (inputOf (i :: items)).length = i.input.length + (inputOf items).length := by
  rw [inputOf, List.flatMap_cons, List.length_append]
  rfl

/-- The items behind the first one are separated too. -/
theorem Separated.tail {i : ScanItem} (h : Separated (i :: items)) : Separated items :=
  ⟨fun j hj => h.valid j (List.mem_cons_of_mem i hj),
    fun j hj => h.gaps j (List.mem_of_mem_tail hj)⟩

/-- The input has a word for each item. -/
theorem wordEnds_inputOf (h : Separated items) (hspaces : ∀ c ∈ spaces, isSpace c = true) :
    wordEnds (inputOf items ++ spaces) = items.length := by
  induction items with
  | nil =>
    have hnone : wordEnds (spaces ++ []) = wordEnds [] := wordEnds_spaces hspaces
    rw [List.append_nil] at hnone
    exact hnone
  | cons i items ih =>
    have hi := h.valid i List.mem_cons_self
    obtain ⟨hne, hword⟩ := Field.text_spec hi.fits
    have hgap : atGap (inputOf items ++ spaces) = true :=
      atGap_inputOf h.tail.valid (fun j hj => (h.gaps j hj).2) (atGap_of_spaces hspaces)
    rw [inputOf_cons, wordEnds_spaces hi.inputGap,
      wordEnds_word hne (fun c hc => (hword c hc).1) hgap, ih h.tail, List.length_cons]

end

/-! ## The runs -/

section

variable {F : Type} {strtof : Bytes → F × Nat} {r : FileBufReader UInt8} {fmt text more : Bytes}
  {s s' : ScanfState F} {items : List ScanItem}

/-- What `sscanf` sees from a position on is the rest of the text. -/
theorem stringAt_eq (hdata : r.buffer.data.toList.drop r.buffer.readPtr.toNat = text ++ 0 :: more)
    (h0 : 0 ∉ text) {inPos : Nat} (hin : inPos ≤ text.length) :
    r.stringAt inPos = text.drop inPos := by
  have hfree : 0 ∉ text.drop inPos := fun h => h0 (List.mem_of_mem_drop h)
  rw [FileBufReader.stringAt, ← List.drop_drop, hdata, List.drop_append_of_le_length hin,
    cStr_append_zero, cStr_eq_self hfree]

/-- A number moves the input position by what `strtol` has read. -/
theorem convert_number_ok (h : convert strtof r s (Char.toUInt8 'd') = .ok s') :
    s'.inPos = s.inPos + (strtol (r.stringAt s.inPos)).2 := by
  unfold convert at h
  dsimp only at h
  rw [if_pos rfl] at h
  split_ifs at h
  cases h
  rfl

/-- A word is stored, and the input position stays. -/
theorem convert_word (s : ScanfState F) : convert strtof r s (Char.toUInt8 's') =
    .ok { s with stored := s.stored ++ [.string (firstWord (r.stringAt s.inPos))] } := rfl

/-- A number that is there is converted. -/
theorem convert_number {sign : Sign} {n length : Nat}
    (hnumber : strtol (r.stringAt s.inPos) = (sign.apply n, length)) (hlength : length ≠ 0) :
    convert strtof r s (Char.toUInt8 'd') = .ok { s with
      inPos := s.inPos + length, stored := s.stored ++ [(Field.number sign n).stored] } := by
  unfold convert
  dsimp only
  rw [if_pos rfl, hnumber, if_neg hlength]
  rfl

/-- Behind the last directive the loop ends. -/
theorem scanfLoop_end (hne : fmt ≠ []) (hlen : fmt.length < 2 ^ 32)
    (hdrop : fmt.drop s.pos.toNat = []) (fuel : Nat) :
    scanfLoop strtof r fmt (fuel + 1) s = .ok s := by
  apply scanfLoop_stop
  rw [UInt32.lt_iff_toNat_lt, toNat_lastPos hne hlen]
  rw [List.drop_eq_nil_iff] at hdrop
  omega

/-- The first item of the format and the others. -/
theorem formatOf_cons (i : ScanItem) (items : List ScanItem) : formatOf (i :: items) =
    i.formatGap ++ Char.toUInt8 '%' :: i.field.directive :: formatOf items := by
  rw [formatOf, List.flatMap_cons, ScanItem.format, List.append_assoc]
  rfl

/-- At a number: it is stored, and the positions move behind the directive and behind it. -/
theorem scanfBody_number (strtof : Bytes → F × Nat) {i : ScanItem} {sign : Sign} {n : Nat}
    {rest : Bytes} (hlen : fmt.length < 2 ^ 32)
    (hstring : ∀ inPos ≤ text.length, r.stringAt inPos = text.drop inPos)
    (hrest : atGap rest = true) (hitems : Separated (i :: items))
    (hfield : i.field = .number sign n) (hformat : ∀ c ∈ i.formatGap, isFormatSpace c = true)
    (hdrop : fmt.drop s.pos.toNat = formatOf (i :: items)) (hin : s.inPos ≤ text.length)
    (htext : text.drop s.inPos = inputOf (i :: items) ++ rest) :
    s.pos < lastPos fmt ∧ ∃ s₁, scanfBody strtof r fmt s = .ok (.next s₁) ∧
      s₁.stored = s.stored ++ [i.field.stored] ∧ s₁.inPos = s.inPos + i.input.length ∧
      fmt.drop s₁.pos.toNat = formatOf items ∧ s₁.inPos ≤ text.length ∧
      text.drop s₁.inPos = inputOf items ++ rest := by
  have hi := hitems.valid i List.mem_cons_self
  rw [formatOf_cons] at hdrop
  rw [inputOf_cons] at htext
  obtain ⟨hpos, q, hq, hbody⟩ := scanfBody_gap strtof r hlen hdrop hformat
  have hinput : i.input.length = (i.inputGap ++ (sign.text ++ ascii n.repr)).length := by
    rw [ScanItem.input, hfield]
    rfl
  -- `strtol` reads the gap and the number, up to the next gap
  have hnumber : strtol (r.stringAt s.inPos) = (sign.apply n, i.input.length) := by
    have hgap : atGap (inputOf items ++ rest) = true :=
      atGap_inputOf hitems.tail.valid (fun j hj => (hitems.gaps j hj).2) hrest
    have hfits := hi.fits
    rw [hfield] at hfits htext
    rw [hstring s.inPos hin, htext, hinput]
    exact strtol_number hi.inputGap hgap (by have := hfits.1; omega) (by have := hfits.2; omega)
  have hlength : i.input.length ≠ 0 := by
    have hword := List.length_pos_iff.mpr (Field.text_spec hi.fits).1
    rw [ScanItem.input, List.length_append]
    omega
  have hbehind : text.drop (s.inPos + i.input.length) = inputOf items ++ rest := by
    rw [← List.drop_drop, htext, ← List.append_assoc]
    exact List.drop_left
  have hin' : s.inPos + i.input.length ≤ text.length := by
    have hlen' := congrArg List.length htext
    rw [← List.append_assoc, List.length_append, List.length_drop] at hlen'
    have hinput' : (i.inputGap ++ i.field.text).length = i.input.length := rfl
    omega
  refine ⟨hpos, { pos := q, inPos := s.inPos + i.input.length,
                  stored := s.stored ++ [i.field.stored] }, ?_, rfl, rfl, hq, hin', hbehind⟩
  rw [hbody, hfield]
  show convert strtof r s (Char.toUInt8 'd') >>= _ = _
  rw [convert_number hnumber hlength]
  rfl

/-- Over numbers, with a gap behind the last: each one is stored, and the position moves behind
it. -/
theorem scanfLoop_numbers_gap {rest : Bytes} (hne : fmt ≠ []) (hlen : fmt.length < 2 ^ 32)
    (hstring : ∀ inPos ≤ text.length, r.stringAt inPos = text.drop inPos)
    (hrest : atGap rest = true) (hitems : Separated items)
    (hnumbers : ∀ i ∈ items, i.field.isNumber = true)
    (hformat : ∀ i ∈ items, ∀ c ∈ i.formatGap, isFormatSpace c = true)
    (hdrop : fmt.drop s.pos.toNat = formatOf items) (hin : s.inPos ≤ text.length)
    (htext : text.drop s.inPos = inputOf items ++ rest) :
    ∃ fuel s', scanfLoop strtof r fmt fuel s = .ok s' ∧
      s'.stored = s.stored ++ items.map (·.field.stored) ∧
      s'.inPos = s.inPos + (inputOf items).length := by
  induction items generalizing s with
  | nil => exact ⟨1, s, scanfLoop_end hne hlen hdrop 0, (List.append_nil _).symm, rfl⟩
  | cons i items ih =>
    rw [List.forall_mem_cons] at hnumbers hformat
    obtain ⟨sign, n, hfield⟩ := Field.exists_of_isNumber hnumbers.1
    obtain ⟨hpos, s₁, hnext, hstored₁, hinPos₁, hq, hin', hbehind⟩ :=
      scanfBody_number strtof hlen hstring hrest hitems hfield hformat.1 hdrop hin htext
    obtain ⟨fuel, s', hrun, hstored, hinPos⟩ :=
      ih hitems.tail hnumbers.2 hformat.2 hq hin' hbehind
    refine ⟨fuel + 1, s', (scanfLoop_next hpos hnext).trans hrun, ?_, ?_⟩
    · rw [hstored, hstored₁, List.map_cons, List.append_assoc]
      rfl
    · rw [hinPos, hinPos₁, length_inputOf_cons, Nat.add_assoc]

theorem scanfLoop_numbers (hne : fmt ≠ []) (hlen : fmt.length < 2 ^ 32)
    (hdata : r.buffer.data.toList.drop r.buffer.readPtr.toNat = text ++ 0 :: more) (h0 : 0 ∉ text)
    {spaces : Bytes} (hspaces : ∀ c ∈ spaces, isSpace c = true) (hitems : Separated items)
    (hnumbers : ∀ i ∈ items, i.field.isNumber = true)
    (hformat : ∀ i ∈ items, ∀ c ∈ i.formatGap, isFormatSpace c = true)
    (hdrop : fmt.drop s.pos.toNat = formatOf items) (hin : s.inPos ≤ text.length)
    (htext : text.drop s.inPos = inputOf items ++ spaces) :
    ∃ fuel s', scanfLoop strtof r fmt fuel s = .ok s' ∧
      s'.stored = s.stored ++ items.map (·.field.stored) ∧
      s'.inPos = s.inPos + (inputOf items).length :=
  scanfLoop_numbers_gap hne hlen (fun _ => stringAt_eq hdata h0) (atGap_of_spaces hspaces) hitems
    hnumbers hformat hdrop hin htext

/-- What an iteration that is followed by others was: all whitespace in front of the directive is
known, and the conversion has a result. -/
theorem scanfLoop_item {i : ScanItem} {fuel : Nat} (hlen : fmt.length < 2 ^ 32) (hi : i.Valid)
    (hdrop : fmt.drop s.pos.toNat = formatOf (i :: items))
    (hrun : scanfLoop strtof r fmt fuel s = .ok s') :
    (∀ c ∈ i.formatGap, isFormatSpace c = true) ∧ ∃ fuel' s₁ q,
      convert strtof r s i.field.directive = .ok s₁ ∧ fmt.drop q.toNat = formatOf items ∧
      scanfLoop strtof r fmt fuel' { s₁ with pos := q } = .ok s' := by
  rw [formatOf_cons] at hdrop
  have hgap : ∀ c ∈ i.formatGap, isFormatSpace c = true := by
    obtain ⟨qs, hqs, _⟩ := visits_of_ok hrun
    -- a whitespace that the loop does not know is no directive
    cases hrest : i.formatGap.dropWhile isFormatSpace with
    | nil => exact List.dropWhile_eq_nil_iff.mp hrest
    | cons c gap =>
      -- the first other character would hold up the loop
      have hsplit := List.takeWhile_append_dropWhile (p := isFormatSpace) (l := i.formatGap)
      have hc : isFormatSpace c = false := by
        have hhead := List.head?_dropWhile_not isFormatSpace i.formatGap
        rw [hrest] at hhead
        simpa using hhead
      rw [hrest] at hsplit
      have hspace : isSpace c = true := hi.formatGap c (by rw [← hsplit]; simp)
      have hne : c ≠ Char.toUInt8 '%' := by
        rintro rfl
        exact absurd hspace (by decide)
      obtain ⟨e, tail, htail⟩ : ∃ e tail, gap ++ Char.toUInt8 '%' :: i.field.directive ::
          formatOf items = e :: tail := by
        cases gap with
        | nil => exact ⟨_, _, rfl⟩
        | cons e gap => exact ⟨_, _, rfl⟩
      rw [← hsplit, List.append_assoc, List.cons_append, htail] at hdrop
      exact absurd hqs (not_visits_gap hlen hdrop (fun d hd => List.mem_takeWhile_imp hd) hc hne)
  refine ⟨hgap, ?_⟩
  obtain ⟨hpos, q, hq, hbody⟩ := scanfBody_gap strtof r hlen hdrop hgap
  cases fuel with
  | zero => cases hrun
  | succ fuel =>
    cases hconvert : convert strtof r s i.field.directive with
    | error e =>
      rw [hconvert] at hbody
      rw [scanfLoop_fails hpos hbody] at hrun
      cases hrun
    | ok s₁ =>
      rw [hconvert, ok_bind] at hbody
      rw [scanfLoop_next hpos hbody] at hrun
      exact ⟨fuel, s₁, q, rfl, hq, hrun⟩

/-- Every number leaves one word less in front of the reader at most, and a word leaves all. -/
theorem wordEnds_le_of_scanfLoop {fuel : Nat} (hne : fmt ≠ []) (hlen : fmt.length < 2 ^ 32)
    (hdata : r.buffer.data.toList.drop r.buffer.readPtr.toNat = text ++ 0 :: more) (h0 : 0 ∉ text)
    (hvalid : ∀ i ∈ items, i.Valid) (hdrop : fmt.drop s.pos.toNat = formatOf items)
    (hin : s.inPos ≤ text.length) (hrun : scanfLoop strtof r fmt fuel s = .ok s') :
    (∀ i ∈ items, ∀ c ∈ i.formatGap, isFormatSpace c = true) ∧ wordEnds (text.drop s.inPos) ≤
      wordEnds (text.drop s'.inPos) + items.countP (·.field.isNumber) := by
  induction items generalizing s fuel with
  | nil =>
    cases fuel with
    | zero => cases hrun
    | succ fuel =>
      rw [scanfLoop_end hne hlen hdrop] at hrun
      cases hrun
      exact ⟨fun i hi => (nomatch hi), Nat.le_refl _⟩
  | cons i items ih =>
    obtain ⟨hgap, fuel', s₁, q, hconvert, hq, hrest⟩ :=
      scanfLoop_item hlen (hvalid i List.mem_cons_self) hdrop hrun
    have hvalid' : ∀ j ∈ items, j.Valid := fun j hj => hvalid j (List.mem_cons_of_mem i hj)
    have hstring := stringAt_eq hdata h0 hin
    rw [List.forall_mem_cons, and_assoc, List.countP_cons]
    refine ⟨hgap, ?_⟩
    cases hfield : i.field with
    | number sign n =>
      rw [hfield] at hconvert
      have hinPos : s₁.inPos = s.inPos + (strtol (text.drop s.inPos)).2 := by
        rw [← hstring]
        exact convert_number_ok hconvert
      have hle := strtol_le (text.drop s.inPos)
      have hword := wordEnds_drop_strtol (text.drop s.inPos)
      rw [List.length_drop] at hle
      rw [List.drop_drop, ← hinPos] at hword
      obtain ⟨hformat, hends⟩ := ih (s := { s₁ with pos := q }) hvalid' hq
        (by show s₁.inPos ≤ _; omega) hrest
      refine ⟨hformat, hword.trans ?_⟩
      exact Nat.succ_le_succ hends
    | word w =>
      rw [hfield] at hconvert
      cases (convert_word s).symm.trans hconvert
      exact ih (s := { s with stored := _, pos := q }) hvalid' hq hin hrest

end

/-! ## Numbers and words -/

section

variable {F : Type} {strtof : Bytes → F × Nat} {r : FileBufReader UInt8} {items : List ScanItem}
  {spaces more : Bytes}

/-- The format of an item is not empty. -/
theorem formatOf_ne_nil (hne : items ≠ []) : formatOf items ≠ [] := by
  intro hnil
  have hlast := formatOf_last hne
  rw [hnil] at hlast
  cases hlast

/-- Behind the input there are no words. -/
theorem wordEnds_behind (hspaces : ∀ c ∈ spaces, isSpace c = true) {inPos : Nat}
    (hin : (inputOf items).length ≤ inPos) :
    wordEnds ((inputOf items ++ spaces).drop inPos) = 0 := by
  rw [List.drop_append, List.drop_eq_nil_of_le hin, List.nil_append,
    ← List.append_nil (spaces.drop _)]
  exact wordEnds_spaces fun c hc => hspaces c (List.mem_of_mem_drop hc)

/-- What a `Scanf` that reads everything was given. -/
theorem numbers_of_reads (hne : items ≠ []) (hitems : Separated items)
    (hdata : r.buffer.data.toList.drop r.buffer.readPtr.toNat =
      inputOf items ++ spaces ++ 0 :: more)
    (hspaces : ∀ c ∈ spaces, isSpace c = true) (h0 : 0 ∉ inputOf items ++ spaces)
    (h : Reads strtof r items) : (∀ i ∈ items, i.field.isNumber = true) ∧
      (∀ i ∈ items, ∀ c ∈ i.formatGap, isFormatSpace c = true) ∧
      (formatOf items).length < 2 ^ 32 ∧
      r.buffer.readPtr.toNat + (inputOf items).length < 2 ^ 8 := by
  obtain ⟨fuel, r', stored, hrun, rfl, hptr⟩ := h
  obtain ⟨s, hs, hresult⟩ := scanf_eq_ok.mp hrun
  obtain ⟨rfl, hstored⟩ := Prod.mk.inj hresult
  have hlen : (formatOf items).length < 2 ^ 32 := by
    obtain ⟨qs, hqs, hle⟩ := visits_of_ok hs
    refine length_lt_of_visits hqs ?_ (formatOf_last hne)
    rw [count_formatOf hitems.valid]
    rw [← hstored, List.length_map] at hle
    exact hle.trans (Nat.le_of_eq (Nat.zero_add _))
  have hptr' : (UInt8.ofNat (r.buffer.readPtr.toNat + s.inPos)).toNat =
      r.buffer.readPtr.toNat + (inputOf items).length := hptr
  rw [UInt8.toNat_ofNat'] at hptr'
  -- just behind the last item there is no word left
  have hnone : wordEnds ((inputOf items ++ spaces).drop s.inPos) = 0 :=
    wordEnds_behind hspaces (by omega)
  obtain ⟨hformat, hends⟩ := wordEnds_le_of_scanfLoop (formatOf_ne_nil hne) hlen hdata h0
    hitems.valid rfl (Nat.zero_le _) hs
  have hends' : wordEnds (inputOf items ++ spaces) ≤ _ := hends
  rw [wordEnds_inputOf hitems hspaces, hnone, Nat.zero_add] at hends'
  have hcount := hends'.antisymm List.countP_le_length
  exact ⟨List.countP_eq_length.mp hcount.symm, hformat, hlen, by omega⟩

end

/-- Every argument has the value of its token, and the reader is just behind the last one, exactly
if all fields are numbers, the whitespace of the format is of the kinds that the loop knows, and
the positions in the format and behind the input do not wrap around. -/
theorem reads_iff {F : Type} {strtof : Bytes → F × Nat} {r : FileBufReader UInt8}
    {items : List ScanItem} (hne : items ≠ []) (hitems : Separated items) (hholds : Holds r items) :
    Reads strtof r items ↔ (∀ i ∈ items, i.field.isNumber = true) ∧
      (∀ i ∈ items, ∀ c ∈ i.formatGap, isFormatSpace c = true) ∧
      (formatOf items).length < 2 ^ 32 ∧
      r.buffer.readPtr.toNat + (inputOf items).length < 2 ^ 8 := by
  obtain ⟨spaces, more, hdata, hspaces⟩ := hholds
  have h0 : 0 ∉ inputOf items ++ spaces := by
    intro hmem
    rcases List.mem_append.mp hmem with hmem | hmem
    · exact zero_notMem_inputOf hitems.valid hmem
    · exact absurd (hspaces 0 hmem) (by decide)
  constructor
  · intro h
    exact numbers_of_reads hne hitems hdata hspaces h0 h
  · rintro ⟨hnumbers, hformat, hlen, hptr⟩
    obtain ⟨fuel, s, hrun, hstored, hinPos⟩ :
        ∃ fuel s, scanfLoop strtof r (formatOf items) fuel {} = .ok s ∧
          s.stored = [] ++ items.map (·.field.stored) ∧ s.inPos = 0 + (inputOf items).length :=
      scanfLoop_numbers (formatOf_ne_nil hne) hlen hdata h0 hspaces hitems hnumbers hformat rfl
        (Nat.zero_le _) rfl
    rw [Nat.zero_add] at hinPos
    refine ⟨fuel, _, _, scanf_eq_ok.mpr ⟨s, hrun, rfl⟩, hstored, ?_⟩
    show (UInt8.ofNat (r.buffer.readPtr.toNat + s.inPos)).toNat = _
    rw [UInt8.toNat_ofNat', hinPos]
    omega

/-- `-12` and `0`, with `%d %d`. -/
def twoNumbers : List ScanItem :=
  [⟨[], [], .number .minus 12⟩, ⟨ascii " ", ascii " \n", .number .bare 0⟩]

/-- Two numbers, each with a gap in front in the input. -/
theorem separated_twoNumbers : Separated twoNumbers where
  valid := by
    rw [twoNumbers, List.forall_mem_cons, List.forall_mem_singleton]
    constructor
    · exact ⟨List.forall_mem_nil _, List.forall_mem_nil _, by decide, by decide⟩
    · refine ⟨List.forall_mem_singleton.mpr rfl, ?_, by decide, by decide⟩
      exact List.forall_mem_cons.mpr ⟨rfl, List.forall_mem_singleton.mpr rfl⟩
  gaps := by decide

/-- The theorem at a format of two numbers. -/
theorem reads_twoNumbers :
    Reads (fun _ => ((), 0)) (FileBufReader.holding (ascii "-12 \n0") (by decide)) twoNumbers ↔
      (∀ i ∈ twoNumbers, i.field.isNumber = true) ∧
      (∀ i ∈ twoNumbers, ∀ c ∈ i.formatGap, isFormatSpace c = true) ∧
      (formatOf twoNumbers).length < 2 ^ 32 ∧ 0 + (inputOf twoNumbers).length < 2 ^ 8 :=
  reads_iff (by decide) separated_twoNumbers ⟨[], List.replicate 4089 0, rfl, by simp⟩

/-- One word, with `%s`: the reader stays in front of it. -/
theorem not_reads_word :
    Separated [⟨[], [], .word (ascii "a")⟩] ∧
      Holds (FileBufReader.holding (ascii "a") (by decide)) [⟨[], [], .word (ascii "a")⟩] ∧
      ¬ Reads (fun _ => ((), 0)) (FileBufReader.holding (ascii "a") (by decide))
        [⟨[], [], .word (ascii "a")⟩] := by
  have hvalid : (⟨[], [], .word (ascii "a")⟩ : ScanItem).Valid :=
    ⟨List.forall_mem_nil _, List.forall_mem_nil _, by decide,
      List.forall_mem_singleton.mpr ⟨rfl, by decide⟩⟩
  refine ⟨⟨List.forall_mem_singleton.mpr hvalid, List.forall_mem_nil _⟩,
    ⟨[], List.replicate 4094 0, rfl, List.forall_mem_nil _⟩, ?_⟩
  -- two rounds are enough for the one directive
  rintro ⟨_ | _ | fuel, r', stored, hrun, _, hptr⟩
  · cases hrun
  · cases hrun
  · cases hrun
    exact absurd hptr (by decide)

end Guthi
