import Guthi.Lib.Bytes

/-!
# Guthi — the tokenizer of the system information

`tokenize` of `runtime/parser_cpuinfo.cpp`. It reads characters from `ptr` on and stops at a NUL
only, so a pointer is modelled by the bytes from there to the end of the buffer; reading a
character where none is left is the fault `outOfBounds`.

* `Finds`, `finds_iff` — the token that is found, as a relation: one rule for each kind;
* `exists_finds` — a NUL that is still ahead is enough for a token;
* `Finds.append` — bytes behind a token play no role.
-/

namespace Guthi

/-- The types of tokens; three of them no text has. -/
inductive TokenType where
  | tokenCpu
  | tokenMhz
  | tokenMax
  | tokenMemAvailable
  | tokenKb
  | tokenId
  | tokenNumber
  | tokenInteger
  | tokenFloat
  | tokenColon
  | tokenEnd
deriving DecidableEq, Repr

/-- What the parsers can do wrong: read behind the buffer, write behind the records in the middle of
a text, or write the totals behind the records when all is read. `outOfFuel` stands for a loop that
has not ended yet. -/
inductive ParserFault where
  | outOfBounds
  | outOfRecords
  | totalsOutOfRecords
  | outOfFuel
deriving DecidableEq, Repr

/-- `struct Tokenizer`. `value` is a `double` that only ever holds whole numbers, and `none`
before the first number was read. -/
structure Tokenizer where
  ptr : Bytes
  type : TokenType := .tokenCpu
  value : Option Nat := none
  id : Bytes := []
deriving DecidableEq, Repr

/-! ## Characters and numbers -/

/-- `is_char`. -/
def isChar (c : UInt8) : Bool :=
  (Char.toUInt8 'A' ≤ c && c ≤ Char.toUInt8 'Z') || (Char.toUInt8 'a' ≤ c && c ≤ Char.toUInt8 'z')

/-- `is_num`. -/
def isNum (c : UInt8) : Bool := Char.toUInt8 '0' ≤ c && c ≤ Char.toUInt8 '9'

/-- The characters that are skipped between tokens. -/
def isBlank (c : UInt8) : Bool := c = Char.toUInt8 ' ' || c = Char.toUInt8 '\t'

/-- The characters that an identifier goes on with. -/
def isIdChar (c : UInt8) : Bool := isChar c || c = Char.toUInt8 '_' || isNum c

/-- `tolower`, for the characters of ASCII. -/
def toLower (c : UInt8) : UInt8 :=
  if Char.toUInt8 'A' ≤ c ∧ c ≤ Char.toUInt8 'Z' then c + 32 else c

/-- `is_equal_case_insensitive`. -/
def isEqualCaseInsensitive (s1 s2 : Bytes) : Bool :=
  if s1.length ≠ s2.length then false
  else (s1.zip s2).all fun p => toLower p.1 = toLower p.2

/-- The words that have a type of their own. -/
def keywords : List Bytes := [ascii "cpu", ascii "mhz", ascii "max", ascii "MemAvailable"]

/-- `(TokenType) i` for the first keyword that the identifier equals. -/
def idType (id : Bytes) : TokenType :=
  match keywords.findIdx? fun keyword => isEqualCaseInsensitive keyword id with
  | some 0 => .tokenCpu
  | some 1 => .tokenMhz
  | some 2 => .tokenMax
  | some 3 => .tokenMemAvailable
  | _ => .tokenId

/-- The value of decimal digits. -/
def decimal (digits : Bytes) : Nat := digits.foldl (fun n c => n * 10 + (c.toNat - 48)) 0

/-- `strtoull(start, .., 10)` on a run of digits. -/
def strtoull (digits : Bytes) : Nat := min (decimal digits) (2 ^ 64 - 1)

/-- The conversion from `unsigned long long` to `double`: to the nearest, ties to even. -/
def toDouble (n : Nat) : Nat :=
  if n < 2 ^ 53 then n
  else
    let unit := 2 ^ (n.log2 - 52)
    let low := n / unit * unit
    if n - low > unit / 2 ∨ (n - low = unit / 2 ∧ n / unit % 2 = 1) then low + unit else low

/-- Numbers below `2 ^ 53` are exact. -/
theorem toDouble_strtoull_decimal {digits : Bytes} (h : decimal digits < 2 ^ 53) :
    toDouble (strtoull digits) = decimal digits := by
  have hfits : strtoull digits = decimal digits := by
    rw [strtoull]
    omega
  rw [hfits, toDouble, if_pos h]

/-! ## The scanner -/

/-- The longest run of characters with `p`, and what follows. The character behind the run is
read. -/
def scan (p : UInt8 → Bool) : Bytes → Except ParserFault (Bytes × Bytes)
  | [] => .error .outOfBounds
  | c :: rest =>
    if p c then do
      let (run, rest') ← scan p rest
      return (c :: run, rest')
    else .ok ([], c :: rest)

/-- `tokenize` on a pointer that has come to these bytes. -/
def tokenizeFrom (t : Tokenizer) : Bytes → Except ParserFault Tokenizer
  | [] => .error .outOfBounds
  | c :: rest =>
    if c = 0 then .ok { t with type := .tokenEnd, ptr := rest }
    else if isBlank c then tokenizeFrom t rest
    else if c = Char.toUInt8 ':' then
      .ok { t with type := .tokenColon, id := ascii ":", ptr := rest }
    else if isChar c then do
      let (run, rest') ← scan isIdChar rest
      return { t with id := c :: run, type := idType (c :: run), ptr := rest' }
    else if isNum c then do
      let (run, rest') ← scan isNum rest
      return { t with type := .tokenNumber, value := some (toDouble (strtoull (c :: run))),
                      ptr := rest' }
    else tokenizeFrom t rest

/-- `tokenize(t)`; it returns true whenever it returns. -/
def tokenize (t : Tokenizer) : Except ParserFault Tokenizer := tokenizeFrom t t.ptr

/-! ## The run of one scan -/

/-- A run that is not ended goes over the end. -/
theorem scan_error {p : UInt8 → Bool} {text : Bytes} {e : ParserFault}
    (h : scan p text = .error e) : e = .outOfBounds := by
  induction text with
  | nil =>
    cases h
    rfl
  | cons c rest ih =>
    rw [scan] at h
    split_ifs at h
    cases hrest : scan p rest with
    | error e' =>
      rw [hrest] at h
      cases h
      exact ih hrest
    | ok found =>
      rw [hrest] at h
      cases h

/-- A run that is followed by some other character. -/
theorem scan_run {p : UInt8 → Bool} {run rest : Bytes} {c : UInt8} (hrun : ∀ b ∈ run, p b = true)
    (hc : p c = false) : scan p (run ++ c :: rest) = .ok (run, c :: rest) := by
  induction run with
  | nil => rw [List.nil_append, scan, hc, if_neg (by decide)]
  | cons b run ih =>
    rw [List.cons_append, scan, if_pos (hrun b (by simp)), ih fun d hd => hrun d (by simp [hd])]
    rfl

/-- A run goes up to the first character that is not of its kind. -/
theorem scan_eq_ok {p : UInt8 → Bool} {text run rest : Bytes} (h : scan p text = .ok (run, rest)) :
    ∃ c rest', text = run ++ rest ∧ rest = c :: rest' ∧ (∀ b ∈ run, p b = true) ∧ p c = false := by
  induction text generalizing run with
  | nil => cases h
  | cons b text ih =>
    rw [scan] at h
    split_ifs at h with hb
    · -- the character is one of the run
      cases hrest : scan p text with
      | error e =>
        rw [hrest] at h
        cases h
      | ok found =>
        obtain ⟨run', rest''⟩ := found
        rw [hrest] at h
        cases h
        obtain ⟨c, tail, rfl, rfl, hall, hc⟩ := ih hrest
        refine ⟨c, tail, rfl, rfl, ?_, hc⟩
        simpa [hb] using hall
    · cases h
      exact ⟨b, text, rfl, rfl, by simp, by simpa using hb⟩

theorem scan_of_mem_zero {p : UInt8 → Bool} {text : Bytes} (hp : p 0 = false) (h0 : 0 ∈ text) :
    ∃ run rest, scan p text = .ok (run, rest) := by
  induction text with
  | nil => exact (nomatch h0)
  | cons c text ih =>
    rw [scan]
    -- the run goes on, or the first character ends it
    split_ifs with hc
    · have hne : c ≠ 0 := by
        rintro rfl
        rw [hp] at hc
        exact (nomatch hc)
      obtain ⟨run, rest, hscan⟩ := ih (List.mem_of_ne_of_mem hne.symm h0)
      exact ⟨c :: run, rest, by rw [hscan]; rfl⟩
    · exact ⟨[], c :: text, rfl⟩

/-! ## The token that is found -/

/-- What `tokenize` finds in the bytes `text`: the new state of the tokenizer `t`. -/
inductive Finds (t : Tokenizer) : Bytes → Tokenizer → Prop where
  | skip {c : UInt8} {text : Bytes} {t' : Tokenizer} (hzero : c ≠ 0)
      (hcolon : c ≠ Char.toUInt8 ':') (hchar : isChar c = false) (hnum : isNum c = false)
      (h : Finds t text t') : Finds t (c :: text) t'
  | nul {text : Bytes} : Finds t (0 :: text) { t with type := .tokenEnd, ptr := text }
  | colon {text : Bytes} : Finds t (Char.toUInt8 ':' :: text)
      { t with type := .tokenColon, id := ascii ":", ptr := text }
  | word {c : UInt8} {text run rest : Bytes} (hchar : isChar c = true)
      (hscan : scan isIdChar text = .ok (run, rest)) : Finds t (c :: text)
      { t with id := c :: run, type := idType (c :: run), ptr := rest }
  | number {c : UInt8} {text run rest : Bytes} (hnum : isNum c = true)
      (hscan : scan isNum text = .ok (run, rest)) : Finds t (c :: text)
      { t with type := .tokenNumber, value := some (toDouble (strtoull (c :: run))), ptr := rest }

theorem not_skipped_of_isBlank {c : UInt8} (hc : isBlank c = true) :
    c ≠ 0 ∧ c ≠ Char.toUInt8 ':' ∧ isChar c = false ∧ isNum c = false ∧ isIdChar c = false := by
  rcases Bool.or_eq_true_iff.mp hc with h | h <;>
    (rw [of_decide_eq_true h]; decide)

/-- A letter is no blank, no colon and not the NUL. -/
theorem not_skipped_of_isChar {c : UInt8} (hc : isChar c = true) :
    c ≠ 0 ∧ isBlank c = false ∧ c ≠ Char.toUInt8 ':' := by
  refine ⟨?_, Bool.eq_false_iff.mpr fun hblank => ?_, ?_⟩
  · rintro rfl
    revert hc
    decide
  · obtain ⟨_, _, hchar, _⟩ := not_skipped_of_isBlank hblank
    cases hc.symm.trans hchar
  · rintro rfl
    revert hc
    decide

theorem not_skipped_of_isNum {c : UInt8} (hc : isNum c = true) :
    c ≠ 0 ∧ isBlank c = false ∧ c ≠ Char.toUInt8 ':' ∧ isChar c = false := by
  refine ⟨?_, Bool.eq_false_iff.mpr fun hblank => ?_, ?_, ?_⟩
  · rintro rfl
    revert hc
    decide
  · obtain ⟨_, _, _, hnum, _⟩ := not_skipped_of_isBlank hblank
    cases hc.symm.trans hnum
  · rintro rfl
    revert hc
    decide
  · -- the codes of digits and letters lie apart
    simp only [isNum, isChar, Bool.and_eq_true, decide_eq_true_eq, Bool.or_eq_false_iff,
      Bool.and_eq_false_iff, decide_eq_false_iff_not, UInt8.le_iff_toNat_le] at hc ⊢
    have h9 : (Char.toUInt8 '9').toNat = 57 := rfl
    have hA : (Char.toUInt8 'A').toNat = 65 := rfl
    have ha : (Char.toUInt8 'a').toNat = 97 := rfl
    omega

/-- What the scanner returns is the token that is found. -/
theorem finds_of_tokenizeFrom {t t' : Tokenizer} {text : Bytes}
    (h : tokenizeFrom t text = .ok t') : Finds t text t' := by
  induction text with
  | nil => cases h
  | cons c rest ih =>
    unfold tokenizeFrom at h
    -- in the order of the source
    split_ifs at h with hzero hblank hcolon hchar hnum
    · cases h
      subst hzero
      exact .nul
    · obtain ⟨hzero, hcolon, hchar, hnum, _⟩ := not_skipped_of_isBlank hblank
      exact .skip hzero hcolon hchar hnum (ih h)
    · cases h
      subst hcolon
      exact .colon
    · cases hscan : scan isIdChar rest with
      | error e =>
        rw [hscan] at h
        cases h
      | ok found =>
        rw [hscan] at h
        cases h
        exact .word hchar hscan
    · cases hscan : scan isNum rest with
      | error e =>
        rw [hscan] at h
        cases h
      | ok found =>
        rw [hscan] at h
        cases h
        exact .number hnum hscan
    · exact .skip hzero hcolon (Bool.eq_false_iff.mpr hchar) (Bool.eq_false_iff.mpr hnum) (ih h)

/-- The token that is found is what the scanner returns. -/
theorem tokenizeFrom_of_finds {t t' : Tokenizer} {text : Bytes} (h : Finds t text t') :
    tokenizeFrom t text = .ok t' := by
  -- one case per kind of token
  induction h with
  | skip hzero hcolon hchar hnum _ ih =>
    unfold tokenizeFrom
    simp only [hzero, hcolon, hchar, hnum, if_false, ite_self, Bool.false_eq_true]
    exact ih
  | nul => rfl
  | colon => rfl
  | word hchar hscan =>
    obtain ⟨hzero, hblank, hcolon⟩ := not_skipped_of_isChar hchar
    unfold tokenizeFrom
    simp only [hzero, hblank, hcolon, hchar, if_false, if_true, Bool.false_eq_true, hscan]
    rfl
  | number hnum hscan =>
    obtain ⟨hzero, hblank, hcolon, hchar⟩ := not_skipped_of_isNum hnum
    unfold tokenizeFrom
    simp only [hzero, hblank, hcolon, hchar, hnum, if_false, if_true, Bool.false_eq_true, hscan]
    rfl

/-- Finding a token is running the scanner. -/
theorem finds_iff {t t' : Tokenizer} {text : Bytes} :
    Finds t text t' ↔ tokenizeFrom t text = .ok t' :=
  ⟨tokenizeFrom_of_finds, finds_of_tokenizeFrom⟩

/-- Without a token the reading went over the end. -/
theorem tokenizeFrom_error {t : Tokenizer} {text : Bytes} {e : ParserFault}
    (h : tokenizeFrom t text = .error e) : e = .outOfBounds := by
  induction text with
  | nil =>
    cases h
    rfl
  | cons c rest ih =>
    unfold tokenizeFrom at h
    -- a skipped character, a word, a number, a skipped character
    split_ifs at h
    · exact ih h
    · cases hscan : scan isIdChar rest with
      | error e' =>
        rw [hscan] at h
        cases h
        exact scan_error hscan
      | ok found =>
        rw [hscan] at h
        cases h
    · cases hscan : scan isNum rest with
      | error e' =>
        rw [hscan] at h
        cases h
        exact scan_error hscan
      | ok found =>
        rw [hscan] at h
        cases h
    · exact ih h

/-- A NUL that is still ahead is enough for a token. -/
theorem exists_finds {text : Bytes} (h0 : 0 ∈ text) (t : Tokenizer) : ∃ t', Finds t text t' := by
  induction text with
  | nil => exact (nomatch h0)
  | cons c rest ih =>
    by_cases hzero : c = 0
    · subst hzero
      exact ⟨_, .nul⟩
    have hrest : 0 ∈ rest := List.mem_of_ne_of_mem (Ne.symm hzero) h0
    by_cases hcolon : c = Char.toUInt8 ':'
    · subst hcolon
      exact ⟨_, .colon⟩
    cases hchar : isChar c with
    | true =>
      obtain ⟨run, rest', hscan⟩ := scan_of_mem_zero (p := isIdChar) (by decide) hrest
      exact ⟨_, .word hchar hscan⟩
    | false =>
      cases hnum : isNum c with
      | true =>
        obtain ⟨run, rest', hscan⟩ := scan_of_mem_zero (p := isNum) (by decide) hrest
        exact ⟨_, .number hnum hscan⟩
      | false =>
        -- a skipped character has the NUL behind it
        obtain ⟨t', ht'⟩ := ih hrest
        exact ⟨t', .skip hzero hcolon hchar hnum ht'⟩

/-- A run that has ended is the same with more text behind. -/
theorem scan_append {p : UInt8 → Bool} {text run rest : Bytes}
    (h : scan p text = .ok (run, rest)) (more : Bytes) :
    scan p (text ++ more) = .ok (run, rest ++ more) := by
  obtain ⟨c, rest', rfl, rfl, hrun, hc⟩ := scan_eq_ok h
  rw [List.append_assoc, List.cons_append]
  exact scan_run hrun hc

/-- The tokenizer with more text behind. -/
def Tokenizer.append (t : Tokenizer) (more : Bytes) : Tokenizer := { t with ptr := t.ptr ++ more }

/-- Bytes behind the token play no role. -/
theorem Finds.append {t t' : Tokenizer} {text : Bytes} (h : Finds t text t') (more : Bytes) :
    Finds (t.append more) (text ++ more) (t'.append more) := by
  induction h with
  | skip hzero hcolon hchar hnum _ ih => exact .skip hzero hcolon hchar hnum ih
  | nul => exact .nul
  | colon => exact .colon
  | word hchar hscan => exact .word hchar (scan_append hscan more)
  | number hnum hscan => exact .number hnum (scan_append hscan more)

/-- What was in the tokenizer before plays no role for the token. -/
theorem Finds.independent {t t' : Tokenizer} {text : Bytes} (h : Finds t text t')
    (u : Tokenizer) : ∃ u', Finds u text u' ∧ u'.ptr = t'.ptr ∧ u'.type = t'.type := by
  induction h with
  | skip hzero hcolon hchar hnum _ ih =>
    obtain ⟨u', hu', hptr, htype⟩ := ih
    exact ⟨u', .skip hzero hcolon hchar hnum hu', hptr, htype⟩
  | nul => exact ⟨_, .nul, rfl, rfl⟩
  | colon => exact ⟨_, .colon, rfl, rfl⟩
  | word hchar hscan => exact ⟨_, .word hchar hscan, rfl, rfl⟩
  | number hnum hscan => exact ⟨_, .number hnum hscan, rfl, rfl⟩

theorem Finds.functional {t t₁ t₂ : Tokenizer} {text : Bytes} (h₁ : Finds t text t₁)
    (h₂ : Finds t text t₂) : t₁ = t₂ :=
  Except.ok.inj ((finds_iff.mp h₁).symm.trans (finds_iff.mp h₂))

/-- The tokenizer only goes forward. -/
theorem Finds.suffix {t t' : Tokenizer} {text : Bytes} (h : Finds t text t') : t'.ptr <:+ text := by
  induction h with
  | skip _ _ _ _ _ ih => exact ih.trans (List.suffix_cons _ _)
  | nul => exact List.suffix_cons _ _
  | colon => exact List.suffix_cons _ _
  | word _ hscan =>
    obtain ⟨_, _, rfl, _⟩ := scan_eq_ok hscan
    exact (List.suffix_append _ _).trans (List.suffix_cons _ _)
  | number _ hscan =>
    obtain ⟨_, _, rfl, _⟩ := scan_eq_ok hscan
    exact (List.suffix_append _ _).trans (List.suffix_cons _ _)

/-- Blanks in front of a token are skipped. -/
theorem Finds.blanks {t t' : Tokenizer} {blanks text : Bytes}
    (hblanks : ∀ c ∈ blanks, isBlank c = true) (h : Finds t text t') :
    Finds t (blanks ++ text) t' := by
  induction blanks with
  | nil => exact h
  | cons c blanks ih =>
    obtain ⟨hzero, hcolon, hchar, hnum, _⟩ := not_skipped_of_isBlank (hblanks c (by simp))
    exact .skip hzero hcolon hchar hnum (ih fun d hd => hblanks d (by simp [hd]))

/-- An identifier and what ends it. -/
theorem Finds.identifier {t : Tokenizer} {c e : UInt8} {run rest : Bytes} (hc : isChar c = true)
    (hrun : ∀ b ∈ run, isIdChar b = true) (he : isIdChar e = false) :
    Finds t (c :: (run ++ e :: rest)) { t with
      id := c :: run, type := idType (c :: run), ptr := e :: rest } :=
  .word hc (scan_run hrun he)

/-- A whole number and what ends it. -/
theorem Finds.digits {t : Tokenizer} {digits rest : Bytes} {c : UInt8} (hne : digits ≠ [])
    (hdigits : ∀ d ∈ digits, isNum d = true) (hc : isNum c = false) :
    Finds t (digits ++ c :: rest) { t with
      type := .tokenNumber, value := some (toDouble (strtoull digits)), ptr := c :: rest } := by
  obtain ⟨d, run, rfl⟩ := List.exists_cons_of_ne_nil hne
  exact .number (hdigits d (by simp)) (scan_run (fun b hb => hdigits b (by simp [hb])) hc)

/-! ## Texts without some characters -/

theorem idType_mem (id : Bytes) :
    idType id ∈ [TokenType.tokenCpu, .tokenMhz, .tokenMax, .tokenMemAvailable, .tokenId] := by
  unfold idType
  split <;> decide

theorem idType_ne {type : TokenType} (id : Bytes)
    (h : type ∉ [TokenType.tokenCpu, .tokenMhz, .tokenMax, .tokenMemAvailable, .tokenId]) :
    idType id ≠ type := by
  rintro rfl
  exact h (idType_mem id)

/-- Without a digit there is no number. -/
theorem Finds.type_ne_number {t t' : Tokenizer} {text : Bytes} (h : Finds t text t')
    (hfree : ∀ c ∈ text, isNum c = false) : t'.type ≠ .tokenNumber := by
  induction h with
  | skip _ _ _ _ _ ih => exact ih fun c hc => hfree c (by simp [hc])
  | nul => exact (nomatch ·)
  | colon => exact (nomatch ·)
  -- a word is a keyword or an identifier
  | word => exact idType_ne _ (by decide)
  | number hnum _ =>
    rw [hfree _ List.mem_cons_self] at hnum
    cases hnum

/-- No NUL, no colon and no letter. -/
def Quiet (text : Bytes) : Prop := ∀ c ∈ text, c ≠ 0 ∧ c ≠ Char.toUInt8 ':' ∧ isChar c = false

/-- The tokenizer stands at a number, in a quiet text, or behind the NUL that ends it. -/
def AtQuietEnd (t : Tokenizer) : Prop :=
  (t.type = .tokenNumber ∧ ∃ text, Quiet text ∧ t.ptr = text ++ [0]) ∨
    (t.type = .tokenEnd ∧ t.ptr = [])

/-- A text without colons, letters and NULs has nothing but numbers, up to its end. -/
theorem Finds.atQuietEnd {t t' : Tokenizer} {text : Bytes} (h : Finds t (text ++ [0]) t')
    (hquiet : Quiet text) : AtQuietEnd t' := by
  induction text with
  | nil =>
    rw [h.functional .nul]
    exact Or.inr ⟨rfl, rfl⟩
  | cons c text ih =>
    obtain ⟨hzero, hcolon, hchar⟩ := hquiet c (by simp)
    have hquiet' : Quiet text := fun d hd => hquiet d (by simp [hd])
    -- of the kinds of tokens, only a number and the end are left
    cases h with
    | skip _ _ _ _ h => exact ih h hquiet'
    | nul => exact absurd rfl hzero
    | colon => exact absurd rfl hcolon
    | word hchar' _ =>
      rw [hchar] at hchar'
      cases hchar'
    | number _ hscan =>
      obtain ⟨e, rest', hsplit, rfl, _⟩ := scan_eq_ok hscan
      -- what is behind the digits is the end of the text
      have hsuffix : e :: rest' <:+ text ++ [0] := ⟨_, hsplit.symm⟩
      obtain hnil | ⟨rest, hrest, hsub⟩ := List.suffix_concat_iff.mp hsuffix
      · cases hnil
      · exact Or.inl ⟨rfl, rest, fun d hd => hquiet' d (hsub.subset hd), hrest⟩

end Guthi
