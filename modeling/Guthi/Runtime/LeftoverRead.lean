import Guthi.Runtime.Leftover

/-!
# Guthi — parses that run into the leftover memory

An output that does not break off inside of a word: where a parse of it runs over the end, it is
looking for a token, and the memory decides which one it finds.

* `cpuInfoLoop_reads_on` — some memory makes `parse_cpu_info` read behind the buffer;
* `memoryLoop_reads_on` — the memory can supply any digit;
* `leftover_decides` — so the memory plays no role only if the parses stay inside of what was
  printed.
-/

namespace Guthi

variable {m : Machine}

/-! ## Tokens behind the data -/

/-- Text without a NUL whose last character, if it has one, does not continue a word or a number:
all lines are complete. -/
structure CompleteText (text : Bytes) : Prop where
  noNul : 0 ∉ text
  last : ∀ c ∈ text.getLast?, isIdChar c = false

/-- The end of a complete text is complete. -/
theorem CompleteText.of_suffix {text rest : Bytes} (h : CompleteText text) (hrest : rest <:+ text) :
    CompleteText rest where
  noNul hmem := h.noNul (hrest.subset hmem)
  last c hc := by
    obtain ⟨pre, rfl⟩ := hrest
    apply h.last c
    rw [List.getLast?_append, Option.mem_def.mp hc]
    rfl

/-- A word that runs off the text is all of it. -/
theorem scan_error_all {p : UInt8 → Bool} {text : Bytes} {e : ParserFault}
    (h : scan p text = .error e) : ∀ c ∈ text, p c = true := by
  induction text with
  | nil => exact fun _ hc => (nomatch hc)
  | cons c text ih =>
    rw [scan] at h
    split_ifs at h with hc
    · rcases bind_eq_error.mp h with hrest | ⟨found, _, hfound⟩
      · simpa [hc] using ih hrest
      · cases hfound

/-- Complete text without a token in it is skipped. -/
theorem finds_behind {t u u' : Tokenizer} {text more : Bytes} (htext : CompleteText text)
    {e : ParserFault} (h : tokenizeFrom t text = .error e) (hmore : Finds u more u') :
    Finds u (text ++ more) u' := by
  induction text with
  | nil => exact hmore
  | cons c text ih =>
    have hrest : CompleteText text := htext.of_suffix (List.suffix_cons c text)
    have hzero : c ≠ 0 := by
      rintro rfl
      exact htext.noNul List.mem_cons_self
    -- a word or a number that comes to the end would include the last character
    have hends : ∀ p : UInt8 → Bool, (∀ b, p b = true → isIdChar b = true) → p c = true →
        ∀ e', scan p text ≠ .error e' := by
      intro p hp hc e' hscan
      have hall := scan_error_all hscan
      have hlast := List.getLast?_eq_some_getLast (List.cons_ne_nil c text)
      have hmem := List.getLast_mem (List.cons_ne_nil c text)
      have hid : isIdChar ((c :: text).getLast (List.cons_ne_nil c text)) = true := by
        apply hp
        rcases List.mem_cons.mp hmem with heq | hmem
        · rw [heq]
          exact hc
        · exact hall _ hmem
      rw [htext.last _ hlast] at hid
      cases hid
    -- one case for each kind of character that the tokenizer tells apart
    unfold tokenizeFrom at h
    rw [if_neg hzero] at h
    cases hblank : isBlank c with
    | true =>
      rw [hblank, if_pos rfl] at h
      obtain ⟨_, hcolon, hchar, hnum, _⟩ := not_skipped_of_isBlank hblank
      exact .skip hzero hcolon hchar hnum (ih hrest h)
    | false =>
      rw [hblank, if_neg (by decide)] at h
      split_ifs at h with hcolon hchar hnum
      · rcases bind_eq_error.mp h with hscan | ⟨found, _, hfound⟩
        · refine absurd hscan (hends isIdChar (fun _ hb => hb) ?_ e)
          simp [isIdChar, hchar]
        · cases hfound
      · rcases bind_eq_error.mp h with hscan | ⟨found, _, hfound⟩
        · refine absurd hscan (hends isNum (fun b hb => ?_) hnum e)
          simp [isIdChar, hb]
        · cases hfound
      · exact .skip hzero hcolon (by simpa using hchar) (by simpa using hnum) (ih hrest h)

theorem Finds.type_ne_end {t t' : Tokenizer} {text : Bytes} (h : Finds t text t')
    (h0 : 0 ∉ text) : t'.type ≠ .tokenEnd := by
  induction h with
  | skip _ _ _ _ _ ih => exact ih fun hmem => h0 (List.mem_cons_of_mem _ hmem)
  | nul => exact absurd List.mem_cons_self h0
  | colon => exact (nomatch ·)
  | word => exact idType_ne _ (by decide)
  | number => exact (nomatch ·)

/-- Blanks, up to the NUL in the last place. -/
def blanksAndNul (k : Nat) : Bytes := List.replicate k (Char.toUInt8 ' ') ++ [0]

/-- Blanks and a NUL make the end token. -/
theorem finds_blanksAndNul (t : Tokenizer) (k : Nat) :
    Finds t (blanksAndNul k) { t with type := .tokenEnd, ptr := [] } := by
  refine Finds.blanks (fun c hc => ?_) .nul
  rw [List.eq_of_mem_replicate hc]
  decide

theorem finds_digit (t : Tokenizer) {d : UInt8} (hd : isNum d = true) (k : Nat) :
    Finds t (d :: blanksAndNul k) { t with
      type := .tokenNumber, value := some (toDouble (strtoull [d])), ptr := blanksAndNul k } := by
  have hdigits : ∀ c ∈ [d], isNum c = true := by simpa using hd
  obtain ⟨e, rest, hrest, he⟩ : ∃ e rest, blanksAndNul k = e :: rest ∧ isNum e = false := by
    cases k with
    | zero => exact ⟨0, [], rfl, by decide⟩
    | succ k => exact ⟨Char.toUInt8 ' ', blanksAndNul k, rfl, by decide⟩
  rw [hrest]
  exact Finds.digits (List.cons_ne_nil d []) hdigits he

/-! ## Parsers behind the data -/

/-- The parser looks at a token of complete text, with complete text ahead. -/
structure InText (p : Parser) : Prop where
  ahead : CompleteText p.tokenizer.ptr
  type_ne : p.tokenizer.type ≠ .tokenEnd

/-- The parser has read the whole buffer. -/
structure AtEnd (p : Parser) : Prop where
  isParsing : p.isParsing = true
  type : p.tokenizer.type = .tokenEnd
  ptr : p.tokenizer.ptr = []

/-- A token of a complete text leaves the parser inside it. -/
theorem inText_of_finds {p : Parser} {t : Tokenizer} {text : Bytes} (htext : CompleteText text)
    (h : Finds t text p.tokenizer) : InText p :=
  ⟨htext.of_suffix h.suffix, h.type_ne_end htext.noNul⟩

/-- The next token leaves it there too. -/
theorem InText.getToken {p p' : Parser} (hp : InText p) (h : p.getToken = .ok p') : InText p' :=
  inText_of_finds hp.ahead (Parser.finds_of_getToken h).1

/-- The same with more text behind. -/
theorem inText_relation (more : Bytes) :
    ParserRelation (fun p q => q = p.append more ∧ InText p) (· = .outOfBounds) where
  type p q h := (append_relation more).type p q h.1
  isParsing p q h := (append_relation more).isParsing p q h.1
  getToken p q h := by
    have hsim := (append_relation more).getToken p q h.1
    cases hp : p.getToken with
    | error e => exact Or.inl (Parser.getToken_error hp)
    | ok p' =>
      obtain ⟨q', hq', hpq'⟩ := hsim.of_ok hp
      rw [hq']
      exact Simulates.ok ⟨hpq', h.2.getToken hp⟩
  stop p q h := ⟨(append_relation more).stop p q h.1, h.2.ahead, h.2.type_ne⟩

/-- A token that was found is found with more text behind as well. -/
theorem getToken_append {p p' : Parser} (h : p.getToken = .ok p') (more : Bytes) :
    (p.append more).getToken = .ok (p'.append more) := by
  obtain ⟨q, hq, rfl⟩ := ((append_relation more).getToken p _ rfl).of_ok h
  exact hq

/-- The parser finds no token any more, so it finds the first one that the memory has. -/
theorem getToken_behind {p : Parser} {e : ParserFault} (hp : InText p) (h : p.getToken = .error e)
    {more : Bytes} {t : Tokenizer} (hmore : Finds (p.append more).tokenizer more t) :
    (p.append more).getToken = .ok { tokenizer := t, isParsing := true } := by
  apply Parser.getToken_of_finds
  unfold Parser.getToken tokenize at h
  rcases bind_eq_error.mp h with htoken | ⟨t', _, ht'⟩
  · exact finds_behind hp.ahead htoken hmore
  · cases ht'

/-- It is the end, if the memory is blank. -/
theorem getToken_blank {p : Parser} {e : ParserFault} (hp : InText p) (h : p.getToken = .error e)
    (k : Nat) : ∃ q, (p.append (blanksAndNul k)).getToken = .ok q ∧ AtEnd q :=
  ⟨_, getToken_behind hp h (finds_blanksAndNul _ k), rfl, rfl, rfl⟩

/-- It is a number, if a digit comes first; and then the end. -/
theorem getToken_digit {p : Parser} {e : ParserFault} (hp : InText p) (h : p.getToken = .error e)
    {d : UInt8} (hd : isNum d = true) (k : Nat) :
    ∃ q r, (p.append (d :: blanksAndNul k)).getToken = .ok q ∧ q.tokenizer.type = .tokenNumber ∧
      q.tokenizer.value = some (toDouble (strtoull [d])) ∧ q.getToken = .ok r ∧ AtEnd r :=
  ⟨_, _, getToken_behind hp h (finds_digit _ hd k), rfl, rfl,
    Parser.getToken_at rfl (finds_blanksAndNul _ k), rfl, rfl, rfl⟩

/-- It is a colon and then a number. -/
theorem getToken_colon {p : Parser} {e : ParserFault} (hp : InText p) (h : p.getToken = .error e)
    {d : UInt8} (hd : isNum d = true) (k : Nat) :
    ∃ q r s, (p.append (Char.toUInt8 ':' :: d :: blanksAndNul k)).getToken = .ok q ∧
      q.tokenizer.type = .tokenColon ∧ q.getToken = .ok r ∧ r.tokenizer.type = .tokenNumber ∧
      r.tokenizer.value = some (toDouble (strtoull [d])) ∧ r.getToken = .ok s ∧ AtEnd s :=
  ⟨_, _, _, getToken_behind hp h .colon, rfl, Parser.getToken_at rfl (finds_digit _ hd k), rfl, rfl,
    Parser.getToken_at rfl (finds_blanksAndNul _ k), rfl, rfl, rfl⟩

/-- What may be behind the data: `n` characters, and the NUL in the last place. -/
def IsTail (n : Nat) (tail : Bytes) : Prop :=
  ∃ memory : Bytes, memory.length = n ∧ tail = memory ++ [0]

/-- Blanks and a NUL are memory of a buffer. -/
theorem isTail_blanks (n : Nat) : IsTail n (blanksAndNul n) := ⟨_, List.length_replicate, rfl⟩

theorem IsTail.cons {n : Nat} {tail : Bytes} (h : IsTail n tail) (c : UInt8) :
    IsTail (n + 1) (c :: tail) := by
  obtain ⟨memory, rfl, rfl⟩ := h
  exact ⟨c :: memory, rfl, rfl⟩

/-! ## `parse_cpu_info` -/

/-- The state with more text behind. -/
def CpuLoop.append (s : CpuLoop) (more : Bytes) : CpuLoop :=
  { s with parser := s.parser.append more }

/-- A parser at the end of the buffer reads behind it. -/
theorem cpuInfoLoop_atEnd {s : CpuLoop} (hs : AtEnd s.parser) (fuel : Nat) :
    cpuInfoLoop m (fuel + 1) s = .error .outOfBounds := by
  refine cpuInfoLoop_fails hs.isParsing ?_ fuel
  have hne : s.parser.tokenizer.type ≠ .tokenCpu := by rw [hs.type]; decide
  rw [cpuInfoBody_other hne, Parser.acceptOther_of_end hs.type, Parser.getToken, tokenize, hs.ptr]
  rfl

/-- A reading whose tokens are all there, and the last one at the end. -/
theorem cpuReading_atEnd {s : CpuLoop} {p₁ p₂ p₃ p₄ : Parser}
    (hmhz : p₁.tokenizer.type = .tokenMhz) (h₂ : p₁.getToken = .ok p₂)
    (hcolon : p₂.tokenizer.type = .tokenColon) (h₃ : p₂.getToken = .ok p₃)
    (hnumber : p₃.tokenizer.type = .tokenNumber) (h₄ : p₃.getToken = .ok p₄) (hend : AtEnd p₄) :
    Outcome (fun s' => AtEnd s'.parser) (· = .outOfRecords) (cpuReading m s p₁) := by
  rw [cpuReading_number hmhz h₂ hcolon h₃ hnumber, h₄, ok_bind]
  unfold ProcessorStatus.record
  split_ifs
  · exact hend
  · exact rfl

/-- A reading that breaks off: some memory completes it. -/
theorem cpuReading_reads_on {s : CpuLoop} {p : Parser} (hp : InText p) (n : Nat)
    (h : cpuReading m s p = .error .outOfBounds) : ∃ tail, IsTail (n + 2) tail ∧
      Outcome (fun s' => AtEnd s'.parser) (· = .outOfRecords)
        (cpuReading m (s.append tail) (p.append tail)) := by
  have hfive : isNum (Char.toUInt8 '5') = true := by decide
  have hmhz : p.tokenizer.type = .tokenMhz := by
    by_contra hne
    rw [cpuReading, Parser.acceptToken_of_ne hne] at h
    cases h
  -- the reading breaks off before the colon, before the number, or behind it
  cases h₂ : p.getToken with
  | error e =>
    obtain ⟨q₂, q₃, q₄, hq₂, hcolon, hq₃, hnumber, _, hq₄, hend⟩ := getToken_colon hp h₂ hfive n
    exact ⟨_, ((isTail_blanks n).cons _).cons _,
      cpuReading_atEnd hmhz hq₂ hcolon hq₃ hnumber hq₄ hend⟩
  | ok p₂ =>
    have hp₂ := hp.getToken h₂
    have hcolon : p₂.tokenizer.type = .tokenColon := by
      by_contra hne
      rw [cpuReading, Parser.acceptToken_of_eq hmhz, h₂, ok_bind, ok_bind] at h
      simp only [Parser.expectToken_of_ne hne, if_true, ok_bind] at h
      cases h
    cases h₃ : p₂.getToken with
    | error e =>
      obtain ⟨q₃, q₄, hq₃, hnumber, _, hq₄, hend⟩ := getToken_digit hp₂ h₃ hfive (n + 1)
      exact ⟨_, (isTail_blanks (n + 1)).cons _,
        cpuReading_atEnd hmhz (getToken_append h₂ _) hcolon hq₃ hnumber hq₄ hend⟩
    | ok p₃ =>
      have hp₃ := hp₂.getToken h₃
      have hnumber : p₃.tokenizer.type = .tokenNumber := by
        by_contra hne
        rw [cpuReading, Parser.acceptToken_of_eq hmhz, h₂, ok_bind, ok_bind] at h
        simp only [Parser.expectToken_of_eq hcolon, Parser.expectToken_of_ne hne, h₃, if_true,
          ok_bind] at h
        cases h
      rw [cpuReading_number hmhz h₂ hcolon h₃ hnumber] at h
      cases h₄ : p₃.getToken with
      | error e =>
        obtain ⟨q₄, hq₄, hend⟩ := getToken_blank hp₃ h₄ (n + 2)
        exact ⟨_, isTail_blanks (n + 2), cpuReading_atEnd hmhz (getToken_append h₂ _) hcolon
          (getToken_append h₃ _) hnumber hq₄ hend⟩
      | ok p₄ =>
        -- all tokens are there
        rw [h₄, ok_bind, ProcessorStatus.record] at h
        split_ifs at h <;> cases h

/-- An iteration that breaks off: some memory leads to the end of the buffer. -/
theorem cpuInfoBody_reads_on {s : CpuLoop} (hs : InText s.parser) (n : Nat)
    (h : cpuInfoBody m s = .error .outOfBounds) : ∃ tail, IsTail (n + 2) tail ∧
      Outcome (LoopStep.Keeps (fun s' => AtEnd s'.parser) fun _ => False) (· = .outOfRecords)
        (cpuInfoBody m (s.append tail)) := by
  by_cases hcpu : s.parser.tokenizer.type = .tokenCpu
  · have hcpu' : ∀ tail, (s.append tail).parser.tokenizer.type = .tokenCpu := fun _ => hcpu
    rw [cpuInfoBody_cpu hcpu] at h
    cases h₁ : s.parser.getToken with
    | error e =>
      obtain ⟨q, hq, hend⟩ := getToken_blank hs h₁ (n + 2)
      refine ⟨_, isTail_blanks (n + 2), ?_⟩
      have hmhz : q.tokenizer.type ≠ .tokenMhz := by rw [hend.type]; decide
      rw [cpuInfoBody_cpu (hcpu' _), CpuLoop.append, hq, ok_bind, cpuReading,
        Parser.acceptToken_of_ne hmhz]
      exact hend
    | ok p =>
      rw [h₁, ok_bind] at h
      rcases bind_eq_error.mp h with hreading | ⟨s', _, hs'⟩
      case inr => cases hs'
      obtain ⟨tail, htail, hout⟩ := cpuReading_reads_on (hs.getToken h₁) n hreading
      refine ⟨tail, htail, ?_⟩
      have hq : (s.append tail).parser.getToken = .ok (p.append tail) := getToken_append h₁ tail
      rw [cpuInfoBody_cpu (hcpu' tail), hq, ok_bind]
      exact hout.bind fun s' _ hs' => hs'
  · rw [cpuInfoBody_other hcpu] at h
    have hother : ∀ tail, (s.append tail).parser.tokenizer.type ≠ .tokenCpu := fun _ => hcpu
    -- only a token that is skipped asks for another one
    rcases s.parser.acceptOther_cases with ⟨htype, hskip⟩ | ⟨hend, _⟩ | hstuck
    · rw [hskip] at h
      cases h₁ : s.parser.getToken with
      | error e =>
        obtain ⟨q, hq, hend⟩ := getToken_blank hs h₁ (n + 2)
        refine ⟨_, isTail_blanks (n + 2), ?_⟩
        have hskip' : (s.parser.append (blanksAndNul (n + 2))).acceptOther = _ :=
          Parser.acceptOther_of_skipped htype
        rw [cpuInfoBody_other (hother _), CpuLoop.append, hskip', hq]
        exact hend
      | ok p =>
        rw [h₁] at h
        cases h
    · exact absurd hend hs.type_ne
    · rw [hstuck] at h
      cases h

/-- An iteration that does not break off is the same with more text behind. -/
theorem cpuInfoBody_append {s s' : CpuLoop} (hs : InText s.parser)
    (h : cpuInfoBody m s = .ok (.next s')) (more : Bytes) : InText s'.parser ∧
      cpuInfoBody m (s.append more) = .ok (.next (s'.append more)) := by
  have hrel : ParserRelation.CpuRel (fun p q => q = p.append more ∧ InText p) s (s.append more) :=
    ⟨⟨rfl, hs⟩, rfl, rfl⟩
  obtain ⟨step, hstep, hrel'⟩ :=
    ((inText_relation more).cpuInfoBody (fun p q h => by rw [h.1]; rfl) hrel).of_ok h
  cases step with
  | leave t => exact hrel'.elim
  | next t =>
    obtain ⟨_, _, _⟩ := t
    obtain ⟨⟨rfl, hin⟩, rfl, rfl⟩ := hrel'
    exact ⟨hin, hstep⟩

/-- **The loop runs over the end of the text**: some memory makes it read behind the buffer, or
write behind the records. -/
theorem cpuInfoLoop_reads_on {s : CpuLoop} (hs : InText s.parser) (n fuel : Nat)
    (h : cpuInfoLoop m fuel s = .error .outOfBounds) : ∃ tail, IsTail (n + 2) tail ∧
      ¬ Faultless (cpuInfoLoop m (fuel + 1) (s.append tail)) := by
  obtain ⟨k, rest, s', rfl, hsteps, hparsing, hbody⟩ := whileLoop_error (by decide) h
  -- the rounds before the one that breaks off are the same on the longer text
  have hmap : ∀ tail, InText s'.parser ∧ LoopSteps _ _ k (s.append tail) (s'.append tail) :=
    fun tail => hsteps.map (I := fun s => InText s.parser) (f := fun s => s.append tail)
      (fun s₁ s₂ hs₁ hparsing₁ hbody₁ =>
        ⟨(cpuInfoBody_append hs₁ hbody₁ tail).1, hparsing₁, (cpuInfoBody_append hs₁ hbody₁ tail).2⟩)
      hs
  obtain ⟨tail, htail, hout⟩ := cpuInfoBody_reads_on (hmap []).1 n hbody
  have hparsing' : (s'.append tail).parser.isParsing = true := hparsing
  have hrun : cpuInfoLoop m (rest + 1 + k + 1) (s.append tail) =
      cpuInfoLoop m (rest + 1 + 1) (s'.append tail) := by
    rw [Nat.add_right_comm (rest + 1) k 1]
    exact (hmap tail).2.run .outOfFuel (rest + 1 + 1)
  refine ⟨tail, htail, fun hfaultless => ?_⟩
  rw [hrun] at hfaultless
  cases hbody' : cpuInfoBody m (s'.append tail) with
  | error e =>
    obtain rfl := hout.of_error hbody'
    rw [cpuInfoLoop_fails hparsing' hbody'] at hfaultless
    cases hfaultless
  | ok step =>
    cases step with
    | leave s'' => exact hout.of_ok hbody'
    | next s'' =>
      have hend : AtEnd s''.parser := hout.of_ok hbody'
      rw [cpuInfoLoop_next hparsing' hbody', cpuInfoLoop_atEnd hend] at hfaultless
      cases hfaultless

/-- A parser that finds no token in the text starts with the first one behind it. -/
theorem start_behind {text : Bytes} {e : ParserFault} (htext : CompleteText text)
    (h : (Parser.fresh text).start = .error e) {more : Bytes} {t : Tokenizer}
    (hmore : Finds (Parser.fresh (text ++ more)).tokenizer more t) :
    (Parser.fresh (text ++ more)).start = .ok { tokenizer := t, isParsing := true } := by
  unfold Parser.start tokenize at h ⊢
  rcases bind_eq_error.mp h with htoken | ⟨t', _, ht'⟩
  · have hfinds := finds_behind htext htoken hmore
    exact congrArg (· >>= _) (finds_iff.mp hfinds)
  · cases ht'

/-- A parser that has started is inside the text. -/
theorem inText_of_start {text : Bytes} {p : Parser} (htext : CompleteText text)
    (h : (Parser.fresh text).start = .ok p) : InText p :=
  inText_of_finds htext (Parser.finds_of_start h).1

/-- The first part of a computation without faults has none. -/
theorem Faultless.of_bind {α β : Type} {r : Except ParserFault α} {f : α → Except ParserFault β}
    (h : Faultless (r >>= f)) : Faultless r := by
  cases r with
  | ok x => trivial
  | error e => exact h

/-- A parse that runs over the end of the text faults on some memory. -/
theorem parseCpuInfo_reads_on {text : Bytes} (htext : CompleteText text) (n : Nat) {fuel : Nat}
    (h : parseCpuInfo m fuel (.fresh text) {} = .error .outOfBounds) : ∃ tail, IsTail (n + 2) tail ∧
      ¬ Faultless (parseCpuInfo m (fuel + 1) (.fresh (text ++ tail)) {}) := by
  unfold parseCpuInfo at h ⊢
  -- the text has no token at all, or the loop runs over its end
  cases hstart : (Parser.fresh text).start with
  | error e =>
    refine ⟨_, isTail_blanks (n + 2), fun hfaultless => ?_⟩
    rw [start_behind htext hstart (finds_blanksAndNul _ (n + 2)), ok_bind] at hfaultless
    have hloop := hfaultless.of_bind
    rw [cpuInfoLoop_atEnd ⟨rfl, rfl, rfl⟩] at hloop
    cases hloop
  | ok p =>
    have hin := inText_of_start htext hstart
    rw [hstart, ok_bind] at h
    rcases bind_eq_error.mp h with hloop | ⟨s, _, hs⟩
    case inr => cases hs
    obtain ⟨tail, htail, hfaults⟩ := cpuInfoLoop_reads_on (s := ⟨p, {}, 0⟩) hin n fuel hloop
    refine ⟨tail, htail, fun hfaultless => hfaults ?_⟩
    obtain ⟨q, hq, rfl⟩ := (start_append (Parser.fresh text) tail).of_ok hstart
    have hstart' : (Parser.fresh (text ++ tail)).start = .ok (p.append tail) := hq
    rw [hstart', ok_bind] at hfaultless
    exact hfaultless.of_bind

/-! ## Where the parse leaves off -/

/-- No character follows a NUL. -/
def NulLast (text : Bytes) : Prop := ∀ rest, 0 :: rest <:+ text → rest = []

/-- What was printed has no NUL but at its end. -/
theorem nulLast_printedPart {output : Bytes} (h0 : 0 ∉ output) : NulLast (printedPart output) := by
  have htake : 0 ∉ output.take buffSize := fun hmem => h0 (List.mem_of_mem_take hmem)
  intro rest hrest
  unfold printedPart at hrest
  split_ifs at hrest
  · obtain hnil | ⟨text, htext, hsub⟩ := List.suffix_concat_iff.mp hrest
    · cases hnil
    · cases text with
      | nil => exact (List.cons.inj htext).2
      | cons c text =>
        rw [← (List.cons.inj htext).1] at hsub
        exact absurd (hsub.subset List.mem_cons_self) htake
  · rw [List.append_nil] at hrest
    exact absurd (hrest.subset List.mem_cons_self) htake

/-- The tokenizer is just behind the NUL when it has come to the end. -/
theorem Finds.nul_suffix {t t' : Tokenizer} {text : Bytes} (h : Finds t text t')
    (hend : t'.type = .tokenEnd) : 0 :: t'.ptr <:+ text := by
  induction h with
  | skip _ _ _ _ _ ih => exact (ih hend).trans (List.suffix_cons _ _)
  | nul => exact List.suffix_refl _
  | colon => cases hend
  | word => exact absurd hend (idType_ne _ (by decide))
  | number => cases hend

/-- There is nothing behind the end, and where the parser looks at the end it is there. -/
structure NearEnd (p : Parser) : Prop where
  ahead : NulLast p.tokenizer.ptr
  ptr : p.tokenizer.type = .tokenEnd → p.tokenizer.ptr = []

/-- A parser in such a text is at its end when it has the end token. -/
theorem nearEnd_of_finds {p : Parser} {t : Tokenizer} {text : Bytes} (htext : NulLast text)
    (h : Finds t text p.tokenizer) : NearEnd p where
  ahead rest hrest := htext rest (hrest.trans h.suffix)
  ptr hend := htext _ (h.nul_suffix hend)

theorem nearEnd_relation : ParserRelation (fun p q => q = p ∧ NearEnd p) (fun _ => False) :=
  .of_invariant (fun _ _ hp h => nearEnd_of_finds hp.ahead (Parser.finds_of_getToken h).1)
    fun _ hp => ⟨hp.ahead, hp.ptr⟩

/-- A parse that returns has failed to find a token that it expects: at the end of the data there
is no further token to read. -/
theorem cpuInfoLoop_stopped {s : CpuLoop} (hs : NearEnd s.parser) (fuel : Nat) :
    Outcome (fun s' => s'.parser.isParsing = false) (fun _ => True) (cpuInfoLoop m fuel s) := by
  refine whileLoop_outcome (I := fun s' : CpuLoop => NearEnd s'.parser) (fun s' hs' _ => ?_)
    (fun _ _ hstop => hstop) trivial fuel hs
  have hrel : ParserRelation.CpuRel (fun p q => q = p ∧ NearEnd p) s' s' := ⟨⟨rfl, hs'⟩, rfl, rfl⟩
  have hsim := nearEnd_relation.cpuInfoBody (m := m) (fun p q h => by rw [h.1]) hrel
  cases hbody : cpuInfoBody m s' with
  | error e => trivial
  | ok step =>
    cases step with
    | next s'' =>
      obtain ⟨step', _, hrel'⟩ := hsim.of_ok hbody
      cases step' with
      | next t => exact hrel'.1.2
      | leave t => exact hrel'.elim
    | leave s'' =>
      -- behind the end token there is nothing to read
      obtain ⟨hend, p, hp⟩ := cpuInfoBody_leave hbody
      have hfinds := (Parser.finds_of_getToken hp).1
      rw [hs'.ptr hend] at hfinds
      cases hfinds

/-- The same for the whole parse. -/
theorem parseCpuInfo_stopped {text : Bytes} (htext : NulLast text) (fuel : Nat)
    (status : ProcessorStatus) : Outcome (fun x => x.1.isParsing = false) (fun _ => True)
      (parseCpuInfo m fuel (.fresh text) status) := by
  unfold parseCpuInfo
  cases hstart : (Parser.fresh text).start with
  | error e => trivial
  | ok p =>
    have hnear : NearEnd p := nearEnd_of_finds htext (Parser.finds_of_start hstart).1
    exact (cpuInfoLoop_stopped (s := ⟨p, status, 0⟩) hnear fuel).bind fun s _ hs => hs

/-! ## `parse_memory_free_space` -/

/-- The state with more text behind. -/
def MemoryLoop.append (s : MemoryLoop) (more : Bytes) : MemoryLoop :=
  { s with parser := s.parser.append more }

/-- `tokenize` makes no integers, so the last token of a memory line is never the expected one. -/
theorem Finds.type_ne_integer {t t' : Tokenizer} {text : Bytes} (h : Finds t text t') :
    t'.type ≠ .tokenInteger := by
  induction h with
  | skip _ _ _ _ _ ih => exact ih
  | nul => exact (nomatch ·)
  | colon => exact (nomatch ·)
  | word => exact idType_ne _ (by decide)
  | number => exact (nomatch ·)

/-- The round that reads the value ends the parsing: there is no token `TOKEN_INTEGER`. -/
theorem memoryBody_value {s : MemoryLoop} {p₁ p₂ : Parser}
    (havailable : s.parser.tokenizer.type = .tokenMemAvailable) (h₁ : s.parser.getToken = .ok p₁)
    (hcolon : p₁.tokenizer.type = .tokenColon) (h₂ : p₁.getToken = .ok p₂) :
    memoryBody m s =
      .ok (.next ⟨{ p₂ with isParsing := false }, m.toInt p₂.tokenizer.value⟩) := by
  have hne := (Parser.finds_of_getToken h₂).1.type_ne_integer
  rw [memoryBody, Parser.acceptToken_of_eq havailable, h₁, ok_bind, ok_bind]
  simp only [Parser.expectToken_of_eq hcolon, h₂, Parser.expectToken_of_ne hne, if_true, ok_bind]
  rfl

/-- An iteration that breaks off: the memory can supply any digit for the number. -/
theorem memoryBody_reads_on {s : MemoryLoop} (hs : InText s.parser) (n : Nat)
    (h : memoryBody m s = .error .outOfBounds) {d : UInt8} (hd : isNum d = true) :
    ∃ tail, IsTail (n + 2) tail ∧ ∃ s', memoryBody m (s.append tail) = .ok (.next s') ∧
      s'.parser.isParsing = false ∧ s'.value = m.toInt (some (toDouble (strtoull [d]))) := by
  have havailable : s.parser.tokenizer.type = .tokenMemAvailable := by
    by_contra hne
    rw [memoryBody, Parser.acceptToken_of_ne hne, ok_bind] at h
    simp only [Bool.false_eq_true, if_false, Parser.acceptToken_of_ne hs.type_ne, ok_bind] at h
    cases h
  have havailable' : ∀ tail, (s.append tail).parser.tokenizer.type = .tokenMemAvailable :=
    fun _ => havailable
  -- the round breaks off before the colon, or before the number
  cases h₁ : s.parser.getToken with
  | error e =>
    obtain ⟨q₁, q₂, _, hq₁, hcolon, hq₂, _, hvalue, _⟩ := getToken_colon hs h₁ hd n
    exact ⟨Char.toUInt8 ':' :: d :: blanksAndNul n, ((isTail_blanks n).cons _).cons _, _,
      memoryBody_value (havailable' _) hq₁ hcolon hq₂, rfl, congrArg m.toInt hvalue⟩
  | ok p₁ =>
    have hp₁ := hs.getToken h₁
    have hcolon : p₁.tokenizer.type = .tokenColon := by
      by_contra hne
      rw [memoryBody, Parser.acceptToken_of_eq havailable, h₁, ok_bind, ok_bind] at h
      simp only [Parser.expectToken_of_ne hne, if_true, ok_bind] at h
      cases h
    cases h₂ : p₁.getToken with
    | error e =>
      obtain ⟨q₂, _, hq₂, _, hvalue, _⟩ := getToken_digit hp₁ h₂ hd (n + 1)
      exact ⟨d :: blanksAndNul (n + 1), (isTail_blanks (n + 1)).cons _, _,
        memoryBody_value (havailable' _) (getToken_append h₁ _) hcolon hq₂, rfl,
        congrArg m.toInt hvalue⟩
    | ok p₂ =>
      rw [memoryBody_value havailable h₁ hcolon h₂] at h
      cases h

/-- A round that does not break off is the same with more text behind. -/
theorem memoryBody_append {s s' : MemoryLoop} (hs : InText s.parser)
    (h : memoryBody m s = .ok (.next s')) (more : Bytes) : InText s'.parser ∧
      memoryBody m (s.append more) = .ok (.next (s'.append more)) := by
  have hrel : ParserRelation.MemoryRel (fun p q => q = p.append more ∧ InText p) s
      (s.append more) := ⟨⟨rfl, hs⟩, rfl⟩
  obtain ⟨step, hstep, hrel'⟩ :=
    ((inText_relation more).memoryBody (fun p q h => by rw [h.1]; rfl) hrel).of_ok h
  cases step with
  | leave t => exact hrel'.elim
  | next t =>
    obtain ⟨_, _⟩ := t
    obtain ⟨⟨rfl, hin⟩, rfl⟩ := hrel'
    exact ⟨hin, hstep⟩

/-- **The loop runs over the end of the text**: the value can be any digit. -/
theorem memoryLoop_reads_on {s : MemoryLoop} (hs : InText s.parser) (n fuel : Nat)
    (h : memoryLoop m fuel s = .error .outOfBounds) {d : UInt8} (hd : isNum d = true) :
    ∃ tail, IsTail (n + 2) tail ∧ ∃ s', memoryLoop m (fuel + 1) (s.append tail) = .ok s' ∧
      s'.value = m.toInt (some (toDouble (strtoull [d]))) := by
  obtain ⟨k, rest, s₁, rfl, hsteps, hparsing, hbody⟩ := whileLoop_error (by decide) h
  have hmap : ∀ tail, InText s₁.parser ∧ LoopSteps _ _ k (s.append tail) (s₁.append tail) :=
    fun tail => hsteps.map (I := fun s => InText s.parser) (f := fun s => s.append tail)
      (fun s₁ s₂ hs₁ hparsing₁ hbody₁ =>
        ⟨(memoryBody_append hs₁ hbody₁ tail).1, hparsing₁, (memoryBody_append hs₁ hbody₁ tail).2⟩)
      hs
  obtain ⟨tail, htail, s', hbody', hstop, hvalue⟩ := memoryBody_reads_on (hmap []).1 n hbody hd
  refine ⟨tail, htail, s', ?_, hvalue⟩
  have hparsing' : (s₁.append tail).parser.isParsing = true := hparsing
  have hrun : memoryLoop m (rest + 1 + k + 1) (s.append tail) =
      memoryLoop m (rest + 1 + 1) (s₁.append tail) := by
    rw [Nat.add_right_comm (rest + 1) k 1]
    exact (hmap tail).2.run .outOfFuel (rest + 1 + 1)
  rw [hrun, memoryLoop_next hparsing' hbody']
  exact whileLoop_stop hstop

/-- A parse that runs over the end: it reads behind the buffer, or the result can be any digit. -/
theorem parseMemoryFreeSpace_reads_on {text : Bytes} (htext : CompleteText text) (n : Nat)
    {fuel : Nat} {status : MemoryStatus}
    (h : parseMemoryFreeSpace m fuel (.fresh text) status = .error .outOfBounds) :
    (∃ tail, IsTail (n + 2) tail ∧
      ¬ Faultless (parseMemoryFreeSpace m (fuel + 1) (.fresh (text ++ tail)) status)) ∨
    ∀ d, isNum d = true → ∃ tail, IsTail (n + 2) tail ∧
      parseMemoryFreeSpace m (fuel + 1) (.fresh (text ++ tail)) status = .ok { status with
        availableRam :=
          (m.toInt (some (toDouble (strtoull [d])))).toInt64.toUInt64 * 1024 } := by
  unfold parseMemoryFreeSpace at h ⊢
  cases hstart : (Parser.fresh text).start with
  | error e =>
    refine Or.inl ⟨_, isTail_blanks (n + 2), fun hfaultless => ?_⟩
    rw [start_behind htext hstart (finds_blanksAndNul _ (n + 2)), ok_bind] at hfaultless
    cases hfaultless.of_bind
  | ok p =>
    have hin := inText_of_start htext hstart
    rw [hstart, ok_bind] at h
    rcases bind_eq_error.mp h with hloop | ⟨s, _, hs⟩
    case inr => cases hs
    refine Or.inr fun d hd => ?_
    obtain ⟨tail, htail, s', hs', hvalue⟩ :=
      memoryLoop_reads_on (s := ⟨p, 0⟩) hin n fuel hloop hd
    obtain ⟨q, hq, rfl⟩ := (start_append (Parser.fresh text) tail).of_ok hstart
    have hstart' : (Parser.fresh (text ++ tail)).start = .ok (p.append tail) := hq
    have hloop' : memoryLoop m (fuel + 1) ⟨p.append tail, 0⟩ = .ok s' := hs'
    refine ⟨tail, htail, ?_⟩
    rw [hstart', ok_bind, hloop', ok_bind, hvalue]
    rfl

/-! ## What decides -/

/-- Every tail of the right length is left behind by some memory. -/
theorem exists_leftover {output tail : Bytes} {n : Nat} (htail : IsTail n tail)
    (hlen : output.length + n = buffSize) :
    ∃ leftover : Leftover, readBuffer leftover output = output ++ tail := by
  obtain ⟨memory, rfl, rfl⟩ := htail
  have hsize : (output ++ memory ++ [0]).length = buffSize + 1 := by
    simp
    omega
  refine ⟨⟨(output ++ memory ++ [0]).toArray, hsize⟩, ?_⟩
  have htake : (output ++ memory ++ [0]).take buffSize = output ++ memory := by
    rw [← hlen, ← List.length_append, List.take_left]
  show output.take buffSize ++
    (((output ++ memory ++ [0]).take buffSize).drop output.length ++ [0]) = _
  rw [htake, List.drop_left, List.take_of_length_le (by omega)]

/-- Output that leaves room is printed whole. -/
theorem printedPart_of_lt {output : Bytes} (h : output.length < buffSize) :
    printedPart output = output := by
  rw [printedPart, if_neg (Nat.not_le.mpr h), List.append_nil,
    List.take_of_length_le (Nat.le_of_lt h)]

/-- Output that fills the buffer leaves nothing of the memory. -/
theorem readBuffer_of_ge {output : Bytes} (h : buffSize ≤ output.length) (leftover : Leftover) :
    readBuffer leftover output = printedPart output := by
  rw [readBuffer_eq, leftoverPart, if_pos h, List.append_nil]

/-- The outputs that the other direction is about: their lines are complete. With 1023 characters
the memory has one character to offer, which can be too few to change anything. -/
structure PrintedLines (output : Bytes) : Prop extends CompleteText output where
  length_ne : output.length + 1 ≠ buffSize

/-- Complete lines fill the buffer, or leave room for two bytes at least. -/
theorem PrintedLines.room {output : Bytes} (h : PrintedLines output) :
    buffSize ≤ output.length ∨ ∃ n, output.length + (n + 2) = buffSize := by
  have hne := h.length_ne
  rcases Nat.lt_or_ge output.length buffSize with hlt | hge
  · exact Or.inr ⟨buffSize - output.length - 2, by omega⟩
  · exact Or.inl hge

/-- A parse of the buffer that faults, in a run of `GetSystemInfo`. -/
theorem not_determined_of_fault (leftover : Leftover) {cpuInfo lscpu : Bytes} (fuel : Nat)
    (h : ¬ Faultless (parseCpuInfo m fuel (.fresh (readBuffer leftover cpuInfo)) {})) :
    ¬ Determined fun l : Leftover × Leftover => getSystemInfo m l.1 l.2 cpuInfo lscpu :=
  fun hdetermined => h (hdetermined.faultless (leftover, zeroedMemory) fuel).of_bind

/-- A system information that is determined is parsed from what was printed. -/
theorem systemStaysInData_of_determined {cpuInfo lscpu : Bytes} (hlines : PrintedLines cpuInfo)
    (h : Determined fun l : Leftover × Leftover => getSystemInfo m l.1 l.2 cpuInfo lscpu) :
    SystemStaysInData m cpuInfo lscpu := by
  intro fuel
  -- the parse of what was printed returns, runs over its end, or faults
  cases hprinted : parseCpuInfo m fuel (.fresh (printedPart cpuInfo)) {} with
  | ok x =>
    obtain ⟨p, status⟩ := x
    have hstopped : p.isParsing = false :=
      (parseCpuInfo_stopped (nulLast_printedPart hlines.noNul) fuel {}).of_ok hprinted
    rw [← getSystemInfo_of_stopped hprinted hstopped (zeroedMemory, zeroedMemory) lscpu]
    exact h.faultless (zeroedMemory, zeroedMemory) fuel
  | error e =>
    rw [systemInfoOfPrinted_error hprinted]
    by_contra hfault
    by_cases hout : e = .outOfBounds
    · subst hout
      rcases hlines.room with hfull | ⟨n, hn⟩
      · -- the memory has no place in the buffer
        refine not_determined_of_fault zeroedMemory fuel ?_ h
        rw [readBuffer_of_ge hfull, hprinted]
        exact hfault
      · rw [printedPart_of_lt (by omega)] at hprinted
        obtain ⟨tail, htail, hfaults⟩ := parseCpuInfo_reads_on hlines.toCompleteText n hprinted
        obtain ⟨leftover, hleftover⟩ := exists_leftover htail hn
        rw [← hleftover] at hfaults
        exact not_determined_of_fault leftover (fuel + 1) hfaults h
    · -- the same fault on any memory
      have hsame := (simulates_parseCpuInfo (by rw [hprinted]; simpa using hout)
        zeroedMemory).of_error hprinted id
      refine not_determined_of_fault zeroedMemory fuel ?_ h
      rw [hsame]
      exact hfault

/-- A memory information that is determined is parsed from what was printed. -/
theorem memoryStaysInData_of_determined {memInfo : Bytes} {status : MemoryStatus}
    (hlines : PrintedLines memInfo)
    (h : Determined fun leftover : Leftover => getMemoryInfo m leftover memInfo status) :
    MemoryStaysInData m memInfo status := by
  intro fuel
  have hnofault : ∀ leftover fuel, Faultless (parseMemoryFreeSpace m fuel
    (.fresh (readBuffer leftover memInfo)) status) := h.faultless
  cases hprinted : parseMemoryFreeSpace m fuel (.fresh (printedPart memInfo)) status with
  | ok x => trivial
  | error e =>
    by_contra hfault
    by_cases hout : e = .outOfBounds
    · subst hout
      rcases hlines.room with hfull | ⟨n, hn⟩
      · have hsame := hnofault zeroedMemory fuel
        rw [readBuffer_of_ge hfull, hprinted] at hsame
        exact hfault hsame
      · rw [printedPart_of_lt (by omega)] at hprinted
        rcases parseMemoryFreeSpace_reads_on hlines.toCompleteText n hprinted with
          ⟨tail, htail, hfaults⟩ | hdigit
        · obtain ⟨leftover, hleftover⟩ := exists_leftover htail hn
          rw [← hleftover] at hfaults
          exact hfaults (hnofault leftover (fuel + 1))
        -- the result would depend on a digit of the memory
        · -- a five or a six
          obtain ⟨tail₅, htail₅, hfive⟩ := hdigit (Char.toUInt8 '5') (by decide)
          obtain ⟨tail₆, htail₆, hsix⟩ := hdigit (Char.toUInt8 '6') (by decide)
          obtain ⟨leftover₅, hleftover₅⟩ := exists_leftover htail₅ hn
          obtain ⟨leftover₆, hleftover₆⟩ := exists_leftover htail₆ hn
          rw [← hleftover₅] at hfive
          rw [← hleftover₆] at hsix
          obtain ⟨fuel', hfive'⟩ := h.same leftover₅ leftover₆ (fuel + 1) _ hfive
          have hleft := parseMemoryFreeSpace_mono (Nat.le_max_left (fuel + 1) fuel') hsix
          have hright := parseMemoryFreeSpace_mono (Nat.le_max_right (fuel + 1) fuel') hfive'
          have hsame := hleft.symm.trans hright
          have hram : (m.toInt _).toInt64.toUInt64 * 1024 = (m.toInt _).toInt64.toUInt64 * 1024 :=
            congrArg MemoryStatus.availableRam (Except.ok.inj hsame)
          rw [m.toInt_digits (by decide), m.toInt_digits (by decide)] at hram
          revert hram
          decide
    · -- the same fault on any memory
      have hsame := (simulates_readBuffer
        (fun text => parseMemoryFreeSpace m fuel (.fresh text) status)
        (fun text more => parseMemoryFreeSpace_append fuel text more status)
        (by rw [hprinted]; simpa using hout) zeroedMemory).of_error hprinted id
      have hnofault' := hnofault zeroedMemory fuel
      rw [hsame] at hnofault'
      exact hfault hnofault'

/-- **What decides the system information.** Where the parses stay inside of what the commands have
printed, the memory that was there before plays no role. If the lines are complete, this is exact:
where they do not, some memory changes the result or makes the parse fault. -/
theorem leftover_decides (m : Machine) :
    (∀ cpuInfo lscpu, SystemStaysInData m cpuInfo lscpu → Determined fun l : Leftover × Leftover =>
      getSystemInfo m l.1 l.2 cpuInfo lscpu) ∧
    (∀ memInfo status, MemoryStaysInData m memInfo status → Determined fun leftover : Leftover =>
      getMemoryInfo m leftover memInfo status) ∧
    (∀ cpuInfo lscpu, PrintedLines cpuInfo → ((Determined fun l : Leftover × Leftover =>
      getSystemInfo m l.1 l.2 cpuInfo lscpu) ↔ SystemStaysInData m cpuInfo lscpu)) ∧
    ∀ memInfo status, PrintedLines memInfo → ((Determined fun leftover : Leftover =>
      getMemoryInfo m leftover memInfo status) ↔ MemoryStaysInData m memInfo status) :=
  ⟨fun _ _ => systemInfo_of_staysInData, fun _ _ => memoryInfo_of_staysInData,
    fun _ _ hlines => ⟨systemStaysInData_of_determined hlines, systemInfo_of_staysInData⟩,
    fun _ _ hlines => ⟨memoryStaysInData_of_determined hlines, memoryInfo_of_staysInData⟩⟩

/-! ## The lines of the processors -/

/-- The line of a processor has no NUL in it. -/
theorem CpuReading.zero_notMem_line (r : CpuReading) : 0 ∉ r.line := by
  intro hmem
  simp only [line, header, List.mem_append] at hmem
  rcases hmem with (hmem | hmem | hmem | hmem) | hmem
  · revert hmem
    decide
  · exact (not_skipped_of_isBlank (r.before_blank 0 hmem)).1 rfl
  · revert hmem
    decide
  · exact (not_skipped_of_isBlank (r.after_blank 0 hmem)).1 rfl
  · exact (r.quiet_number 0 hmem).1 rfl

/-- The lines of the processors are complete. -/
theorem completeText_lines (rs : List CpuReading) : CompleteText (CpuReading.text rs) where
  noNul hmem := by
    obtain ⟨r, _, hr⟩ := List.mem_flatMap.mp hmem
    exact r.zero_notMem_line hr
  last c hc := by
    rcases List.eq_nil_or_concat rs with rfl | ⟨rs, r, rfl⟩
    · exact (nomatch hc)
    · have hsplit : CpuReading.text (rs ++ [r]) = CpuReading.text rs ++ (r.header ++ (r.mhz ++
          (ascii "." ++ r.frac))) ++ [Char.toUInt8 '\n'] := by
        simp [CpuReading.text, CpuReading.line, CpuReading.number, ascii]
      rw [List.concat_eq_append, hsplit, List.getLast?_concat] at hc
      cases hc
      decide

/-- The lines of the processors are read to their end, so the memory decides. -/
theorem not_determined_lines {rs : List CpuReading} (lscpu : Bytes) (hlen : rs.length ≤ 64)
    (hfits : (CpuReading.text rs).length + 1 < buffSize) :
    ¬ Determined fun l : Leftover × Leftover =>
      getSystemInfo m l.1 l.2 (CpuReading.text rs) lscpu := by
  intro hdetermined
  have hlines : PrintedLines (CpuReading.text rs) := ⟨completeText_lines rs, by omega⟩
  obtain ⟨p, status, hparsing, _, hzeroed⟩ := parseCpuInfo_of_lt (m := m) hlen (by omega)
  have hinside := (systemStaysInData_of_determined hlines hdetermined (0 + 1 + 2 * rs.length)).ne
  have hfirst := simulates_parseCpuInfo (fun hout => hinside (systemInfoOfPrinted_error hout lscpu))
    zeroedMemory
  cases hprinted : parseCpuInfo m (0 + 1 + 2 * rs.length)
      (.fresh (printedPart (CpuReading.text rs))) {} with
  | error e => cases (hfirst.of_error hprinted id).symm.trans (hzeroed 0)
  | ok x =>
    obtain ⟨q, hq, ⟨more, hmore⟩, _⟩ := hfirst.of_ok hprinted
    cases hq.symm.trans (hzeroed 0)
    -- what was printed alone does not have an end
    have hstopped : x.1.isParsing = false :=
      (parseCpuInfo_stopped (nulLast_printedPart hlines.noNul) _ {}).of_ok hprinted
    have hsame : p.isParsing = (x.1.append more).isParsing := congrArg Parser.isParsing hmore
    cases hparsing.symm.trans (hsame.trans hstopped)

/-- The theorem at a line of `/proc/meminfo`. -/
theorem leftover_decides_memory : Determined fun leftover : Leftover =>
    getMemoryInfo lowestInt leftover (ascii "MemAvailable:    1234 kB\n") {} := by
  refine (leftover_decides lowestInt).2.1 _ {} fun fuel => ?_
  rcases fuel with _ | _ | fuel
  · exact rfl
  · exact rfl
  · trivial

/-- What an earlier call may have left behind. -/
def earlierOutput : Leftover :=
  ⟨(ascii "cpu MHz:5" ++ List.replicate 1016 0).toArray, by
    rw [List.size_toArray, List.length_append, List.length_replicate]
    decide⟩

/-- The buffer with the output of an earlier call in it. -/
theorem readBuffer_earlierOutput :
    ∃ rest, readBuffer earlierOutput [] = ascii "cpu MHz:5" ++ 0 :: 0 :: rest := by
  refine ⟨List.replicate 1014 0, ?_⟩
  have hlength : (ascii "cpu MHz:5").length ≤ buffSize := by decide
  show (ascii "cpu MHz:5" ++ List.replicate 1016 0).take buffSize ++ [0] = _
  rw [List.take_append, List.take_of_length_le hlength, List.take_replicate, List.append_assoc,
    ← List.replicate_succ']
  rfl

/-- `/proc/cpuinfo` has no line with `MHz`: the processors are the ones of an earlier call. -/
theorem leftover_counted :
    (∃ fuel status, getSystemInfo lowestInt zeroedMemory zeroedMemory [] [] fuel = .ok status ∧
      status.processorCount = 0) ∧
    (∃ fuel status, getSystemInfo lowestInt earlierOutput zeroedMemory [] [] fuel = .ok status ∧
      status.processorCount = 1) ∧
    ¬ Determined fun l : Leftover × Leftover => getSystemInfo lowestInt l.1 l.2 [] [] := by
  have hempty : ([] : Bytes).length < buffSize := by decide
  obtain ⟨zeros, hzeros⟩ := readBuffer_zeroed hempty
  obtain ⟨rest, hearlier⟩ := readBuffer_earlierOutput
  have hnone : ∀ fuel status, getSystemInfo lowestInt zeroedMemory zeroedMemory [] [] fuel =
      .ok status → status.processorCount = 0 := by
    intro fuel status h
    unfold getSystemInfo at h
    rw [hzeros] at h
    cases fuel with
    | zero => cases h
    | succ fuel =>
      cases h
      rfl
  have hone : ∃ status, getSystemInfo lowestInt earlierOutput zeroedMemory [] [] 3 = .ok status ∧
      status.processorCount = 1 := by
    unfold getSystemInfo
    rw [hzeros, hearlier]
    exact ⟨_, rfl, rfl⟩
  -- the two memories give different counts
  refine ⟨?_, ⟨3, hone⟩, fun hdetermined => ?_⟩
  · unfold getSystemInfo
    rw [hzeros]
    exact ⟨1, _, rfl, rfl⟩
  · obtain ⟨status, hrun, hcount⟩ := hone
    obtain ⟨fuel, hrun'⟩ := hdetermined.same (earlierOutput, zeroedMemory)
      (zeroedMemory, zeroedMemory) 3 status hrun
    rw [hnone fuel status hrun'] at hcount
    cases hcount

end Guthi
