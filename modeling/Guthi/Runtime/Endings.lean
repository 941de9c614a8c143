import Guthi.Runtime.Tokens
import Guthi.Runtime.SystemInfo

/-!
# Guthi — how the parsers end

`parse_cpu_info` and `parse_maximum_cpu_hz` as automata on the tokens of a text. Outside of a
reading an identifier, a colon and a number are skipped; `cpu` may begin a reading, and the words of
the parser that do not follow it are looked at again outside, where they are stuck. Behind the last
word a colon and a number are expected.

* `tokenRun` — where the automaton ends, and the numbers that it has read;
* `parseCpuInfo_tokens` — `parse_cpu_info` does the same.
-/

namespace Guthi

/-- A parser accepts the end, or misses a token that it expects, or stays at a token for ever. -/
inductive Ending where
  | atEnd
  | noColon
  | noNumber
  | stuck
deriving DecidableEq, Repr

/-- Where a parser is between two tokens: outside of a reading, or behind a word of one, with these
words still to come, or behind its colon. -/
inductive Stage where
  | outside
  | words (left : List TokenType)
  | colon
deriving DecidableEq, Repr

/-- What a token does: on to another stage, a number, or the end of the run. -/
inductive Move where
  | go (stage : Stage)
  | add
  | stop (ending : Ending)
deriving DecidableEq, Repr

/-- `numbers` are those of the readings, `carried` is what is left in the tokenizer. -/
structure TokenRun where
  ending : Ending
  numbers : List (Option Nat)
  carried : Option Nat
deriving DecidableEq, Repr

namespace Stage

/-- The move outside of a reading. -/
def outsideMove (words : List TokenType) (tok : Token) : Move :=
  if tok.type = .tokenCpu then .go (.words words)
  else if tok.type = .tokenId ∨ tok.type = .tokenColon ∨ tok.type = .tokenNumber then .go .outside
  else .stop .stuck

/-- The move at each stage. -/
def move (words : List TokenType) : Stage → Token → Move
  | outside, tok => outsideMove words tok
  | .words (w :: left), tok => if tok.type = w then .go (.words left) else outsideMove words tok
  | .words [], tok => if tok.type = .tokenColon then .go .colon else .stop .noColon
  | colon, tok => if tok.type = .tokenNumber then .add else .stop .noNumber

/-- How the run ends when there are no tokens left. -/
def ending : Stage → Ending
  | outside => .atEnd
  | .words (_ :: _) => .atEnd
  | .words [] => .noColon
  | colon => .noNumber

end Stage

/-- The automaton for readings that begin with `cpu` and these words. -/
def tokenRun (words : List TokenType) : Stage → Option Nat → List Token → TokenRun
  | stage, carried, [] => ⟨stage.ending, [], carried⟩
  | stage, carried, tok :: ts =>
    match stage.move words tok with
    | .go stage' => tokenRun words stage' (tok.carry carried) ts
    | .add =>
      let run := tokenRun words .outside (tok.carry carried) ts
      { run with numbers := tok.carry carried :: run.numbers }
    | .stop ending => ⟨ending, [], tok.carry carried⟩

section

variable {words left : List TokenType} {carried : Option Nat} {tok : Token} {ts : List Token}
  {w : TokenType}

/-- The word `cpu` begins a reading. -/
theorem tokenRun_cpu (h : tok.type = .tokenCpu) : tokenRun words .outside carried (tok :: ts) =
    tokenRun words (.words words) (tok.carry carried) ts := by
  rw [tokenRun, Stage.move, Stage.outsideMove, if_pos h]

/-- A word, a colon or a number outside of a reading. -/
theorem tokenRun_skipped (h : tok.type = .tokenId ∨ tok.type = .tokenColon ∨
    tok.type = .tokenNumber) : tokenRun words .outside carried (tok :: ts) =
      tokenRun words .outside (tok.carry carried) ts := by
  have hcpu : tok.type ≠ .tokenCpu := by
    rcases h with h | h | h <;> (rw [h]; decide)
  rw [tokenRun, Stage.move, Stage.outsideMove, if_neg hcpu, if_pos h]

/-- A token that no branch takes. -/
theorem tokenRun_stuck (hcpu : tok.type ≠ .tokenCpu) (h : ¬ (tok.type = .tokenId ∨
    tok.type = .tokenColon ∨ tok.type = .tokenNumber)) :
    tokenRun words .outside carried (tok :: ts) = ⟨.stuck, [], tok.carry carried⟩ := by
  rw [tokenRun, Stage.move, Stage.outsideMove, if_neg hcpu, if_neg h]

theorem tokenRun_word (h : tok.type = w) : tokenRun words (.words (w :: left)) carried (tok :: ts) =
    tokenRun words (.words left) (tok.carry carried) ts := by
  rw [tokenRun, Stage.move, if_pos h]

/-- A word that does not come: the token is looked at outside. -/
theorem tokenRun_word_ne (h : headType ts ≠ w) :
    tokenRun words (.words (w :: left)) carried ts = tokenRun words .outside carried ts := by
  cases ts with
  | nil => rfl
  | cons tok ts =>
    have hmove : Stage.move words (.words (w :: left)) tok = Stage.move words .outside tok :=
      if_neg h
    rw [tokenRun, tokenRun, hmove]

theorem tokenRun_colon (h : tok.type = .tokenColon) :
    tokenRun words (.words []) carried (tok :: ts) =
      tokenRun words .colon (tok.carry carried) ts := by
  rw [tokenRun, Stage.move, if_pos h]

/-- A reading without its colon ends the run. -/
theorem tokenRun_colon_ne (h : headType ts ≠ .tokenColon) :
    tokenRun words (.words []) carried ts = ⟨.noColon, [], headCarry carried ts⟩ := by
  cases ts with
  | nil => rfl
  | cons tok ts =>
    have htok : tok.type ≠ .tokenColon := h
    rw [tokenRun, Stage.move, if_neg htok]
    rfl

/-- The number of a reading is one of the numbers of the run. -/
theorem tokenRun_number (h : tok.type = .tokenNumber) :
    tokenRun words .colon carried (tok :: ts) =
      { tokenRun words .outside (tok.carry carried) ts with
        numbers := tok.carry carried ::
          (tokenRun words .outside (tok.carry carried) ts).numbers } := by
  rw [tokenRun, Stage.move, if_pos h]

/-- A reading without its number ends the run. -/
theorem tokenRun_number_ne (h : headType ts ≠ .tokenNumber) :
    tokenRun words .colon carried ts = ⟨.noNumber, [], headCarry carried ts⟩ := by
  cases ts with
  | nil => rfl
  | cons tok ts =>
    have htok : tok.type ≠ .tokenNumber := h
    rw [tokenRun, Stage.move, if_neg htok]
    rfl

end

/-! ## The end of a loop -/

/-- The parser has come to where the automaton ends. -/
def TokenRun.EndsAt (run : TokenRun) (rest : Bytes) (p : Parser) : Prop :=
  match run.ending with
  | .atEnd => p.isParsing = true ∧ Looks rest run.carried [] p.tokenizer
  | .stuck => p.isParsing = true
  | _ => p.isParsing = false ∧ p.tokenizer.value = run.carried

/-- What becomes of the parser there: it fetches one more token when it accepts the end. -/
def Ending.conclude (ending : Ending) (p : Parser) : Except ParserFault Parser :=
  match ending with
  | .atEnd => p.getToken
  | .stuck => .error .outOfFuel
  | _ => .ok p

namespace Looks

variable {rest : Bytes} {carried : Option Nat} {ts : List Token} {tok : Token} {p : Parser}
  {type : TokenType}

/-- A parser that looks at the token consumes it. -/
theorem acceptToken (h : Looks rest carried (tok :: ts) p.tokenizer) (htype : tok.type = type) :
    ∃ p', p.acceptToken type = .ok (true, p') ∧ p'.isParsing = true ∧
      Looks rest (tok.carry carried) ts p'.tokenizer := by
  obtain ⟨p', hget, hparsing, hlooks⟩ := h.getToken
  refine ⟨p', ?_, hparsing, hlooks⟩
  rw [Parser.acceptToken_of_eq (h.type_eq.trans htype), hget, ok_bind]

/-- A parser that looks at another token leaves it. -/
theorem acceptToken_ne (h : Looks rest carried ts p.tokenizer) (htype : headType ts ≠ type) :
    p.acceptToken type = .ok (false, p) :=
  Parser.acceptToken_of_ne (h.type_eq ▸ htype)

/-- A parser that looks at the token consumes it. -/
theorem expectToken (h : Looks rest carried (tok :: ts) p.tokenizer) (htype : tok.type = type) :
    ∃ p', p.expectToken type = .ok (true, p') ∧ p'.isParsing = true ∧
      Looks rest (tok.carry carried) ts p'.tokenizer := by
  obtain ⟨p', haccept, hrest⟩ := h.acceptToken htype
  refine ⟨p', ?_, hrest⟩
  rw [Parser.expectToken, haccept]
  rfl

/-- A parser that looks at another token ends the parsing. -/
theorem expectToken_ne (h : Looks rest carried ts p.tokenizer) (htype : headType ts ≠ type) :
    p.expectToken type = .ok (false, { p with isParsing := false }) :=
  Parser.expectToken_of_ne (h.type_eq ▸ htype)

/-- The other branches of the first two loops, at a token that is not `cpu`. -/
theorem acceptOther_skipped (h : Looks rest carried (tok :: ts) p.tokenizer)
    (htype : tok.type = .tokenId ∨ tok.type = .tokenColon ∨ tok.type = .tokenNumber) :
    ∃ p', p.acceptOther = .ok (.next p') ∧ p'.isParsing = true ∧
      Looks rest (tok.carry carried) ts p'.tokenizer := by
  obtain ⟨p', hget, hparsing, hlooks⟩ := h.getToken
  have hskipped : p.tokenizer.type = .tokenId ∨ p.tokenizer.type = .tokenColon ∨
      p.tokenizer.type = .tokenNumber := by
    rw [h.type_eq]
    exact htype
  refine ⟨p', ?_, hparsing, hlooks⟩
  rw [Parser.acceptOther_of_skipped hskipped, hget, ok_bind]

/-- No branch takes the token, and the round changes nothing. -/
theorem acceptOther_stuck (h : Looks rest carried (tok :: ts) p.tokenizer)
    (htype : ¬ (tok.type = .tokenId ∨ tok.type = .tokenColon ∨ tok.type = .tokenNumber)) :
    p.acceptOther = .ok (.next p) := by
  have hend : tok.type ≠ .tokenEnd := Token.type_ne (by decide)
  rw [not_or, not_or] at htype
  refine Parser.acceptOther_of_stuck ?_
  rw [h.type_eq]
  simpa [headType] using ⟨htype.1, htype.2.1, htype.2.2, hend⟩

end Looks

variable {rest : Bytes} {carried : Option Nat} {ts : List Token} {p : Parser}
  {words : List TokenType}

/-- What comes of the colon and the number that are expected behind the words of a reading. -/
inductive ColonNumber (words : List TokenType) (rest : Bytes) (carried : Option Nat)
    (ts : List Token) (p : Parser) : Prop where
  | noColon {p' : Parser} (hcolon : p.expectToken .tokenColon = .ok (false, p'))
      (hstop : p'.isParsing = false)
      (hrun : tokenRun words (.words []) carried ts = ⟨.noColon, [], p'.tokenizer.value⟩)
  | noNumber {p₁ p' : Parser} (hcolon : p.expectToken .tokenColon = .ok (true, p₁))
      (hnumber : p₁.expectToken .tokenNumber = .ok (false, p')) (hstop : p'.isParsing = false)
      (hvalue : p'.tokenizer.value = p₁.tokenizer.value)
      (hrun : tokenRun words (.words []) carried ts = ⟨.noNumber, [], p₁.tokenizer.value⟩)
  | number {p₁ p' : Parser} {ts' : List Token} (hcolon : p.expectToken .tokenColon = .ok (true, p₁))
      (hnumber : p₁.expectToken .tokenNumber = .ok (true, p')) (hparsing : p'.isParsing = true)
      (hlooks : Looks rest p₁.tokenizer.value ts' p'.tokenizer) (hlen : ts'.length ≤ ts.length)
      (hrun : tokenRun words (.words []) carried ts =
        { tokenRun words .outside p₁.tokenizer.value ts' with numbers := p₁.tokenizer.value ::
            (tokenRun words .outside p₁.tokenizer.value ts').numbers })

/-- The colon and the number of a reading, as the tokens have them. -/
theorem colonNumber_tokens (words : List TokenType) (hlooks : Looks rest carried ts p.tokenizer) :
    ColonNumber words rest carried ts p := by
  -- without the colon the number is not looked for
  by_cases hcolon : headType ts = .tokenColon
  · obtain ⟨tok, ts₁, rfl, hcolon⟩ := exists_cons_of_headType hcolon (by decide)
    obtain ⟨p₁, haccept, _, hlooks₁⟩ := hlooks.expectToken hcolon
    have hvalue := hlooks₁.value_eq
    by_cases hnumber : headType ts₁ = .tokenNumber
    · obtain ⟨number, ts₂, rfl, hnumber⟩ := exists_cons_of_headType hnumber (by decide)
      obtain ⟨p₂, haccept₂, hparsing, hlooks₂⟩ := hlooks₁.expectToken hnumber
      rw [headCarry] at hvalue
      rw [← hvalue] at hlooks₂
      have hrun : tokenRun words (.words []) carried (tok :: number :: ts₂) =
          { tokenRun words .outside p₁.tokenizer.value ts₂ with numbers := p₁.tokenizer.value ::
              (tokenRun words .outside p₁.tokenizer.value ts₂).numbers } := by
        rw [tokenRun_colon hcolon, tokenRun_number hnumber, hvalue]
      refine .number haccept haccept₂ hparsing hlooks₂ ?_ hrun
      rw [List.length_cons, List.length_cons]
      omega
    · -- the value is what an earlier number has left
      refine .noNumber haccept (hlooks₁.expectToken_ne hnumber) rfl rfl ?_
      rw [tokenRun_colon hcolon, tokenRun_number_ne hnumber, hvalue]
  · refine .noColon (hlooks.expectToken_ne hcolon) rfl ?_
    rw [tokenRun_colon_ne hcolon, ← hlooks.value_eq]

/-! ## `parse_cpu_info` -/

variable {m : Machine}

/-- The records of these numbers, one after the other. -/
def recordAll (m : Machine) (status : ProcessorStatus) (index : Nat) :
    List (Option Nat) → Except ParserFault ProcessorStatus
  | [] => .ok status
  | number :: numbers => status.record index (m.toInt number) >>= fun status =>
    recordAll m status (index + 1) numbers

/-- The numbers are recorded while there is room. -/
theorem exists_recordAll {numbers : List (Option Nat)} {index : Nat}
    (h : index + numbers.length ≤ 64) (status : ProcessorStatus) :
    ∃ status', recordAll m status index numbers = .ok status' := by
  induction numbers generalizing index status with
  | nil => exact ⟨status, rfl⟩
  | cons number numbers ih =>
    rw [List.length_cons] at h
    -- the next record is one of the 64
    have hlt : index < 64 := by omega
    rw [recordAll, ProcessorStatus.record, dif_pos hlt, ok_bind]
    exact ih (by omega) _

theorem recordAll_fails {numbers : List (Option Nat)} {index : Nat} (hindex : index ≤ 64)
    (h : 64 < index + numbers.length) (status : ProcessorStatus) :
    recordAll m status index numbers = .error .outOfRecords := by
  induction numbers generalizing index status with
  | nil =>
    rw [List.length_nil] at h
    omega
  | cons number numbers ih =>
    rw [List.length_cons] at h
    rw [recordAll, ProcessorStatus.record]
    -- a record, or the place behind the last one
    split_ifs with hlt
    · exact ih (by omega) (by omega) _
    · rfl

/-- The numbers fit into the records, or do not. -/
theorem recordAll_cases (m : Machine) (status : ProcessorStatus) (numbers : List (Option Nat)) :
    (numbers.length ≤ 64 ∧ ∃ status', recordAll m status 0 numbers = .ok status') ∨
      (64 < numbers.length ∧ recordAll m status 0 numbers = .error .outOfRecords) := by
  rcases Nat.lt_or_ge 64 numbers.length with hlen | hlen
  · exact Or.inr ⟨hlen, recordAll_fails (by decide) (by omega) status⟩
  · exact Or.inl ⟨hlen, exists_recordAll (by omega) status⟩

/-- Where the loop goes from `s`: the numbers of the run are recorded, and the parser comes to
where the run ends. -/
def CpuLoopEnds (m : Machine) (rest : Bytes) (run : TokenRun) (s : CpuLoop) : Prop :=
  ∃ p n, run.EndsAt rest p ∧ ∀ fuel, cpuInfoLoop m (fuel + n) s =
    recordAll m s.status s.index run.numbers >>= fun status =>
      run.ending.conclude p >>= fun q => .ok ⟨q, status, s.index + run.numbers.length⟩

namespace CpuLoopEnds

variable {run : TokenRun} {s s' : CpuLoop}

/-- A round that changes neither records nor index. -/
theorem next (hparsing : s.parser.isParsing = true) (hbody : cpuInfoBody m s = .ok (.next s'))
    (hstatus : s'.status = s.status) (hindex : s'.index = s.index)
    (h : CpuLoopEnds m rest run s') : CpuLoopEnds m rest run s := by
  obtain ⟨p, n, hends, hloop⟩ := h
  refine ⟨p, n + 1, hends, fun fuel => ?_⟩
  rw [← Nat.add_assoc, cpuInfoLoop_next hparsing hbody, hloop, hstatus, hindex]

/-- The parser has missed a token. -/
theorem stop (hparsing : s.parser.isParsing = true) (hbody : cpuInfoBody m s = .ok (.next s'))
    (hstop : s'.parser.isParsing = false) (hstatus : s'.status = s.status)
    (hindex : s'.index = s.index) (hends : run.EndsAt rest s'.parser) (hnone : run.numbers = [])
    (hconclude : run.ending.conclude s'.parser = .ok s'.parser) : CpuLoopEnds m rest run s := by
  refine ⟨s'.parser, 2, hends, fun fuel => ?_⟩
  rw [cpuInfoLoop_next hparsing hbody, cpuInfoLoop_stop hstop, hnone, recordAll, ok_bind, hconclude,
    ok_bind, ← hstatus, ← hindex]
  rfl

/-- A number is recorded; without a record for it the loop comes to nothing. -/
theorem recorded {number : Option Nat} {p : Parser} (hparsing : s.parser.isParsing = true)
    (hbody : cpuInfoBody m s = (s.status.record s.index (m.toInt number) >>= fun status =>
      .ok { parser := p, status, index := s.index + 1 }) >>= fun s' => .ok (.next s'))
    (h : ∀ status, CpuLoopEnds m rest run ⟨p, status, s.index + 1⟩) :
    CpuLoopEnds m rest { run with numbers := number :: run.numbers } s := by
  -- behind the 64th record the round faults
  cases hrecord : s.status.record s.index (m.toInt number) with
  | error e =>
    rw [hrecord] at hbody
    obtain ⟨p', _, hends, _⟩ := h s.status
    refine ⟨p', 1, hends, fun fuel => ?_⟩
    rw [cpuInfoLoop_fails hparsing hbody, recordAll, hrecord]
    rfl
  | ok status =>
    rw [hrecord] at hbody
    obtain ⟨p', n, hends, hloop⟩ := h status
    refine ⟨p', n + 1, hends, fun fuel => ?_⟩
    rw [← Nat.add_assoc, cpuInfoLoop_next hparsing hbody, hloop, recordAll, hrecord, ok_bind,
      List.length_cons, Nat.add_assoc s.index 1, Nat.add_comm 1]

end CpuLoopEnds

/-- A reading that does not begin with `cpu MHz` after all. -/
theorem cpuReading_left {s : CpuLoop} (hlooks : Looks rest carried ts p.tokenizer)
    (hmhz : headType ts ≠ .tokenMhz) : cpuReading m s p = .ok { s with parser := p } := by
  rw [cpuReading, hlooks.acceptToken_ne hmhz]
  rfl

theorem cpuReading_noColon {s : CpuLoop} {p₁ p₂ : Parser}
    (hmhz : p.acceptToken .tokenMhz = .ok (true, p₁))
    (hcolon : p₁.expectToken .tokenColon = .ok (false, p₂)) :
    cpuReading m s p = .ok { s with parser := p₂ } := by
  rw [cpuReading, hmhz, ok_bind]
  simp only [if_true, hcolon, ok_bind, Bool.false_eq_true, if_false]
  rfl

/-- A reading without its number. -/
theorem cpuReading_noNumber {s : CpuLoop} {p₁ p₂ p₃ : Parser}
    (hmhz : p.acceptToken .tokenMhz = .ok (true, p₁))
    (hcolon : p₁.expectToken .tokenColon = .ok (true, p₂))
    (hnumber : p₂.expectToken .tokenNumber = .ok (false, p₃)) :
    cpuReading m s p = .ok { s with parser := p₃ } := by
  rw [cpuReading, hmhz, ok_bind]
  simp only [if_true, hcolon, hnumber, ok_bind, Bool.false_eq_true, if_false]
  rfl

/-- A reading with all its tokens. -/
theorem cpuReading_recorded {s : CpuLoop} {p₁ p₂ p₃ : Parser}
    (hmhz : p.acceptToken .tokenMhz = .ok (true, p₁))
    (hcolon : p₁.expectToken .tokenColon = .ok (true, p₂))
    (hnumber : p₂.expectToken .tokenNumber = .ok (true, p₃)) :
    cpuReading m s p = s.status.record s.index (m.toInt p₂.tokenizer.value) >>= fun status =>
      .ok { parser := p₃, status, index := s.index + 1 } := by
  rw [cpuReading, hmhz, ok_bind]
  simp only [if_true, hcolon, hnumber, ok_bind]
  rfl

/-- The loop comes to where the runs end, for at most `n` tokens. -/
def CpuLoopEndsUpTo (m : Machine) (rest : Bytes) (n : Nat) : Prop :=
  ∀ {carried : Option Nat} {ts : List Token} {s : CpuLoop}, ts.length ≤ n →
    s.parser.isParsing = true → Looks rest carried ts s.parser.tokenizer →
    CpuLoopEnds m rest (tokenRun [.tokenMhz] .outside carried ts) s

/-- At the end of the tokens the loop is left. -/
theorem cpuInfoLoop_nil {s : CpuLoop} (hparsing : s.parser.isParsing = true)
    (hlooks : Looks rest carried [] s.parser.tokenizer) :
    CpuLoopEnds m rest (tokenRun [.tokenMhz] .outside carried []) s := by
  have htype := hlooks.type_eq
  have hne : s.parser.tokenizer.type ≠ .tokenCpu := by
    rw [htype]
    decide
  refine ⟨s.parser, 1, ⟨hparsing, hlooks⟩, fun fuel => ?_⟩
  -- one more token is read before the loop is left
  rw [cpuInfoLoop, whileLoop, if_pos hparsing, cpuInfoBody_other hne,
    Parser.acceptOther_of_end htype]
  show _ = s.parser.getToken >>= fun q => (.ok ⟨q, s.status, s.index⟩ : Except ParserFault CpuLoop)
  cases s.parser.getToken <;> rfl

theorem cpuInfoLoop_cpuToken {s : CpuLoop} {tok : Token} (ih : CpuLoopEndsUpTo m rest ts.length)
    (hparsing : s.parser.isParsing = true) (hcpu : tok.type = .tokenCpu)
    (hlooks : Looks rest carried (tok :: ts) s.parser.tokenizer) :
    CpuLoopEnds m rest (tokenRun [.tokenMhz] .outside carried (tok :: ts)) s := by
  obtain ⟨p₁, hget, hparsing₁, hlooks₁⟩ := hlooks.getToken
  have hbody : cpuInfoBody m s = cpuReading m s p₁ >>= fun s' => .ok (.next s') := by
    rw [cpuInfoBody_cpu (hlooks.type_eq.trans hcpu), hget, ok_bind]
  rw [tokenRun_cpu hcpu]
  -- another word behind `cpu` is looked at again in the next round
  by_cases hmhz : headType ts = .tokenMhz
  · obtain ⟨mhz, ts₁, rfl, hmhz⟩ := exists_cons_of_headType hmhz (by decide)
    obtain ⟨p₂, haccept, _, hlooks₂⟩ := hlooks₁.acceptToken hmhz
    rw [tokenRun_word hmhz]
    cases colonNumber_tokens [.tokenMhz] hlooks₂ with
    -- without a colon or a number `is_parsing` is turned off
    | noColon hcolon hstop hrun =>
      rw [cpuReading_noColon haccept hcolon, ok_bind] at hbody
      rw [hrun]
      exact .stop hparsing hbody hstop rfl rfl ⟨hstop, rfl⟩ rfl rfl
    | noNumber hcolon hnumber hstop hvalue hrun =>
      rw [cpuReading_noNumber haccept hcolon hnumber, ok_bind] at hbody
      rw [hrun]
      exact .stop hparsing hbody hstop rfl rfl ⟨hstop, hvalue⟩ rfl rfl
    | number hcolon hnumber hparsing₃ hlooks₃ hlen₃ hrun =>
      rw [cpuReading_recorded haccept hcolon hnumber] at hbody
      rw [hrun]
      exact .recorded hparsing hbody fun status =>
        ih (hlen₃.trans (Nat.le_succ _)) hparsing₃ hlooks₃
  · rw [cpuReading_left hlooks₁ hmhz, ok_bind] at hbody
    rw [tokenRun_word_ne hmhz]
    exact .next hparsing hbody rfl rfl (ih (Nat.le_refl _) hparsing₁ hlooks₁)

/-- **The loop of `parse_cpu_info`** goes through the tokens as the automaton does. -/
theorem cpuInfoLoop_tokens (n : Nat) : CpuLoopEndsUpTo m rest n := by
  -- on a bound for the number of tokens
  induction n with
  | zero =>
    intro carried ts s hlen hparsing hlooks
    obtain rfl := List.eq_nil_of_length_eq_zero (Nat.le_zero.mp hlen)
    exact cpuInfoLoop_nil hparsing hlooks
  | succ n ih =>
    intro carried ts s hlen hparsing hlooks
    cases ts with
    | nil => exact cpuInfoLoop_nil hparsing hlooks
    | cons tok ts =>
      have hrest : ts.length ≤ n := Nat.le_of_succ_le_succ hlen
      -- a reading, a token that is skipped, or one that holds the loop up
      by_cases hcpu : tok.type = .tokenCpu
      · exact cpuInfoLoop_cpuToken (fun hts => ih (hts.trans hrest)) hparsing hcpu hlooks
      · have hbody := cpuInfoBody_other (m := m) (s := s) (by rw [hlooks.type_eq]; exact hcpu)
        by_cases hskipped : tok.type = .tokenId ∨ tok.type = .tokenColon ∨ tok.type = .tokenNumber
        · obtain ⟨p₁, hother, hparsing₁, hlooks₁⟩ := hlooks.acceptOther_skipped hskipped
          rw [hother, ok_bind] at hbody
          rw [tokenRun_skipped hskipped]
          exact .next hparsing hbody rfl rfl (ih hrest hparsing₁ hlooks₁)
        · rw [hlooks.acceptOther_stuck hskipped, ok_bind] at hbody
          rw [tokenRun_stuck hcpu hskipped]
          exact ⟨s.parser, 0, hparsing, fun fuel => whileLoop_stuck hparsing hbody⟩

/-! ## The text of a buffer -/

/-- What is behind the first NUL. -/
def behindText (buffer : Bytes) : Bytes := (buffer.dropWhile (· ≠ 0)).tail

/-- The text of a buffer, its NUL and what is behind it. -/
theorem cStr_append_behindText {buffer : Bytes} (h0 : 0 ∈ buffer) :
    cStr buffer ++ 0 :: behindText buffer = buffer := by
  have hsplit := List.takeWhile_append_dropWhile (p := (· ≠ (0 : UInt8))) (l := buffer)
  cases hdrop : buffer.dropWhile (· ≠ 0) with
  -- no NUL at all
  | nil =>
    have hall : cStr buffer = buffer := by rwa [hdrop, List.append_nil] at hsplit
    exact absurd h0 (hall ▸ zero_notMem_cStr buffer)
  | cons c behind =>
    have hc : c = 0 := by
      have hhead := List.head?_dropWhile_not (· ≠ (0 : UInt8)) buffer
      rw [hdrop] at hhead
      simpa using hhead
    rw [behindText, hdrop, List.tail_cons, ← hc, ← hdrop]
    exact hsplit

/-- Where a parser goes from the beginning of a buffer. -/
theorem start_looks {buffer : Bytes} (h0 : 0 ∈ buffer) {p : Parser}
    (hptr : p.tokenizer.ptr = buffer) : ∃ p', p.start = .ok p' ∧ p'.isParsing = p.isParsing ∧
      Looks (behindText buffer) p.tokenizer.value (tokens (cStr buffer)) p'.tokenizer := by
  subst hptr
  obtain ⟨t, ht⟩ := exists_finds h0 p.tokenizer
  -- the first token, and those behind it
  refine ⟨{ p with tokenizer := t }, ?_, rfl, ?_⟩
  · rw [Parser.start, tokenize, finds_iff.mp ht]
    rfl
  · rw [← cStr_append_behindText h0] at ht
    exact looks_of_finds (zero_notMem_cStr _) ht

/-- The run of `parse_cpu_info` for a buffer. -/
def cpuInfoRun (carried : Option Nat) (buffer : Bytes) : TokenRun :=
  tokenRun [.tokenMhz] .outside carried (tokens (cStr buffer))

/-- **`parse_cpu_info` on a buffer** comes to where the run of its tokens ends. -/
theorem parseCpuInfo_tokens {buffer : Bytes} (h0 : 0 ∈ buffer) {p : Parser}
    (hptr : p.tokenizer.ptr = buffer) (hparsing : p.isParsing = true) (status : ProcessorStatus) :
    ∃ p', (cpuInfoRun p.tokenizer.value buffer).EndsAt (behindText buffer) p' ∧
      ComesTo .outOfFuel (fun fuel => parseCpuInfo m fuel p status)
        (recordAll m status 0 (cpuInfoRun p.tokenizer.value buffer).numbers >>= fun status' =>
          (cpuInfoRun p.tokenizer.value buffer).ending.conclude p' >>= fun q =>
            .ok (q, status')) := by
  obtain ⟨p₁, hstart, hparsing₁, hlooks⟩ := start_looks h0 hptr
  obtain ⟨p', n, hends, hloop⟩ := cpuInfoLoop_tokens (m := m) _ (s := ⟨p₁, status, 0⟩)
    (Nat.le_refl _) (hparsing₁.trans hparsing) hlooks
  refine ⟨p', hends, ?_⟩
  have hcomes := (whileLoop_comesTo hloop).bind fun s => .ok (s.parser, s.status)
  rw [bind_assoc] at hcomes
  simp only [bind_assoc, ok_bind] at hcomes
  have hrun : ∀ fuel, parseCpuInfo m fuel p status =
      cpuInfoLoop m fuel ⟨p₁, status, 0⟩ >>= fun s => .ok (s.parser, s.status) := by
    intro fuel
    rw [parseCpuInfo, hstart, ok_bind]
    rfl
  -- the parse is the loop from there on
  simp only [hrun]
  exact hcomes

/-- A parser that is not to go on looks at the first token only. -/
theorem parseCpuInfo_idle {buffer : Bytes} (h0 : 0 ∈ buffer) {p : Parser}
    (hptr : p.tokenizer.ptr = buffer) (hparsing : p.isParsing = false) (status : ProcessorStatus) :
    ∃ p', ComesTo .outOfFuel (fun fuel => parseCpuInfo m fuel p status) (.ok (p', status)) := by
  obtain ⟨p₁, hstart, hparsing₁, _⟩ := start_looks h0 hptr
  refine ⟨p₁, .const (fun fuel => ?_) ?_⟩
  · rw [parseCpuInfo, hstart, ok_bind, cpuInfoLoop_stop (hparsing₁.trans hparsing)]
    rfl
  · rw [parseCpuInfo, hstart]
    rfl

end Guthi
