import Guthi.Runtime.Endings
import Guthi.Runtime.ParserRelation

/-!
# Guthi — how the other parsers end

`parse_maximum_cpu_hz` is the automaton for the words `max MHz`, and `parse_memory_free_space`
decides everything at its first token: `maximumRun_tokens`, `parseMemoryFreeSpace_tokens`.
-/

namespace Guthi

variable {m : Machine} {rest : Bytes} {carried : Option Nat} {ts : List Token} {p : Parser}

/-- The value that is read last. It is taken before the parser looks whether it is a number. -/
def TokenRun.value (m : Machine) (initial : Int32) (run : TokenRun) : Int32 :=
  if run.ending = .noNumber then m.toInt run.carried
  else run.numbers.foldl (fun _ number => m.toInt number) initial

/-! ## `parse_maximum_cpu_hz` -/

/-- The branches of `maximumBody`. -/
theorem maximumBody_cpu {s : MaximumLoop} (h : s.parser.tokenizer.type = .tokenCpu) :
    maximumBody m s = s.parser.getToken >>= fun p =>
      maximumReading m s p >>= fun s' => .ok (.next s') := by
  rw [maximumBody, Parser.acceptToken_of_eq h]
  cases s.parser.getToken <;> rfl

theorem maximumBody_other {s : MaximumLoop} (h : s.parser.tokenizer.type ≠ .tokenCpu) :
    maximumBody m s = s.parser.acceptOther >>= fun step =>
      .ok (step.map fun p => { s with parser := p }) := by
  -- no `cpu`: one of the other tokens
  rw [maximumBody, Parser.acceptToken_of_ne h]
  rfl

/-- Where the loop goes from `s`. -/
def MaximumLoopEnds (m : Machine) (rest : Bytes) (run : TokenRun) (s : MaximumLoop) : Prop :=
  ∃ p n, run.EndsAt rest p ∧ ∀ fuel, maximumLoop m (fuel + n) s =
    run.ending.conclude p >>= fun q => .ok ⟨q, run.value m s.value⟩

namespace MaximumLoopEnds

variable {run : TokenRun} {s s' : MaximumLoop}

theorem next (hparsing : s.parser.isParsing = true) (hbody : maximumBody m s = .ok (.next s'))
    (hvalue : s'.value = s.value) (h : MaximumLoopEnds m rest run s') :
    MaximumLoopEnds m rest run s := by
  obtain ⟨p, n, hends, hloop⟩ := h
  refine ⟨p, n + 1, hends, fun fuel => ?_⟩
  rw [← Nat.add_assoc, maximumLoop_next hparsing hbody, hloop, hvalue]

/-- The parser has missed a token. -/
theorem stop (hparsing : s.parser.isParsing = true) (hbody : maximumBody m s = .ok (.next s'))
    (hstop : s'.parser.isParsing = false) (hvalue : s'.value = run.value m s.value)
    (hends : run.EndsAt rest s'.parser)
    (hconclude : run.ending.conclude s'.parser = .ok s'.parser) : MaximumLoopEnds m rest run s := by
  refine ⟨s'.parser, 2, hends, fun fuel => ?_⟩
  rw [maximumLoop_next hparsing hbody, maximumLoop_stop hstop, hconclude, ok_bind, ← hvalue]

/-- A number is read. -/
theorem read {number : Option Nat} {p : Parser} (hparsing : s.parser.isParsing = true)
    (hbody : maximumBody m s = .ok (.next ⟨p, m.toInt number⟩))
    (h : MaximumLoopEnds m rest run ⟨p, m.toInt number⟩) :
    MaximumLoopEnds m rest { run with numbers := number :: run.numbers } s := by
  obtain ⟨p', n, hends, hloop⟩ := h
  refine ⟨p', n + 1, hends, fun fuel => ?_⟩
  rw [← Nat.add_assoc, maximumLoop_next hparsing hbody, hloop]
  rfl

end MaximumLoopEnds

theorem maximumReading_left {s : MaximumLoop} (hlooks : Looks rest carried ts p.tokenizer)
    (hmax : headType ts ≠ .tokenMax) : maximumReading m s p = .ok { s with parser := p } := by
  rw [maximumReading, hlooks.acceptToken_ne hmax]
  rfl

section

variable {s : MaximumLoop} {p₁ p₂ p₃ p₄ : Parser}

theorem maximumReading_noMhz (hmax : p.acceptToken .tokenMax = .ok (true, p₁))
    (hlooks : Looks rest carried ts p₁.tokenizer) (hmhz : headType ts ≠ .tokenMhz) :
    maximumReading m s p = .ok { s with parser := p₁ } := by
  rw [maximumReading, hmax, ok_bind]
  simp only [if_true, hlooks.acceptToken_ne hmhz, ok_bind, Bool.false_eq_true, if_false]
  rfl

theorem maximumReading_noColon (hmax : p.acceptToken .tokenMax = .ok (true, p₁))
    (hmhz : p₁.acceptToken .tokenMhz = .ok (true, p₂))
    (hcolon : p₂.expectToken .tokenColon = .ok (false, p₃)) :
    maximumReading m s p = .ok { s with parser := p₃ } := by
  rw [maximumReading, hmax, ok_bind]
  simp only [if_true, hmhz, hcolon, ok_bind, Bool.false_eq_true, if_false]
  rfl

/-- The value is taken, whether or not a number follows. -/
theorem maximumReading_value {found : Bool} (hmax : p.acceptToken .tokenMax = .ok (true, p₁))
    (hmhz : p₁.acceptToken .tokenMhz = .ok (true, p₂))
    (hcolon : p₂.expectToken .tokenColon = .ok (true, p₃))
    (hnumber : p₃.expectToken .tokenNumber = .ok (found, p₄)) :
    maximumReading m s p = .ok ⟨p₄, m.toInt p₃.tokenizer.value⟩ := by
  rw [maximumReading, hmax, ok_bind]
  simp only [if_true, hmhz, hcolon, hnumber, ok_bind]
  rfl

end

/-- The loop comes to where the runs end, for at most `n` tokens. -/
def MaximumLoopEndsUpTo (m : Machine) (rest : Bytes) (n : Nat) : Prop :=
  ∀ {carried : Option Nat} {ts : List Token} {s : MaximumLoop}, ts.length ≤ n →
    s.parser.isParsing = true → Looks rest carried ts s.parser.tokenizer →
    MaximumLoopEnds m rest (tokenRun [.tokenMax, .tokenMhz] .outside carried ts) s

theorem maximumLoop_nil {s : MaximumLoop} (hparsing : s.parser.isParsing = true)
    (hlooks : Looks rest carried [] s.parser.tokenizer) :
    MaximumLoopEnds m rest (tokenRun [.tokenMax, .tokenMhz] .outside carried []) s := by
  have htype := hlooks.type_eq
  have hne : s.parser.tokenizer.type ≠ .tokenCpu := by
    rw [htype]
    decide
  refine ⟨s.parser, 1, ⟨hparsing, hlooks⟩, fun fuel => ?_⟩
  -- the end: one more token is read
  rw [maximumLoop, whileLoop, if_pos hparsing, maximumBody_other hne,
    Parser.acceptOther_of_end htype]
  show _ = s.parser.getToken >>= fun q => (.ok ⟨q, s.value⟩ : Except ParserFault MaximumLoop)
  cases s.parser.getToken <;> rfl

/-- From a `cpu` on. -/
theorem maximumLoop_cpuToken {s : MaximumLoop} {tok : Token}
    (ih : MaximumLoopEndsUpTo m rest ts.length) (hparsing : s.parser.isParsing = true)
    (hcpu : tok.type = .tokenCpu) (hlooks : Looks rest carried (tok :: ts) s.parser.tokenizer) :
    MaximumLoopEnds m rest (tokenRun [.tokenMax, .tokenMhz] .outside carried (tok :: ts)) s := by
  obtain ⟨p₁, hget, hparsing₁, hlooks₁⟩ := hlooks.getToken
  have hbody : maximumBody m s = maximumReading m s p₁ >>= fun s' => .ok (.next s') := by
    rw [maximumBody_cpu (hlooks.type_eq.trans hcpu), hget, ok_bind]
  rw [tokenRun_cpu hcpu]
  -- `cpu max`
  by_cases hmax : headType ts = .tokenMax
  · obtain ⟨max, ts₁, rfl, hmax⟩ := exists_cons_of_headType hmax (by decide)
    obtain ⟨p₂, haccept, hparsing₂, hlooks₂⟩ := hlooks₁.acceptToken hmax
    rw [tokenRun_word hmax]
    -- `cpu max MHz`
    by_cases hmhz : headType ts₁ = .tokenMhz
    · obtain ⟨mhz, ts₂, rfl, hmhz⟩ := exists_cons_of_headType hmhz (by decide)
      obtain ⟨p₃, haccept₃, _, hlooks₃⟩ := hlooks₂.acceptToken hmhz
      rw [tokenRun_word hmhz]
      -- then a colon and a number
      cases colonNumber_tokens [.tokenMax, .tokenMhz] hlooks₃ with
      | noColon hcolon hstop hrun =>
        rw [maximumReading_noColon haccept haccept₃ hcolon, ok_bind] at hbody
        rw [hrun]
        exact .stop hparsing hbody hstop rfl ⟨hstop, rfl⟩ rfl
      | noNumber hcolon hnumber hstop hvalue hrun =>
        rw [maximumReading_value haccept haccept₃ hcolon hnumber, ok_bind] at hbody
        rw [hrun]
        exact .stop hparsing hbody hstop rfl ⟨hstop, hvalue⟩ rfl
      | number hcolon hnumber hparsing₄ hlooks₄ hlen₄ hrun =>
        rw [maximumReading_value haccept haccept₃ hcolon hnumber, ok_bind] at hbody
        rw [hrun]
        refine .read hparsing hbody (ih ?_ hparsing₄ hlooks₄)
        rw [List.length_cons, List.length_cons]
        omega
    · rw [maximumReading_noMhz haccept hlooks₂ hmhz, ok_bind] at hbody
      rw [tokenRun_word_ne hmhz]
      exact .next hparsing hbody rfl (ih (Nat.le_succ _) hparsing₂ hlooks₂)
  · rw [maximumReading_left hlooks₁ hmax, ok_bind] at hbody
    rw [tokenRun_word_ne hmax]
    exact .next hparsing hbody rfl (ih (Nat.le_refl _) hparsing₁ hlooks₁)

/-- **The loop of `parse_maximum_cpu_hz`** goes through the tokens as the automaton does. -/
theorem maximumLoop_tokens (n : Nat) : MaximumLoopEndsUpTo m rest n := by
  -- on a bound for the number of tokens
  induction n with
  | zero =>
    intro carried ts s hlen hparsing hlooks
    obtain rfl := List.eq_nil_of_length_eq_zero (Nat.le_zero.mp hlen)
    exact maximumLoop_nil hparsing hlooks
  | succ n ih =>
    intro carried ts s hlen hparsing hlooks
    cases ts with
    | nil => exact maximumLoop_nil hparsing hlooks
    | cons tok ts =>
      have hrest : ts.length ≤ n := Nat.le_of_succ_le_succ hlen
      by_cases hcpu : tok.type = .tokenCpu
      · exact maximumLoop_cpuToken (fun hts => ih (hts.trans hrest)) hparsing hcpu hlooks
      · have hbody := maximumBody_other (m := m) (s := s) (by rw [hlooks.type_eq]; exact hcpu)
        by_cases hskipped : tok.type = .tokenId ∨ tok.type = .tokenColon ∨ tok.type = .tokenNumber
        · obtain ⟨p₁, hother, hparsing₁, hlooks₁⟩ := hlooks.acceptOther_skipped hskipped
          rw [hother, ok_bind] at hbody
          rw [tokenRun_skipped hskipped]
          exact .next hparsing hbody rfl (ih hrest hparsing₁ hlooks₁)
        · -- the token stays, and the loop with it
          rw [hlooks.acceptOther_stuck hskipped, ok_bind] at hbody
          rw [tokenRun_stuck hcpu hskipped]
          exact ⟨s.parser, 0, hparsing, fun fuel => whileLoop_stuck hparsing hbody⟩

/-- The run of `parse_maximum_cpu_hz` for a buffer. -/
def maximumCpuHzRun (carried : Option Nat) (buffer : Bytes) : TokenRun :=
  tokenRun [.tokenMax, .tokenMhz] .outside carried (tokens (cStr buffer))

/-- **`parse_maximum_cpu_hz` on a buffer**, up to the value that it assigns. -/
theorem maximumRun_tokens {buffer : Bytes} (h0 : 0 ∈ buffer) {p : Parser}
    (hptr : p.tokenizer.ptr = buffer) (hparsing : p.isParsing = true) :
    ∃ p', (maximumCpuHzRun p.tokenizer.value buffer).EndsAt (behindText buffer) p' ∧
      ComesTo .outOfFuel (fun fuel => maximumRun m fuel p)
        ((maximumCpuHzRun p.tokenizer.value buffer).ending.conclude p' >>= fun q =>
          .ok ⟨q, (maximumCpuHzRun p.tokenizer.value buffer).value m 0⟩) := by
  obtain ⟨p₁, hstart, hparsing₁, hlooks⟩ := start_looks h0 hptr
  obtain ⟨p', n, hends, hloop⟩ := maximumLoop_tokens (m := m) _ (s := ⟨p₁, 0⟩)
    (Nat.le_refl _) (hparsing₁.trans hparsing) hlooks
  refine ⟨p', hends, ?_⟩
  have hrun : ∀ fuel, maximumRun m fuel p = maximumLoop m fuel ⟨p₁, 0⟩ := by
    intro fuel
    rw [maximumRun, hstart, ok_bind]
  simp only [hrun]
  exact whileLoop_comesTo hloop

/-- A parser that is not to go on looks at the first token only. -/
theorem maximumRun_idle {buffer : Bytes} (h0 : 0 ∈ buffer) {p : Parser}
    (hptr : p.tokenizer.ptr = buffer) (hparsing : p.isParsing = false) :
    ∃ p', ComesTo .outOfFuel (fun fuel => maximumRun m fuel p) (.ok ⟨p', 0⟩) := by
  obtain ⟨p₁, hstart, hparsing₁, _⟩ := start_looks h0 hptr
  refine ⟨p₁, .const (fun fuel => ?_) ?_⟩
  · rw [maximumRun, hstart, ok_bind, maximumLoop_stop (hparsing₁.trans hparsing)]
  · rw [maximumRun, hstart]
    rfl

/-! ## `parse_memory_free_space` -/

/-- Only `MemAvailable` and the end are accepted, and no number is the integer that is expected
behind the colon. -/
def memoryTokenRun (carried : Option Nat) : List Token → TokenRun
  | [] => ⟨.atEnd, [], carried⟩
  | tok :: ts =>
    if tok.type = .tokenMemAvailable then
      if headType ts = .tokenColon then ⟨.noNumber, [], headCarry carried ts.tail⟩
      else ⟨.noColon, [], headCarry carried ts⟩
    else ⟨.stuck, [], tok.carry carried⟩

/-- Where the loop goes from `s`. -/
def MemoryLoopEnds (m : Machine) (rest : Bytes) (run : TokenRun) (s : MemoryLoop) : Prop :=
  ∃ p n, run.EndsAt rest p ∧ ∀ fuel, memoryLoop m (fuel + n) s =
    run.ending.conclude p >>= fun q => .ok ⟨q, run.value m s.value⟩

theorem memoryBody_available {s : MemoryLoop} {p₁ p₂ : Parser} {found : Bool}
    (havailable : s.parser.acceptToken .tokenMemAvailable = .ok (true, p₁))
    (hcolon : p₁.expectToken .tokenColon = .ok (found, p₂)) :
    memoryBody m s = if found then p₂.expectToken .tokenInteger >>= fun x =>
        .ok (.next ⟨x.2, m.toInt p₂.tokenizer.value⟩)
      else .ok (.next { s with parser := p₂ }) := by
  rw [memoryBody, havailable, ok_bind]
  simp only [if_true, hcolon, ok_bind]
  cases found <;> rfl

theorem memoryBody_other {s : MemoryLoop} (h : s.parser.tokenizer.type ≠ .tokenMemAvailable) :
    memoryBody m s = s.parser.acceptToken .tokenEnd >>= fun x =>
      .ok (if x.1 then .leave { s with parser := x.2 } else .next { s with parser := x.2 }) := by
  rw [memoryBody, Parser.acceptToken_of_ne h, ok_bind]
  simp only [Bool.false_eq_true, if_false]
  refine congrArg _ (funext fun x => ?_)
  split_ifs <;> rfl

theorem headType_ne_integer (ts : List Token) : headType ts ≠ .tokenInteger := by
  cases ts with
  | nil => decide
  | cons tok ts => exact Token.type_ne (by decide)

theorem memoryLoop_nil {s : MemoryLoop} (hparsing : s.parser.isParsing = true)
    (hlooks : Looks rest carried [] s.parser.tokenizer) :
    MemoryLoopEnds m rest (memoryTokenRun carried []) s := by
  have htype : s.parser.tokenizer.type = .tokenEnd := hlooks.type_eq
  have hne : s.parser.tokenizer.type ≠ .tokenMemAvailable := by
    rw [htype]
    decide
  refine ⟨s.parser, 1, ⟨hparsing, hlooks⟩, fun fuel => ?_⟩
  rw [memoryLoop, whileLoop, if_pos hparsing, memoryBody_other hne, Parser.acceptToken_of_eq htype]
  show _ = s.parser.getToken >>= fun q => (.ok ⟨q, s.value⟩ : Except ParserFault MemoryLoop)
  cases s.parser.getToken <;> rfl

/-- From `MemAvailable` on. -/
theorem memoryLoop_available {s : MemoryLoop} {tok : Token} (hparsing : s.parser.isParsing = true)
    (havailable : tok.type = .tokenMemAvailable)
    (hlooks : Looks rest carried (tok :: ts) s.parser.tokenizer) :
    MemoryLoopEnds m rest (memoryTokenRun carried (tok :: ts)) s := by
  obtain ⟨p₁, haccept, _, hlooks₁⟩ := hlooks.acceptToken havailable
  have hcarry : tok.carry carried = carried :=
    tok.carry_of_type_ne (by rw [havailable]; decide) carried
  rw [hcarry] at hlooks₁
  rw [memoryTokenRun, if_pos havailable]
  by_cases hcolon : headType ts = .tokenColon
  · -- no token is an integer, so that the parse stops in any case
    obtain ⟨tok₁, ts₁, rfl, htok₁⟩ := exists_cons_of_headType hcolon (by decide)
    obtain ⟨p₂, hexpect, _, hlooks₂⟩ := hlooks₁.expectToken htok₁
    have hcarry₁ : tok₁.carry carried = carried :=
      tok₁.carry_of_type_ne (by rw [htok₁]; decide) carried
    rw [hcarry₁] at hlooks₂
    have hbody := memoryBody_available (m := m) haccept hexpect
    rw [if_pos rfl, hlooks₂.expectToken_ne (headType_ne_integer ts₁), ok_bind] at hbody
    rw [if_pos hcolon]
    refine ⟨{ p₂ with isParsing := false }, 2, ⟨rfl, hlooks₂.value_eq⟩, fun fuel => ?_⟩
    rw [memoryLoop_next hparsing hbody, memoryLoop_stop rfl, hlooks₂.value_eq]
    rfl
  · have hbody := memoryBody_available (m := m) haccept (hlooks₁.expectToken_ne hcolon)
    rw [if_neg Bool.false_ne_true] at hbody
    rw [if_neg hcolon]
    refine ⟨{ p₁ with isParsing := false }, 2, ⟨rfl, hlooks₁.value_eq⟩, fun fuel => ?_⟩
    rw [memoryLoop_next hparsing hbody, memoryLoop_stop rfl]
    rfl

/-- **The loop of `parse_memory_free_space`**. -/
theorem memoryLoop_tokens {s : MemoryLoop} (hparsing : s.parser.isParsing = true)
    (hlooks : Looks rest carried ts s.parser.tokenizer) :
    MemoryLoopEnds m rest (memoryTokenRun carried ts) s := by
  cases ts with
  | nil => exact memoryLoop_nil hparsing hlooks
  | cons tok ts =>
    by_cases havailable : tok.type = .tokenMemAvailable
    · exact memoryLoop_available hparsing havailable hlooks
    · have hend : headType (tok :: ts) ≠ .tokenEnd := Token.type_ne (by decide)
      have hbody := memoryBody_other (m := m) (s := s) (by rw [hlooks.type_eq]; exact havailable)
      rw [hlooks.acceptToken_ne hend, ok_bind, if_neg Bool.false_ne_true] at hbody
      rw [memoryTokenRun, if_neg havailable]
      -- any other token stays
      exact ⟨s.parser, 0, hparsing, fun fuel => whileLoop_stuck hparsing hbody⟩

/-- The run of `parse_memory_free_space` for a buffer. -/
def memoryRun (carried : Option Nat) (buffer : Bytes) : TokenRun :=
  memoryTokenRun carried (tokens (cStr buffer))

/-- **`parse_memory_free_space` on a buffer**. -/
theorem parseMemoryFreeSpace_tokens {buffer : Bytes} (h0 : 0 ∈ buffer) {p : Parser}
    (hptr : p.tokenizer.ptr = buffer) (hparsing : p.isParsing = true) (status : MemoryStatus) :
    ∃ p', (memoryRun p.tokenizer.value buffer).EndsAt (behindText buffer) p' ∧
      ComesTo .outOfFuel (fun fuel => parseMemoryFreeSpace m fuel p status)
        ((memoryRun p.tokenizer.value buffer).ending.conclude p' >>= fun _ =>
          .ok { status with availableRam :=
            ((memoryRun p.tokenizer.value buffer).value m 0).toInt64.toUInt64 * 1024 }) := by
  obtain ⟨p₁, hstart, hparsing₁, hlooks⟩ := start_looks h0 hptr
  obtain ⟨p', n, hends, hloop⟩ := memoryLoop_tokens (m := m) (s := ⟨p₁, 0⟩)
    (hparsing₁.trans hparsing) hlooks
  refine ⟨p', hends, ?_⟩
  have hcomes := (whileLoop_comesTo hloop).bind fun s =>
    .ok { status with availableRam := s.value.toInt64.toUInt64 * 1024 }
  simp only [bind_assoc, ok_bind] at hcomes
  have hrun : ∀ fuel, parseMemoryFreeSpace m fuel p status =
      memoryLoop m fuel ⟨p₁, 0⟩ >>= fun s =>
        .ok { status with availableRam := s.value.toInt64.toUInt64 * 1024 } := by
    intro fuel
    rw [parseMemoryFreeSpace, hstart, ok_bind]
    rfl
  simp only [hrun]
  exact hcomes

theorem parseMemoryFreeSpace_idle {buffer : Bytes} (h0 : 0 ∈ buffer) {p : Parser}
    (hptr : p.tokenizer.ptr = buffer) (hparsing : p.isParsing = false) (status : MemoryStatus) :
    ComesTo .outOfFuel (fun fuel => parseMemoryFreeSpace m fuel p status)
      (.ok { status with availableRam := 0 }) := by
  obtain ⟨p₁, hstart, hparsing₁, _⟩ := start_looks h0 hptr
  have hzero : (0 : Int32).toInt64.toUInt64 * 1024 = 0 := by decide
  refine .const (fun fuel => ?_) ?_
  · -- the loop is not entered
    rw [parseMemoryFreeSpace, hstart, ok_bind, memoryLoop_stop (hparsing₁.trans hparsing), ok_bind,
      hzero]
    rfl
  · rw [parseMemoryFreeSpace, hstart]
    rfl

end Guthi
