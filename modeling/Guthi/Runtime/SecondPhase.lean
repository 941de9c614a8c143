import Guthi.Runtime.Returns

/-!
# Guthi — the second phase of `GetSystemInfo`

`parse_maximum_cpu_hz` runs on the parser that `parse_cpu_info` has left: whether it is to go on,
and the number read last, are those of the first phase.

* `parseCpuInfo_leaves` — what the first phase leaves behind;
* `assigned_parsing`, `assigned_stopped` — what the second one makes of it;
* `totals_same_iff` — when it makes the same of two contents.
-/

namespace Guthi

variable {m : Machine}

/-! ## The number read last -/

/-- The number that the parser carries behind the tokens. -/
def lastNumber (carried : Option Nat) (ts : List Token) : Option Nat :=
  ts.foldl Token.carry carried

/-- A token replaces the number carried, or leaves it. -/
theorem Token.carry_or (tok : Token) (carried other : Option Nat) :
    tok.carry (carried.or other) = (tok.carry carried).or other := by
  cases tok <;> rfl

/-- A number replaces whatever was carried. -/
theorem Token.carry_number {tok : Token} (h : tok.type = .tokenNumber)
    (carried other : Option Nat) : tok.carry carried = tok.carry other := by
  cases tok with
  | number digits => rfl
  | colon => cases h
  | word id => exact absurd h (idType_ne id (by decide))

/-- Outside of a reading the run goes on or is held up. -/
theorem Stage.outsideMove_cases (words : List TokenType) (tok : Token) :
    (∃ stage, outsideMove words tok = .go stage) ∨ outsideMove words tok = .stop .stuck := by
  unfold outsideMove
  split_ifs
  · exact Or.inl ⟨_, rfl⟩
  · exact Or.inl ⟨_, rfl⟩
  · exact Or.inr rfl

/-- The run goes on, reads a number, or ends before the end of the tokens. -/
theorem Stage.move_cases (words : List TokenType) (stage : Stage) (tok : Token) :
    (∃ stage', stage.move words tok = .go stage') ∨
    (stage.move words tok = .add ∧ tok.type = .tokenNumber) ∨
    ∃ ending, stage.move words tok = .stop ending ∧ ending ≠ .atEnd := by
  have houtside : (∃ stage', outsideMove words tok = .go stage') ∨
      ∃ ending, outsideMove words tok = .stop ending ∧ ending ≠ .atEnd :=
    (outsideMove_cases words tok).imp_right fun h => ⟨.stuck, h, by decide⟩
  cases stage with
  | outside => exact houtside.imp_right Or.inr
  | words left =>
    cases left with
    | nil =>
      rw [Stage.move]
      split_ifs
      · exact Or.inl ⟨_, rfl⟩
      · exact Or.inr (Or.inr ⟨_, rfl, by decide⟩)
    | cons w left =>
      rw [Stage.move]
      split_ifs
      · exact Or.inl ⟨_, rfl⟩
      · exact houtside.imp_right Or.inr
  | colon =>
    rw [Stage.move]
    split_ifs with hnumber
    · exact Or.inr (Or.inl ⟨rfl, hnumber⟩)
    · exact Or.inr (Or.inr ⟨_, rfl, by decide⟩)

/-- The same run behind another number, which is carried where none is read. -/
def TokenRun.or (run : TokenRun) (other : Option Nat) : TokenRun :=
  { run with carried := run.carried.or other }

/-- A run that begins with a number carried differs from one without in nothing but that number. -/
theorem tokenRun_or (words : List TokenType) (stage : Stage) (carried other : Option Nat)
    (ts : List Token) : tokenRun words stage (carried.or other) ts =
      (tokenRun words stage carried ts).or other := by
  induction ts generalizing stage carried with
  | nil => rfl
  | cons tok ts ih =>
    have hcarry := tok.carry_or carried other
    rw [tokenRun, tokenRun, hcarry]
    -- behind a number the two runs carry the same
    rcases stage.move_cases words tok with ⟨stage', hmove⟩ | ⟨hmove, htype⟩ | ⟨ending, hmove, _⟩
    · rw [hmove]
      exact ih stage' _
    · have hnumber := tok.carry_number htype (carried.or other) carried
      rw [hcarry] at hnumber
      rw [hmove]
      show { tokenRun words .outside ((tok.carry carried).or other) ts with
        numbers := (tok.carry carried).or other ::
          (tokenRun words .outside ((tok.carry carried).or other) ts).numbers } = _
      rw [ih, hnumber]
      rfl
    · rw [hmove]
      rfl

/-- A run that comes to the end has carried along the last number of all. -/
theorem tokenRun_carried {words : List TokenType} {stage : Stage} {carried : Option Nat}
    {ts : List Token} (h : (tokenRun words stage carried ts).ending = .atEnd) :
    (tokenRun words stage carried ts).carried = lastNumber carried ts := by
  induction ts generalizing stage carried with
  | nil => rfl
  | cons tok ts ih =>
    rw [tokenRun] at h ⊢
    -- a run that stops does not come to the end
    rcases stage.move_cases words tok with ⟨stage', hmove⟩ | ⟨hmove, _⟩ | ⟨ending, hmove, hne⟩
    · rw [hmove] at h ⊢
      exact ih h
    · rw [hmove] at h ⊢
      exact ih h
    · rw [hmove] at h
      exact absurd h hne

/-! ## What the first phase leaves -/

/-- The number that is in the tokenizer once a parser has accepted the end: the last one of the
text, unless the token behind the NUL is one. -/
def leftNumber (buffer : Bytes) : Option Nat :=
  headCarry (lastNumber none (tokens (cStr buffer))) (tokens (cStr (behindText buffer)))

/-- In the first phase a reading breaks off. -/
def MissesToken (content : Bytes) : Prop :=
  BreaksOff [.tokenMhz] (tokenTypes (content ++ [0]) ++ [.tokenEnd])

/-- A run that is not held up comes to the end exactly if no reading breaks off. -/
theorem readToEnd_iff {words types : List TokenType} (h : ¬ StaysAtKeyword words types) :
    ReadToEnd words types ↔ ¬ BreaksOff words (types ++ [.tokenEnd]) := by
  refine ⟨fun hread => hread.1, fun hunbroken => ⟨hunbroken, ?_⟩⟩
  intro before type hbegins hunexpected
  refine h ⟨before, type, hbegins, hunexpected, fun hbroken => hunbroken ?_⟩
  exact hbroken.mono (hbegins.trans (List.prefix_append _ _))

/-- A run that ends at a missing token leaves a parser that is not to go on. -/
theorem TokenRun.EndsAt.missed {run : TokenRun} {rest : Bytes} {p : Parser}
    (h : run.EndsAt rest p) (hend : run.ending ≠ .atEnd) (hstuck : run.ending ≠ .stuck) :
    p.isParsing = false ∧ run.ending.conclude p = .ok p := by
  unfold EndsAt at h
  cases hending : run.ending with
  | atEnd => exact absurd hending hend
  | stuck => exact absurd hending hstuck
  | noColon =>
    rw [hending] at h
    exact ⟨h.1, rfl⟩
  | noNumber =>
    rw [hending] at h
    exact ⟨h.1, rfl⟩

theorem TokenRun.EndsAt.behind {run : TokenRun} {content : Bytes} {p q : Parser}
    (h : run.EndsAt (behindText (content ++ [0])) p) (hend : run.ending = .atEnd)
    (hq : run.ending.conclude p = .ok q) : q.isParsing = true ∧ q.tokenizer.value =
      headCarry run.carried (tokens (cStr (behindText (content ++ [0])))) := by
  unfold EndsAt at h
  rw [hend] at h hq
  obtain ⟨_, hlooks⟩ := h
  obtain ⟨hfinds, hparsing⟩ := Parser.finds_of_getToken hq
  refine ⟨hparsing, ?_⟩
  cases hlooks with
  | atEnd _ hvalue hptr =>
    rw [hptr] at hfinds
    -- without another NUL the token behind the end lies behind the buffer
    by_cases h0 : 0 ∈ content
    · rw [← cStr_append_behindText (mem_behindText_concat h0)] at hfinds
      rw [(looks_of_finds (zero_notMem_cStr _) hfinds).value_eq, hvalue]
    · rw [behindText_concat h0] at hfinds
      cases hfinds

/-- **The first phase** leaves a parser that is to go on and the last number, unless a reading
breaks off. -/
theorem parseCpuInfo_leaves {content : Bytes} {status status' : ProcessorStatus} {fuel : Nat}
    {p : Parser} (h : parseCpuInfo m fuel (.fresh (content ++ [0])) status = .ok (p, status')) :
    (p.isParsing = false ∧ MissesToken content) ∨
      (p.isParsing = true ∧ ¬ MissesToken content ∧
        p.tokenizer.value = leftNumber (content ++ [0])) := by
  have h0 : 0 ∈ content ++ [0] := by simp
  obtain ⟨p', hends, hcomes⟩ := parseCpuInfo_tokens (m := m) (p := .fresh (content ++ [0])) h0 rfl
    rfl status
  have hresult := hcomes.eq_of_ne h (nomatch ·)
  obtain ⟨status₁, _, hresult⟩ := bind_eq_ok.mp hresult.symm
  obtain ⟨q, hconclude, hq⟩ := bind_eq_ok.mp hresult
  cases hq
  have hrun := cpuInfoRun_ends none (content ++ [0])
  have hcarried : (cpuInfoRun none (content ++ [0])).ending = .atEnd →
      (cpuInfoRun none (content ++ [0])).carried =
        lastNumber none (tokens (cStr (content ++ [0]))) := tokenRun_carried
  change (cpuInfoRun none (content ++ [0])).EndsAt _ _ at hends
  change (cpuInfoRun none (content ++ [0])).ending.conclude _ = _ at hconclude
  generalize cpuInfoRun none (content ++ [0]) = run at hends hconclude hrun hcarried
  have hstuck : run.ending ≠ .stuck := by
    intro hstuck
    rw [hstuck] at hconclude
    cases hconclude
  have hread := readToEnd_iff fun hstays => hstuck (hrun.stuck.mpr hstays)
  rw [← hrun.atEnd] at hread
  -- the parse has returned, so the run was not held up
  by_cases hend : run.ending = .atEnd
  · obtain ⟨hparsing, hvalue⟩ := hends.behind hend hconclude
    rw [hcarried hend] at hvalue
    exact Or.inr ⟨hparsing, hread.mp hend, hvalue⟩
  · obtain ⟨hparsing, hmissed⟩ := hends.missed hend hstuck
    cases hconclude.symm.trans hmissed
    exact Or.inl ⟨hparsing, by_contra fun hbroken => hend (hread.mpr hbroken)⟩

/-- A parser that is to go on has missed no token. -/
theorem not_missesToken {content : Bytes} {status status' : ProcessorStatus} {fuel : Nat}
    {p : Parser} (h : parseCpuInfo m fuel (.fresh (content ++ [0])) status = .ok (p, status'))
    (hparsing : p.isParsing = true) : ¬ MissesToken content := by
  rcases parseCpuInfo_leaves h with ⟨hstop, _⟩ | ⟨_, hmisses, _⟩
  · exact absurd (hparsing.symm.trans hstop) (by decide)
  · exact hmisses

/-! ## What the second phase assigns -/

/-- `parse_maximum_cpu_hz` on the buffer of `lscpu` comes to this value for `total_mhz`. -/
def Assigned (m : Machine) (p : Parser) (buffer : Bytes) (value : Int32) : Prop :=
  ∃ fuel s, maximumRun m fuel (p.setPtr buffer) = .ok s ∧ s.value = value

/-- Where nothing has been read before. -/
def lscpuRun (lscpu : Bytes) : TokenRun := maximumCpuHzRun none (lscpu ++ [0])

/-- The second phase assigns something, if it is to begin. -/
def LscpuReturns (lscpu : Bytes) : Prop :=
  (lscpuRun lscpu).ending ≠ .stuck ∧ (0 ∈ lscpu ∨ (lscpuRun lscpu).ending ≠ .atEnd)

/-- `cpu max MHz :` is followed by no number, and there is no number in front of it. -/
def TakesLeftNumber (lscpu : Bytes) : Prop :=
  (lscpuRun lscpu).ending = .noNumber ∧ (lscpuRun lscpu).carried = none

/-- A parser that is not to go on assigns 0. -/
theorem assigned_stopped {p : Parser} (hparsing : p.isParsing = false) (lscpu : Bytes)
    (value : Int32) : Assigned m p (lscpu ++ [0]) value ↔ value = 0 := by
  have h0 : 0 ∈ lscpu ++ [0] := by simp
  obtain ⟨p', hcomes⟩ := maximumRun_idle (m := m) (p := p.setPtr (lscpu ++ [0])) h0 rfl hparsing
  constructor
  · rintro ⟨fuel, s, hs, rfl⟩
    cases hcomes.eq_of_ne hs (nomatch ·)
    rfl
  · rintro rfl
    obtain ⟨n, hn⟩ := hcomes.reaches
    exact ⟨0 + n, _, hn 0, rfl⟩

/-- The value that the second phase takes from the text, and from the number that is left. -/
def lscpuValue (m : Machine) (left : Option Nat) (lscpu : Bytes) : Int32 :=
  (maximumCpuHzRun left (lscpu ++ [0])).value m 0

/-- When the end of a run is no fault. -/
theorem TokenRun.EndsAt.exists_conclude_iff {run : TokenRun} {content : Bytes} {p : Parser}
    (h : run.EndsAt (behindText (content ++ [0])) p) : (∃ q, run.ending.conclude p = .ok q) ↔
      run.ending ≠ .stuck ∧ (0 ∈ content ∨ run.ending ≠ .atEnd) := by
  by_cases h0 : 0 ∈ content
  · rw [h.conclude_eq_ok (mem_behindText_concat h0)]
    exact (and_iff_left (Or.inl h0)).symm
  · rw [behindText_concat h0] at h
    rw [or_iff_right h0]
    constructor
    · rintro ⟨q, hq⟩
      refine ⟨fun hstuck => ?_, fun hend => ?_⟩
      · rw [hstuck] at hq
        cases hq
      · rw [h.conclude_nil.mpr hend] at hq
        cases hq
    · rintro ⟨hstuck, hend⟩
      exact ⟨p, (h.missed hend hstuck).2⟩

/-- The run on a parser that has read something before. -/
theorem maximumCpuHzRun_eq (left : Option Nat) (lscpu : Bytes) :
    maximumCpuHzRun left (lscpu ++ [0]) = (lscpuRun lscpu).or left :=
  tokenRun_or [.tokenMax, .tokenMhz] .outside none left _

/-- A parser that is to go on assigns what the run over the second output gives. -/
theorem assigned_parsing {p : Parser} (hparsing : p.isParsing = true) (lscpu : Bytes)
    (value : Int32) : Assigned m p (lscpu ++ [0]) value ↔
      LscpuReturns lscpu ∧ value = lscpuValue m p.tokenizer.value lscpu := by
  have h0 : 0 ∈ lscpu ++ [0] := by simp
  obtain ⟨p', hends, hcomes⟩ := maximumRun_tokens (m := m) (p := p.setPtr (lscpu ++ [0])) h0 rfl
    hparsing
  have hrun := maximumCpuHzRun_eq (p.setPtr (lscpu ++ [0])).tokenizer.value lscpu
  have hreturns := hends.exists_conclude_iff
  have hending : (maximumCpuHzRun (p.setPtr (lscpu ++ [0])).tokenizer.value
      (lscpu ++ [0])).ending = (lscpuRun lscpu).ending := by
    rw [hrun]
    rfl
  rw [hending] at hreturns hcomes
  constructor
  · rintro ⟨fuel, s, hs, rfl⟩
    obtain ⟨q, hq, hvalue⟩ := bind_eq_ok.mp (hcomes.eq_of_ne hs (nomatch ·)).symm
    cases hvalue
    exact ⟨hreturns.mp ⟨q, hq⟩, rfl⟩
  · rintro ⟨hlscpu, rfl⟩
    obtain ⟨q, hq⟩ := hreturns.mpr hlscpu
    obtain ⟨n, hn⟩ := hcomes.reaches
    have hresult := hn 0
    rw [hq, ok_bind] at hresult
    exact ⟨0 + n, _, hresult, rfl⟩

/-- The value of a run that begins with a number carried. -/
theorem TokenRun.value_or (run : TokenRun) (left : Option Nat) (initial : Int32) :
    (run.or left).value m initial = if run.ending = .noNumber then m.toInt (run.carried.or left)
      else run.numbers.foldl (fun _ number => m.toInt number) initial := rfl

/-- The number carried matters only if it is the one taken. -/
theorem lscpuValue_eq_iff (m : Machine) (left₁ left₂ : Option Nat) (lscpu : Bytes) :
    lscpuValue m left₁ lscpu = lscpuValue m left₂ lscpu ↔
      (TakesLeftNumber lscpu → m.toInt left₁ = m.toInt left₂) := by
  unfold lscpuValue TakesLeftNumber
  rw [maximumCpuHzRun_eq, maximumCpuHzRun_eq, TokenRun.value_or, TokenRun.value_or]
  -- only a missing number lets the old one through
  by_cases hnumber : (lscpuRun lscpu).ending = .noNumber
  · rw [if_pos hnumber, if_pos hnumber]
    cases hcarried : (lscpuRun lscpu).carried with
    | none => exact ⟨fun h _ => h, fun h => h ⟨hnumber, rfl⟩⟩
    | some number =>
      refine iff_of_true rfl fun h => ?_
      cases h.2
  · rw [if_neg hnumber, if_neg hnumber]
    exact iff_of_true rfl fun h => absurd h.1 hnumber

/-- A run that takes the old number returns. -/
theorem TakesLeftNumber.returns {lscpu : Bytes} (h : TakesLeftNumber lscpu) :
    LscpuReturns lscpu := by
  refine ⟨?_, Or.inr ?_⟩ <;> (rw [h.1]; decide)

/-! ## Two contents -/

/-- The second phase gives 0 behind the content, which does not break a reading off. -/
def GivesZero (m : Machine) (lscpu content : Bytes) : Prop :=
  LscpuReturns lscpu ∧ lscpuValue m (leftNumber (content ++ [0])) lscpu = 0

/-- Both contents break a reading off; or neither does, and where the number that is left matters,
it comes to the same; or one does, and the second phase gives 0 behind the other as well. -/
def SameTotals (m : Machine) (lscpu content₁ content₂ : Bytes) : Prop :=
  (MissesToken content₁ ∧ MissesToken content₂) ∨
  (¬ MissesToken content₁ ∧ ¬ MissesToken content₂ ∧ (TakesLeftNumber lscpu →
    m.toInt (leftNumber (content₁ ++ [0])) = m.toInt (leftNumber (content₂ ++ [0])))) ∨
  (MissesToken content₁ ∧ ¬ MissesToken content₂ ∧ GivesZero m lscpu content₂) ∨
  (¬ MissesToken content₁ ∧ MissesToken content₂ ∧ GivesZero m lscpu content₁)

/-- Another value than 0 is only assigned where the second phase begins. -/
theorem assigned_zero_iff {returns : Prop} {total : Int32} :
    (∀ value : Int32, value = 0 ↔ returns ∧ value = total) ↔ returns ∧ total = 0 := by
  constructor
  · intro h
    obtain ⟨hreturns, htotal⟩ := (h 0).mp rfl
    exact ⟨hreturns, htotal.symm⟩
  · rintro ⟨hreturns, rfl⟩ value
    exact (and_iff_right hreturns).symm

/-- Two parsers that are to go on assign the same, up to the number they carry. -/
theorem assigned_same_iff (m : Machine) (left₁ left₂ : Option Nat) (lscpu : Bytes) :
    (∀ value, LscpuReturns lscpu ∧ value = lscpuValue m left₁ lscpu ↔
      LscpuReturns lscpu ∧ value = lscpuValue m left₂ lscpu) ↔
      (TakesLeftNumber lscpu → m.toInt left₁ = m.toInt left₂) := by
  constructor
  · intro h htakes
    have hvalue := ((h (lscpuValue m left₁ lscpu)).mp ⟨htakes.returns, rfl⟩).2
    exact (lscpuValue_eq_iff m left₁ left₂ lscpu).mp hvalue htakes
  · intro h value
    rw [(lscpuValue_eq_iff m left₁ left₂ lscpu).mpr h]

section

variable {lscpu content₁ content₂ : Bytes} {status₁ status₂ status₁' status₂' : ProcessorStatus}
  {fuel₁ fuel₂ : Nat} {p₁ p₂ : Parser}

/-- **When the second phase assigns the same** after the first one has returned on two contents. -/
theorem totals_same_iff
    (h₁ : parseCpuInfo m fuel₁ (.fresh (content₁ ++ [0])) status₁ = .ok (p₁, status₁'))
    (h₂ : parseCpuInfo m fuel₂ (.fresh (content₂ ++ [0])) status₂ = .ok (p₂, status₂')) :
    (∀ value, Assigned m p₁ (lscpu ++ [0]) value ↔ Assigned m p₂ (lscpu ++ [0]) value) ↔
      SameTotals m lscpu content₁ content₂ := by
  unfold SameTotals
  -- each content breaks a reading off, or leaves its last number
  rcases parseCpuInfo_leaves h₁ with ⟨hstop₁, hmisses₁⟩ | ⟨hgoes₁, hmisses₁, hleft₁⟩
  · rcases parseCpuInfo_leaves h₂ with ⟨hstop₂, hmisses₂⟩ | ⟨hgoes₂, hmisses₂, hleft₂⟩
    · simp only [assigned_stopped hstop₁, assigned_stopped hstop₂, implies_true, hmisses₁, hmisses₂,
        and_self, true_or]
    · simp only [assigned_stopped hstop₁, assigned_parsing hgoes₂, hleft₂, hmisses₁, hmisses₂,
        and_false, not_true_eq_false, not_false_eq_true, false_and, true_and, false_or, or_false]
      exact assigned_zero_iff
  · rcases parseCpuInfo_leaves h₂ with ⟨hstop₂, hmisses₂⟩ | ⟨hgoes₂, hmisses₂, hleft₂⟩
    · simp only [assigned_parsing hgoes₁, assigned_stopped hstop₂, hleft₁, hmisses₁, hmisses₂,
        not_true_eq_false, not_false_eq_true, false_and, true_and, and_false, false_or]
      exact (forall_congr' fun value => Iff.comm).trans assigned_zero_iff
    · simp only [assigned_parsing hgoes₁, assigned_parsing hgoes₂, hleft₁, hleft₂, hmisses₁,
        hmisses₂, not_false_eq_true, false_and, true_and, false_or, or_false]
      exact assigned_same_iff m _ _ lscpu

end

/-- A buffer that was zeroed before the output was read. -/
def padded (output : Bytes) : Bytes := output ++ List.replicate (buffSize - output.length) 0

/-- One processor. -/
def oneLine : Bytes := padded (ascii "cpu MHz\t\t: 3000.123\n")

/-- Another one, with a different frequency and the same last number. -/
def otherLine : Bytes := padded (ascii "cpu MHz\t\t: 800.123\n")

/-- A second line without its colon. -/
def cutLine : Bytes := padded (ascii "cpu MHz\t\t: 3000.123\ncpu MHz\t\t")

/-- The second output. -/
def lscpuLine : Bytes := padded (ascii "CPU max MHz:    4000.0000\n")

/-- The first phase on a zeroed buffer: whether the parser is to go on, the number that is left, and
the processors that are counted. -/
def firstPhase (content : Bytes) : Except ParserFault (Bool × Option Nat × UInt32) :=
  (parseCpuInfo lowestInt 5 (.fresh (content ++ [0])) {}).map fun x =>
    (x.1.isParsing, x.1.tokenizer.value, x.2.processorCount)

/-- The parse behind the values of the first phase. -/
theorem exists_of_firstPhase {content : Bytes} {parsing : Bool} {left : Option Nat} {count : UInt32}
    (h : firstPhase content = .ok (parsing, left, count)) : ∃ p status,
      parseCpuInfo lowestInt 5 (.fresh (content ++ [0])) {} = .ok (p, status) ∧
        p.isParsing = parsing ∧ p.tokenizer.value = left ∧ status.processorCount = count := by
  unfold firstPhase at h
  cases hparse : parseCpuInfo lowestInt 5 (.fresh (content ++ [0])) {} with
  | error e =>
    rw [hparse] at h
    cases h
  | ok x =>
    rw [hparse] at h
    cases h
    exact ⟨x.1, x.2, rfl, rfl, rfl, rfl⟩

/-- The theorem at the two contents. -/
theorem totals_same_lines : ∃ p₁ p₂ status₁ status₂,
    parseCpuInfo lowestInt 5 (.fresh (oneLine ++ [0])) {} = .ok (p₁, status₁) ∧
    parseCpuInfo lowestInt 5 (.fresh (otherLine ++ [0])) {} = .ok (p₂, status₂) ∧
    ∀ value, Assigned lowestInt p₁ (lscpuLine ++ [0]) value ↔
      Assigned lowestInt p₂ (lscpuLine ++ [0]) value := by
  have hone : firstPhase oneLine = .ok (true, some 123, 1) := by decide +kernel
  have hother : firstPhase otherLine = .ok (true, some 123, 1) := by decide +kernel
  obtain ⟨p₁, status₁, h₁, hgoes₁, _⟩ := exists_of_firstPhase hone
  obtain ⟨p₂, status₂, h₂, hgoes₂, _⟩ := exists_of_firstPhase hother
  refine ⟨p₁, p₂, status₁, status₂, h₁, h₂, (totals_same_iff h₁ h₂).mpr ?_⟩
  refine Or.inr (Or.inl ⟨not_missesToken h₁ hgoes₁, not_missesToken h₂ hgoes₂, fun htakes => ?_⟩)
  have hnumber : (lscpuRun lscpuLine).ending ≠ .noNumber := by decide +kernel
  exact absurd htakes.1 hnumber

/-- The line that is cut off makes 0 of the maximum frequency. -/
theorem totals_differ : ∃ p₁ p₂ status₁ status₂,
    parseCpuInfo lowestInt 5 (.fresh (oneLine ++ [0])) {} = .ok (p₁, status₁) ∧
    parseCpuInfo lowestInt 5 (.fresh (cutLine ++ [0])) {} = .ok (p₂, status₂) ∧
    status₁.processorCount = 1 ∧ status₂.processorCount = 1 ∧
    Assigned lowestInt p₁ (lscpuLine ++ [0]) 4000 ∧
    ¬ Assigned lowestInt p₂ (lscpuLine ++ [0]) 4000 := by
  have hone : firstPhase oneLine = .ok (true, some 123, 1) := by decide +kernel
  have hcut : firstPhase cutLine = .ok (false, some 123, 1) := by decide +kernel
  obtain ⟨p₁, status₁, h₁, hgoes, hleft, hcount₁⟩ := exists_of_firstPhase hone
  obtain ⟨p₂, status₂, h₂, hstop, _, hcount₂⟩ := exists_of_firstPhase hcut
  have hreturns : LscpuReturns lscpuLine := ⟨by decide +kernel, Or.inl (by decide +kernel)⟩
  -- what `lscpu` says, if the second phase begins
  have hvalue : lscpuValue lowestInt (some 123) lscpuLine = 4000 := by decide +kernel
  refine ⟨p₁, p₂, status₁, status₂, h₁, h₂, hcount₁, hcount₂, ?_, ?_⟩
  · rw [assigned_parsing hgoes, hleft]
    exact ⟨hreturns, hvalue.symm⟩
  · rw [assigned_stopped hstop]
    decide

end Guthi
