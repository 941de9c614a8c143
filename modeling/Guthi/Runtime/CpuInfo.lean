import Guthi.Lib.Loop
import Guthi.Runtime.Tokenizer

/-!
# Guthi — the parsers of the system information

`getToken`, `acceptToken`, `expectToken` and the three loops of `runtime/parser_cpuinfo.cpp`:
`parse_cpu_info`, `parse_maximum_cpu_hz` and `parse_memory_free_space`, with the records of
`runtime/sys_info.h` that they fill.

The loops look one token ahead. A token that no branch accepts stays, so the loop goes on for
ever; the model gives up with `outOfFuel` then.
-/

namespace Guthi

/-! ## The records -/

/-- The memory of the machine in bytes, and the part of it in use in percent. -/
structure MemoryStatus where
  installedPhysicalRam : UInt64 := 0
  availableRam : UInt64 := 0
  memoryLoad : UInt64 := 0
deriving DecidableEq, Repr

/-- One processor, with its frequencies in MHz. -/
structure ProcessorInfo where
  processorNumber : UInt32 := 0
  currentMhz : UInt32 := 0
  totalMhz : UInt32 := 0
deriving DecidableEq, Repr

/-- `ProcessorStatus processor_status = {0}`. -/
structure ProcessorStatus where
  processorCount : UInt32 := 0
  processors : Vector ProcessorInfo 64 := Vector.replicate 64 {}
deriving DecidableEq

/-- The conversion from `double` to `int`. The language leaves it undefined for a number that is
out of range and for a variable that holds none yet; a machine makes some `int` of them. -/
structure Machine where
  toInt : Option Nat → Int32
  toInt_of_lt : ∀ n, n < 2 ^ 31 → toInt (some n) = Int32.ofNat n

/-! ## One token ahead -/

/-- The state of a parser of runtime/sys_info.cpp: its tokenizer, and whether it goes on. -/
structure Parser where
  tokenizer : Tokenizer
  isParsing : Bool
deriving DecidableEq, Repr

namespace Parser

/-- `getToken(parser)`, which returns what it puts in `is_parsing`. -/
def getToken (p : Parser) : Except ParserFault Parser := do
  let tokenizer ← tokenize p.tokenizer
  return { tokenizer, isParsing := true }

/-- `acceptToken(parser, type)`; no caller asks for the type back. -/
def acceptToken (p : Parser) (type : TokenType) : Except ParserFault (Bool × Parser) :=
  if p.tokenizer.type = type then do
    let p' ← p.getToken
    return (p'.isParsing, p')
  else .ok (false, p)

/-- `expect_token`: a token of another type ends the parsing. -/
def expectToken (p : Parser) (type : TokenType) : Except ParserFault (Bool × Parser) := do
  let (accepted, p') ← p.acceptToken type
  if accepted then return (true, p') else return (false, { p' with isParsing := false })

/-- `tokenize(&parser->tokenizer)` at the beginning of each parser: unlike `getToken` it leaves
`is_parsing` alone. -/
def start (p : Parser) : Except ParserFault Parser := do
  let tokenizer ← tokenize p.tokenizer
  return { p with tokenizer }

variable {p : Parser} {type : TokenType}

/-- `getToken` is the tokenizer run from where it stands. -/
theorem getToken_of_finds {t : Tokenizer} (h : Finds p.tokenizer p.tokenizer.ptr t) :
    p.getToken = .ok { tokenizer := t, isParsing := true } := by
  rw [getToken, tokenize, finds_iff.mp h]
  rfl

/-- What `getToken` returns was found by the tokenizer. -/
theorem finds_of_getToken {p' : Parser} (h : p.getToken = .ok p') :
    Finds p.tokenizer p.tokenizer.ptr p'.tokenizer ∧ p'.isParsing = true := by
  unfold getToken tokenize at h
  obtain ⟨t, hfound, hp'⟩ := bind_eq_ok.mp h
  cases hp'
  exact ⟨finds_iff.mpr hfound, rfl⟩

/-- The first token of a parser is found like any other. -/
theorem finds_of_start {p' : Parser} (h : p.start = .ok p') :
    Finds p.tokenizer p.tokenizer.ptr p'.tokenizer ∧ p'.isParsing = p.isParsing := by
  unfold start tokenize at h
  obtain ⟨t, hfound, hp'⟩ := bind_eq_ok.mp h
  cases hp'
  exact ⟨finds_iff.mpr hfound, rfl⟩

/-- Reading a token fails only behind the buffer. -/
theorem getToken_error {e : ParserFault} (h : p.getToken = .error e) : e = .outOfBounds := by
  unfold getToken tokenize at h
  rcases bind_eq_error.mp h with hfound | ⟨t, _, ht⟩
  · exact tokenizeFrom_error hfound
  · cases ht

/-- A token of the expected type is consumed. -/
theorem acceptToken_of_eq (h : p.tokenizer.type = type) :
    p.acceptToken type = p.getToken >>= fun p' => .ok (true, p') := by
  rw [acceptToken, if_pos h, getToken]
  cases tokenize p.tokenizer <;> rfl

/-- A token of another type stays. -/
theorem acceptToken_of_ne (h : p.tokenizer.type ≠ type) : p.acceptToken type = .ok (false, p) :=
  if_neg h

/-- A token of the expected type is consumed. -/
theorem expectToken_of_eq (h : p.tokenizer.type = type) :
    p.expectToken type = p.getToken >>= fun p' => .ok (true, p') := by
  rw [expectToken, acceptToken_of_eq h]
  cases p.getToken <;> rfl

/-- A token of another type stays, and the parsing ends. -/
theorem expectToken_of_ne (h : p.tokenizer.type ≠ type) :
    p.expectToken type = .ok (false, { p with isParsing := false }) := by
  rw [expectToken, acceptToken_of_ne h]
  rfl

/-- The branches that the first two loops share: an identifier, a colon or a number is skipped,
the end leaves the loop. Any other token stays where it is. -/
def acceptOther (p : Parser) : Except ParserFault (LoopStep Parser) := do
  let (isId, p) ← p.acceptToken .tokenId
  if isId then return .next p
  else
    let (isColon, p) ← p.acceptToken .tokenColon
    if isColon then return .next p
    else
      let (isNumber, p) ← p.acceptToken .tokenNumber
      if isNumber then return .next p
      else
        let (isEnd, p) ← p.acceptToken .tokenEnd
        if isEnd then return .leave p else return .next p

/-- A word, a colon or a number is skipped. -/
theorem acceptOther_of_skipped (h : p.tokenizer.type = .tokenId ∨
    p.tokenizer.type = .tokenColon ∨ p.tokenizer.type = .tokenNumber) :
    p.acceptOther = p.getToken >>= fun p' => .ok (.next p') := by
  unfold acceptOther
  -- the branches are tried in this order, each with its own type
  rcases h with h | h | h
  · rw [acceptToken_of_eq h]
    cases p.getToken <;> rfl
  · have hid : p.tokenizer.type ≠ .tokenId := by rw [h]; decide
    rw [acceptToken_of_ne hid, ok_bind]
    simp only [acceptToken_of_eq h]
    cases p.getToken <;> rfl
  · have hid : p.tokenizer.type ≠ .tokenId := by rw [h]; decide
    have hcolon : p.tokenizer.type ≠ .tokenColon := by rw [h]; decide
    rw [acceptToken_of_ne hid, ok_bind]
    simp only [acceptToken_of_ne hcolon, acceptToken_of_eq h, ok_bind]
    cases p.getToken <;> rfl

/-- At the end one more token is read, and the loop is left. -/
theorem acceptOther_of_end (h : p.tokenizer.type = .tokenEnd) :
    p.acceptOther = p.getToken >>= fun p' => .ok (.leave p') := by
  have hne : ∀ type ∈ [TokenType.tokenId, .tokenColon, .tokenNumber], p.tokenizer.type ≠ type := by
    rw [h]
    decide
  unfold acceptOther
  rw [acceptToken_of_ne (hne _ (by decide)), ok_bind]
  simp only [acceptToken_of_ne (hne .tokenColon (by decide)),
    acceptToken_of_ne (hne .tokenNumber (by decide)), acceptToken_of_eq h, ok_bind]
  cases p.getToken <;> rfl

theorem acceptOther_of_stuck (h : ∀ type ∈ [TokenType.tokenId, .tokenColon, .tokenNumber,
    .tokenEnd], p.tokenizer.type ≠ type) : p.acceptOther = .ok (.next p) := by
  unfold acceptOther
  rw [acceptToken_of_ne (h .tokenId (by decide)), ok_bind]
  simp only [acceptToken_of_ne (h .tokenColon (by decide)),
    acceptToken_of_ne (h .tokenNumber (by decide)), acceptToken_of_ne (h .tokenEnd (by decide)),
    ok_bind, Bool.false_eq_true, if_false]
  rfl

/-- What the branches do: a token is skipped, or it is the end, or it stays. -/
theorem acceptOther_cases (p : Parser) :
    ((p.tokenizer.type = .tokenId ∨ p.tokenizer.type = .tokenColon ∨
        p.tokenizer.type = .tokenNumber) ∧
      p.acceptOther = p.getToken >>= fun p' => .ok (.next p')) ∨
    (p.tokenizer.type = .tokenEnd ∧ p.acceptOther = p.getToken >>= fun p' => .ok (.leave p')) ∨
    p.acceptOther = .ok (.next p) := by
  -- as the branches are tried: the three skipped types first, then the end
  by_cases hskip : p.tokenizer.type = .tokenId ∨ p.tokenizer.type = .tokenColon ∨
      p.tokenizer.type = .tokenNumber
  · exact Or.inl ⟨hskip, acceptOther_of_skipped hskip⟩
  · rw [not_or, not_or] at hskip
    by_cases hend : p.tokenizer.type = .tokenEnd
    · exact Or.inr (Or.inl ⟨hend, acceptOther_of_end hend⟩)
    · refine Or.inr (Or.inr (acceptOther_of_stuck ?_))
      simpa using ⟨hskip.1, hskip.2.1, hskip.2.2, hend⟩

end Parser

/-! ## `parse_cpu_info` -/

namespace ProcessorStatus

/-- The three assignments for one processor. -/
def record (status : ProcessorStatus) (index : Nat) (mhzValue : Int32) :
    Except ParserFault ProcessorStatus :=
  if h : index < 64 then
    .ok { processorCount := status.processorCount + 1,
          processors := status.processors.set index
            { status.processors[index] with processorNumber := UInt32.ofNat index,
                                            currentMhz := mhzValue.toUInt32 } }
  else .error .outOfRecords

/-- The status reports processors with these frequencies, in this order. -/
def Recorded (mhz : List Nat) (status : ProcessorStatus) : Prop :=
  status.processorCount = UInt32.ofNat mhz.length ∧
    ∀ i v, mhz[i]? = some v → ∃ info, status.processors[i]? = some info ∧
      info.processorNumber = UInt32.ofNat i ∧ info.currentMhz = UInt32.ofNat v

/-- Nothing is recorded at first. -/
theorem recorded_nil : Recorded [] {} := ⟨rfl, fun _ _ h => (nomatch h)⟩

theorem Recorded.record {mhz : List Nat} {status : ProcessorStatus} (h : Recorded mhz status)
    (hlt : mhz.length < 64) (v : Nat) : ∃ status',
      status.record mhz.length (Int32.ofNat v) = .ok status' ∧ Recorded (mhz ++ [v]) status' := by
  refine ⟨_, dif_pos hlt, ?_, fun i w hw => ?_⟩
  · show status.processorCount + 1 = _
    rw [h.1, List.length_append, List.length_singleton, UInt32.ofNat_add]
    rfl
  · show ∃ info, (status.processors.set mhz.length _ hlt)[i]? = some info ∧ _
    -- in front of the new record, at it, or behind it
    rcases Nat.lt_trichotomy i mhz.length with hi | rfl | hi
    · rw [Vector.getElem?_set_ne _ (by omega)]
      rw [List.getElem?_append_left hi] at hw
      exact h.2 i w hw
    · rw [Vector.getElem?_set_self]
      obtain rfl : v = w := by simpa using hw
      exact ⟨_, rfl, rfl, rfl⟩
    · rw [List.getElem?_eq_none (by simpa using hi)] at hw
      cases hw

end ProcessorStatus

/-- The variables of `parse_cpu_info`. -/
structure CpuLoop where
  parser : Parser
  status : ProcessorStatus
  index : Nat

/-- The branch behind `TOKEN_CPU`. -/
def cpuReading (m : Machine) (s : CpuLoop) (p : Parser) : Except ParserFault CpuLoop := do
  let (isMhz, p) ← p.acceptToken .tokenMhz
  if isMhz then
    let (isColon, p) ← p.expectToken .tokenColon
    if isColon then
      let mhzValue := m.toInt p.tokenizer.value
      let (isNumber, p) ← p.expectToken .tokenNumber
      if isNumber then
        let status ← s.status.record s.index mhzValue
        return { parser := p, status, index := s.index + 1 }
      else return { s with parser := p }
    else return { s with parser := p }
  else return { s with parser := p }

/-- A round of the loop of `parse_cpu_info`. -/
def cpuInfoBody (m : Machine) (s : CpuLoop) : Except ParserFault (LoopStep CpuLoop) := do
  let (isCpu, p) ← s.parser.acceptToken .tokenCpu
  if isCpu then
    let s ← cpuReading m s p
    return .next s
  else
    let step ← p.acceptOther
    return step.map fun p => { s with parser := p }

/-- The loop of `parse_cpu_info`. -/
def cpuInfoLoop (m : Machine) (fuel : Nat) (s : CpuLoop) : Except ParserFault CpuLoop :=
  whileLoop .outOfFuel (fun s => s.parser.isParsing) (cpuInfoBody m) fuel s

section

variable {m : Machine} {s : CpuLoop} {p₁ p₂ p₃ : Parser}

/-- At the word `cpu` a reading begins. -/
theorem cpuInfoBody_cpu (h : s.parser.tokenizer.type = .tokenCpu) :
    cpuInfoBody m s = s.parser.getToken >>= fun p =>
      cpuReading m s p >>= fun s' => .ok (.next s') := by
  rw [cpuInfoBody, Parser.acceptToken_of_eq h]
  cases s.parser.getToken <;> rfl

/-- Any other token goes to the branches that all parsers share. -/
theorem cpuInfoBody_other (h : s.parser.tokenizer.type ≠ .tokenCpu) :
    cpuInfoBody m s = s.parser.acceptOther >>= fun step =>
      .ok (step.map fun p => { s with parser := p }) := by
  rw [cpuInfoBody, Parser.acceptToken_of_ne h]
  rfl

/-- The loop is left at the end only, when one more token was read. -/
theorem cpuInfoBody_leave {s' : CpuLoop} (h : cpuInfoBody m s = .ok (.leave s')) :
    s.parser.tokenizer.type = .tokenEnd ∧ ∃ p, s.parser.getToken = .ok p := by
  by_cases hcpu : s.parser.tokenizer.type = .tokenCpu
  · rw [cpuInfoBody_cpu hcpu] at h
    obtain ⟨p, _, h⟩ := bind_eq_ok.mp h
    obtain ⟨s₁, _, h⟩ := bind_eq_ok.mp h
    cases h
  · rw [cpuInfoBody_other hcpu] at h
    obtain ⟨step, hother, hstep⟩ := bind_eq_ok.mp h
    -- only the branch of `TOKEN_END` leaves
    rcases s.parser.acceptOther_cases with ⟨_, hskip⟩ | ⟨hend, hleave⟩ | hstuck
    · rw [hskip] at hother
      obtain ⟨p, _, hp⟩ := bind_eq_ok.mp hother
      cases hp
      cases hstep
    · rw [hleave] at hother
      obtain ⟨p, hp, _⟩ := bind_eq_ok.mp hother
      exact ⟨hend, p, hp⟩
    · rw [hstuck] at hother
      cases hother
      cases hstep

theorem cpuReading_number (hmhz : p₁.tokenizer.type = .tokenMhz) (h₂ : p₁.getToken = .ok p₂)
    (hcolon : p₂.tokenizer.type = .tokenColon) (h₃ : p₂.getToken = .ok p₃)
    (hnumber : p₃.tokenizer.type = .tokenNumber) :
    cpuReading m s p₁ = p₃.getToken >>= fun p₄ =>
      s.status.record s.index (m.toInt p₃.tokenizer.value) >>= fun status =>
        .ok { parser := p₄, status, index := s.index + 1 } := by
  rw [cpuReading, Parser.acceptToken_of_eq hmhz, h₂, ok_bind, ok_bind]
  simp only [Parser.expectToken_of_eq hcolon, h₃, ok_bind, if_true,
    Parser.expectToken_of_eq hnumber]
  cases p₃.getToken <;> rfl

theorem cpuInfoLoop_next {s' : CpuLoop} (hparsing : s.parser.isParsing = true)
    (hbody : cpuInfoBody m s = .ok (.next s')) (fuel : Nat) :
    cpuInfoLoop m (fuel + 1) s = cpuInfoLoop m fuel s' := whileLoop_next hparsing hbody

/-- A round that leaves the loop is the last one. -/
theorem cpuInfoLoop_leave {s' : CpuLoop} (hparsing : s.parser.isParsing = true)
    (hbody : cpuInfoBody m s = .ok (.leave s')) (fuel : Nat) :
    cpuInfoLoop m (fuel + 1) s = .ok s' := whileLoop_leave hparsing hbody

/-- A fault in a round is one of the loop. -/
theorem cpuInfoLoop_fails {e : ParserFault} (hparsing : s.parser.isParsing = true)
    (hbody : cpuInfoBody m s = .error e) (fuel : Nat) :
    cpuInfoLoop m (fuel + 1) s = .error e := whileLoop_fails hparsing hbody

/-- When the parsing has ended, the loop is not entered. -/
theorem cpuInfoLoop_stop (hparsing : s.parser.isParsing = false) (fuel : Nat) :
    cpuInfoLoop m (fuel + 1) s = .ok s := whileLoop_stop hparsing

/-- More fuel does not change a result. -/
theorem cpuInfoLoop_mono {s' : CpuLoop} {fuel more : Nat} (hmore : fuel ≤ more)
    (h : cpuInfoLoop m fuel s = .ok s') : cpuInfoLoop m more s = .ok s' :=
  whileLoop_mono (by simp) hmore h

/-- A round at the word `cpu`, with the rest of the loop. -/
theorem cpuInfoLoop_cpu (hparsing : s.parser.isParsing = true)
    (h : s.parser.tokenizer.type = .tokenCpu) (fuel : Nat) :
    cpuInfoLoop m (fuel + 1) s = s.parser.getToken >>= fun p =>
      cpuReading m s p >>= cpuInfoLoop m fuel := by
  rw [cpuInfoLoop, whileLoop, if_pos hparsing, cpuInfoBody_cpu h]
  cases s.parser.getToken with
  | error e => rfl
  | ok p =>
    rw [ok_bind, ok_bind]
    cases cpuReading m s p <;> rfl

end

/-- `parse_cpu_info`. -/
def parseCpuInfo (m : Machine) (fuel : Nat) (p : Parser) (status : ProcessorStatus) :
    Except ParserFault (Parser × ProcessorStatus) := do
  let p ← p.start
  let s ← cpuInfoLoop m fuel { parser := p, status, index := 0 }
  return (s.parser, s.status)

/-- More fuel does not change a result. -/
theorem parseCpuInfo_mono {m : Machine} {p : Parser} {status : ProcessorStatus}
    {x : Parser × ProcessorStatus} {fuel more : Nat} (hmore : fuel ≤ more)
    (h : parseCpuInfo m fuel p status = .ok x) : parseCpuInfo m more p status = .ok x := by
  obtain ⟨p', hstart, h⟩ := bind_eq_ok.mp h
  obtain ⟨s, hloop, hx⟩ := bind_eq_ok.mp h
  rw [parseCpuInfo, hstart, ok_bind, cpuInfoLoop_mono hmore hloop]
  exact hx

/-! ## `parse_maximum_cpu_hz` -/

/-- The variables of `parse_maximum_cpu_hz`. -/
structure MaximumLoop where
  parser : Parser
  value : Int32

/-- The branch behind `TOKEN_CPU`. -/
def maximumReading (m : Machine) (s : MaximumLoop) (p : Parser) :
    Except ParserFault MaximumLoop := do
  let (isMax, p) ← p.acceptToken .tokenMax
  if isMax then
    let (isMhz, p) ← p.acceptToken .tokenMhz
    if isMhz then
      let (isColon, p) ← p.expectToken .tokenColon
      if isColon then
        -- the value is taken before the token is looked at
        let value := m.toInt p.tokenizer.value
        let (_, p) ← p.expectToken .tokenNumber
        return { parser := p, value }
      else return { s with parser := p }
    else return { s with parser := p }
  else return { s with parser := p }

/-- A round of the loop of `parse_maximum_cpu_hz`. -/
def maximumBody (m : Machine) (s : MaximumLoop) : Except ParserFault (LoopStep MaximumLoop) := do
  let (isCpu, p) ← s.parser.acceptToken .tokenCpu
  if isCpu then
    let s ← maximumReading m s p
    return .next s
  else
    let step ← p.acceptOther
    return step.map fun p => { s with parser := p }

/-- The loop of `parse_maximum_cpu_hz`. -/
def maximumLoop (m : Machine) (fuel : Nat) (s : MaximumLoop) : Except ParserFault MaximumLoop :=
  whileLoop .outOfFuel (fun s => s.parser.isParsing) (maximumBody m) fuel s

theorem maximumLoop_next {m : Machine} {s s' : MaximumLoop} (hparsing : s.parser.isParsing = true)
    (hbody : maximumBody m s = .ok (.next s')) (fuel : Nat) :
    maximumLoop m (fuel + 1) s = maximumLoop m fuel s' := whileLoop_next hparsing hbody

/-- When the parsing has ended, the loop is not entered. -/
theorem maximumLoop_stop {m : Machine} {s : MaximumLoop} (hparsing : s.parser.isParsing = false)
    (fuel : Nat) : maximumLoop m (fuel + 1) s = .ok s := whileLoop_stop hparsing

/-- The last loop: `total_mhz` of the processors that are counted. -/
def ProcessorStatus.setTotals (status : ProcessorStatus) (value : Int32) :
    Except ParserFault ProcessorStatus :=
  if status.processorCount.toNat ≤ 64 then
    .ok { status with
      processors := status.processors.mapIdx fun i info =>
        if i < status.processorCount.toNat then { info with totalMhz := value.toUInt32 } else info }
  else .error .totalsOutOfRecords

/-- Writing the totals leaves the readings as they are. -/
theorem ProcessorStatus.recorded_setTotals {mhz : List Nat} {status status' : ProcessorStatus}
    {value : Int32} (h : status.setTotals value = .ok status') :
    status'.Recorded mhz ↔ status.Recorded mhz := by
  unfold setTotals at h
  split_ifs at h
  cases h
  refine and_congr_right fun _ => forall₃_congr fun i v _ => ?_
  show (∃ info, (status.processors.mapIdx _)[i]? = some info ∧ _) ↔ _
  -- each record keeps its number and its current frequency
  rw [Vector.getElem?_mapIdx]
  cases status.processors[i]? with
  | none => simp
  | some info =>
    simp only [Option.map_some, Option.some.injEq, exists_eq_left']
    split_ifs <;> rfl

/-- Up to 64 processors are counted inside the array. -/
theorem ProcessorStatus.Recorded.exists_setTotals {mhz : List Nat} {status : ProcessorStatus}
    (h : status.Recorded mhz) (hlen : mhz.length ≤ 64) (value : Int32) :
    ∃ status', status.setTotals value = .ok status' := by
  refine ⟨_, if_pos ?_⟩
  have hsize : UInt32.size = 2 ^ 32 := rfl
  rw [h.1, UInt32.toNat_ofNat_of_lt' (by omega)]
  exact hlen

/-- `parse_maximum_cpu_hz`. -/
def parseMaximumCpuHz (m : Machine) (fuel : Nat) (p : Parser) (status : ProcessorStatus) :
    Except ParserFault (Parser × ProcessorStatus) := do
  let p ← p.start
  let s ← maximumLoop m fuel { parser := p, value := 0 }
  let status ← status.setTotals s.value
  return (s.parser, status)

/-! ## `parse_memory_free_space` -/

/-- The variables of `parse_memory_free_space`. -/
structure MemoryLoop where
  parser : Parser
  value : Int32

/-- A round of the loop of `parse_memory_free_space`; no branch skips a token. -/
def memoryBody (m : Machine) (s : MemoryLoop) : Except ParserFault (LoopStep MemoryLoop) := do
  let (isAvailable, p) ← s.parser.acceptToken .tokenMemAvailable
  if isAvailable then
    let (isColon, p) ← p.expectToken .tokenColon
    if isColon then
      let value := m.toInt p.tokenizer.value
      -- `tokenize` makes no token of this type
      let (_, p) ← p.expectToken .tokenInteger
      return .next { parser := p, value }
    else return .next { s with parser := p }
  else
    let (isEnd, p) ← p.acceptToken .tokenEnd
    if isEnd then return .leave { s with parser := p } else return .next { s with parser := p }

/-- The loop of `parse_memory_free_space`. -/
def memoryLoop (m : Machine) (fuel : Nat) (s : MemoryLoop) : Except ParserFault MemoryLoop :=
  whileLoop .outOfFuel (fun s => s.parser.isParsing) (memoryBody m) fuel s

theorem memoryLoop_next {m : Machine} {s s' : MemoryLoop} (hparsing : s.parser.isParsing = true)
    (hbody : memoryBody m s = .ok (.next s')) (fuel : Nat) :
    memoryLoop m (fuel + 1) s = memoryLoop m fuel s' := whileLoop_next hparsing hbody

/-- When the parsing has ended, the loop is not entered. -/
theorem memoryLoop_stop {m : Machine} {s : MemoryLoop} (hparsing : s.parser.isParsing = false)
    (fuel : Nat) : memoryLoop m (fuel + 1) s = .ok s := whileLoop_stop hparsing

/-- `parse_memory_free_space`: the value is in kB. -/
def parseMemoryFreeSpace (m : Machine) (fuel : Nat) (p : Parser) (status : MemoryStatus) :
    Except ParserFault MemoryStatus := do
  let p ← p.start
  let s ← memoryLoop m fuel { parser := p, value := 0 }
  return { status with availableRam := s.value.toInt64.toUInt64 * 1024 }

/-- More fuel does not change a result. -/
theorem parseMemoryFreeSpace_mono {m : Machine} {p : Parser} {status x : MemoryStatus}
    {fuel more : Nat} (hmore : fuel ≤ more)
    (h : parseMemoryFreeSpace m fuel p status = .ok x) :
    parseMemoryFreeSpace m more p status = .ok x := by
  obtain ⟨p', hstart, h⟩ := bind_eq_ok.mp h
  obtain ⟨s, hloop, hx⟩ := bind_eq_ok.mp h
  have hmore' : memoryLoop m more ⟨p', 0⟩ = .ok s := whileLoop_mono (by simp) hmore hloop
  rw [parseMemoryFreeSpace, hstart, ok_bind, hmore']
  exact hx

end Guthi
