import Guthi.Runtime.CpuLines
import Guthi.Runtime.ParserRelation

/-!
# Guthi — the last line of a full buffer

What `parse_cpu_info` makes of a buffer that the lines have filled to the end: the last line may
be cut off, and behind it is the last character of the buffer.

* `cpuInfoLoop_numberFree` — without a number no processor is added;
* `cpuInfoLoop_atQuietEnd` — a loop that comes to the end of the buffer reads over it;
* `cpuInfoLoop_cutOff` — so a cut-off line adds no processor to a result.
-/

namespace Guthi

variable {m : Machine}

/-! ## Without a number -/

/-- No number is at hand or ahead. -/
def NumberFree (p : Parser) : Prop :=
  p.tokenizer.type ≠ .tokenNumber ∧ ∀ c ∈ p.tokenizer.ptr, isNum c = false

namespace NumberFree

variable {p : Parser}

theorem relation : ParserRelation (fun p q => q = p ∧ NumberFree p) (fun _ => False) := by
  refine .of_invariant (fun p p' hp h => ?_) fun p hp => ⟨hp.1, hp.2⟩
  have hfinds := (Parser.finds_of_getToken h).1
  exact ⟨hfinds.type_ne_number hp.2, fun c hc => hp.2 c (hfinds.suffix.subset hc)⟩

theorem acceptToken (hp : NumberFree p) (type : TokenType) :
    Outcome (fun x => NumberFree x.2) (fun _ => True) (p.acceptToken type) :=
  (relation.acceptToken ⟨rfl, hp⟩ type).outcome fun _ _ h => h.2.2

theorem expectToken (hp : NumberFree p) (type : TokenType) :
    Outcome (fun x => NumberFree x.2) (fun _ => True) (p.expectToken type) :=
  (relation.expectToken ⟨rfl, hp⟩ type).outcome fun _ _ h => h.2.2

theorem acceptOther (hp : NumberFree p) :
    Outcome (LoopStep.Keeps NumberFree fun _ => True) (fun _ => True) p.acceptOther := by
  refine (relation.acceptOther ⟨rfl, hp⟩).outcome fun step step' h => ?_
  cases step with
  | next p' =>
    cases step' with
    | next q' => exact h.2
    | leave q' => exact h.elim
  | leave p' => trivial

theorem cpuReading (hp : NumberFree p) (s : CpuLoop) :
    Outcome (fun s' => NumberFree s'.parser ∧ s'.status = s.status) (fun _ => True)
      (cpuReading m s p) := by
  -- `cpu`, then `MHz`, then a colon, then a number
  unfold Guthi.cpuReading
  refine (hp.acceptToken .tokenMhz).bind fun ⟨isMhz, p⟩ _ hp => ?_
  cases isMhz with
  | false => exact ⟨hp, rfl⟩
  | true =>
    refine (hp.expectToken .tokenColon).bind fun ⟨isColon, p⟩ _ hp => ?_
    cases isColon with
    | false => exact ⟨hp, rfl⟩
    | true =>
      -- the token is no number, so none is expected with success
      have hnumber := Parser.expectToken_of_ne hp.1
      simp only [if_true, hnumber, ok_bind, Bool.false_eq_true, if_false]
      exact ⟨⟨hp.1, hp.2⟩, rfl⟩

end NumberFree

/-- Without a number no processor is recorded. -/
theorem cpuInfoLoop_numberFree {s : CpuLoop} (hs : NumberFree s.parser) (fuel : Nat) :
    Outcome (fun s' => s'.status = s.status) (fun _ => True) (cpuInfoLoop m fuel s) := by
  refine whileLoop_outcome (I := fun s' : CpuLoop => NumberFree s'.parser ∧ s'.status = s.status)
    (fun s' hs' _ => ?_) (fun s' hs' _ => hs'.2) trivial fuel ⟨hs, rfl⟩
  -- the invariant: no number ahead, and the status as it was
  unfold cpuInfoBody
  refine (hs'.1.acceptToken .tokenCpu).bind fun ⟨isCpu, p⟩ _ hp => ?_
  cases isCpu with
  | true => exact (hp.cpuReading s').bind fun s'' _ hs'' => ⟨hs''.1, hs''.2.trans hs'.2⟩
  | false =>
    refine hp.acceptOther.bind fun step _ hstep => ?_
    cases step with
    | next p' => exact ⟨hstep, hs'.2⟩
    | leave p' => exact hs'.2

/-! ## At the end of the buffer -/

theorem AtQuietEnd.getToken {p : Parser} (hp : AtQuietEnd p.tokenizer) :
    Outcome (fun p' => p'.isParsing = true ∧ AtQuietEnd p'.tokenizer) (fun _ => True)
      p.getToken := by
  cases h : p.getToken with
  | error e => trivial
  | ok p' =>
    obtain ⟨hfinds, hparsing⟩ := Parser.finds_of_getToken h
    -- a number at hand, or the end
    rcases hp with ⟨_, text, hquiet, hptr⟩ | ⟨_, hptr⟩
    · rw [hptr] at hfinds
      exact ⟨hparsing, hfinds.atQuietEnd hquiet⟩
    · rw [hptr] at hfinds
      cases hfinds

/-- Nothing but numbers is ahead, and then the last character of the buffer: the loop does not
end with a result. -/
theorem cpuInfoLoop_atQuietEnd {s : CpuLoop} (hparsing : s.parser.isParsing = true)
    (hs : AtQuietEnd s.parser.tokenizer) (fuel : Nat) :
    Outcome (fun _ => False) (fun _ => True) (cpuInfoLoop m fuel s) := by
  refine whileLoop_outcome
    (I := fun s' : CpuLoop => s'.parser.isParsing = true ∧ AtQuietEnd s'.parser.tokenizer)
    (fun s' hs' _ => ?_) (fun s' hs' hstop => ?_) trivial fuel ⟨hparsing, hs⟩
  · have hne : s'.parser.tokenizer.type ≠ .tokenCpu := by
      rcases hs'.2 with ⟨htype, _⟩ | ⟨htype, _⟩ <;> (rw [htype]; decide)
    rw [cpuInfoBody_other hne]
    rcases hs'.2 with ⟨htype, _⟩ | ⟨htype, hptr⟩
    · rw [Parser.acceptOther_of_skipped (Or.inr (Or.inr htype)), bind_assoc]
      exact hs'.2.getToken.bind fun p' _ hp' => hp'
    · -- the token behind the end is not there any more
      rw [Parser.acceptOther_of_end htype, Parser.getToken, tokenize, hptr]
      trivial
  · rw [hs'.1] at hstop
    cases hstop

/-! ## A line that is cut off -/

namespace CpuReading

theorem header_numberFree (r : CpuReading) : ∀ c ∈ r.header, isNum c = false := by
  have hletters : ∀ text ∈ [ascii "cpu MHz", ascii ":"], ∀ c ∈ text, (!isNum c) = true := by
    simp only [← List.all_eq_true]
    decide
  intro c hc
  simp only [header, List.mem_append] at hc
  rcases hc with hc | hc | hc | hc
  · simpa using hletters _ (by decide) c hc
  · exact (not_skipped_of_isBlank (r.before_blank c hc)).2.2.2.1
  · simpa using hletters _ (by decide) c hc
  · exact (not_skipped_of_isBlank (r.after_blank c hc)).2.2.2.1

theorem quiet_number (r : CpuReading) : Quiet r.number := by
  have hdigit : ∀ c, isNum c = true → c ≠ 0 ∧ c ≠ Char.toUInt8 ':' ∧ isChar c = false := by
    intro c hc
    obtain ⟨hzero, _, hcolon, hchar⟩ := not_skipped_of_isNum hc
    exact ⟨hzero, hcolon, hchar⟩
  intro c hc
  simp only [number, List.mem_append] at hc
  rcases hc with hc | hc | hc | hc
  · exact hdigit c (r.mhz_num c hc)
  · obtain rfl : c = Char.toUInt8 '.' := List.mem_singleton.mp hc
    decide
  · exact hdigit c (r.frac_num c hc)
  · obtain rfl : c = Char.toUInt8 '\n' := List.mem_singleton.mp hc
    decide

end CpuReading

/-- The header, and no more than the number behind it. -/
theorem cpuInfoLoop_header (r : CpuReading) {rest : Bytes} (hquiet : Quiet rest) {p : Parser}
    (hp : StandsAt (r.header ++ (rest ++ [0])) p) (status : ProcessorStatus) (index fuel : Nat) :
    Outcome (fun s' => s'.status = status) (fun _ => True)
      (cpuInfoLoop m fuel ⟨p, status, index⟩) := by
  cases fuel with
  | zero => trivial
  | succ fuel =>
    obtain ⟨hcpu, p₁, p₂, h₁, hmhz, h₂, hcolon, hptr⟩ := header_tokens r hp
    -- the token behind the colon is the number, if any of it is left
    obtain ⟨p₃, h₃, hquiet₃⟩ : ∃ p₃, p₂.getToken = .ok p₃ ∧ AtQuietEnd p₃.tokenizer := by
      have h0 : 0 ∈ rest ++ [0] := by simp
      obtain ⟨t, ht⟩ := exists_finds h0 p₂.tokenizer
      exact ⟨_, Parser.getToken_at hptr (Finds.blanks r.after_blank ht), ht.atQuietEnd hquiet⟩
    rw [cpuInfoLoop_cpu hp.1 hcpu, h₁, ok_bind]
    by_cases hnumber : p₃.tokenizer.type = .tokenNumber
    · -- a processor is added, but the loop does not come to a result
      rw [cpuReading_number hmhz h₂ hcolon h₃ hnumber]
      refine Outcome.bind (P := fun s' => s'.parser.isParsing = true ∧
        AtQuietEnd s'.parser.tokenizer) ?_ fun s' _ hs' =>
          (cpuInfoLoop_atQuietEnd hs'.1 hs'.2 fuel).mono (fun _ h => h.elim) fun _ he => he
      refine hquiet₃.getToken.bind fun p₄ _ hp₄ => ?_
      cases status.record index (m.toInt p₃.tokenizer.value) with
      | error e => trivial
      | ok status' => exact hp₄
    · -- the loop is left with what it had
      have hreading : cpuReading m ⟨p, status, index⟩ p₁ =
          .ok ⟨{ p₃ with isParsing := false }, status, index⟩ := by
        rw [cpuReading, Parser.acceptToken_of_eq hmhz, h₂, ok_bind, ok_bind]
        simp only [Parser.expectToken_of_eq hcolon, h₃, ok_bind, if_true,
          Parser.expectToken_of_ne hnumber]
        rfl
      rw [hreading, ok_bind]
      cases fuel with
      | zero => trivial
      | succ fuel =>
        rw [cpuInfoLoop_stop rfl]
        rfl

/-- **A cut-off line** at the end of the buffer adds no processor to a result. -/
theorem cpuInfoLoop_cutOff (r : CpuReading) {part : Bytes} (hpart : part <+: r.line) {p : Parser}
    (hp : StandsAt (part ++ [0]) p) (status : ProcessorStatus) (index fuel : Nat) :
    Outcome (fun s' => s'.status = status) (fun _ => True)
      (cpuInfoLoop m fuel ⟨p, status, index⟩) := by
  -- cut off in front of the number or in it
  rcases List.prefix_or_prefix_of_prefix hpart (List.prefix_append r.header r.number) with
    hheader | ⟨rest, rfl⟩
  · have hfree : ∀ c ∈ part ++ [0], isNum c = false := by
      intro c hc
      rcases List.mem_append.mp hc with hc | hc
      · exact r.header_numberFree c (hheader.subset hc)
      · rw [List.mem_singleton.mp hc]
        decide
    obtain ⟨_, t, ht⟩ := hp
    exact cpuInfoLoop_numberFree ⟨ht.type_ne_number hfree, fun c hc =>
      hfree c (ht.suffix.subset hc)⟩ fuel
  · rw [List.append_assoc] at hp
    have hquiet : Quiet rest := fun c hc =>
      r.quiet_number c (((List.prefix_append_right_inj r.header).mp hpart).subset hc)
    exact cpuInfoLoop_header r hquiet hp status index fuel

/-! ## What `GetSystemInfo` reports -/

open CpuReading

/-- The first bytes of the lines: whole lines, and perhaps the beginning of another one. -/
theorem take_text (n : Nat) (rs : List CpuReading) : ∃ done part,
    (text rs).take n = text done ++ part ∧ ((rs = done ∧ part = []) ∨
      ∃ r todo, rs = done ++ r :: todo ∧ part <+: r.line) := by
  induction rs generalizing n with
  | nil => exact ⟨[], [], by simp [text], Or.inl ⟨rfl, rfl⟩⟩
  | cons r rs ih =>
    rw [text_cons]
    -- the cut is in this line or behind it
    rcases Nat.lt_or_ge n r.line.length with hlt | hge
    · refine ⟨[], r.line.take n, ?_, Or.inr ⟨r, rs, rfl, List.take_prefix n r.line⟩⟩
      rw [List.take_append_of_le_length (Nat.le_of_lt hlt)]
      rfl
    · obtain ⟨done, part, htake, hcases⟩ := ih (n - r.line.length)
      refine ⟨r :: done, part, ?_, ?_⟩
      · rw [List.take_append, List.take_of_length_le hge, htake, text_cons, List.append_assoc]
      · rcases hcases with ⟨rfl, rfl⟩ | ⟨r', todo, rfl, hpart⟩
        · exact Or.inl ⟨rfl, rfl⟩
        · exact Or.inr ⟨r', todo, rfl, hpart⟩

theorem exists_start (buffer : Bytes) (h0 : 0 ∈ buffer) :
    ∃ p, (Parser.fresh buffer).start = .ok p ∧ StandsAt buffer p :=
  Parser.exists_start h0 rfl rfl

/-- Lines that fit, with a NUL behind them, are all recorded. -/
theorem parseCpuInfo_of_lt {rs : List CpuReading} (hlen : rs.length ≤ 64)
    (hfits : (text rs).length < buffSize) : ∃ p status, p.isParsing = true ∧
      status.Recorded (rs.map mhzValue) ∧ ∀ fuel, parseCpuInfo m (fuel + 1 + 2 * rs.length)
        (.fresh (readBuffer zeroedMemory (text rs))) {} = .ok (p, status) := by
  obtain ⟨rest, hbuffer⟩ := readBuffer_zeroed hfits
  rw [hbuffer]
  obtain ⟨p, hstart, hp⟩ := exists_start (text rs ++ 0 :: 0 :: rest) (by simp)
  -- two steps a line
  obtain ⟨p', status, hp', hstatus, hlines⟩ := cpuInfoLoop_lines (m := m) (by simp) hp
    ProcessorStatus.recorded_nil (by simpa using hlen)
  obtain ⟨p'', hparsing, hend⟩ := cpuInfoLoop_end (m := m) hp' (by simp) status (0 + rs.length)
  refine ⟨p'', status, hparsing, hstatus, fun fuel => ?_⟩
  have hloop := (hlines (fuel + 1)).trans (hend fuel)
  rw [List.length_nil] at hloop
  rw [parseCpuInfo, hstart, ok_bind, hloop]
  rfl

/-- Lines that fill the buffer are not all recorded. -/
theorem parseCpuInfo_of_ge {rs : List CpuReading} (hlen : rs.length ≤ 64)
    (hfull : buffSize ≤ (text rs).length) (fuel : Nat) :
    Outcome (fun x => ¬ x.2.Recorded (rs.map mhzValue)) (fun _ => True)
      (parseCpuInfo m fuel (.fresh (readBuffer zeroedMemory (text rs))) {}) := by
  rw [readBuffer_full _ hfull]
  obtain ⟨done, part, htake, hcases⟩ := take_text buffSize rs
  rw [htake, List.append_assoc]
  obtain ⟨p, hstart, hp⟩ := exists_start (text done ++ (part ++ [0])) (by simp)
  -- the whole lines find their records
  have hdone : done.length ≤ 64 := by
    rcases hcases with ⟨rfl, _⟩ | ⟨r, todo, rfl, _⟩
    · exact hlen
    · rw [List.length_append] at hlen
      omega
  obtain ⟨p', status, hp', hstatus, hlines⟩ := cpuInfoLoop_lines (m := m) (by simp) hp
    ProcessorStatus.recorded_nil (by simpa using hdone)
  rw [parseCpuInfo, hstart, ok_bind]
  suffices hresult : Outcome (fun s => ¬ s.status.Recorded (rs.map mhzValue)) (fun _ => True)
      (cpuInfoLoop m fuel ⟨p, {}, 0⟩) by
    refine hresult.bind fun s _ hs => ?_
    exact hs
  -- with more fuel the loop comes to the same, and it has gone through the whole lines then
  have hloop : Outcome (fun s => ¬ s.status.Recorded (rs.map mhzValue)) (fun _ => True)
      (cpuInfoLoop m (fuel + 2 * done.length) ⟨p, {}, 0⟩) := by
    have hlines' := hlines fuel
    rw [List.length_nil] at hlines'
    rw [hlines']
    rcases hcases with ⟨rfl, rfl⟩ | ⟨r, todo, rfl, hpart⟩
    · -- the last line ends where the buffer does
      obtain ⟨hparsing, t, ht⟩ := hp'
      have hquiet : Quiet [] := fun c hc => absurd hc List.not_mem_nil
      have hend : AtQuietEnd p'.tokenizer := ht.atQuietEnd hquiet
      exact (cpuInfoLoop_atQuietEnd hparsing hend fuel).mono (fun _ h => h.elim) fun _ he => he
    · refine (cpuInfoLoop_cutOff r hpart hp' status _ fuel).mono (fun s hs hrecorded => ?_)
        fun _ he => he
      -- the count is too small
      have hcount := hrecorded.1
      rw [hs, hstatus.1] at hcount
      simp only [List.nil_append, List.length_map, List.length_append, List.length_cons] at hcount
      rw [List.length_append, List.length_cons] at hlen
      have hsize : UInt32.size = 2 ^ 32 := rfl
      have := congrArg UInt32.toNat hcount
      rw [UInt32.toNat_ofNat_of_lt' (by omega), UInt32.toNat_ofNat_of_lt' (by omega)] at this
      omega
  cases hresult : cpuInfoLoop m fuel ⟨p, {}, 0⟩ with
  | error e => trivial
  | ok s => exact hloop.of_ok (cpuInfoLoop_mono (Nat.le_add_right _ _) hresult)

/-- `parse_maximum_cpu_hz` returns for what `lscpu` has printed. -/
def MaximumReturns (m : Machine) (lscpu : Bytes) : Prop :=
  ∃ fuel s, maximumRun m fuel (.fresh (readBuffer zeroedMemory lscpu)) = .ok s

/-- `GetSystemInfo` returns, and reports the processors of the lines with their frequencies. -/
def ReportsLines (m : Machine) (rs : List CpuReading) (lscpu : Bytes) : Prop :=
  ∃ fuel status, getSystemInfo m zeroedMemory zeroedMemory (text rs) lscpu fuel = .ok status ∧
    status.Recorded (rs.map mhzValue)

theorem reportsLines_of_lt {rs : List CpuReading} {lscpu : Bytes} (hlen : rs.length ≤ 64)
    (hfits : (text rs).length < buffSize) (hmaximum : MaximumReturns m lscpu) :
    ReportsLines m rs lscpu := by
  obtain ⟨p, status, hparsing, hstatus, hcpu⟩ := parseCpuInfo_of_lt (m := m) hlen hfits
  obtain ⟨fuel, s, hs⟩ := hmaximum
  obtain ⟨s', hs', _⟩ := (maximumRun_sameTokens (p := .fresh _)
    (q := p.setPtr (readBuffer zeroedMemory lscpu)) rfl hparsing.symm fuel).of_ok hs
  have hfuel : fuel ≤ fuel + 1 + 2 * rs.length := by omega
  -- fuel for both parses
  have hmore := maximumRun_mono hfuel hs'
  obtain ⟨status', htotals⟩ := hstatus.exists_setTotals (by simpa using hlen) s'.value
  refine ⟨fuel + 1 + 2 * rs.length, status', ?_,
    (ProcessorStatus.recorded_setTotals htotals).mpr hstatus⟩
  rw [getSystemInfo, hcpu fuel, ok_bind]
  simp only [parseMaximumCpuHz_eq, hmore, ok_bind, htotals]
  rfl

/-- The two parses of a `GetSystemInfo` that returns. -/
theorem getSystemInfo_eq_ok {leftover₁ leftover₂ : Leftover} {cpuInfo lscpu : Bytes} {fuel : Nat}
    {status : ProcessorStatus}
    (h : getSystemInfo m leftover₁ leftover₂ cpuInfo lscpu fuel = .ok status) :
    ∃ p status₁ s, parseCpuInfo m fuel (.fresh (readBuffer leftover₁ cpuInfo)) {} =
        .ok (p, status₁) ∧
      maximumRun m fuel (p.setPtr (readBuffer leftover₂ lscpu)) = .ok s ∧
      status₁.setTotals s.value = .ok status := by
  obtain ⟨⟨p, status₁⟩, hcpu, h⟩ := bind_eq_ok.mp h
  obtain ⟨⟨q, status'⟩, hparse, hstatus⟩ := bind_eq_ok.mp h
  cases hstatus
  rw [parseMaximumCpuHz_eq] at hparse
  obtain ⟨s, hmaximum, h⟩ := bind_eq_ok.mp hparse
  obtain ⟨_, htotals, hq⟩ := bind_eq_ok.mp h
  cases hq
  exact ⟨p, status₁, s, hcpu, hmaximum, htotals⟩

/-- Lines that fill the buffer are not reported. -/
theorem not_reportsLines_of_ge {rs : List CpuReading} {lscpu : Bytes} (hlen : rs.length ≤ 64)
    (hfull : buffSize ≤ (text rs).length) : ¬ ReportsLines m rs lscpu := by
  rintro ⟨fuel, status, hrun, hstatus⟩
  obtain ⟨p, status₁, s, hcpu, _, htotals⟩ := getSystemInfo_eq_ok hrun
  exact (parseCpuInfo_of_ge hlen hfull fuel).of_ok hcpu
    ((ProcessorStatus.recorded_setTotals htotals).mp hstatus)

/-- **The processors that are reported.** For at most 64 lines, whatever the width of the numbers,
`GetSystemInfo` on zeroed memory reports each processor with its frequency exactly if the lines
leave room for a NUL in front of the last character of the buffer, and the parse of what `lscpu`
prints returns. -/
theorem reportsLines_iff {rs : List CpuReading} {lscpu : Bytes} (hlen : rs.length ≤ 64) :
    ReportsLines m rs lscpu ↔ (text rs).length < buffSize ∧ MaximumReturns m lscpu := by
  refine ⟨fun hreports => ?_, fun ⟨hfits, hmaximum⟩ => reportsLines_of_lt hlen hfits hmaximum⟩
  have hfits : (text rs).length < buffSize := by
    by_contra hfull
    exact not_reportsLines_of_ge hlen (Nat.le_of_not_lt hfull) hreports
  refine ⟨hfits, ?_⟩
  obtain ⟨fuel, status, hrun, _⟩ := hreports
  obtain ⟨p, status₁, s, hcpu, hmaximum, _⟩ := getSystemInfo_eq_ok hrun
  -- the first parse has left `is_parsing` set
  obtain ⟨p', _, hparsing, _, hcpu'⟩ := parseCpuInfo_of_lt (m := m) hlen hfits
  have hfuel : fuel ≤ fuel + 1 + 2 * rs.length := by omega
  cases (parseCpuInfo_mono hfuel hcpu).symm.trans (hcpu' fuel)
  obtain ⟨s', hs', _⟩ := (maximumRun_sameTokens (p := p.setPtr (readBuffer zeroedMemory lscpu))
    (q := .fresh _) rfl hparsing fuel).of_ok hmaximum
  exact ⟨fuel, s', hs'⟩

/-- Nothing is printed where the frequency cannot be scaled. -/
theorem maximumReturns_nil : MaximumReturns m [] := by
  have hfits : ([] : Bytes).length < buffSize := by decide
  obtain ⟨rest, hbuffer⟩ := readBuffer_zeroed hfits
  rw [MaximumReturns, hbuffer]
  exact ⟨1, _, rfl⟩

theorem reportsLines_iff_one : ReportsLines lowestInt [readingAt3000] [] :=
  (reportsLines_iff (by decide)).mpr ⟨by decide, maximumReturns_nil⟩

/-- 64 processors at 3000 MHz: their lines have 1280 characters. -/
theorem lines_not_reported :
    readingAt3000.line = ascii "cpu MHz\t\t: 3000.123\n" ∧
    (List.replicate 64 readingAt3000).length = 64 ∧
    ¬ ReportsLines lowestInt (List.replicate 64 readingAt3000) [] := by
  refine ⟨by decide, by decide, not_reportsLines_of_ge (by decide) ?_⟩
  have hline : readingAt3000.line.length = 20 := by decide
  simp [text, hline, buffSize]

end Guthi
