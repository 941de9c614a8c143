import Guthi.Runtime.CpuInfo

/-!
# Guthi — two parsers side by side

The parsers see of a text its tokens only. A relation between two parser states that
`getToken` keeps is therefore kept by `acceptToken` and `expectToken`, by the loops and by the
parsers as a whole; the cases are stated for any such relation.
-/

namespace Guthi

/-- A relation between parser states that shows in no branch and is kept by every step. Where the
first parser faults with a fault in `E`, the second may do anything. -/
structure ParserRelation (K : Parser → Parser → Prop) (E : ParserFault → Prop) : Prop where
  type : ∀ p q, K p q → p.tokenizer.type = q.tokenizer.type
  isParsing : ∀ p q, K p q → p.isParsing = q.isParsing
  getToken : ∀ p q, K p q → Simulates K E p.getToken q.getToken
  stop : ∀ p q, K p q → K { p with isParsing := false } { q with isParsing := false }

namespace ParserRelation

/-- A property of one parser that every token keeps. -/
theorem of_invariant {I : Parser → Prop} (hget : ∀ p p', I p → p.getToken = .ok p' → I p')
    (hstop : ∀ p, I p → I { p with isParsing := false }) :
    ParserRelation (fun p q => q = p ∧ I p) (fun _ => False) where
  type _ _ h := by rw [h.1]
  isParsing _ _ h := by rw [h.1]
  getToken p q h := by
    obtain ⟨rfl, hI⟩ := h
    cases hq : q.getToken with
    | error e => exact Simulates.error e
    | ok q' => exact Simulates.ok ⟨rfl, hget q q' hI hq⟩
  stop p q h := by
    obtain ⟨rfl, hI⟩ := h
    exact ⟨rfl, hstop q hI⟩

variable {K : Parser → Parser → Prop} {E : ParserFault → Prop} {p q : Parser} {m : Machine}

/-- Related parsers accept the same tokens. -/
theorem acceptToken (hK : ParserRelation K E) (hpq : K p q) (type : TokenType) :
    Simulates (fun x y => x.1 = y.1 ∧ K x.2 y.2) E (p.acceptToken type) (q.acceptToken type) := by
  -- the token is consumed on both sides, or on neither
  by_cases h : p.tokenizer.type = type
  · rw [Parser.acceptToken_of_eq h, Parser.acceptToken_of_eq ((hK.type p q hpq).symm.trans h)]
    exact (hK.getToken p q hpq).bind fun p' q' hpq' => Simulates.ok ⟨rfl, hpq'⟩
  · have h' : q.tokenizer.type ≠ type := hK.type p q hpq ▸ h
    rw [Parser.acceptToken_of_ne h, Parser.acceptToken_of_ne h']
    exact Simulates.ok ⟨rfl, hpq⟩

/-- Related parsers expect the same tokens. -/
theorem expectToken (hK : ParserRelation K E) (hpq : K p q) (type : TokenType) :
    Simulates (fun x y => x.1 = y.1 ∧ K x.2 y.2) E (p.expectToken type) (q.expectToken type) := by
  by_cases h : p.tokenizer.type = type
  · rw [Parser.expectToken_of_eq h, Parser.expectToken_of_eq ((hK.type p q hpq).symm.trans h)]
    exact (hK.getToken p q hpq).bind fun p' q' hpq' => Simulates.ok ⟨rfl, hpq'⟩
  · have h' : q.tokenizer.type ≠ type := hK.type p q hpq ▸ h
    rw [Parser.expectToken_of_ne h, Parser.expectToken_of_ne h']
    exact Simulates.ok ⟨rfl, hK.stop p q hpq⟩

/-- After a token is tried on both sides, either both go on in the one branch or both in the
other. -/
theorem accepted {α β : Type} {S : α → β → Prop} {r r' : Except ParserFault (Bool × Parser)}
    {f : Bool × Parser → Except ParserFault α} {f' : Bool × Parser → Except ParserFault β}
    (hr : Simulates (fun x y => x.1 = y.1 ∧ K x.2 y.2) E r r')
    (hf : ∀ accepted p q, K p q → Simulates S E (f (accepted, p)) (f' (accepted, q))) :
    Simulates S E (r >>= f) (r' >>= f') := by
  refine hr.bind fun x y hxy => ?_
  obtain ⟨accepted, p⟩ := x
  obtain ⟨accepted', q⟩ := y
  obtain ⟨rfl, hpq⟩ := hxy
  exact hf accepted p q hpq

/-- Related parsers take the same branch. -/
theorem acceptOther (hK : ParserRelation K E) (hpq : K p q) :
    Simulates (LoopStep.Rel K) E p.acceptOther q.acceptOther := by
  unfold Parser.acceptOther
  -- the four branches in their order
  refine accepted (hK.acceptToken hpq .tokenId) fun isId p q hpq => ?_
  cases isId with
  | true => exact Simulates.ok hpq
  | false =>
    refine accepted (hK.acceptToken hpq .tokenColon) fun isColon p q hpq => ?_
    cases isColon with
    | true => exact Simulates.ok hpq
    | false =>
      refine accepted (hK.acceptToken hpq .tokenNumber) fun isNumber p q hpq => ?_
      cases isNumber with
      | true => exact Simulates.ok hpq
      | false =>
        refine accepted (hK.acceptToken hpq .tokenEnd) fun isEnd p q hpq => ?_
        cases isEnd with
        | true => exact Simulates.ok hpq
        | false => exact Simulates.ok hpq

/-! ## The loops -/

/-- The parsers are related and the records agree. -/
def CpuRel (K : Parser → Parser → Prop) (s t : CpuLoop) : Prop :=
  K s.parser t.parser ∧ s.status = t.status ∧ s.index = t.index

/-- Related states read the same. -/
theorem cpuReading (hK : ParserRelation K E)
    (hvalue : ∀ p q, K p q → p.tokenizer.value = q.tokenizer.value) {s t : CpuLoop}
    (hst : CpuRel K s t) (hpq : K p q) :
    Simulates (CpuRel K) E (cpuReading m s p) (cpuReading m t q) := by
  obtain ⟨_, status, index⟩ := s
  obtain ⟨_, _, _⟩ := t
  obtain ⟨_, rfl, rfl⟩ := hst
  unfold Guthi.cpuReading
  refine accepted (hK.acceptToken hpq .tokenMhz) fun isMhz p q hpq => ?_
  cases isMhz with
  | false => exact Simulates.ok ⟨hpq, rfl, rfl⟩
  | true =>
    refine accepted (hK.expectToken hpq .tokenColon) fun isColon p q hpq => ?_
    cases isColon with
    | false => exact Simulates.ok ⟨hpq, rfl, rfl⟩
    | true =>
      have hvalue' := hvalue p q hpq
      refine accepted (hK.expectToken hpq .tokenNumber) fun isNumber p' q' hpq' => ?_
      cases isNumber with
      | false => exact Simulates.ok ⟨hpq', rfl, rfl⟩
      | true =>
        simp only [hvalue', if_true]
        cases ProcessorStatus.record status index (m.toInt q.tokenizer.value) with
        | error e => exact Simulates.error e
        | ok status' => exact Simulates.ok ⟨hpq', rfl, rfl⟩

/-- A round of the loop keeps the states related. -/
theorem cpuInfoBody (hK : ParserRelation K E)
    (hvalue : ∀ p q, K p q → p.tokenizer.value = q.tokenizer.value) {s t : CpuLoop}
    (hst : CpuRel K s t) :
    Simulates (LoopStep.Rel (CpuRel K)) E (cpuInfoBody m s) (cpuInfoBody m t) := by
  unfold Guthi.cpuInfoBody
  refine accepted (hK.acceptToken hst.1 .tokenCpu) fun isCpu p q hpq => ?_
  cases isCpu with
  | true => exact (hK.cpuReading hvalue hst hpq).bind fun s' t' hst' => Simulates.ok hst'
  | false =>
    refine (hK.acceptOther hpq).bind fun step step' hstep => Simulates.ok ?_
    cases step <;> cases step' <;> first | exact hstep.elim | exact ⟨hstep, hst.2⟩

theorem cpuInfoLoop (hK : ParserRelation K E)
    (hvalue : ∀ p q, K p q → p.tokenizer.value = q.tokenizer.value) {s t : CpuLoop}
    (hst : CpuRel K s t) (fuel : Nat) :
    Simulates (CpuRel K) E (cpuInfoLoop m fuel s) (cpuInfoLoop m fuel t) :=
  Simulates.whileLoop (fun s t hst => hK.isParsing s.parser t.parser hst.1)
    (fun _ _ hst => hK.cpuInfoBody hvalue hst) fuel hst

/-- The parsers are related, and so are the values read. -/
def MaximumRel (K : Parser → Parser → Prop) (V : Int32 → Int32 → Prop) (s t : MaximumLoop) : Prop :=
  K s.parser t.parser ∧ V s.value t.value

variable {V : Int32 → Int32 → Prop}

/-- Related states read related values. -/
theorem maximumReading (hK : ParserRelation K E)
    (hvalue : ∀ p q, K p q → V (m.toInt p.tokenizer.value) (m.toInt q.tokenizer.value))
    {s t : MaximumLoop} (hst : MaximumRel K V s t) (hpq : K p q) :
    Simulates (MaximumRel K V) E (maximumReading m s p) (maximumReading m t q) := by
  unfold Guthi.maximumReading
  refine accepted (hK.acceptToken hpq .tokenMax) fun isMax p q hpq => ?_
  cases isMax with
  | false => exact Simulates.ok ⟨hpq, hst.2⟩
  | true =>
    refine accepted (hK.acceptToken hpq .tokenMhz) fun isMhz p q hpq => ?_
    cases isMhz with
    | false => exact Simulates.ok ⟨hpq, hst.2⟩
    | true =>
      refine accepted (hK.expectToken hpq .tokenColon) fun isColon p q hpq => ?_
      cases isColon with
      | false => exact Simulates.ok ⟨hpq, hst.2⟩
      | true =>
        have hvalue' := hvalue p q hpq
        refine accepted (hK.expectToken hpq .tokenNumber) fun _ p' q' hpq' => ?_
        exact Simulates.ok ⟨hpq', hvalue'⟩

/-- A round of the loop keeps the states related. -/
theorem maximumBody (hK : ParserRelation K E)
    (hvalue : ∀ p q, K p q → V (m.toInt p.tokenizer.value) (m.toInt q.tokenizer.value))
    {s t : MaximumLoop} (hst : MaximumRel K V s t) :
    Simulates (LoopStep.Rel (MaximumRel K V)) E (maximumBody m s) (maximumBody m t) := by
  unfold Guthi.maximumBody
  refine accepted (hK.acceptToken hst.1 .tokenCpu) fun isCpu p q hpq => ?_
  cases isCpu with
  | true => exact (hK.maximumReading hvalue hst hpq).bind fun s' t' hst' => Simulates.ok hst'
  | false =>
    refine (hK.acceptOther hpq).bind fun step step' hstep => Simulates.ok ?_
    cases step <;> cases step' <;> first | exact hstep.elim | exact ⟨hstep, hst.2⟩

theorem maximumLoop (hK : ParserRelation K E)
    (hvalue : ∀ p q, K p q → V (m.toInt p.tokenizer.value) (m.toInt q.tokenizer.value))
    {s t : MaximumLoop} (hst : MaximumRel K V s t) (fuel : Nat) :
    Simulates (MaximumRel K V) E (maximumLoop m fuel s) (maximumLoop m fuel t) :=
  Simulates.whileLoop (fun s t hst => hK.isParsing s.parser t.parser hst.1)
    (fun _ _ hst => hK.maximumBody hvalue hst) fuel hst

/-- Related parsers with the same value. -/
def MemoryRel (K : Parser → Parser → Prop) (s t : MemoryLoop) : Prop :=
  K s.parser t.parser ∧ s.value = t.value

/-- A round of the loop keeps the states related. -/
theorem memoryBody (hK : ParserRelation K E)
    (hvalue : ∀ p q, K p q → p.tokenizer.value = q.tokenizer.value) {s t : MemoryLoop}
    (hst : MemoryRel K s t) :
    Simulates (LoopStep.Rel (MemoryRel K)) E (memoryBody m s) (memoryBody m t) := by
  unfold Guthi.memoryBody
  refine accepted (hK.acceptToken hst.1 .tokenMemAvailable) fun isAvailable p q hpq => ?_
  cases isAvailable with
  | true =>
    refine accepted (hK.expectToken hpq .tokenColon) fun isColon p q hpq => ?_
    cases isColon with
    | false => exact Simulates.ok ⟨hpq, hst.2⟩
    | true =>
      have hvalue' := hvalue p q hpq
      refine accepted (hK.expectToken hpq .tokenInteger) fun _ p' q' hpq' => ?_
      exact Simulates.ok ⟨hpq', congrArg m.toInt hvalue'⟩
  | false =>
    refine accepted (hK.acceptToken hpq .tokenEnd) fun isEnd p q hpq => ?_
    cases isEnd with
    | true => exact Simulates.ok ⟨hpq, hst.2⟩
    | false => exact Simulates.ok ⟨hpq, hst.2⟩

theorem memoryLoop (hK : ParserRelation K E)
    (hvalue : ∀ p q, K p q → p.tokenizer.value = q.tokenizer.value) {s t : MemoryLoop}
    (hst : MemoryRel K s t) (fuel : Nat) :
    Simulates (MemoryRel K) E (memoryLoop m fuel s) (memoryLoop m fuel t) :=
  Simulates.whileLoop (fun s t hst => hK.isParsing s.parser t.parser hst.1)
    (fun _ _ hst => hK.memoryBody hvalue hst) fuel hst

end ParserRelation

/-! ## The text ahead -/

/-- The parsers look at the same token, with the same text ahead. -/
structure SameTokens (p q : Parser) : Prop where
  type : p.tokenizer.type = q.tokenizer.type
  ptr : p.tokenizer.ptr = q.tokenizer.ptr
  isParsing : p.isParsing = q.isParsing

/-- What the tokenizer finds depends on the text ahead only. -/
theorem tokenize_independent {t u : Tokenizer} (hptr : t.ptr = u.ptr) :
    Simulates (fun t' u' => t'.type = u'.type ∧ t'.ptr = u'.ptr) (fun _ => False) (tokenize t)
      (tokenize u) := by
  unfold tokenize
  rw [hptr]
  cases ht : tokenizeFrom t u.ptr with
  | ok t' =>
    obtain ⟨u', hu', hptr', htype⟩ := (finds_of_tokenizeFrom ht).independent u
    rw [finds_iff.mp hu']
    exact Simulates.ok ⟨htype.symm, hptr'.symm⟩
  | error e =>
    -- the other one would have found a token for both
    cases hu : tokenizeFrom u u.ptr with
    | ok u' =>
      obtain ⟨t', ht', _⟩ := (finds_of_tokenizeFrom hu).independent t
      rw [finds_iff.mp ht'] at ht
      cases ht
    | error e' =>
      rw [tokenizeFrom_error ht, tokenizeFrom_error hu]
      exact Simulates.error _

/-- Parsers with the same text ahead read the same tokens. -/
theorem sameTokens_relation : ParserRelation SameTokens (fun _ => False) where
  type _ _ h := h.type
  isParsing _ _ h := h.isParsing
  getToken _ _ h := (tokenize_independent h.ptr).bind fun _ _ h' => Simulates.ok ⟨h'.1, h'.2, rfl⟩
  stop _ _ h := ⟨h.type, h.ptr, rfl⟩

/-- Parsers with the same text ahead start alike. -/
theorem start_sameTokens {p q : Parser} (hptr : p.tokenizer.ptr = q.tokenizer.ptr)
    (hparsing : p.isParsing = q.isParsing) :
    Simulates SameTokens (fun _ => False) p.start q.start :=
  (tokenize_independent hptr).bind fun _ _ h => Simulates.ok ⟨h.1, h.2, hparsing⟩

/-- The loop of `parse_maximum_cpu_hz` with the token before it. -/
def maximumRun (m : Machine) (fuel : Nat) (p : Parser) : Except ParserFault MaximumLoop := do
  let p ← p.start
  maximumLoop m fuel { parser := p, value := 0 }

/-- `parse_maximum_cpu_hz` is its loop and the totals. -/
theorem parseMaximumCpuHz_eq (m : Machine) (fuel : Nat) (p : Parser) (status : ProcessorStatus) :
    parseMaximumCpuHz m fuel p status = maximumRun m fuel p >>= fun s =>
      status.setTotals s.value >>= fun status => .ok (s.parser, status) := by
  rw [parseMaximumCpuHz, maximumRun, bind_assoc]
  rfl

/-- More fuel does not change a result. -/
theorem maximumRun_mono {m : Machine} {fuel more : Nat} {p : Parser} {s : MaximumLoop}
    (hmore : fuel ≤ more) (h : maximumRun m fuel p = .ok s) : maximumRun m more p = .ok s := by
  obtain ⟨p', hstart, hloop⟩ := bind_eq_ok.mp h
  rw [maximumRun, hstart]
  exact whileLoop_mono (by simp) hmore hloop

/-- Whether it ends does not depend on what was read before. -/
theorem maximumRun_sameTokens {m : Machine} {p q : Parser}
    (hptr : p.tokenizer.ptr = q.tokenizer.ptr) (hparsing : p.isParsing = q.isParsing) (fuel : Nat) :
    Simulates (ParserRelation.MaximumRel SameTokens fun _ _ => True) (fun _ => False)
      (maximumRun m fuel p) (maximumRun m fuel q) :=
  (start_sameTokens hptr hparsing).bind fun _ _ h =>
    sameTokens_relation.maximumLoop (fun _ _ _ => trivial) ⟨h, trivial⟩ fuel

end Guthi
