import Guthi.Runtime.CpuTruncated

/-!
# Guthi — what freshly allocated memory does to the system information

The buffers are zeroed, and then replaced by new ones that are not. Behind what a command has
printed there is whatever the memory held before, up to the NUL at its end.

* `systemInfo_of_staysInData`, `memoryInfo_of_staysInData` — parses that stay inside of what was
  printed do not see it.
-/

namespace Guthi

variable {m : Machine}

/-! ## Parses that stop inside the data -/

/-- The bytes of the buffer that do not depend on the memory, from the beginning on: what was
printed, with the NUL at the end if it fills the buffer. -/
def printedPart (output : Bytes) : Bytes :=
  output.take buffSize ++ if buffSize ≤ output.length then [0] else []

/-- What follows. -/
def leftoverPart (leftover : Leftover) (output : Bytes) : Bytes :=
  if buffSize ≤ output.length then []
  else (leftover.toList.take buffSize).drop output.length ++ [0]

theorem readBuffer_eq (leftover : Leftover) (output : Bytes) :
    readBuffer leftover output = printedPart output ++ leftoverPart leftover output := by
  unfold printedPart leftoverPart
  -- a full buffer has no room for leftovers
  split_ifs with hfull
  · rw [readBuffer_full leftover hfull, List.append_nil]
  · rw [readBuffer, List.append_nil]

/-- The same parser with more text behind what is ahead. -/
def Parser.append (p : Parser) (more : Bytes) : Parser :=
  { p with tokenizer := p.tokenizer.append more }

/-- More text behind does not change the next token, unless there is none. -/
theorem tokenize_append (t : Tokenizer) (more : Bytes) :
    Simulates (fun t' u' => u' = t'.append more) (· = .outOfBounds) (tokenize t)
      (tokenize (t.append more)) := by
  unfold tokenize
  cases ht : tokenizeFrom t t.ptr with
  | ok t' => exact ⟨_, finds_iff.mp ((finds_of_tokenizeFrom ht).append more), rfl⟩
  -- the scan ran over the end
  | error e => exact Or.inl (tokenizeFrom_error ht)

/-- The second parser has more text behind the same text. -/
theorem append_relation (more : Bytes) :
    ParserRelation (fun p q => q = p.append more) (· = .outOfBounds) where
  type _ _ h := by rw [h]; rfl
  isParsing _ _ h := by rw [h]; rfl
  getToken p q h := by
    subst h
    refine (tokenize_append p.tokenizer more).bind fun t' u' htu => ?_
    subst htu
    exact Simulates.ok rfl
  stop _ _ h := by rw [h]; rfl

theorem start_append (p : Parser) (more : Bytes) :
    Simulates (fun p' q' => q' = p'.append more) (· = .outOfBounds) p.start
      (p.append more).start := by
  refine (tokenize_append p.tokenizer more).bind fun t' u' htu => ?_
  subst htu
  exact Simulates.ok rfl

/-- More text behind does not change what the processor lines give. -/
theorem parseCpuInfo_append (fuel : Nat) (text more : Bytes) (status : ProcessorStatus) :
    Simulates (fun x y => y.1 = x.1.append more ∧ x.2 = y.2) (· = .outOfBounds)
      (parseCpuInfo m fuel (.fresh text) status)
      (parseCpuInfo m fuel (.fresh (text ++ more)) status) := by
  refine (start_append (.fresh text) more).bind fun p q hpq => ?_
  have hstart : ParserRelation.CpuRel (fun p q => q = p.append more) ⟨p, status, 0⟩
      ⟨q, status, 0⟩ := ⟨hpq, rfl, rfl⟩
  -- the loop, step by step beside the other
  refine ((append_relation more).cpuInfoLoop (fun p q h => by rw [h]; rfl) hstart fuel).bind
    fun s t hst => ?_
  exact Simulates.ok ⟨hst.1, hst.2.1⟩

theorem parseMaximumCpuHz_append (fuel : Nat) (p : Parser) (text more : Bytes)
    (status : ProcessorStatus) :
    Simulates (fun x y => x.2 = y.2) (· = .outOfBounds)
      (parseMaximumCpuHz m fuel (p.setPtr text) status)
      (parseMaximumCpuHz m fuel (p.setPtr (text ++ more)) status) := by
  refine (start_append (p.setPtr text) more).bind fun p q hpq => ?_
  have hstart : ParserRelation.MaximumRel (fun p q => q = p.append more) (· = ·) ⟨p, 0⟩
      ⟨q, 0⟩ := ⟨hpq, rfl⟩
  refine ((append_relation more).maximumLoop (fun p q h => by rw [h]; rfl) hstart fuel).bind
    fun s t hst => ?_
  obtain ⟨_, hvalue⟩ := hst
  -- the totals are set from the same value
  rw [hvalue]
  cases status.setTotals t.value with
  | error e => exact Simulates.error e
  | ok status' => exact Simulates.ok rfl

theorem parseMemoryFreeSpace_append (fuel : Nat) (text more : Bytes) (status : MemoryStatus) :
    Simulates (· = ·) (· = .outOfBounds) (parseMemoryFreeSpace m fuel (.fresh text) status)
      (parseMemoryFreeSpace m fuel (.fresh (text ++ more)) status) := by
  refine (start_append (.fresh text) more).bind fun p q hpq => ?_
  have hstart : ParserRelation.MemoryRel (fun p q => q = p.append more) ⟨p, 0⟩ ⟨q, 0⟩ := ⟨hpq, rfl⟩
  refine ((append_relation more).memoryLoop (fun p q h => by rw [h]; rfl) hstart fuel).bind
    fun s t hst => ?_
  rw [hst.2]
  exact Simulates.ok rfl

/-- Reading the output into any memory comes to the same, if the parse of what was printed alone
does not run over its end. -/
theorem simulates_readBuffer {β : Type} {R : β → β → Prop} {output : Bytes}
    (parse : Bytes → Except ParserFault β)
    (hparse : ∀ text more, Simulates R (· = .outOfBounds) (parse text) (parse (text ++ more)))
    (hstays : parse (printedPart output) ≠ .error .outOfBounds) (leftover : Leftover) :
    Simulates R (fun _ => False) (parse (printedPart output))
      (parse (readBuffer leftover output)) := by
  rw [readBuffer_eq]
  have hsim := hparse (printedPart output) (leftoverPart leftover output)
  cases hresult : parse (printedPart output) with
  | ok x => exact hsim.of_ok hresult
  | error e =>
    -- the only fault that could differ is excluded
    refine Or.inr (hsim.of_error hresult ?_)
    rintro rfl
    exact hstays hresult

/-- The computation may go on for ever, but it does not fault. -/
def Faultless {α : Type} (r : Except ParserFault α) : Prop :=
  Outcome (fun _ => True) (· = .outOfFuel) r

/-- No fault, and in particular not this one. -/
theorem Faultless.ne {α : Type} {r : Except ParserFault α} (h : Faultless r) :
    r ≠ .error .outOfBounds := by
  rintro rfl
  cases h

/-- Whatever the memory: no run faults, and what one run returns, every other returns as well. -/
structure Determined {ι α : Type} (run : ι → Nat → Except ParserFault α) : Prop where
  faultless : ∀ i fuel, Faultless (run i fuel)
  same : ∀ i j fuel x, run i fuel = .ok x → ∃ fuel', run j fuel' = .ok x

/-- Runs that are all the same as one that does not fault. -/
theorem determined_of_eq {ι α : Type} {run : ι → Nat → Except ParserFault α}
    {reference : Nat → Except ParserFault α} (hreference : ∀ fuel, Faultless (reference fuel))
    (h : ∀ i fuel, run i fuel = reference fuel) : Determined run where
  faultless i fuel := by
    rw [h]
    exact hreference fuel
  same i j fuel x hx := ⟨fuel, by rw [h, ← h i, hx]⟩

/-- A parse that is not to begin. -/
theorem parseMaximumCpuHz_stopped {p : Parser} (hp : p.isParsing = false) {buffer : Bytes}
    (h0 : 0 ∈ buffer) (status : ProcessorStatus) (fuel : Nat) :
    (parseMaximumCpuHz m fuel (p.setPtr buffer) status >>= fun x => .ok x.2) =
      if fuel = 0 then .error .outOfFuel else status.setTotals 0 := by
  obtain ⟨t, ht⟩ := exists_finds h0 (p.setPtr buffer).tokenizer
  have hstart : (p.setPtr buffer).start = .ok { (p.setPtr buffer) with tokenizer := t } := by
    rw [Parser.start, tokenize]
    exact congrArg (· >>= _) (finds_iff.mp ht)
  rw [parseMaximumCpuHz, hstart, ok_bind]
  cases fuel with
  | zero => rfl
  | succ fuel =>
    -- `is_parsing` is off, so the loop is not entered
    have hloop : maximumLoop m (fuel + 1) ⟨{ (p.setPtr buffer) with tokenizer := t }, 0⟩ =
        .ok ⟨{ (p.setPtr buffer) with tokenizer := t }, 0⟩ := whileLoop_stop hp
    rw [hloop, ok_bind, if_neg (Nat.succ_ne_zero fuel)]
    cases status.setTotals 0 <;> rfl

/-- `GetSystemInfo` on what was printed alone. The second parse looks at no token, where the first
one has failed to find one that it expects. -/
def systemInfoOfPrinted (m : Machine) (cpuInfo lscpu : Bytes) (fuel : Nat) :
    Except ParserFault ProcessorStatus := do
  let (p, status) ← parseCpuInfo m fuel (.fresh (printedPart cpuInfo)) {}
  if p.isParsing then
    parseMaximumCpuHz m fuel (p.setPtr (printedPart lscpu)) status >>= fun x => .ok x.2
  else if fuel = 0 then .error .outOfFuel else status.setTotals 0

section

variable {cpuInfo : Bytes} {fuel : Nat}

/-- The first parse faults. -/
theorem systemInfoOfPrinted_error {e : ParserFault}
    (h : parseCpuInfo m fuel (.fresh (printedPart cpuInfo)) {} = .error e) (lscpu : Bytes) :
    systemInfoOfPrinted m cpuInfo lscpu fuel = .error e := by
  rw [systemInfoOfPrinted, h]
  rfl

/-- The first parse leaves `is_parsing` on: the second one goes on. -/
theorem systemInfoOfPrinted_parsing {p : Parser} {status : ProcessorStatus}
    (h : parseCpuInfo m fuel (.fresh (printedPart cpuInfo)) {} = .ok (p, status))
    (hp : p.isParsing = true) (lscpu : Bytes) : systemInfoOfPrinted m cpuInfo lscpu fuel =
      parseMaximumCpuHz m fuel (p.setPtr (printedPart lscpu)) status >>= fun x => .ok x.2 := by
  rw [systemInfoOfPrinted, h, ok_bind]
  exact if_pos hp

/-- The first parse has turned `is_parsing` off: the second one finds nothing. -/
theorem systemInfoOfPrinted_stopped {p : Parser} {status : ProcessorStatus}
    (h : parseCpuInfo m fuel (.fresh (printedPart cpuInfo)) {} = .ok (p, status))
    (hp : p.isParsing = false) (lscpu : Bytes) : systemInfoOfPrinted m cpuInfo lscpu fuel =
      if fuel = 0 then .error .outOfFuel else status.setTotals 0 := by
  rw [systemInfoOfPrinted, h, ok_bind]
  exact if_neg (by rw [hp]; decide)

end

/-- The parses of `GetSystemInfo` do not read memory behind what was printed. -/
def SystemStaysInData (m : Machine) (cpuInfo lscpu : Bytes) : Prop :=
  ∀ fuel, Faultless (systemInfoOfPrinted m cpuInfo lscpu fuel)

theorem simulates_parseCpuInfo {cpuInfo : Bytes} {fuel : Nat}
    (hstays : parseCpuInfo m fuel (.fresh (printedPart cpuInfo)) {} ≠ .error .outOfBounds)
    (leftover : Leftover) :
    Simulates (fun x y => (∃ more, y.1 = x.1.append more) ∧ x.2 = y.2) (fun _ => False)
      (parseCpuInfo m fuel (.fresh (printedPart cpuInfo)) {})
      (parseCpuInfo m fuel (.fresh (readBuffer leftover cpuInfo)) {}) :=
  simulates_readBuffer (fun text => parseCpuInfo m fuel (.fresh text) {})
    (fun text more => (parseCpuInfo_append fuel text more {}).mono fun _ _ h => ⟨⟨_, h.1⟩, h.2⟩)
    hstays leftover

theorem getSystemInfo_of_stopped {cpuInfo : Bytes} {fuel : Nat} {p : Parser}
    {status : ProcessorStatus}
    (h : parseCpuInfo m fuel (.fresh (printedPart cpuInfo)) {} = .ok (p, status))
    (hp : p.isParsing = false) (l : Leftover × Leftover) (lscpu : Bytes) :
    getSystemInfo m l.1 l.2 cpuInfo lscpu fuel = systemInfoOfPrinted m cpuInfo lscpu fuel := by
  have hfirst := simulates_parseCpuInfo (h.trans_ne (nomatch ·)) l.1
  obtain ⟨⟨q, status'⟩, hread, ⟨more, rfl⟩, rfl⟩ := hfirst.of_ok h
  -- what `lscpu` prints is not looked at any more
  rw [systemInfoOfPrinted_stopped h hp, getSystemInfo, hread, ok_bind]
  exact parseMaximumCpuHz_stopped hp (mem_readBuffer l.2 lscpu) status fuel

/-- **The parses stay inside of what was printed**: then the memory plays no role. -/
theorem systemInfo_of_staysInData {cpuInfo lscpu : Bytes}
    (hstays : SystemStaysInData m cpuInfo lscpu) : Determined fun l : Leftover × Leftover =>
      getSystemInfo m l.1 l.2 cpuInfo lscpu := by
  refine determined_of_eq hstays fun l fuel => ?_
  have hinside := (hstays fuel).ne
  have hfirst := simulates_parseCpuInfo (fun hout => hinside (systemInfoOfPrinted_error hout lscpu))
    l.1
  cases hprinted : parseCpuInfo m fuel (.fresh (printedPart cpuInfo)) {} with
  -- the fault is no run over the end, so the read one has it too
  | error e =>
    rw [systemInfoOfPrinted_error hprinted, getSystemInfo, hfirst.of_error hprinted id]
    rfl
  | ok x =>
    obtain ⟨p, status⟩ := x
    cases hparsing : p.isParsing with
    | false => exact getSystemInfo_of_stopped hprinted hparsing l lscpu
    | true =>
      rw [systemInfoOfPrinted_parsing hprinted hparsing] at hinside ⊢
      obtain ⟨⟨q, status'⟩, hread, ⟨more, rfl⟩, rfl⟩ := hfirst.of_ok hprinted
      have hsecond := simulates_readBuffer
        (fun text => parseMaximumCpuHz m fuel (p.setPtr text) status)
        (fun text more => parseMaximumCpuHz_append fuel p text more status)
        (fun hout => hinside (by rw [hout]; rfl)) l.2
      -- the second parse begins where the first one stopped
      rw [getSystemInfo, hread, ok_bind]
      refine (hsecond.bind (S := (· = ·)) fun x y hxy => ?_).eq
      rw [hxy]
      exact Simulates.ok rfl

/-- The parse of `GetMemoryInfo` does not read memory behind what was printed. -/
def MemoryStaysInData (m : Machine) (memInfo : Bytes) (status : MemoryStatus) : Prop :=
  ∀ fuel, Faultless (parseMemoryFreeSpace m fuel (.fresh (printedPart memInfo)) status)

theorem memoryInfo_of_staysInData {memInfo : Bytes} {status : MemoryStatus}
    (hstays : MemoryStaysInData m memInfo status) : Determined fun leftover : Leftover =>
      getMemoryInfo m leftover memInfo status := by
  refine determined_of_eq hstays fun leftover fuel => ?_
  have hsim := simulates_readBuffer (fun text => parseMemoryFreeSpace m fuel (.fresh text) status)
    (fun text more => parseMemoryFreeSpace_append fuel text more status) (hstays fuel).ne leftover
  exact hsim.eq

end Guthi
