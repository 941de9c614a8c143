import Guthi.Runtime.CpuTruncated
import Guthi.Runtime.Unexpected

/-!
# Guthi — whether the parsers return, and stay inside of the buffer

* `parsers_return_iff` — with two NULs behind the text, a parser returns unless it stays at a
  keyword that it does not expect;
* `parsers_stay_iff` — with the NUL in the last character only, a parser that comes to the end reads
  behind the buffer.
-/

namespace Guthi

variable {m : Machine} {rest : Bytes} {run : TokenRun} {p : Parser}

/-- The run comes to a result. -/
def Returns {α : Type} (run : Nat → Except ParserFault α) : Prop := ∃ fuel x, run fuel = .ok x

/-- A character behind the buffer is read, or a record behind the records is written while there
are characters to read: what the parser reads after that nobody knows. -/
def ParserFault.Strays (f : ParserFault) : Prop := f = .outOfBounds ∨ f = .outOfRecords

/-- The result is not a read or a write outside. -/
def Stays {α : Type} (r : Except ParserFault α) : Prop := ∀ f, r = .error f → ¬ f.Strays

/-- However long it goes on, the run neither reads behind the buffer nor writes behind the
records. -/
def StaysInBuffer {α : Type} (run : Nat → Except ParserFault α) : Prop := ∀ fuel, Stays (run fuel)

/-! ## Where a run ends -/

/-- With a NUL behind the end, only a run that is held up has no end. -/
theorem TokenRun.EndsAt.conclude_eq_ok (h : run.EndsAt rest p) (h0 : 0 ∈ rest) :
    (∃ q, run.ending.conclude p = .ok q) ↔ run.ending ≠ .stuck := by
  unfold EndsAt at h
  cases hending : run.ending with
  | atEnd =>
    rw [hending] at h
    refine iff_of_true ?_ (by decide)
    obtain ⟨_, hlooks⟩ := h
    cases hlooks with
    | atEnd _ _ hptr =>
      rw [← hptr] at h0
      obtain ⟨t, ht⟩ := exists_finds h0 p.tokenizer
      exact ⟨_, Parser.getToken_of_finds ht⟩
  | noColon => exact iff_of_true ⟨p, rfl⟩ (by decide)
  | noNumber => exact iff_of_true ⟨p, rfl⟩ (by decide)
  | stuck =>
    refine iff_of_false ?_ (by decide)
    rintro ⟨q, hq⟩
    cases hq

/-- With a NUL behind the end, nothing is read behind the buffer. -/
theorem TokenRun.EndsAt.conclude_ne (h : run.EndsAt rest p) (h0 : 0 ∈ rest) :
    run.ending.conclude p ≠ .error .outOfBounds := by
  by_cases hstuck : run.ending = .stuck
  · rw [hstuck]
    exact (nomatch ·)
  · obtain ⟨q, hq⟩ := (h.conclude_eq_ok h0).mpr hstuck
    rw [hq]
    exact (nomatch ·)

/-- Nothing is left behind the NUL. -/
theorem TokenRun.EndsAt.conclude_nil (h : run.EndsAt [] p) :
    run.ending.conclude p = .error .outOfBounds ↔ run.ending = .atEnd := by
  unfold EndsAt at h
  cases hending : run.ending with
  | atEnd =>
    rw [hending] at h
    refine iff_of_true ?_ rfl
    obtain ⟨_, hlooks⟩ := h
    cases hlooks with
    | atEnd _ _ hptr =>
      show p.getToken = _
      rw [Parser.getToken, tokenize, hptr]
      rfl
  | noColon =>
    refine iff_of_false (fun h => ?_) (by decide)
    cases h
  | noNumber =>
    refine iff_of_false (fun h => ?_) (by decide)
    cases h
  | stuck =>
    refine iff_of_false (fun h => ?_) (by decide)
    cases h

/-! ## With a NUL behind the end -/

/-- What is done with the result does not fail. -/
theorem map_returns_iff {α β : Type} {r : Except ParserFault α} {g : α → β} :
    (∃ x, (r >>= fun a => .ok (g a)) = .ok x) ↔ ∃ a, r = .ok a := by
  constructor
  · rintro ⟨x, hx⟩
    obtain ⟨a, ha, _⟩ := bind_eq_ok.mp hx
    exact ⟨a, ha⟩
  · rintro ⟨a, ha⟩
    exact ⟨g a, by rw [ha, ok_bind]⟩

/-- What is behind the text is in the buffer. -/
theorem mem_of_mem_behindText {buffer : Bytes} (h : 0 ∈ behindText buffer) : 0 ∈ buffer :=
  (List.dropWhile_sublist _).subset (List.mem_of_mem_tail h)

section

variable {buffer : Bytes}

/-- When `parse_cpu_info` returns. -/
theorem parseCpuInfo_returns_iff (hmore : 0 ∈ behindText buffer) (hptr : p.tokenizer.ptr = buffer)
    (status : ProcessorStatus) : Returns (fun fuel => parseCpuInfo m fuel p status) ↔
      (p.isParsing = true → ¬ StaysAtKeyword [.tokenMhz] (tokenTypes buffer) ∧
        (cpuInfoRun p.tokenizer.value buffer).numbers.length ≤ 64) := by
  have h0 := mem_of_mem_behindText hmore
  cases hparsing : p.isParsing with
  | false =>
    obtain ⟨p', hcomes⟩ := parseCpuInfo_idle (m := m) h0 hptr hparsing status
    exact iff_of_true (hcomes.exists_ok_iff.mpr ⟨_, rfl⟩) fun h => absurd h (by decide)
  | true =>
    obtain ⟨p', hends, hcomes⟩ := parseCpuInfo_tokens (m := m) h0 hptr hparsing status
    rw [Returns, hcomes.exists_ok_iff, ← (cpuInfoRun_ends p.tokenizer.value buffer).stuck,
      ← Ne, ← hends.conclude_eq_ok hmore]
    -- the readings fit into the records, or the 65th faults
    rcases recordAll_cases m status (cpuInfoRun p.tokenizer.value buffer).numbers with
      ⟨hlen, status', hrecord⟩ | ⟨hlen, hrecord⟩
    · rw [hrecord, ok_bind, map_returns_iff, and_iff_left hlen]
      exact (imp_iff_right rfl).symm
    · rw [hrecord]
      refine iff_of_false ?_ fun h => absurd (h rfl).2 (Nat.not_le_of_lt hlen)
      rintro ⟨x, hx⟩
      cases hx

/-- When the loop of `parse_maximum_cpu_hz` returns. -/
theorem maximumRun_returns_iff (hmore : 0 ∈ behindText buffer) (hptr : p.tokenizer.ptr = buffer) :
    Returns (fun fuel => maximumRun m fuel p) ↔
      (p.isParsing = true → ¬ StaysAtKeyword [.tokenMax, .tokenMhz] (tokenTypes buffer)) := by
  have h0 := mem_of_mem_behindText hmore
  cases hparsing : p.isParsing with
  | false =>
    obtain ⟨p', hcomes⟩ := maximumRun_idle (m := m) h0 hptr hparsing
    exact iff_of_true (hcomes.exists_ok_iff.mpr ⟨_, rfl⟩) fun h => absurd h (by decide)
  | true =>
    obtain ⟨p', hends, hcomes⟩ := maximumRun_tokens (m := m) h0 hptr hparsing
    rw [Returns, hcomes.exists_ok_iff, ← (maximumCpuHzRun_ends p.tokenizer.value buffer).stuck,
      ← Ne, ← hends.conclude_eq_ok hmore, map_returns_iff]
    exact (imp_iff_right rfl).symm

/-- The totals are set where there are records for all processors that are counted. -/
theorem parseMaximumCpuHz_returns_iff (p : Parser) (status : ProcessorStatus) :
    Returns (fun fuel => parseMaximumCpuHz m fuel p status) ↔
      status.processorCount.toNat ≤ 64 ∧ Returns fun fuel => maximumRun m fuel p := by
  constructor
  · rintro ⟨fuel, x, hx⟩
    simp only [parseMaximumCpuHz_eq] at hx
    obtain ⟨s, hs, hx⟩ := bind_eq_ok.mp hx
    obtain ⟨status', htotals, _⟩ := bind_eq_ok.mp hx
    refine ⟨?_, fuel, s, hs⟩
    unfold ProcessorStatus.setTotals at htotals
    -- the totals are written to as many records as were counted
    split_ifs at htotals with hcount
    exact hcount
  · rintro ⟨hcount, fuel, s, hs⟩
    obtain ⟨status', htotals⟩ : ∃ status', status.setTotals s.value = .ok status' :=
      ⟨_, if_pos hcount⟩
    refine ⟨fuel, (s.parser, status'), ?_⟩
    show parseMaximumCpuHz m fuel p status = _
    rw [parseMaximumCpuHz_eq]
    show (maximumRun m fuel p >>= _) = _
    simp only at hs
    rw [hs, ok_bind, htotals, ok_bind]

/-- When `parse_memory_free_space` returns. -/
theorem parseMemoryFreeSpace_returns_iff (hmore : 0 ∈ behindText buffer)
    (hptr : p.tokenizer.ptr = buffer) (memory : MemoryStatus) :
    Returns (fun fuel => parseMemoryFreeSpace m fuel p memory) ↔
      (p.isParsing = true → ∀ type, (tokenTypes buffer).head? = some type →
        type = .tokenMemAvailable) := by
  have h0 := mem_of_mem_behindText hmore
  cases hparsing : p.isParsing with
  | false =>
    have hcomes := parseMemoryFreeSpace_idle (m := m) h0 hptr hparsing memory
    exact iff_of_true (hcomes.exists_ok_iff.mpr ⟨_, rfl⟩) fun h => absurd h (by decide)
  | true =>
    obtain ⟨p', hends, hcomes⟩ := parseMemoryFreeSpace_tokens (m := m) h0 hptr hparsing memory
    rw [Returns, hcomes.exists_ok_iff, ← (memoryRun_ending p.tokenizer.value buffer).1,
      ← hends.conclude_eq_ok hmore, map_returns_iff]
    exact (imp_iff_right rfl).symm

end

/-- A text, the NUL behind it and one more. -/
def terminated (text rest : Bytes) : Bytes := text ++ 0 :: 0 :: rest

/-- Another NUL behind the first one. -/
theorem mem_behindText_append (text : Bytes) {rest : Bytes} (h0 : 0 ∈ rest) :
    0 ∈ behindText (text ++ 0 :: rest) := by
  induction text with
  | nil => exact h0
  | cons c text ih =>
    -- the first NUL of all may be in the text
    by_cases hc : c = 0
    · subst hc
      show 0 ∈ text ++ 0 :: rest
      simp
    · have hdrop : behindText (c :: text ++ 0 :: rest) = behindText (text ++ 0 :: rest) := by
        rw [behindText, List.cons_append, List.dropWhile_cons_of_pos (by simpa using hc)]
        rfl
      rw [hdrop]
      exact ih

/-- **Which parses return**, whatever the parser has read before. A parse that is to begin does,
unless it comes to a keyword that it does not expect, with no reading broken off in front of it;
and the processors have to fit into the records. -/
theorem parsers_return_iff (m : Machine) (p : Parser) (status : ProcessorStatus)
    (memory : MemoryStatus) (text rest : Bytes) :
    (Returns (fun fuel => parseCpuInfo m fuel (p.setPtr (terminated text rest)) status) ↔
      (p.isParsing = true →
        ¬ StaysAtKeyword [.tokenMhz] (tokenTypes (terminated text rest)) ∧
          (cpuInfoRun p.tokenizer.value (terminated text rest)).numbers.length ≤ 64)) ∧
    (Returns (fun fuel => parseMaximumCpuHz m fuel (p.setPtr (terminated text rest)) status) ↔
      status.processorCount.toNat ≤ 64 ∧ (p.isParsing = true →
        ¬ StaysAtKeyword [.tokenMax, .tokenMhz] (tokenTypes (terminated text rest)))) ∧
    (Returns (fun fuel => parseMemoryFreeSpace m fuel (p.setPtr (terminated text rest)) memory) ↔
      (p.isParsing = true → ∀ type, (tokenTypes (terminated text rest)).head? = some type →
        type = .tokenMemAvailable)) := by
  have hmore : 0 ∈ behindText (terminated text rest) :=
    mem_behindText_append text List.mem_cons_self
  refine ⟨parseCpuInfo_returns_iff hmore rfl status, ?_,
    parseMemoryFreeSpace_returns_iff hmore rfl memory⟩
  rw [parseMaximumCpuHz_returns_iff, maximumRun_returns_iff hmore rfl]
  rfl

/-- The line of a processor on another platform. -/
def clockLine : Bytes := ascii "clock : 3220.000000MHz\n"

/-- The keyword `MHz` without a `cpu` in front of it holds the parse up. -/
theorem clockLine_not_returns : ¬ Returns fun fuel =>
    parseCpuInfo lowestInt fuel (.fresh (terminated clockLine [])) {} := by
  have hmore : 0 ∈ behindText (terminated clockLine []) :=
    mem_behindText_append clockLine List.mem_cons_self
  have hstuck : (cpuInfoRun none (terminated clockLine [])).ending = .stuck := by decide
  rw [parseCpuInfo_returns_iff hmore rfl]
  intro h
  exact (h rfl).1 ((cpuInfoRun_ends none _).stuck.mp hstuck)

/-! ## With a NUL at the end of the buffer -/

section

variable {content : Bytes}

/-- A NUL of the content lies in front of the one at the end. -/
theorem mem_behindText_concat (h0 : 0 ∈ content) : 0 ∈ behindText (content ++ [0]) := by
  obtain ⟨text, rest, rfl⟩ := List.append_of_mem h0
  rw [List.append_assoc]
  exact mem_behindText_append text (by simp)

/-- Without one, nothing lies behind the text. -/
theorem behindText_concat (h0 : 0 ∉ content) : behindText (content ++ [0]) = [] := by
  have hdrop : (content ++ [0]).dropWhile (· ≠ 0) = [0] := by
    rw [List.dropWhile_append_of_pos]
    · rfl
    · intro c hc
      simpa using fun hzero : c = 0 => h0 (hzero ▸ hc)
  rw [behindText, hdrop]
  rfl

theorem stays_ok {α : Type} (a : α) : Stays (.ok a : Except ParserFault α) := fun _ h => nomatch h

/-- A reading without a record is one outside. -/
theorem not_stays_outOfRecords {α : Type} :
    ¬ Stays (.error .outOfRecords : Except ParserFault α) := fun h => h _ rfl (Or.inr rfl)

/-- At the end of a run one more token is read, and nothing is written. -/
theorem Ending.conclude_stays_iff (ending : Ending) :
    Stays (ending.conclude p) ↔ ending.conclude p ≠ .error .outOfBounds := by
  refine ⟨fun h hout => h _ hout (Or.inl rfl), fun hne f hf => ?_⟩
  rintro (rfl | rfl)
  · exact hne hf
  · cases ending with
    | atEnd => cases Parser.getToken_error hf
    | noColon => cases hf
    | noNumber => cases hf
    | stuck => cases hf

/-- What the end of the buffer means for a run. -/
theorem TokenRun.EndsAt.stays_iff (h : run.EndsAt (behindText (content ++ [0])) p) :
    Stays (run.ending.conclude p) ↔ 0 ∈ content ∨ run.ending ≠ .atEnd := by
  rw [Ending.conclude_stays_iff]
  by_cases h0 : 0 ∈ content
  · exact iff_of_true (h.conclude_ne (mem_behindText_concat h0)) (Or.inl h0)
  · rw [behindText_concat h0] at h
    rw [Ne, h.conclude_nil, or_iff_right h0]

/-- What is done with the result does not stray. -/
theorem bind_stays_iff {α β : Type} {r : Except ParserFault α} {f : α → Except ParserFault β}
    (hf : ∀ a, Stays (f a)) : Stays (r >>= f) ↔ Stays r := by
  cases r with
  | error e => exact forall_congr' fun f => by simp [Except.error.injEq, bind, Except.bind]
  | ok a => exact iff_of_true (hf a) (stays_ok a)

/-- A pure function of the result changes nothing. -/
theorem map_stays_iff {α β : Type} {r : Except ParserFault α} {g : α → β} :
    Stays (r >>= fun a => .ok (g a)) ↔ Stays r := bind_stays_iff fun a => stays_ok (g a)

/-- Whether a run stays inside is decided by what it comes to. -/
theorem ComesTo.stays_iff {α : Type} {run : Nat → Except ParserFault α} {r : Except ParserFault α}
    (h : ComesTo .outOfFuel run r) : StaysInBuffer run ↔ Stays r := by
  refine h.forall_iff (P := Stays) ?_
  rintro f ⟨⟩ (h | h) <;> cases h

/-- When `parse_cpu_info` stays inside. -/
theorem parseCpuInfo_stays_iff (hptr : p.tokenizer.ptr = content ++ [0])
    (status : ProcessorStatus) : StaysInBuffer (fun fuel => parseCpuInfo m fuel p status) ↔
      (p.isParsing = true →
        (cpuInfoRun p.tokenizer.value (content ++ [0])).numbers.length ≤ 64 ∧
          (0 ∈ content ∨ ¬ ReadToEnd [.tokenMhz] (tokenTypes (content ++ [0])))) := by
  have h0 : 0 ∈ content ++ [0] := by simp
  cases hparsing : p.isParsing with
  | false =>
    obtain ⟨p', hcomes⟩ := parseCpuInfo_idle (m := m) h0 hptr hparsing status
    exact iff_of_true (hcomes.stays_iff.mpr (stays_ok _)) fun h => absurd h (by decide)
  | true =>
    obtain ⟨p', hends, hcomes⟩ := parseCpuInfo_tokens (m := m) h0 hptr hparsing status
    rw [hcomes.stays_iff, ← (cpuInfoRun_ends p.tokenizer.value (content ++ [0])).atEnd,
      ← Ne, ← hends.stays_iff]
    generalize cpuInfoRun p.tokenizer.value (content ++ [0]) = run
    -- the 65th reading has no record
    rcases recordAll_cases m status run.numbers with ⟨hlen, status', hrecord⟩ | ⟨hlen, hrecord⟩
    · rw [hrecord, ok_bind, map_stays_iff, and_iff_right hlen]
      exact (imp_iff_right rfl).symm
    · rw [hrecord]
      exact iff_of_false not_stays_outOfRecords fun h => absurd (h rfl).1 (Nat.not_le_of_lt hlen)

/-- When `parse_maximum_cpu_hz` stays inside of the buffer. -/
theorem parseMaximumCpuHz_stays_iff (hptr : p.tokenizer.ptr = content ++ [0])
    (status : ProcessorStatus) : StaysInBuffer (fun fuel => parseMaximumCpuHz m fuel p status) ↔
      (p.isParsing = true →
        0 ∈ content ∨ ¬ ReadToEnd [.tokenMax, .tokenMhz] (tokenTypes (content ++ [0]))) := by
  have h0 : 0 ∈ content ++ [0] := by simp
  -- the totals are written behind the last character that is read
  have htotals : ∀ s : MaximumLoop, Stays (status.setTotals s.value >>= fun status' =>
      .ok (s.parser, status')) := by
    intro s
    rw [map_stays_iff]
    unfold ProcessorStatus.setTotals
    split_ifs
    · exact stays_ok _
    · rintro f ⟨⟩ (h | h) <;> cases h
  have hloop : StaysInBuffer (fun fuel => parseMaximumCpuHz m fuel p status) ↔
      StaysInBuffer (fun fuel => maximumRun m fuel p) := by
    refine forall_congr' fun fuel => ?_
    show Stays (parseMaximumCpuHz m fuel p status) ↔ Stays (maximumRun m fuel p)
    rw [parseMaximumCpuHz_eq]
    exact bind_stays_iff htotals
  rw [hloop]
  cases hparsing : p.isParsing with
  | false =>
    obtain ⟨p', hcomes⟩ := maximumRun_idle (m := m) h0 hptr hparsing
    exact iff_of_true (hcomes.stays_iff.mpr (stays_ok _)) fun h => absurd h (by decide)
  | true =>
    obtain ⟨p', hends, hcomes⟩ := maximumRun_tokens (m := m) h0 hptr hparsing
    rw [hcomes.stays_iff, map_stays_iff, hends.stays_iff, Ne,
      (maximumCpuHzRun_ends p.tokenizer.value (content ++ [0])).atEnd]
    exact (imp_iff_right rfl).symm

/-- When `parse_memory_free_space` stays inside of the buffer. -/
theorem parseMemoryFreeSpace_stays_iff (hptr : p.tokenizer.ptr = content ++ [0])
    (memory : MemoryStatus) :
    StaysInBuffer (fun fuel => parseMemoryFreeSpace m fuel p memory) ↔
      (p.isParsing = true → 0 ∈ content ∨ tokenTypes (content ++ [0]) ≠ []) := by
  have h0 : 0 ∈ content ++ [0] := by simp
  cases hparsing : p.isParsing with
  | false =>
    have hcomes := parseMemoryFreeSpace_idle (m := m) h0 hptr hparsing memory
    exact iff_of_true (hcomes.stays_iff.mpr (stays_ok _)) fun h => absurd h (by decide)
  | true =>
    obtain ⟨p', hends, hcomes⟩ := parseMemoryFreeSpace_tokens (m := m) h0 hptr hparsing memory
    rw [hcomes.stays_iff, map_stays_iff, hends.stays_iff, Ne,
      (memoryRun_ending p.tokenizer.value (content ++ [0])).2]
    exact (imp_iff_right rfl).symm

end

/-- **Which parses stay inside of the buffer** that the content and a NUL fill: those that leave
before they come to the end, or find a NUL in the content already. For `parse_cpu_info` there also
have to be records for all readings; `parse_maximum_cpu_hz` writes to the records behind its last
character. -/
theorem parsers_stay_iff (m : Machine) (p : Parser) (status : ProcessorStatus)
    (memory : MemoryStatus) (content : Bytes) :
    (StaysInBuffer (fun fuel => parseCpuInfo m fuel (p.setPtr (content ++ [0])) status) ↔
      (p.isParsing = true →
        (cpuInfoRun p.tokenizer.value (content ++ [0])).numbers.length ≤ 64 ∧
          (0 ∈ content ∨ ¬ ReadToEnd [.tokenMhz] (tokenTypes (content ++ [0]))))) ∧
    (StaysInBuffer (fun fuel => parseMaximumCpuHz m fuel (p.setPtr (content ++ [0])) status) ↔
      (p.isParsing = true →
        0 ∈ content ∨ ¬ ReadToEnd [.tokenMax, .tokenMhz] (tokenTypes (content ++ [0])))) ∧
    (StaysInBuffer (fun fuel => parseMemoryFreeSpace m fuel (p.setPtr (content ++ [0])) memory) ↔
      (p.isParsing = true → 0 ∈ content ∨ tokenTypes (content ++ [0]) ≠ [])) :=
  ⟨parseCpuInfo_stays_iff rfl status, parseMaximumCpuHz_stays_iff rfl status,
    parseMemoryFreeSpace_stays_iff rfl memory⟩

/-- What fits into the buffer of the lines of 64 processors. -/
def fullContent : Bytes := CpuReading.text (List.replicate 51 readingAt3000) ++ ascii "cpu "

/-- The content is the beginning of the lines of 64 processors. -/
theorem fullContent_eq :
    fullContent = (CpuReading.text (List.replicate 64 readingAt3000)).take buffSize := by
  have hsplit : CpuReading.text (List.replicate 64 readingAt3000) = fullContent ++
      (ascii "MHz\t\t: 3000.123\n" ++ CpuReading.text (List.replicate 12 readingAt3000)) := by
    have hline : readingAt3000.line = ascii "cpu " ++ ascii "MHz\t\t: 3000.123\n" := by decide
    have hreplicate : List.replicate 64 readingAt3000 =
        List.replicate 51 readingAt3000 ++ readingAt3000 :: List.replicate 12 readingAt3000 := rfl
    rw [hreplicate, fullContent, CpuReading.text, List.flatMap_append, List.flatMap_cons, hline,
      List.append_assoc, List.append_assoc]
    rfl
  have hlen : fullContent.length = buffSize := by
    have hline : readingAt3000.line.length = 20 := by decide
    simp [fullContent, CpuReading.text, hline, buffSize, ascii]
  rw [hsplit, ← hlen, List.take_left]

/-- A processor too many is still ahead, where the buffer ends. -/
theorem fullContent_not_stays : fullContent.length = buffSize ∧ ¬ StaysInBuffer fun fuel =>
    parseCpuInfo lowestInt fuel (.fresh (fullContent ++ [0])) {} := by
  constructor
  · have hline : readingAt3000.line.length = 20 := by decide
    simp [fullContent, CpuReading.text, hline, buffSize, ascii]
  obtain ⟨p, hstart, hp⟩ := exists_start (fullContent ++ [0]) (by simp)
  rw [fullContent, List.append_assoc] at hp
  obtain ⟨p', status, ⟨hparsing, t, ht⟩, _, hlines⟩ := cpuInfoLoop_lines (m := lowestInt)
    (by simp) hp ProcessorStatus.recorded_nil (by simp)
  -- the 51 whole lines are read first
  have hwhole : ∀ fuel, cpuInfoLoop lowestInt (fuel + 102) ⟨p, {}, 0⟩ =
      cpuInfoLoop lowestInt fuel ⟨p', status, 51⟩ := by simpa using hlines
  -- the last token is the beginning of a reading
  have hlooks : Looks [] t.value (tokens (ascii "cpu ")) p'.tokenizer :=
    looks_of_finds (by decide) ht
  obtain ⟨q, n, hends, hloop⟩ := cpuInfoLoop_tokens (m := lowestInt) _ (s := ⟨p', status, 51⟩)
    (Nat.le_refl _) hparsing hlooks
  have hover := hends.conclude_nil.mpr rfl
  intro hstays
  refine hstays (0 + n + 102) .outOfBounds ?_ (Or.inl rfl)
  show parseCpuInfo lowestInt _ _ _ = _
  rw [parseCpuInfo, hstart, ok_bind, hwhole, hloop, hover]
  rfl

end Guthi
