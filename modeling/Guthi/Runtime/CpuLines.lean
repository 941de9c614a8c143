import Guthi.Runtime.SystemInfo

/-!
# Guthi — the lines of the processors

What `parse_cpu_info` makes of the `MHz` lines of `/proc/cpuinfo`, and how much of them
`GetSystemInfo` gets to see.
-/

namespace Guthi

/-- One line: `cpu MHz`, a colon between blanks, and a number with a fraction. -/
structure CpuReading where
  before : Bytes
  after : Bytes
  mhz : Bytes
  frac : Bytes
  before_blank : ∀ c ∈ before, isBlank c = true
  after_blank : ∀ c ∈ after, isBlank c = true
  mhz_ne : mhz ≠ []
  mhz_num : ∀ c ∈ mhz, isNum c = true
  mhz_lt : decimal mhz < 2 ^ 31
  frac_ne : frac ≠ []
  frac_num : ∀ c ∈ frac, isNum c = true

namespace CpuReading

def header (r : CpuReading) : Bytes := ascii "cpu MHz" ++ (r.before ++ (ascii ":" ++ r.after))

def number (r : CpuReading) : Bytes := r.mhz ++ (ascii "." ++ (r.frac ++ ascii "\n"))

def line (r : CpuReading) : Bytes := r.header ++ r.number

end CpuReading

/-- The parser has just come to the text. -/
def StandsAt (text : Bytes) (p : Parser) : Prop :=
  p.isParsing = true ∧ ∃ t, Finds t text p.tokenizer

theorem exists_standsAt {p : Parser} (h0 : 0 ∈ p.tokenizer.ptr) :
    ∃ p', p.getToken = .ok p' ∧ StandsAt p.tokenizer.ptr p' := by
  obtain ⟨t, ht⟩ := exists_finds h0 p.tokenizer
  exact ⟨_, Parser.getToken_of_finds ht, rfl, p.tokenizer, ht⟩

theorem Parser.getToken_at {text : Bytes} {p : Parser} {t : Tokenizer}
    (hptr : p.tokenizer.ptr = text) (h : Finds p.tokenizer text t) :
    p.getToken = .ok { tokenizer := t, isParsing := true } := by
  subst hptr
  exact Parser.getToken_of_finds h

/-- The tokens of the header. -/
theorem header_tokens (r : CpuReading) {rest : Bytes} {p : Parser}
    (hp : StandsAt (r.header ++ rest) p) : p.tokenizer.type = .tokenCpu ∧
      ∃ p₁ p₂, p.getToken = .ok p₁ ∧ p₁.tokenizer.type = .tokenMhz ∧ p₁.getToken = .ok p₂ ∧
        p₂.tokenizer.type = .tokenColon ∧ p₂.tokenizer.ptr = r.after ++ rest := by
  obtain ⟨_, t, ht⟩ := hp
  -- `MHz` ends at a blank or at the colon
  obtain ⟨e, tail, hmhz, he, hcolon⟩ : ∃ e tail, r.before ++ Char.toUInt8 ':' :: (r.after ++ rest) =
      e :: tail ∧ isIdChar e = false ∧ ∀ u, Finds u (e :: tail) { u with
        type := .tokenColon, id := ascii ":", ptr := r.after ++ rest } := by
    have hcolon : ∀ u, Finds u (r.before ++ Char.toUInt8 ':' :: (r.after ++ rest)) { u with
        type := .tokenColon, id := ascii ":", ptr := r.after ++ rest } := fun u =>
      Finds.blanks r.before_blank .colon
    cases hbefore : r.before with
    | nil =>
      rw [hbefore] at hcolon
      exact ⟨_, _, rfl, by decide, hcolon⟩
    | cons c before =>
      rw [hbefore] at hcolon
      obtain ⟨_, _, _, _, hc⟩ := not_skipped_of_isBlank (r.before_blank c (by simp [hbefore]))
      exact ⟨c, _, rfl, hc, hcolon⟩
  have hsplit : r.header ++ rest = Char.toUInt8 'c' :: (ascii "pu" ++ Char.toUInt8 ' ' ::
      (Char.toUInt8 'M' :: (ascii "Hz" ++ e :: tail))) := by
    rw [← hmhz]
    simp [CpuReading.header, ascii]
  rw [hsplit] at ht
  have hrun : ∀ text ∈ [ascii "pu", ascii "Hz"], ∀ b ∈ text, isIdChar b = true := by
    simp only [← List.all_eq_true]
    decide
  -- `cpu` ends at the blank
  have hcpu := ht.functional (.identifier (by decide) (hrun _ (by decide)) (by decide))
  have hword : ∀ u, Finds u (Char.toUInt8 ' ' :: (Char.toUInt8 'M' :: (ascii "Hz" ++ e :: tail)))
      { u with id := ascii "MHz", type := .tokenMhz, ptr := e :: tail } := fun u =>
    .skip (by decide) (by decide) (by decide) (by decide)
      (.identifier (by decide) (hrun _ (by decide)) he)
  refine ⟨by rw [hcpu]; rfl, _, _, Parser.getToken_at ?_ (hword _), rfl,
    Parser.getToken_at rfl (hcolon _), rfl, rfl⟩
  rw [hcpu]

/-- What becomes of a number that fits into an `int`. -/
theorem Machine.toInt_digits (m : Machine) {digits : Bytes} (h : decimal digits < 2 ^ 31) :
    m.toInt (some (toDouble (strtoull digits))) = Int32.ofNat (decimal digits) := by
  have hdouble : toDouble (strtoull digits) = decimal digits := toDouble_strtoull_decimal (by omega)
  rw [hdouble, m.toInt_of_lt _ h]

/-- The tokens of the number and its fraction, where `p` has the colon. -/
theorem number_tokens (r : CpuReading) {rest : Bytes} (h0 : 0 ∈ rest) {p : Parser}
    (hptr : p.tokenizer.ptr = r.after ++ (r.number ++ rest)) :
    ∃ p₃ p₄ p₅, p.getToken = .ok p₃ ∧ p₃.tokenizer.type = .tokenNumber ∧
      p₃.tokenizer.value = some (toDouble (strtoull r.mhz)) ∧ p₃.getToken = .ok p₄ ∧
      p₄.tokenizer.type = .tokenNumber ∧ p₄.isParsing = true ∧ p₄.getToken = .ok p₅ ∧
      StandsAt rest p₅ := by
  have hsplit : r.number ++ rest =
      r.mhz ++ Char.toUInt8 '.' :: (r.frac ++ Char.toUInt8 '\n' :: rest) := by
    simp [CpuReading.number, ascii]
  rw [hsplit] at hptr
  -- the number ends at the point
  have hmhz : ∀ u, Finds u (r.after ++ (r.mhz ++ Char.toUInt8 '.' :: (r.frac ++
      Char.toUInt8 '\n' :: rest))) { u with
        type := .tokenNumber, value := some (toDouble (strtoull r.mhz)),
        ptr := Char.toUInt8 '.' :: (r.frac ++ Char.toUInt8 '\n' :: rest) } := fun u =>
    Finds.blanks r.after_blank (Finds.digits r.mhz_ne r.mhz_num (by decide))
  -- the fraction is a number of its own
  have hfrac : ∀ u, Finds u (Char.toUInt8 '.' :: (r.frac ++ Char.toUInt8 '\n' :: rest)) { u with
        type := .tokenNumber, value := some (toDouble (strtoull r.frac)),
        ptr := Char.toUInt8 '\n' :: rest } := fun u =>
    .skip (by decide) (by decide) (by decide) (by decide)
      (Finds.digits r.frac_ne r.frac_num (by decide))
  obtain ⟨t, ht⟩ := exists_finds h0 { (p.tokenizer) with
        type := .tokenNumber, value := some (toDouble (strtoull r.frac)),
        ptr := Char.toUInt8 '\n' :: rest }
  refine ⟨_, _, _, Parser.getToken_at hptr (hmhz _), rfl, rfl, Parser.getToken_at rfl (hfrac _),
    rfl, rfl, Parser.getToken_at rfl (.skip (by decide) (by decide) (by decide) (by decide) ht),
    rfl, _, ht⟩

/-- **One line** takes two rounds of the loop: the second one skips the fraction. -/
theorem cpuInfoLoop_line {m : Machine} (r : CpuReading) {rest : Bytes} (h0 : 0 ∈ rest) {p : Parser}
    (hp : StandsAt (r.line ++ rest) p) {status status' : ProcessorStatus} {index : Nat}
    (hrecord : status.record index (Int32.ofNat (decimal r.mhz)) = .ok status') :
    ∃ p', StandsAt rest p' ∧ ∀ fuel, cpuInfoLoop m (fuel + 2) ⟨p, status, index⟩ =
      cpuInfoLoop m fuel ⟨p', status', index + 1⟩ := by
  rw [CpuReading.line, List.append_assoc] at hp
  obtain ⟨hcpu, p₁, p₂, h₁, hmhz, h₂, hcolon, hptr⟩ := header_tokens r hp
  obtain ⟨p₃, p₄, p₅, h₃, hnumber, hvalue, h₄, hfrac, hparsing, h₅, hrest⟩ :=
    number_tokens r h0 hptr
  refine ⟨p₅, hrest, fun fuel => ?_⟩
  -- the round that records
  have hfirst : cpuInfoBody m ⟨p, status, index⟩ = .ok (.next ⟨p₄, status', index + 1⟩) := by
    rw [cpuInfoBody_cpu hcpu, h₁, ok_bind, cpuReading_number hmhz h₂ hcolon h₃ hnumber, h₄, ok_bind,
      hvalue, m.toInt_digits r.mhz_lt, hrecord]
    rfl
  -- the round that skips the fraction
  have hsecond : cpuInfoBody m ⟨p₄, status', index + 1⟩ =
      .ok (.next ⟨p₅, status', index + 1⟩) := by
    have hne : p₄.tokenizer.type ≠ .tokenCpu := by rw [hfrac]; decide
    rw [cpuInfoBody_other hne, Parser.acceptOther_of_skipped (Or.inr (Or.inr hfrac)), h₅]
    rfl
  rw [cpuInfoLoop_next hp.1 hfirst, cpuInfoLoop_next hparsing hsecond]

namespace CpuReading

def mhzValue (r : CpuReading) : Nat := decimal r.mhz

def text (rs : List CpuReading) : Bytes := rs.flatMap line

theorem text_cons (r : CpuReading) (rs : List CpuReading) : text (r :: rs) = r.line ++ text rs :=
  List.flatMap_cons

end CpuReading

open CpuReading

/-- **Any number of lines**, one after the other, as long as there are records for them. -/
theorem cpuInfoLoop_lines {m : Machine} {rs : List CpuReading} {rest : Bytes} (h0 : 0 ∈ rest)
    {p : Parser} (hp : StandsAt (text rs ++ rest) p) {done : List Nat} {status : ProcessorStatus}
    (hstatus : status.Recorded done) (hlen : done.length + rs.length ≤ 64) :
    ∃ p' status', StandsAt rest p' ∧ status'.Recorded (done ++ rs.map mhzValue) ∧
      ∀ fuel, cpuInfoLoop m (fuel + 2 * rs.length) ⟨p, status, done.length⟩ =
        cpuInfoLoop m fuel ⟨p', status', done.length + rs.length⟩ := by
  -- on the lines, with those before them as records
  induction rs generalizing p done status with
  | nil => exact ⟨p, status, hp, by simpa using hstatus, fun fuel => rfl⟩
  | cons r rs ih =>
    rw [List.length_cons] at hlen
    rw [text_cons, List.append_assoc] at hp
    obtain ⟨status₁, hrecord, hstatus₁⟩ := hstatus.record (by omega) r.mhzValue
    obtain ⟨p₁, hp₁, hline⟩ := cpuInfoLoop_line (m := m) r (by simp [h0]) hp hrecord
    obtain ⟨p', status', hp', hstatus', hlines⟩ := ih hp₁ hstatus₁ (by simp; omega)
    refine ⟨p', status', hp', by simpa using hstatus', fun fuel => ?_⟩
    have hfuel : fuel + 2 * (r :: rs).length = fuel + 2 * rs.length + 2 := by
      rw [List.length_cons]
      omega
    rw [List.length_append, List.length_singleton] at hlines
    rw [hfuel, hline, hlines, List.length_cons, Nat.add_assoc, Nat.add_comm 1]

/-- At the end the loop is left, if there is one more character to read. -/
theorem cpuInfoLoop_end {m : Machine} {rest : Bytes} {p : Parser} (hp : StandsAt (0 :: rest) p)
    (h0 : 0 ∈ rest) (status : ProcessorStatus) (index : Nat) :
    ∃ p', p'.isParsing = true ∧ ∀ fuel, cpuInfoLoop m (fuel + 1) ⟨p, status, index⟩ =
      .ok ⟨p', status, index⟩ := by
  obtain ⟨hparsing, t, ht⟩ := hp
  have htoken := ht.functional .nul
  have htype : p.tokenizer.type = .tokenEnd := by rw [htoken]
  have hne : p.tokenizer.type ≠ .tokenCpu := by rw [htype]; decide
  obtain ⟨p', hp', hparsing', _⟩ := exists_standsAt (p := p) (by rw [htoken]; exact h0)
  refine ⟨p', hparsing', fun fuel => cpuInfoLoop_leave hparsing ?_ fuel⟩
  rw [cpuInfoBody_other hne, Parser.acceptOther_of_end htype, hp']
  rfl

/-! ## The whole parse -/

theorem Parser.exists_start {buffer : Bytes} (h0 : 0 ∈ buffer) {p : Parser}
    (hptr : p.tokenizer.ptr = buffer) (hparsing : p.isParsing = true) :
    ∃ p', p.start = .ok p' ∧ StandsAt buffer p' := by
  subst hptr
  obtain ⟨t, ht⟩ := exists_finds h0 p.tokenizer
  refine ⟨{ p with tokenizer := t }, ?_, hparsing, _, ht⟩
  rw [Parser.start, tokenize]
  exact congrArg (· >>= _) (finds_iff.mp ht)

/-- The records of the readings, in the numbers that the fields hold. -/
theorem ProcessorStatus.Recorded.lines {rs : List CpuReading} {status : ProcessorStatus}
    (h : status.Recorded (rs.map mhzValue)) (hlen : rs.length ≤ 64) :
    status.processorCount.toNat = rs.length ∧ ∀ (i : Nat) (r : CpuReading),
      rs[i]? = some r → ∃ info : ProcessorInfo, status.processors[i]? = some info ∧
        info.processorNumber.toNat = i ∧ info.currentMhz.toNat = decimal r.mhz := by
  have hsize : UInt32.size = 2 ^ 32 := rfl
  constructor
  · rw [h.1, List.length_map, UInt32.toNat_ofNat_of_lt' (by omega)]
  · intro i r hr
    have hi : i < rs.length := (List.getElem?_eq_some_iff.mp hr).1
    obtain ⟨info, hinfo, hnumber, hmhz⟩ := h.2 i r.mhzValue (by rw [List.getElem?_map, hr]; rfl)
    refine ⟨info, hinfo, ?_, ?_⟩
    · rw [hnumber, UInt32.toNat_ofNat_of_lt' (by omega)]
    · have hlt : r.mhzValue < 2 ^ 31 := r.mhz_lt
      rw [hmhz, UInt32.toNat_ofNat_of_lt' (by omega)]
      rfl

/-- **The printed frequencies**: whatever the parser has read before, `parse_cpu_info` returns and
records each of at most 64 readings. -/
theorem parseCpuInfo_lines (m : Machine) {rs : List CpuReading} (hlen : rs.length ≤ 64)
    (rest : Bytes) {p : Parser} (hparsing : p.isParsing = true) {status : ProcessorStatus}
    (hcount : status.processorCount = 0) : ∃ fuel p' status',
      parseCpuInfo m fuel (p.setPtr (text rs ++ 0 :: 0 :: rest)) status = .ok (p', status') ∧
      status'.processorCount.toNat = rs.length ∧ ∀ (i : Nat) (r : CpuReading),
        rs[i]? = some r → ∃ info : ProcessorInfo, status'.processors[i]? = some info ∧
          info.processorNumber.toNat = i ∧ info.currentMhz.toNat = decimal r.mhz := by
  have h0 : 0 ∈ text rs ++ 0 :: 0 :: rest := by simp
  obtain ⟨p₁, hstart, hp⟩ := Parser.exists_start h0 (p := p.setPtr (text rs ++ 0 :: 0 :: rest)) rfl
    hparsing
  have hnone : status.Recorded [] := ⟨hcount, fun _ _ h => by simp at h⟩
  obtain ⟨p₂, status', hp₂, hstatus, hlines⟩ := cpuInfoLoop_lines (m := m) (by simp) hp hnone
    (by simpa using hlen)
  -- the NUL behind the lines, and one more
  obtain ⟨p', _, hend⟩ := cpuInfoLoop_end (m := m) hp₂ (by simp) status' (0 + rs.length)
  rw [List.nil_append] at hstatus
  refine ⟨0 + 1 + 2 * rs.length, p', status', ?_, hstatus.lines hlen⟩
  have hloop := (hlines (0 + 1)).trans (hend 0)
  rw [List.length_nil] at hloop
  rw [parseCpuInfo, hstart, ok_bind, hloop]
  rfl

/-- A machine that makes the lowest `int` of every number that is out of range. -/
def lowestInt : Machine where
  toInt
    | some n => if n < 2 ^ 31 then Int32.ofNat n else Int32.minValue
    | none => Int32.minValue
  toInt_of_lt _ h := if_pos h

def readingAt3000 : CpuReading where
  before := ascii "\t\t"
  after := ascii " "
  mhz := ascii "3000"
  frac := ascii "123"
  before_blank := List.all_eq_true.mp (by decide)
  after_blank := List.all_eq_true.mp (by decide)
  mhz_ne := by decide
  mhz_num := List.all_eq_true.mp (by decide)
  mhz_lt := by decide
  frac_ne := by decide
  frac_num := List.all_eq_true.mp (by decide)

theorem parseCpuInfo_lines_two : ∃ fuel p' status',
    parseCpuInfo lowestInt fuel ((Parser.fresh []).setPtr
      (text [readingAt3000, readingAt3000] ++ 0 :: 0 :: [])) {} = .ok (p', status') ∧
    status'.processorCount.toNat = 2 ∧ ∀ (i : Nat) (r : CpuReading),
      [readingAt3000, readingAt3000][i]? = some r →
        ∃ info : ProcessorInfo, status'.processors[i]? = some info ∧
          info.processorNumber.toNat = i ∧ info.currentMhz.toNat = decimal r.mhz :=
  parseCpuInfo_lines lowestInt (by decide) [] rfl rfl

end Guthi
