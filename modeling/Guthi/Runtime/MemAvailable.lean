import Guthi.Lib.Words
import Guthi.Runtime.CpuLines
import Guthi.Runtime.MaximumEndings

/-!
# Guthi — the available memory

What `parse_memory_free_space` makes of the `MemAvailable` line of `/proc/meminfo`. The number goes
through a `double` and an `int`, and is then taken to 64 bits.

* `parseMemoryFreeSpace_line` — the value that is assigned, for every number and machine;
* `availableRam_exact_iff` — it is the printed one as long as the number fits into an `int`.
-/

namespace Guthi

variable {m : Machine}

/-! ## Printed numbers -/

/-- The digits of a number in the tokenizer are those of `strtol`. -/
theorem isNum_iff {c : UInt8} : isNum c = true ↔ isDigitIn 10 c = true := by
  have h0 : (Char.toUInt8 '0').toNat = 48 := rfl
  have h9 : (Char.toUInt8 '9').toNat = 57 := rfl
  have h48 : (48 : UInt8).toNat = 48 := rfl
  have h57 : (57 : UInt8).toNat = 57 := rfl
  have h65 : (65 : UInt8).toNat = 65 := rfl
  have h97 : (97 : UInt8).toNat = 97 := rfl
  simp only [isNum, isDigitIn, digitOf, Bool.and_eq_true, decide_eq_true_eq,
    UInt8.le_iff_toNat_le]
  split_ifs <;> omega

theorem decimal_eq_valueIn {digits : Bytes} (h : ∀ c ∈ digits, isNum c = true) :
    decimal digits = valueIn 10 digits := by
  refine List.foldl_ext _ _ 0 fun n c hc => ?_
  have hdigit : 48 ≤ c ∧ c ≤ 57 := by
    have hc := h c hc
    rwa [isNum, Bool.and_eq_true, decide_eq_true_eq, decide_eq_true_eq] at hc
  show n * 10 + (c.toNat - 48) = n * 10 + digitOf c
  rw [digitOf, if_pos hdigit]

section

variable {k : Nat}

theorem isNum_of_mem_repr : ∀ b ∈ ascii k.repr, isNum b = true :=
  fun _ hb => isNum_iff.mpr (isDigitIn_of_mem_repr hb)

/-- A `double` holds the number exactly. -/
theorem toDouble_strtoull_repr (hk : k < 2 ^ 53) : toDouble (strtoull (ascii k.repr)) = k := by
  have hvalue : decimal (ascii k.repr) = k := by
    rw [decimal_eq_valueIn isNum_of_mem_repr, valueIn_ascii_repr]
  rw [toDouble_strtoull_decimal (hvalue.trans_lt hk), hvalue]

end

/-! ## The line -/

namespace Parser

variable {text : Bytes} {p : Parser} {t : Tokenizer} {type : TokenType}

theorem start_at (hptr : p.tokenizer.ptr = text) (h : Finds p.tokenizer text t) :
    p.start = .ok { p with tokenizer := t } := by
  rw [start, tokenize, hptr, finds_iff.mp h]
  rfl

theorem acceptToken_at (htype : p.tokenizer.type = type) (hptr : p.tokenizer.ptr = text)
    (h : Finds p.tokenizer text t) :
    p.acceptToken type = .ok (true, { tokenizer := t, isParsing := true }) := by
  rw [acceptToken_of_eq htype, getToken_at hptr h, ok_bind]

theorem expectToken_at (htype : p.tokenizer.type = type) (hptr : p.tokenizer.ptr = text)
    (h : Finds p.tokenizer text t) :
    p.expectToken type = .ok (true, { tokenizer := t, isParsing := true }) := by
  rw [expectToken_of_eq htype, getToken_at hptr h, ok_bind]

end Parser

/-- `MemAvailable:`, blanks, the number and its unit. -/
def memLine (blanks : Bytes) (k : Nat) : Bytes :=
  ascii "MemAvailable:" ++ (blanks ++ (ascii k.repr ++ ascii " kB\n"))

/-- The tokens up to the number. -/
theorem memLine_tokens {blanks rest : Bytes} (hblanks : ∀ c ∈ blanks, isBlank c = true) {k : Nat}
    {p : Parser} (hptr : p.tokenizer.ptr = memLine blanks k ++ 0 :: rest)
    (hparsing : p.isParsing = true) :
    ∃ p₁ p₂ p₃, p.start = .ok p₁ ∧ p₁.isParsing = true ∧
      p₁.acceptToken .tokenMemAvailable = .ok (true, p₂) ∧
      p₂.expectToken .tokenColon = .ok (true, p₃) ∧
      p₃.tokenizer.type = .tokenNumber ∧
      p₃.tokenizer.value = some (toDouble (strtoull (ascii k.repr))) := by
  have hsplit : memLine blanks k ++ 0 :: rest = Char.toUInt8 'M' :: (ascii "emAvailable" ++
      Char.toUInt8 ':' :: (blanks ++ (ascii k.repr ++ Char.toUInt8 ' ' ::
        (ascii "kB\n" ++ 0 :: rest)))) := by
    simp [memLine, ascii]
  rw [hsplit] at hptr
  have hrun : ∀ b ∈ ascii "emAvailable", isIdChar b = true := by
    simp only [← List.all_eq_true]
    decide
  -- `MemAvailable` ends at the colon
  have hword : Finds p.tokenizer (Char.toUInt8 'M' :: (ascii "emAvailable" ++
      Char.toUInt8 ':' :: (blanks ++ (ascii k.repr ++ Char.toUInt8 ' ' ::
        (ascii "kB\n" ++ 0 :: rest))))) _ := .identifier (by decide) hrun (by decide)
  have hnumber : ∀ u, Finds u (blanks ++ (ascii k.repr ++ Char.toUInt8 ' ' ::
      (ascii "kB\n" ++ 0 :: rest))) { u with
        type := .tokenNumber, value := some (toDouble (strtoull (ascii k.repr))),
        ptr := Char.toUInt8 ' ' :: (ascii "kB\n" ++ 0 :: rest) } := fun u =>
    Finds.blanks hblanks (Finds.digits (ascii_repr_nonempty k) isNum_of_mem_repr (by decide))
  refine ⟨_, _, _, Parser.start_at hptr hword, hparsing, Parser.acceptToken_at ?_ rfl .colon,
    Parser.expectToken_at rfl rfl (hnumber _), rfl, rfl⟩
  show idType (ascii "MemAvailable") = .tokenMemAvailable
  decide

/-- **The line**: the parse returns, and what it assigns is the number as an `int`. -/
theorem parseMemoryFreeSpace_line {blanks : Bytes} (hblanks : ∀ c ∈ blanks, isBlank c = true)
    {k : Nat} (hk : k < 2 ^ 53) (rest : Bytes) {p : Parser} (hparsing : p.isParsing = true)
    (status : MemoryStatus) (fuel : Nat) :
    parseMemoryFreeSpace m (fuel + 2) (p.setPtr (memLine blanks k ++ 0 :: rest)) status =
      .ok { status with availableRam := (m.toInt (some k)).toInt64.toUInt64 * 1024 } := by
  obtain ⟨p₁, p₂, p₃, hstart, hparsing₁, havailable, hcolon, htype, hvalue⟩ :=
    memLine_tokens (p := p.setPtr (memLine blanks k ++ 0 :: rest)) hblanks rfl hparsing
  have hinteger : p₃.tokenizer.type ≠ .tokenInteger := by
    rw [htype]
    decide
  -- no token is an integer, so that the parse ends here
  have hbody := memoryBody_available (m := m) (s := ⟨p₁, 0⟩) havailable hcolon
  rw [if_pos rfl, Parser.expectToken_of_ne hinteger, ok_bind, hvalue, toDouble_strtoull_repr hk]
    at hbody
  rw [parseMemoryFreeSpace, hstart, ok_bind, memoryLoop_next hparsing₁ hbody, memoryLoop_stop rfl]
  rfl

/-- What becomes of an `int` in the end: only one that is not negative is kept. -/
theorem toNat_ram_eq_iff {v : Int32} {k : Nat} (hk : k < 2 ^ 53) :
    (v.toInt64.toUInt64 * 1024).toNat = k * 1024 ↔ v.toInt = k := by
  -- as a `uint64_t`, an `int` below 0 is far above
  have hcond : v.toInt64.toInt = if 2 * v.toInt64.toUInt64.toNat < 2 ^ 64
      then (v.toInt64.toUInt64.toNat : Int) else v.toInt64.toUInt64.toNat - (2 ^ 64 : Nat) :=
    BitVec.toInt_eq_toNat_cond v.toInt64.toBitVec
  have hlow := v.le_toInt
  have hhigh := v.toInt_lt
  have hnat := v.toInt64.toUInt64.toNat_lt
  have hmul : (1024 : UInt64).toNat = 1024 := rfl
  rw [Int32.toInt_toInt64] at hcond
  rw [UInt64.toNat_mul, hmul]
  split_ifs at hcond <;> omega

/-- `GetMemoryInfo` gets the available memory of the line. -/
def ReadsExactly (m : Machine) (p : Parser) (status : MemoryStatus) (buffer : Bytes)
    (k : Nat) : Prop :=
  ∃ fuel status', parseMemoryFreeSpace m fuel (p.setPtr buffer) status = .ok status' ∧
    status'.availableRam.toNat = k * 1024

/-- **When the available memory is read exactly**, on any machine. -/
theorem availableRam_exact_iff (m : Machine) {p : Parser} (hparsing : p.isParsing = true)
    (status : MemoryStatus) {blanks : Bytes} (hblanks : ∀ c ∈ blanks, isBlank c = true)
    {k : Nat} (hk : k < 2 ^ 53) (rest : Bytes) :
    ReadsExactly m p status (memLine blanks k ++ 0 :: rest) k ↔ k < 2 ^ 31 := by
  have hline := parseMemoryFreeSpace_line (m := m) hblanks hk rest hparsing status
  have hexact : ReadsExactly m p status (memLine blanks k ++ 0 :: rest) k ↔
      ((m.toInt (some k)).toInt64.toUInt64 * 1024).toNat = k * 1024 := by
    constructor
    · rintro ⟨fuel, status', hparse, hram⟩
      have hmore := parseMemoryFreeSpace_mono (Nat.le_add_right fuel 2) hparse
      cases hmore.symm.trans (hline fuel)
      exact hram
    · intro hram
      exact ⟨0 + 2, _, hline 0, hram⟩
  rw [hexact, toNat_ram_eq_iff hk]
  constructor
  · -- an `int` is below 2 ^ 31
    intro hvalue
    have hhigh := (m.toInt (some k)).toInt_lt
    omega
  · intro hlt
    rw [m.toInt_of_lt k hlt]
    exact Int32.toInt_ofNat_of_lt hlt

theorem availableRam_exact_iff_mib : ReadsExactly lowestInt (.fresh []) {}
    (memLine (ascii "    ") 1024 ++ 0 :: []) 1024 :=
  (availableRam_exact_iff lowestInt rfl {} (List.all_eq_true.mp (by decide)) (by decide) []).mpr
    (by decide)

/-- 2 TiB. -/
theorem availableRam_not_exact : ¬ ReadsExactly lowestInt (.fresh []) {}
    (memLine (ascii "    ") 2147483648 ++ 0 :: []) 2147483648 := by
  rintro ⟨fuel, status', hparse, hram⟩
  have hblanks : ∀ c ∈ ascii "    ", isBlank c = true := List.all_eq_true.mp (by decide)
  have hk : 2147483648 < 2 ^ 53 := by decide
  have hline := parseMemoryFreeSpace_line (m := lowestInt) hblanks hk [] (p := .fresh []) rfl {}
    fuel
  cases (parseMemoryFreeSpace_mono (Nat.le_add_right fuel 2) hparse).symm.trans hline
  revert hram
  decide

end Guthi
