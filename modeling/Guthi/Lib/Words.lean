import Guthi.Lib.Bytes

/-!
# Words and numbers in a string

What the C library reads from a string: `strtol` a number, with its base taken from the prefix, and
the conversion `%s` of `sscanf` a word.

* `strtol_split` — a number takes whitespace, and then a part of one word;
* `strtol_number` — the decimal text of a number is read back;
* `wordEnds` — the words of a string are counted by their ends; what one number takes ends one word
  at most (`wordEnds_drop_strtol`).
-/

namespace Guthi

/-- `isspace`. -/
def isSpace (c : UInt8) : Bool := c = 32 || (9 ≤ c && c ≤ 13)

/-- The digit that a character stands for, in bases up to 36; 36 if it is none. -/
def digitOf (c : UInt8) : Nat :=
  if 48 ≤ c ∧ c ≤ 57 then c.toNat - 48
  else if 97 ≤ c ∧ c ≤ 122 then c.toNat - 87
  else if 65 ≤ c ∧ c ≤ 90 then c.toNat - 55
  else 36

/-- A digit of the base. -/
def isDigitIn (base : Nat) (c : UInt8) : Bool := digitOf c < base

/-- The sign in front of a number: how many characters it takes, and whether it is a minus. -/
def signOf : Bytes → Nat × Bool
  | [] => (0, false)
  | c :: _ =>
    if c = Char.toUInt8 '-' then (1, true)
    else if c = Char.toUInt8 '+' then (1, false)
    else (0, false)

/-- `x` and a digit behind it. -/
def isHex : Bytes → Bool
  | x :: c :: _ => (x = Char.toUInt8 'x' || x = Char.toUInt8 'X') && isDigitIn 16 c
  | _ => false

/-- The base of a number, and the length of the prefix that says so. -/
def baseOf : Bytes → Nat × Nat
  | [] => (10, 0)
  | c :: rest =>
    if c ≠ Char.toUInt8 '0' then (10, 0) else if isHex rest then (16, 2) else (8, 0)

/-- The value of digits, the highest one first. -/
def valueIn (base : Nat) (digits : Bytes) : Nat :=
  digits.foldl (fun n c => n * base + digitOf c) 0

/-- The number behind the sign: its value, and how many characters it takes. -/
def unsignedOf (text : Bytes) : Nat × Nat :=
  let (base, lead) := baseOf text
  let digits := (text.drop lead).takeWhile (isDigitIn base)
  if digits = [] then (0, 0) else (valueIn base digits, lead + digits.length)

/-- `strtol(text, &end, 0)`: the value, which stays in the range of `long`, and the number of
characters up to `end`. -/
def strtol (text : Bytes) : Int × Nat :=
  let signed := text.dropWhile isSpace
  let (sign, negative) := signOf signed
  let (n, length) := unsignedOf (signed.drop sign)
  if length = 0 then (0, 0)
  else
    (max (-2 ^ 63) (min (if negative then -(n : Int) else n) (2 ^ 63 - 1)),
      (text.takeWhile isSpace).length + sign + length)

/-- `sscanf(text, "%s", ..)`: the first word, if there is one. -/
def firstWord (text : Bytes) : Option Bytes :=
  match (text.dropWhile isSpace).takeWhile fun c => !isSpace c with
  | [] => none
  | c :: word => some (c :: word)

/-! ## What a number takes -/

/-- Whitespace by its codes, for `omega`. -/
theorem isSpace_iff {c : UInt8} :
    isSpace c = true ↔ c.toNat = 32 ∨ (9 ≤ c.toNat ∧ c.toNat ≤ 13) := by
  simp only [isSpace, Bool.or_eq_true, Bool.and_eq_true, decide_eq_true_eq, UInt8.le_iff_toNat_le,
    ← UInt8.toNat_inj]
  rfl

theorem not_space_of_isDigitIn {base : Nat} {c : UInt8} (hbase : base ≤ 36)
    (h : isDigitIn base c = true) : isSpace c = false := by
  rw [← Bool.not_eq_true, isSpace_iff]
  intro hspace
  -- whitespace is below all digits and letters
  have h36 : digitOf c = 36 := by
    unfold digitOf
    simp only [UInt8.le_iff_toNat_le]
    have h48 : (48 : UInt8).toNat = 48 := rfl
    have h97 : (97 : UInt8).toNat = 97 := rfl
    have h65 : (65 : UInt8).toNat = 65 := rfl
    rw [if_neg (by omega), if_neg (by omega), if_neg (by omega)]
  rw [isDigitIn, h36, decide_eq_true_eq] at h
  omega

theorem signOf_not_space (text : Bytes) : ∀ c ∈ text.take (signOf text).1, isSpace c = false := by
  cases text with
  | nil => simp
  | cons c rest =>
    rw [signOf]
    -- `-`, `+` or nothing
    split_ifs with hminus hplus
    · subst hminus
      intro d hd
      obtain rfl : d = _ := List.mem_singleton.mp hd
      decide
    · subst hplus
      intro d hd
      obtain rfl : d = _ := List.mem_singleton.mp hd
      decide
    · intro d hd
      exact (nomatch hd)

theorem baseOf_le (text : Bytes) : (baseOf text).1 ≤ 36 := by
  cases text with
  | nil => decide
  | cons c rest =>
    rw [baseOf]
    split_ifs <;> decide

theorem baseOf_not_space (text : Bytes) : ∀ c ∈ text.take (baseOf text).2, isSpace c = false := by
  cases text with
  | nil => simp
  | cons c rest =>
    rw [baseOf]
    split_ifs with hzero hhex
    · simp
    · -- both characters of the prefix, which a hexadecimal digit follows
      match rest, hhex with
      | x :: d :: _, hhex =>
        obtain rfl : c = Char.toUInt8 '0' := not_not.mp hzero
        rw [isHex, Bool.and_eq_true, Bool.or_eq_true, decide_eq_true_eq, decide_eq_true_eq] at hhex
        intro e he
        have hcases : e = Char.toUInt8 '0' ∨ e = x := by simpa using he
        rcases hcases with rfl | rfl
        · decide
        · rcases hhex.1 with rfl | rfl <;> decide
    · simp

/-- Nothing in an unsigned number is whitespace. -/
theorem unsignedOf_not_space (text : Bytes) :
    ∀ c ∈ text.take (unsignedOf text).2, isSpace c = false := by
  unfold unsignedOf
  dsimp only
  split_ifs with hdigits
  · simp
  · intro c hc
    rw [List.take_add, List.mem_append] at hc
    rcases hc with hc | hc
    · exact baseOf_not_space text c hc
    · rw [← List.prefix_iff_eq_take.mp (List.takeWhile_prefix _)] at hc
      exact not_space_of_isDigitIn (baseOf_le text) (List.mem_takeWhile_imp hc)

/-- A sign is a part of the text. -/
theorem signOf_le (text : Bytes) : (signOf text).1 ≤ text.length := by
  cases text with
  | nil => exact Nat.le_refl _
  | cons c rest =>
    rw [signOf, List.length_cons]
    split_ifs <;> simp

/-- An unsigned number is a part of the text. -/
theorem unsignedOf_le (text : Bytes) : (unsignedOf text).2 ≤ text.length := by
  unfold unsignedOf
  dsimp only
  split_ifs with hdigits
  · exact Nat.zero_le _
  · have hpos := List.length_pos_iff.mpr hdigits
    have hle := (List.takeWhile_prefix (l := text.drop (baseOf text).2)
      (isDigitIn (baseOf text).1)).length_le
    rw [List.length_drop] at hle
    omega

/-- A number takes whitespace, and behind it nothing but characters of one word. -/
theorem strtol_split (text : Bytes) : ∃ spaces word rest, text = spaces ++ (word ++ rest) ∧
    (strtol text).2 = (spaces ++ word).length ∧ (∀ c ∈ spaces, isSpace c = true) ∧
    ∀ c ∈ word, isSpace c = false := by
  by_cases hnone : (unsignedOf ((text.dropWhile isSpace).drop
      (signOf (text.dropWhile isSpace)).1)).2 = 0
  · -- no digits: nothing is taken, not even the whitespace
    refine ⟨[], [], text, rfl, ?_, by simp, by simp⟩
    unfold strtol
    exact congrArg Prod.snd (if_pos hnone)
  · have hlength : (strtol text).2 = (text.takeWhile isSpace).length +
        (signOf (text.dropWhile isSpace)).1 + (unsignedOf ((text.dropWhile isSpace).drop
          (signOf (text.dropWhile isSpace)).1)).2 := by
      unfold strtol
      exact congrArg Prod.snd (if_neg hnone)
    have hsplit : text = text.takeWhile isSpace ++ text.dropWhile isSpace :=
      List.takeWhile_append_dropWhile.symm
    have hspaces : ∀ c ∈ text.takeWhile isSpace, isSpace c = true := fun c hc =>
      List.mem_takeWhile_imp hc
    -- from here on only the text behind the whitespace matters
    generalize text.dropWhile isSpace = signed at *
    have hsign := signOf_le signed
    have hnumber := unsignedOf_le (signed.drop (signOf signed).1)
    have hword : ∀ c ∈ signed.take ((signOf signed).1 +
        (unsignedOf (signed.drop (signOf signed).1)).2), isSpace c = false := by
      intro c hc
      rw [List.take_add, List.mem_append] at hc
      rcases hc with hc | hc
      · exact signOf_not_space signed c hc
      · exact unsignedOf_not_space _ c hc
    have hlen : (strtol text).2 = (text.takeWhile isSpace ++ signed.take ((signOf signed).1 +
        (unsignedOf (signed.drop (signOf signed).1)).2)).length := by
      rw [List.length_drop] at hnumber
      rw [hlength, List.length_append, List.length_take]
      omega
    refine ⟨_, _, signed.drop ((signOf signed).1 + (unsignedOf (signed.drop (signOf signed).1)).2),
      ?_, hlen, hspaces, hword⟩
    rw [List.take_append_drop]
    exact hsplit

/-! ## The ends of words -/

/-- Nothing follows, or whitespace. -/
def atGap : Bytes → Bool
  | [] => true
  | c :: _ => isSpace c

/-- The number of words. -/
def wordEnds : Bytes → Nat
  | [] => 0
  | c :: rest => (if isSpace c = false ∧ atGap rest = true then 1 else 0) + wordEnds rest

section

variable {spaces word rest : Bytes}

/-- No word ends among whitespace. -/
theorem wordEnds_spaces (h : ∀ c ∈ spaces, isSpace c = true) :
    wordEnds (spaces ++ rest) = wordEnds rest := by
  induction spaces with
  | nil => rfl
  | cons c spaces ih =>
    have hc : ¬ (isSpace c = false ∧ atGap (spaces ++ rest) = true) := by
      intro hend
      have := h c List.mem_cons_self
      rw [hend.1] at this
      cases this
    rw [List.cons_append, wordEnds, if_neg hc, Nat.zero_add]
    exact ih fun d hd => h d (List.mem_cons_of_mem c hd)

/-- Inside of a word there is no end. -/
theorem wordEnds_inside {c d : UInt8} (hd : isSpace d = false) :
    wordEnds (c :: d :: rest) = wordEnds (d :: rest) := by
  have hinside : ¬ (isSpace c = false ∧ atGap (d :: rest) = true) := by
    rw [atGap, hd]
    simp
  rw [wordEnds, if_neg hinside, Nat.zero_add]

/-- A run of other characters is at most one word more: it may go on behind. -/
theorem wordEnds_word_le (h : ∀ c ∈ word, isSpace c = false) :
    wordEnds (word ++ rest) ≤ wordEnds rest + 1 := by
  induction word with
  | nil => exact Nat.le_succ _
  | cons c word ih =>
    have ih := ih fun d hd => h d (List.mem_cons_of_mem c hd)
    cases word with
    | nil =>
      rw [List.singleton_append, wordEnds]
      split_ifs <;> omega
    | cons d word =>
      rw [List.cons_append, List.cons_append, wordEnds_inside (h d (by simp))]
      exact ih

/-- In front of a gap it is exactly one more. -/
theorem wordEnds_word (hne : word ≠ []) (h : ∀ c ∈ word, isSpace c = false)
    (hgap : atGap rest = true) : wordEnds (word ++ rest) = wordEnds rest + 1 := by
  induction word with
  -- the last character, which the gap makes an end
  | nil => exact absurd rfl hne
  | cons c word ih =>
    cases word with
    | nil =>
      rw [List.singleton_append, wordEnds, if_pos ⟨h c (by simp), hgap⟩, Nat.add_comm]
    | cons d word =>
      rw [List.cons_append, List.cons_append, wordEnds_inside (h d (by simp))]
      exact ih (by simp) fun e he => h e (List.mem_cons_of_mem c he)

end

/-- Behind a number at most one word less is left. -/
theorem wordEnds_drop_strtol (text : Bytes) :
    wordEnds text ≤ wordEnds (text.drop (strtol text).2) + 1 := by
  obtain ⟨spaces, word, rest, htext, hlength, hspaces, hword⟩ := strtol_split text
  have hdrop : text.drop (strtol text).2 = rest := by
    rw [hlength, htext, ← List.append_assoc, List.drop_left]
  rw [hdrop]
  nth_rewrite 1 [htext]
  rw [wordEnds_spaces hspaces]
  exact wordEnds_word_le hword

/-- `strtol` does not read on behind the text. -/
theorem strtol_le (text : Bytes) : (strtol text).2 ≤ text.length := by
  obtain ⟨spaces, word, rest, htext, hlength, _⟩ := strtol_split text
  rw [hlength, htext]
  simp only [List.length_append]
  omega

/-! ## Decimal numbers -/

/-- How a number is written: the sign is there or not. -/
inductive Sign where
  | bare
  | minus
  | plus
deriving DecidableEq, Repr

/-- The characters of the sign. -/
def Sign.text : Sign → Bytes
  | bare => []
  | minus => ascii "-"
  | plus => ascii "+"

/-- The number with its sign. -/
def Sign.apply : Sign → Nat → Int
  | minus, n => -(n : Int)
  | _, n => n

section

variable {n : Nat}

/-- Decimal digits are the characters from 48 on. -/
theorem ascii_digitChar (h : n < 10) :
    ascii (String.singleton (Nat.digitChar n)) = [UInt8.ofNat (48 + n)] := by
  interval_cases n <;> decide

/-- The text of a number is its digits, by the recursion of `Nat.repr`. -/
theorem ascii_repr_of_lt (h : n < 10) : ascii n.repr = [UInt8.ofNat (48 + n)] := by
  rw [Nat.repr_of_lt h, ascii_digitChar h]

theorem ascii_repr_of_ge (h : 10 ≤ n) :
    ascii n.repr = ascii (n / 10).repr ++ [UInt8.ofNat (48 + n % 10)] := by
  rw [← ascii_digitChar (Nat.mod_lt n (by decide)), Nat.repr_of_ge h]
  simp only [ascii, String.toList_append, List.map_append]

/-- A decimal digit is read as what it was written for. -/
theorem digitOf_digit (h : n < 10) : digitOf (UInt8.ofNat (48 + n)) = n := by
  interval_cases n <;> decide

theorem valueIn_ascii_repr (n : Nat) : valueIn 10 (ascii n.repr) = n := by
  induction n using Nat.strong_induction_on with
  | _ n ih =>
    -- a single digit, or a shorter number and one digit more
    rcases Nat.lt_or_ge n 10 with h | h
    · rw [ascii_repr_of_lt h]
      show 0 * 10 + digitOf _ = n
      rw [digitOf_digit h, Nat.zero_mul, Nat.zero_add]
    · rw [ascii_repr_of_ge h, valueIn, List.foldl_append]
      show valueIn 10 (ascii (n / 10).repr) * 10 + digitOf _ = n
      rw [ih (n / 10) (by omega), digitOf_digit (Nat.mod_lt n (by decide))]
      omega

/-- The text has nothing but decimal digits. -/
theorem isDigitIn_of_mem_repr {c : UInt8} (h : c ∈ ascii n.repr) : isDigitIn 10 c = true := by
  induction n using Nat.strong_induction_on with
  | _ n ih =>
    rcases Nat.lt_or_ge n 10 with hn | hn
    · rw [ascii_repr_of_lt hn, List.mem_singleton] at h
      rw [h, isDigitIn, digitOf_digit hn]
      exact decide_eq_true hn
    · rw [ascii_repr_of_ge hn, List.mem_append, List.mem_singleton] at h
      rcases h with h | rfl
      · exact ih (n / 10) (by omega) h
      · have hmod := Nat.mod_lt n (show 0 < 10 by decide)
        rw [isDigitIn, digitOf_digit hmod]
        exact decide_eq_true hmod

/-- It begins with a zero for zero alone. -/
theorem exists_ascii_repr_cons (h : n ≠ 0) :
    ∃ c rest, ascii n.repr = c :: rest ∧ c ≠ Char.toUInt8 '0' := by
  induction n using Nat.strong_induction_on with
  | _ n ih =>
    rcases Nat.lt_or_ge n 10 with hn | hn
    · refine ⟨_, [], ascii_repr_of_lt hn, ?_⟩
      interval_cases n <;> first | exact absurd rfl h | decide
    · obtain ⟨c, rest, hc, hne⟩ := ih (n / 10) (by omega) (by omega)
      exact ⟨c, _, by rw [ascii_repr_of_ge hn, hc, List.cons_append], hne⟩

/-- Digits end where a gap begins. -/
theorem takeWhile_digits {base : Nat} {run rest : Bytes} (hbase : base ≤ 36)
    (hrun : ∀ c ∈ run, isDigitIn base c = true) (hgap : atGap rest = true) :
    (run ++ rest).takeWhile (isDigitIn base) = run := by
  rw [List.takeWhile_append_of_pos hrun]
  cases rest with
  | nil => exact List.append_nil run
  | cons c rest =>
    have hc : ¬ isDigitIn base c = true := by
      intro hdigit
      rw [atGap, not_space_of_isDigitIn hbase hdigit] at hgap
      cases hgap
    rw [List.takeWhile_cons_of_neg hc, List.append_nil]

/-- `0` in front of a gap is not the beginning of `0x`. -/
theorem not_isHex_of_atGap {rest : Bytes} (hgap : atGap rest = true) : isHex rest = false := by
  match rest with
  | [] => rfl
  | [_] => rfl
  | c :: d :: _ =>
    have hspace : isSpace c = true := hgap
    have hx : ¬ (c = Char.toUInt8 'x' ∨ c = Char.toUInt8 'X') := by
      rintro (rfl | rfl) <;> exact absurd hspace (by decide)
    rw [not_or] at hx
    simp [isHex, hx]

/-- A decimal number is read back, also `0`, which is read in base 8. -/
theorem unsignedOf_repr {rest : Bytes} (hgap : atGap rest = true) :
    unsignedOf (ascii n.repr ++ rest) = (n, (ascii n.repr).length) := by
  by_cases hzero : n = 0
  · subst hzero
    -- the only text with a leading zero
    have hbase : baseOf (Char.toUInt8 '0' :: rest) = (8, 0) := by
      rw [baseOf, if_neg (by simp), not_isHex_of_atGap hgap]
      rfl
    have hdigits : ([Char.toUInt8 '0'] ++ rest).takeWhile (isDigitIn 8) = [Char.toUInt8 '0'] :=
      takeWhile_digits (by decide) (List.forall_mem_singleton.mpr rfl) hgap
    rw [List.singleton_append] at hdigits
    show unsignedOf (Char.toUInt8 '0' :: rest) = _
    simp only [unsignedOf, hbase, List.drop_zero, hdigits]
    rfl
  · obtain ⟨c, tail, htext, hne⟩ := exists_ascii_repr_cons hzero
    have hbase : baseOf (ascii n.repr ++ rest) = (10, 0) := by
      rw [htext, List.cons_append, baseOf, if_pos hne]
    have hdigits : (ascii n.repr ++ rest).takeWhile (isDigitIn 10) = ascii n.repr :=
      takeWhile_digits (by decide) (fun c => isDigitIn_of_mem_repr) hgap
    have hsome : ascii n.repr ≠ [] := by
      rw [htext]
      exact List.cons_ne_nil c tail
    simp only [unsignedOf, hbase, List.drop_zero, hdigits, if_neg hsome, valueIn_ascii_repr,
      Nat.zero_add]

/-- The text of a number is not empty. -/
theorem ascii_repr_nonempty (n : Nat) : ascii n.repr ≠ [] := by
  by_cases hzero : n = 0
  · subst hzero
    decide
  · obtain ⟨c, rest, hc, _⟩ := exists_ascii_repr_cons hzero
    rw [hc]
    exact List.cons_ne_nil c rest

/-- No character of a number is whitespace. -/
theorem not_space_of_mem_number {sign : Sign} {c : UInt8} (h : c ∈ sign.text ++ ascii n.repr) :
    isSpace c = false := by
  rcases List.mem_append.mp h with h | h
  · cases sign with
    | bare => exact (nomatch h)
    | minus =>
      obtain rfl := List.mem_singleton.mp h
      rfl
    | plus =>
      obtain rfl := List.mem_singleton.mp h
      rfl
  · exact not_space_of_isDigitIn (by decide) (isDigitIn_of_mem_repr h)

/-- No character of a number is NUL. -/
theorem ne_zero_of_mem_number {sign : Sign} {c : UInt8} (h : c ∈ sign.text ++ ascii n.repr) :
    c ≠ 0 := by
  rintro rfl
  rcases List.mem_append.mp h with h | h
  · cases sign <;> exact absurd h (by decide)
  · exact absurd (isDigitIn_of_mem_repr h) (by decide)

/-- The sign is taken off as it was written. -/
theorem signOf_number (sign : Sign) (rest : Bytes) :
    signOf (sign.text ++ (ascii n.repr ++ rest)) =
      (sign.text.length, decide (sign = .minus)) := by
  cases sign with
  | bare =>
    obtain ⟨c, tail, htext⟩ := List.exists_cons_of_ne_nil (ascii_repr_nonempty n)
    have hdigit : isDigitIn 10 c = true := isDigitIn_of_mem_repr (by rw [htext]; simp)
    have hminus : c ≠ Char.toUInt8 '-' := by
      rintro rfl
      exact absurd hdigit (by decide)
    have hplus : c ≠ Char.toUInt8 '+' := by
      rintro rfl
      exact absurd hdigit (by decide)
    rw [htext]
    show signOf (c :: (tail ++ rest)) = _
    rw [signOf, if_neg hminus, if_neg hplus]
    rfl
  | minus => rfl
  | plus => rfl

/-- A decimal number without leading zeros, in the range of `long`, is read as it is. -/
theorem strtol_number {sign : Sign} {spaces rest : Bytes} (hspaces : ∀ c ∈ spaces, isSpace c = true)
    (hgap : atGap rest = true) (hlow : -2 ^ 63 ≤ sign.apply n) (hhigh : sign.apply n < 2 ^ 63) :
    strtol (spaces ++ (sign.text ++ ascii n.repr ++ rest)) =
      (sign.apply n, (spaces ++ (sign.text ++ ascii n.repr)).length) := by
  have hne : sign.text ++ ascii n.repr ≠ [] :=
    List.append_ne_nil_of_right_ne_nil _ (ascii_repr_nonempty n)
  obtain ⟨c, tail, htext⟩ := List.exists_cons_of_ne_nil hne
  have hmem : c ∈ sign.text ++ ascii n.repr := by
    rw [htext]
    exact List.mem_cons_self
  -- the whitespace ends where the number begins
  have hc : ¬ isSpace c = true := by
    rw [not_space_of_mem_number hmem]
    decide
  have hdrop : (spaces ++ (sign.text ++ ascii n.repr ++ rest)).dropWhile isSpace =
      sign.text ++ (ascii n.repr ++ rest) := by
    rw [List.dropWhile_append_of_pos hspaces, ← List.append_assoc, htext, List.cons_append,
      List.dropWhile_cons_of_neg hc]
  have htake : (spaces ++ (sign.text ++ ascii n.repr ++ rest)).takeWhile isSpace = spaces := by
    rw [List.takeWhile_append_of_pos hspaces, htext, List.cons_append,
      List.takeWhile_cons_of_neg hc, List.append_nil]
  have hlength : (ascii n.repr).length ≠ 0 :=
    fun h => ascii_repr_nonempty n (List.eq_nil_of_length_eq_zero h)
  have hsigned : (if decide (sign = .minus) = true then -(n : Int) else n) = sign.apply n := by
    cases sign <;> rfl
  unfold strtol
  simp only [hdrop, htake, signOf_number, List.drop_left, unsignedOf_repr hgap, if_neg hlength,
    hsigned, List.length_append]
  -- in the range of `long` nothing is clamped
  rw [min_eq_left (by omega), max_eq_right hlow, Nat.add_assoc]

end

end Guthi
