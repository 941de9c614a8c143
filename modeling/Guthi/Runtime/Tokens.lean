import Guthi.Runtime.CpuInfo

/-!
# Guthi — the tokens of a text

The text in front of the first NUL as a sequence of tokens, said without the tokenizer: a letter
begins a word and a digit a number, each as long as it can be, a colon stands for itself, and all
other characters are skipped. `Looks` ties a tokenizer to the tokens that are still ahead of it.

* `finds_nextToken` — the tokenizer finds the next token of the text;
* `looks_of_finds`, `Looks.getToken` — so it goes through the tokens one after the other.
-/

namespace Guthi

/-- The tokens a text consists of. -/
inductive Token where
  | colon
  | word (id : Bytes)
  | number (digits : Bytes)
deriving DecidableEq, Repr

namespace Token

/-- The type the tokenizer gives it. -/
def type : Token → TokenType
  | colon => .tokenColon
  | word id => idType id
  | number _ => .tokenNumber

/-- The number in the tokenizer once it has come to the token, where it was `carried` before. -/
def carry (carried : Option Nat) : Token → Option Nat
  | number digits => some (toDouble (strtoull digits))
  | _ => carried

variable {tok : Token}

theorem carry_of_type_ne (h : tok.type ≠ .tokenNumber) (carried : Option Nat) :
    tok.carry carried = carried := by
  cases tok with
  | number digits => exact absurd rfl h
  | _ => rfl

theorem type_mem (tok : Token) : tok.type ∈ [TokenType.tokenCpu, .tokenMhz, .tokenMax,
    .tokenMemAvailable, .tokenId] ++ [.tokenNumber, .tokenColon] := by
  cases tok with
  | colon => exact List.mem_append_right _ (List.mem_cons_of_mem _ List.mem_cons_self)
  | word id => exact List.mem_append_left _ (idType_mem id)
  | number digits => exact List.mem_append_right _ List.mem_cons_self

/-- The tokenizer makes no token of the other types. -/
theorem type_ne {type : TokenType} (h : type ∉ [TokenType.tokenCpu, .tokenMhz, .tokenMax,
    .tokenMemAvailable, .tokenId] ++ [.tokenNumber, .tokenColon]) : tok.type ≠ type := by
  rintro rfl
  exact h tok.type_mem

end Token

/-! ## The reference -/

/-- The first token of a text, and what is behind it. -/
def nextToken : Bytes → Option (Token × Bytes)
  | [] => none
  | c :: text =>
    if c = Char.toUInt8 ':' then some (.colon, text)
    else if isChar c then
      some (.word (c :: text.takeWhile isIdChar), text.dropWhile isIdChar)
    else if isNum c then
      some (.number (c :: text.takeWhile isNum), text.dropWhile isNum)
    else nextToken text

/-- At most so many tokens. -/
def tokensUpTo : Nat → Bytes → List Token
  | 0, _ => []
  | n + 1, text =>
    match nextToken text with
    | none => []
    | some (tok, rest) => tok :: tokensUpTo n rest

/-- The tokens of a text without a NUL. There are not more of them than characters. -/
def tokens (text : Bytes) : List Token := tokensUpTo text.length text

/-- What is behind a token is shorter, and a part of the text. -/
theorem nextToken_rest {text rest : Bytes} {tok : Token} (h : nextToken text = some (tok, rest)) :
    rest.length < text.length ∧ rest ⊆ text := by
  induction text with
  | nil => cases h
  | cons c text ih =>
    -- a word and a number end in front of the first other character
    have hdrop : ∀ p : UInt8 → Bool, (text.dropWhile p).length < (c :: text).length ∧
        text.dropWhile p ⊆ c :: text := by
      intro p
      have hsuffix := List.dropWhile_suffix (l := text) p
      exact ⟨Nat.lt_succ_of_le hsuffix.length_le,
        fun b hb => List.mem_cons_of_mem _ (hsuffix.subset hb)⟩
    rw [nextToken] at h
    split_ifs at h
    · cases h
      exact ⟨Nat.lt_succ_self _, List.subset_cons_self _ _⟩
    · cases h
      exact hdrop isIdChar
    · cases h
      exact hdrop isNum
    · -- a character that is skipped
      obtain ⟨hlen, hsub⟩ := ih h
      exact ⟨Nat.lt_succ_of_lt hlen, fun b hb => List.mem_cons_of_mem _ (hsub hb)⟩

/-- More steps than characters change nothing. -/
theorem tokensUpTo_eq {text : Bytes} : ∀ {n : Nat}, text.length ≤ n →
    tokensUpTo n text = tokens text := by
  -- on the length: the rest is shorter
  induction hlen : text.length using Nat.strong_induction_on generalizing text with
  | _ len ih =>
    subst hlen
    intro n hn
    cases hnext : nextToken text with
    | none =>
      have hnil : ∀ k, tokensUpTo k text = [] := by
        intro k
        cases k with
        | zero => rfl
        | succ k => rw [tokensUpTo, hnext]
      rw [tokens, hnil, hnil]
    | some found =>
      obtain ⟨tok, rest⟩ := found
      obtain ⟨hlt, _⟩ := nextToken_rest hnext
      -- both go on with the rest
      have hstep : ∀ k, text.length ≤ k → tokensUpTo k text = tok :: tokens rest := by
        intro k hk
        obtain ⟨k, rfl⟩ := Nat.exists_eq_add_of_le' (Nat.one_le_of_lt (hlt.trans_le hk))
        rw [tokensUpTo, hnext]
        exact congrArg (tok :: ·) (ih rest.length hlt rfl (by omega))
      exact (hstep n hn).trans (hstep text.length (Nat.le_refl _)).symm

/-- There is no other token. -/
theorem tokens_of_none {text : Bytes} (h : nextToken text = none) : tokens text = [] := by
  unfold tokens
  cases text.length with
  | zero => rfl
  | succ n => rw [tokensUpTo, h]

/-- A token, and those behind it. -/
theorem tokens_of_some {text rest : Bytes} {tok : Token} (h : nextToken text = some (tok, rest)) :
    tokens text = tok :: tokens rest := by
  obtain ⟨hlt, _⟩ := nextToken_rest h
  obtain ⟨n, hn⟩ := Nat.exists_eq_add_of_le' (Nat.one_le_of_lt hlt)
  rw [tokens, hn, tokensUpTo, h]
  exact congrArg (tok :: ·) (tokensUpTo_eq (by omega))

/-! ## The tokenizer -/

/-- The tokenizer at a token, with `rest` behind it. -/
def Tokenizer.atToken (t : Tokenizer) (tok : Token) (rest : Bytes) : Tokenizer :=
  match tok with
  | .colon => { t with type := .tokenColon, id := ascii ":", ptr := rest }
  | .word id => { t with id, type := idType id, ptr := rest }
  | .number digits =>
    { t with type := .tokenNumber, value := some (toDouble (strtoull digits)), ptr := rest }

theorem scan_takeWhile {p : UInt8 → Bool} (hp : p 0 = false) (text rest : Bytes) :
    scan p (text ++ 0 :: rest) = .ok (text.takeWhile p, text.dropWhile p ++ 0 :: rest) := by
  have hrun : ∀ b ∈ text.takeWhile p, p b = true := fun b hb => List.mem_takeWhile_imp hb
  -- the run ends at a character of the text or at the NUL
  cases hdrop : text.dropWhile p with
  | nil =>
    have htext : text.takeWhile p = text := List.takeWhile_eq_self_iff.mpr
      (List.dropWhile_eq_nil_iff.mp hdrop)
    rw [htext] at hrun ⊢
    exact scan_run hrun hp
  | cons c tail =>
    have hc : p c = false := by
      have hhead := List.head?_dropWhile_not p text
      rw [hdrop] at hhead
      simpa using hhead
    have hsplit : text ++ 0 :: rest = text.takeWhile p ++ c :: (tail ++ 0 :: rest) := by
      rw [← List.cons_append, ← hdrop, ← List.append_assoc, List.takeWhile_append_dropWhile]
    rw [hsplit]
    exact scan_run hrun hc

/-- The tokenizer finds the next token, and behind the last one the end. -/
theorem finds_nextToken {text : Bytes} (h0 : 0 ∉ text) (t : Tokenizer) (rest : Bytes) :
    Finds t (text ++ 0 :: rest) (match nextToken text with
      | none => { t with type := .tokenEnd, ptr := rest }
      | some (tok, behind) => t.atToken tok (behind ++ 0 :: rest)) := by
  induction text with
  | nil => exact .nul
  | cons c text ih =>
    have hzero : c ≠ 0 := fun h => h0 (h ▸ List.mem_cons_self)
    rw [nextToken]
    -- in the order in which `tokenize` tests
    split_ifs with hcolon hchar hnum
    · subst hcolon
      exact .colon
    · exact .word hchar (scan_takeWhile (by decide) text rest)
    · exact .number hnum (scan_takeWhile (by decide) text rest)
    · exact .skip hzero hcolon (by simpa using hchar) (by simpa using hnum)
        (ih fun h => h0 (List.mem_cons_of_mem _ h))

/-- The type of the first token. -/
def headType : List Token → TokenType
  | [] => .tokenEnd
  | tok :: _ => tok.type

/-- The value once it is read. -/
def headCarry (carried : Option Nat) : List Token → Option Nat
  | [] => carried
  | tok :: _ => tok.carry carried

theorem exists_cons_of_headType {ts : List Token} {type : TokenType} (h : headType ts = type)
    (hne : type ≠ .tokenEnd) : ∃ tok ts', ts = tok :: ts' ∧ tok.type = type := by
  cases ts with
  | nil => exact absurd h.symm hne
  | cons tok ts' => exact ⟨tok, ts', rfl, h⟩

/-- The tokenizer looks at the first of these tokens, or else at the end; `rest` is behind the
NUL, and `carried` is the number that it has read before. -/
inductive Looks (rest : Bytes) (carried : Option Nat) : List Token → Tokenizer → Prop where
  | atEnd {t : Tokenizer} (htype : t.type = .tokenEnd) (hvalue : t.value = carried)
      (hptr : t.ptr = rest) : Looks rest carried [] t
  | atToken {t : Tokenizer} {tok : Token} {text : Bytes} (htype : t.type = tok.type)
      (hvalue : t.value = tok.carry carried) (h0 : 0 ∉ text) (hptr : t.ptr = text ++ 0 :: rest) :
      Looks rest carried (tok :: tokens text) t

theorem looks_of_finds {text rest : Bytes} (h0 : 0 ∉ text) {t t' : Tokenizer}
    (h : Finds t (text ++ 0 :: rest) t') : Looks rest t.value (tokens text) t' := by
  have hnext := h.functional (finds_nextToken h0 t rest)
  cases hfound : nextToken text with
  | none =>
    rw [hfound] at hnext
    rw [hnext, tokens_of_none hfound]
    exact .atEnd rfl rfl rfl
  | some found =>
    obtain ⟨tok, behind⟩ := found
    rw [hfound] at hnext
    have hbehind : 0 ∉ behind := fun hmem => h0 ((nextToken_rest hfound).2 hmem)
    rw [hnext, tokens_of_some hfound]
    -- the tokenizer has stored the type, and for a number its value
    cases tok with
    | colon => exact .atToken rfl rfl hbehind rfl
    | word id => exact .atToken rfl rfl hbehind rfl
    | number digits => exact .atToken rfl rfl hbehind rfl

namespace Looks

variable {rest : Bytes} {carried : Option Nat} {ts : List Token} {tok : Token} {p : Parser}

theorem type_eq (h : Looks rest carried ts p.tokenizer) : p.tokenizer.type = headType ts := by
  cases h with
  | atEnd htype => exact htype
  | atToken htype => exact htype

theorem value_eq (h : Looks rest carried ts p.tokenizer) :
    p.tokenizer.value = headCarry carried ts := by
  cases h with
  | atEnd _ hvalue => exact hvalue
  | atToken _ hvalue => exact hvalue

/-- One token further. -/
theorem getToken (h : Looks rest carried (tok :: ts) p.tokenizer) : ∃ p', p.getToken = .ok p' ∧
    p'.isParsing = true ∧ Looks rest (tok.carry carried) ts p'.tokenizer := by
  cases h with
  | atToken htype hvalue h0 hptr =>
    have hmem : 0 ∈ p.tokenizer.ptr := by
      rw [hptr]
      simp
    obtain ⟨t, ht⟩ := exists_finds hmem p.tokenizer
    refine ⟨_, Parser.getToken_of_finds ht, rfl, ?_⟩
    rw [hptr] at ht
    rw [← hvalue]
    exact looks_of_finds h0 ht

end Looks

end Guthi
