import Guthi.Runtime.Tokens
import Mathlib.Data.Nat.Digits.Defs

/-!
# Guthi — the lexical grammar of the tokenizer

`tokenize` is called again and again from the start of a text, until it comes to the end. The calls
show the tokens of the text one after the other, each of them moves the pointer on, and the last one
leaves it behind the NUL.

* `idType_eq_wordType` — the table of keywords, said without the table;
* `toDouble_strtoull` — numbers below `2 ^ 53` are exact;
* `Finds.length_lt` — a call moves on; `tokenize_next` and `tokenize_none` — what it shows;
* `tokenizeUntilEnd_shows` — the calls show the tokens of the text.
-/

namespace Guthi

/-! ## The grammar -/

/-- Equal up to case. -/
def SameLetters (s1 s2 : Bytes) : Prop := s1.map toLower = s2.map toLower

instance (s1 s2 : Bytes) : Decidable (SameLetters s1 s2) :=
  inferInstanceAs (Decidable (s1.map toLower = s2.map toLower))

/-- The keyword that the word is, or else an identifier. -/
def wordType (id : Bytes) : TokenType :=
  if SameLetters id (ascii "cpu") then .tokenCpu
  else if SameLetters id (ascii "mhz") then .tokenMhz
  else if SameLetters id (ascii "max") then .tokenMax
  else if SameLetters id (ascii "MemAvailable") then .tokenMemAvailable
  else .tokenId

/-- The number that the digits stand for. -/
def digitsValue (digits : Bytes) : Nat :=
  Nat.ofDigits 10 (digits.reverse.map fun d => d.toNat - 48)

/-- The tokenizer shows the token. A number is exact when it is below `2 ^ 53`. -/
def Token.ShownBy (t : Tokenizer) : Token → Prop
  | colon => t.type = .tokenColon
  | word id => t.type = wordType id ∧ t.id = id
  | number digits => t.type = .tokenNumber ∧
      ∃ n, t.value = some n ∧ (digitsValue digits < 2 ^ 53 → n = digitsValue digits)

/-- The calls of `tokenize` up to the one that comes to the end. -/
def tokenizeUntilEnd : Nat → Tokenizer → Except ParserFault (List Tokenizer)
  | 0, _ => .error .outOfFuel
  | fuel + 1, t => do
    let t' ← tokenize t
    if t'.type = .tokenEnd then return [t']
    else return t' :: (← tokenizeUntilEnd fuel t')

/-- The pointer has moved on. -/
def Tokenizer.Forward (t t' : Tokenizer) : Prop :=
  t'.ptr <:+ t.ptr ∧ t'.ptr.length < t.ptr.length

/-! ## Words and numbers -/

theorem isEqualCaseInsensitive_iff {s1 s2 : Bytes} :
    isEqualCaseInsensitive s1 s2 = true ↔ SameLetters s1 s2 := by
  unfold SameLetters
  -- letter by letter, and the lengths agree
  induction s1 generalizing s2 with
  | nil => cases s2 <;> simp [isEqualCaseInsensitive]
  | cons c s1 ih =>
    cases s2 with
    | nil => simp [isEqualCaseInsensitive]
    | cons d s2 =>
      rw [List.map_cons, List.map_cons, List.cons.injEq, ← ih]
      simp only [isEqualCaseInsensitive, List.length_cons, List.zip_cons_cons, List.all_cons]
      by_cases hlen : s1.length = s2.length <;> simp [hlen]

theorem isEqualCaseInsensitive_eq (keyword id : Bytes) :
    isEqualCaseInsensitive keyword id = decide (SameLetters id keyword) := by
  rw [Bool.eq_iff_iff, decide_eq_true_iff, isEqualCaseInsensitive_iff]
  exact eq_comm

theorem idType_eq_wordType (id : Bytes) : idType id = wordType id := by
  simp only [idType, wordType, keywords, List.findIdx?_cons, List.findIdx?_nil,
    isEqualCaseInsensitive_eq, decide_eq_true_eq]
  -- the keywords in their order
  split_ifs <;> rfl

theorem decimal_eq_digitsValue (digits : Bytes) : decimal digits = digitsValue digits := by
  induction digits using List.reverseRecOn with
  | nil => rfl
  -- on the last digit, which is the lowest
  | append_singleton digits d ih =>
    show List.foldl _ 0 (digits ++ [d]) = _
    rw [List.foldl_append, digitsValue, List.reverse_append, List.reverse_singleton,
      List.singleton_append, List.map_cons, Nat.ofDigits_cons]
    show decimal digits * 10 + (d.toNat - 48) = _
    rw [ih, digitsValue]
    omega

theorem toDouble_strtoull {digits : Bytes} (h : digitsValue digits < 2 ^ 53) :
    toDouble (strtoull digits) = digitsValue digits := by
  rw [← decimal_eq_digitsValue] at h ⊢
  exact toDouble_strtoull_decimal h

theorem Tokenizer.atToken_shows (t : Tokenizer) (tok : Token) (rest : Bytes) :
    tok.ShownBy (t.atToken tok rest) := by
  cases tok with
  | colon => rfl
  | word id => exact ⟨idType_eq_wordType id, rfl⟩
  | number digits => exact ⟨rfl, _, rfl, toDouble_strtoull⟩

/-- A token is not the end. -/
theorem Token.ShownBy.type_ne_end {t : Tokenizer} {tok : Token} (h : tok.ShownBy t) :
    t.type ≠ .tokenEnd := by
  cases tok with
  | colon =>
    rw [show t.type = .tokenColon from h]
    decide
  | word id =>
    rw [h.1, ← idType_eq_wordType]
    exact idType_ne id (by decide)
  | number digits =>
    rw [h.1]
    decide

/-! ## One call -/

/-- A call that finds something moves on. -/
theorem Finds.length_lt {t t' : Tokenizer} {text : Bytes} (h : Finds t text t') :
    t'.ptr.length < text.length := by
  induction h with
  | skip _ _ _ _ _ ih => exact Nat.lt_succ_of_lt ih
  | nul => exact Nat.lt_succ_self _
  | colon => exact Nat.lt_succ_self _
  -- at least the first letter is behind it
  | word _ hscan =>
    obtain ⟨_, _, rfl, _⟩ := scan_eq_ok hscan
    simp only [List.length_cons, List.length_append]
    omega
  | number _ hscan =>
    obtain ⟨_, _, rfl, _⟩ := scan_eq_ok hscan
    simp only [List.length_cons, List.length_append]
    omega

theorem Finds.forward {t t' : Tokenizer} (h : Finds t t.ptr t') : t.Forward t' :=
  ⟨h.suffix, h.length_lt⟩

section

variable {t : Tokenizer} {text rest : Bytes}

/-- The call behind the last token. -/
theorem tokenize_none (hptr : t.ptr = text ++ 0 :: rest) (h0 : 0 ∉ text)
    (hnext : nextToken text = none) :
    ∃ t', tokenize t = .ok t' ∧ t.Forward t' ∧ t'.type = .tokenEnd ∧ t'.ptr = rest := by
  have hfinds := finds_nextToken h0 t rest
  rw [hnext, ← hptr] at hfinds
  exact ⟨_, finds_iff.mp hfinds, hfinds.forward, rfl, rfl⟩

/-- The call in front of a token. -/
theorem tokenize_next {tok : Token} {behind : Bytes} (hptr : t.ptr = text ++ 0 :: rest)
    (h0 : 0 ∉ text) (hnext : nextToken text = some (tok, behind)) :
    ∃ t', tokenize t = .ok t' ∧ t.Forward t' ∧ tok.ShownBy t' ∧
      t'.ptr = behind ++ 0 :: rest := by
  have hfinds := finds_nextToken h0 t rest
  rw [hnext, ← hptr] at hfinds
  refine ⟨_, finds_iff.mp hfinds, hfinds.forward, t.atToken_shows tok _, ?_⟩
  cases tok <;> rfl

end

/-! ## All calls -/

/-- The calls from the start of a text show its tokens, and after them the end. Each one moves on,
and none goes beyond the position behind the NUL. -/
theorem tokenizeUntilEnd_shows {t : Tokenizer} {text rest : Bytes}
    (hptr : t.ptr = text ++ 0 :: rest) (h0 : 0 ∉ text) : ∃ shown last,
    (∀ fuel, text.length < fuel → tokenizeUntilEnd fuel t = .ok (shown ++ [last])) ∧
    List.Forall₂ (fun tok u => tok.ShownBy u ∧ u.type ≠ .tokenEnd) (tokens text) shown ∧
    last.type = .tokenEnd ∧ last.ptr = rest ∧
    List.IsChain Tokenizer.Forward (t :: (shown ++ [last])) ∧
    ∀ u ∈ shown ++ [last], rest <:+ u.ptr := by
  -- on the length: each token leaves a shorter text
  induction hlen : text.length using Nat.strong_induction_on generalizing t text with
  | _ len ih =>
    subst hlen
    cases hnext : nextToken text with
    | none =>
      obtain ⟨last, hcall, hforward, htype, hlast⟩ := tokenize_none hptr h0 hnext
      refine ⟨[], last, fun fuel hfuel => ?_, ?_, htype, hlast, ?_, ?_⟩
      · obtain ⟨fuel, rfl⟩ := Nat.exists_eq_add_of_le' (Nat.one_le_of_lt hfuel)
        rw [tokenizeUntilEnd, hcall, ok_bind, if_pos htype]
        rfl
      · rw [tokens_of_none hnext]
        exact .nil
      · exact .cons_cons hforward (.singleton last)
      · simp [hlast]
    | some found =>
      obtain ⟨tok, behind⟩ := found
      obtain ⟨t', hcall, hforward, hshown, hptr'⟩ := tokenize_next hptr h0 hnext
      obtain ⟨hlt, hsub⟩ := nextToken_rest hnext
      obtain ⟨shown, last, hcalls, htokens, htype, hlast, hchain, hrest⟩ :=
        ih behind.length hlt hptr' (fun h => h0 (hsub h)) rfl
      refine ⟨t' :: shown, last, fun fuel hfuel => ?_, ?_, htype, hlast, ?_, ?_⟩
      · obtain ⟨fuel, rfl⟩ := Nat.exists_eq_add_of_le' (Nat.one_le_of_lt hfuel)
        rw [tokenizeUntilEnd, hcall, ok_bind, if_neg hshown.type_ne_end,
          hcalls fuel (by omega)]
        rfl
      · rw [tokens_of_some hnext]
        exact .cons ⟨hshown, hshown.type_ne_end⟩ htokens
      · exact .cons_cons hforward hchain
      · -- no call goes beyond the NUL
        intro u hu
        rcases List.mem_cons.mp hu with rfl | hu
        · rw [hptr']
          exact (List.suffix_cons 0 rest).trans (List.suffix_append behind _)
        · exact hrest u hu

theorem tokenizeUntilEnd_shows_mhz : ∃ shown last,
    (∀ fuel, (ascii "cpu MHz\t: 2_3").length < fuel →
      tokenizeUntilEnd fuel ⟨ascii "cpu MHz\t: 2_3" ++ [0], .tokenCpu, none, []⟩ =
        .ok (shown ++ [last])) ∧
    List.Forall₂ (fun tok u => tok.ShownBy u ∧ u.type ≠ .tokenEnd)
      (tokens (ascii "cpu MHz\t: 2_3")) shown ∧
    last.type = .tokenEnd ∧ last.ptr = [] ∧
    List.IsChain Tokenizer.Forward
      (⟨ascii "cpu MHz\t: 2_3" ++ [0], .tokenCpu, none, []⟩ :: (shown ++ [last])) ∧
    ∀ u ∈ shown ++ [last], [] <:+ u.ptr :=
  tokenizeUntilEnd_shows rfl (by decide)

end Guthi
