import Mathlib.Data.List.Lex
import Mathlib.Data.List.TakeWhile
import Mathlib.Tactic

/-!
# Byte strings

Byte lists stand for the contents of character arrays: `std::string` values, file data and
message buffers. This module fixes the few facts about them that every component needs:

* the order of `std::string`, which compares bytes as unsigned values, as a linear order;
* `cStr`, the part of a byte string that survives a trip through `c_str()`;
* the little-endian image of a 16-bit and of a 32-bit word.
-/

namespace Guthi

/-- Byte strings; characters are bytes. -/
abbrev Bytes := List UInt8

/-- Bytes are ordered by their unsigned value. With it `Bytes` is ordered lexicographically,
which is the order of `std::char_traits<char>::compare`. -/
instance UInt8.instLinearOrder : LinearOrder UInt8 where
  le_refl a := Nat.le_refl a.toNat
  le_trans _ _ _ h1 h2 := Nat.le_trans (m := UInt8.toNat _) h1 h2
  le_antisymm _ _ h1 h2 := UInt8.toNat_inj.mp (Nat.le_antisymm h1 h2)
  le_total a b := Nat.le_total a.toNat b.toNat
  lt_iff_le_not_ge a b := by
    show a.toNat < b.toNat ↔ a.toNat ≤ b.toNat ∧ ¬ b.toNat ≤ a.toNat
    omega
  toDecidableLE := inferInstance
  toDecidableLT := inferInstance
  toDecidableEq := inferInstance

/-- The bytes of an ASCII string literal. -/
def ascii (s : String) : Bytes := s.toList.map Char.toUInt8

/-! ## C strings -/

/-- The bytes a reader of `s.c_str()` sees: everything before the first NUL. -/
def cStr (s : Bytes) : Bytes := s.takeWhile (· ≠ 0)

/-- Without a NUL the whole string is the C string. -/
theorem cStr_eq_self {s : Bytes} (h : 0 ∉ s) : cStr s = s := by
  rw [cStr, List.takeWhile_eq_self_iff]
  intro b hb
  have hne : b ≠ 0 := fun h0 => h (h0 ▸ hb)
  simpa using hne

theorem zero_notMem_cStr (s : Bytes) : 0 ∉ cStr s := by
  intro h
  have := List.mem_takeWhile_imp h
  simp at this

theorem length_cStr_le (s : Bytes) : (cStr s).length ≤ s.length :=
  (List.takeWhile_prefix _).length_le

/-- Nothing behind a NUL matters. -/
theorem cStr_append_zero (s tail : Bytes) : cStr (s ++ 0 :: tail) = cStr s := by
  induction s with
  | nil => rfl
  | cons b s ih =>
    show List.takeWhile _ (b :: (s ++ 0 :: tail)) = List.takeWhile _ (b :: s)
    rw [List.takeWhile_cons, List.takeWhile_cons]
    split_ifs
    · exact congrArg (b :: ·) ih
    · rfl

/-- Behind a text without NUL the C string goes on. -/
theorem cStr_append {s : Bytes} (hs : 0 ∉ s) (tail : Bytes) :
    cStr (s ++ tail) = s ++ cStr tail := by
  refine List.takeWhile_append_of_pos fun b hb => ?_
  have hne : b ≠ 0 := fun h0 => hs (h0 ▸ hb)
  simpa using hne

/-- A suffix of the C string is the C string of the suffix. -/
theorem cStr_drop {s : Bytes} {n : Nat} (h : n ≤ (cStr s).length) :
    cStr (s.drop n) = (cStr s).drop n := by
  induction n generalizing s with
  | zero => rfl
  | succ n ih =>
    cases s with
    | nil => rfl
    | cons b s =>
      unfold cStr at h ih ⊢
      rw [List.takeWhile_cons] at h ⊢
      -- the NUL has not come yet, since `n` is within the C string
      split_ifs at h ⊢ with hb
      · exact ih (Nat.le_of_succ_le_succ h)
      · exact absurd h (Nat.not_succ_le_zero n)

/-- The C string is the first `n` bytes if there is no NUL among them, and none or nothing behind
them. -/
theorem cStr_eq_take_iff {s : Bytes} {n : Nat} (hn : n ≤ s.length) :
    cStr s = s.take n ↔ 0 ∉ s.take n ∧ ∀ b, s[n]? = some b → b = 0 := by
  constructor
  · intro h
    have hzero := zero_notMem_cStr s
    rw [h] at hzero
    refine ⟨hzero, fun b hb => ?_⟩
    by_contra hne
    -- otherwise the C string would go on with `b`
    have hdrop := cStr_drop (Nat.le_of_eq (show n = (cStr s).length by rw [h]; simp [hn]))
    obtain ⟨hlt, rfl⟩ := List.getElem?_eq_some_iff.mp hb
    have hnil : (s.take n).drop n = [] := List.drop_eq_nil_of_le (List.length_take_le n s)
    rw [h, hnil, List.drop_eq_getElem_cons hlt, cStr, List.takeWhile_cons,
      if_pos (by simpa using hne)] at hdrop
    cases hdrop
  · rintro ⟨hzero, hnext⟩
    calc cStr s = cStr (s.take n ++ s.drop n) := by rw [List.take_append_drop]
      _ = s.take n ++ cStr (s.drop n) := cStr_append hzero _
      _ = s.take n := by
        cases hdrop : s.drop n with
        | nil => exact List.append_nil _
        | cons b rest =>
          have hb : s[n]? = some b := by rw [← List.head?_drop, hdrop, List.head?_cons]
          rw [hnext b hb]
          exact List.append_nil _

/-! ## Little-endian words -/

/-- The two bytes of a 16-bit word, low byte first. -/
def leBytes16 (v : UInt16) : Bytes := [v.toUInt8, (v >>> 8).toUInt8]

/-- A word of two bytes, the low one first. -/
def ofLeBytes16 (lo hi : UInt8) : UInt16 := lo.toUInt16 ||| (hi.toUInt16 <<< 8)

theorem toNat_ofLeBytes16 (lo hi : UInt8) :
    (ofLeBytes16 lo hi).toNat = lo.toNat + 256 * hi.toNat := by
  have hlo : lo.toNat < 2 ^ 8 := lo.toNat_lt
  have hhi : hi.toNat < 2 ^ 8 := hi.toNat_lt
  -- no bit of the high byte is shifted out
  have hshift : (hi.toUInt16 <<< 8).toNat = 2 ^ 8 * hi.toNat := by
    rw [UInt16.toNat_shiftLeft, UInt8.toNat_toUInt16, show (8 : UInt16).toNat % 16 = 8 from rfl,
      Nat.shiftLeft_eq]
    omega
  rw [ofLeBytes16, UInt16.toNat_or, hshift, UInt8.toNat_toUInt16, Nat.or_comm,
    ← Nat.two_pow_add_eq_or_of_lt hlo]
  omega

/-- The bytes of a word are its value by 256 and the rest. -/
theorem toNat_toUInt8_low (v : UInt16) : v.toUInt8.toNat = v.toNat % 256 := by
  rw [UInt16.toNat_toUInt8]

theorem toNat_toUInt8_high (v : UInt16) : (v >>> 8).toUInt8.toNat = v.toNat / 256 := by
  have hv : v.toNat < 2 ^ 16 := v.toNat_lt
  rw [UInt16.toNat_toUInt8, UInt16.toNat_shiftRight, show (8 : UInt16).toNat % 16 = 8 from rfl,
    Nat.shiftRight_eq_div_pow]
  omega

/-- A word is read back from its bytes. -/
theorem ofLeBytes16_leBytes16 (v : UInt16) :
    ofLeBytes16 v.toUInt8 (v >>> 8).toUInt8 = v := by
  apply UInt16.toNat_inj.mp
  rw [toNat_ofLeBytes16, toNat_toUInt8_low, toNat_toUInt8_high]
  omega

/-- The bytes of a 32-bit word in memory, low byte first. -/
def leBytes32 (v : UInt32) : Bytes :=
  [UInt8.ofNat v.toNat, UInt8.ofNat (v.toNat / 2 ^ 8), UInt8.ofNat (v.toNat / 2 ^ 16),
    UInt8.ofNat (v.toNat / 2 ^ 24)]

/-- Read a little-endian 32-bit word and return the bytes behind it. -/
def takeLe32 : Bytes → Option (UInt32 × Bytes)
  | b0 :: b1 :: b2 :: b3 :: rest =>
    some (UInt32.ofNat
      (b0.toNat + 2 ^ 8 * b1.toNat + 2 ^ 16 * b2.toNat + 2 ^ 24 * b3.toNat), rest)
  | _ => none

/-- Four bytes are read back too. -/
theorem takeLe32_leBytes32 (v : UInt32) (rest : Bytes) :
    takeLe32 (leBytes32 v ++ rest) = some (v, rest) := by
  have hv : v.toNat < 2 ^ 32 := v.toNat_lt
  have hword : v.toNat % 2 ^ 8 + 2 ^ 8 * (v.toNat / 2 ^ 8 % 2 ^ 8) +
      2 ^ 16 * (v.toNat / 2 ^ 16 % 2 ^ 8) + 2 ^ 24 * (v.toNat / 2 ^ 24 % 2 ^ 8) = v.toNat := by
    omega
  simp only [leBytes32, List.cons_append, List.nil_append, takeLe32, UInt8.toNat_ofNat', hword,
    UInt32.ofNat_toNat]

end Guthi
