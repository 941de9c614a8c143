import Guthi.Filesystem.BufReader
import Guthi.Lib.Loop
import Guthi.Lib.Words

/-!
# Guthi — the formats of the buffered reader

`FileBufReader::Scanf` of `filesystem/fs.hpp`. A format is given by the characters in front of its
NUL. The loop goes over whitespace and over directives of two characters; it stays where it is at
any other character. The C functions that it calls read the string at their argument; what `strtof`
makes of a string is left open.

* `Visits` — the directives that the loop comes to, and that it ends behind them;
* `visits_of_ok`, `Visits.comes` — the loop ends exactly so, if the numbers can be read;
* `exists_visits_zero_iff` — which formats these are;
* `scanf_terminates_iff` — both together.
-/

namespace Guthi

/-! ## Scanf -/

/-- A read outside of the format, a conversion without a result, or no more fuel. -/
inductive ScanfFault where
  | outsideFormat
  | noNumber
  | outOfFuel
deriving DecidableEq, Repr

/-- What is stored through a pointer of the argument list. -/
inductive Stored (F : Type) where
  | int (val : UInt32)
  | float (val : F)
  | string (word : Option Bytes)

/-- The variables of `Scanf`, and what it has stored. -/
structure ScanfState (F : Type) where
  pos : UInt32 := 0
  inPos : Nat := 0
  stored : List (Stored F) := []

/-- `fmt[pos]`; behind the characters there is the NUL. -/
def formatAt (fmt : Bytes) (pos : UInt32) : Except ScanfFault UInt8 :=
  match (fmt ++ [0])[pos.toNat]? with
  | some c => .ok c
  | none => .error .outsideFormat

/-- The whitespace that the loop over the format knows. -/
def isFormatSpace (c : UInt8) : Bool := c = 32 || c = 9 || c = 10

/-- The inner loop. When it has gone as many steps as there are characters it has seen all
positions, and goes on for ever. -/
def skipFormatSpace (fmt : Bytes) : Nat → UInt32 → Except ScanfFault UInt32
  | 0, _ => .error .outOfFuel
  | steps + 1, pos => do
    let c ← formatAt fmt pos
    if isFormatSpace c then skipFormatSpace fmt steps (pos + 1) else return pos

section

variable {F : Type} (strtof : Bytes → F × Nat) (r : FileBufReader UInt8) (fmt : Bytes)

/-- The string at `buffer.data + buffer.read_ptr + in_pos`. Where no NUL follows in the buffer it
ends here with the buffer; the code reads on behind it. -/
def FileBufReader.stringAt (inPos : Nat) : Bytes :=
  cStr (r.buffer.data.toList.drop (r.buffer.readPtr.toNat + inPos))

/-- The `switch` over the character behind a `%`. -/
def convert (s : ScanfState F) (kind : UInt8) : Except ScanfFault (ScanfState F) :=
  let text := r.stringAt s.inPos
  if kind = Char.toUInt8 'd' then
    let (val, length) := strtol text
    if length = 0 then .error .noNumber
    else .ok { s with
      inPos := s.inPos + length, stored := s.stored ++ [.int (UInt32.ofNat (val % 2 ^ 32).toNat)] }
  else if kind = Char.toUInt8 'f' then
    let (val, length) := strtof text
    if length = 0 then .error .noNumber
    else .ok { s with inPos := s.inPos + length, stored := s.stored ++ [.float val] }
  else if kind = Char.toUInt8 'c' ∨ kind = Char.toUInt8 's' then
    -- the input position stays where it is
    .ok { s with stored := s.stored ++ [.string (firstWord text)] }
  else .ok s

/-- `fmt_len - 1`. -/
def lastPos : UInt32 := UInt32.ofNat fmt.length - 1

/-- One iteration of the outer loop. -/
def scanfBody (s : ScanfState F) : Except ScanfFault (LoopStep (ScanfState F)) := do
  let pos ← skipFormatSpace fmt (fmt.length + 1) s.pos
  let c ← formatAt fmt pos
  if c = Char.toUInt8 '%' then do
    let kind ← formatAt fmt (pos + 1)
    let s' ← convert strtof r s kind
    return .next { s' with pos := pos + 2 }
  else return .next { s with pos }

/-- `pos < strlen(fmt) - 1`. -/
def scanfCond (s : ScanfState F) : Bool := s.pos < lastPos fmt

/-- The loop of `Scanf`. -/
def scanfLoop (fuel : Nat) (s : ScanfState F) : Except ScanfFault (ScanfState F) :=
  whileLoop .outOfFuel (scanfCond fmt) (scanfBody strtof r fmt) fuel s

/-- `Scanf`: the reader with its new position, and what was stored. A text that has no NUL behind it
in the buffer is taken up to the end of the buffer, where the C functions read on. -/
def FileBufReader.scanf (fuel : Nat) :
    Except ScanfFault (FileBufReader UInt8 × List (Stored F)) := do
  let s ← scanfLoop strtof r fmt fuel {}
  let readPtr := UInt8.ofNat (r.buffer.readPtr.toNat + s.inPos)
  return ({ r with buffer := { r.buffer with readPtr } }, s.stored)

end

/-! ## Positions of the format -/

section

variable {fmt : Bytes} {pos q : UInt32} {c : UInt8}

/-- A position inside of the format, its NUL included. -/
theorem formatAt_eq_ok : formatAt fmt pos = .ok c ↔ (fmt ++ [0])[pos.toNat]? = some c := by
  unfold formatAt
  cases (fmt ++ [0])[pos.toNat]? <;> simp

theorem le_of_formatAt (h : formatAt fmt pos = .ok c) : pos.toNat ≤ fmt.length := by
  obtain ⟨hlt, _⟩ := List.getElem?_eq_some_iff.mp (formatAt_eq_ok.mp h)
  rw [List.length_append, List.length_singleton] at hlt
  omega

theorem lt_of_formatAt (h : formatAt fmt pos = .ok c) (hc : c ≠ 0) : pos.toNat < fmt.length := by
  refine lt_of_le_of_ne (le_of_formatAt h) fun hend => hc ?_
  have hlast := formatAt_eq_ok.mp h
  rw [hend, List.getElem?_concat_length] at hlast
  exact (Option.some.inj hlast).symm

theorem exists_formatAt (h : pos.toNat ≤ fmt.length) : ∃ c, formatAt fmt pos = .ok c := by
  have hlt : pos.toNat < (fmt ++ [0]).length := by
    rw [List.length_append, List.length_singleton]
    omega
  exact ⟨_, formatAt_eq_ok.mpr (List.getElem?_eq_getElem hlt)⟩

/-- One position further, where it does not wrap around. -/
theorem toNat_add_one (pos : UInt32) (h : pos.toNat + 1 < 2 ^ 32) :
    (pos + 1).toNat = pos.toNat + 1 := by
  rw [UInt32.toNat_add]
  exact Nat.mod_eq_of_lt h

/-- Two positions further, where it does not wrap around. -/
theorem toNat_add_two (pos : UInt32) (h : pos.toNat + 2 < 2 ^ 32) :
    (pos + 2).toNat = pos.toNat + 2 := by
  rw [UInt32.toNat_add]
  exact Nat.mod_eq_of_lt h

/-- The position behind a character is inside of the format, the NUL included. -/
theorem toNat_add_one_le (h : pos.toNat < fmt.length) : (pos + 1).toNat ≤ fmt.length := by
  rw [UInt32.toNat_add]
  show (pos.toNat + 1) % 2 ^ 32 ≤ _
  omega

/-- The last position of a format that is not empty. -/
theorem toNat_lastPos (hne : fmt ≠ []) (hlen : fmt.length < 2 ^ 32) :
    (lastPos fmt).toNat = fmt.length - 1 := by
  have hpos : 0 < fmt.length := List.length_pos_iff.mpr hne
  have hofNat : (UInt32.ofNat fmt.length).toNat = fmt.length := by
    rw [UInt32.toNat_ofNat']
    omega
  rw [lastPos, UInt32.toNat_sub_of_le _ _ (by rw [UInt32.le_iff_toNat_le, hofNat]; exact hpos),
    hofNat]
  rfl

/-- Behind a directive the loop is inside of the format, or ends. -/
theorem behind_directive (h : q.toNat < fmt.length) :
    (q + 2).toNat ≤ fmt.length ∨ ¬ q + 2 < lastPos fmt := by
  have hsum : (q + 2).toNat = (q.toNat + 2) % 2 ^ 32 := UInt32.toNat_add q 2
  rcases Nat.lt_or_ge (fmt.length + 1) (2 ^ 32) with hlen | hlen
  · have hne : fmt ≠ [] := List.ne_nil_of_length_pos (by omega)
    rw [UInt32.lt_iff_toNat_lt, toNat_lastPos hne (by omega)]
    omega
  · omega

theorem ne_zero_of_isFormatSpace (h : isFormatSpace c = true) : c ≠ 0 := by
  rintro rfl
  revert h
  decide

/-- The inner loop ends at a character that is no whitespace. -/
theorem formatAt_of_skip {n : Nat} (h : skipFormatSpace fmt n pos = .ok q) :
    ∃ c, formatAt fmt q = .ok c ∧ isFormatSpace c = false := by
  induction n generalizing pos with
  | zero => cases h
  | succ n ih =>
    rw [skipFormatSpace] at h
    obtain ⟨c, hc, h⟩ := bind_eq_ok.mp h
    -- whitespace is skipped, anything else ends the loop
    split_ifs at h with hspace
    · exact ih h
    · cases h
      exact ⟨c, hc, by simpa using hspace⟩

/-- The inner loop stays at any other character. -/
theorem skip_of_not_space (hc : formatAt fmt pos = .ok c) (hspace : isFormatSpace c = false)
    (n : Nat) : skipFormatSpace fmt (n + 1) pos = .ok pos := by
  rw [skipFormatSpace, hc, ok_bind, hspace]
  rfl

theorem skip_error {n : Nat} {e : ScanfFault} (hpos : pos.toNat ≤ fmt.length)
    (h : skipFormatSpace fmt n pos = .error e) : e = .outOfFuel := by
  induction n generalizing pos with
  | zero =>
    cases h
    rfl
  | succ n ih =>
    obtain ⟨c, hc⟩ := exists_formatAt hpos
    rw [skipFormatSpace, hc, ok_bind] at h
    split_ifs at h with hspace
    · -- a whitespace is not the NUL, so the next position is inside
      exact ih (toNat_add_one_le (lt_of_formatAt hc (ne_zero_of_isFormatSpace hspace))) h
    · cases h

end

/-! ## The walk over the format -/

/-- From `pos` the loop comes to the directives at the positions `qs`, and ends behind them. -/
inductive Visits (fmt : Bytes) : UInt32 → List UInt32 → Prop where
  | behind {pos : UInt32} (hpos : ¬ pos < lastPos fmt) : Visits fmt pos []
  | last {pos q : UInt32} {c : UInt8} (hpos : pos < lastPos fmt)
      (hskip : skipFormatSpace fmt (fmt.length + 1) pos = .ok q) (hc : formatAt fmt q = .ok c)
      (hne : c ≠ Char.toUInt8 '%') (hq : ¬ q < lastPos fmt) : Visits fmt pos []
  | directive {pos q : UInt32} {qs : List UInt32} (hpos : pos < lastPos fmt)
      (hskip : skipFormatSpace fmt (fmt.length + 1) pos = .ok q)
      (hc : formatAt fmt q = .ok (Char.toUInt8 '%')) (hrest : Visits fmt (q + 2) qs) :
      Visits fmt pos (q :: qs)

/-- At another character, in front of the last position, the loop stays. -/
theorem not_visits_of_stuck {fmt : Bytes} {pos q : UInt32} {qs : List UInt32} {c : UInt8}
    (hpos : pos < lastPos fmt) (hskip : skipFormatSpace fmt (fmt.length + 1) pos = .ok q)
    (hc : formatAt fmt q = .ok c) (hne : c ≠ Char.toUInt8 '%') (hq : q < lastPos fmt) :
    ¬ Visits fmt pos qs := by
  intro h
  cases h with
  | behind h => exact h hpos
  | last _ h _ _ hq' =>
    cases hskip.symm.trans h
    exact hq' hq
  | directive _ h hpercent _ =>
    cases hskip.symm.trans h
    cases hc.symm.trans hpercent
    exact hne rfl

section

variable {F : Type} {strtof : Bytes → F × Nat} {r : FileBufReader UInt8} {fmt : Bytes}
  {s s' : ScanfState F}

/-- A conversion stores one value at most, and does not move in the format. -/
theorem convert_ok {kind : UInt8} (h : convert strtof r s kind = .ok s') :
    s'.pos = s.pos ∧ s'.stored.length ≤ s.stored.length + 1 := by
  unfold convert at h
  dsimp only at h
  split_ifs at h <;> cases h <;> simp

/-- A conversion fails only without a number. -/
theorem convert_error {kind : UInt8} {e : ScanfFault} (h : convert strtof r s kind = .error e) :
    e = .noNumber := by
  unfold convert at h
  dsimp only at h
  split_ifs at h <;> cases h <;> rfl

/-- At the last position the loop ends. -/
theorem scanfLoop_stop {fuel : Nat} (hpos : ¬ s.pos < lastPos fmt) :
    scanfLoop strtof r fmt (fuel + 1) s = .ok s :=
  whileLoop_stop (decide_eq_false hpos)

theorem scanfLoop_next {fuel : Nat} (hpos : s.pos < lastPos fmt)
    (hbody : scanfBody strtof r fmt s = .ok (.next s')) :
    scanfLoop strtof r fmt (fuel + 1) s = scanfLoop strtof r fmt fuel s' :=
  whileLoop_next (decide_eq_true hpos) hbody

/-- A fault in a round is one of the loop. -/
theorem scanfLoop_fails {fuel : Nat} {e : ScanfFault} (hpos : s.pos < lastPos fmt)
    (hbody : scanfBody strtof r fmt s = .error e) :
    scanfLoop strtof r fmt (fuel + 1) s = .error e :=
  whileLoop_fails (decide_eq_true hpos) hbody

/-- One iteration at a directive. -/
theorem scanfBody_directive {q : UInt32} {kind : UInt8}
    (hskip : skipFormatSpace fmt (fmt.length + 1) s.pos = .ok q)
    (hc : formatAt fmt q = .ok (Char.toUInt8 '%')) (hkind : formatAt fmt (q + 1) = .ok kind) :
    scanfBody strtof r fmt s =
      convert strtof r s kind >>= fun s' => .ok (.next { s' with pos := q + 2 }) := by
  rw [scanfBody, hskip, ok_bind, hc, ok_bind, if_pos rfl, hkind, ok_bind]
  rfl

/-- At another character nothing is converted, and the position stays there. -/
theorem scanfBody_other {q : UInt32} {c : UInt8}
    (hskip : skipFormatSpace fmt (fmt.length + 1) s.pos = .ok q) (hc : formatAt fmt q = .ok c)
    (hne : c ≠ Char.toUInt8 '%') : scanfBody strtof r fmt s = .ok (.next { s with pos := q }) := by
  rw [scanfBody, hskip, ok_bind, hc, ok_bind, if_neg hne]
  rfl

/-- An iteration that goes on was at a directive, or stays at another character. -/
theorem scanfBody_cases {step : LoopStep (ScanfState F)}
    (h : scanfBody strtof r fmt s = .ok step) :
    ∃ q c, skipFormatSpace fmt (fmt.length + 1) s.pos = .ok q ∧ formatAt fmt q = .ok c ∧
      ((c = Char.toUInt8 '%' ∧ ∃ kind s₁, convert strtof r s kind = .ok s₁ ∧
          step = .next { s₁ with pos := q + 2 }) ∨
        (c ≠ Char.toUInt8 '%' ∧ step = .next { s with pos := q })) := by
  unfold scanfBody at h
  obtain ⟨q, hskip, h⟩ := bind_eq_ok.mp h
  obtain ⟨c, hc, h⟩ := bind_eq_ok.mp h
  refine ⟨q, c, hskip, hc, ?_⟩
  -- a directive is converted, any other character is not passed
  split_ifs at h with hpercent
  · obtain ⟨kind, _, h⟩ := bind_eq_ok.mp h
    obtain ⟨s₁, hs₁, h⟩ := bind_eq_ok.mp h
    exact Or.inl ⟨hpercent, kind, s₁, hs₁, (Except.ok.inj h).symm⟩
  · exact Or.inr ⟨hpercent, (Except.ok.inj h).symm⟩

/-- A loop that has ended went over directives alone. -/
theorem visits_of_ok {fuel : Nat} (h : scanfLoop strtof r fmt fuel s = .ok s') :
    ∃ qs, Visits fmt s.pos qs ∧ s'.stored.length ≤ s.stored.length + qs.length := by
  induction fuel generalizing s with
  | zero => cases h
  | succ fuel ih =>
    -- a round at a directive, a round that stays, or the end
    by_cases hpos : s.pos < lastPos fmt
    · cases hbody : scanfBody strtof r fmt s with
      | error e =>
        rw [scanfLoop_fails hpos hbody] at h
        cases h
      | ok step =>
        obtain ⟨q, c, hskip, hc, ⟨rfl, kind, s₁, hs₁, rfl⟩ | ⟨hpercent, rfl⟩⟩ :=
          scanfBody_cases hbody
        · rw [scanfLoop_next hpos hbody] at h
          obtain ⟨qs, hqs, hlen⟩ := ih h
          obtain ⟨_, hstored⟩ := convert_ok hs₁
          refine ⟨q :: qs, .directive hpos hskip hc hqs, ?_⟩
          show _ ≤ _ + (qs.length + 1)
          have hlen' : s'.stored.length ≤ s₁.stored.length + qs.length := hlen
          omega
        · rw [scanfLoop_next hpos hbody] at h
          obtain ⟨qs, hqs, hlen⟩ := ih h
          obtain ⟨c', hc', hspace⟩ := formatAt_of_skip hskip
          cases hc.symm.trans hc'
          -- else the loop would stay there
          have hq : ¬ q < lastPos fmt := fun hq => not_visits_of_stuck hq
            (skip_of_not_space hc hspace _) hc hpercent hq hqs
          cases hqs with
          | behind => exact ⟨[], .last hpos hskip hc hpercent hq, hlen⟩
          | last h' => exact absurd h' hq
          | directive h' => exact absurd h' hq
    · rw [scanfLoop_stop hpos] at h
      cases h
      exact ⟨[], .behind hpos, Nat.le_refl _⟩

/-- Where the walk ends the loop does, unless a number is missing. -/
theorem Visits.comes {pos : UInt32} {qs : List UInt32} (h : Visits fmt pos qs)
    (hs : s.pos = pos) : ∃ fuel, (∃ s', scanfLoop strtof r fmt fuel s = .ok s') ∨
      scanfLoop strtof r fmt fuel s = .error .noNumber := by
  -- along the walk
  induction h generalizing s with
  | behind hpos =>
    subst hs
    exact ⟨1, Or.inl ⟨s, scanfLoop_stop hpos⟩⟩
  | @last pos q c hpos hskip hc hne hq =>
    subst hs
    have hnext : scanfLoop strtof r fmt 2 s = scanfLoop strtof r fmt 1 { s with pos := q } :=
      scanfLoop_next hpos (scanfBody_other hskip hc hne)
    exact ⟨2, Or.inl ⟨_, hnext.trans (scanfLoop_stop hq)⟩⟩
  -- the conversion may have no number to read
  | @directive pos q qs hpos hskip hc _ ih =>
    subst hs
    have hlt : q.toNat < fmt.length := lt_of_formatAt hc (by decide)
    obtain ⟨kind, hkind⟩ := exists_formatAt (toNat_add_one_le hlt)
    have hbody : scanfBody strtof r fmt s =
        convert strtof r s kind >>= fun s' => .ok (.next { s' with pos := q + 2 }) :=
      scanfBody_directive hskip hc hkind
    cases hconvert : convert strtof r s kind with
    | error e =>
      rw [hconvert, convert_error hconvert] at hbody
      exact ⟨1, Or.inr (scanfLoop_fails hpos hbody)⟩
    | ok s₁ =>
      rw [hconvert, ok_bind] at hbody
      obtain ⟨fuel, hfuel⟩ := ih (s := { s₁ with pos := q + 2 }) rfl
      refine ⟨fuel + 1, ?_⟩
      rwa [scanfLoop_next hpos hbody]

/-- The loop reads the format inside of its characters and the NUL. -/
theorem scanfLoop_inside (fuel : Nat) (hs : s.pos.toNat ≤ fmt.length ∨ ¬ s.pos < lastPos fmt) :
    scanfLoop strtof r fmt fuel s ≠ .error .outsideFormat := by
  -- in front of the last position the loop is inside; behind it nothing is read
  have hrun : Outcome (fun _ => True) (· ≠ .outsideFormat) (scanfLoop strtof r fmt fuel s) := by
    apply whileLoop_outcome (I := fun s => s.pos.toNat ≤ fmt.length ∨ ¬ s.pos < lastPos fmt) _ _ _
      fuel hs
    · intro s hs hcond
      have hinside : s.pos.toNat ≤ fmt.length :=
        hs.resolve_right (not_not_intro (of_decide_eq_true hcond))
      cases hskip : skipFormatSpace fmt (fmt.length + 1) s.pos with
      | error e =>
        rw [scanfBody, hskip]
        show e ≠ _
        rw [skip_error hinside hskip]
        decide
      | ok q =>
        obtain ⟨c, hc, _⟩ := formatAt_of_skip hskip
        -- only a directive moves on by two
        by_cases hpercent : c = Char.toUInt8 '%'
        · subst hpercent
          have hlt := lt_of_formatAt hc (by decide)
          obtain ⟨kind, hkind⟩ := exists_formatAt (toNat_add_one_le hlt)
          rw [scanfBody_directive hskip hc hkind]
          cases hconvert : convert strtof r s kind with
          | error e =>
            show e ≠ _
            rw [convert_error hconvert]
            decide
          | ok s₁ => exact behind_directive hlt
        · rw [scanfBody_other hskip hc hpercent]
          exact Or.inl (le_of_formatAt hc)
    · intro _ _ _
      trivial
    · decide
  intro h
  exact hrun.of_error h rfl

end

/-! ## Formats on which the loop ends -/

/-- Whitespace, and `%` with the character behind it; the last character is not looked at. -/
def directives : Bytes → Bool
  | [] => true
  | [_] => true
  | c :: d :: rest =>
    if isFormatSpace c then directives (d :: rest) else c = Char.toUInt8 '%' && directives rest

/-- The loop ends: the format is not empty and has nothing but whitespace and directives. On longer
formats the 32 bits of a position wrap around, and the walk has to be followed. -/
def Stops (fmt : Bytes) : Prop :=
  if fmt.length + 1 < 2 ^ 32 then fmt ≠ [] ∧ directives fmt = true else ∃ qs, Visits fmt 0 qs

section

variable {fmt text : Bytes} {pos q : UInt32} {c : UInt8} {n : Nat}

/-- The first character of the rest. -/
theorem formatAt_of_drop (h : fmt.drop pos.toNat = c :: text) : formatAt fmt pos = .ok c := by
  have hlt : pos.toNat < fmt.length := by
    have hlen := congrArg List.length h
    rw [List.length_drop, List.length_cons] at hlen
    omega
  rw [formatAt_eq_ok, List.getElem?_append_left hlt, ← List.head?_drop, h, List.head?_cons]

/-- More fuel does not change where the inner loop comes to. -/
theorem skip_more (h : skipFormatSpace fmt n pos = .ok q) :
    skipFormatSpace fmt (n + 1) pos = .ok q := by
  induction n generalizing pos with
  | zero => cases h
  | succ n ih =>
    rw [skipFormatSpace] at h ⊢
    obtain ⟨c, hc, h⟩ := bind_eq_ok.mp h
    rw [hc, ok_bind]
    split_ifs at h ⊢ with hspace
    · exact ih h
    · exact h

/-- The inner loop comes to the NUL, if to nothing else. -/
theorem exists_skip (pos : UInt32) (hlen : fmt.length < 2 ^ 32) (hpos : pos.toNat ≤ fmt.length)
    (hn : fmt.length - pos.toNat < n) :
    ∃ q, skipFormatSpace fmt n pos = .ok q ∧ pos.toNat ≤ q.toNat := by
  induction n generalizing pos with
  | zero => omega
  | succ n ih =>
    obtain ⟨c, hc⟩ := exists_formatAt hpos
    cases hspace : isFormatSpace c with
    | false => exact ⟨pos, skip_of_not_space hc hspace n, Nat.le_refl _⟩
    -- a whitespace is in front of the NUL
    | true =>
      have hlt := lt_of_formatAt hc (ne_zero_of_isFormatSpace hspace)
      have hsucc := toNat_add_one pos (by omega)
      obtain ⟨q, hq, hle⟩ := ih (pos + 1) (by omega) (by omega)
      refine ⟨q, ?_, by omega⟩
      rw [skipFormatSpace, hc, ok_bind, if_pos hspace]
      exact hq

/-- From a whitespace the inner loop goes where it goes from the character behind it. -/
theorem skip_space (hlen : fmt.length < 2 ^ 32) (hc : formatAt fmt pos = .ok c)
    (hspace : isFormatSpace c = true) : ∃ q, pos.toNat < q.toNat ∧
      skipFormatSpace fmt (fmt.length + 1) pos = .ok q ∧
      skipFormatSpace fmt (fmt.length + 1) (pos + 1) = .ok q := by
  have hlt := lt_of_formatAt hc (ne_zero_of_isFormatSpace hspace)
  have hsucc := toNat_add_one pos (by omega)
  obtain ⟨q, hq, hle⟩ := exists_skip (n := fmt.length) (pos + 1) hlen (by omega) (by omega)
  refine ⟨q, by omega, ?_, skip_more hq⟩
  rw [skipFormatSpace, hc, ok_bind, if_pos hspace]
  exact hq

/-- One whitespace more or less does not matter. -/
theorem exists_visits_space (hlen : fmt.length + 1 < 2 ^ 32) (hpos : pos < lastPos fmt)
    (hc : formatAt fmt pos = .ok c) (hspace : isFormatSpace c = true) :
    (∃ qs, Visits fmt pos qs) ↔ ∃ qs, Visits fmt (pos + 1) qs := by
  obtain ⟨q, hlt, hskip, hskip'⟩ := skip_space (by omega) hc hspace
  obtain ⟨e, he, hother⟩ := formatAt_of_skip hskip
  constructor
  · rintro ⟨qs, h⟩
    -- the loop goes on behind the whitespace, or is at its end
    by_cases hpos' : pos + 1 < lastPos fmt
    · cases h with
      | behind h => exact absurd hpos h
      | last _ h hc' hne hq =>
        cases hskip.symm.trans h
        exact ⟨[], .last hpos' hskip' hc' hne hq⟩
      | directive _ h hc' hrest =>
        cases hskip.symm.trans h
        exact ⟨_, .directive hpos' hskip' hc' hrest⟩
    · exact ⟨[], .behind hpos'⟩
  · rintro ⟨qs, h⟩
    cases h with
    | last _ h hc' hne hq =>
      cases hskip'.symm.trans h
      exact ⟨[], .last hpos hskip hc' hne hq⟩
    | directive _ h hc' hrest =>
      cases hskip'.symm.trans h
      exact ⟨_, .directive hpos hskip hc' hrest⟩
    | behind hend =>
      -- the whitespace was the last character but one
      have hlt' := lt_of_formatAt hc (ne_zero_of_isFormatSpace hspace)
      have hsucc := toNat_add_one pos (by omega)
      rw [UInt32.lt_iff_toNat_lt] at hend hpos
      by_cases hpercent : e = Char.toUInt8 '%'
      · subst hpercent
        have hq := lt_of_formatAt he (by decide)
        have hsum := toNat_add_two q (by omega)
        refine ⟨[q], .directive hpos hskip he (.behind ?_)⟩
        rw [UInt32.lt_iff_toNat_lt]
        omega
      · refine ⟨[], .last hpos hskip he hpercent ?_⟩
        rw [UInt32.lt_iff_toNat_lt]
        omega

/-- A directive takes two characters. -/
theorem exists_visits_percent (hpos : pos < lastPos fmt)
    (hc : formatAt fmt pos = .ok (Char.toUInt8 '%')) :
    (∃ qs, Visits fmt pos qs) ↔ ∃ qs, Visits fmt (pos + 2) qs := by
  have hskip := skip_of_not_space hc (by decide) fmt.length
  constructor
  · rintro ⟨qs, h⟩
    cases h with
    | behind h => exact absurd hpos h
    | last _ h hc' hne _ =>
      cases hskip.symm.trans h
      cases hc.symm.trans hc'
      exact absurd rfl hne
    | directive _ h _ hrest =>
      cases hskip.symm.trans h
      exact ⟨_, hrest⟩
  · rintro ⟨qs, h⟩
    exact ⟨_, .directive hpos hskip hc h⟩

/-- The walk ends exactly if whitespace and directives make up the rest. -/
theorem exists_visits_iff (hlen : fmt.length + 1 < 2 ^ 32) (hne : fmt ≠ []) (pos : UInt32) :
    (∃ qs, Visits fmt pos qs) ↔ directives (fmt.drop pos.toNat) = true := by
  have hlast := toNat_lastPos hne (by omega)
  -- the last character is not looked at
  have hend : ∀ pos : UInt32, fmt.length ≤ pos.toNat + 1 → ∃ qs, Visits fmt pos qs := by
    intro pos h
    refine ⟨[], .behind ?_⟩
    rw [UInt32.lt_iff_toNat_lt]
    omega
  -- in front of the last character
  have hfront : ∀ {pos : UInt32} {c d : UInt8} {rest : Bytes}, fmt.drop pos.toNat = c :: d :: rest →
      pos < lastPos fmt ∧ pos.toNat + 1 < fmt.length := by
    intro pos c d rest h
    have hlen' := congrArg List.length h
    rw [List.length_drop, List.length_cons, List.length_cons] at hlen'
    rw [UInt32.lt_iff_toNat_lt]
    omega
  -- nothing, one character, whitespace, or two other characters
  induction hdrop : fmt.drop pos.toNat using directives.induct generalizing pos with
  | case1 =>
    rw [List.drop_eq_nil_iff] at hdrop
    exact iff_of_true (hend pos (by omega)) rfl
  | case2 c =>
    have hlen' := congrArg List.length hdrop
    rw [List.length_drop, List.length_singleton] at hlen'
    exact iff_of_true (hend pos (by omega)) rfl
  | case3 c d rest hspace ih =>
    obtain ⟨hpos, hlt⟩ := hfront hdrop
    have hdrop' : fmt.drop (pos + 1).toNat = d :: rest := by
      rw [toNat_add_one pos (by omega), ← List.drop_drop, hdrop]
      rfl
    have hrest : (∃ qs, Visits fmt (pos + 1) qs) ↔ directives (d :: rest) = true :=
      ih (pos + 1) hdrop'
    rw [directives, if_pos hspace, ← hrest]
    exact exists_visits_space hlen hpos (formatAt_of_drop hdrop) hspace
  | case4 c d rest hspace ih =>
    obtain ⟨hpos, hlt⟩ := hfront hdrop
    have hc := formatAt_of_drop hdrop
    have hdrop' : fmt.drop (pos + 2).toNat = rest := by
      rw [toNat_add_two pos (by omega), ← List.drop_drop, hdrop]
      rfl
    have hrest : (∃ qs, Visits fmt (pos + 2) qs) ↔ directives rest = true := ih (pos + 2) hdrop'
    rw [directives, if_neg hspace, Bool.and_eq_true, decide_eq_true_eq, ← hrest]
    by_cases hpercent : c = Char.toUInt8 '%'
    · subst hpercent
      rw [exists_visits_percent hpos hc, and_iff_right rfl]
    · constructor
      · rintro ⟨qs, h⟩
        exact absurd h (not_visits_of_stuck hpos (skip_of_not_space hc (by simpa using hspace) _) hc
          hpercent hpos)
      · intro h
        exact absurd h.1 hpercent

/-- On an empty format the loop does not end: its bound is the largest position. -/
theorem not_visits_nil (qs : List UInt32) : ¬ Visits [] 0 qs :=
  not_visits_of_stuck (by decide) rfl rfl (by decide) (by decide)

/-- The walk over the whole format. -/
theorem exists_visits_zero_iff : (∃ qs, Visits fmt 0 qs) ↔ Stops fmt := by
  unfold Stops
  -- short formats, and those that 32 bits cannot count
  split_ifs with hlen
  · by_cases hne : fmt = []
    · subst hne
      constructor
      · rintro ⟨qs, h⟩
        exact absurd h (not_visits_nil qs)
      · intro h
        exact absurd rfl h.1
    · rw [exists_visits_iff hlen hne 0, and_iff_right hne]
      rfl
  · exact Iff.rfl

end

section

variable {F : Type} {strtof : Bytes → F × Nat} {r : FileBufReader UInt8} {fmt : Bytes}

/-- A `Scanf` that returns, by its loop. -/
theorem scanf_eq_ok {fuel : Nat} {result : FileBufReader UInt8 × List (Stored F)} :
    r.scanf strtof fmt fuel = .ok result ↔ ∃ s, scanfLoop strtof r fmt fuel {} = .ok s ∧
      result = ({ r with buffer := { r.buffer with
        readPtr := UInt8.ofNat (r.buffer.readPtr.toNat + s.inPos) } }, s.stored) := by
  rw [FileBufReader.scanf, bind_eq_ok]
  refine exists_congr fun s => and_congr_right fun _ => ?_
  constructor
  · intro h
    cases h
    rfl
  · rintro rfl
    rfl

/-- A `Scanf` that fails, by its loop. -/
theorem scanf_eq_error {fuel : Nat} {e : ScanfFault} :
    r.scanf strtof fmt fuel = .error e ↔ scanfLoop strtof r fmt fuel {} = .error e := by
  rw [FileBufReader.scanf, bind_eq_error]
  refine or_iff_left ?_
  rintro ⟨s, _, h⟩
  cases h

/-- Where no number is missing, the loop ends, and never reads outside of the format, exactly on the
formats of whitespace and directives. -/
theorem scanf_terminates_iff (hnumbers : ∀ fuel, r.scanf strtof fmt fuel ≠ .error .noNumber) :
    (∃ fuel result, r.scanf strtof fmt fuel = .ok result) ∧
      (∀ fuel, r.scanf strtof fmt fuel ≠ .error .outsideFormat) ↔ Stops fmt := by
  have hinside : ∀ fuel, r.scanf strtof fmt fuel ≠ .error .outsideFormat := by
    intro fuel h
    exact scanfLoop_inside fuel (Or.inl (Nat.zero_le _)) (scanf_eq_error.mp h)
  rw [and_iff_left hinside, ← exists_visits_zero_iff]
  constructor
  · rintro ⟨fuel, result, h⟩
    obtain ⟨s, hs, _⟩ := scanf_eq_ok.mp h
    obtain ⟨qs, hqs, _⟩ := visits_of_ok hs
    exact ⟨qs, hqs⟩
  · rintro ⟨qs, hqs⟩
    obtain ⟨fuel, ⟨s, hs⟩ | hs⟩ := hqs.comes (s := {}) rfl
    · exact ⟨fuel, _, scanf_eq_ok.mpr ⟨s, hs, rfl⟩⟩
    · exact absurd (scanf_eq_error.mpr hs) (hnumbers fuel)

/-- A reader whose buffer holds a string, and NULs behind it. -/
def FileBufReader.holding (text : Bytes) (h : text.length ≤ 4096) : FileBufReader UInt8 where
  underlyingFile := []
  buffer :=
    { data := ⟨(text ++ List.replicate (4096 - text.length) 0).toArray, by
        rw [List.size_toArray, List.length_append, List.length_replicate]
        omega⟩
      pos := 4096, readPtr := 0, capacity := defaultBufferSize }

/-- The theorem at a format with one number. -/
theorem scanf_terminates_number :
    (∃ fuel result, (FileBufReader.holding [55] (by decide)).scanf (fun _ => ((), 0))
        (ascii " %d\n") fuel = .ok result) ∧
      (∀ fuel, (FileBufReader.holding [55] (by decide)).scanf (fun _ => ((), 0))
        (ascii " %d\n") fuel ≠ .error .outsideFormat) ↔ Stops (ascii " %d\n") :=
  scanf_terminates_iff (by
    rintro (_ | _ | fuel) h
    · cases h
    · cases h
    · cases h)

/-- On the empty format, for which nothing has to be converted, the loop stays at the NUL. -/
theorem scanf_nil_outOfFuel (fuel : Nat) :
    r.scanf strtof [] fuel = .error .outOfFuel := by
  rw [scanf_eq_error]
  exact whileLoop_stuck rfl rfl

/-- Nothing has to be converted, and the loop does not end. -/
theorem scanf_empty :
    (∀ fuel, (FileBufReader.holding [] (by decide)).scanf (fun _ => ((), 0)) [] fuel ≠
      .error .noNumber) ∧
    ¬ ∃ fuel result, (FileBufReader.holding [] (by decide)).scanf (fun _ => ((), 0)) [] fuel =
      .ok result := by
  constructor
  · intro fuel h
    rw [scanf_nil_outOfFuel] at h
    cases h
  · rintro ⟨fuel, result, h⟩
    rw [scanf_nil_outOfFuel] at h
    cases h

end

end Guthi
