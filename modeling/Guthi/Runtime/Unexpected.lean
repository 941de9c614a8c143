import Guthi.Runtime.MaximumEndings

/-!
# Guthi — keywords where no parser expects them

The endings of the automaton, said of the sequence of tokens alone. What counts at a token is what
has come since the last `cpu` in front of it: a reading that is complete up to its colon or its
number breaks off at any other token, and a keyword that does not go on with a reading is one that
the parser stays at for ever.

* `StaysAtKeyword` — there is an unexpected keyword, and no reading breaks off in front of it;
* `ReadToEnd` — there is neither, up to the end;
* `tokenRun_ends` — these are the sequences at which the automaton is stuck and comes to the end.
-/

namespace Guthi

variable {words types before : List TokenType} {type : TokenType}

/-- What has come since the last `cpu`. -/
def sinceCpu (types : List TokenType) : Option (List TokenType) :=
  types.foldl (fun since type => if type = .tokenCpu then some [] else since.map (· ++ [type])) none

/-- One more token behind the last `cpu`. -/
theorem sinceCpu_concat (before : List TokenType) (type : TokenType) : sinceCpu (before ++ [type]) =
    if type = .tokenCpu then some [] else (sinceCpu before).map (· ++ [type]) := by
  rw [sinceCpu, List.foldl_append]
  rfl

/-- At the token a reading misses its colon or its number. -/
def BreaksAt (words before : List TokenType) (type : TokenType) : Prop :=
  sinceCpu before = some words ∧ type ≠ .tokenColon ∨
    sinceCpu before = some (words ++ [.tokenColon]) ∧ type ≠ .tokenNumber

/-- Among these tokens a reading breaks off. -/
def BreaksOff (words types : List TokenType) : Prop :=
  ∃ before type, before ++ [type] <+: types ∧ BreaksAt words before type

/-- The token is a keyword that does not go on with a reading. -/
def UnexpectedAt (words before : List TokenType) (type : TokenType) : Prop :=
  type ∈ [TokenType.tokenMhz, .tokenMax, .tokenMemAvailable] ∧
    ∀ since, sinceCpu before = some since → ¬ since ++ [type] <+: words

/-- There is an unexpected keyword, and up to there no reading breaks off. -/
def StaysAtKeyword (words types : List TokenType) : Prop :=
  ∃ before type, before ++ [type] <+: types ∧ UnexpectedAt words before type ∧
    ¬ BreaksOff words (before ++ [type])

/-- Neither does a reading break off, up to the end, nor is there an unexpected keyword. -/
def ReadToEnd (words types : List TokenType) : Prop :=
  ¬ BreaksOff words (types ++ [.tokenEnd]) ∧
    ∀ before type, before ++ [type] <+: types → ¬ UnexpectedAt words before type

/-- A reading that is broken off stays so. -/
theorem BreaksOff.mono {types' : List TokenType} (h : BreaksOff words types)
    (hbegins : types <+: types') : BreaksOff words types' := by
  obtain ⟨before, type, hle, hbreaks⟩ := h
  exact ⟨before, type, hle.trans hbegins, hbreaks⟩

/-- With one more token: a reading was broken off before, or it is now. -/
theorem breaksOff_concat : BreaksOff words (before ++ [type]) ↔
    BreaksOff words before ∨ BreaksAt words before type := by
  constructor
  · rintro ⟨before', type', hle, hbreaks⟩
    rcases List.prefix_concat_iff.mp hle with heq | hle
    · obtain ⟨rfl, heq⟩ := List.append_inj' heq rfl
      obtain rfl : type' = type := by simpa using heq
      exact Or.inr hbreaks
    · exact Or.inl ⟨before', type', hle, hbreaks⟩
  · rintro (hbroken | hbreaks)
    · exact hbroken.mono (List.prefix_append _ _)
    · exact ⟨before, type, List.prefix_refl _, hbreaks⟩

/-! ## The stage of the automaton -/

/-- The stage of the automaton, from the tokens since the last `cpu`. -/
def stageOf (words before : List TokenType) : Stage :=
  match sinceCpu before with
  | none => .outside
  | some since =>
    if since <+: words then .words (words.drop since.length)
    else if since = words ++ [.tokenColon] then .colon
    else .outside

/-- What the automaton does at a token, behind others. -/
inductive MovesAt (words before : List TokenType) (type : TokenType) : Move → Prop where
  | go (hbreaks : ¬ BreaksAt words before type) (hunexpected : ¬ UnexpectedAt words before type) :
      MovesAt words before type (.go (stageOf words (before ++ [type])))
  | add (hbreaks : ¬ BreaksAt words before type) (hunexpected : ¬ UnexpectedAt words before type)
      (hstage : stageOf words (before ++ [type]) = .outside) : MovesAt words before type .add
  | breaks {ending : Ending} (hending : ending = .noColon ∨ ending = .noNumber)
      (hbreaks : BreaksAt words before type) : MovesAt words before type (.stop ending)
  | stuck (hbreaks : ¬ BreaksAt words before type) (hunexpected : UnexpectedAt words before type) :
      MovesAt words before type (.stop .stuck)

section

variable {tok : Token} {since left : List TokenType}

/-- Before the first `cpu` it is outside. -/
theorem stageOf_none (h : sinceCpu before = none) : stageOf words before = .outside := by
  rw [stageOf, h]

/-- Within the words of a reading. -/
theorem stageOf_words (h : sinceCpu before = some since) (hwords : words = since ++ left) :
    stageOf words before = .words left := by
  subst hwords
  rw [stageOf, h]
  simp only [List.prefix_append, if_true, List.drop_left]

/-- A longer list is no beginning. -/
theorem not_prefix_of_longer {l : List TokenType} (h : l.length < since.length) :
    ¬ since <+: l := fun hbegins => absurd hbegins.length_le (Nat.not_le_of_lt h)

/-- Behind the colon of a reading. -/
theorem stageOf_colon (h : sinceCpu before = some (words ++ [.tokenColon])) :
    stageOf words before = .colon := by
  have hlonger : ¬ words ++ [TokenType.tokenColon] <+: words := not_prefix_of_longer (by simp)
  rw [stageOf, h]
  simp only [if_neg hlonger, if_true]

theorem stageOf_outside (h : sinceCpu before = some since) (hbegins : ¬ since <+: words)
    (hcolon : since ≠ words ++ [.tokenColon]) : stageOf words before = .outside := by
  rw [stageOf, h]
  simp only [if_neg hbegins, if_neg hcolon]

/-- A token that does not go on with a reading and does not break one off. -/
theorem movesAt_outside (hnext : ∀ since, sinceCpu before = some since →
      ¬ since ++ [tok.type] <+: words ∧ since ≠ words ∧ since ≠ words ++ [.tokenColon]) :
    MovesAt words before tok.type (Stage.outsideMove words tok) := by
  have hbreaks : ¬ BreaksAt words before tok.type := by
    rintro (⟨hsince, _⟩ | ⟨hsince, _⟩)
    · exact (hnext _ hsince).2.1 rfl
    · exact (hnext _ hsince).2.2 rfl
  have hconcat := sinceCpu_concat before tok.type
  rw [Stage.outsideMove]
  -- a new reading, a skipped token, or one that no branch takes
  split_ifs with hcpu hskipped
  · rw [if_pos hcpu] at hconcat
    rw [← stageOf_words hconcat (List.nil_append words).symm]
    refine .go hbreaks fun hunexpected => ?_
    rw [hcpu] at hunexpected
    exact absurd hunexpected.1 (by decide)
  · rw [if_neg hcpu] at hconcat
    have hstage : stageOf words (before ++ [tok.type]) = .outside := by
      cases hsince : sinceCpu before with
      | none =>
        rw [hsince] at hconcat
        exact stageOf_none hconcat
      | some since =>
        rw [hsince] at hconcat
        obtain ⟨hbegins, hwords, _⟩ := hnext since hsince
        refine stageOf_outside hconcat hbegins fun hcolon => ?_
        exact hwords (List.append_inj_left' hcolon rfl)
    rw [← hstage]
    refine .go hbreaks fun hunexpected => ?_
    rcases hskipped with h | h | h <;>
      (rw [h] at hunexpected; exact absurd hunexpected.1 (by decide))
  · refine .stuck hbreaks ⟨?_, fun since hsince => (hnext since hsince).1⟩
    have htype := tok.type_mem
    rw [not_or, not_or] at hskipped
    simp only [List.cons_append, List.nil_append, List.mem_cons, List.not_mem_nil, or_false]
      at htype ⊢
    tauto

/-- In a reading, with some of its words still to come. -/
theorem movesAt_words {w : TokenType} (hw : w ∈ [TokenType.tokenMhz, .tokenMax])
    (hsince : sinceCpu before = some since) (hwords : words = since ++ w :: left) :
    MovesAt words before tok.type (Stage.move words (.words (w :: left)) tok) := by
  have hne : since ≠ words := by
    rintro rfl
    exact absurd (congrArg List.length hwords) (by simp)
  have hshort : since ≠ words ++ [.tokenColon] := by
    rintro rfl
    exact absurd (congrArg List.length hwords) (by simp)
  rw [Stage.move]
  -- the next word, or a token as outside
  split_ifs with htype
  · have hcpu : tok.type ≠ .tokenCpu := by
      rintro hcpu
      rw [← htype, hcpu] at hw
      exact absurd hw (by decide)
    have hconcat := sinceCpu_concat before tok.type
    rw [if_neg hcpu, hsince, htype] at hconcat
    have hgoes : words = since ++ [w] ++ left := by rw [hwords, List.append_assoc]; rfl
    rw [← htype] at hconcat hgoes
    rw [← stageOf_words hconcat hgoes]
    refine .go ?_ fun hunexpected => hunexpected.2 since hsince ⟨left, hgoes.symm⟩
    rintro (⟨h, _⟩ | ⟨h, _⟩)
    · exact hne (Option.some.inj (hsince.symm.trans h))
    · exact hshort (Option.some.inj (hsince.symm.trans h))
  · refine movesAt_outside fun since' hsince' => ?_
    obtain rfl : since = since' := Option.some.inj (hsince.symm.trans hsince')
    refine ⟨fun hbegins => htype ?_, hne, hshort⟩
    rw [hwords, List.prefix_append_right_inj] at hbegins
    exact (List.cons_prefix_cons.mp hbegins).1

/-- Behind the last word of a reading. -/
theorem movesAt_lastWord (hsince : sinceCpu before = some words) :
    MovesAt words before tok.type (Stage.move words (.words []) tok) := by
  rw [Stage.move]
  split_ifs with hcolon
  · have hstage : stageOf words (before ++ [tok.type]) = .colon := by
      rw [hcolon]
      refine stageOf_colon ?_
      rw [sinceCpu_concat, if_neg (by decide), hsince]
      rfl
    rw [← hstage, hcolon]
    refine .go ?_ fun hunexpected => absurd hunexpected.1 (by decide)
    rintro (⟨_, h⟩ | ⟨h, _⟩)
    · exact h rfl
    · have hlen := congrArg List.length (Option.some.inj (hsince.symm.trans h))
      simp at hlen
  · exact .breaks (Or.inl rfl) (Or.inl ⟨hsince, hcolon⟩)

/-- Behind the colon of a reading. -/
theorem movesAt_colon (hsince : sinceCpu before = some (words ++ [.tokenColon])) :
    MovesAt words before tok.type (Stage.move words .colon tok) := by
  rw [Stage.move]
  split_ifs with hnumber
  · have hstage : stageOf words (before ++ [tok.type]) = .outside := by
      rw [hnumber]
      have hconcat : sinceCpu (before ++ [.tokenNumber]) =
          some (words ++ [.tokenColon] ++ [.tokenNumber]) := by
        rw [sinceCpu_concat, if_neg (by decide), hsince]
        rfl
      refine stageOf_outside hconcat (not_prefix_of_longer (by simp)) fun h => ?_
      exact absurd (congrArg List.length h) (by simp)
    rw [hnumber] at hstage ⊢
    refine .add ?_ (fun hunexpected => absurd hunexpected.1 (by decide)) hstage
    rintro (⟨h, _⟩ | ⟨_, h⟩)
    · have hlen := congrArg List.length (Option.some.inj (hsince.symm.trans h))
      simp at hlen
    · exact h rfl
  · exact .breaks (Or.inr rfl) (Or.inr ⟨hsince, hnumber⟩)

/-- **One token**: the automaton is where the tokens since the last `cpu` say. -/
theorem movesAt_stageOf (hwords : ∀ w ∈ words, w ∈ [TokenType.tokenMhz, .tokenMax]) :
    MovesAt words before tok.type ((stageOf words before).move words tok) := by
  cases hsince : sinceCpu before with
  | none =>
    rw [stageOf_none hsince]
    exact movesAt_outside fun since h => absurd (hsince.symm.trans h) (by simp)
  | some since =>
    -- the tokens since `cpu` are words of the reading, its colon, or neither
    by_cases hbegins : since <+: words
    · obtain ⟨left, hleft⟩ := hbegins
      rw [stageOf_words hsince hleft.symm]
      cases left with
      | nil =>
        rw [List.append_nil] at hleft
        subst hleft
        exact movesAt_lastWord hsince
      | cons w left =>
        exact movesAt_words (hwords w (by rw [← hleft]; simp)) hsince hleft.symm
    · by_cases hcolon : since = words ++ [.tokenColon]
      · subst hcolon
        rw [stageOf_colon hsince]
        exact movesAt_colon hsince
      · rw [stageOf_outside hsince hbegins hcolon]
        refine movesAt_outside fun since' hsince' => ?_
        obtain rfl : since = since' := Option.some.inj (hsince.symm.trans hsince')
        refine ⟨fun h => hbegins ((List.prefix_append _ _).trans h), ?_, hcolon⟩
        rintro rfl
        exact hbegins (List.prefix_refl _)

/-- At the end the stage tells whether a reading is broken off there. -/
theorem stageOf_ending (words before : List TokenType) :
    (stageOf words before).ending ≠ .stuck ∧
      ((stageOf words before).ending = .atEnd ↔ ¬ BreaksAt words before .tokenEnd) := by
  cases hsince : sinceCpu before with
  | none =>
    rw [stageOf_none hsince]
    simp [Stage.ending, BreaksAt, hsince]
  | some since =>
    by_cases hbegins : since <+: words
    · obtain ⟨left, hleft⟩ := hbegins
      rw [stageOf_words hsince hleft.symm]
      cases left with
      | nil =>
        rw [List.append_nil] at hleft
        simp [Stage.ending, BreaksAt, hsince, hleft]
      | cons w left =>
        have hne : since ≠ words := by
          rintro rfl
          exact absurd (congrArg List.length hleft) (by simp)
        have hshort : since ≠ words ++ [.tokenColon] := by
          rintro rfl
          exact absurd (congrArg List.length hleft) (by simp)
        simp [Stage.ending, BreaksAt, hsince, hne, hshort]
    · have hne : since ≠ words := by
        rintro rfl
        exact hbegins (List.prefix_refl _)
      by_cases hcolon : since = words ++ [.tokenColon]
      · subst hcolon
        rw [stageOf_colon hsince]
        simp [Stage.ending, BreaksAt, hsince]
      · rw [stageOf_outside hsince hbegins hcolon]
        simp [Stage.ending, BreaksAt, hsince, hne, hcolon]

end

/-! ## A whole run -/

/-- Where a run ends: at an unexpected keyword, at the end, or at neither. -/
structure RunEnds (words types : List TokenType) (ending : Ending) : Prop where
  stuck : ending = .stuck ↔ StaysAtKeyword words types
  atEnd : ending = .atEnd ↔ ReadToEnd words types

/-- Neither does a reading break off among the tokens, nor is there an unexpected keyword. -/
structure ReadThrough (words before : List TokenType) : Prop where
  unbroken : ¬ BreaksOff words before
  expected : ∀ pre type, pre ++ [type] <+: before → ¬ UnexpectedAt words pre type

/-- One more token that neither breaks a reading off nor holds the run up. -/
theorem ReadThrough.concat (h : ReadThrough words before) (hbreaks : ¬ BreaksAt words before type)
    (hunexpected : ¬ UnexpectedAt words before type) : ReadThrough words (before ++ [type]) where
  unbroken hbroken := (breaksOff_concat.mp hbroken).elim h.unbroken hbreaks
  expected pre type' hbegins := by
    rcases List.prefix_concat_iff.mp hbegins with heq | hbegins
    · obtain ⟨rfl, heq⟩ := List.append_inj' heq rfl
      obtain rfl : type' = type := by simpa using heq
      exact hunexpected
    · exact h.expected pre type' hbegins

/-- Tokens that were read through hold nothing up. -/
theorem ReadThrough.not_staysAtKeyword (h : ReadThrough words before) :
    ¬ StaysAtKeyword words before := fun ⟨pre, type, hbegins, hunexpected, _⟩ =>
  h.expected pre type hbegins hunexpected

section

variable {after : List TokenType} {ending : Ending}

/-- The run ends where a reading breaks off. -/
theorem runEnds_of_breaksAt (h : ReadThrough words before) (hbreaks : BreaksAt words before type)
    (hending : ending = .noColon ∨ ending = .noNumber) :
    RunEnds words (before ++ type :: after) ending := by
  have hbegins : before ++ [type] <+: before ++ type :: after :=
    (List.prefix_append_right_inj before).mpr ⟨after, rfl⟩
  have hbroken : BreaksOff words (before ++ [type]) := breaksOff_concat.mpr (Or.inr hbreaks)
  have hstuck : ending ≠ .stuck := by
    rcases hending with rfl | rfl <;> decide
  have hatEnd : ending ≠ .atEnd := by
    rcases hending with rfl | rfl <;> decide
  refine ⟨iff_of_false hstuck ?_, iff_of_false hatEnd fun hread => ?_⟩
  · rintro ⟨pre, type', hpre, hunexpected, hunbroken⟩
    -- an earlier token was expected; a later one comes behind the break
    rcases List.prefix_or_prefix_of_prefix hpre hbegins with hle | hle
    · rcases List.prefix_concat_iff.mp hle with heq | hle
      · exact hunbroken (heq ▸ hbroken)
      · exact h.expected pre type' hle hunexpected
    · exact hunbroken (hbroken.mono hle)
  · exact hread.1 (hbroken.mono (hbegins.trans (List.prefix_append _ _)))

/-- The run is held up at a keyword that it does not expect. -/
theorem runEnds_of_unexpectedAt (h : ReadThrough words before)
    (hbreaks : ¬ BreaksAt words before type) (hunexpected : UnexpectedAt words before type) :
    RunEnds words (before ++ type :: after) .stuck := by
  have hbegins : before ++ [type] <+: before ++ type :: after :=
    (List.prefix_append_right_inj before).mpr ⟨after, rfl⟩
  have hunbroken : ¬ BreaksOff words (before ++ [type]) := fun hbroken =>
    (breaksOff_concat.mp hbroken).elim h.unbroken hbreaks
  refine ⟨iff_of_true rfl ⟨before, type, hbegins, hunexpected, hunbroken⟩, ?_⟩
  exact iff_of_false (by decide) fun hread => hread.2 before type hbegins hunexpected

/-- The run comes to the end of the tokens. -/
theorem runEnds_nil (h : ReadThrough words before) :
    RunEnds words before (stageOf words before).ending := by
  obtain ⟨hstuck, hatEnd⟩ := stageOf_ending words before
  refine ⟨iff_of_false hstuck h.not_staysAtKeyword, hatEnd.trans ?_⟩
  constructor
  · intro hbreaks
    exact ⟨fun hbroken => (breaksOff_concat.mp hbroken).elim h.unbroken hbreaks, h.expected⟩
  · intro hread hbreaks
    exact hread.1 (breaksOff_concat.mpr (Or.inr hbreaks))

end

/-- **A run**, from behind any tokens that it has read through. -/
theorem tokenRun_ends (hwords : ∀ w ∈ words, w ∈ [TokenType.tokenMhz, .tokenMax]) {ts : List Token}
    {carried : Option Nat} (h : ReadThrough words before) :
    RunEnds words (before ++ ts.map Token.type)
      (tokenRun words (stageOf words before) carried ts).ending := by
  induction ts generalizing before carried with
  | nil =>
    rw [List.map_nil, List.append_nil]
    exact runEnds_nil h
  | cons tok ts ih =>
    have hassoc : before ++ (tok :: ts).map Token.type =
        before ++ [tok.type] ++ ts.map Token.type := by
      rw [List.append_assoc]
      rfl
    have hmove : MovesAt words before tok.type ((stageOf words before).move words tok) :=
      movesAt_stageOf hwords
    rw [tokenRun]
    generalize (stageOf words before).move words tok = move at hmove
    -- the run goes on with the token read through, or it ends here
    cases hmove with
    | go hbreaks hunexpected =>
      rw [hassoc]
      exact ih (h.concat hbreaks hunexpected)
    | add hbreaks hunexpected hstage =>
      rw [hassoc, ← hstage]
      exact ih (h.concat hbreaks hunexpected)
    | breaks hending hbreaks => exact runEnds_of_breaksAt h hbreaks hending
    | stuck hbreaks hunexpected => exact runEnds_of_unexpectedAt h hbreaks hunexpected

/-- There is nothing to read through at first. -/
theorem readThrough_nil (words : List TokenType) : ReadThrough words [] where
  unbroken := fun ⟨_, _, hbegins, _⟩ => by simp at hbegins
  expected _ _ hbegins := by simp at hbegins

/-- The token types of the text of a buffer. -/
def tokenTypes (buffer : Bytes) : List TokenType := (tokens (cStr buffer)).map Token.type

theorem cpuInfoRun_ends (carried : Option Nat) (buffer : Bytes) :
    RunEnds [.tokenMhz] (tokenTypes buffer) (cpuInfoRun carried buffer).ending :=
  tokenRun_ends (by decide) (readThrough_nil _)

/-- The run of `parse_maximum_cpu_hz`. -/
theorem maximumCpuHzRun_ends (carried : Option Nat) (buffer : Bytes) :
    RunEnds [.tokenMax, .tokenMhz] (tokenTypes buffer) (maximumCpuHzRun carried buffer).ending :=
  tokenRun_ends (by decide) (readThrough_nil _)

/-- The run of `parse_memory_free_space` is decided by its first token. -/
theorem memoryRun_ending (carried : Option Nat) (buffer : Bytes) :
    ((memoryRun carried buffer).ending ≠ .stuck ↔
      ∀ type, (tokenTypes buffer).head? = some type → type = .tokenMemAvailable) ∧
    ((memoryRun carried buffer).ending = .atEnd ↔ tokenTypes buffer = []) := by
  unfold memoryRun tokenTypes
  cases tokens (cStr buffer) with
  | nil => simp [memoryTokenRun]
  | cons tok ts =>
    rw [memoryTokenRun]
    split_ifs with havailable hcolon <;> simp [havailable]

end Guthi
