import Guthi.Lib.Bytes

/-!
# Guthi — file paths

A directory is the list of its components, counted from the root. A path is a byte string; it is
resolved from the root if it starts with a slash, else from the working directory, one component
after the other: `.` and empty components stay, `..` goes up and the root is its own parent.
Symbolic links are not followed.

* `resolvePath`, `Below` — where a path leads, and which places lie below a directory;
* `RelPath` — the normal form of a path: some levels up, then down; `resolvePath_eq` — where the
  normal form leads is where the path leads;
* `below_startingAt_iff` — a path leads below a directory exactly if it starts below it and does
  not climb out, or comes down into it.
-/

namespace Guthi

/-- The character `/`. -/
def pathSlash : UInt8 := 47

/-- The component `.`. -/
def pathDot : Bytes := [46]

/-- The component `..`. -/
def pathDotDot : Bytes := [46, 46]

/-- The parts of a path between its slashes; some may be empty. -/
def pathComponents (path : Bytes) : List Bytes := path.splitOn pathSlash

/-- The path begins with a slash. -/
def isAbsolute (path : Bytes) : Bool := path.head? = some pathSlash

/-- One component, from a directory. -/
def enterComponent (dir : List Bytes) (c : Bytes) : List Bytes :=
  if c = [] ∨ c = pathDot then dir
  else if c = pathDotDot then dir.dropLast
  else dir ++ [c]

/-- Where the path leads a process with this working directory. -/
def resolvePath (cwd : List Bytes) (path : Bytes) : List Bytes :=
  (pathComponents path).foldl enterComponent (if isAbsolute path then [] else cwd)

/-- The place lies in the directory, at any depth. -/
def Below (dir place : List Bytes) : Prop := dir <+: place ∧ dir ≠ place

/-- Being below is a matter of two lists. -/
instance instDecidableBelow (dir place : List Bytes) : Decidable (Below dir place) := by
  unfold Below
  infer_instance

/-! ## Normal forms -/

/-- So many levels up, and then down through these components. -/
structure RelPath where
  up : Nat
  down : List Bytes
deriving DecidableEq, Repr

namespace RelPath

/-- One component more. -/
def extend (q : RelPath) (c : Bytes) : RelPath :=
  if c = [] ∨ c = pathDot then q
  else if c = pathDotDot then
    if q.down = [] then { q with up := q.up + 1 } else { q with down := q.down.dropLast }
  else { q with down := q.down ++ [c] }

/-- The normal form of a path. -/
def ofPath (path : Bytes) : RelPath := (pathComponents path).foldl extend ⟨0, []⟩

/-- Where a normal form leads from a directory. -/
def startingAt (q : RelPath) (base : List Bytes) : List Bytes :=
  base.take (base.length - q.up) ++ q.down

/-- A component more leads one step on from where the path led. -/
theorem startingAt_extend (q : RelPath) (c : Bytes) (base : List Bytes) :
    (q.extend c).startingAt base = enterComponent (q.startingAt base) c := by
  unfold extend enterComponent
  -- stay, go up from the start, go up again, go down
  split_ifs with hstay hup hdown
  · rfl
  · -- one level further up
    unfold startingAt
    rw [hdown, List.append_nil, List.append_nil, List.dropLast_eq_take, List.take_take,
      List.length_take]
    exact congrArg base.take (by simp only; omega)
  · show _ ++ q.down.dropLast = _
    rw [startingAt, List.dropLast_append_of_ne_nil hdown]
  · exact (List.append_assoc _ _ _).symm

/-- The same for several components. -/
theorem startingAt_foldl_extend (cs : List Bytes) (q : RelPath) (base : List Bytes) :
    (cs.foldl extend q).startingAt base = cs.foldl enterComponent (q.startingAt base) := by
  induction cs generalizing q with
  | nil => rfl
  | cons c cs ih => rw [List.foldl_cons, List.foldl_cons, ih, startingAt_extend]

end RelPath

/-- A path leads where its normal form does, from the root if it is absolute. -/
theorem resolvePath_eq (cwd : List Bytes) (path : Bytes) :
    resolvePath cwd path =
      (RelPath.ofPath path).startingAt (if isAbsolute path then [] else cwd) := by
  unfold resolvePath RelPath.ofPath
  rw [RelPath.startingAt_foldl_extend]
  show _ = List.foldl _ (List.take (_ - 0) _ ++ []) _
  rw [Nat.sub_zero, List.take_length, List.append_nil]

/-! ## Below a directory -/

/-- A prefix of two lists together ends in the first or in the second. -/
theorem isPrefixOf_append_iff {α : Type*} {l a b : List α} :
    l <+: a ++ b ↔ l <+: a ∨ ∃ b₁ b₂, b = b₁ ++ b₂ ∧ l = a ++ b₁ := by
  constructor
  · intro h
    -- prefixes of one list are comparable
    rcases List.prefix_or_prefix_of_prefix h (List.prefix_append a b) with hl | ha
    · exact Or.inl hl
    · obtain ⟨b₁, rfl⟩ := ha
      obtain ⟨b₂, rfl⟩ := (List.prefix_append_right_inj a).mp h
      exact Or.inr ⟨b₁, b₂, rfl, rfl⟩
  · rintro (h | ⟨b₁, b₂, rfl, rfl⟩)
    · exact h.trans (List.prefix_append a b)
    · rw [← List.append_assoc]
      exact List.prefix_append _ _

/-- The path starts below the directory and stays there on its way up, or it comes down into the
directory and goes on. -/
def RelPath.Enters (q : RelPath) (base dir : List Bytes) : Prop :=
  (dir <+: base ∧ dir.length + q.up < base.length) ∨
  ∃ d₁ d₂, d₂ ≠ [] ∧ q.down = d₁ ++ d₂ ∧ dir = base.take (base.length - q.up) ++ d₁

/-- A place is below a directory if the path does not go up so far, or comes down to it again. -/
theorem below_startingAt_iff (q : RelPath) (base dir : List Bytes) :
    Below dir (q.startingAt base) ↔ q.Enters base dir := by
  unfold Below RelPath.startingAt RelPath.Enters
  rw [isPrefixOf_append_iff]
  constructor
  · -- the directory ends on the way up or on the way down
    rintro ⟨hpre | ⟨d₁, d₂, hdown, rfl⟩, hne⟩
    · by_cases hlt : dir.length < base.length - q.up
      · exact Or.inl ⟨hpre.trans (List.take_prefix _ _), by omega⟩
      · -- the way up ends at the directory itself
        have hdir : dir = base.take (base.length - q.up) :=
          hpre.eq_of_length_le (by rw [List.length_take]; omega)
        refine Or.inr ⟨[], q.down, fun hnil => hne ?_, rfl, by rw [hdir, List.append_nil]⟩
        rw [hnil, List.append_nil, hdir]
    · refine Or.inr ⟨d₁, d₂, fun hnil => hne ?_, hdown, rfl⟩
      rw [hdown, hnil, List.append_nil]
  · rintro (⟨hpre, hlt⟩ | ⟨d₁, d₂, hd₂, hdown, rfl⟩)
    · have htake : dir <+: base.take (base.length - q.up) :=
        List.prefix_take_iff.mpr ⟨hpre, by omega⟩
      refine ⟨Or.inl htake, fun heq => ?_⟩
      have hlen := congrArg List.length heq
      rw [List.length_append, List.length_take] at hlen
      omega
    · refine ⟨Or.inr ⟨d₁, d₂, hdown, rfl⟩, fun heq => hd₂ ?_⟩
      rw [hdown, ← List.append_assoc, List.self_eq_append_right] at heq
      exact heq

end Guthi
