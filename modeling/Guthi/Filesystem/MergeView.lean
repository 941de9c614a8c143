import Guthi.Filesystem.MergeTree

/-!
# Guthi — what a user sees of a merged tree

A user of the network file system sees the Files that lie below Directories. The module says
how the merge changes that view, first for one name at one level, then for whole trees.

* `filter_absorbAll` — entries of different names do not interact; for one name the merge is
  decided by the entries that meet there (`meetAt`, `Meeting`);
* `filesOf_absorbAll_iff` — the merge shows the Files of both sides exactly when no Directory
  that shows a File is merged into a File (`Unshadowed`);
* `typeAt_directory_absorbAll` — without a clash of types the Directory paths are united.
-/

namespace Guthi

namespace Tree

/-! ## The view -/

mutual

/-- The Files in a tree that have only Directories above them, each with its path and with the
node that stores it. -/
def visibleFiles : Tree → Multiset (List Bytes × NetworkNode)
  | .node _ ty nn nm ts =>
    if ty = FileType.file then {([nm], nn)}
    else if ty = FileType.directory then (filesOf ts).map fun e => (nm :: e.1, e.2)
    else 0

/-- The Files that are visible below the trees of a list. -/
def filesOf : List Tree → Multiset (List Bytes × NetworkNode)
  | [] => 0
  | t :: ts => t.visibleFiles + filesOf ts

end

/-- The Files that are visible below a root, without the name of the root. -/
def filesBelow (root : Tree) : Multiset (List Bytes × NetworkNode) :=
  if root.type = FileType.directory then filesOf root.contents else 0

/-- Some node of type `ty` has the given path, below Directories only. -/
def TypeAt (ty : FileType) : List Bytes → List Tree → Prop
  | [], _ => False
  | [n], ts => ∃ t ∈ ts, t.name = n ∧ t.type = ty
  | n :: m :: p, ts =>
    ∃ t ∈ ts, t.name = n ∧ t.type = FileType.directory ∧ TypeAt ty (m :: p) t.contents

/-- The paths of the Directories that are visible below a root, without the name of the root. -/
def directoriesBelow (root : Tree) : Set (List Bytes) :=
  {p | root.type = FileType.directory ∧ TypeAt FileType.directory p root.contents}

/-- Every node is a Directory or a File. -/
def WellTyped (ts : List Tree) : Prop :=
  ∀ x ∈ nodesAll ts, x.type = FileType.directory ∨ x.type = FileType.file

/-- No path is that of a File and of a Directory. -/
def NoClash (ts : List Tree) : Prop :=
  ∀ p, ¬ (TypeAt FileType.file p ts ∧ TypeAt FileType.directory p ts)

theorem visibleFiles_of_file {t : Tree} (hfile : t.type = FileType.file) :
    t.visibleFiles = {([t.name], t.networkNode)} := by
  cases t
  exact if_pos hfile

/-- A Directory shows what is below, behind its name. -/
theorem visibleFiles_of_directory {t : Tree} (hdir : t.type = FileType.directory) :
    t.visibleFiles = (filesOf t.contents).map fun e => (t.name :: e.1, e.2) := by
  cases t
  rw [type] at hdir
  rw [visibleFiles, hdir, if_neg (by decide), if_pos rfl]
  rfl

/-- Lists show what their parts show. -/
theorem filesOf_append (ts us : List Tree) : filesOf (ts ++ us) = filesOf ts + filesOf us := by
  induction ts with
  | nil => rw [List.nil_append, filesOf, zero_add]
  | cons t ts ih => rw [List.cons_append, filesOf, filesOf, ih, add_assoc]

theorem filesOf_perm {ts us : List Tree} (h : ts.Perm us) : filesOf ts = filesOf us := by
  induction h with
  | nil => rfl
  | cons t _ ih => rw [filesOf, filesOf, ih]
  | swap t u ts => rw [filesOf, filesOf, filesOf, filesOf, add_left_comm]
  | trans _ _ ih₁ ih₂ => exact ih₁.trans ih₂

/-- Nothing is visible exactly if no tree shows anything. -/
theorem filesOf_eq_zero {ts : List Tree} : filesOf ts = 0 ↔ ∀ t ∈ ts, t.visibleFiles = 0 := by
  induction ts with
  | nil => simp [filesOf]
  | cons t ts ih => simp [filesOf, ih]

/-- Every path begins with the name of its tree. -/
theorem head?_of_mem_visibleFiles {t : Tree} {e : List Bytes × NetworkNode}
    (he : e ∈ t.visibleFiles) : e.1.head? = some t.name := by
  cases t with
  | node a ty nn nm ts =>
    rw [visibleFiles] at he
    split_ifs at he with hfile hdir
    · rw [Multiset.mem_singleton.mp he]
      rfl
    · obtain ⟨e', _, rfl⟩ := Multiset.mem_map.mp he
      rfl
    · exact absurd he (Multiset.notMem_zero e)

/-- The visible Files whose path starts with `n` are those of the trees of that name. -/
theorem filter_filesOf (n : Bytes) (ts : List Tree) :
    (filesOf ts).filter (fun e => e.1.head? = some n) = filesOf (ts.filter (hasName n)) := by
  induction ts with
  | nil => rfl
  | cons t ts ih =>
    rw [filesOf, Multiset.filter_add, ih]
    by_cases hname : t.name = n
    · rw [List.filter_cons_of_pos (by simpa using hname), filesOf, Multiset.filter_eq_self.mpr]
      intro e he
      rw [head?_of_mem_visibleFiles he, hname]
    · rw [List.filter_cons_of_neg (by simpa using hname), Multiset.filter_eq_nil.mpr, zero_add]
      intro e he hhead
      rw [head?_of_mem_visibleFiles he] at hhead
      exact hname (Option.some.inj hhead)

/-- Two lists of trees show the same Files when they do so name by name. -/
theorem filesOf_eq_iff {ts us : List Tree} : filesOf ts = filesOf us ↔
    ∀ n, filesOf (ts.filter (hasName n)) = filesOf (us.filter (hasName n)) := by
  refine ⟨fun h n => by rw [← filter_filesOf, ← filter_filesOf, h], fun h => ?_⟩
  -- no File has the empty path
  have hempty : ∀ (vs : List Tree) (e : List Bytes × NetworkNode), e.1.head? = none →
      (filesOf vs).count e = 0 := by
    intro vs e he
    induction vs with
    | nil => rfl
    | cons v vs ih =>
      rw [filesOf, Multiset.count_add, ih, Multiset.count_eq_zero_of_notMem]
      intro hmem
      rw [head?_of_mem_visibleFiles hmem] at he
      exact absurd he (by simp)
  apply Multiset.ext.mpr
  intro e
  -- the count of an entry is that at the first name of its path
  cases hhead : e.1.head? with
  | none => rw [hempty ts e hhead, hempty us e hhead]
  | some n =>
    have hcount : ∀ vs : List Tree,
        (filesOf vs).count e = (filesOf (vs.filter (hasName n))).count e := by
      intro vs
      rw [← filter_filesOf]
      exact (Multiset.count_filter_of_pos (p := fun e : List Bytes × NetworkNode =>
        e.1.head? = some n) hhead).symm
    rw [hcount ts, hcount us, h n]

/-! ## One name at one level -/

/-- Lists of entries go in one after the other. -/
theorem absorbAll_append (xs ys cs : List Tree) :
    absorbAll (xs ++ ys) cs = absorbAll ys (absorbAll xs cs) := by
  induction xs generalizing cs with
  | nil => rfl
  | cons x xs ih => rw [List.cons_append, absorbAll, absorbAll, ih]

/-- The search for a name does not see other names. -/
theorem find?_filter_hasName (n : Bytes) (cs : List Tree) :
    (cs.filter (hasName n)).find? (hasName n) = cs.find? (hasName n) := by
  rw [List.find?_filter]
  exact congrArg (cs.find? ·) (funext fun t => by simp [hasName])

/-- An entry of another name leaves the entries of this name as they were. -/
theorem filter_absorb_of_ne {x : Tree} {n : Bytes} (hne : x.name ≠ n) (cs : List Tree) :
    (absorb x cs).filter (hasName n) = cs.filter (hasName n) := by
  have hother : [x].filter (hasName n) = [] := by simpa using hne
  cases hfind : cs.find? (hasName x.name) with
  | none => rw [absorb_of_new hfind, List.filter_append, hother, List.append_nil]
  | some c =>
    by_cases hfile : x.type = FileType.file
    · rw [absorb_of_file cs hfile, List.filter_append, hother, List.append_nil]
    · rw [absorb_of_match hfind hfile]
      refine filter_updateFirst_of_disjoint (fun c hc => ?_) (fun c => by simp [hasName]) cs
      rw [hasName_iff] at hc
      simpa [hasName, hc] using hne

/-- An entry of this name meets only the entries of its name. -/
theorem filter_absorb_of_eq {x : Tree} {n : Bytes} (hname : x.name = n) (cs : List Tree) :
    (absorb x cs).filter (hasName n) = absorb x (cs.filter (hasName n)) := by
  subst hname
  have hself : [x].filter (hasName x.name) = [x] := by simp
  have hfilter := find?_filter_hasName x.name cs
  cases hfind : cs.find? (hasName x.name) with
  | none =>
    rw [absorb_of_new hfind, absorb_of_new (hfilter.trans hfind), List.filter_append, hself]
  | some c =>
    by_cases hfile : x.type = FileType.file
    · rw [absorb_of_file cs hfile, absorb_of_file _ hfile, List.filter_append, hself]
    · -- the first of its name is the same in the filtered list
      rw [absorb_of_match hfind hfile, absorb_of_match (hfilter.trans hfind) hfile]
      exact filter_updateFirst (fun _ h => h) (fun c => by simp [hasName]) cs

/-- Names do not interact: the entries named `n` after the merge come from the entries named
`n` before it. -/
theorem filter_absorbAll (n : Bytes) (xs cs : List Tree) :
    (absorbAll xs cs).filter (hasName n) =
      absorbAll (xs.filter (hasName n)) (cs.filter (hasName n)) := by
  induction xs generalizing cs with
  | nil => rfl
  | cons x xs ih =>
    rw [absorbAll, ih]
    by_cases hname : x.name = n
    · rw [List.filter_cons_of_pos (by simpa using hname), absorbAll, filter_absorb_of_eq hname]
    · rw [List.filter_cons_of_neg (by simpa using hname), filter_absorb_of_ne hname]

/-- The entries that are no Files; these are merged, the Files are appended. -/
def mergeable (ts : List Tree) : List Tree := ts.filter fun t => t.type ≠ FileType.file

/-- The Files of a list. -/
def filesAmong (ts : List Tree) : List Tree := ts.filter fun t => t.type = FileType.file

/-- A list is what can be merged, and its Files. -/
theorem mergeable_append_filesAmong_perm (ts : List Tree) :
    (mergeable ts ++ filesAmong ts).Perm ts := by
  have h := List.filter_append_perm (fun t : Tree => decide (t.type ≠ FileType.file)) ts
  simpa [mergeable, filesAmong] using h

/-- Merging entries of one name into a list that starts with an entry of that name: the
children of the Directories go below it, the Files are appended. -/
theorem absorbAll_of_sameName {n : Bytes} {c : Tree} {xs : List Tree} (hc : c.name = n)
    (hxs : ∀ x ∈ xs, x.name = n) (cs : List Tree) :
    absorbAll xs (c :: cs) =
      c.setContents (absorbAll ((mergeable xs).flatMap contents) c.contents) ::
        (cs ++ filesAmong xs) := by
  induction xs generalizing c cs with
  | nil => simp [absorbAll, mergeable, filesAmong]
  | cons x xs ih =>
    have hx : x.name = n := hxs x (by simp)
    have hrest : ∀ y ∈ xs, y.name = n := fun y hy => hxs y (by simp [hy])
    have hfind : (c :: cs).find? (hasName x.name) = some c :=
      List.find?_cons_of_pos (by rw [hasName_iff, hc, hx])
    rw [absorbAll]
    -- a File is appended; the children of a folder go below `c`
    by_cases hfile : x.type = FileType.file
    · rw [absorb_of_file _ hfile, List.cons_append, ih hc hrest]
      simp [mergeable, filesAmong, hfile]
    · rw [absorb_of_match hfind hfile, updateFirst, if_pos (by rw [hasName_iff, hc, hx]),
        ih (by simpa using hc) hrest]
      simp [mergeable, filesAmong, hfile, absorbAll_append]

/-- The entries of name `n` that meet when `xs` is merged into `cs`, in order: the first one
that is there already, then those that are added. -/
def meetAt (n : Bytes) (cs xs : List Tree) : List Tree :=
  (cs.find? (hasName n)).toList ++ xs.filter (hasName n)

/-- The merge at one name: the first of the entries that meet takes in the others. -/
structure Meeting (n : Bytes) (cs xs : List Tree) (holder : Tree) (later rest : List Tree) :
    Prop where
  meet : meetAt n cs xs = holder :: later
  before : ((cs ++ xs).filter (hasName n)).Perm (holder :: (rest ++ later))
  after : (absorbAll xs cs).filter (hasName n) =
    holder.setContents (absorbAll ((mergeable later).flatMap contents) holder.contents) ::
      (rest ++ filesAmong later)

/-- At a name there is nothing, or the entries of that name meet at the first one: an old entry if
there is any, else the first that is added. -/
theorem meeting_cases (n : Bytes) (cs xs : List Tree) :
    (meetAt n cs xs = [] ∧ (cs ++ xs).filter (hasName n) = [] ∧
      (absorbAll xs cs).filter (hasName n) = []) ∨
    ∃ holder later rest, Meeting n cs xs holder later rest := by
  have hnamed : ∀ {ts : List Tree} {t : Tree}, t ∈ ts.filter (hasName n) → t.name = n :=
    fun ht => by simpa using (List.mem_filter.mp ht).2
  have hfind : cs.find? (hasName n) = (cs.filter (hasName n)).head? := by
    rw [List.head?_filter]
  cases hcs : cs.filter (hasName n) with
  | cons c rest =>
    -- an old entry is the holder
    refine Or.inr ⟨c, xs.filter (hasName n), rest, ?_, ?_, ?_⟩
    · rw [meetAt, hfind, hcs]
      rfl
    · rw [List.filter_append, hcs]
      rfl
    · rw [filter_absorbAll, hcs]
      exact absorbAll_of_sameName (hnamed (by rw [hcs]; simp)) (fun x hx => hnamed hx) rest
  | nil =>
    cases hxs : xs.filter (hasName n) with
    | nil =>
      refine Or.inl ⟨?_, ?_, ?_⟩
      · rw [meetAt, hfind, hcs, hxs]
        rfl
      · rw [List.filter_append, hcs, hxs]
        rfl
      · rw [filter_absorbAll, hcs, hxs]
        rfl
    | cons x xs' =>
      -- the first entry that is added finds nothing of its name and becomes the holder
      refine Or.inr ⟨x, xs', [], ?_, ?_, ?_⟩
      · rw [meetAt, hfind, hcs, hxs]
        rfl
      · rw [List.filter_append, hcs, hxs]
        rfl
      · rw [filter_absorbAll, hcs, hxs, absorbAll, absorb_of_new (by simp)]
        exact absorbAll_of_sameName (hnamed (by rw [hxs]; simp))
          (fun y hy => hnamed (by rw [hxs]; simp [hy])) []

section Meeting

variable {n : Bytes} {cs xs : List Tree} {holder : Tree} {later rest : List Tree}

/-- All that meet are entries of the two lists, of that name. -/
theorem Meeting.mem (hmeet : Meeting n cs xs holder later rest) {t : Tree}
    (ht : t ∈ holder :: (rest ++ later)) : t ∈ cs ++ xs ∧ t.name = n := by
  have := List.mem_filter.mp (hmeet.before.mem_iff.mpr ht)
  exact ⟨this.1, hasName_iff.mp this.2⟩

/-- What is merged into the holder is no File. -/
theorem Meeting.later_mem (hmeet : Meeting n cs xs holder later rest) {t : Tree}
    (ht : t ∈ mergeable later) : t ∈ cs ++ xs ∧ t.name = n ∧ t.type ≠ FileType.file := by
  obtain ⟨hlater, htype⟩ := List.mem_filter.mp ht
  obtain ⟨hmem, hname⟩ := hmeet.mem (t := t) (by simp [hlater])
  exact ⟨hmem, hname, by simpa using htype⟩

/-- What is merged below the holder are children of entries of the level above. -/
theorem Meeting.below (hmeet : Meeting n cs xs holder later rest) {t : Tree}
    (ht : t ∈ holder.contents ++ (mergeable later).flatMap contents) :
    ∃ u ∈ cs ++ xs, t ∈ u.contents := by
  rcases List.mem_append.mp ht with ht | ht
  · exact ⟨holder, (hmeet.mem (by simp)).1, ht⟩
  · obtain ⟨u, hu, ht⟩ := List.mem_flatMap.mp ht
    exact ⟨u, (hmeet.later_mem hu).1, ht⟩

/-- What is merged below the holder is well typed, too. -/
theorem Meeting.wellTyped (hmeet : Meeting n cs xs holder later rest)
    (htypes : WellTyped (cs ++ xs)) :
    WellTyped (holder.contents ++ (mergeable later).flatMap contents) := by
  intro x hx
  obtain ⟨t, ht, hx⟩ := mem_nodesAll.mp hx
  obtain ⟨u, hu, htu⟩ := hmeet.below ht
  exact htypes x (mem_nodesAll.mpr ⟨u, hu, mem_nodes_of_contents htu hx⟩)

end Meeting

/-- What is not a File is a Directory. -/
theorem WellTyped.directory {ts : List Tree} (htypes : WellTyped ts) {t : Tree} (ht : t ∈ ts)
    (hfile : t.type ≠ FileType.file) : t.type = FileType.directory :=
  (htypes t (mem_nodesAll.mpr ⟨t, ht, self_mem_nodes t⟩)).resolve_right hfile

/-! ## Which Files stay visible -/

/-- Along the path nothing visible is merged into a File: at each name, if the entry that is
there first is a File then the Directories that come later show no File; if it is a Directory
the same holds one level down, where their children meet. -/
def Unshadowed : List Bytes → List Tree → List Tree → Prop
  | [], _, _ => True
  | n :: p, cs, xs =>
    match meetAt n cs xs with
    | [] => True
    | holder :: later =>
      if holder.type = FileType.file then ∀ x ∈ mergeable later, x.visibleFiles = 0
      else Unshadowed p holder.contents ((mergeable later).flatMap contents)

/-- Directories of one name show what all of them hold, behind that name. -/
theorem filesOf_of_directories {n : Bytes} {ts : List Tree} (hname : ∀ t ∈ ts, t.name = n)
    (hdir : ∀ t ∈ ts, t.type = FileType.directory) :
    filesOf ts = (filesOf (ts.flatMap contents)).map fun e => (n :: e.1, e.2) := by
  induction ts with
  | nil => rfl
  | cons t ts ih =>
    rw [filesOf, List.flatMap_cons, filesOf_append, Multiset.map_add,
      visibleFiles_of_directory (hdir t (by simp)), hname t (by simp),
      ih (fun u hu => hname u (by simp [hu])) fun u hu => hdir u (by simp [hu])]

/-- A name in front of the paths mixes none up. -/
theorem consPath_injective (n : Bytes) :
    Function.Injective fun e : List Bytes × NetworkNode => (n :: e.1, e.2) := by
  rintro ⟨p, nn⟩ ⟨q, mm⟩ h
  simpa using h

/-- At one name the view is kept exactly when the holder keeps the view of the later entries
that are merged into it. -/
theorem Meeting.filesOf_iff {n : Bytes} {cs xs : List Tree} {holder : Tree}
    {later rest : List Tree} (hmeet : Meeting n cs xs holder later rest)
    (htypes : WellTyped (cs ++ xs)) :
    filesOf ((absorbAll xs cs).filter (hasName n)) = filesOf ((cs ++ xs).filter (hasName n)) ↔
      if holder.type = FileType.file then ∀ x ∈ mergeable later, x.visibleFiles = 0
      else filesOf (absorbAll ((mergeable later).flatMap contents) holder.contents) =
        filesOf (holder.contents ++ (mergeable later).flatMap contents) := by
  have hlater : filesOf later = filesOf (mergeable later) + filesOf (filesAmong later) := by
    rw [← filesOf_append]
    exact filesOf_perm (mergeable_append_filesAmong_perm later).symm
  rw [hmeet.after, filesOf_perm hmeet.before, filesOf, filesOf, filesOf_append, filesOf_append,
    hlater]
  by_cases hfile : holder.type = FileType.file
  · -- a File shows itself and nothing below, before and after
    have hsame : (holder.setContents (absorbAll ((mergeable later).flatMap contents)
        holder.contents)).visibleFiles = holder.visibleFiles := by
      rw [visibleFiles_of_file (by simpa using hfile), visibleFiles_of_file hfile]
      cases holder
      rfl
    rw [if_pos hfile, hsame, add_right_inj, add_right_inj, right_eq_add, filesOf_eq_zero]
  · -- the rest and the later Files cancel, and what remains lies below the name
    have hdir := htypes.directory (hmeet.mem (t := holder) (by simp)).1 hfile
    have hname := (hmeet.mem (t := holder) (by simp)).2
    rw [if_neg hfile, visibleFiles_of_directory (by simpa using hdir),
      visibleFiles_of_directory hdir, name_setContents, contents_setContents, hname,
      filesOf_of_directories (n := n) (fun t ht => (hmeet.later_mem ht).2.1)
        (fun t ht => htypes.directory (hmeet.later_mem ht).1 (hmeet.later_mem ht).2.2),
      add_left_comm, add_left_comm (Multiset.map _ (filesOf holder.contents)), add_right_inj,
      ← add_assoc, add_left_inj, ← Multiset.map_add, ← filesOf_append]
    exact (Multiset.map_injective (consPath_injective n)).eq_iff

/-- The merge shows the Files of both sides exactly when it shadows none. By induction on a
bound for the size of the trees: at each name the children of the entries that meet there are
merged the same way. -/
theorem filesOf_absorbAll_iff_of_le (k : Nat) : ∀ cs xs : List Tree,
    (∀ t ∈ cs ++ xs, t.nodes.length ≤ k) → WellTyped (cs ++ xs) →
    (filesOf (absorbAll xs cs) = filesOf (cs ++ xs) ↔ ∀ p, Unshadowed p cs xs) := by
  induction k with
  | zero =>
    intro cs xs hsize _
    have hempty : cs ++ xs = [] := List.eq_nil_iff_forall_not_mem.mpr fun t ht => by
      have := hsize t ht
      rw [nodes_eq, List.length_cons] at this
      omega
    obtain ⟨rfl, rfl⟩ := List.append_eq_nil_iff.mp hempty
    refine ⟨fun _ p => ?_, fun _ => rfl⟩
    cases p <;> simp [Unshadowed, meetAt]
  | succ k ih =>
    intro cs xs hsize htypes
    have hpaths : (∀ p, Unshadowed p cs xs) ↔ ∀ n p, Unshadowed (n :: p) cs xs := by
      refine ⟨fun h n p => h (n :: p), fun h p => ?_⟩
      cases p with
      | nil => trivial
      | cons n p => exact h n p
    -- name by name
    rw [filesOf_eq_iff, hpaths]
    apply forall_congr'
    intro n
    rcases meeting_cases n cs xs with ⟨hmeet, hbefore, hafter⟩ | ⟨holder, later, rest, hmeet⟩
    · -- nothing has the name
      simp [Unshadowed, hmeet, hbefore, hafter]
    · have hbelow := ih holder.contents ((mergeable later).flatMap contents)
        (fun t ht => by
          obtain ⟨u, hu, htu⟩ := hmeet.below ht
          have := length_nodes_lt htu
          have := hsize u hu
          omega)
        (hmeet.wellTyped htypes)
      simp only [Unshadowed, hmeet.meet, hmeet.filesOf_iff htypes]
      by_cases hfile : holder.type = FileType.file
      · simp only [if_pos hfile, forall_const]
      · simp only [if_neg hfile, hbelow]

theorem filesOf_absorbAll_iff (cs xs : List Tree) (htypes : WellTyped (cs ++ xs)) :
    filesOf (absorbAll xs cs) = filesOf (cs ++ xs) ↔ ∀ p, Unshadowed p cs xs := by
  refine filesOf_absorbAll_iff_of_le (nodesAll (cs ++ xs)).length cs xs (fun t ht => ?_) htypes
  obtain ⟨pre, post, hsplit⟩ := List.append_of_mem ht
  rw [hsplit, nodesAll_append, nodesAll, List.length_append, List.length_append]
  omega

/-! ## Trees without a clash of types -/

/-- A longer path goes through a Directory of its first name. -/
theorem typeAt_cons_iff {ty : FileType} {n : Bytes} {p : List Bytes} (hp : p ≠ [])
    {ts : List Tree} : TypeAt ty (n :: p) ts ↔
      ∃ t ∈ ts, t.name = n ∧ t.type = FileType.directory ∧ TypeAt ty p t.contents := by
  cases p with
  | nil => exact absurd rfl hp
  | cons m p => rfl

/-- A path of two lists together is a path of one of them. -/
theorem typeAt_append {ty : FileType} {p : List Bytes} {ts us : List Tree} :
    TypeAt ty p (ts ++ us) ↔ TypeAt ty p ts ∨ TypeAt ty p us := by
  match p with
  | [] => simp [TypeAt]
  | [n] => simp only [TypeAt, List.mem_append, or_and_right, exists_or]
  | n :: m :: p => simp only [TypeAt, List.mem_append, or_and_right, exists_or]

/-- A path below several trees is one below one of them. -/
theorem typeAt_flatMap {ty : FileType} {p : List Bytes} {ts : List Tree} :
    TypeAt ty p (ts.flatMap contents) ↔ ∃ t ∈ ts, TypeAt ty p t.contents := by
  induction ts with
  | nil => cases p with
    | nil => simp [TypeAt]
    | cons n p => cases p <;> simp [TypeAt]
  | cons t ts ih => rw [List.flatMap_cons, typeAt_append, ih]; simp

/-- A path looks at its first name only. -/
theorem typeAt_filter {ty : FileType} {n : Bytes} {p : List Bytes} (ts : List Tree) :
    TypeAt ty (n :: p) (ts.filter (hasName n)) ↔ TypeAt ty (n :: p) ts := by
  cases p with
  | nil =>
    simp only [TypeAt, List.mem_filter, hasName_iff]
    exact exists_congr fun t => by tauto
  | cons m p =>
    simp only [TypeAt, List.mem_filter, hasName_iff]
    exact exists_congr fun t => by tauto

/-- The order does not matter for paths either. -/
theorem typeAt_perm {ty : FileType} {p : List Bytes} {ts us : List Tree} (h : ts.Perm us) :
    TypeAt ty p ts ↔ TypeAt ty p us := by
  match p with
  | [] => exact Iff.rfl
  | [n] => simp only [TypeAt, h.mem_iff]
  | n :: m :: p => simp only [TypeAt, h.mem_iff]

section Meeting

variable {n : Bytes} {cs xs : List Tree} {holder : Tree} {later rest : List Tree}

/-- A File that is there first meets no Directory. -/
theorem Meeting.mergeable_eq_nil (hmeet : Meeting n cs xs holder later rest)
    (htypes : WellTyped (cs ++ xs)) (hclash : NoClash (cs ++ xs))
    (hfile : holder.type = FileType.file) : mergeable later = [] := by
  refine List.eq_nil_iff_forall_not_mem.mpr fun t ht => hclash [n] ⟨?_, ?_⟩
  · obtain ⟨hmem, hname⟩ := hmeet.mem (t := holder) (by simp)
    exact ⟨holder, hmem, hname, hfile⟩
  · obtain ⟨hmem, hname, htype⟩ := hmeet.later_mem ht
    exact ⟨t, hmem, hname, htypes.directory hmem htype⟩

/-- A path below the entries that meet is a path of the level above, behind their name. -/
theorem Meeting.typeAt_below (hmeet : Meeting n cs xs holder later rest)
    (htypes : WellTyped (cs ++ xs)) (hdir : holder.type = FileType.directory) {ty : FileType}
    {p : List Bytes} (hp : TypeAt ty p (holder.contents ++ (mergeable later).flatMap contents)) :
    TypeAt ty (n :: p) (cs ++ xs) := by
  have hne : p ≠ [] := by
    rintro rfl
    exact hp
  rw [typeAt_cons_iff hne]
  -- below the holder, or below one that is merged into it
  rcases typeAt_append.mp hp with hp | hp
  · obtain ⟨hmem, hname⟩ := hmeet.mem (t := holder) (by simp)
    exact ⟨holder, hmem, hname, hdir, hp⟩
  · obtain ⟨t, ht, hp⟩ := typeAt_flatMap.mp hp
    obtain ⟨hmem, hname, htype⟩ := hmeet.later_mem ht
    exact ⟨t, hmem, hname, htypes.directory hmem htype, hp⟩

/-- Without a clash above there is none below. -/
theorem Meeting.noClash (hmeet : Meeting n cs xs holder later rest)
    (htypes : WellTyped (cs ++ xs)) (hclash : NoClash (cs ++ xs))
    (hdir : holder.type = FileType.directory) :
    NoClash (holder.contents ++ (mergeable later).flatMap contents) := fun p hboth =>
  hclash (n :: p) ⟨hmeet.typeAt_below htypes hdir hboth.1, hmeet.typeAt_below htypes hdir hboth.2⟩

end Meeting

/-- Without a clash of types nothing is shadowed: a File at a name meets no folder there. -/
theorem NoClash.unshadowed (p : List Bytes) (cs xs : List Tree) (htypes : WellTyped (cs ++ xs))
    (hclash : NoClash (cs ++ xs)) : Unshadowed p cs xs := by
  induction p generalizing cs xs with
  | nil => trivial
  | cons n p ih =>
    rcases meeting_cases n cs xs with ⟨hmeet, _, _⟩ | ⟨holder, later, rest, hmeet⟩
    · simp [Unshadowed, hmeet]
    · simp only [Unshadowed, hmeet.meet]
      by_cases hfile : holder.type = FileType.file
      · rw [if_pos hfile, hmeet.mergeable_eq_nil htypes hclash hfile]
        simp
      · rw [if_neg hfile]
        have hdir := htypes.directory (hmeet.mem (t := holder) (by simp)).1 hfile
        -- below a Directory, there is no clash either
        exact ih _ _ (hmeet.wellTyped htypes) (hmeet.noClash htypes hclash hdir)

/-- Without a clash of types the Directory paths of the merge are those of both sides. -/
theorem typeAt_directory_absorbAll (p : List Bytes) (cs xs : List Tree)
    (htypes : WellTyped (cs ++ xs)) (hclash : NoClash (cs ++ xs)) :
    TypeAt FileType.directory p (absorbAll xs cs) ↔ TypeAt FileType.directory p (cs ++ xs) := by
  induction p generalizing cs xs with
  | nil => exact Iff.rfl
  | cons n p ih =>
    rw [← typeAt_filter (absorbAll xs cs), ← typeAt_filter (cs ++ xs)]
    rcases meeting_cases n cs xs with ⟨_, hbefore, hafter⟩ | ⟨holder, later, rest, hmeet⟩
    · rw [hbefore, hafter]
    rw [hmeet.after, typeAt_perm hmeet.before]
    by_cases hfile : holder.type = FileType.file
    · -- nothing is merged into the File, so the entries are the same
      have hnone := hmeet.mergeable_eq_nil htypes hclash hfile
      have hlater := mergeable_append_filesAmong_perm later
      rw [hnone, List.nil_append] at hlater
      rw [hnone, List.flatMap_nil, absorbAll, setContents_contents]
      exact typeAt_perm (List.Perm.cons _ (List.Perm.append_left _ hlater))
    · obtain ⟨hmem, hname⟩ := hmeet.mem (t := holder) (by simp)
      have hdir := htypes.directory hmem hfile
      have hlater := mergeable_append_filesAmong_perm later
      rw [typeAt_perm (List.Perm.cons _ (List.Perm.append_left rest hlater.symm))]
      by_cases hp : p = []
      · -- the holder itself is the Directory at this path, before and after
        subst hp
        simp only [TypeAt]
        exact iff_of_true ⟨_, List.mem_cons_self, by simpa using hname, by simpa using hdir⟩
          ⟨_, List.mem_cons_self, hname, hdir⟩
      · have hbelow := ih _ _ (hmeet.wellTyped htypes) (hmeet.noClash htypes hclash hdir)
        have hmerged : ∀ t ∈ mergeable later, t.name = n ∧ t.type = FileType.directory :=
          fun t ht => ⟨(hmeet.later_mem ht).2.1,
            htypes.directory (hmeet.later_mem ht).1 (hmeet.later_mem ht).2.2⟩
        rw [typeAt_append, typeAt_flatMap] at hbelow
        -- a longer path goes on below the holder, which has taken up the others
        rw [typeAt_cons_iff hp, typeAt_cons_iff hp]
        simp only [List.mem_cons, List.mem_append, or_and_right, exists_or, exists_eq_left,
          name_setContents, type_setContents, contents_setContents, hname, hdir, hbelow,
          true_and]
        have hmerge : (∃ t ∈ mergeable later, t.name = n ∧ t.type = FileType.directory ∧
            TypeAt FileType.directory p t.contents) ↔
            ∃ t ∈ mergeable later, TypeAt FileType.directory p t.contents :=
          exists_congr fun t => and_congr_right fun ht => by simp [hmerged t ht]
        rw [hmerge, or_assoc]
        exact or_congr_right or_left_comm

end Tree

end Guthi
