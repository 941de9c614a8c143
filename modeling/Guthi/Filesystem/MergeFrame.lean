import Guthi.Filesystem.MergeTree

/-!
# Guthi — what a merge writes to

`MergeDiff` links the announced tree into the root, or parts of it, and never copies: "file1 is
modified to incorporate changes from file2". So a later merge appends to the directories of trees
that were announced before.

* `gains`, `gainsAtRoot` — the directories that get a new entry, as a function on values;
* `mergeEntry_grows`, `addDirectory_grows` — the heap changes there and nowhere else;
* `announced_kept_iff` — which runs leave every announced tree as it was.
-/

namespace Guthi

namespace Tree

mutual

/-- The directories that get an entry when the entry `x` is merged into the directory `c`. -/
def gains : Tree → Tree → List Nat
  | .node _ ty _ nm xs, c =>
    match c.contents.find? (hasName nm) with
    | none => [c.addr]
    | some d => if ty = FileType.file then [c.addr] else gainsAll xs d

/-- The same for a whole list of entries, in order. -/
def gainsAll : List Tree → Tree → List Nat
  | [], _ => []
  | x :: xs, c => gains x c ++ gainsAll xs (c.setContents (absorb x c.contents))

end

/-- The directories that get an entry when `x` is added to the root `r`. -/
def gainsAtRoot (x r : Tree) : List Nat :=
  match r.contents.find? (hasName x.name) with
  | none => [r.addr]
  | some d => gainsAll x.contents d

/-- Where an entry is appended: to the directory itself, if its name is new there. -/
theorem gains_of_new {x c : Tree} (hnew : c.contents.find? (hasName x.name) = none) :
    gains x c = [c.addr] := by
  cases x
  unfold name at hnew
  simp only [gains, hnew]

/-- A File is always appended to the directory itself. -/
theorem gains_of_file {x c : Tree} (hfile : x.type = FileType.file) : gains x c = [c.addr] := by
  cases x
  unfold type at hfile
  rw [gains]
  cases c.contents.find? (hasName _) with
  | none => rfl
  | some d => exact if_pos hfile

/-- Otherwise its entries are appended further down. -/
theorem gains_of_match {x c d : Tree} (hd : c.contents.find? (hasName x.name) = some d)
    (hdir : x.type ≠ FileType.file) : gains x c = gainsAll x.contents d := by
  cases x
  unfold name at hd
  unfold type at hdir
  rw [gains, hd]
  exact if_neg hdir

/-! ## Objects that grow -/

/-- The objects at `gained` have more entries than before, and no other object has changed. -/
structure GrowsAt (h : Heap) (gained : List Nat) (h' : Heap) : Prop where
  same : ∀ a, a ∉ gained → h'[a]? = h[a]?
  longer : ∀ a ∈ gained, ∃ c c', h[a]? = some c ∧ h'[a]? = some c' ∧
    c.contents.length < c'.contents.length

theorem GrowsAt.refl (h : Heap) : GrowsAt h [] h :=
  ⟨fun _ _ => rfl, fun _ ha => (nomatch ha)⟩

/-- What has grown in either step has grown in both together, since nothing shrinks. -/
theorem GrowsAt.trans {h h₁ h₂ : Heap} {gained₁ gained₂ : List Nat} (hfirst : GrowsAt h gained₁ h₁)
    (hsecond : GrowsAt h₁ gained₂ h₂) : GrowsAt h (gained₁ ++ gained₂) h₂ := by
  refine ⟨fun a ha => ?_, fun a ha => ?_⟩
  · rw [List.mem_append, not_or] at ha
    rw [hsecond.same a ha.2, hfirst.same a ha.1]
  · by_cases h₁mem : a ∈ gained₁
    · obtain ⟨c, c₁, hc, hc₁, hlt₁⟩ := hfirst.longer a h₁mem
      by_cases h₂mem : a ∈ gained₂
      · -- it has grown twice
        obtain ⟨c₁', c₂, hc₁', hc₂, hlt₂⟩ := hsecond.longer a h₂mem
        cases hc₁.symm.trans hc₁'
        exact ⟨c, c₂, hc, hc₂, hlt₁.trans hlt₂⟩
      · exact ⟨c, c₁, hc, by rw [hsecond.same a h₂mem, hc₁], hlt₁⟩
    · -- it has grown in the second step alone
      have h₂mem : a ∈ gained₂ := (List.mem_append.mp ha).resolve_left h₁mem
      obtain ⟨c, c₂, hc, hc₂, hlt⟩ := hsecond.longer a h₂mem
      exact ⟨c, c₂, by rw [← hfirst.same a h₁mem, hc], hc₂, hlt⟩

/-- A tree on the heap is still there exactly if none of its nodes has grown. -/
theorem GrowsAt.in_iff {h h' : Heap} {gained : List Nat} {t : Tree} (hgrows : GrowsAt h gained h')
    (ht : t.In h) : t.In h' ↔ ∀ a ∈ gained, a ∉ t.addrs := by
  constructor
  · -- a node that has grown has another number of children
    intro ht' a ha hmem
    obtain ⟨x, hx, rfl⟩ := List.mem_map.mp hmem
    obtain ⟨c, c', hc, hc', hlt⟩ := hgrows.longer x.addr ha
    cases (ht x hx).symm.trans hc
    cases (ht' x hx).symm.trans hc'
    exact Nat.lt_irrefl _ hlt
  · intro hapart
    exact ht.congr fun a ha => hgrows.same a fun hmem => hapart a hmem ha

/-- `push_back` makes one object longer. -/
theorem pushBack_grows {walked : List Nat} {h h' : Heap} {t : Tree} {x : Option Addr}
    (ht : t.In h) (hok : Heap.pushBack walked h (some t.addr) x = .ok h') :
    GrowsAt h [t.addr] h' := by
  -- appending to a vector that is walked over is a fault
  have hwalked : t.addr ∉ walked := by
    intro hmem
    simp only [Heap.pushBack, ht.deref, ok_bind, if_pos hmem] at hok
    cases hok
  simp only [Heap.pushBack, ht.deref, ok_bind, if_neg hwalked] at hok
  cases hok
  have hlt : t.addr < h.length := ht.lt_length (addr_mem_addrs t)
  refine ⟨fun a ha => List.getElem?_set_ne fun heq => ha (by simp [heq]), fun a ha => ?_⟩
  obtain rfl := List.mem_singleton.mp ha
  refine ⟨_, _, ht.root, List.getElem?_set_self hlt, ?_⟩
  simp

/-! ## The code writes there -/

/-- A loop body that, merging `x` into the directory at `root`, writes to the directories that
gain an entry. -/
def EntryGrows (step : Heap → Option Addr → Except MergeFault Heap) (walked : List Nat)
    (root : Nat) (x : Tree) : Prop :=
  ∀ (h : Heap) (t : Tree) (h' : Heap), t.addr = root → Mergeable h t [x] walked →
    step h (some x.addr) = .ok h' → GrowsAt h (gains x t) h'

/-- A loop whose rounds grow what they are said to grow what all of them are. The tree that the next
round is about is the one that `absorb` leaves. -/
theorem foldlM_grows {step : Heap → Option Addr → Except MergeFault Heap} {walked : List Nat}
    {xs : List Tree} {h h' : Heap} {t : Tree} (hone : ∀ x ∈ xs, EntryRefines step walked t.addr x)
    (hgrows : ∀ x ∈ xs, EntryGrows step walked t.addr x) (hm : Mergeable h t xs walked)
    (hok : (xs.map fun x => some x.addr).foldlM step h = .ok h') :
    GrowsAt h (gainsAll xs t) h' := by
  induction xs generalizing h t with
  | nil =>
    cases hok
    exact GrowsAt.refl h'
  | cons x xs ih =>
    obtain ⟨hx, hnodup, hwalked⟩ := hm.head
    obtain ⟨h₁, hstep, hmerge⟩ := hone x (by simp) h t rfl hm.target hx hnodup hwalked
    rw [List.map_cons, List.foldlM_cons, hstep, ok_bind] at hok
    have hfirst := hgrows x (by simp) h t h₁ rfl
      (mergeable_single.mpr ⟨hm.target, hx, hnodup, hwalked⟩) hstep
    -- the others, into the tree that this round leaves
    have hrest := ih (t := t.setContents (absorb x t.contents))
      (fun y hy => by simpa using hone y (by simp [hy]))
      (fun y hy => by simpa using hgrows y (by simp [hy])) (hm.rest frugal_absorb hmerge) hok
    exact hfirst.trans hrest

/-- Merging `x` into a child of `t`, given what its own entries do there. -/
theorem mergeSingleFileContent_grows {x c t : Tree} {pre post : List Tree} {fuel : Nat}
    {walked : List Nat} {h h' : Heap} (hgrows : ∀ y ∈ x.contents, ∀ fuel walked,
      y.nodes.length ≤ fuel → EntryGrows (Heap.mergeEntry (Heap.mergeSingleFileContent fuel walked)
        walked (some c.addr)) walked c.addr y)
    (hsplit : t.contents = pre ++ c :: post) (hfuel : x.nodes.length ≤ fuel)
    (hm : Mergeable h t [x] walked)
    (hok : Heap.mergeSingleFileContent fuel walked h (some c.addr) (some x.addr) = .ok h') :
    GrowsAt h (gainsAll x.contents c) h' := by
  obtain ⟨fuel, rfl⟩ : ∃ n, fuel = n + 1 := by
    rw [nodes_eq, List.length_cons] at hfuel
    exact ⟨fuel - 1, by omega⟩
  have hfuel' : ∀ y ∈ x.contents, y.nodes.length ≤ fuel := by
    intro y hy
    have := length_nodes_lt hy
    omega
  -- the child is merged into like a root
  have hc := hm.child hsplit
  simp only [Heap.mergeSingleFileContent, (hc.entries x (by simp)).deref, ok_bind] at hok
  exact foldlM_grows (fun y hy => mergeEntry_refines y c.addr fuel _ (hfuel' y hy))
    (fun y hy => hgrows y hy fuel _ (hfuel' y hy)) hc.descend hok

/-- `mergeEntry` writes to the directories that gain an entry. Induction on the entry, as for
`mergeEntry_refines`. -/
theorem mergeEntry_grows (x : Tree) : ∀ (root : Nat) (fuel : Nat) (walked : List Nat),
    x.nodes.length ≤ fuel → EntryGrows (Heap.mergeEntry
      (Heap.mergeSingleFileContent fuel walked) walked (some root)) walked root x := by
  induction x using induct with
  | step x ih =>
    rintro _ fuel walked hfuel h t h' rfl hm hok
    have ht := hm.target
    have hx := hm.entries x (by simp)
    have hfind := findSameName_eq hx t.contents fun c hc => ht.child hc
    simp only [Heap.mergeEntry, ht.deref, ok_bind, contents_toFileContent, hfind] at hok
    -- the cases of `gains`
    cases hfound : t.contents.find? (hasName x.name) with
    | none =>
      rw [hfound] at hok
      rw [gains_of_new hfound]
      exact pushBack_grows ht hok
    | some c =>
      simp only [hfound, Option.map_some, hx.deref, ok_bind] at hok
      -- a File is appended whatever has its name
      by_cases hfile : x.type = FileType.file
      · rw [type_toFileContent, if_pos hfile] at hok
        rw [gains_of_file hfile]
        exact pushBack_grows ht hok
      · rw [type_toFileContent, if_neg hfile] at hok
        obtain ⟨_, pre, post, hsplit, _⟩ := find?_split hfound
        rw [gains_of_match hfound hfile]
        exact mergeSingleFileContent_grows (fun y hy => ih y hy c.addr) hsplit hfuel hm hok

/-- The call on the root, which does not look at the type. -/
theorem addDirectory_grows {x t : Tree} {h h' : Heap} (hm : Mergeable h t [x] [])
    (hok : Heap.addDirectory t.addr h (some x.addr) = .ok h') :
    GrowsAt h (gainsAtRoot x t) h' := by
  have ht := hm.target
  have hx := hm.entries x (by simp)
  have hfuel : x.nodes.length ≤ h.length + 1 :=
    Nat.le_succ_of_le (hx.length_nodes_le (List.nodup_append.mp hm.head.2.1).2.1)
  have hfind := findSameName_eq hx t.contents fun c hc => ht.child hc
  simp only [Heap.addDirectory, ht.deref, ok_bind, contents_toFileContent, hfind] at hok
  cases hfound : t.contents.find? (hasName x.name) with
  | none =>
    rw [hfound] at hok
    simp only [gainsAtRoot, hfound]
    exact pushBack_grows ht hok
  | some c =>
    rw [hfound] at hok
    obtain ⟨_, pre, post, hsplit, _⟩ := find?_split hfound
    simp only [gainsAtRoot, hfound]
    exact mergeSingleFileContent_grows (fun y _ => mergeEntry_grows y c.addr) hsplit hfuel hm hok

/-! ## Runs -/

/-- What stands at the root after the trees `done` were merged into `root`. -/
def mergedInto (root : Tree) (done : List Tree) : Tree :=
  root.setContents (done.foldl (fun cs t => adopt t cs) root.contents)

/-- The calls go one after the other. -/
theorem mergedInto_cons (root t : Tree) (done : List Tree) :
    mergedInto root (t :: done) = mergedInto (root.setContents (adopt t root.contents)) done := by
  simp [mergedInto]

/-- After the trees in front the loop can go on with those behind. -/
theorem addDirectories_reach {h : Heap} {root : Tree} {done todo : List Tree}
    (hm : Mergeable h root (done ++ todo) []) :
    ∃ h', (done.map fun t => some t.addr).foldlM (Heap.addDirectory root.addr) h = .ok h' ∧
      Mergeable h' (mergedInto root done) todo [] := by
  induction done generalizing h root with
  | nil =>
    refine ⟨h, rfl, ?_⟩
    simpa [mergedInto] using hm
  | cons t done ih =>
    obtain ⟨ht, hnodup, hwalked⟩ := hm.head
    -- the first tree, and then the others
    obtain ⟨h₁, hstep, hmerge⟩ := addDirectory_adopts t root.addr h root rfl hm.target ht hnodup
      hwalked
    obtain ⟨h', hloop, hm'⟩ := ih (hm.rest frugal_adopt hmerge)
    rw [addr_setContents] at hloop
    refine ⟨h', ?_, ?_⟩
    · rw [List.map_cons, List.foldlM_cons, hstep, ok_bind, hloop]
    · rw [mergedInto_cons]
      exact hm'

/-- `MergeDiff` for each of the trees, in order. -/
def mergeDiffs (root : Tree) (h : Heap) (ts : List Tree) : Except MergeFault Heap :=
  Heap.runAddCalls root.addr h (ts.map fun t => .mergeDiff (some t.addr))

/-- A run of `MergeDiff` is one loop. -/
theorem mergeDiffs_eq (root : Tree) (h : Heap) (ts : List Tree) :
    mergeDiffs root h ts =
      (ts.map fun t => some t.addr).foldlM (Heap.addDirectory root.addr) h := by
  rw [mergeDiffs, Heap.runAddCalls_eq, List.flatMap_map, List.map_eq_flatMap]
  rfl

/-- The next call succeeds, and writes to the directories that gain an entry. -/
theorem mergeDiffs_next {h : Heap} {root : Tree} {ts : List Tree} (hm : Mergeable h root ts [])
    {n : Nat} (hn : n < ts.length) :
    ∃ h₁ h₂, mergeDiffs root h (ts.take n) = .ok h₁ ∧ mergeDiffs root h (ts.take (n + 1)) = .ok h₂ ∧
      ts[n].In h₁ ∧ GrowsAt h₁ (gainsAtRoot ts[n] (mergedInto root (ts.take n))) h₂ := by
  have hsplit : ts.take n ++ ts[n] :: ts.drop (n + 1) = ts := by
    rw [← List.drop_eq_getElem_cons hn, List.take_append_drop]
  have hsplit' : Mergeable h root (ts.take n ++ ts[n] :: ts.drop (n + 1)) [] := by rwa [hsplit]
  rw [List.take_succ_eq_append_getElem hn]
  generalize ts.take n = done, ts[n] = t, ts.drop (n + 1) = todo at hsplit' ⊢
  -- the calls before, then this one
  obtain ⟨h₁, hdone, hm₁⟩ := addDirectories_reach hsplit'
  obtain ⟨ht, hnodup, hwalked⟩ := hm₁.head
  have hsingle := mergeable_single.mpr ⟨hm₁.target, ht, hnodup, hwalked⟩
  obtain ⟨h₂, hstep, _⟩ := addDirectory_adopts t root.addr h₁ (mergedInto root done)
    (addr_setContents _ _) hm₁.target ht hnodup hwalked
  refine ⟨h₁, h₂, ?_, ?_, ht, addDirectory_grows hsingle ?_⟩
  · rw [mergeDiffs_eq, hdone]
  · rw [mergeDiffs_eq, List.map_append, List.foldlM_append, hdone, ok_bind]
    simp only [List.map_cons, List.map_nil, List.foldlM_cons, List.foldlM_nil, hstep, ok_bind]
    rfl
  · rw [← hstep]
    exact congrArg (Heap.addDirectory · h₁ (some t.addr)) (addr_setContents _ _)

/-- What holds of one more announcement. -/
theorem forall_mem_take_succ {P : Tree → Prop} {ts : List Tree} {n : Nat} (hn : n < ts.length) :
    (∀ t ∈ ts.take (n + 1), P t) ↔ (∀ t ∈ ts.take n, P t) ∧ P ts[n] := by
  rw [List.take_succ_eq_append_getElem hn]
  simp only [List.mem_append, List.mem_singleton, or_imp, forall_and, forall_eq]

/-- After each call every tree that was announced so far is still on the heap as it was. -/
def AnnouncedKept (h : Heap) (root : Tree) (ts : List Tree) : Prop :=
  ∀ n, ∃ h', mergeDiffs root h (ts.take n) = .ok h' ∧ ∀ t ∈ ts.take n, t.In h'

/-- No call appends to a directory of a tree that was announced before it or with it. -/
def AppendsApart (root : Tree) (ts : List Tree) : Prop :=
  ∀ n, (hn : n < ts.length) → ∀ a ∈ gainsAtRoot ts[n] (mergedInto root (ts.take n)),
    a ∉ addrsAll (ts.take (n + 1))

/-- **When announced trees stay as they were.** For trees that share no node with each other nor
with the root, a sequence of `MergeDiff` calls leaves each of them, from its call on, the tree it
was, exactly if no call appends to a directory of a tree announced so far. -/
theorem announced_kept_iff {h : Heap} {root : Tree} {ts : List Tree} (hroot : root.In h)
    (hts : ∀ t ∈ ts, t.In h) (hdisjoint : (root.addrs ++ addrsAll ts).Nodup) :
    AnnouncedKept h root ts ↔ AppendsApart root ts := by
  have hm : Mergeable h root ts [] := ⟨hroot, hts, hdisjoint, by simp⟩
  constructor
  · -- a tree that gains an entry is not what it was
    intro hkept n hn a ha hmem
    obtain ⟨h₁, h₂, hrun₁, hrun₂, hnew, hgrows⟩ := mergeDiffs_next hm hn
    obtain ⟨h₁', hrun₁', hin₁⟩ := hkept n
    obtain ⟨h₂', hrun₂', hin₂⟩ := hkept (n + 1)
    cases hrun₁.symm.trans hrun₁'
    cases hrun₂.symm.trans hrun₂'
    obtain ⟨t, ht, hat⟩ := mem_addrsAll.mp hmem
    have ht₁ : t.In h₁ := (forall_mem_take_succ hn).mpr ⟨hin₁, hnew⟩ t ht
    exact (hgrows.in_iff ht₁).mp (hin₂ t ht) a ha hat
  · -- none gains one, so each is still there after the next call
    intro happends n
    induction n with
    | zero => exact ⟨h, rfl, fun t ht => (nomatch ht)⟩
    | succ n ih =>
      by_cases hn : n < ts.length
      · obtain ⟨h₁, h₂, hrun₁, hrun₂, hnew, hgrows⟩ := mergeDiffs_next hm hn
        obtain ⟨h₁', hrun₁', hin₁⟩ := ih
        cases hrun₁.symm.trans hrun₁'
        refine ⟨h₂, hrun₂, fun t ht => ?_⟩
        have ht₁ : t.In h₁ := (forall_mem_take_succ hn).mpr ⟨hin₁, hnew⟩ t ht
        refine (hgrows.in_iff ht₁).mpr fun a ha hat => ?_
        exact happends n hn a ha (mem_addrsAll.mpr ⟨t, ht, hat⟩)
      · -- there is no further call
        rw [List.take_of_length_le (by omega)] at ih ⊢
        exact ih

/-- An empty root. -/
def bareRoot : Tree := node 0 FileType.directory {} [] []

/-- A Directory `a` that holds one other. -/
def shareOf (addr : Nat) (name : Bytes) : Tree :=
  node addr FileType.directory {} (ascii "a") [node (addr + 1) FileType.directory {} name []]

/-- The objects of an empty root and of two announced trees, the second with `name` in it. -/
def twoShares (name : Bytes) : Heap :=
  (nodesAll [bareRoot, shareOf 1 (ascii "d"), shareOf 3 name]).map toFileContent

/-- The second tree brings nothing new. -/
theorem announced_kept_iff_example :
    AnnouncedKept (twoShares (ascii "d")) bareRoot [shareOf 1 (ascii "d"), shareOf 3 (ascii "d")] :=
  (announced_kept_iff (by unfold In; decide) (by unfold In; decide) (by decide)).mpr
    (by unfold AppendsApart; decide)

/-- The second tree brings a new Directory, which goes into the first one. -/
theorem mergeDiffs_alter_announced :
    bareRoot.In (twoShares (ascii "e")) ∧
    (∀ t ∈ [shareOf 1 (ascii "d"), shareOf 3 (ascii "e")], t.In (twoShares (ascii "e"))) ∧
    (bareRoot.addrs ++ addrsAll [shareOf 1 (ascii "d"), shareOf 3 (ascii "e")]).Nodup ∧
    ¬ AnnouncedKept (twoShares (ascii "e")) bareRoot
      [shareOf 1 (ascii "d"), shareOf 3 (ascii "e")] := by
  refine ⟨by unfold In; decide, by unfold In; decide, by decide, fun hkept => ?_⟩
  obtain ⟨h', hrun, hin⟩ := hkept 2
  cases hrun
  have hfirst := (hin _ List.mem_cons_self).root
  -- its list of children is longer than it was
  revert hfirst
  decide

end Tree

end Guthi
