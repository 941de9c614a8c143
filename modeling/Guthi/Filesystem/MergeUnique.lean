import Guthi.Filesystem.MergeFiles

/-!
# Guthi — sibling directories stay unique

`MergeDiff` on a root that was empty: the root never gets two entries of one name, and no node
below it two Directories of one name, if the trees that are merged have none. Files of one name
may stand beside each other, and beside a Directory of that name, so the first entry of a name
can be either.

* `Unique` — the invariant of a list of siblings and everything below it;
* `absorb_unique`, `adopt_unique` — merging one more tree keeps it;
* `mergeDiffs_keep_unique` — so does every sequence of calls, on the heap.
-/

namespace Guthi

namespace Heap

/-- The names of the Directories among the children of a node. -/
def directoryNames (h : Heap) (c : FileContent) : List Bytes :=
  c.children.filterMap fun a => (h[a]?.filter fun d => d.type = FileType.directory).map (·.name)

/-- The names of all its children. -/
def childNames (h : Heap) (c : FileContent) : List Bytes :=
  c.children.filterMap fun a => h[a]?.map (·.name)

/-- Every node below the root has at most one Directory child for each name, and the root at most
one child. -/
structure SiblingsUnique (h : Heap) (root : Addr) : Prop where
  below : ∀ a c, h.Reaches root a → h[a]? = some c → (h.directoryNames c).Nodup
  root : ∀ c, h[root]? = some c → (h.childNames c).Nodup

end Heap

namespace Tree

/-! ## The invariant -/

/-- The names of the Directories of a list. -/
def directoryNames (cs : List Tree) : List Bytes :=
  (cs.filter fun c => c.type = FileType.directory).map name

/-- No node of the tree has two Directory children of the same name. -/
def UniqueBelow (t : Tree) : Prop := ∀ x ∈ t.nodes, (directoryNames x.contents).Nodup

/-- Evaluated node by node. -/
instance (t : Tree) : Decidable t.UniqueBelow :=
  inferInstanceAs (Decidable (∀ x ∈ t.nodes, (directoryNames x.contents).Nodup))

/-- No two sibling Directories have one name, at this level or below. -/
structure Unique (cs : List Tree) : Prop where
  siblings : (directoryNames cs).Nodup
  below : ∀ c ∈ cs, c.UniqueBelow

/-- It is unique below a tree if it is among its children. -/
theorem uniqueBelow_iff {t : Tree} : t.UniqueBelow ↔ Unique t.contents := by
  unfold UniqueBelow
  rw [nodes_eq, List.forall_mem_cons]
  constructor
  · rintro ⟨hself, hbelow⟩
    exact ⟨hself, fun c hc x hx => hbelow x (mem_nodesAll.mpr ⟨c, hc, hx⟩)⟩
  · rintro ⟨hself, hbelow⟩
    refine ⟨hself, fun x hx => ?_⟩
    obtain ⟨c, hc, hx⟩ := mem_nodesAll.mp hx
    exact hbelow c hc x hx

/-- The names of Directories, one by one. -/
theorem mem_directoryNames {n : Bytes} {cs : List Tree} :
    n ∈ directoryNames cs ↔ ∃ c ∈ cs, c.type = FileType.directory ∧ c.name = n := by
  simp [directoryNames, and_assoc]

/-- Names of lists are the names of their parts. -/
theorem directoryNames_append (cs ds : List Tree) :
    directoryNames (cs ++ ds) = directoryNames cs ++ directoryNames ds := by
  rw [directoryNames, List.filter_append, List.map_append, directoryNames, directoryNames]

/-- An entry whose name no Directory among the siblings has can stand behind them. -/
theorem Unique.push {cs : List Tree} {x : Tree} (hcs : Unique cs) (hx : x.UniqueBelow)
    (hnew : x.type = FileType.directory → x.name ∉ directoryNames cs) : Unique (cs ++ [x]) := by
  refine ⟨?_, fun c hc => ?_⟩
  · rw [directoryNames_append]
    -- only a Directory brings a name
    by_cases hdir : x.type = FileType.directory
    · have hsingle : directoryNames [x] = [x.name] := by simp [directoryNames, hdir]
      rw [hsingle]
      exact List.nodup_append.mpr ⟨hcs.siblings, by simp, fun a ha b hb heq =>
        hnew hdir (List.mem_singleton.mp hb ▸ heq ▸ ha)⟩
    · have hnone : directoryNames [x] = [] := by simp [directoryNames, hdir]
      rw [hnone, List.append_nil]
      exact hcs.siblings
  · rcases List.mem_append.mp hc with hc | hc
    · exact hcs.below c hc
    · exact List.mem_singleton.mp hc ▸ hx

/-- A name that the search does not find is not that of a Directory. -/
theorem not_mem_directoryNames_of_new {cs : List Tree} {x : Tree}
    (hnew : cs.find? (hasName x.name) = none) : x.name ∉ directoryNames cs := by
  intro hmem
  obtain ⟨c, hc, _, hname⟩ := mem_directoryNames.mp hmem
  exact absurd (hasName_iff.mpr hname) (List.find?_eq_none.mp hnew c hc)

/-- Giving one entry other children leaves its siblings' names as they were. -/
theorem Unique.replace {pre post ys : List Tree} {c : Tree} (hcs : Unique (pre ++ c :: post))
    (hys : Unique ys) : Unique (pre ++ c.setContents ys :: post) := by
  refine ⟨?_, fun d hd => ?_⟩
  · -- the entry keeps its type and name
    have hnames : directoryNames (pre ++ c.setContents ys :: post) =
        directoryNames (pre ++ c :: post) := by
      simp only [directoryNames, List.filter_append, List.filter_cons, type_setContents]
      split <;> simp
    rw [hnames]
    exact hcs.siblings
  · rcases List.mem_append.mp hd with hd | hd
    · exact hcs.below d (by simp [hd])
    · rcases List.mem_cons.mp hd with rfl | hd
      · rw [uniqueBelow_iff, contents_setContents]
        exact hys
      · exact hcs.below d (by simp [hd])

/-! ## Merging keeps it -/

/-- If each entry can be added, all can. -/
theorem absorbAll_unique_of {xs : List Tree}
    (hone : ∀ x ∈ xs, ∀ cs, Unique cs → Unique (absorb x cs)) :
    ∀ cs, Unique cs → Unique (absorbAll xs cs) := by
  induction xs with
  | nil =>
    intro cs hcs
    rw [absorbAll]
    exact hcs
  | cons x xs ih =>
    intro cs hcs
    rw [absorbAll]
    exact ih (fun y hy => hone y (by simp [hy])) _ (hone x (by simp) cs hcs)

/-- Induction on the tree: below a match its children are merged one after the other. -/
theorem absorb_unique (x : Tree) : x.UniqueBelow → ∀ cs, Unique cs → Unique (absorb x cs) := by
  induction x using induct with
  | step x ih =>
    intro hx cs hcs
    rcases absorb_cases x cs with ⟨hnew, heq⟩ | ⟨hfile, heq⟩ | ⟨_, pre, c, post, rfl, _, _, heq⟩
    · rw [heq]
      exact hcs.push hx fun _ => not_mem_directoryNames_of_new hnew
    · rw [heq]
      refine hcs.push hx fun hdir => ?_
      -- a File is appended, and brings no name
      rw [hfile] at hdir
      exact absurd hdir (by decide)
    · rw [heq]
      have hbelow := (uniqueBelow_iff.mp hx).below
      exact hcs.replace (absorbAll_unique_of (fun y hy => ih y hy (hbelow y hy)) _
        (uniqueBelow_iff.mp (hcs.below c (by simp))))

/-- The children of the root: as the others, and no two of one name. -/
structure RootUnique (cs : List Tree) : Prop extends Unique cs where
  names : (cs.map name).Nodup

/-- What is added to the root has a new name, or goes below an entry of its name. -/
theorem adopt_unique {x : Tree} (hx : x.UniqueBelow) {cs : List Tree} (hcs : RootUnique cs) :
    RootUnique (adopt x cs) := by
  rcases adopt_cases x cs with ⟨hnew, heq⟩ | ⟨pre, c, post, rfl, heq⟩
  · rw [heq]
    refine ⟨hcs.toUnique.push hx fun _ => not_mem_directoryNames_of_new hnew, ?_⟩
    rw [List.map_append, List.map_singleton]
    refine List.nodup_append.mpr ⟨hcs.names, by simp, ?_⟩
    rintro n hn m hm rfl
    obtain ⟨c, hc, hname⟩ := List.mem_map.mp hn
    exact absurd (hasName_iff.mpr (hname.trans (List.mem_singleton.mp hm)))
      (List.find?_eq_none.mp hnew c hc)
  · rw [heq]
    have hbelow := (uniqueBelow_iff.mp hx).below
    refine ⟨hcs.toUnique.replace (absorbAll_unique_of (fun y hy => absorb_unique y (hbelow y hy)) _
      (uniqueBelow_iff.mp (hcs.below c (by simp)))), ?_⟩
    simpa using hcs.names

/-- The same for a sequence of calls. -/
theorem foldl_adopt_unique {ts : List Tree} (hts : ∀ t ∈ ts, t.UniqueBelow) {cs : List Tree}
    (hcs : RootUnique cs) : RootUnique (ts.foldl (fun cs x => adopt x cs) cs) := by
  induction ts generalizing cs with
  | nil => exact hcs
  | cons t ts ih =>
    exact ih (fun u hu => hts u (by simp [hu])) (adopt_unique (hts t (by simp)) hcs)

/-! ## On the heap -/

/-- What can be reached from a tree is a node of it. -/
theorem In.node_of_reaches {h : Heap} (t : Tree) : t.In h → ∀ a, h.Reaches t.addr a →
    ∃ x ∈ t.nodes, x.addr = a ∧ x.In h := by
  induction t using induct with
  | step t ih =>
    intro ht a ha
    rcases Relation.ReflTransGen.cases_head ha with rfl | ⟨b, ⟨obj, hobj, hmem⟩, hba⟩
    · exact ⟨t, self_mem_nodes t, rfl, ht⟩
    · -- the path goes on in one of the children
      cases ht.root.symm.trans hobj
      obtain ⟨c, hc, heq⟩ := List.mem_map.mp (FileContent.mem_children.mp hmem)
      cases heq
      obtain ⟨x, hx, haddr, hin⟩ := ih c hc (ht.child hc) a hba
      exact ⟨x, mem_nodes_of_contents hc hx, haddr, hin⟩

/-- The children of a node's object are the roots of its children. -/
theorem children_toFileContent (t : Tree) : t.toFileContent.children = t.contents.map addr := by
  simp [FileContent.children, List.filterMap_map]

/-- The names that the heap shows are those of the tree. -/
theorem In.directoryNames {h : Heap} {t : Tree} (ht : t.In h) :
    h.directoryNames t.toFileContent = Tree.directoryNames t.contents := by
  have hchildren : ∀ cs : List Tree, (∀ c ∈ cs, c.In h) →
      (cs.map addr).filterMap (fun a =>
        (h[a]?.filter fun d => d.type = FileType.directory).map (·.name)) =
      Tree.directoryNames cs := by
    intro cs hcs
    induction cs with
    | nil => rfl
    | cons c cs ih =>
      have hc := (hcs c (by simp)).root
      have hcs' := ih fun d hd => hcs d (by simp [hd])
      rw [List.map_cons]
      -- child by child, on both sides
      by_cases hdir : c.type = FileType.directory
      · rw [List.filterMap_cons_some (b := c.name) (by simp [hc, hdir]), hcs']
        simp [Tree.directoryNames, hdir]
      · rw [List.filterMap_cons_none (by simp [hc, hdir]), hcs']
        simp [Tree.directoryNames, hdir]
  rw [Heap.directoryNames, children_toFileContent]
  exact hchildren t.contents fun c hc => ht.child hc

/-- The same for the names of all children. -/
theorem In.childNames {h : Heap} {t : Tree} (ht : t.In h) :
    h.childNames t.toFileContent = t.contents.map name := by
  have hchildren : ∀ cs : List Tree, (∀ c ∈ cs, c.In h) →
      (cs.map addr).filterMap (fun a => h[a]?.map (·.name)) = cs.map name := by
    intro cs hcs
    induction cs with
    | nil => rfl
    | cons c cs ih =>
      have hc := (hcs c (by simp)).root
      rw [List.map_cons, List.filterMap_cons, hc, ih fun d hd => hcs d (by simp [hd])]
      rfl
  rw [Heap.childNames, children_toFileContent]
  exact hchildren t.contents fun c hc => ht.child hc

/-- From the tree to the heap: what is reached from the root are its nodes. -/
theorem RootUnique.siblingsUnique {h : Heap} {t : Tree} (hunique : RootUnique t.contents)
    (ht : t.In h) : h.SiblingsUnique t.addr := by
  constructor
  · intro a c ha hc
    obtain ⟨x, hx, rfl, hin⟩ := In.node_of_reaches t ht a ha
    cases hin.root.symm.trans hc
    rw [hin.directoryNames]
    exact uniqueBelow_iff.mpr hunique.toUnique x hx
  · intro c hc
    cases ht.root.symm.trans hc
    rw [ht.childNames]
    exact hunique.names

/-- **Merging keeps sibling Directories unique.** After each of a sequence of `MergeDiff` calls on
an empty root, for trees that share no node and have no two sibling Directories of one name, the
whole tree below the root has none either, and the entries of the root have distinct names. -/
theorem mergeDiffs_keep_unique {h : Heap} {root : Tree} {ts : List Tree} (hroot : root.In h)
    (hempty : root.contents = []) (hts : ∀ t ∈ ts, t.In h)
    (hdisjoint : (root.addrs ++ addrsAll ts).Nodup) (hunique : ∀ t ∈ ts, t.UniqueBelow)
    (done : List Tree) (hdone : done <+: ts) :
    ∃ h', Heap.runAddCalls root.addr h (done.map fun t => .mergeDiff (some t.addr)) = .ok h' ∧
      h'.SiblingsUnique root.addr := by
  obtain ⟨todo, rfl⟩ := hdone
  rw [addrsAll_append, ← List.append_assoc] at hdisjoint
  obtain ⟨h', hok, hmerge⟩ := foldlM_refinesBy frugal_adopt
    (fun t _ => addDirectory_adopts t root.addr) hroot (fun t ht => hts t (by simp [ht]))
    (List.nodup_append.mp hdisjoint).1 (by simp)
  refine ⟨h', ?_, ?_⟩
  · rw [Heap.runAddCalls_eq, List.flatMap_map, ← hok, List.map_eq_flatMap]
    rfl
  · -- an empty root has no names at all
    have hstart : RootUnique root.contents := by
      rw [hempty]
      exact ⟨⟨List.nodup_nil, fun c hc => (nomatch hc)⟩, List.nodup_nil⟩
    have hdone : ∀ t ∈ done, t.UniqueBelow := fun t ht => hunique t (by simp [ht])
    have hall := foldl_adopt_unique hdone hstart
    rw [← contents_setContents root (done.foldl _ _)] at hall
    have hfinal := hall.siblingsUnique hmerge.result
    rwa [addr_setContents] at hfinal

/-- A File and a Directory of one name, and an empty root. -/
theorem mergeDiffs_keep_unique_example :
    ∃ h', Heap.runAddCalls 5 exampleHeap [.mergeDiff (some 0), .mergeDiff (some 2)] = .ok h' ∧
      h'.SiblingsUnique 5 :=
  have hts : ∀ t ∈ [exampleFile, exampleDirectory], t.In exampleHeap :=
    exampleHeap_announced.onHeap
  mergeDiffs_keep_unique exampleRoot_empty.onHeap rfl hts (by decide) (by decide)
    [exampleFile, exampleDirectory] List.prefix_rfl

end Tree

end Guthi
