import Guthi.Filesystem.MergeView

/-!
# Guthi — no File is lost, and the order does not matter

Results about whole runs of the merge on the heap, for trees that share no node: one call of
`MergeTotalFileContent`, or any sequence of `MergeDiff` and `AddAsChildDirectory` calls that
adds the trees to an empty root.

* `merge_shows_files_iff` — the root shows the Files of all trees exactly when nothing visible
  is merged into a File;
* `mergeTotal_hides_file` — it can be: a Directory announced after a File of its name;
* `merge_order_irrelevant` — without such clashes the view is the same for every order.
-/

namespace Guthi

namespace Tree

/-- Directories that nodes announce: on the heap, without a shared node, all Files and
Directories. -/
structure Announced (h : Heap) (ts : List Tree) : Prop where
  onHeap : ∀ t ∈ ts, t.In h
  nodup : (addrsAll ts).Nodup
  wellTyped : WellTyped ts
  directory : ∀ t ∈ ts, t.type = FileType.directory

/-- An empty Directory beside the trees, such as `GFS_root` before the first merge. -/
structure EmptyRoot (h : Heap) (ts : List Tree) (root : Tree) : Prop where
  onHeap : root.In h
  directory : root.type = FileType.directory
  empty : root.contents = []
  separate : root.addr ∉ addrsAll ts

/-- What is announced are Directories. -/
theorem Announced.ne_file {h : Heap} {ts : List Tree} (hts : Announced h ts) :
    ∀ t ∈ ts, t.type ≠ FileType.file := by
  intro t ht
  rw [hts.directory t ht]
  decide

/-- The order of the announcements does not matter to what they are. -/
theorem Announced.perm {h : Heap} {ts us : List Tree} (hts : Announced h ts) (hperm : ts.Perm us) :
    Announced h us := by
  have hnodes : (nodesAll ts).Perm (nodesAll us) := by
    rw [nodesAll_eq_flatMap, nodesAll_eq_flatMap]
    exact hperm.flatMap_right nodes
  refine ⟨fun t ht => hts.onHeap t (hperm.mem_iff.mpr ht), (hnodes.map addr).nodup hts.nodup,
    fun x hx => hts.wellTyped x (hnodes.mem_iff.mpr hx),
    fun t ht => hts.directory t (hperm.mem_iff.mpr ht)⟩

theorem EmptyRoot.perm {h : Heap} {ts us : List Tree} {root : Tree} (hroot : EmptyRoot h ts root)
    (hperm : ts.Perm us) : EmptyRoot h us root := by
  refine ⟨hroot.onHeap, hroot.directory, hroot.empty, fun hmem => hroot.separate ?_⟩
  obtain ⟨t, ht, ha⟩ := mem_addrsAll.mp hmem
  exact mem_addrsAll.mpr ⟨t, hperm.mem_iff.mpr ht, ha⟩

/-- `MergeTotalFileContent` makes a root with what the trees merge to. -/
theorem Announced.mergeTotal {h : Heap} {ts : List Tree} (hts : Announced h ts) :
    ∃ (h' : Heap) (root : Tree),
      Heap.mergeTotalFileContent h (ts.map fun t => some t.addr) = .ok (h', root.addr) ∧
      root.In h' ∧ root.type = FileType.directory ∧ root.contents = absorbAll ts [] := by
  obtain ⟨h', hok, hroot⟩ := mergeTotalFileContent_refines hts.ne_file hts.onHeap hts.nodup
  exact ⟨h', .node h.length FileType.directory {} Heap.rootName (absorbAll ts []), hok, hroot,
    rfl, rfl⟩

/-- So do the calls on an empty `GFS_root`, however the trees are spread over them. -/
theorem Announced.runAddCalls {h : Heap} {ts : List Tree} {root : Tree}
    {calls : List Heap.AddCall} (hts : Announced h ts) (hroot : EmptyRoot h ts root)
    (hcalls : calls.flatMap Heap.AddCall.additions = ts.map fun t => some t.addr) :
    ∃ (h' : Heap) (root' : Tree), Heap.runAddCalls root.addr h calls = .ok h' ∧
      root'.addr = root.addr ∧ root'.In h' ∧ root'.type = FileType.directory ∧
      root'.contents = absorbAll ts [] := by
  -- the root is none of the nodes
  have hnodup : (root.addrs ++ addrsAll ts).Nodup := by
    rw [addrs_eq, hroot.empty, addrsAll_nil, List.singleton_append, List.nodup_cons]
    exact ⟨hroot.separate, hts.nodup⟩
  obtain ⟨h', hok, hin⟩ := runAddCalls_refines hcalls hts.ne_file hroot.onHeap hts.onHeap hnodup
  rw [hroot.empty] at hin
  exact ⟨h', _, hok, addr_setContents root _, hin, by simpa using hroot.directory, by simp⟩

/-! ## Which Files are shown -/

/-- A root with what the trees merge to shows their Files exactly if none is shadowed. -/
theorem filesBelow_of_merged {root : Tree} {ts : List Tree} (hdir : root.type = FileType.directory)
    (hcontents : root.contents = absorbAll ts []) (htypes : WellTyped ts) :
    root.filesBelow = filesOf ts ↔ ∀ p, Unshadowed p [] ts := by
  rw [filesBelow, if_pos hdir, hcontents]
  exact filesOf_absorbAll_iff [] ts htypes

/-- Both ways of merging succeed, and the root shows the Files of all trees, as often as the
trees do, exactly when nothing that shows a File is merged into a File. -/
theorem merge_shows_files_iff {h : Heap} {ts : List Tree} (hts : Announced h ts) :
    (∃ (h' : Heap) (root : Tree),
      Heap.mergeTotalFileContent h (ts.map fun t => some t.addr) = .ok (h', root.addr) ∧
      root.In h' ∧ (root.filesBelow = filesOf ts ↔ ∀ p, Unshadowed p [] ts)) ∧
    ∀ (root : Tree) (calls : List Heap.AddCall), EmptyRoot h ts root →
      (calls.flatMap Heap.AddCall.additions = ts.map fun t => some t.addr) →
      ∃ (h' : Heap) (root' : Tree), Heap.runAddCalls root.addr h calls = .ok h' ∧
        root'.addr = root.addr ∧ root'.In h' ∧
        (root'.filesBelow = filesOf ts ↔ ∀ p, Unshadowed p [] ts) := by
  refine ⟨?_, fun root calls hroot hcalls => ?_⟩
  · obtain ⟨h', root, hok, hin, hdir, hcontents⟩ := hts.mergeTotal
    exact ⟨h', root, hok, hin, filesBelow_of_merged hdir hcontents hts.wellTyped⟩
  · obtain ⟨h', root', hok, haddr, hin, hdir, hcontents⟩ := hts.runAddCalls hroot hcalls
    exact ⟨h', root', hok, haddr, hin, filesBelow_of_merged hdir hcontents hts.wellTyped⟩

/-- Node 10.0.0.1 announces the File `n/x`. -/
def exampleFile : Tree :=
  .node 0 FileType.directory {} (ascii "n")
    [.node 1 FileType.file ⟨⟨10, 0, 0, 1⟩⟩ (ascii "x") []]

/-- Node 10.0.0.2 announces the File `n/x/y`, so that `n/x` is a Directory there. -/
def exampleDirectory : Tree :=
  .node 2 FileType.directory {} (ascii "n")
    [.node 3 FileType.directory {} (ascii "x")
      [.node 4 FileType.file ⟨⟨10, 0, 0, 2⟩⟩ (ascii "y") []]]

/-- An empty root. -/
def exampleRoot : Tree := .node 5 FileType.directory {} [] []

/-- The heap that the examples are on, node by node. -/
def exampleHeap : Heap :=
  (exampleFile.nodes ++ exampleDirectory.nodes ++ exampleRoot.nodes).map toFileContent

/-- A File and a Directory of one name are announcements like any. -/
theorem exampleHeap_announced : Announced exampleHeap [exampleFile, exampleDirectory] := by
  refine ⟨?_, by decide, ?_, by simp [exampleFile, exampleDirectory, type]⟩
  · intro t ht x hx
    simp only [List.mem_cons, List.not_mem_nil, or_false] at ht
    rcases ht with rfl | rfl
    · simp only [exampleFile, nodes, nodesAll, List.append_nil, List.mem_cons, List.not_mem_nil,
        or_false] at hx
      rcases hx with rfl | rfl <;> rfl
    · simp only [exampleDirectory, nodes, nodesAll, List.append_nil, List.mem_cons,
        List.not_mem_nil, or_false] at hx
      rcases hx with rfl | rfl | rfl <;> rfl
  · intro x hx
    simp only [exampleFile, exampleDirectory, nodes, nodesAll, List.append_nil, List.mem_cons,
      List.not_mem_nil, or_false, List.cons_append, List.nil_append] at hx
    rcases hx with rfl | rfl | rfl | rfl | rfl <;> simp [type]

/-- The root of the examples is empty and apart. -/
theorem exampleRoot_empty :
    EmptyRoot exampleHeap [exampleFile, exampleDirectory] exampleRoot := by
  refine ⟨?_, rfl, rfl, by decide⟩
  intro x hx
  simp only [exampleRoot, nodes, nodesAll, List.mem_cons, List.not_mem_nil, or_false] at hx
  rw [hx]
  rfl

/-- Both ways of merging, at the two trees. -/
theorem merge_shows_files_iff_example :
    (∃ (h' : Heap) (root : Tree),
      Heap.mergeTotalFileContent exampleHeap [some 0, some 2] = .ok (h', root.addr) ∧
      root.In h' ∧ (root.filesBelow = filesOf [exampleFile, exampleDirectory] ↔
        ∀ p, Unshadowed p [] [exampleFile, exampleDirectory])) ∧
    ∃ (h' : Heap) (root' : Tree),
      Heap.runAddCalls 5 exampleHeap [.mergeDiff (some 0), .addAsChildDirectory [some 2]] =
        .ok h' ∧ root'.addr = 5 ∧ root'.In h' ∧
      (root'.filesBelow = filesOf [exampleFile, exampleDirectory] ↔
        ∀ p, Unshadowed p [] [exampleFile, exampleDirectory]) :=
  ⟨(merge_shows_files_iff exampleHeap_announced).1,
    (merge_shows_files_iff exampleHeap_announced).2 exampleRoot
      [.mergeDiff (some 0), .addAsChildDirectory [some 2]] exampleRoot_empty rfl⟩

/-- What the two trees merge to: the Directory `n/x` has become part of the File `n/x`. -/
def exampleMerged (addr : Nat) (name : Bytes) : Tree :=
  .node addr FileType.directory {} name
    [.node 0 FileType.directory {} (ascii "n")
      [.node 1 FileType.file ⟨⟨10, 0, 0, 1⟩⟩ (ascii "x")
        [.node 4 FileType.file ⟨⟨10, 0, 0, 2⟩⟩ (ascii "y") []]]]

/-- The File `n/x/y` of the second tree is gone from the view, whichever call merges. -/
theorem mergeTotal_hides_file :
    Announced exampleHeap [exampleFile, exampleDirectory] ∧
    EmptyRoot exampleHeap [exampleFile, exampleDirectory] exampleRoot ∧
    (∃ (h' : Heap) (root : Tree),
      Heap.mergeTotalFileContent exampleHeap [some 0, some 2] = .ok (h', root.addr) ∧
      root.In h' ∧ root.filesBelow ≠ filesOf [exampleFile, exampleDirectory]) ∧
    ∃ (h' : Heap) (root' : Tree),
      Heap.runAddCalls 5 exampleHeap [.mergeDiff (some 0), .mergeDiff (some 2)] = .ok h' ∧
      root'.addr = 5 ∧ root'.In h' ∧
      root'.filesBelow ≠ filesOf [exampleFile, exampleDirectory] := by
  refine ⟨exampleHeap_announced, exampleRoot_empty, ?_, ?_⟩
  · -- the result can be written down; `n/x` is a File with something below
    refine ⟨_, exampleMerged 6 Heap.rootName, rfl, ?_, by decide⟩
    intro x hx
    simp only [exampleMerged, nodes, nodesAll, List.mem_cons, List.not_mem_nil, or_false,
      List.cons_append, List.nil_append] at hx
    rcases hx with rfl | rfl | rfl | rfl <;> rfl
  · refine ⟨_, exampleMerged 5 [], rfl, rfl, ?_, by decide⟩
    intro x hx
    simp only [exampleMerged, nodes, nodesAll, List.mem_cons, List.not_mem_nil, or_false,
      List.cons_append, List.nil_append] at hx
    rcases hx with rfl | rfl | rfl | rfl <;> rfl

/-! ## The order of the announcements -/

/-- The view of a root that took in trees without a clash of types: everything they show. -/
theorem view_of_merged {root : Tree} {ts us : List Tree} (hdir : root.type = FileType.directory)
    (hcontents : root.contents = absorbAll us []) (hperm : ts.Perm us) (htypes : WellTyped us)
    (hclash : NoClash ts) : root.filesBelow = filesOf ts ∧
      root.directoriesBelow = {p | TypeAt FileType.directory p ts} := by
  have hclash' : NoClash us := fun p hboth =>
    hclash p ⟨(typeAt_perm hperm).mpr hboth.1, (typeAt_perm hperm).mpr hboth.2⟩
  constructor
  -- no clash, so nothing is shadowed
  · rw [filesOf_perm hperm]
    exact (filesBelow_of_merged hdir hcontents htypes).mpr fun p =>
      NoClash.unshadowed p [] us htypes hclash'
  · ext p
    have hpath := typeAt_directory_absorbAll p [] us htypes hclash'
    rw [List.nil_append, ← typeAt_perm hperm] at hpath
    simp only [directoriesBelow, Set.mem_ofPred_eq, hdir, hcontents, hpath, true_and]

/-- When no path is a File in one place and a Directory in another, every order of the trees and
both ways of merging lead to one and the same view. -/
theorem merge_order_irrelevant {h : Heap} {ts : List Tree} (hts : Announced h ts)
    (hclash : NoClash ts) :
    ∃ (files : Multiset (List Bytes × NetworkNode)) (directories : Set (List Bytes)),
      ∀ us : List Tree, ts.Perm us →
        (∃ (h' : Heap) (root : Tree),
          Heap.mergeTotalFileContent h (us.map fun t => some t.addr) = .ok (h', root.addr) ∧
          root.In h' ∧ root.filesBelow = files ∧ root.directoriesBelow = directories) ∧
        ∀ (root : Tree) (calls : List Heap.AddCall), EmptyRoot h ts root →
          (calls.flatMap Heap.AddCall.additions = us.map fun t => some t.addr) →
          ∃ (h' : Heap) (root' : Tree), Heap.runAddCalls root.addr h calls = .ok h' ∧
            root'.addr = root.addr ∧ root'.In h' ∧ root'.filesBelow = files ∧
            root'.directoriesBelow = directories := by
  refine ⟨filesOf ts, {p | TypeAt FileType.directory p ts}, fun us hperm => ?_⟩
  have hus := hts.perm hperm
  refine ⟨?_, fun root calls hroot hcalls => ?_⟩
  · obtain ⟨h', root, hok, hin, hdir, hcontents⟩ := hus.mergeTotal
    exact ⟨h', root, hok, hin, view_of_merged hdir hcontents hperm hus.wellTyped hclash⟩
  · obtain ⟨h', root', hok, haddr, hin, hdir, hcontents⟩ :=
      hus.runAddCalls (hroot.perm hperm) hcalls
    exact ⟨h', root', hok, haddr, hin, view_of_merged hdir hcontents hperm hus.wellTyped hclash⟩

/-- Two trees in which `n` is a Directory with one File each. -/
def exampleTwoDirectories : List Tree :=
  [.node 0 FileType.directory {} (ascii "n")
    [.node 1 FileType.file ⟨⟨10, 0, 0, 1⟩⟩ (ascii "x") []],
   .node 2 FileType.directory {} (ascii "n")
    [.node 3 FileType.file ⟨⟨10, 0, 0, 2⟩⟩ (ascii "x") []]]

/-- Two Directories that have entries of the same names. -/
theorem exampleTwoDirectories_announced :
    Announced ((nodesAll exampleTwoDirectories).map toFileContent) exampleTwoDirectories := by
  refine ⟨?_, by decide, ?_, by simp [exampleTwoDirectories, type]⟩
  · intro t ht x hx
    have hmem : x ∈ nodesAll exampleTwoDirectories := mem_nodesAll.mpr ⟨t, ht, hx⟩
    simp only [exampleTwoDirectories, nodes, nodesAll, List.append_nil, List.mem_cons,
      List.not_mem_nil, or_false, List.cons_append, List.nil_append] at hmem
    rcases hmem with rfl | rfl | rfl | rfl <;> rfl
  · intro x hx
    simp only [exampleTwoDirectories, nodes, nodesAll, List.append_nil, List.mem_cons,
      List.not_mem_nil, or_false, List.cons_append, List.nil_append] at hx
    rcases hx with rfl | rfl | rfl | rfl <;> simp [type]

/-- No name is a File in the one and a Directory in the other. -/
theorem exampleTwoDirectories_noClash : NoClash exampleTwoDirectories := by
  rintro p ⟨hfile, hdir⟩
  -- by the length of the path: the trees have three levels
  match p with
  | [] => exact hfile
  | [n] =>
    simp only [exampleTwoDirectories, TypeAt, type, List.mem_cons, List.not_mem_nil, or_false,
      exists_eq_or_imp, exists_eq_left] at hfile
    rcases hfile with ⟨_, hfile⟩ | ⟨_, hfile⟩ <;> exact absurd hfile (by decide)
  | [n, m] =>
    simp [exampleTwoDirectories, TypeAt, type, name, contents] at hdir
    exact absurd hdir.2.2 (by decide)
  | n :: m :: k :: p =>
    simp [exampleTwoDirectories, TypeAt, type, name, contents] at hfile
    exact absurd hfile.2.2.1 (by decide)

/-- The two Directories in either order. -/
theorem merge_order_irrelevant_example :
    ∃ (files : Multiset (List Bytes × NetworkNode)) (directories : Set (List Bytes)),
      ∀ us : List Tree, exampleTwoDirectories.Perm us →
        (∃ (h' : Heap) (root : Tree),
          Heap.mergeTotalFileContent ((nodesAll exampleTwoDirectories).map toFileContent)
            (us.map fun t => some t.addr) = .ok (h', root.addr) ∧
          root.In h' ∧ root.filesBelow = files ∧ root.directoriesBelow = directories) ∧
        ∀ (root : Tree) (calls : List Heap.AddCall),
          EmptyRoot ((nodesAll exampleTwoDirectories).map toFileContent) exampleTwoDirectories
            root →
          (calls.flatMap Heap.AddCall.additions = us.map fun t => some t.addr) →
          ∃ (h' : Heap) (root' : Tree), Heap.runAddCalls root.addr
              ((nodesAll exampleTwoDirectories).map toFileContent) calls = .ok h' ∧
            root'.addr = root.addr ∧ root'.In h' ∧ root'.filesBelow = files ∧
            root'.directoriesBelow = directories :=
  merge_order_irrelevant exampleTwoDirectories_announced exampleTwoDirectories_noClash

end Tree

end Guthi
