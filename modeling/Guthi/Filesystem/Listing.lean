import Guthi.Filesystem.Formatter
import Guthi.Filesystem.Tree
import Guthi.Lib.Delimited
import Guthi.Lib.Outline

/-!
# Guthi — what a listing shows

`FileFormatter` of `filesystem/network_fs.hpp` prints a line for each node, with marks for the
levels above it. A File shows nothing of what is below it, and any other type is shown as a Folder.

* `Tree.visible` — what is shown of a tree; `fileFormatter_prints` — the lines are its outline;
* `listing_determines` — two trees have the same listing exactly if the same is shown of them,
  as long as no name holds a newline.
-/

namespace Guthi

/-- What a line shows of a node. -/
structure Entry where
  isFile : Bool
  name : Bytes
deriving DecidableEq, Repr

namespace Tree

mutual

/-- What a listing shows of a tree. -/
def visible : Tree → Rose Entry
  | .node _ type _ name contents =>
    if type = FileType.file then .node ⟨true, name⟩ []
    else .node ⟨false, name⟩ (visibleAll contents)

/-- What is shown of the children. -/
def visibleAll : List Tree → List (Rose Entry)
  | [] => []
  | t :: ts => t.visible :: visibleAll ts

end

/-- Of a file its children are not shown. -/
theorem visible_file {t : Tree} (h : t.type = FileType.file) :
    t.visible = .node ⟨true, t.name⟩ [] := by
  obtain ⟨a, ty, nn, nm, ts⟩ := t
  rw [visible]
  exact if_pos h

theorem visible_folder {t : Tree} (h : t.type ≠ FileType.file) :
    t.visible = .node ⟨false, t.name⟩ (visibleAll t.contents) := by
  obtain ⟨a, ty, nn, nm, ts⟩ := t
  rw [visible]
  exact if_neg h

/-- No name that is shown holds a newline. -/
def OneLine (t : Tree) : Prop := ∀ x ∈ t.visible.outline 1, 10 ∉ x.2.name

/-- The lines are finitely many. -/
instance (t : Tree) : Decidable t.OneLine :=
  inferInstanceAs (Decidable (∀ x ∈ t.visible.outline 1, 10 ∉ x.2.name))

/-- The nodes are finitely many. -/
instance (h : Heap) (t : Tree) : Decidable (t.In h) :=
  inferInstanceAs (Decidable (∀ x ∈ t.nodes, h[x.addr]? = some x.toFileContent))

end Tree

/-! ## The lines -/

/-- A line without its newline. -/
def lineBody (x : Nat × Entry) : Bytes :=
  indent x.1 ++ ((if x.2.isFile then ascii "File [" else ascii "Folder [") ++
    (x.2.name ++ ascii "]"))

/-- A line with its end. -/
def lineText (body : Bytes) : Bytes := body ++ [10]

theorem lineText_file (d : Nat) (name : Bytes) : lineText (lineBody (d, ⟨true, name⟩)) =
    indent d ++ ascii "File [" ++ name ++ ascii "]\n" := by
  simp only [lineText, lineBody, if_true, List.append_assoc]
  rfl

theorem lineText_folder (d : Nat) (name : Bytes) : lineText (lineBody (d, ⟨false, name⟩)) =
    indent d ++ ascii "Folder [" ++ name ++ ascii "]\n" := by
  simp only [lineText, lineBody, Bool.false_eq_true, if_false, List.append_assoc]
  rfl

/-- Take the text up to the next newline. -/
def takeLine : Bytes → Option (Bytes × Bytes)
  | [] => none
  | b :: s => if b = 10 then some ([], s) else (takeLine s).map fun r => (b :: r.1, r.2)

/-- A line without a line break inside is cut off whole. -/
theorem lineText_delimits {body : Bytes} (h : 10 ∉ body) : Delimits takeLine lineText body := by
  intro rest
  unfold lineText
  induction body with
  | nil => rfl
  | cons b body ih =>
    rw [List.mem_cons, not_or] at h
    show takeLine (b :: (body ++ [10] ++ rest)) = _
    rw [takeLine, if_neg (Ne.symm h.1), ih h.2]
    rfl

/-- The marks have no line break. -/
theorem newline_notMem_indent (d : Nat) : 10 ∉ indent d := by
  unfold indent
  rw [List.mem_append, List.mem_flatten]
  rintro (⟨mark, hmark, hmem⟩ | hmem)
  · rw [List.eq_of_mem_replicate hmark] at hmem
    exact absurd hmem (by decide)
  · exact absurd hmem (by decide)

/-- A line has a line break only if the name does. -/
theorem newline_notMem_lineBody {x : Nat × Entry} (h : 10 ∉ x.2.name) : 10 ∉ lineBody x := by
  unfold lineBody
  rw [List.mem_append, List.mem_append, List.mem_append]
  rintro (hindent | hkind | hname | hend)
  · exact newline_notMem_indent _ hindent
  · split_ifs at hkind <;> exact absurd hkind (by decide)
  · exact h hname
  · exact absurd hend (by decide)

/-- One level further there is one more bar. -/
theorem indent_succ (d : Nat) : indent (d + 2) = ascii "|     " ++ indent (d + 1) := by
  unfold indent
  rw [Nat.add_sub_cancel, show d + 2 - 1 = d + 1 from rfl, List.replicate_succ, List.flatten_cons,
    List.append_assoc]

/-- The first level has the last mark only. -/
theorem indent_one : indent 1 = ascii "|_____" := rfl

/-- The marks of a line can be told from what follows. -/
theorem indent_append_inj {d e : Nat} {s s' : Bytes}
    (h : indent (d + 1) ++ s = indent (e + 1) ++ s') : d = e ∧ s = s' := by
  -- on the number of bars
  induction d generalizing e with
  | zero =>
    cases e with
    | zero => exact ⟨rfl, List.append_cancel_left h⟩
    | succ e =>
      -- `|_` and `| `
      rw [indent_succ, indent_one] at h
      simp only [ascii] at h
      exact absurd (List.cons.inj (List.cons.inj h).2).1 (by decide)
  | succ d ih =>
    cases e with
    | zero =>
      rw [indent_succ, indent_one] at h
      simp only [ascii] at h
      exact absurd (List.cons.inj (List.cons.inj h).2).1 (by decide)
    | succ e =>
      rw [indent_succ, indent_succ, List.append_assoc, List.append_assoc] at h
      obtain ⟨rfl, hs⟩ := ih (List.append_cancel_left h)
      exact ⟨rfl, hs⟩

/-- A line tells the level, the kind and the name. -/
theorem lineBody_inj {x y : Nat × Entry} (hx : 1 ≤ x.1) (hy : 1 ≤ y.1)
    (h : lineBody x = lineBody y) : x = y := by
  obtain ⟨d, isFile, name⟩ := x
  obtain ⟨e, isFile', name'⟩ := y
  obtain ⟨d, rfl⟩ := Nat.exists_eq_add_of_le' hx
  obtain ⟨e, rfl⟩ := Nat.exists_eq_add_of_le' hy
  obtain ⟨rfl, hrest⟩ := indent_append_inj h
  cases isFile with
  | true =>
    cases isFile' with
    | true =>
      have hname : name = name' := List.append_cancel_right (List.append_cancel_left hrest)
      rw [hname]
    -- `Fi` and `Fo`
    | false => exact absurd (List.cons.inj (List.cons.inj hrest).2).1 (by decide)
  | false =>
    cases isFile' with
    | true => exact absurd (List.cons.inj (List.cons.inj hrest).2).1 (by decide)
    | false =>
      have hname : name = name' := List.append_cancel_right (List.append_cancel_left hrest)
      rw [hname]

theorem lines_inj {xs ys : List (Nat × Entry)} (hxs : ∀ x ∈ xs, 1 ≤ x.1) (hys : ∀ y ∈ ys, 1 ≤ y.1)
    (h : xs.map lineBody = ys.map lineBody) : xs = ys := by
  induction xs generalizing ys with
  | nil => exact (List.map_eq_nil_iff.mp h.symm).symm
  | cons x xs ih =>
    obtain ⟨y, ys, rfl, hfirst, hrest⟩ := List.map_eq_cons_iff.mp h.symm
    rw [List.forall_mem_cons] at hxs hys
    rw [lineBody_inj hys.1 hxs.1 hfirst, ih hxs.2 hys.2 hrest.symm]

/-- The text of a tree at depth `d`. -/
def listing (d : Nat) (shown : Rose Entry) : Bytes :=
  ((shown.outline d).map lineBody).flatMap lineText

/-- The line of the node, and the lines of its children. -/
theorem listing_node (d : Nat) (x : Entry) (ts : List (Rose Entry)) :
    listing d (.node x ts) = lineText (lineBody (d, x)) ++ ts.flatMap (listing (d + 1)) := by
  unfold listing
  rw [Rose.outline, Rose.outlineAll_eq_flatMap, List.map_cons, List.flatMap_cons, List.map_flatMap,
    List.flatMap_assoc]

/-- The text tells what is shown. -/
theorem listing_inj {shown shown' : Rose Entry} (hnames : ∀ x ∈ shown.outline 1, 10 ∉ x.2.name)
    (hnames' : ∀ x ∈ shown'.outline 1, 10 ∉ x.2.name) (h : listing 1 shown = listing 1 shown') :
    shown = shown' := by
  -- the text is cut at its line breaks, and in one way only
  have hlines : (shown.outline 1).map lineBody = (shown'.outline 1).map lineBody := by
    have hcuts : CutsInto takeLine (listing 1 shown) ((shown.outline 1).map lineBody) := by
      refine cutsInto_flatMap fun body hbody => ?_
      obtain ⟨x, hx, rfl⟩ := List.mem_map.mp hbody
      exact lineText_delimits (newline_notMem_lineBody (hnames x hx))
    refine hcuts.unique rfl ?_
    rw [h]
    refine cutsInto_flatMap fun body hbody => ?_
    obtain ⟨x, hx, rfl⟩ := List.mem_map.mp hbody
    exact lineText_delimits (newline_notMem_lineBody (hnames' x hx))
  refine Rose.outline_injective 1 (lines_inj ?_ ?_ hlines)
  · exact fun x hx => Rose.le_of_mem_outline x hx
  · exact fun x hx => Rose.le_of_mem_outline x hx

/-! ## What is printed -/

namespace Heap

variable {h : Heap}

/-- The children, one after the other. -/
theorem mapM_fileFormatter {fuel depth : Nat} {ts : List Tree}
    (hall : ∀ t ∈ ts, ∃ lines, fileFormatter h fuel (some t.addr) depth = .ok lines ∧
      printed lines = listing depth t.visible) :
    ∃ below, (ts.map fun t => some t.addr).mapM (fileFormatter h fuel · depth) = .ok below ∧
      printed below.flatten = (Tree.visibleAll ts).flatMap (listing depth) := by
  induction ts with
  | nil => exact ⟨[], rfl, rfl⟩
  | cons t ts ih =>
    obtain ⟨lines, hlines, htext⟩ := hall t (by simp)
    obtain ⟨below, hbelow, hrest⟩ := ih fun u hu => hall u (by simp [hu])
    refine ⟨lines :: below, ?_, ?_⟩
    · rw [List.map_cons, List.mapM_cons, hlines, hbelow]
      rfl
    · rw [List.flatten_cons, Tree.visibleAll, List.flatMap_cons, ← htext, ← hrest]
      exact List.flatMap_append

theorem fileFormatter_file {fuel depth : Nat} {a : Addr} {c : FileContent} (hc : h[a]? = some c)
    (hfile : c.type = FileType.file) : fileFormatter h (fuel + 1) (some a) depth =
      .ok [⟨c, indent depth ++ ascii "File [" ++ c.name ++ ascii "]\n"⟩] := by
  rw [fileFormatter, deref_eq_ok.mpr hc]
  exact if_pos hfile

/-- Anything else is a line and the lines of its children. -/
theorem fileFormatter_folder {fuel depth : Nat} {a : Addr} {c : FileContent}
    {below : List (List Line)} (hc : h[a]? = some c) (hfile : c.type ≠ FileType.file)
    (hbelow : c.contents.mapM (fileFormatter h fuel · (depth + 1)) = .ok below) :
    fileFormatter h (fuel + 1) (some a) depth =
      .ok (⟨c, indent depth ++ ascii "Folder [" ++ c.name ++ ascii "]\n"⟩ :: below.flatten) := by
  rw [fileFormatter, deref_eq_ok.mpr hc]
  refine (if_neg hfile).trans ?_
  rw [hbelow]
  rfl

/-- A tree on the heap is printed as the outline of what is shown of it. -/
theorem fileFormatter_prints {t : Tree} (ht : t.In h) {fuel : Nat} (hfuel : t.nodes.length ≤ fuel)
    (depth : Nat) : ∃ lines, fileFormatter h fuel (some t.addr) depth = .ok lines ∧
      printed lines = listing depth t.visible := by
  induction t using Tree.induct generalizing fuel depth with
  | step t ih =>
    obtain ⟨fuel, rfl⟩ : ∃ n, fuel = n + 1 := Nat.exists_eq_add_of_le' (by
      rw [Tree.nodes_eq, List.length_cons] at hfuel
      omega)
    -- of a file the children are not visited
    by_cases hfile : t.type = FileType.file
    · refine ⟨_, fileFormatter_file ht.root hfile, ?_⟩
      rw [Tree.visible_file hfile, listing_node, List.flatMap_nil, List.append_nil, lineText_file]
      exact List.append_nil _
    · obtain ⟨below, hbelow, htext⟩ := mapM_fileFormatter fun c hc =>
        ih c hc (ht.child hc) (Nat.le_of_lt_succ ((Tree.length_nodes_lt hc).trans_le hfuel))
          (depth + 1)
      refine ⟨_, fileFormatter_folder ht.root hfile hbelow, ?_⟩
      rw [Tree.visible_folder hfile, listing_node, lineText_folder, ← htext]
      rfl

end Heap

/-- Two trees are printed the same exactly if the same is shown of them. -/
theorem listing_determines {h h' : Heap} {t u : Tree} (ht : t.In h) (hu : u.In h')
    (hnames : t.OneLine) (hnames' : u.OneLine) {fuel : Nat} (hfuel : t.nodes.length ≤ fuel)
    (hfuel' : u.nodes.length ≤ fuel) :
    ∃ lines lines', h.fileFormatter fuel (some t.addr) 1 = .ok lines ∧
      h'.fileFormatter fuel (some u.addr) 1 = .ok lines' ∧
      (Heap.printed lines = Heap.printed lines' ↔ t.visible = u.visible) := by
  obtain ⟨lines, hlines, htext⟩ := Heap.fileFormatter_prints ht hfuel 1
  obtain ⟨lines', hlines', htext'⟩ := Heap.fileFormatter_prints hu hfuel' 1
  refine ⟨lines, lines', hlines, hlines', ?_⟩
  rw [htext, htext']
  exact ⟨listing_inj hnames hnames', fun hshown => by rw [hshown]⟩

namespace Tree

/-- A File `a`, and a Directory of the same name. -/
def exampleSingleFile : Tree :=
  .node 0 FileType.directory {} (ascii "d") [.node 1 FileType.file {} (ascii "a") []]

/-- A Directory `a` in it instead. -/
def exampleSingleDirectory : Tree :=
  .node 0 FileType.directory {} (ascii "d") [.node 1 FileType.directory {} (ascii "a") []]

end Tree

/-- The theorem at the two trees. -/
theorem listing_determines_example :
    ∃ lines lines',
      Heap.fileFormatter (Tree.exampleSingleFile.nodes.map Tree.toFileContent) 2 (some 0) 1 =
        .ok lines ∧
      Heap.fileFormatter (Tree.exampleSingleDirectory.nodes.map Tree.toFileContent) 2 (some 0) 1 =
        .ok lines' ∧
      (Heap.printed lines = Heap.printed lines' ↔
        Tree.exampleSingleFile.visible = Tree.exampleSingleDirectory.visible) :=
  listing_determines (t := Tree.exampleSingleFile) (u := Tree.exampleSingleDirectory)
    (by decide) (by decide) (by decide) (by decide) (by decide) (by decide)

end Guthi
