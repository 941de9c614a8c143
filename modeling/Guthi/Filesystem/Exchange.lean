import Guthi.Core.Publish
import Guthi.Filesystem.Listing
import Guthi.Filesystem.MergeUnique
import Guthi.Filesystem.WireFormat

/-!
# Guthi — file systems between nodes

A node publishes `local_fs` with `SerializeLocalFS`; another decodes the bytes into a new object
with `DeserializeToFileContent` and merges it into its view. `main.cpp` prints `local_fs`, then what
it has decoded.

* `prints_same_after_round_trip` — the two outputs are the same, for any graph;
* `published_views_agree` — whatever is on its heap before, a node that has received and merged
  the same file systems in the same order prints the same view.
-/

namespace Guthi

/-! ## Printing a copy -/

namespace Heap

variable {h h' : Heap}

/-- Lines that print the same can be put together. -/
theorem printed_flatten {below below' : List (List Line)}
    (hall : List.Forall₂ (fun lines lines' => printed lines = printed lines') below below') :
    printed below.flatten = printed below'.flatten := by
  induction hall with
  | nil => rfl
  | cons hlines _ ih =>
    rw [List.flatten_cons, List.flatten_cons, printed, printed, List.flatMap_append,
      List.flatMap_append]
    exact congrArg₂ (· ++ ·) hlines ih

/-- The output says nothing of addresses: a copy of a graph is printed as the graph is, with the
same fault if there is one. Induction over the fuel. -/
theorem fileFormatter_relocation {r r' : Addr} {φ : Addr → Addr}
    (hclosed : PointerGraph.Closed FileContent.children h r) (hcopy : h.Relocation r h' r' φ)
    (fuel : Nat) : ∀ a depth, h.Reaches r a →
      Simulates (fun lines lines' => printed lines = printed lines') (fun _ => False)
        (h.fileFormatter fuel (some a) depth) (h'.fileFormatter fuel (some (φ a)) depth) := by
  induction fuel with
  | zero => exact fun _ _ _ => .error _
  | succ fuel ih =>
    intro a depth ha
    -- nothing dangles, so `a` and its copy are there, with the same header
    obtain ⟨c, hc⟩ : ∃ c, h[a]? = some c := ⟨_, List.getElem?_eq_getElem (hclosed a ha)⟩
    have hc' := hcopy.object a c ha hc
    rw [fileFormatter, fileFormatter, deref_eq_ok.mpr hc, deref_eq_ok.mpr hc', ok_bind, ok_bind]
    by_cases hfile : c.type = FileType.file
    · rw [if_pos hfile, if_pos (show (c.rename φ).type = FileType.file from hfile)]
      exact .ok rfl
    · rw [if_neg hfile, if_neg (show (c.rename φ).type ≠ FileType.file from hfile)]
      have hbelow : Simulates (List.Forall₂ fun lines lines' => printed lines = printed lines')
          (fun _ => False) (c.contents.mapM (h.fileFormatter fuel · (depth + 1)))
          ((c.contents.map (Option.map φ)).mapM (h'.fileFormatter fuel · (depth + 1))) := by
        refine Simulates.mapM fun p hp => ?_
        cases p with
        | none =>
          -- both dereference a null pointer, or have no fuel for it
          cases fuel <;> exact .error _
        | some b => exact ih b (depth + 1) (ha.tail ⟨c, hc, FileContent.mem_children.mpr hp⟩)
      refine hbelow.bind fun below below' hall => .ok ?_
      exact congrArg (_ ++ ·) (printed_flatten hall)

end Heap

/-- **What has been decoded is printed as what was published.** For a finite acyclic graph within
the limits, whose encoding is shorter than `2 ^ 32` bytes; pointers may be shared or null, and then
both outputs end with the same fault. -/
theorem prints_same_after_round_trip {h : Heap} {localFs : Addr} (hacyc : h.Acyclic localFs)
    (hlim : ∀ a c, h.Reaches localFs a → h[a]? = some c → c.WithinLimits)
    (hlen : ∀ ser, serializeObject h localFs = some ser → ser.adapter.bytes.length < 2 ^ 32) :
    ∃ data, serializeLocalFS h localFs = some data ∧
      ∀ (heap : Heap) (content : Addr) (type : FileType),
        heap[content]? = some (FileContent.fresh type) →
        ∃ heap', deserializeToFileContent data heap content = some (true, heap') ∧
          ∀ fuel depth, (heap'.fileFormatter fuel (some content) depth).map Heap.printed =
            (h.fileFormatter fuel (some localFs) depth).map Heap.printed := by
  obtain ⟨ser, c, bs, V, _, _, hdata, he⟩ := serializeLocalFS_encodes hacyc hlim hlen
  refine ⟨_, hdata, fun heap content type hfresh => ?_⟩
  obtain ⟨heap', hdes, hcopy, _⟩ := he.accepted hfresh
  refine ⟨heap', hdes, fun fuel depth => ?_⟩
  have hsame := Heap.fileFormatter_relocation hacyc.closed hcopy fuel localFs depth
    (PointerGraph.Reaches.refl localFs)
  rw [hcopy.root] at hsame
  exact hsame.map_eq.symm

/-- The graph in which two nodes share a third. -/
theorem prints_same_after_round_trip_sharedGraph :
    ∃ data, serializeLocalFS sharedGraph 0 = some data ∧
      ∀ (heap : Heap) (content : Addr) (type : FileType),
        heap[content]? = some (FileContent.fresh type) →
        ∃ heap', deserializeToFileContent data heap content = some (true, heap') ∧
          ∀ fuel depth, (heap'.fileFormatter fuel (some content) depth).map Heap.printed =
            (sharedGraph.fileFormatter fuel (some 0) depth).map Heap.printed :=
  prints_same_after_round_trip sharedGraph_acyclic sharedGraph_withinLimits sharedGraph_short

/-! ## Trees without their addresses -/

namespace Tree

mutual

/-- A tree at other addresses. -/
def rename (φ : Addr → Addr) : Tree → Tree
  | .node a ty nn nm ts => .node (φ a) ty nn nm (renameAll φ ts)

/-- The trees of a list at other addresses. -/
def renameAll (φ : Addr → Addr) : List Tree → List Tree
  | [] => []
  | t :: ts => t.rename φ :: renameAll φ ts

end

mutual

/-- What a tree holds, wherever it is. -/
def value : Tree → Rose Header
  | .node _ ty nn nm ts => .node ⟨ty, nn, nm⟩ (valueAll ts)

/-- What the trees of a list hold. -/
def valueAll : List Tree → List (Rose Header)
  | [] => []
  | t :: ts => t.value :: valueAll ts

end

/-- The mutual recursions go over lists as `map` does. -/
theorem renameAll_eq_map (φ : Addr → Addr) (ts : List Tree) :
    renameAll φ ts = ts.map (rename φ) := by
  induction ts with
  | nil => rfl
  | cons t ts ih => rw [renameAll, ih, List.map_cons]

theorem valueAll_eq_map (ts : List Tree) : valueAll ts = ts.map value := by
  induction ts with
  | nil => rfl
  | cons t ts ih => rw [valueAll, ih, List.map_cons]

theorem visibleAll_eq_map (ts : List Tree) : visibleAll ts = ts.map visible := by
  induction ts with
  | nil => rfl
  | cons t ts ih => rw [visibleAll, ih, List.map_cons]

section Rename

variable (φ : Addr → Addr) (t : Tree)

/-- The root moves as all nodes do. -/
theorem addr_rename : (t.rename φ).addr = φ t.addr := by
  cases t
  rw [rename, addr, addr]

theorem contents_rename : (t.rename φ).contents = t.contents.map (rename φ) := by
  cases t
  rw [rename, contents, contents, renameAll_eq_map]

/-- The object of a moved node is the object with its pointers moved. -/
theorem toFileContent_rename : (t.rename φ).toFileContent = t.toFileContent.rename φ := by
  have hcontents := contents_rename φ t
  obtain ⟨a, ty, nn, nm, ts⟩ := t
  rw [toFileContent, hcontents, List.map_map, FileContent.rename, contents_toFileContent,
    List.map_map]
  simp only [Function.comp_def, addr_rename]
  rfl

/-- Moving a tree moves each of its nodes. -/
theorem nodes_rename : (t.rename φ).nodes = t.nodes.map (rename φ) := by
  induction t using induct with
  | step t ih =>
    rw [nodes_eq, nodes_eq t, contents_rename, nodesAll_eq_flatMap, nodesAll_eq_flatMap,
      List.flatMap_map, List.map_cons, List.map_flatMap]
    exact congrArg (_ :: ·) (List.flatMap_congr ih)

/-- A moved tree occupies the images of its addresses. -/
theorem addrs_rename : (t.rename φ).addrs = t.addrs.map φ := by
  rw [addrs, nodes_rename, addrs, List.map_map, List.map_map]
  exact List.map_congr_left fun x _ => addr_rename φ x

/-- What a tree holds does not depend on where it is. -/
theorem value_rename : (t.rename φ).value = t.value := by
  induction t using induct with
  | step t ih =>
    have hcontents := contents_rename φ t
    obtain ⟨a, ty, nn, nm, ts⟩ := t
    rw [rename, value, value, renameAll_eq_map, valueAll_eq_map, valueAll_eq_map, List.map_map]
    exact congrArg _ (List.map_congr_left ih)

end Rename

/-- Trees hold the same if their roots do and their children do, in order. -/
theorem value_eq_iff {t u : Tree} : t.value = u.value ↔ t.type = u.type ∧
    t.networkNode = u.networkNode ∧ t.name = u.name ∧
      t.contents.map value = u.contents.map value := by
  obtain ⟨a, ty, nn, nm, ts⟩ := t
  obtain ⟨b, ty', nn', nm', us⟩ := u
  simp only [value, valueAll_eq_map, Rose.node.injEq, Header.mk.injEq, type, networkNode, name,
    contents, and_assoc]

/-- What depends only on what trees hold is the same for lists that hold the same. -/
theorem map_congr_of_value {β : Type*} {F : Tree → β} {ts us : List Tree}
    (hF : ∀ t ∈ ts, ∀ u, t.value = u.value → F t = F u) (h : ts.map value = us.map value) :
    ts.map F = us.map F := by
  induction ts generalizing us with
  | nil =>
    obtain rfl : us = [] := List.map_eq_nil_iff.mp h.symm
    rfl
  | cons t ts ih =>
    obtain ⟨u, us, rfl, hu, hus⟩ := List.map_eq_cons_iff.mp h.symm
    rw [List.map_cons, List.map_cons, hF t (by simp) u hu.symm,
      ih (fun t' ht' => hF t' (by simp [ht'])) hus.symm]

/-- What is visible of a tree depends only on what it holds. -/
theorem visible_congr {t u : Tree} (h : t.value = u.value) : t.visible = u.visible := by
  induction t using induct generalizing u with
  | step t ih =>
    obtain ⟨htype, _, hname, hcontents⟩ := value_eq_iff.mp h
    -- of a File only the name is visible, of a folder also what is below
    by_cases hfile : t.type = FileType.file
    · rw [visible_file hfile, visible_file (htype ▸ hfile), hname]
    · rw [visible_folder hfile, visible_folder (htype ▸ hfile), hname, visibleAll_eq_map,
        visibleAll_eq_map, map_congr_of_value (fun c hc d hcd => ih c hc hcd) hcontents]

/-! ## Merging goes by what trees hold -/

/-- The search for a name looks at nothing but the name. -/
theorem hasName_congr {t u : Tree} (h : t.value = u.value) (n : Bytes) :
    hasName n t = hasName n u := by
  rw [hasName, hasName, (value_eq_iff.mp h).2.2.1]

/-- Lists that hold the same can be split at the same place. -/
theorem split_congr {pre post ds : List Tree} {c : Tree}
    (h : (pre ++ c :: post).map value = ds.map value) :
    ∃ pre' d post', ds = pre' ++ d :: post' ∧ pre.map value = pre'.map value ∧
      c.value = d.value ∧ post.map value = post'.map value := by
  rw [List.map_append, List.map_cons] at h
  obtain ⟨pre', rest, rfl, hpre, hrest⟩ := List.map_eq_append_iff.mp h.symm
  obtain ⟨d, post', rfl, hd, hpost⟩ := List.map_eq_cons_iff.mp hrest
  exact ⟨pre', d, post', rfl, hpre.symm, hd.symm, hpost.symm⟩

/-- A name that is not among the one is not among the other. -/
theorem find?_hasName_congr {cs ds : List Tree} (h : cs.map value = ds.map value) (n : Bytes) :
    cs.find? (hasName n) = none → ds.find? (hasName n) = none := by
  rw [List.find?_eq_none, List.find?_eq_none]
  intro hcs d hd
  obtain ⟨c, hc, heq⟩ := List.mem_map.mp (h ▸ List.mem_map_of_mem hd)
  rw [← hasName_congr heq]
  exact hcs c hc

/-- The first node of a name is the one that the search finds. -/
theorem find?_of_split {pre post : List Tree} {d : Tree} {n : Bytes}
    (hpre : ∀ b ∈ pre, hasName n b = false) (hd : hasName n d = true) :
    (pre ++ d :: post).find? (hasName n) = some d :=
  List.find?_eq_some_iff_append.mpr ⟨hd, pre, post, rfl, fun b hb => by rw [hpre b hb]; rfl⟩

/-- Nodes that hold the same, with children that hold the same. -/
theorem value_setContents {c d : Tree} {ts us : List Tree} (h : c.value = d.value)
    (hbelow : ts.map value = us.map value) :
    (c.setContents ts).value = (d.setContents us).value := by
  obtain ⟨htype, hnode, hname, _⟩ := value_eq_iff.mp h
  cases c
  cases d
  exact value_eq_iff.mpr ⟨htype, hnode, hname, hbelow⟩

/-- The diffs go in one after the other, and each leaves lists that hold the same. -/
theorem absorbAll_congr_of {xs : List Tree}
    (hone : ∀ x ∈ xs, ∀ y cs ds, x.value = y.value → cs.map value = ds.map value →
      (absorb x cs).map value = (absorb y ds).map value) {ys cs ds : List Tree}
    (hxs : xs.map value = ys.map value) (hcs : cs.map value = ds.map value) :
    (absorbAll xs cs).map value = (absorbAll ys ds).map value := by
  induction xs generalizing ys cs ds with
  | nil =>
    obtain rfl : ys = [] := List.map_eq_nil_iff.mp hxs.symm
    exact hcs
  | cons x xs ih =>
    obtain ⟨y, ys, rfl, hy, hys⟩ := List.map_eq_cons_iff.mp hxs.symm
    rw [absorbAll, absorbAll]
    exact ih (fun x' hx' => hone x' (by simp [hx'])) hys.symm
      (hone x (by simp) y cs ds hy.symm hcs)

/-- Merging looks at types and names and takes over nodes as they are, so results hold the same if
what was merged did. Induction over the diff. -/
theorem absorb_congr (x : Tree) : ∀ y cs ds, x.value = y.value → cs.map value = ds.map value →
    (absorb x cs).map value = (absorb y ds).map value := by
  induction x using induct with
  | step x ih =>
    intro y cs ds hxy hcs
    obtain ⟨htype, _, hname, hcontents⟩ := value_eq_iff.mp hxy
    have happend : (cs ++ [x]).map value = (ds ++ [y]).map value := by
      rw [List.map_append, List.map_append, hcs, List.map_singleton, List.map_singleton, hxy]
    -- no node of that name; a File, which is appended; or a folder, merged into the first node of
    -- its name
    rcases absorb_cases x cs with ⟨hnew, heq⟩ | ⟨hfile, heq⟩ | ⟨hdir, pre, c, post, rfl, hpre,
      hfirst, heq⟩
    · rw [heq, absorb_of_new (hname ▸ find?_hasName_congr hcs _ hnew)]
      exact happend
    · rw [heq, absorb_of_file ds (htype ▸ hfile)]
      exact happend
    · -- the node that takes up the children stands at the same place on the other side
      obtain ⟨pre', d, post', rfl, hpre', hcd, hpost'⟩ := split_congr hcs
      have hnone : ∀ b ∈ pre', hasName y.name b = false := by
        intro b hb
        obtain ⟨a, ha, heq⟩ := List.mem_map.mp (hpre' ▸ List.mem_map_of_mem hb)
        rw [← hasName_congr heq, ← hname]
        exact hpre a ha
      have hmatch : hasName y.name d = true := by
        rw [← hasName_congr hcd, ← hname]
        exact hasName_iff.mpr hfirst
      have hbelow := absorbAll_congr_of ih hcontents (value_eq_iff.mp hcd).2.2.2
      rw [heq, absorb_of_match (find?_of_split hnone hmatch) (htype ▸ hdir),
        updateFirst_split hnone hmatch, List.map_append, List.map_append, List.map_cons,
        List.map_cons, hpre', hpost', value_setContents hcd hbelow]

/-- The same for a whole merge into an empty folder. -/
theorem absorbAll_congr {xs ys : List Tree} (h : xs.map value = ys.map value) :
    (absorbAll xs []).map value = (absorbAll ys []).map value :=
  absorbAll_congr_of (fun x _ => absorb_congr x) h rfl

/-! ## Trees as graphs -/

/-- All nodes of a tree are reached from its root. -/
theorem In.reaches {h : Heap} (t : Tree) : t.In h → ∀ x ∈ t.nodes, h.Reaches t.addr x.addr := by
  induction t using induct with
  | step t ih =>
    intro ht x hx
    rw [nodes_eq, List.mem_cons] at hx
    rcases hx with rfl | hx
    · exact PointerGraph.Reaches.refl _
    · -- below a child: the pointer to it comes first
      obtain ⟨c, hc, hx⟩ := mem_nodesAll.mp hx
      refine Relation.ReflTransGen.head ⟨_, ht.root, ?_⟩ (ih c hc (ht.child hc) x hx)
      rw [children_toFileContent]
      exact List.mem_map_of_mem hc

/-- From a tree every path ends: at the latest at its leaves. -/
theorem In.grounded {h : Heap} (t : Tree) : t.In h →
    PointerGraph.Grounded FileContent.children h t.addr := by
  induction t using induct with
  | step t ih =>
    intro ht
    refine .intro _ fun b ⟨obj, hobj, hmem⟩ => ?_
    -- what the root points to are its children
    cases ht.root.symm.trans hobj
    rw [children_toFileContent] at hmem
    obtain ⟨c, hc, rfl⟩ := List.mem_map.mp hmem
    exact ih c hc (ht.child hc)

theorem In.acyclic {h : Heap} {t : Tree} (ht : t.In h) : h.Acyclic t.addr := by
  refine ⟨fun a ha => ?_, (In.grounded t ht).acyclic⟩
  obtain ⟨x, _, rfl, hx⟩ := In.node_of_reaches t ht a ha
  exact hx.lt_length (addr_mem_addrs x)

theorem In.relocation {h h' : Heap} {t : Tree} {r' : Addr} {φ : Addr → Addr} (ht : t.In h)
    (hcopy : h.Relocation t.addr h' r' φ) : (t.rename φ).In h' := by
  intro x hx
  rw [nodes_rename] at hx
  obtain ⟨y, hy, rfl⟩ := List.mem_map.mp hx
  rw [addr_rename, toFileContent_rename]
  exact hcopy.object y.addr _ (In.reaches t ht y hy) (ht y hy)

/-- A copy shares no node if the tree shares none. -/
theorem nodup_rename {h h' : Heap} {t : Tree} {r' : Addr} {φ : Addr → Addr} (ht : t.In h)
    (hnodup : t.addrs.Nodup) (hcopy : h.Relocation t.addr h' r' φ) :
    (t.rename φ).addrs.Nodup := by
  rw [addrs_rename]
  refine hnodup.map_on fun a ha b hb hab => ?_
  obtain ⟨x, hx, rfl⟩ := List.mem_map.mp ha
  obtain ⟨y, hy, rfl⟩ := List.mem_map.mp hb
  exact hcopy.injective _ _ (In.reaches t ht x hx) (In.reaches t ht y hy) hab

end Tree

/-! ## Publishing and receiving -/

/-- A node that can publish its file system: a tree on its heap, within the limits. -/
structure Sender where
  heap : Heap
  localFs : Tree
  onHeap : localFs.In heap
  nodup : localFs.addrs.Nodup
  notFile : localFs.type ≠ FileType.file
  limits : ∀ t ∈ localFs.nodes, t.toFileContent.WithinLimits
  short : ∀ ser, serializeObject heap localFs.addr = some ser →
    ser.adapter.bytes.length < 2 ^ 32

/-- What the node publishes. -/
def Sender.serializeLocalFS (s : Sender) : Option Bytes :=
  Guthi.serializeLocalFS s.heap s.localFs.addr

/-- What `main.cpp` does with the bytes it is given: a new `FileContent`, whose type nothing has
initialised, and an assertion that they are accepted. -/
def receive (heap : Heap) (type : FileType) (data : Bytes) : Option (Heap × Addr) :=
  (deserializeToFileContent data (heap ++ [FileContent.fresh type]) heap.length).bind fun out =>
    if out.1 then some (out.2, heap.length) else none

/-- Bytes that are accepted pass the assertion. -/
theorem receive_of_accepted {heap heap' : Heap} {type : FileType} {data : Bytes}
    (h : deserializeToFileContent data (heap ++ [FileContent.fresh type]) heap.length =
      some (true, heap')) : receive heap type data = some (heap', heap.length) := by
  unfold receive
  rw [h]
  rfl

/-- The bytes of several nodes, in the order in which they come in. -/
def receiveAll : Heap → List (FileType × Bytes) → Option (Heap × List Addr)
  | heap, [] => some (heap, [])
  | heap, (type, data) :: arrivals => do
    let (heap', content) ← receive heap type data
    let (heap'', contents) ← receiveAll heap' arrivals
    return (heap'', content :: contents)

/-- What has been received: trees in new objects. -/
structure Received (heap heap' : Heap) (ts : List Tree) : Prop where
  onHeap : ∀ t ∈ ts, t.In heap'
  nodup : (Tree.addrsAll ts).Nodup
  fresh : ∀ a ∈ Tree.addrsAll ts, heap.length ≤ a
  frame : ∀ a, a < heap.length → heap'[a]? = heap[a]?

/-- What is decoded goes into objects that were not there before. -/
theorem le_newName {V : List Nat} {n a : Nat} : n ≤ newName V (n + 1) n a := by
  unfold newName
  split_ifs <;> omega

/-- Whatever a node publishes is accepted on every heap, as a tree in new objects that holds what
`local_fs` holds. -/
theorem Sender.receive_eq (s : Sender) : ∃ data, s.serializeLocalFS = some data ∧
    ∀ (heap : Heap) (type : FileType), ∃ heap' t, receive heap type data = some (heap', t.addr) ∧
      Received heap heap' [t] ∧ t.value = s.localFs.value := by
  -- what is reached from `local_fs` are the nodes of the tree
  have hlim : ∀ a c, s.heap.Reaches s.localFs.addr a → s.heap[a]? = some c → c.WithinLimits := by
    intro a c ha hc
    obtain ⟨x, hx, rfl, hin⟩ := Tree.In.node_of_reaches s.localFs s.onHeap a ha
    cases hin.root.symm.trans hc
    exact s.limits x hx
  obtain ⟨ser, c, bs, V, _, _, hdata, he⟩ :=
    serializeLocalFS_encodes s.onHeap.acyclic hlim s.short
  refine ⟨_, hdata, fun heap type => ?_⟩
  have hfresh : (heap ++ [FileContent.fresh type])[heap.length]? =
      some (FileContent.fresh type) := by simp
  obtain ⟨heap', hdes, hcopy, hframe⟩ := he.accepted hfresh
  -- the copy of the tree, by the relocation of the round trip
  refine ⟨heap', s.localFs.rename (newName V (heap ++ [FileContent.fresh type]).length heap.length),
    ?_, ⟨?_, ?_, ?_, ?_⟩, Tree.value_rename _ _⟩
  · rw [Tree.addr_rename, hcopy.root]
    exact receive_of_accepted hdes
  · simpa using s.onHeap.relocation hcopy
  · simpa [Tree.addrsAll_cons] using Tree.nodup_rename s.onHeap s.nodup hcopy
  · intro a ha
    rw [Tree.addrsAll_cons, Tree.addrsAll_nil, List.append_nil, Tree.addrs_rename,
      List.length_append, List.length_singleton] at ha
    obtain ⟨b, _, rfl⟩ := List.mem_map.mp ha
    exact le_newName
  · intro a ha
    rw [hframe a (by simp; omega) (by omega), List.getElem?_append_left ha]

/-- One after the other: what came in before is in older objects. -/
theorem Received.cons {heap heap₁ heap₂ : Heap} {t : Tree} {ts : List Tree}
    (hfirst : Received heap heap₁ [t]) (hrest : Received heap₁ heap₂ ts) :
    Received heap heap₂ (t :: ts) := by
  have hin : t.In heap₁ := hfirst.onHeap t (by simp)
  have hle : heap.length ≤ heap₁.length := by
    have := hfirst.fresh t.addr (by simp [Tree.addrsAll_cons, Tree.addr_mem_addrs])
    exact this.trans (hin.lt_length (Tree.addr_mem_addrs t)).le
  refine ⟨?_, ?_, ?_, fun a ha => ?_⟩
  · -- the first tree is still there: what came in later went into newer objects
    rw [List.forall_mem_cons]
    exact ⟨hin.congr fun a ha => hrest.frame a (hin.lt_length ha), hrest.onHeap⟩
  · rw [Tree.addrsAll_cons, List.nodup_append]
    refine ⟨by simpa [Tree.addrsAll_cons] using hfirst.nodup, hrest.nodup, ?_⟩
    rintro a ha b hb rfl
    exact absurd (hrest.fresh a hb) (Nat.not_le_of_lt (hin.lt_length ha))
  · intro a ha
    rw [Tree.addrsAll_cons, List.mem_append] at ha
    rcases ha with ha | ha
    · exact hfirst.fresh a (by simpa [Tree.addrsAll_cons] using ha)
    · exact hle.trans (hrest.fresh a ha)
  · rw [hrest.frame a (ha.trans_le hle), hfirst.frame a ha]

/-- The same for several nodes: their trees share nothing, and hold what was published. -/
theorem receiveAll_eq (senders : List Sender) : ∃ published,
    List.Forall₂ (fun s data => s.serializeLocalFS = some data) senders published ∧
    ∀ (heap : Heap) (arrivals : List (FileType × Bytes)), arrivals.map Prod.snd = published →
      ∃ heap' ts, receiveAll heap arrivals = some (heap', ts.map Tree.addr) ∧
        Received heap heap' ts ∧ ts.map Tree.value = senders.map fun s => s.localFs.value := by
  induction senders with
  | nil =>
    refine ⟨[], .nil, fun heap arrivals harrivals => ?_⟩
    obtain rfl : arrivals = [] := List.map_eq_nil_iff.mp harrivals
    exact ⟨heap, [], rfl, ⟨by simp, List.nodup_nil, by simp, fun _ _ => rfl⟩, rfl⟩
  | cons s senders ih =>
    obtain ⟨data, hdata, hreceive⟩ := s.receive_eq
    obtain ⟨published, hpublished, hall⟩ := ih
    refine ⟨data :: published, .cons hdata hpublished, fun heap arrivals harrivals => ?_⟩
    obtain ⟨⟨type, data⟩, arrivals, rfl, rfl, hrest⟩ := List.map_eq_cons_iff.mp harrivals
    obtain ⟨heap₁, t, hfirst, ht, hvalue⟩ := hreceive heap type
    obtain ⟨heap₂, ts, hsecond, hts, hvalues⟩ := hall heap₁ arrivals hrest
    refine ⟨heap₂, t :: ts, ?_, ht.cons hts, ?_⟩
    · rw [receiveAll, hfirst]
      simp [hsecond]
    · rw [List.map_cons, List.map_cons, hvalue, hvalues]

/-- `GFS_root` after the file systems have been merged into it; where its nodes are does not
matter. -/
def mergedRoot (senders : List Sender) : Tree :=
  .node 0 FileType.directory {} [] (Tree.absorbAll (senders.map Sender.localFs) [])

/-- An empty `GFS_root` into which what has been received is merged. -/
theorem Received.merged {heap heap' : Heap} {ts : List Tree} {root : Addr}
    (hts : Received heap heap' ts) (hroot : heap[root]? = some FileContent.new)
    (hdirs : ∀ t ∈ ts, t.type ≠ FileType.file) {calls : List Heap.AddCall}
    (hcalls : calls.flatMap Heap.AddCall.additions = ts.map fun t => some t.addr) :
    ∃ h', Heap.runAddCalls root heap' calls = .ok h' ∧
      (Tree.node root FileType.directory {} [] (Tree.absorbAll ts [])).In h' := by
  have hlt : root < heap.length := (List.getElem?_eq_some_iff.mp hroot).1
  have hin : (Tree.node root FileType.directory {} [] []).In heap' := by
    refine Tree.in_iff.mpr ⟨?_, fun c hc => absurd hc List.not_mem_nil⟩
    exact (hts.frame root hlt).trans hroot
  -- `GFS_root` is older than all that was received
  have hnodup : ((Tree.node root FileType.directory {} [] []).addrs ++ Tree.addrsAll ts).Nodup := by
    rw [Tree.addrs_eq, List.nodup_append]
    refine ⟨List.nodup_singleton root, hts.nodup, ?_⟩
    rintro a ha b hb rfl
    rw [List.mem_singleton.mp ha] at hb
    exact absurd (hts.fresh root hb) (Nat.not_le_of_lt hlt)
  exact Tree.runAddCalls_refines hcalls hdirs hin hts.onHeap hnodup

/-- **Nodes that have merged the same file systems show the same.** Each node publishes its own; the
bytes can be received on any heap, into any new objects, and merged into an empty `GFS_root` by
any `MergeDiff` and `AddAsChildDirectory` calls that keep the order. What is printed then is
settled by what was published. -/
theorem published_views_agree (senders : List Sender) : ∃ published,
    List.Forall₂ (fun s data => s.serializeLocalFS = some data) senders published ∧
    ∀ (heap : Heap) (root : Addr) (arrivals : List (FileType × Bytes)),
      heap[root]? = some FileContent.new → arrivals.map Prod.snd = published →
      ∃ heap' contents, receiveAll heap arrivals = some (heap', contents) ∧
        ∀ calls : List Heap.AddCall,
          calls.flatMap Heap.AddCall.additions = contents.map some →
          ∃ h' bound, Heap.runAddCalls root heap' calls = .ok h' ∧ ∀ fuel, bound ≤ fuel →
            ∃ lines, h'.fileFormatter fuel (some root) 1 = .ok lines ∧
              Heap.printed lines = listing 1 (mergedRoot senders).visible := by
  obtain ⟨published, hpublished, hall⟩ := receiveAll_eq senders
  refine ⟨published, hpublished, fun heap root arrivals hroot harrivals => ?_⟩
  obtain ⟨heap', ts, hreceive, hts, hvalues⟩ := hall heap arrivals harrivals
  refine ⟨heap', _, hreceive, fun calls hcalls => ?_⟩
  have hvalues : ts.map Tree.value = (senders.map Sender.localFs).map Tree.value := by
    rw [hvalues, List.map_map]
    rfl
  -- no sender publishes a File, and what came in has the types of what was sent
  have hdirs : ∀ t ∈ ts, t.type ≠ FileType.file := by
    intro t ht
    obtain ⟨u, hu, heq⟩ := List.mem_map.mp (hvalues ▸ List.mem_map_of_mem ht)
    obtain ⟨s, _, rfl⟩ := List.mem_map.mp hu
    rw [← (Tree.value_eq_iff.mp heq).1]
    exact s.notFile
  rw [List.map_map] at hcalls
  -- the merge refines `absorbAll`, which goes by what the trees hold
  obtain ⟨h', hok, hin⟩ := hts.merged hroot hdirs hcalls
  refine ⟨h', (Tree.node root FileType.directory {} [] (Tree.absorbAll ts [])).nodes.length, hok,
    fun fuel hfuel => ?_⟩
  obtain ⟨lines, hlines, htext⟩ := Heap.fileFormatter_prints hin hfuel 1
  refine ⟨lines, hlines, ?_⟩
  have hsame : (Tree.node root FileType.directory {} [] (Tree.absorbAll ts [])).value =
      (mergedRoot senders).value :=
    Tree.value_eq_iff.mpr ⟨rfl, rfl, rfl, Tree.absorbAll_congr hvalues⟩
  rw [htext, Tree.visible_congr hsame]

/-! ## What the C interface publishes -/

namespace CApi

variable {names : List Bytes}

/-- `local_fs` after files of these names were added. -/
def localTree (names : List Bytes) : Tree :=
  .node 1 FileType.directory {} []
    ((names.zipIdx 2).map fun p => .node p.2 FileType.file {} p.1 [])

/-- The nodes are the Directory and one File for each name. -/
theorem mem_nodes_localTree {x : Tree} (hx : x ∈ (localTree names).nodes) :
    x = localTree names ∨
      ∃ i, ∃ hi : i < names.length, x = .node (i + 2) FileType.file {} names[i] [] := by
  rw [Tree.nodes_eq, List.mem_cons] at hx
  refine hx.imp_right fun hx => ?_
  obtain ⟨t, ht, hx⟩ := Tree.mem_nodesAll.mp hx
  obtain ⟨p, hp, rfl⟩ := List.mem_map.mp ht
  obtain ⟨i, hi, rfl⟩ := List.getElem_of_mem hp
  rw [List.length_zipIdx] at hi
  refine ⟨i, hi, ?_⟩
  simpa [Tree.nodes, Tree.nodesAll, Nat.add_comm] using hx

/-- The Files follow the Directory on the heap. -/
theorem map_addr_localTree :
    (localTree names).contents.map Tree.addr = List.range' 2 names.length := by
  rw [localTree, Tree.contents, List.map_map, ← List.zipIdx_map_snd 2 names]
  rfl

/-- The tree is what `localHeap` holds. -/
theorem in_localTree : (localTree names).In (localHeap names) := by
  intro x hx
  rcases mem_nodes_localTree hx with rfl | ⟨i, hi, rfl⟩
  · have hcontents : (localTree names).contents.map (fun c => some c.addr) =
        (List.range' 2 names.length).map some := by
      rw [← map_addr_localTree, List.map_map]
      rfl
    show some { FileContent.new with contents := (List.range' 2 names.length).map some } = some _
    rw [← hcontents]
    rfl
  · exact localHeap_file hi

/-- Files occupy an address each. -/
theorem addrsAll_files (ps : List (Bytes × Nat)) :
    Tree.addrsAll (ps.map fun p => .node p.2 FileType.file {} p.1 []) = ps.map Prod.snd := by
  induction ps with
  | nil => rfl
  | cons p ps ih =>
    rw [List.map_cons, Tree.addrsAll_cons, ih]
    rfl

/-- The Directory at 1, the Files from 2 on. -/
theorem addrs_localTree : (localTree names).addrs = List.range' 1 (names.length + 1) := by
  rw [Tree.addrs_eq, List.range'_succ]
  exact congrArg (1 :: ·) ((addrsAll_files _).trans (List.zipIdx_map_snd 2 names))

/-- No File is there twice, also if two have the same name. -/
theorem nodup_localTree : (localTree names).addrs.Nodup := by
  rw [addrs_localTree]
  exact List.nodup_range'

theorem localTree_ne_file (names : List Bytes) : (localTree names).type ≠ FileType.file := by
  show FileType.directory ≠ FileType.file
  decide

/-- At most 256 names of at most 64 bytes keep to the limits of the reader. -/
theorem localTree_withinLimits (hcount : names.length ≤ 256)
    (hnames : ∀ name ∈ names, name.length ≤ 64) :
    ∀ t ∈ (localTree names).nodes, t.toFileContent.WithinLimits := fun x hx =>
  withinLimits_localHeap.mpr ⟨hcount, hnames⟩ x.addr _ (Tree.In.reaches _ in_localTree x hx)
    (in_localTree x hx)

/-- At most 257 objects within the limits are far below `2 ^ 32` bytes. -/
theorem localTree_short (hcount : names.length ≤ 256) (hnames : ∀ name ∈ names, name.length ≤ 64) :
    ∀ ser, serializeObject (localHeap names) (localTree names).addr = some ser →
      ser.adapter.bytes.length < 2 ^ 32 := by
  intro ser hser
  have := serializeObject_length_le acyclic_localHeap.closed hser
    (withinLimits_localHeap.mpr ⟨hcount, hnames⟩)
  rw [length_localHeap, maxFileCapacity] at this
  omega

/-- What `AddToFileCache` has built up can be published. -/
def localSender (names : List Bytes) (hcount : names.length ≤ 256)
    (hnames : ∀ name ∈ names, name.length ≤ 64) : Sender where
  heap := localHeap names
  localFs := localTree names
  onHeap := in_localTree
  nodup := nodup_localTree
  notFile := localTree_ne_file names
  limits := localTree_withinLimits hcount hnames
  short := localTree_short hcount hnames

end CApi

/-- Two nodes that have one file each. -/
def twoSenders : List Sender :=
  [CApi.localSender [ascii "a"] (by decide) (by decide),
    CApi.localSender [ascii "b"] (by decide) (by decide)]

/-- A third node receives what they have published and merges it with one call. -/
theorem published_views_agree_senders : ∃ published heap' contents h' fuel lines,
    List.Forall₂ (fun s data => s.serializeLocalFS = some data) twoSenders published ∧
    receiveAll [FileContent.new] (published.map fun data => (FileType.directory, data)) =
      some (heap', contents) ∧
    Heap.runAddCalls 0 heap' [.addAsChildDirectory (contents.map some)] = .ok h' ∧
    h'.fileFormatter fuel (some 0) 1 = .ok lines ∧
    Heap.printed lines = listing 1 (mergedRoot twoSenders).visible := by
  obtain ⟨published, hpublished, hall⟩ := published_views_agree twoSenders
  obtain ⟨heap', contents, hreceive, hmerge⟩ := hall [FileContent.new] 0
    (published.map fun data => (FileType.directory, data)) rfl (by simp)
  obtain ⟨h', bound, hrun, hprints⟩ := hmerge [.addAsChildDirectory (contents.map some)]
    (by simp [Heap.AddCall.additions])
  obtain ⟨lines, hlines, htext⟩ := hprints bound (le_refl _)
  exact ⟨published, heap', contents, h', bound, lines, hpublished, hreceive, hrun, hlines, htext⟩

end Guthi
