import Guthi.Filesystem.FileContent
import Guthi.Lib.FirstMatch

/-!
# Guthi — file trees as values

What the heap of `FileContent` objects is for: a shared pointer that nothing else shares
denotes a finite tree. A `Tree` is such a tree as a value, with the address of each node kept
so that the heap it lives on can be named.

* `nodes`, `addrs` — the nodes of a tree and the addresses it occupies;
* `Tree.In h t` — the heap holds `t`, node for node;
* `Tree.In.unique` — at one address a heap holds at most one tree.
-/

namespace Guthi

/-- A file tree whose nodes know their address. -/
inductive Tree where
  | node (addr : Nat) (type : FileType) (networkNode : NetworkNode) (name : Bytes)
      (contents : List Tree)

namespace Tree

/-- Where the node is on the heap. -/
def addr : Tree → Nat
  | .node a _ _ _ _ => a

def type : Tree → FileType
  | .node _ ty _ _ _ => ty

def networkNode : Tree → NetworkNode
  | .node _ _ nn _ _ => nn

def name : Tree → Bytes
  | .node _ _ _ nm _ => nm

/-- The children, in the order of `contents`. -/
def contents : Tree → List Tree
  | .node _ _ _ _ ts => ts

/-- The node with other children, at the same address. -/
def setContents : Tree → List Tree → Tree
  | .node a ty nn nm _, ts => .node a ty nn nm ts

/-- Other children leave the rest of the node as it is. -/
@[simp] theorem addr_setContents (t : Tree) (ts : List Tree) :
    (t.setContents ts).addr = t.addr := by cases t; rfl

@[simp] theorem type_setContents (t : Tree) (ts : List Tree) :
    (t.setContents ts).type = t.type := by cases t; rfl

@[simp] theorem name_setContents (t : Tree) (ts : List Tree) :
    (t.setContents ts).name = t.name := by cases t; rfl

@[simp] theorem contents_setContents (t : Tree) (ts : List Tree) :
    (t.setContents ts).contents = ts := by cases t; rfl

@[simp] theorem setContents_contents (t : Tree) : t.setContents t.contents = t := by
  cases t; rfl

@[simp] theorem setContents_setContents (t : Tree) (ts us : List Tree) :
    (t.setContents ts).setContents us = t.setContents us := by cases t; rfl

/-- Induction over trees: a property of all children carries to the node. -/
theorem induct {P : Tree → Prop} (step : ∀ t : Tree, (∀ c ∈ t.contents, P c) → P t)
    (t : Tree) : P t := by
  match t with
  | .node a ty nn nm ts => exact step _ fun c (hc : c ∈ ts) => induct step c
termination_by sizeOf t
decreasing_by
  have := List.sizeOf_lt_of_mem hc
  simp only [Tree.node.sizeOf_spec]
  omega

/-! ## The nodes of a tree -/

mutual

/-- A tree and everything below it, parents before their children. -/
def nodes : Tree → List Tree
  | .node a ty nn nm ts => .node a ty nn nm ts :: nodesAll ts

/-- The nodes of several trees, one tree after the other. -/
def nodesAll : List Tree → List Tree
  | [] => []
  | t :: ts => t.nodes ++ nodesAll ts

end

/-- The nodes of several trees, without the mutual recursion. -/
theorem nodesAll_eq_flatMap (ts : List Tree) : nodesAll ts = ts.flatMap nodes := by
  induction ts with
  | nil => rfl
  | cons t ts ih => rw [nodesAll, ih, List.flatMap_cons]

/-- The first node of a tree is its root. -/
theorem nodes_eq (t : Tree) : t.nodes = t :: nodesAll t.contents := by
  cases t; rw [nodes, contents]

theorem nodesAll_append (ts us : List Tree) :
    nodesAll (ts ++ us) = nodesAll ts ++ nodesAll us := by
  simp [nodesAll_eq_flatMap]

/-- A node of several trees is a node of one of them. -/
theorem mem_nodesAll {x : Tree} {ts : List Tree} : x ∈ nodesAll ts ↔ ∃ t ∈ ts, x ∈ t.nodes := by
  simp [nodesAll_eq_flatMap]

theorem self_mem_nodes (t : Tree) : t ∈ t.nodes := by simp [nodes_eq]

/-- What is below a child is below the node. -/
theorem mem_nodes_of_contents {t c x : Tree} (hc : c ∈ t.contents) (hx : x ∈ c.nodes) :
    x ∈ t.nodes := by
  rw [nodes_eq]
  exact List.mem_cons_of_mem _ (mem_nodesAll.mpr ⟨c, hc, hx⟩)

/-- A child has fewer nodes: it is what recursions over trees go down by. -/
theorem length_nodes_lt {t c : Tree} (hc : c ∈ t.contents) : c.nodes.length < t.nodes.length := by
  obtain ⟨pre, post, hsplit⟩ := List.append_of_mem hc
  rw [nodes_eq t, hsplit, nodesAll_append, nodesAll]
  simp only [List.length_cons, List.length_append]
  omega

/-- The addresses that several trees occupy, with repetitions if they share any. -/
def addrsAll (ts : List Tree) : List Nat := (nodesAll ts).map addr

/-- The addresses that a tree occupies. -/
def addrs (t : Tree) : List Nat := t.nodes.map addr

theorem addrs_eq (t : Tree) : t.addrs = t.addr :: addrsAll t.contents := by
  rw [addrs, nodes_eq, List.map_cons, addrsAll]

@[simp] theorem addrsAll_nil : addrsAll [] = [] := rfl

/-- Trees one after the other occupy their addresses one after the other. -/
theorem addrsAll_cons (t : Tree) (ts : List Tree) :
    addrsAll (t :: ts) = t.addrs ++ addrsAll ts := by
  rw [addrsAll, nodesAll, List.map_append, addrs, addrsAll]

theorem addrsAll_append (ts us : List Tree) :
    addrsAll (ts ++ us) = addrsAll ts ++ addrsAll us := by
  rw [addrsAll, nodesAll_append, List.map_append, addrsAll, addrsAll]

theorem mem_addrsAll {a : Nat} {ts : List Tree} : a ∈ addrsAll ts ↔ ∃ t ∈ ts, a ∈ t.addrs := by
  simp only [addrsAll, addrs, List.mem_map, mem_nodesAll]
  constructor
  · -- the same witnesses in another order
    rintro ⟨x, ⟨t, ht, hx⟩, rfl⟩
    exact ⟨t, ht, x, hx, rfl⟩
  · rintro ⟨t, ht, x, hx, rfl⟩
    exact ⟨x, ⟨t, ht, hx⟩, rfl⟩

/-- A tree occupies the address of its root. -/
theorem addr_mem_addrs (t : Tree) : t.addr ∈ t.addrs := by simp [addrs_eq]

/-! ## Trees on a heap -/

/-- The object a node is. -/
def toFileContent (t : Tree) : FileContent where
  type := t.type
  networkNode := t.networkNode
  name := t.name
  contents := t.contents.map fun c => some c.addr

/-- What is known of a node is known of its object. -/
@[simp] theorem type_toFileContent (t : Tree) : t.toFileContent.type = t.type := rfl

@[simp] theorem name_toFileContent (t : Tree) : t.toFileContent.name = t.name := rfl

@[simp] theorem contents_toFileContent (t : Tree) :
    t.toFileContent.contents = t.contents.map fun c => some c.addr := rfl

/-- The heap holds the tree: at the address of each node is the object that it is. -/
def In (h : Heap) (t : Tree) : Prop := ∀ x ∈ t.nodes, h[x.addr]? = some x.toFileContent

/-- A tree is on the heap if its root is and its subtrees are. -/
theorem in_iff {h : Heap} {t : Tree} :
    t.In h ↔ h[t.addr]? = some t.toFileContent ∧ ∀ c ∈ t.contents, c.In h := by
  simp only [In, nodes_eq t, List.forall_mem_cons, mem_nodesAll]
  refine and_congr_right fun _ => ⟨fun hall c hc x hx => hall x ⟨c, hc, hx⟩, ?_⟩
  rintro hall x ⟨c, hc, hx⟩
  exact hall c hc x hx

/-- The object at the root of a tree. -/
theorem In.root {h : Heap} {t : Tree} (ht : t.In h) : h[t.addr]? = some t.toFileContent :=
  (in_iff.mp ht).1

/-- What holds a tree holds its subtrees. -/
theorem In.child {h : Heap} {t c : Tree} (ht : t.In h) (hc : c ∈ t.contents) : c.In h :=
  (in_iff.mp ht).2 c hc

/-- A heap that agrees on the addresses of a tree holds it too. -/
theorem In.congr {h h' : Heap} {t : Tree} (ht : t.In h)
    (hagree : ∀ a ∈ t.addrs, h'[a]? = h[a]?) : t.In h' := by
  intro x hx
  -- only the addresses of the tree are looked at
  rw [hagree x.addr (List.mem_map_of_mem hx)]
  exact ht x hx

/-- The addresses of a tree on a heap are those of its objects. -/
theorem In.lt_length {h : Heap} {t : Tree} (ht : t.In h) {a : Nat} (ha : a ∈ t.addrs) :
    a < h.length := by
  obtain ⟨x, hx, rfl⟩ := List.mem_map.mp ha
  exact (List.getElem?_eq_some_iff.mp (ht x hx)).1

/-- At one address a heap holds at most one tree. -/
theorem In.unique {h : Heap} : ∀ {t u : Tree}, t.In h → u.In h → t.addr = u.addr → t = u := by
  intro t
  induction t using induct with
  | step t ih =>
    intro u ht hu haddr
    -- the two objects are the same, so the children have the same addresses one by one
    have hobj : t.toFileContent = u.toFileContent := by
      have hroot := ht.root
      rw [haddr, hu.root] at hroot
      exact (Option.some.inj hroot).symm
    obtain ⟨hty, hnn, hnm, hcs⟩ : t.type = u.type ∧ t.networkNode = u.networkNode ∧
        t.name = u.name ∧ t.contents.map (fun c => some c.addr) =
          u.contents.map (fun c => some c.addr) := by
      simpa [toFileContent] using hobj
    have hcontents : t.contents = u.contents := by
      -- child by child, since the addresses agree one by one
      refine List.ext_getElem (by simpa using congrArg List.length hcs) fun i hi hi' => ?_
      have hi_eq := congrArg (·[i]?) hcs
      simp only [List.getElem?_map, List.getElem?_eq_getElem hi, List.getElem?_eq_getElem hi',
        Option.map_some, Option.some.injEq] at hi_eq
      exact ih _ (List.getElem_mem hi) (ht.child (List.getElem_mem hi))
        (hu.child (List.getElem_mem hi')) hi_eq
    cases t
    cases u
    simp_all [addr, type, networkNode, name, contents]

end Tree

end Guthi
