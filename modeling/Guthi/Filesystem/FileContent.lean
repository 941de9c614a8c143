import Guthi.Lib.Bytes
import Guthi.Lib.PointerGraph

/-!
# Guthi — `FileContent` and the heap of shared nodes

The data model of `filesystem/network_fs.hpp`. A `FileContent` is one entry of a file tree:
its type, the network node that stores it, its name, and the shared pointers to its children.

Children are `std::shared_ptr`s, so two directories can hold the same child object and an
update through one of them is seen through the other. The model therefore keeps the objects
on an explicit heap and a pointer is an address; `none` is the null pointer. Objects that are
members of another object in the source (`NetworkFS::GFS_root`, `NetworkFS::local_fs`) have an
address too.
-/

namespace Guthi

/-- `enum class FileType : uint16_t`. A value read from the network can be any 16-bit word. -/
abbrev FileType := UInt16

/-- `FileType::Directory`. -/
abbrev FileType.directory : FileType := 0

/-- `FileType::File`. -/
abbrev FileType.file : FileType := 1

/-- `NetworkNode::Ipv4`: four bytes. -/
structure Ipv4 where
  b0 : UInt8 := 0
  b1 : UInt8 := 0
  b2 : UInt8 := 0
  b3 : UInt8 := 0
deriving DecidableEq, Repr

/-- The bytes in the order in which they are serialized. -/
def Ipv4.toBytes (ip : Ipv4) : Bytes := [ip.b0, ip.b1, ip.b2, ip.b3]

/-- `NetworkNode`: the node that a file is on. -/
structure NetworkNode where
  ipv4 : Ipv4 := {}
deriving DecidableEq, Repr

/-- Objects are named by their position on the heap. -/
abbrev Addr := Nat

/-- `struct FileContent`, with the values a value-initialised object has as defaults. -/
structure FileContent where
  type : FileType := FileType.directory
  networkNode : NetworkNode := {}
  name : Bytes := []
  contents : List (Option Addr) := []
deriving DecidableEq, Repr

/-- `FileContent{}`, a value-initialised object. -/
def FileContent.new : FileContent := {}

/-- `max_file_capacity`. -/
def maxFileCapacity : Nat := 256

/-- The objects of the program, by address. -/
abbrev Heap := List FileContent

/-! ## The graph below a node -/

/-- The addresses a node points to, null pointers left out. -/
def FileContent.children (c : FileContent) : List Addr := c.contents.filterMap id

/-- The object with its pointers moved. -/
def FileContent.rename (φ : Addr → Addr) (c : FileContent) : FileContent :=
  { c with contents := c.contents.map (Option.map φ) }

/-- A child is what a slot that is not null points to. -/
theorem FileContent.mem_children {c : FileContent} {a : Addr} :
    a ∈ c.children ↔ some a ∈ c.contents := by
  simp [children]

namespace Heap

/-- A slot of the object at the one address leads to the other. -/
abbrev Points (h : Heap) : Addr → Addr → Prop := PointerGraph.Points FileContent.children h

/-- A chain of slots leads from the one object to the other. -/
abbrev Reaches (h : Heap) : Addr → Addr → Prop := PointerGraph.Reaches FileContent.children h

/-- The finite acyclic graphs: every pointer below `r` leads to an object, none back up. -/
structure Acyclic (h : Heap) (r : Addr) : Prop where
  closed : PointerGraph.Closed FileContent.children h r
  acyclic : PointerGraph.Acyclic FileContent.children h r

/-- A heap whose pointers all lead to later objects. -/
theorem acyclic_of_forward {h : Heap} {r : Addr} (hr : r < h.length)
    (hforward : ∀ a (ha : a < h.length), ∀ b ∈ h[a].children, a < b ∧ b < h.length) :
    h.Acyclic r := by
  -- a pointer comes from a child of an object that is there
  have hpoints : ∀ a b, h.Points a b → a < b ∧ b < h.length := by
    rintro a b ⟨c, hc, hb⟩
    obtain ⟨ha, rfl⟩ := List.getElem?_eq_some_iff.mp hc
    exact hforward a ha b hb
  obtain ⟨hclosed, hacyclic⟩ := PointerGraph.closed_and_acyclic_of_forward hr hpoints
  exact ⟨hclosed, hacyclic⟩

/-- The graph at `r'` in `h'` is isomorphic to the one at `r` in `h`: corresponding nodes
carry the same fields and the same children in the same order, and two child slots of the
copy share a node exactly when the original slots do. -/
abbrev Relocation (h : Heap) (r : Addr) (h' : Heap) (r' : Addr) (φ : Addr → Addr) : Prop :=
  PointerGraph.Relocation FileContent.children FileContent.rename h r h' r' φ

end Heap

end Guthi
