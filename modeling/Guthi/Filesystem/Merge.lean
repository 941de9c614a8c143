import Guthi.Filesystem.FileContent
import Guthi.Lib.Fallible

/-!
# Guthi — merging file trees

`MergeSingleFileContent`, `MergeTotalFileContent`, `AddAsChildDirectory` and
`NetworkFS::MergeDiff` of `filesystem/network_fs.hpp`, on the heap of `FileContent` objects.

The merge dereferences shared pointers without a test and appends to `contents` vectors while
an outer call still walks one. Whatever the language leaves undefined there is a `MergeFault`:
a null pointer, a pointer to no object, or `push_back` on a vector whose range-`for` has not
ended. Running out of fuel stands for a recursion that is deeper than there are objects.
-/

namespace Guthi

/-- What the merge can do wrong with a pointer or an iterator, and running out of fuel. -/
inductive MergeFault where
  | nullDereference
  | dangling
  | iteratorInvalidated
  | recursionTooDeep
deriving DecidableEq, Repr

namespace Heap

/-- `*ptr`. -/
def deref (h : Heap) : Option Addr → Except MergeFault FileContent
  | none => .error .nullDereference
  | some a =>
    match h[a]? with
    | none => .error .dangling
    | some c => .ok c

/-- A pointer can be followed if an object is there. -/
theorem deref_eq_ok {h : Heap} {a : Addr} {c : FileContent} :
    deref h (some a) = .ok c ↔ h[a]? = some c := by
  cases hc : h[a]? <;> simp [deref, hc]

/-- Following a pointer takes no fuel. -/
theorem deref_outcome (h : Heap) (file : Option Addr) :
    Outcome (fun _ => True) (· ≠ .recursionTooDeep) (deref h file) := by
  cases file with
  | none =>
    show MergeFault.nullDereference ≠ .recursionTooDeep
    decide
  | some a => cases hc : h[a]? <;> simp [deref, hc, outcome_ok, outcome_error]

/-- `std::find_if(contents.begin(), contents.end(), f1->name == x->name)`. The predicate reads
`x` anew for each entry it is asked about, and not at all when there is none. -/
def findSameName (h : Heap) (x : Option Addr) :
    List (Option Addr) → Except MergeFault (Option (Option Addr))
  | [] => .ok none
  | f1 :: rest => do
    let entry ← deref h f1
    let other ← deref h x
    if entry.name = other.name then .ok (some f1) else findSameName h x rest

/-- `node->contents.push_back(x)`. The vectors of the nodes in `walked` are being iterated. -/
def pushBack (walked : List Addr) (h : Heap) (node : Option Addr) (x : Option Addr) :
    Except MergeFault Heap := do
  let c ← deref h node
  match node with
  | none => .error .nullDereference
  | some a =>
    if a ∈ walked then .error .iteratorInvalidated
    else .ok (h.set a { c with contents := c.contents ++ [x] })

/-- The body of the loop in `MergeSingleFileContent`; `merge` is the recursive call. -/
def mergeEntry (merge : Heap → Option Addr → Option Addr → Except MergeFault Heap)
    (walked : List Addr) (file1 : Option Addr) (h : Heap) (x : Option Addr) :
    Except MergeFault Heap := do
  let target ← deref h file1
  match ← findSameName h x target.contents with
  | none => pushBack walked h file1 x
  | some iter =>
    let entry ← deref h x
    -- "currently just add with multiple same names"; only the type of `x` is looked at
    if entry.type = FileType.file then pushBack walked h file1 x
    else merge h iter x

/-- `MergeSingleFileContent(file1, file2)`: the entries of `file2`, one after the other, into
`file1`. -/
def mergeSingleFileContent : Nat → List Addr → Heap → Option Addr → Option Addr →
    Except MergeFault Heap
  | 0, _, _, _, _ => .error .recursionTooDeep
  | fuel + 1, walked, h, file1, file2 => do
    let source ← deref h file2
    -- the loop holds an iterator into the vector of `file2`
    let walked' := file2.toList ++ walked
    source.contents.foldlM (mergeEntry (mergeSingleFileContent fuel walked') walked' file1) h

/-- The loop body shared by `MergeTotalFileContent` and `AddAsChildDirectory`: add `dir` under
`root`. There is no test for `FileType::File` here. -/
def addDirectory (root : Addr) (h : Heap) (dir : Option Addr) : Except MergeFault Heap := do
  let target ← deref h (some root)
  match ← findSameName h dir target.contents with
  | none => pushBack [] h (some root) dir
  | some iter => mergeSingleFileContent (h.length + 1) [] h iter dir

/-- The name of the root that `MergeTotalFileContent` makes. -/
def rootName : Bytes := ascii "Guthi File System"

/-- `MergeTotalFileContent(files)`: the heap afterwards and the new root directory. -/
def mergeTotalFileContent (h : Heap) (files : List (Option Addr)) :
    Except MergeFault (Heap × Addr) := do
  let dfs := h.length
  -- the new root is the object behind all others
  let h' ← files.foldlM (addDirectory dfs)
    (h ++ [{ FileContent.new with name := rootName, type := FileType.directory }])
  return (h', dfs)

/-- `AddAsChildDirectory(new_addition)`. -/
def addAsChildDirectory (root : Addr) (h : Heap) (newAddition : List (Option Addr)) :
    Except MergeFault Heap :=
  newAddition.foldlM (addDirectory root) h

/-- `NetworkFS::MergeDiff(in_content)` on a file system whose `GFS_root` is at `root`. -/
def mergeDiff (root : Addr) (h : Heap) (inContent : Option Addr) : Except MergeFault Heap :=
  addAsChildDirectory root h [inContent]

/-- The calls that add to `GFS_root`. -/
inductive AddCall where
  | addAsChildDirectory (newAddition : List (Option Addr))
  | mergeDiff (inContent : Option Addr)

/-- What a call adds, in order. -/
def AddCall.additions : AddCall → List (Option Addr)
  | .addAsChildDirectory newAddition => newAddition
  | .mergeDiff inContent => [inContent]

/-- One call. -/
def AddCall.apply (root : Addr) (h : Heap) : AddCall → Except MergeFault Heap
  | .addAsChildDirectory newAddition => Heap.addAsChildDirectory root h newAddition
  | .mergeDiff inContent => Heap.mergeDiff root h inContent

/-- Calls one after the other, up to the first fault. -/
def runAddCalls (root : Addr) (h : Heap) (calls : List AddCall) : Except MergeFault Heap :=
  calls.foldlM (AddCall.apply root) h

/-- A sequence of calls is one loop over everything they add. -/
theorem runAddCalls_eq (root : Addr) (h : Heap) (calls : List AddCall) :
    runAddCalls root h calls = (calls.flatMap AddCall.additions).foldlM (addDirectory root) h := by
  induction calls generalizing h with
  | nil => rfl
  | cons call calls ih =>
    -- either call is a loop over what it adds
    have hcall : call.apply root h = call.additions.foldlM (addDirectory root) h := by
      cases call <;> rfl
    rw [runAddCalls, List.foldlM_cons, hcall, List.flatMap_cons, List.foldlM_append]
    congr 1
    funext h'
    exact ih h'

end Heap

end Guthi
