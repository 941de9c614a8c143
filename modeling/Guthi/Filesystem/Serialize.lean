import Guthi.Bitsery.Adapter
import Guthi.Bitsery.Pointer
import Guthi.Filesystem.FileContent

/-!
# Guthi — serialising a file tree

`serialize` of `filesystem/serialize_fs.hpp` in both directions, and the two entry points of
`filesystem/serialize_fs.cpp`. One function template serves the writer and the reader in the
source; here `serialize` is its instance for `bitsery::Serializer` and `deserialize` the one
for `bitsery::Deserializer`.

A node is written as its type (two bytes), its four address bytes, its name and its children;
a child is a pointer id, followed by the node itself on the first visit. Both directions
recurse through pointers, so they take fuel; `none` is a run that needs more fuel or follows
a pointer to no object. `serializeLocalFS` and `deserializeToFileContent` pass enough fuel for
every input (`Filesystem/RoundTrip.lean`).
-/

namespace Guthi

open Bitsery

/-! ## Writing -/

structure Serializer where
  adapter : OutputBufferAdapter := {}
  ctx : PointerLinkingContextSerialization := {}
deriving DecidableEq, Repr

namespace Serializer

def value1b (s : Serializer) (v : UInt8) : Serializer :=
  { s with adapter := s.adapter.writeBytes1 v }

def value2b (s : Serializer) (v : UInt16) : Serializer :=
  { s with adapter := s.adapter.writeBytes2 v }

def writeSize (s : Serializer) (size : Nat) : Serializer :=
  { s with adapter := s.adapter.writeSize size }

/-- The first half of `container`: the size is asserted to be within the limit and written. -/
def containerSize (s : Serializer) (size maxSize : Nat) : Serializer :=
  { s with adapter := (s.adapter.assert (size ≤ maxSize)).writeSize size }

/-- `container1b`, for a contiguous container of bytes. -/
def container1b (s : Serializer) (obj : Bytes) (maxSize : Nat) : Serializer :=
  let s := s.containerSize obj.length maxSize
  { s with adapter := s.adapter.writeBuffer obj }

/-- `s.ext(it, StdSmartPtr{})`: the id of the pointer, and on its first visit the object
(written by `fnc`). -/
def ext (fnc : Addr → Serializer → Option Serializer) (s : Serializer) (it : Option Addr) :
    Option Serializer :=
  match it with
  | some ptr =>
    let (ptrInfo, ctx) := s.ctx.getInfoByPtr ptr
    let s := { s with ctx }.writeSize ptrInfo.id
    -- a pointer that was written before is only its id
    if !ptrInfo.isSharedProcessed then fnc ptr s else some s
  | none => some (s.writeSize 0)

/-- The members of `content` other than the children themselves. -/
def header (s : Serializer) (content : FileContent) : Serializer :=
  let s := s.value2b content.type
  let s := content.networkNode.ipv4.toBytes.foldl value1b s
  let s := s.container1b content.name 64
  s.containerSize content.contents.length maxFileCapacity

end Serializer

/-- `serialize(s, content)` on a writer. -/
def serialize (h : Heap) : Nat → FileContent → Serializer → Option Serializer
  | 0, _, _ => none
  | fuel + 1, content, s =>
    content.contents.foldlM
      (Serializer.ext fun ptr s => h[ptr]?.bind fun c => serialize h fuel c s)
      (s.header content)

/-- The writer after all of `local_fs`. Each level of the recursion is entered through a
pointer not visited before, so one more level than there are objects is enough. -/
def serializeObject (h : Heap) (localFS : Addr) : Option Serializer :=
  h[localFS]?.bind fun c => serialize h (h.length + 1) c {}

/-- `NetworkFS::SerializeLocalFS`: the written bytes, cut to their count as a `uint32_t`. -/
def serializeLocalFS (h : Heap) (localFS : Addr) : Option Bytes :=
  (serializeObject h localFS).map fun ser =>
    ser.adapter.bytes.take (UInt32.ofNat ser.adapter.bytes.length).toNat

/-! ## Reading -/

/-- `bitsery::Deserializer<InputAdapter, TContext>`, with the heap it creates objects on. -/
structure Deserializer where
  adapter : InputBufferAdapter
  ctx : PointerLinkingContextDeserialization := {}
  heap : Heap
deriving DecidableEq, Repr

namespace Deserializer

/-- A write to the object at `obj`. -/
def update (d : Deserializer) (obj : Addr) (f : FileContent → FileContent) : Deserializer :=
  { d with heap := d.heap.modify obj f }

/-- `s.value2b(content.type)`. -/
def readType (d : Deserializer) (obj : Addr) : Deserializer :=
  let (type, adapter) := d.adapter.readBytes2
  { d with adapter }.update obj fun c => { c with type }

/-- The loop of `value1b` over `content.network_node.ipv4`. -/
def readIpv4 (d : Deserializer) (obj : Addr) : Deserializer :=
  let (b0, adapter) := d.adapter.readBytes1
  let (b1, adapter) := adapter.readBytes1
  let (b2, adapter) := adapter.readBytes1
  let (b3, adapter) := adapter.readBytes1
  { d with adapter }.update obj fun c => { c with networkNode.ipv4 := ⟨b0, b1, b2, b3⟩ }

/-- `container1b(content.name, 64)`. -/
def readName (d : Deserializer) (obj : Addr) : Deserializer :=
  let (size, adapter) := d.adapter.readSize (some 64)
  let (name, adapter) := adapter.readBuffer size
  { d with adapter }.update obj fun c => { c with name }

/-- The first half of `container(content.contents, MAX_FILE_CAPACITY, …)`: the vector is
resized, which keeps leading slots and fills new ones with null. -/
def readContentsSize (d : Deserializer) (obj : Addr) : Nat × Deserializer :=
  let (size, adapter) := d.adapter.readSize (some maxFileCapacity)
  (size, { d with adapter }.update obj fun c =>
    { c with contents := c.contents.take size ++ List.replicate (size - c.contents.length) none })

/-- The pointer in slot `i`. -/
def getPtr (d : Deserializer) (obj : Addr) (i : Nat) : Option Addr :=
  d.heap[obj]?.bind fun c => c.contents[i]?.join

/-- A write to slot `i`. -/
def setPtr (d : Deserializer) (obj : Addr) (i : Nat) (ptr : Option Addr) : Deserializer :=
  d.update obj fun c => { c with contents := c.contents.set i ptr }

/-- `createShared`: a new object, owned by slot `i` and by the shared state of `id`. -/
def createShared (d : Deserializer) (obj : Addr) (i id : Nat) : Deserializer :=
  { { d with heap := d.heap ++ [FileContent.new] }.setPtr obj i (some d.heap.length) with
    ctx := d.ctx.saveToSharedState id d.heap.length }

/-- `s.ext(it, StdSmartPtr{})` on slot `i` of the children of `obj`: an id met before gives
its object, a new id reads the object (by `fnc`) into the one the slot already holds, or into
a new one. -/
def ext (fnc : Addr → Deserializer → Option Deserializer) (obj : Addr) (d : Deserializer)
    (i : Nat) : Option Deserializer :=
  let (id, adapter) := d.adapter.readSize none
  let d := { d with adapter }
  if id ≠ 0 then
    match d.ctx.sharedState id with
    | some ptr => some (d.setPtr obj i (some ptr))
    | none =>
      match d.getPtr obj i with
      -- the slot holds an object already, which is read over
      | some ptr =>
        (fnc ptr { d with ctx := d.ctx.saveToSharedState id ptr }).map
          (·.setPtr obj i (some ptr))
      | none =>
        (fnc d.heap.length (d.createShared obj i id)).map
          (·.setPtr obj i (some d.heap.length))
  else
    some (d.setPtr obj i none)

end Deserializer

/-- `serialize(s, content)` on a reader, for the object at `obj`. Nothing is said about the
iterators of the loops that are running: into a fresh object every node is read once, and what is
read over an object that is in use is a matter of `deserializeWithin`
(`Filesystem/Redecoding.lean`). -/
def deserialize : Nat → Addr → Deserializer → Option Deserializer
  | 0, _, _ => none
  | fuel + 1, obj, d =>
    let d := ((d.readType obj).readIpv4 obj).readName obj
    let (size, d) := d.readContentsSize obj
    (List.range size).foldlM (Deserializer.ext (deserialize fuel) obj) d

/-- `NetworkFS::DeserializeToFileContent(data, content)` on the object `content` of `heap`:
the returned value and the heap afterwards. A level of the recursion has consumed a byte for
its pointer id, so one more level than there are bytes is enough. -/
def deserializeToFileContent (data : Bytes) (heap : Heap) (content : Addr) :
    Option (Bool × Heap) :=
  (deserialize (data.length + 1) content { adapter := .ofData data, heap }).map fun des =>
    (des.adapter.noError && des.adapter.isCompletedSuccessfully, des.heap)

end Guthi
