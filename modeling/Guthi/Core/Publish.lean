import Guthi.Core.CApi
import Guthi.Filesystem.DecodeBounds
import Guthi.Filesystem.Formatter
import Guthi.Filesystem.WriterLimits
import Guthi.Lib.ByteVector

/-!
# Guthi — publishing the local file system

`GetLocalFileMetadata` and `SetFilesystem` of `core/c_api.cpp`: the one serialises `local_fs`
into a buffer for the caller, the other decodes and prints such a buffer. The project is built
with `CMAKE_BUILD_TYPE Debug`, so a failed `assert` ends the process.

* `publishes_iff` — what `AddToFileCache` has built up can be published exactly when it is
  within the limits that the serializer asserts;
* `setFilesystem_rejects` — what was published is never received.
-/

namespace Guthi

namespace CApi

/-! ## The sender -/

/-- `GetLocalFileMetadata(size)`: the bytes behind the pointer returned, and the size stored.
`none` is a failed assertion of the serializer, or a recursion that does not end. -/
def getLocalFileMetadata (h : Heap) (localFs : Addr) : Option (Bytes × UInt32) := do
  let ser ← serializeObject h localFs
  if ser.adapter.assertsHold then
    let data ← serializeLocalFS h localFs
    return (data, UInt32.ofNat data.length)
  else none

variable {F : Type*} [DecidableEq F] (resolve : Bytes → F)

/-- A call of `AddToFileCache`, and what becomes of it outside: whether memory is short, and
whether the file in the cache directory can be created. -/
structure AddCall where
  add : Add
  created : Bool
deriving DecidableEq, Repr

/-- Several calls of `AddToFileCache`. -/
def addCalls (gfs : GFS F) (calls : List AddCall) : GFS F :=
  calls.foldl (fun gfs c => addToFileCache resolve gfs c.add.fileName c.add.ipAddr c.add.data
    c.add.memoryShort c.created) gfs

/-- The name that the call adds. -/
def AddCall.fileName (c : AddCall) : Bytes := c.add.fileName

/-- The entry that `AddToFileCache` makes. -/
def fileFor (name : Bytes) : FileContent :=
  { FileContent.new with name := name, type := FileType.file }

theorem rename_fileFor (φ : Addr → Addr) (name : Bytes) :
    (fileFor name).rename φ = fileFor name := rfl

/-- The objects after files of these names were added: `GFS_root`, `local_fs` and the files. -/
def localHeap (names : List Bytes) : Heap :=
  [FileContent.new, { FileContent.new with contents := (List.range' 2 names.length).map some }] ++
    names.map fileFor

/-- One more file: a new object, and the root points to it. -/
theorem localHeap_concat (names : List Bytes) (name : Bytes) :
    (localHeap names ++ [fileFor name]).modify 1
      (fun c => { c with contents := c.contents ++ [some (localHeap names).length] }) =
      localHeap (names ++ [name]) := by
  have hlen : (localHeap names).length = 2 + names.length := by
    simp [localHeap]
    omega
  rw [hlen]
  simp [localHeap, List.range'_concat]

/-- Whatever becomes of the file itself, each call has made an entry for it. -/
theorem addCalls_localHeap (disk : Disk F) (calls : List AddCall) :
    (addCalls resolve (GFS.new disk) calls).heap = localHeap (calls.map AddCall.fileName) ∧
      (addCalls resolve (GFS.new disk) calls).localFs = 1 := by
  induction calls using List.reverseRecOn with
  | nil => exact ⟨rfl, rfl⟩
  -- on the last call, which appends
  | append_singleton calls c ih =>
    obtain ⟨hheap, hlocal⟩ := ih
    rw [addCalls, List.foldl_append, ← addCalls, List.map_append, List.map_singleton]
    refine ⟨?_, hlocal⟩
    show ((addCalls resolve (GFS.new disk) calls).heap ++ [fileFor c.fileName]).modify
      (addCalls resolve (GFS.new disk) calls).localFs (fun node => { node with
        contents := node.contents ++ [some (addCalls resolve (GFS.new disk) calls).heap.length] })
        = _
    rw [hheap, hlocal]
    exact localHeap_concat _ _

section LocalHeap

variable {names : List Bytes}

theorem length_localHeap : (localHeap names).length = names.length + 2 := by
  simp [localHeap]

/-- The files are the objects behind the two roots. -/
theorem localHeap_file {i : Nat} (hi : i < names.length) :
    (localHeap names)[i + 2]? = some (fileFor names[i]) := by
  simp [localHeap, hi]

theorem points_localHeap {a b : Nat} :
    (localHeap names).Points a b ↔ a = 1 ∧ 2 ≤ b ∧ b < 2 + names.length := by
  constructor
  · rintro ⟨c, hc, hb⟩
    have hb := FileContent.mem_children.mp hb
    -- only the second object has contents
    match a, hc with
    | 0, hc =>
      cases hc
      cases hb
    | 1, hc =>
      cases hc
      simpa using hb
    | i + 2, hc =>
      have hi : i < names.length := by
        have := (List.getElem?_eq_some_iff.mp hc).1
        rw [length_localHeap] at this
        omega
      cases (localHeap_file hi).symm.trans hc
      cases hb
  · rintro ⟨rfl, hb⟩
    exact ⟨_, rfl, FileContent.mem_children.mpr (by simpa using hb)⟩

theorem acyclic_localHeap : (localHeap names).Acyclic 1 := by
  have hroot : 1 < (localHeap names).length := by
    rw [length_localHeap]
    omega
  -- pointers lead from lower addresses to higher ones
  have hforward : ∀ a b, PointerGraph.Points FileContent.children (localHeap names) a b →
      a < b ∧ b < (localHeap names).length := by
    intro a b hpoints
    obtain ⟨rfl, hb⟩ := points_localHeap.mp hpoints
    rw [length_localHeap]
    omega
  obtain ⟨hclosed, hacyclic⟩ := PointerGraph.closed_and_acyclic_of_forward hroot hforward
  exact ⟨hclosed, hacyclic⟩

theorem reaches_localHeap {a : Nat} :
    (localHeap names).Reaches 1 a ↔ a = 1 ∨ ∃ i, i < names.length ∧ a = i + 2 := by
  constructor
  · intro ha
    cases ha with
    | refl => exact Or.inl rfl
    -- one step further, and from the root alone
    | tail _ hpoints =>
      obtain ⟨_, hb⟩ := points_localHeap.mp hpoints
      exact Or.inr ⟨a - 2, by omega, by omega⟩
  · rintro (rfl | ⟨i, hi, rfl⟩)
    · exact PointerGraph.Reaches.refl 1
    · exact (PointerGraph.Reaches.refl 1).tail (points_localHeap.mpr ⟨rfl, by omega⟩)

/-- The limits of the serializer, for a list of added files. -/
theorem withinLimits_localHeap :
    (∀ a c, (localHeap names).Reaches 1 a → (localHeap names)[a]? = some c → c.WithinLimits) ↔
      names.length ≤ 256 ∧ ∀ name ∈ names, name.length ≤ 64 := by
  constructor
  · intro hlim
    have hroot := hlim 1 _ (PointerGraph.Reaches.refl 1) rfl
    refine ⟨by simpa [maxFileCapacity] using hroot.contents, fun name hname => ?_⟩
    obtain ⟨i, hi, rfl⟩ := List.getElem_of_mem hname
    exact (hlim (i + 2) _ (reaches_localHeap.mpr (Or.inr ⟨i, hi, rfl⟩)) (localHeap_file hi)).name
  · -- the root, or one of the files
    rintro ⟨hcount, hnames⟩ a c ha hc
    rcases reaches_localHeap.mp ha with rfl | ⟨i, hi, rfl⟩
    · cases hc
      exact ⟨Nat.zero_le _, by simpa [maxFileCapacity] using hcount⟩
    · cases (localHeap_file hi).symm.trans hc
      exact ⟨hnames _ (List.getElem_mem hi), Nat.zero_le _⟩

end LocalHeap

/-- `GetLocalFileMetadata` succeeds, and the bytes and the size it hands out are accepted and decode
to a Directory with one File for each of the names, in their order. -/
def Publishes (h : Heap) (localFs : Addr) (names : List Bytes) : Prop :=
  ∃ data size, getLocalFileMetadata h localFs = some (data, size) ∧ size.toNat = data.length ∧
    ∀ (heap : Heap) (content : Addr) (type : FileType),
      heap[content]? = some (FileContent.fresh type) →
      ∃ heap' children, deserializeToFileContent data heap content = some (true, heap') ∧
        heap'[content]? = some { FileContent.new with contents := children.map some } ∧
        children.Nodup ∧
        List.Forall₂ (fun name child => heap'[child]? = some (fileFor name)) names children

/-- What a writer without a failed assertion has written is handed out whole. -/
theorem getLocalFileMetadata_eq {h : Heap} {r : Addr} {ser : Serializer} {data : Bytes}
    (hser : serializeObject h r = some ser) (hok : ser.adapter.assertsHold = true)
    (hdata : serializeLocalFS h r = some data) :
    getLocalFileMetadata h r = some (data, UInt32.ofNat data.length) := by
  unfold getLocalFileMetadata
  simp [hser, hok, hdata]

theorem withinLimits_of_getLocalFileMetadata {h : Heap} {r : Addr}
    (hclosed : PointerGraph.Closed FileContent.children h r) {out : Bytes × UInt32}
    (hout : getLocalFileMetadata h r = some out) :
    ∀ a c, h.Reaches r a → h[a]? = some c → c.WithinLimits := by
  unfold getLocalFileMetadata at hout
  obtain ⟨ser, hser, hout⟩ := Option.bind_eq_some_iff.mp hout
  refine serializeObject_withinLimits hclosed hser ?_
  -- a failed assertion gives no bytes
  by_contra hfailed
  rw [if_neg hfailed] at hout
  cases hout

/-- The size stored is the number of bytes handed out. -/
theorem toNat_size_of_short {h : Heap} {r : Addr} {ser : Serializer} {data : Bytes}
    (hser : serializeObject h r = some ser) (hshort : ser.adapter.bytes.length < 2 ^ 32)
    (hdata : serializeLocalFS h r = some data) :
    (UInt32.ofNat data.length).toNat = data.length := by
  rw [serializeLocalFS, hser, Option.map_some, Option.some.injEq] at hdata
  have hle : data.length ≤ ser.adapter.bytes.length := hdata ▸ List.length_take_le' _ _
  rw [UInt32.toNat_ofNat', Nat.mod_eq_of_lt (by omega)]

theorem publishes_localHeap {names : List Bytes} (hcount : names.length ≤ 256)
    (hnames : ∀ name ∈ names, name.length ≤ 64) : Publishes (localHeap names) 1 names := by
  have hlim := withinLimits_localHeap.mpr ⟨hcount, hnames⟩
  have hshort : ∀ ser, serializeObject (localHeap names) 1 = some ser →
      ser.adapter.bytes.length < 2 ^ 32 := by
    intro ser hser
    have := serializeObject_length_le acyclic_localHeap.closed hser hlim
    rw [length_localHeap, maxFileCapacity] at this
    omega
  obtain ⟨ser, c, bs, V, hser, hok, hdata, he⟩ :=
    serializeLocalFS_encodes acyclic_localHeap hlim hshort
  refine ⟨_, _, getLocalFileMetadata_eq hser hok hdata,
    toNat_size_of_short hser (hshort ser hser) hdata, fun heap content type hfresh => ?_⟩
  obtain ⟨heap', hacc, hcopy, _⟩ := he.accepted hfresh
  have hreach : ∀ a ∈ List.range' 2 names.length, (localHeap names).Reaches 1 a := by
    intro a ha
    rw [List.mem_range'_1] at ha
    exact reaches_localHeap.mpr (Or.inr ⟨a - 2, by omega, by omega⟩)
  -- the new names of the files, in their order
  refine ⟨heap', (List.range' 2 names.length).map (newName V heap.length content), hacc, ?_, ?_, ?_⟩
  · have hroot := hcopy.object 1 _ (PointerGraph.Reaches.refl 1) rfl
    rw [hcopy.root] at hroot
    rw [hroot]
    simp [FileContent.rename, Function.comp_def]
  · refine List.Nodup.map_on (fun a ha b hb hab => ?_) List.nodup_range'
    exact hcopy.injective a b (hreach a ha) (hreach b hb) hab
  · refine List.forall₂_iff_get.mpr ⟨by simp, fun i hi hi' => ?_⟩
    have hobj := hcopy.object (i + 2) _ (reaches_localHeap.mpr (Or.inr ⟨i, hi, rfl⟩))
      (localHeap_file hi)
    rw [rename_fileFor] at hobj
    simpa [Nat.add_comm 2 i] using hobj

/-- **What was added can be published** exactly when there are at most 256 files and each of their
names has at most 64 bytes. -/
theorem publishes_iff (disk : Disk F) (calls : List AddCall) :
    Publishes (addCalls resolve (GFS.new disk) calls).heap
        (addCalls resolve (GFS.new disk) calls).localFs (calls.map AddCall.fileName) ↔
      calls.length ≤ 256 ∧ ∀ c ∈ calls, c.fileName.length ≤ 64 := by
  obtain ⟨hheap, hlocal⟩ := addCalls_localHeap resolve disk calls
  rw [hheap, hlocal]
  have hlimits : calls.length ≤ 256 ∧ (∀ c ∈ calls, c.fileName.length ≤ 64) ↔
      (calls.map AddCall.fileName).length ≤ 256 ∧
        ∀ name ∈ calls.map AddCall.fileName, name.length ≤ 64 := by simp
  rw [hlimits]
  constructor
  · rintro ⟨data, size, hout, _⟩
    exact withinLimits_localHeap.mp
      (withinLimits_of_getLocalFileMetadata acyclic_localHeap.closed hout)
  · exact fun ⟨hcount, hnames⟩ => publishes_localHeap hcount hnames

/-- One file whose name has 65 bytes: the serializer's assertion fails. -/
theorem publishes_longName :
    getLocalFileMetadata (addCalls id (GFS.new fun _ : Bytes => none)
        [⟨⟨List.replicate 65 97, ⟨10, 0, 0, 1⟩, [], false⟩, true⟩]).heap 1 = none ∧
    ¬ Publishes (addCalls id (GFS.new fun _ : Bytes => none)
        [⟨⟨List.replicate 65 97, ⟨10, 0, 0, 1⟩, [], false⟩, true⟩]).heap 1
        [List.replicate 65 97] := by
  have hnone : getLocalFileMetadata (addCalls id (GFS.new fun _ : Bytes => none)
      [⟨⟨List.replicate 65 97, ⟨10, 0, 0, 1⟩, [], false⟩, true⟩]).heap 1 = none := by decide
  refine ⟨hnone, ?_⟩
  rintro ⟨data, size, hout, _⟩
  rw [hnone] at hout
  cases hout

/-! ## The receiver -/

/-- How `SetFilesystem` can end otherwise than by printing. -/
inductive ReceiveFault where
  | lengthError
  | outOfBounds
  | assertionFailed
  | recursionTooDeep
  | printing (fault : MergeFault)
deriving DecidableEq, Repr

/-- The body of the copying loop: `serialized[i] = data[i]`. -/
def copyByte (data : Bytes) (serialized : ByteVector) (i : Nat) :
    Except ReceiveFault ByteVector :=
  match data[i]?.bind (serialized.store i) with
  | none => .error .outOfBounds
  | some serialized => .ok serialized

/-- `SetFilesystem(data, size)`: what is printed. The local `deserialized` has a type that nothing
has initialised. -/
def setFilesystem (type : FileType) (data : Bytes) (size : Int) : Except ReceiveFault Bytes := do
  -- a negative size becomes a capacity no vector can have
  if size < 0 then .error .lengthError
  else
    let serialized ← (List.range size.toNat).foldlM (copyByte data)
      (ByteVector.reserve {} size.toNat)
    match deserializeToFileContent serialized.elems [FileContent.fresh type] 0 with
    | none => .error .recursionTooDeep
    | some (false, _) => .error .assertionFailed
    | some (true, deserialized) =>
      match Heap.fileFormatter deserialized (deserialized.length + 1) (some 0) 1 with
      | .error fault => .error (.printing fault)
      | .ok lines => .ok (Heap.printed lines ++ ascii "\n")

/-- A `uint32_t` passed as an `int`. -/
def asInt (size : UInt32) : Int := Int.bmod size.toNat (2 ^ 32)

/-- The metadata of a tree, passed on to `SetFilesystem`, is accepted and printed as that tree. -/
def Receives (type : FileType) (h : Heap) (localFs : Addr) : Prop :=
  ∃ data size lines, getLocalFileMetadata h localFs = some (data, size) ∧
    Heap.fileFormatter h (h.length + 1) (some localFs) 1 = .ok lines ∧
    setFilesystem type data (asInt size) = .ok (Heap.printed lines ++ ascii "\n")

/-- The copying loop fills the storage behind the elements, and leaves the vector empty. -/
theorem copyBytes_elems {data : Bytes} {n : Nat} (hn : n ≤ data.length) :
    ∃ v : ByteVector, (List.range n).foldlM (copyByte data) (ByteVector.reserve {} n) = .ok v ∧
      v.elems = [] := by
  -- the invariant: still no elements, and room for all
  have hrun : Outcome (fun v : ByteVector => v.elems = [] ∧ v.capacity = n) (fun _ => False)
      ((List.range n).foldlM (copyByte data) (ByteVector.reserve {} n)) := by
    refine Outcome.foldlM (fun v i hi hv => ?_) (ByteVector.reserve_empty n)
    obtain ⟨helems, hcapacity⟩ := hv
    rw [List.mem_range] at hi
    have hdata : data[i]? = some data[i] := List.getElem?_eq_getElem (by omega)
    rw [copyByte, hdata, Option.bind_some, ByteVector.store_spare _ (by simp [helems]) (by omega)]
    exact outcome_ok.mpr ⟨helems, by simpa [ByteVector.capacity] using hcapacity⟩
  cases hresult : (List.range n).foldlM (copyByte data) (ByteVector.reserve {} n) with
  | error e => exact absurd hresult fun h => hrun.of_error h
  | ok v => exact ⟨v, rfl, (hrun.of_ok hresult).1⟩

/-- Nothing is no tree. -/
theorem deserialize_nil (type : FileType) :
    ∃ heap', deserializeToFileContent [] [FileContent.fresh type] 0 = some (false, heap') := by
  have hfresh : [FileContent.fresh type][0]? = some (FileContent.fresh type) := rfl
  obtain ⟨accepted, d', hdes, _⟩ := deserializeToFileContent_returns [] hfresh
  cases accepted with
  | false => exact ⟨_, hdes⟩
  | true =>
    obtain ⟨_, _, _, ⟨hheader, _⟩, _⟩ := accepted_parses hfresh hdes
    exact absurd (length_of_takeHeader hheader) (by simp)

theorem setFilesystem_eq (type : FileType) {data : Bytes} {size : Int}
    (hsize : size ≤ data.length) :
    setFilesystem type data size =
      if size < 0 then .error .lengthError else .error .assertionFailed := by
  unfold setFilesystem
  split_ifs with hneg
  · rfl
  · have hlen : size.toNat ≤ data.length := by omega
    obtain ⟨v, hrun, helems⟩ := copyBytes_elems hlen
    obtain ⟨heap', hdes⟩ := deserialize_nil type
    rw [hrun, ok_bind, helems, hdes]

theorem asInt_le (n : Nat) : asInt (UInt32.ofNat n) ≤ n := by
  unfold asInt
  rw [UInt32.toNat_ofNat', Int.bmod_def]
  split <;> omega

/-- **What was published is never received.** Whatever the tree, `SetFilesystem` gives
`DeserializeToFileContent` a vector without elements, so that the assertion fails; where the size
does not fit an `int` it does not get that far. -/
theorem setFilesystem_rejects (type : FileType) (h : Heap) (localFs : Addr) :
    ¬ Receives type h localFs ∧
    ∀ data size, getLocalFileMetadata h localFs = some (data, size) →
      setFilesystem type data (asInt size) =
        if asInt size < 0 then .error .lengthError else .error .assertionFailed := by
  -- the size is never more than there are bytes
  have hset : ∀ data size, getLocalFileMetadata h localFs = some (data, size) →
      setFilesystem type data (asInt size) =
        if asInt size < 0 then .error .lengthError else .error .assertionFailed := by
    intro data size hout
    unfold getLocalFileMetadata at hout
    obtain ⟨ser, _, hout⟩ := Option.bind_eq_some_iff.mp hout
    split at hout
    · obtain ⟨data', _, hout⟩ := Option.bind_eq_some_iff.mp hout
      cases hout
      exact setFilesystem_eq type (asInt_le _)
    · cases hout
  refine ⟨?_, hset⟩
  rintro ⟨data, size, lines, hout, _, hprint⟩
  rw [hset data size hout] at hprint
  split at hprint <;> cases hprint

/-- The eight bytes for an empty Directory: accepted as they are, but not by `SetFilesystem`. -/
theorem setFilesystem_rejects_empty :
    getLocalFileMetadata [FileContent.new] 0 = some ([0, 0, 0, 0, 0, 0, 0, 0], 8) ∧
    deserializeToFileContent [0, 0, 0, 0, 0, 0, 0, 0] [FileContent.fresh 0] 0 =
      some (true, [FileContent.new]) ∧
    setFilesystem 0 [0, 0, 0, 0, 0, 0, 0, 0] (asInt 8) = .error .assertionFailed ∧
    ¬ Receives 0 [FileContent.new] 0 := by
  have hout : getLocalFileMetadata [FileContent.new] 0 = some ([0, 0, 0, 0, 0, 0, 0, 0], 8) := by
    decide
  have hset : setFilesystem 0 [0, 0, 0, 0, 0, 0, 0, 0] (asInt 8) = .error .assertionFailed := by
    decide
  refine ⟨hout, by decide, hset, ?_⟩
  rintro ⟨data, size, lines, hout', _, hprint⟩
  cases hout.symm.trans hout'
  rw [hset] at hprint
  cases hprint

end CApi

end Guthi
