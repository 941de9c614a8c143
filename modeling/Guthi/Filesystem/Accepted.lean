import Guthi.Filesystem.WireFormat

/-!
# Guthi — what an accepted input decodes to

The run of `deserialize`, inverted: when no error is recorded at the end, none was on the way, so
every read has taken what the grammar of `WireFormat.lean` takes.

* `readHeader_over`, `children_of_noError`, `deserialize_readsNode` — the header of a
  node, its children, and the node;
* `accepted_parses` — `DeserializeToFileContent` returned true, so the whole input is a tree of
  the grammar, and its nodes are the objects from the end of the old heap on.
-/

namespace Guthi

open Bitsery

/-! ## Errors stay recorded -/

/-- An error that was recorded before the call is still there after it. -/
def KeepsErrors (fnc : Nat → Deserializer → Option Deserializer) : Prop :=
  ∀ obj d d', fnc obj d = some d' → d'.adapter.noError = true → d.adapter.noError = true

namespace Deserializer

theorem noError_of_readType {d : Deserializer} {obj : Nat}
    (h : (d.readType obj).adapter.noError = true) : d.adapter.noError = true :=
  InputBufferAdapter.noError_of_readBytes2 h

/-- The four bytes of the address. -/
theorem noError_of_readIpv4 {d : Deserializer} {obj : Nat}
    (h : (d.readIpv4 obj).adapter.noError = true) : d.adapter.noError = true :=
  InputBufferAdapter.noError_of_readBytes1 (InputBufferAdapter.noError_of_readBytes1
    (InputBufferAdapter.noError_of_readBytes1 (InputBufferAdapter.noError_of_readBytes1 h)))

/-- The name: its length and its bytes. -/
theorem noError_of_readName {d : Deserializer} {obj : Nat}
    (h : (d.readName obj).adapter.noError = true) : d.adapter.noError = true := by
  rw [readName_apply] at h
  exact InputBufferAdapter.noError_of_readSize (InputBufferAdapter.noError_of_readBuffer h)

theorem noError_of_readContentsSize {d : Deserializer} {obj : Nat}
    (h : (d.readContentsSize obj).2.adapter.noError = true) : d.adapter.noError = true := by
  rw [readContentsSize_apply] at h
  exact InputBufferAdapter.noError_of_readSize h

theorem noError_of_readHeader {d : Deserializer} {obj : Nat}
    (h : (d.readHeader obj).2.adapter.noError = true) : d.adapter.noError = true := by
  unfold readHeader at h
  exact noError_of_readType
    (noError_of_readIpv4 (noError_of_readName (noError_of_readContentsSize h)))

theorem noError_of_extWithId {fnc : Nat → Deserializer → Option Deserializer}
    (hfnc : KeepsErrors fnc) {obj i id : Nat} {d d' : Deserializer}
    (h : extWithId fnc obj i id d = some d') (hok : d'.adapter.noError = true) :
    d.adapter.noError = true := by
  unfold extWithId at h
  -- a null pointer, an id that is known, a node in the slot, a new one
  split_ifs at h
  · cases hshared : d.ctx.sharedState id with
    | some ptr =>
      simp only [hshared, Option.some.injEq] at h
      subst h
      exact hok
    | none =>
      simp only [hshared] at h
      cases hslot : d.getPtr obj i with
      | some ptr =>
        simp only [hslot] at h
        obtain ⟨d₂, hrun, rfl⟩ := Option.map_eq_some_iff.mp h
        exact hfnc ptr { d with ctx := d.ctx.saveToSharedState id ptr } d₂ hrun hok
      | none =>
        simp only [hslot] at h
        obtain ⟨d₂, hrun, rfl⟩ := Option.map_eq_some_iff.mp h
        exact hfnc d.heap.length (d.createShared obj i id) d₂ hrun hok
  · cases h
    exact hok

theorem noError_of_ext {fnc : Nat → Deserializer → Option Deserializer} (hfnc : KeepsErrors fnc)
    {obj i : Nat} {d d' : Deserializer} (h : ext fnc obj d i = some d')
    (hok : d'.adapter.noError = true) : (d.adapter.readSize none).2.noError = true :=
  noError_of_extWithId hfnc (ext_apply fnc obj d i ▸ h) hok

theorem noError_of_foldlM_ext {fnc : Nat → Deserializer → Option Deserializer}
    (hfnc : KeepsErrors fnc) {obj : Nat} {is : List Nat} {d d' : Deserializer}
    (h : is.foldlM (ext fnc obj) d = some d') (hok : d'.adapter.noError = true) :
    d.adapter.noError = true := by
  induction is generalizing d with
  | nil =>
    cases h
    exact hok
  | cons i is ih =>
    rw [List.foldlM_cons] at h
    obtain ⟨d₁, hstep, hrest⟩ := Option.bind_eq_some_iff.mp h
    exact InputBufferAdapter.noError_of_readSize (noError_of_ext hfnc hstep (ih hrest))

end Deserializer

/-- A whole node, by induction on the fuel. -/
theorem deserialize_keepsErrors (fuel : Nat) : KeepsErrors (deserialize fuel) := by
  induction fuel with
  | zero => exact fun obj d d' h _ => absurd h (by simp [deserialize])
  | succ fuel ih =>
    intro obj d d' h hok
    rw [deserialize_succ] at h
    exact Deserializer.noError_of_readHeader (Deserializer.noError_of_foldlM_ext ih h hok)

/-! ## The header -/

namespace Deserializer

variable {d : Deserializer} {obj : Nat} {bs : Bytes}

/-- The first field, read without an error. -/
theorem readType_of_noError (h : d.adapter.Ready bs)
    (hok : (d.readType obj).adapter.noError = true) :
    ∃ v rest adapter, takeLe16 bs = some (v, rest) ∧ adapter.Ready rest ∧
      d.readType obj = { d with adapter }.update obj fun c => { c with type := v } := by
  obtain ⟨rest, htake, hrest⟩ := h.readBytes2_of_noError hok
  exact ⟨_, rest, _, htake, hrest, readType_apply d obj⟩

/-- The address, read without an error. -/
theorem readIpv4_of_noError (h : d.adapter.Ready bs)
    (hok : (d.readIpv4 obj).adapter.noError = true) :
    ∃ ip rest adapter, takeIpv4 bs = some (ip, rest) ∧ adapter.Ready rest ∧
      d.readIpv4 obj = { d with adapter }.update obj
        fun c => { c with networkNode.ipv4 := ip } := by
  rw [readIpv4_apply] at hok ⊢
  have hok₂ := InputBufferAdapter.noError_of_readBytes1 hok
  have hok₁ := InputBufferAdapter.noError_of_readBytes1 hok₂
  obtain ⟨rest₀, hbs₀, h₀⟩ :=
    h.readBytes1_of_noError (InputBufferAdapter.noError_of_readBytes1 hok₁)
  obtain ⟨rest₁, hbs₁, h₁⟩ := h₀.readBytes1_of_noError hok₁
  obtain ⟨rest₂, hbs₂, h₂⟩ := h₁.readBytes1_of_noError hok₂
  obtain ⟨rest₃, hbs₃, h₃⟩ := h₂.readBytes1_of_noError hok
  refine ⟨_, rest₃, _, ?_, h₃, rfl⟩
  rw [hbs₀, hbs₁, hbs₂, hbs₃]
  rfl

/-- The name, read without an error: not longer than its limit. -/
theorem readName_of_noError (h : d.adapter.Ready bs)
    (hok : (d.readName obj).adapter.noError = true) :
    ∃ size bs₁ name rest adapter, (takeSize bs = some (size, bs₁) ∧ size ≤ 64) ∧
      takeBytes size bs₁ = some (name, rest) ∧ adapter.Ready rest ∧
      d.readName obj = { d with adapter }.update obj fun c => { c with name := name } := by
  rw [readName_apply] at hok ⊢
  obtain ⟨bs₁, hsize, hmax, h₁⟩ :=
    h.readSize_of_noError (InputBufferAdapter.noError_of_readBuffer hok)
  obtain ⟨rest, hname, hrest⟩ := h₁.readBuffer_of_noError hok
  exact ⟨_, bs₁, _, rest, _, ⟨hsize, hmax 64 rfl⟩, hname, hrest, rfl⟩

/-- The number of children, read without an error: the slots are resized to it. -/
theorem readContentsSize_of_noError (h : d.adapter.Ready bs)
    (hok : (d.readContentsSize obj).2.adapter.noError = true) :
    ∃ size rest adapter, (takeSize bs = some (size, rest) ∧ size ≤ maxFileCapacity) ∧
      adapter.Ready rest ∧
      d.readContentsSize obj = (size, { d with adapter }.update obj fun c =>
        { c with
          contents := c.contents.take size ++
            List.replicate (size - c.contents.length) none }) := by
  rw [readContentsSize_apply] at hok ⊢
  obtain ⟨rest, hsize, hmax, hrest⟩ := h.readSize_of_noError hok
  exact ⟨_, rest, _, ⟨hsize, hmax _ rfl⟩, hrest, rfl⟩

/-- A header that was read without an error into any object: the fields are those parsed, and the
leading slots are kept. -/
theorem readHeader_over {c₀ : FileContent} (h : d.adapter.Ready bs)
    (hget : d.heap[obj]? = some c₀) (hok : (d.readHeader obj).2.adapter.noError = true) :
    ∃ hd n rest d', takeHeader bs = some (hd, n, rest) ∧ d.readHeader obj = (n, d') ∧
      d'.adapter.Ready rest ∧ d'.ctx = d.ctx ∧ d'.heap.length = d.heap.length ∧
      d'.heap[obj]? = some (hd.toFileContent
        (c₀.contents.take n ++ List.replicate (n - c₀.contents.length) none)) ∧
      ∀ a, a ≠ obj → d'.heap[a]? = d.heap[a]? := by
  unfold readHeader at hok ⊢
  -- no field before the last one failed, since the last one did not
  have hok₃ := noError_of_readContentsSize hok
  have hok₂ := noError_of_readName hok₃
  have hok₁ : (d.readType obj).adapter.noError = true := noError_of_readIpv4 hok₂
  obtain ⟨type, bs₁, r₁, htype, h₁, heq₁⟩ := readType_of_noError h hok₁
  have hr₁ : (d.readType obj).adapter.Ready bs₁ := by rw [heq₁]; exact h₁
  obtain ⟨ip, bs₂, r₂, hip, h₂, heq₂⟩ := readIpv4_of_noError hr₁ hok₂
  have hr₂ : ((d.readType obj).readIpv4 obj).adapter.Ready bs₂ := by rw [heq₂]; exact h₂
  obtain ⟨size, bs₃, name, bs₄, r₃, hsize, hname, h₃, heq₃⟩ := readName_of_noError hr₂ hok₃
  have hr₃ : (((d.readType obj).readIpv4 obj).readName obj).adapter.Ready bs₄ := by
    rw [heq₃]; exact h₃
  obtain ⟨n, rest, r₄, hn, h₄, heq₄⟩ := readContentsSize_of_noError hr₃ hok
  refine ⟨⟨type, ⟨ip⟩, name⟩, n, rest, _,
    takeHeader_eq_some.mpr ⟨bs₁, bs₂, size, bs₃, bs₄, htype, hip, hsize, hname, hn⟩, heq₄, h₄, ?_⟩
  rw [heq₃, heq₂, heq₁]
  refine ⟨rfl, by simp [update], ?_, fun a ha => by simp [update, ha.symm]⟩
  simp [update, hget, Header.toFileContent]

/-- Into an object without children: they are null. -/
theorem readHeader_of_noError {c₀ : FileContent} (h : d.adapter.Ready bs)
    (hget : d.heap[obj]? = some c₀) (hempty : c₀.contents = [])
    (hok : (d.readHeader obj).2.adapter.noError = true) :
    ∃ hd n rest d', takeHeader bs = some (hd, n, rest) ∧ d.readHeader obj = (n, d') ∧
      d'.adapter.Ready rest ∧ d'.ctx = d.ctx ∧ d'.heap.length = d.heap.length ∧
      d'.heap[obj]? = some (hd.toFileContent (List.replicate n none)) ∧
      ∀ a, a ≠ obj → d'.heap[a]? = d.heap[a]? := by
  simpa [hempty] using readHeader_over h hget hok

end Deserializer

/-! ## The children -/

/-- The decoder has met the ids `ids`, which name the objects from `base` on, and `bs` is left. -/
structure Receiving (base : Nat) (d : Deserializer) (ids : List Nat) (bs : Bytes) : Prop where
  ready : d.adapter.Ready bs
  named : ∀ id, d.ctx.sharedState id = if id ∈ ids then some (base + ids.idxOf id) else none
  length : d.heap.length = base + ids.length

/-- From `heap` to `heap'` only the object at `obj` changed and objects from the `n`-th id on
were added, among them the nodes of `ss`. -/
structure Decoded (base obj : Nat) (V : List Nat) (ss : Slots) (n : Nat) (heap heap' : Heap) :
    Prop where
  frame : ∀ a, a < base + n → a ≠ obj → heap'[a]? = heap[a]?
  nodes : ∀ x ∈ ss.nodes,
    heap'[base + V.idxOf x.1]? = some (x.2.1.toFileContent (x.2.2.targets base V))

/-- More ids behind do not change the place of an id. -/
theorem idxOf_of_extends {ids V : List Nat} {id : Nat} (hV : ids <+: V) (hmem : id ∈ ids) :
    V.idxOf id = ids.idxOf id := by
  obtain ⟨more, rfl⟩ := hV
  exact List.idxOf_append_of_mem hmem

/-- An id that comes later has a later place. -/
theorem le_idxOf_of_extends {ids V : List Nat} {id : Nat} (hV : ids <+: V) (hnew : id ∉ ids) :
    ids.length ≤ V.idxOf id := by
  obtain ⟨more, rfl⟩ := hV
  rw [List.idxOf_append_of_notMem hnew]
  exact Nat.le_add_right _ _

theorem idxOf_of_new {ids V : List Nat} {id : Nat} (hV : ids ++ [id] <+: V) (hnew : id ∉ ids) :
    V.idxOf id = ids.length := by
  rw [idxOf_of_extends hV (by simp), List.idxOf_append_of_notMem hnew, List.idxOf_cons_self]
  rfl

/-- The nodes parsed are those whose ids were new. -/
theorem Parses.mem_nodes {ids ids' : List Nat} {n : Nat} {bs bs' : Bytes} {ss : Slots}
    (h : Parses ids n bs ss ids' bs') : ∀ x ∈ ss.nodes, x.1 ∈ ids' ∧ x.1 ∉ ids := by
  induction h with
  | nil ids bs => simp [Slots.nodes]
  | null _ _ ih => exact ih
  | ref _ _ _ _ ih => exact ih
  | @node ids n bs id bs₁ hd m bs₂ cs ids₁ bs₃ ss ids' bs' _ _ hnew _ children rest ih₁ ih =>
    intro x hx
    rcases List.mem_cons.mp hx with rfl | hx
    · exact ⟨rest.grows.subset (children.grows.subset (by simp)), hnew⟩
    · rcases List.mem_append.mp hx with hx | hx
      · -- below the node, or behind it
        obtain ⟨hin, hout⟩ := ih₁ x hx
        exact ⟨rest.grows.subset hin, fun h => hout (by simp [h])⟩
      · obtain ⟨hin, hout⟩ := ih x hx
        exact ⟨hin, fun h => hout (children.grows.subset (by simp [h]))⟩

namespace Receiving

variable {base : Nat} {d : Deserializer} {ids : List Nat} {bs : Bytes}

/-- Setting a pointer reads nothing and names nothing. -/
theorem setPtr (h : Receiving base d ids bs) (obj i : Nat) (ptr : Option Nat) :
    Receiving base (d.setPtr obj i ptr) ids bs :=
  ⟨h.ready, h.named, (Deserializer.length_setPtr d obj i ptr).trans h.length⟩

/-- Reading bytes names nothing. -/
theorem withAdapter (h : Receiving base d ids bs) {adapter : InputBufferAdapter} {rest : Bytes}
    (hr : adapter.Ready rest) : Receiving base { d with adapter } ids rest :=
  ⟨hr, h.named, h.length⟩

/-- A new object has the next id and the next place of the heap. -/
theorem createShared (h : Receiving base d ids bs) (obj i : Nat) {id : Nat} (hnew : id ∉ ids) :
    Receiving base (d.createShared obj i id) (ids ++ [id]) bs := by
  refine ⟨h.ready, fun id' => ?_, ?_⟩
  · show (d.ctx.saveToSharedState id d.heap.length).sharedState id' = _
    rw [sharedState_save, h.named id']
    -- the new id, an old one, or one that is not known
    by_cases hself : id' = id
    · subst hself
      simp [List.idxOf_append_of_notMem hnew, h.length]
    · rw [if_neg hself]
      by_cases hmem : id' ∈ ids
      · simp [hmem, List.idxOf_append_of_mem hmem]
      · simp [hmem, hself]
  · rw [Deserializer.length_createShared, h.length, List.length_append, List.length_singleton]
    omega

end Receiving

/-- A child that was read without an error: its id has been taken. -/
theorem ext_takes {fnc : Nat → Deserializer → Option Deserializer} {obj i : Nat}
    {d d₁ : Deserializer} {bs : Bytes} (h : d.adapter.Ready bs)
    (hrun : Deserializer.ext fnc obj d i = some d₁)
    (hok : (d.adapter.readSize none).2.noError = true) :
    ∃ id bs₁ adapter, takeSize bs = some (id, bs₁) ∧ adapter.Ready bs₁ ∧
      Deserializer.extWithId fnc obj i id { d with adapter } = some d₁ := by
  obtain ⟨bs₁, hsize, -, hready⟩ := h.readSize_of_noError hok
  exact ⟨_, bs₁, _, hsize, hready, hrun⟩

/-- The three forms of a child that was read without an error into an empty slot. -/
theorem ext_of_noError {fnc : Nat → Deserializer → Option Deserializer} {base obj i : Nat}
    {d d₁ : Deserializer} {ids : List Nat} {bs : Bytes} (h : Receiving base d ids bs)
    (hslot : d.getPtr obj i = none) (hrun : Deserializer.ext fnc obj d i = some d₁)
    (hok : (d.adapter.readSize none).2.noError = true) :
    ∃ id bs₁ adapter, takeSize bs = some (id, bs₁) ∧ adapter.Ready bs₁ ∧
      ((id = 0 ∧ d₁ = { d with adapter }.setPtr obj i none) ∨
      (id ≠ 0 ∧ id ∈ ids ∧ d₁ = { d with adapter }.setPtr obj i (some (base + ids.idxOf id))) ∨
      (id ≠ 0 ∧ id ∉ ids ∧ ∃ d₂, fnc d.heap.length ({ d with adapter }.createShared obj i id)
        = some d₂ ∧ d₁ = d₂.setPtr obj i (some d.heap.length))) := by
  obtain ⟨id, bs₁, adapter, hsize, hready, hrun⟩ := ext_takes h.ready hrun hok
  refine ⟨id, bs₁, adapter, hsize, hready, ?_⟩
  unfold Deserializer.extWithId at hrun
  split_ifs at hrun with hid
  · have hnamed := h.named id
    have hslot' : Deserializer.getPtr { d with adapter } obj i = none := hslot
    -- the ids that were met are those that the context knows
    split_ifs at hnamed with hmem
    · simp only [hnamed, Option.some.injEq] at hrun
      exact Or.inr (Or.inl ⟨hid, hmem, hrun.symm⟩)
    · simp only [hnamed, hslot'] at hrun
      obtain ⟨d₂, hrun₂, rfl⟩ := Option.map_eq_some_iff.mp hrun
      exact Or.inr (Or.inr ⟨hid, hmem, d₂, hrun₂, rfl⟩)
  · cases hrun
    exact Or.inl ⟨by simpa using hid, rfl⟩

/-- What reading a node into a fresh object does, if no error is recorded. -/
def ReadsNode (base : Nat) (fnc : Nat → Deserializer → Option Deserializer) : Prop :=
  ∀ (obj : Nat) (d d' : Deserializer) (ids : List Nat) (bs : Bytes) (c₀ : FileContent),
    fnc obj d = some d' → d'.adapter.noError = true → Receiving base d ids bs →
    obj < base + ids.length → d.heap[obj]? = some c₀ → c₀.contents = [] →
    ∃ hd n bs₁ ss ids' bs', takeHeader bs = some (hd, n, bs₁) ∧ Parses ids n bs₁ ss ids' bs' ∧
      Receiving base d' ids' bs' ∧
      ∀ V, ids' <+: V → d'.heap[obj]? = some (hd.toFileContent (ss.targets base V)) ∧
        Decoded base obj V ss ids.length d.heap d'.heap

section Children

variable {base obj : Nat} {fnc : Nat → Deserializer → Option Deserializer}

theorem getPtr_next {d : Deserializer} {hd : Header} {filled : List (Option Nat)} {m : Nat}
    (hobj : d.heap[obj]? = some (hd.toFileContent (filled ++ List.replicate (m + 1) none))) :
    d.getPtr obj filled.length = none := by
  simp [Deserializer.getPtr, hobj, Header.toFileContent]

/-- Setting the pointer of the next slot. -/
theorem setPtr_slot {d : Deserializer} {hd : Header} {filled : List (Option Nat)} {m : Nat}
    (ptr : Option Nat)
    (hobj : d.heap[obj]? = some (hd.toFileContent (filled ++ List.replicate (m + 1) none))) :
    (d.setPtr obj filled.length ptr).heap[obj]?
      = some (hd.toFileContent ((filled ++ [ptr]) ++ List.replicate m none)) := by
  have hnode : d.heap[obj]? = some
      { hd.toFileContent [] with contents := filled ++ List.replicate (m + 1) none } := hobj
  exact setPtr_next ptr hnode

/-- Setting a pointer leaves the other nodes. -/
theorem setPtr_frame {d : Deserializer} {i a : Nat} {ptr : Option Nat} (ha : a ≠ obj) :
    (d.setPtr obj i ptr).heap[a]? = d.heap[a]? := Deserializer.update_ne ha

/-- What was decoded behind a pointer that was set. -/
theorem Decoded.of_setPtr {V : List Nat} {ss : Slots} {n i : Nat} {ptr : Option Nat}
    {d : Deserializer} {heap' : Heap}
    (h : Decoded base obj V ss n (d.setPtr obj i ptr).heap heap') :
    Decoded base obj V ss n d.heap heap' := by
  refine ⟨fun a ha hne => ?_, h.nodes⟩
  rw [h.frame a ha hne, setPtr_frame hne]

/-- A node that was created between `heap` and `heap₁` and read up to `heap₂`, and the children
behind it. The ids below it lie between its own and those of the children that follow. -/
theorem Decoded.node {V : List Nat} {id n n' : Nat} {hdc : Header} {cs ss : Slots}
    {heap heap₁ heap₂ heap' : Heap} (hid : V.idxOf id = n) (hlt : n < n') (hobj : obj < base + n)
    (hcreated : ∀ a, a < base + n → a ≠ obj → heap₁[a]? = heap[a]?)
    (hself : heap₂[base + n]? = some (hdc.toFileContent (cs.targets base V)))
    (hbelow : Decoded base (base + n) V cs (n + 1) heap₁ heap₂)
    (hids : ∀ x ∈ cs.nodes, n < V.idxOf x.1 ∧ V.idxOf x.1 < n')
    (hbehind : Decoded base obj V ss n' heap₂ heap') :
    Decoded base obj V (.node id hdc cs ss) n heap heap' := by
  refine ⟨fun a ha hne => ?_, fun x hx => ?_⟩
  · calc heap'[a]? = heap₂[a]? := hbehind.frame a (by omega) hne
      _ = heap₁[a]? := hbelow.frame a (by omega) (by omega)
      _ = heap[a]? := hcreated a ha hne
  · -- the node itself, what lies below it, and what stands behind it
    rcases List.mem_cons.mp hx with rfl | hx
    · show heap'[base + V.idxOf id]? = _
      rw [hid, hbehind.frame _ (by omega) (by omega), hself]
    · rcases List.mem_append.mp hx with hx | hx
      · obtain ⟨hlow, hhigh⟩ := hids x hx
        rw [hbehind.frame _ (by omega) (by omega), hbelow.nodes x hx]
      · exact hbehind.nodes x hx

/-- **Reading the children.** Induction on their number; each of them is a null pointer, an id
that was met before, or a node, which `fnc` reads. -/
theorem children_of_noError (hfnc : ReadsNode base fnc) (hkeep : KeepsErrors fnc) {hd : Header}
    (n : Nat) : ∀ (filled : List (Option Nat)) (d d' : Deserializer) (ids : List Nat) (bs : Bytes),
      (List.range' filled.length n).foldlM (Deserializer.ext fnc obj) d = some d' →
      d'.adapter.noError = true → Receiving base d ids bs → obj < base + ids.length →
      d.heap[obj]? = some (hd.toFileContent (filled ++ List.replicate n none)) →
      ∃ ss ids' bs', Parses ids n bs ss ids' bs' ∧ Receiving base d' ids' bs' ∧
        ∀ V, ids' <+: V →
          d'.heap[obj]? = some (hd.toFileContent (filled ++ ss.targets base V)) ∧
          Decoded base obj V ss ids.length d.heap d'.heap := by
  induction n with
  | zero =>
    intro filled d d' ids bs hrun hok h _ hobj
    cases hrun
    exact ⟨.nil, ids, bs, .nil ids bs, h, fun V _ =>
      ⟨by simpa [Slots.targets] using hobj, fun _ _ _ => rfl, by simp [Slots.nodes]⟩⟩
  | succ n ih =>
    intro filled d d' ids bs hrun hok h hlt hobj
    rw [List.range'_succ, List.foldlM_cons] at hrun
    obtain ⟨d₁, hstep, hrest⟩ := Option.bind_eq_some_iff.mp hrun
    have hok₁ := Deserializer.noError_of_foldlM_ext hkeep hrest hok
    have hnext : ∀ ptr : Option Nat, filled.length + 1 = (filled ++ [ptr]).length := by simp
    obtain ⟨id, bs₁, adapter, hsize, hready, hcase⟩ :=
      ext_of_noError h (getPtr_next hobj) hstep (Deserializer.noError_of_ext hkeep hstep hok₁)
    have h₁ : Receiving base { d with adapter } ids bs₁ := h.withAdapter hready
    rcases hcase with ⟨rfl, rfl⟩ | ⟨hne, hmem, rfl⟩ | ⟨hne, hnew, d₂, hnode, rfl⟩
    · -- a null pointer
      rw [hnext none] at hrest
      obtain ⟨ss, ids', bs', hparses, h', hV⟩ := ih _ _ d' ids bs₁ hrest hok
        (h₁.setPtr obj _ none) hlt (setPtr_slot none hobj)
      refine ⟨.null ss, ids', bs', .null hsize hparses, h', fun V hprefix => ?_⟩
      obtain ⟨hobj', hdecoded⟩ := hV V hprefix
      exact ⟨by simpa [Slots.targets] using hobj', hdecoded.of_setPtr.frame, hdecoded.nodes⟩
    · -- an id that was met before
      rw [hnext (some (base + ids.idxOf id))] at hrest
      obtain ⟨ss, ids', bs', hparses, h', hV⟩ := ih _ _ d' ids bs₁ hrest hok
        (h₁.setPtr obj _ (some (base + ids.idxOf id))) hlt (setPtr_slot _ hobj)
      refine ⟨.ref id ss, ids', bs', .ref hsize hne hmem hparses, h', fun V hprefix => ?_⟩
      obtain ⟨hobj', hdecoded⟩ := hV V hprefix
      have hidx := idxOf_of_extends (hparses.grows.trans hprefix) hmem
      exact ⟨by simpa [Slots.targets, hidx] using hobj', hdecoded.of_setPtr.frame, hdecoded.nodes⟩
    · -- a node, read into a new object at the end of the heap
      have hlen := h.length
      have hfresh : ({ d with adapter }.createShared obj filled.length id).heap[d.heap.length]?
          = some FileContent.new :=
        createShared_new (d := { d with adapter }) (by show d.heap.length ≠ obj; omega)
      obtain ⟨hdc, m, bs₂, cs, ids₁, bs₃, hheader, hchildren, h₂, hV₁⟩ := hfnc d.heap.length _ d₂
        (ids ++ [id]) bs₁ FileContent.new hnode hok₁ (h₁.createShared obj filled.length hnew)
        (by rw [List.length_append, List.length_singleton]; omega) hfresh rfl
      have hids₁ := hchildren.grows.length_le
      rw [List.length_append, List.length_singleton] at hids₁
      -- reading the node leaves `obj` as the creation did
      have hobj₂ : d₂.heap[obj]? = some (hd.toFileContent
          ((filled ++ [some d.heap.length]) ++ List.replicate n none)) := by
        rw [(hV₁ ids₁ List.prefix_rfl).2.frame obj
          (by rw [List.length_append, List.length_singleton]; omega) (by omega),
          createShared_obj (d := { d with adapter }) _ _ hobj]
        exact congrArg some (congrArg hd.toFileContent (set_next_slot filled n _))
      have hobj₃ : (d₂.setPtr obj filled.length (some d.heap.length)).heap[obj]? = some
          (hd.toFileContent ((filled ++ [some d.heap.length]) ++ List.replicate n none)) := by
        rw [Deserializer.setPtr, Deserializer.update_self hobj₂]
        simp [Header.toFileContent]
      rw [hnext (some d.heap.length)] at hrest
      obtain ⟨ss, ids', bs', hparses, h', hV⟩ := ih _ _ d' ids₁ bs₃ hrest hok
        (h₂.setPtr obj _ _) (by omega) hobj₃
      refine ⟨.node id hdc cs ss, ids', bs', .node hsize hne hnew hheader hchildren hparses, h',
        fun V hprefix => ?_⟩
      obtain ⟨hobj', hdecoded⟩ := hV V hprefix
      obtain ⟨hself, hdecoded₁⟩ := hV₁ V (hparses.grows.trans hprefix)
      have hidx : V.idxOf id = ids.length :=
        idxOf_of_new ((hchildren.grows.trans hparses.grows).trans hprefix) hnew
      rw [hlen] at hself hdecoded₁
      rw [List.length_append, List.length_singleton] at hdecoded₁
      refine ⟨by simpa [Slots.targets, hidx, hlen] using hobj', ?_⟩
      refine Decoded.node hidx (by omega) hlt (fun a ha hne => ?_) hself hdecoded₁ (fun x hx => ?_)
        hdecoded.of_setPtr
      · rw [← hlen] at ha
        exact createShared_frame (d := { d with adapter }) ha hne
      · obtain ⟨hin, hout⟩ := hchildren.mem_nodes x hx
        have hlow := le_idxOf_of_extends ((hchildren.grows.trans hparses.grows).trans hprefix) hout
        have hhigh := List.idxOf_lt_length_of_mem hin
        rw [← idxOf_of_extends (hparses.grows.trans hprefix) hin] at hhigh
        rw [List.length_append, List.length_singleton] at hlow
        omega

/-- **Reading a node.** Induction on the fuel. -/
theorem deserialize_readsNode (base fuel : Nat) : ReadsNode base (deserialize fuel) := by
  induction fuel with
  | zero => exact fun obj d d' ids bs c₀ h => absurd h (by simp [deserialize])
  | succ fuel ih =>
    intro obj d d' ids bs c₀ hrun hok h hlt hget hempty
    rw [deserialize_succ] at hrun
    have hkeep := deserialize_keepsErrors fuel
    obtain ⟨hd, n, bs₁, d₁, hheader, heq, hready, hctx, hlen, hobj, hframe⟩ :=
      Deserializer.readHeader_of_noError h.ready hget hempty
        (Deserializer.noError_of_foldlM_ext hkeep hrun hok)
    -- the header is parsed; the children follow
    rw [heq, List.range_eq_range'] at hrun
    obtain ⟨ss, ids', bs', hparses, h', hV⟩ := children_of_noError ih hkeep n [] d₁ d' ids bs₁
      hrun hok ⟨hready, hctx ▸ h.named, hlen.trans h.length⟩ hlt hobj
    refine ⟨hd, n, bs₁, ss, ids', bs', hheader, hparses, h', fun V hprefix => ?_⟩
    obtain ⟨hobj', hdecoded⟩ := hV V hprefix
    exact ⟨hobj', fun a ha hne => by rw [hdecoded.frame a ha hne, hframe a hne], hdecoded.nodes⟩

end Children

/-! ## The whole input -/

/-- The graph at `content` after an input was accepted: the root, and a node for each id. -/
structure DecodesTo (base content : Nat) (hd : Header) (ss : Slots) (ids : List Nat)
    (heap' : Heap) : Prop where
  length : heap'.length = base + ids.length
  root : heap'[content]? = some (hd.toFileContent (ss.targets base ids))
  nodes : ∀ x ∈ ss.nodes,
    heap'[base + ids.idxOf x.1]? = some (x.2.1.toFileContent (x.2.2.targets base ids))

/-- **An accepted input has been parsed.** -/
theorem accepted_parses {data : Bytes} {heap heap' : Heap} {content : Nat} {type : FileType}
    (hfresh : heap[content]? = some (FileContent.fresh type))
    (hacc : deserializeToFileContent data heap content = some (true, heap')) :
    ∃ hd ss ids, ParsesTree data hd ss ids ∧ DecodesTo heap.length content hd ss ids heap' ∧
      ∀ a, a < heap.length → a ≠ content → heap'[a]? = heap[a]? := by
  obtain ⟨d', hrun, heq⟩ := Option.map_eq_some_iff.mp hacc
  rw [Prod.mk.injEq, Bool.and_eq_true] at heq
  obtain ⟨⟨hok, hcomplete⟩, rfl⟩ := heq
  have hcontent : content < heap.length := (List.getElem?_eq_some_iff.mp hfresh).1
  -- at the start no id is known, and the heap is the old one
  have hstart : Receiving heap.length { adapter := .ofData data, heap } [] data :=
    ⟨InputBufferAdapter.ready_ofData data, fun _ => rfl, rfl⟩
  obtain ⟨hd, n, bs₁, ss, ids, bs', hheader, hparses, h', hV⟩ :=
    deserialize_readsNode heap.length _ content _ d' [] data _ hrun hok hstart hcontent hfresh rfl
  -- nothing is left, since the reading was complete
  obtain rfl : bs' = [] := h'.ready.isCompletedSuccessfully_iff.mp hcomplete
  obtain ⟨hroot, hdecoded⟩ := hV ids List.prefix_rfl
  exact ⟨hd, ss, ids, ⟨hheader, hparses⟩, ⟨h'.length, hroot, hdecoded.nodes⟩, hdecoded.frame⟩

end Guthi
