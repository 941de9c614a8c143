import Guthi.Filesystem.SerialFormat

/-!
# Guthi — reading back a serialised file tree

The reader follows a derivation of the format (`Filesystem/SerialFormat.lean`) and rebuilds the
graph: the `i`-th object numbered by the writer becomes the object at address `base + i`,
where `base` is the size of the heap before.

* `deserialize_header` — reading a node's header restores its fields and leaves as many null
  children as it had;
* `SlotsFormat.read` — reading the children restores them, creates the newly numbered objects
  as renamed copies and touches nothing else;
* `deserialize_serializeLocalFS` — the round trip: the result is accepted, isomorphic to the
  original, and the rest of the heap is as it was.
-/

namespace Guthi

open Bitsery

/-! ## Updating one object -/

namespace Deserializer

/-- Updating an object adds none. -/
@[simp] theorem update_length (d : Deserializer) (obj : Nat) (f : FileContent → FileContent) :
    (d.update obj f).heap.length = d.heap.length := by
  simp [update]

/-- The object is changed as it is said. -/
theorem update_self {d : Deserializer} {obj : Nat} {f : FileContent → FileContent}
    {c : FileContent} (h : d.heap[obj]? = some c) : (d.update obj f).heap[obj]? = some (f c) := by
  simp [update, h]

theorem update_ne {d : Deserializer} {obj a : Nat} {f : FileContent → FileContent}
    (h : a ≠ obj) : (d.update obj f).heap[a]? = d.heap[a]? := by
  simp [update, h.symm]

end Deserializer

/-! ## The header -/

namespace Deserializer

variable {d : Deserializer} {obj : Nat} {rest : Bytes}

/-- Each field is read as it was written. -/
theorem readType_eq {v : FileType} (h : d.adapter.Ready (leBytes16 v ++ rest)) :
    d.readType obj = { d with adapter := d.adapter.advance 2 }.update obj
      fun c => { c with type := v } := by
  simp only [readType, h.readBytes2]

theorem readIpv4_eq {ip : Ipv4} (h : d.adapter.Ready (ip.toBytes ++ rest)) :
    d.readIpv4 obj = { d with adapter := d.adapter.advance 4 }.update obj
      fun c => { c with networkNode.ipv4 := ip } := by
  -- byte by byte
  have h0 : d.adapter.Ready (ip.b0 :: ip.b1 :: ip.b2 :: ip.b3 :: rest) := h
  have h1 := h0.advance1
  have h2 := h1.advance1
  have h3 := h2.advance1
  simp only [readIpv4, h0.readBytes1, h1.readBytes1, h2.readBytes1, h3.readBytes1]
  rfl

/-- A name within the limit, behind its length. -/
theorem readName_eq {name : Bytes} (hlim : name.length ≤ 64)
    (h : d.adapter.Ready (sizeBytes name.length ++ (name ++ rest))) :
    d.readName obj
      = { d with
            adapter := d.adapter.advance ((sizeBytes name.length).length + name.length) }.update obj
          fun c => { c with name := name } := by
  have hsize := h.readSize (some 64) (by omega) (by simpa using hlim)
  simp only [readName, hsize, h.advance.readBuffer, InputBufferAdapter.advance_advance]

/-- The number of children, to which the vector is resized. -/
theorem readContentsSize_eq {size : Nat} (hlim : size ≤ maxFileCapacity)
    (h : d.adapter.Ready (sizeBytes size ++ rest)) :
    d.readContentsSize obj
      = (size, { d with adapter := d.adapter.advance (sizeBytes size).length }.update obj
          fun c => { c with
            contents :=
              c.contents.take size ++ List.replicate (size - c.contents.length) none }) := by
  have hsize := h.readSize (some maxFileCapacity)
    (by unfold maxFileCapacity at hlim; omega) (by simpa using hlim)
  simp only [readContentsSize, hsize]

end Deserializer

/-- Reading a header: the fields are those written, and the children are resized. -/
theorem deserialize_header {d : Deserializer} {obj : Nat} {c c₀ : FileContent} {rest : Bytes}
    (hlim : c.WithinLimits) (hget : d.heap[obj]? = some c₀) (hfresh : c₀.contents = [])
    (hready : d.adapter.Ready (headerBytes c ++ rest)) :
    ∃ d', (((d.readType obj).readIpv4 obj).readName obj).readContentsSize obj
        = (c.contents.length, d') ∧
      d'.adapter.Ready rest ∧ d'.ctx = d.ctx ∧ d'.heap.length = d.heap.length ∧
      d'.heap[obj]? = some { c with contents := List.replicate c.contents.length none } ∧
      ∀ a, a ≠ obj → d'.heap[a]? = d.heap[a]? := by
  simp only [headerBytes, List.append_assoc] at hready
  have hip := hready.advance
  have hname := hip.advance
  have hcontents := (InputBufferAdapter.Ready.advance hname).advance
  rw [InputBufferAdapter.advance_advance] at hcontents
  have hrest := hcontents.advance
  rw [Deserializer.readType_eq hready, Deserializer.readIpv4_eq hip,
    Deserializer.readName_eq hlim.name hname,
    Deserializer.readContentsSize_eq hlim.contents hcontents]
  refine ⟨_, rfl, hrest, rfl, by simp [Deserializer.update], ?_, fun a ha => ?_⟩
  · simp [Deserializer.update, hget, hfresh]
  · simp [Deserializer.update, ha.symm]

/-! ## One child

What `ext` does on each form of a pointer id. -/

namespace Deserializer

variable {fnc : Nat → Deserializer → Option Deserializer} {d : Deserializer} {obj : Nat}
  {i : Nat} {rest : Bytes}

/-- A zero in the place of an id: the slot is null. -/
theorem ext_null (h : d.adapter.Ready (sizeBytes 0 ++ rest)) :
    ext fnc obj d i
      = some ({ d with adapter := d.adapter.advance (sizeBytes 0).length }.setPtr obj i none) := by
  simp [ext, h.readSize none (by decide) (by simp)]

/-- An id that was met before: the slot shares the object. -/
theorem ext_seen {id ptr : Nat} (hid : id + 1 < 2 ^ 30)
    (hshared : d.ctx.sharedState (id + 1) = some ptr)
    (h : d.adapter.Ready (sizeBytes (id + 1) ++ rest)) :
    ext fnc obj d i
      = some ({ d with adapter := d.adapter.advance (sizeBytes (id + 1)).length }.setPtr obj i
          (some ptr)) := by
  simp [ext, h.readSize none hid (by simp), hshared]

/-- A new id in an empty slot: an object is created and read. -/
theorem ext_first {id : Nat} (hid : id + 1 < 2 ^ 30) (hshared : d.ctx.sharedState (id + 1) = none)
    (hslot : d.getPtr obj i = none) (h : d.adapter.Ready (sizeBytes (id + 1) ++ rest)) :
    ext fnc obj d i
      = (fnc d.heap.length ({ d with
          adapter := d.adapter.advance (sizeBytes (id + 1)).length }.createShared obj i
            (id + 1))).map (·.setPtr obj i (some d.heap.length)) := by
  have hslot' : getPtr { d with adapter := d.adapter.advance (sizeBytes (id + 1)).length } obj i
      = none := hslot
  simp [ext, h.readSize none hid (by simp), hshared, hslot']

end Deserializer

/-! ## The children -/

/-- The reader is between two children of a graph whose new objects go to `base` and up: the
pointers `vs` are numbered, and `rest` is left to read. -/
structure Reading (d : Deserializer) (base : Nat) (vs : List Nat) (rest : Bytes) : Prop where
  ready : d.adapter.Ready rest
  linked : Linked d.ctx base vs.length
  length : d.heap.length = base + vs.length

/-- From `heap` to `heap'` only the object at `obj` changed and the objects numbered from `n`
to `n'` (in the final numbering `V`) were added, each a copy of the original renamed by `φ`. -/
structure Rebuilt (h : Heap) (V : List Nat) (φ : Nat → Nat) (base : Nat) (obj : Nat)
    (n n' : Nat) (heap heap' : Heap) : Prop where
  frame : ∀ a, a < base + n → a ≠ obj → heap'[a]? = heap[a]?
  created : ∀ i a c, n ≤ i → i < n' → V[i]? = some a → h[a]? = some c →
    heap'[base + i]? = some (c.rename φ)

/-- The slots are filled from the front. -/
theorem set_next_slot (filled : List (Option Nat)) (m : Nat) (ptr : Option Nat) :
    (filled ++ List.replicate (m + 1) none).set filled.length ptr
      = (filled ++ [ptr]) ++ List.replicate m none := by
  rw [List.replicate_succ, List.set_append_right _ _ (Nat.le_refl _), Nat.sub_self,
    List.set_cons_zero, List.append_assoc]
  rfl

theorem setPtr_next {d : Deserializer} {obj m : Nat} {node : FileContent}
    {filled : List (Option Nat)} (ptr : Option Nat)
    (hobj : d.heap[obj]? = some { node with contents := filled ++ List.replicate (m + 1) none }) :
    (d.setPtr obj filled.length ptr).heap[obj]?
      = some { node with contents := (filled ++ [ptr]) ++ List.replicate m none } := by
  rw [Deserializer.setPtr, Deserializer.update_self hobj, set_next_slot]

section Read

variable {h : Heap} {V : List Nat} {φ : Nat → Nat} {base : Nat}

/-- Filling a slot does not move the reader. -/
theorem Reading.setPtr {d : Deserializer} {vs : List Nat} {rest : Bytes} (obj i : Nat)
    (ptr : Option Nat) (hr : Reading d base vs rest) :
    Reading (d.setPtr obj i ptr) base vs rest :=
  ⟨hr.ready, hr.linked, by rw [Deserializer.setPtr, Deserializer.update_length, hr.length]⟩

/-- The reader is past what it has read. -/
theorem Reading.advance {d : Deserializer} {vs : List Nat} {bs rest : Bytes}
    (hr : Reading d base vs (bs ++ rest)) :
    Reading { d with adapter := d.adapter.advance bs.length } base vs rest :=
  ⟨hr.ready.advance, hr.linked, hr.length⟩

/-- A new object is linked to the next id. -/
theorem Reading.createShared {d : Deserializer} {vs : List Nat} {rest : Bytes} (obj i ptr : Nat)
    (hr : Reading d base vs rest) :
    Reading (d.createShared obj i (vs.length + 1)) base (vs ++ [ptr]) rest := by
  refine ⟨hr.ready, ?_, ?_⟩
  · rw [List.length_append, List.length_singleton, Deserializer.createShared, hr.length]
    exact hr.linked.save
  · simp [Deserializer.createShared, Deserializer.setPtr, hr.length]
    omega

/-- What happened to the slots of `obj` before does not show in the frame. -/
theorem Rebuilt.of_setPtr {d : Deserializer} {heap' : Heap} {obj i n n' : Nat} {ptr : Option Nat}
    (hb : Rebuilt h V φ base obj n n' (d.setPtr obj i ptr).heap heap') :
    Rebuilt h V φ base obj n n' d.heap heap' :=
  ⟨fun a ha hne => by rw [hb.frame a ha hne, Deserializer.setPtr, Deserializer.update_ne hne],
    hb.created⟩

/-- A new object at the end of the heap leaves the other objects alone, apart from `obj`. -/
theorem createShared_frame {d : Deserializer} {obj i id a : Nat} (ha : a < d.heap.length)
    (hne : a ≠ obj) : (d.createShared obj i id).heap[a]? = d.heap[a]? := by
  rw [Deserializer.createShared, Deserializer.setPtr]
  show (Deserializer.update _ obj _).heap[a]? = _
  rw [Deserializer.update_ne hne]
  exact List.getElem?_append_left ha

/-- The new object is behind all others. -/
theorem createShared_new {d : Deserializer} {obj i id : Nat} (hne : d.heap.length ≠ obj) :
    (d.createShared obj i id).heap[d.heap.length]? = some FileContent.new := by
  rw [Deserializer.createShared, Deserializer.setPtr]
  show (Deserializer.update _ obj _).heap[d.heap.length]? = _
  rw [Deserializer.update_ne hne]
  exact List.getElem?_concat_length

theorem createShared_obj {d : Deserializer} {obj : Nat} (i id : Nat) {c : FileContent}
    (hobj : d.heap[obj]? = some c) :
    (d.createShared obj i id).heap[obj]?
      = some { c with contents := c.contents.set i (some d.heap.length) } := by
  rw [Deserializer.createShared, Deserializer.setPtr]
  show (Deserializer.update _ obj _).heap[obj]? = _
  rw [Deserializer.update_self]
  rw [List.getElem?_append_left (List.getElem?_eq_some_iff.mp hobj).1, hobj]

/-- The first visit of an object, in the slot that comes next: the object is created, the slot
holds it, and its header is read. -/
theorem read_created {d : Deserializer} {vs : List Nat} {rest : Bytes} {obj m : Nat}
    {c node : FileContent} {filled : List (Option Nat)} (ptr : Nat) (hlim : c.WithinLimits)
    (hr : Reading d base vs (sizeBytes (vs.length + 1) ++ (headerBytes c ++ rest)))
    (hlt : obj < base + vs.length)
    (hobj : d.heap[obj]? = some { node with contents := filled ++ List.replicate (m + 1) none }) :
    let d₁ := { d with
      adapter := d.adapter.advance (sizeBytes (vs.length + 1)).length }.createShared obj
        filled.length (vs.length + 1)
    let new := d.heap.length
    ∃ d₂, (((d₁.readType new).readIpv4 new).readName new).readContentsSize new
        = (c.contents.length, d₂) ∧
      Reading d₂ base (vs ++ [ptr]) rest ∧
      d₂.heap[new]? = some { c with contents := List.replicate c.contents.length none } ∧
      d₂.heap[obj]? = some { node with
        contents := (filled ++ [some new]) ++ List.replicate m none } ∧
      ∀ a, a < new → a ≠ obj → d₂.heap[a]? = d.heap[a]? := by
  intro d₁ new
  have hne : new ≠ obj := by
    have := hr.length
    omega
  have hr₁ : Reading d₁ base (vs ++ [ptr]) (headerBytes c ++ rest) :=
    hr.advance.createShared obj filled.length ptr
  have hnew₁ : d₁.heap[new]? = some FileContent.new := createShared_new hne
  have hobj₁ : d₁.heap[obj]? = some { node with
      contents := (filled ++ [some new]) ++ List.replicate m none } := by
    refine (createShared_obj (d := { d with adapter := _ }) filled.length (vs.length + 1)
      hobj).trans ?_
    rw [set_next_slot]
  obtain ⟨d₂, hrun, hready, hctx, hlen, hnew₂, hframe⟩ :=
    deserialize_header hlim hnew₁ rfl hr₁.ready
  refine ⟨d₂, hrun, ⟨hready, hctx ▸ hr₁.linked, by rw [hlen, hr₁.length]⟩, hnew₂, ?_, ?_⟩
  · rw [hframe obj hne.symm, hobj₁]
  · intro a ha haobj
    rw [hframe a (by omega)]
    exact createShared_frame ha haobj

/-- What is rebuilt on a first visit: the object itself, what is new below it, and what is new
behind it. -/
theorem Rebuilt.first {heap heap₂ heap₃ heap' : Heap} {obj n n₁ n' ptr : Nat} {c : FileContent}
    (hV : V[n]? = some ptr) (hget : h[ptr]? = some c) (hlt : obj < base + n) (hn₁ : n < n₁)
    (hframe : ∀ a, a < base + n → a ≠ obj → heap₂[a]? = heap[a]?)
    (hnew : heap₃[base + n]? = some (c.rename φ))
    (hchild : Rebuilt h V φ base (base + n) (n + 1) n₁ heap₂ heap₃)
    (hrest : Rebuilt h V φ base obj n₁ n' heap₃ heap') :
    Rebuilt h V φ base obj n n' heap heap' := by
  refine ⟨fun a ha hne => ?_, fun i a c' hi hi' hVi hget' => ?_⟩
  · rw [hrest.frame a (by omega) hne, hchild.frame a (by omega) (by omega), hframe a ha hne]
  · by_cases hlate : n₁ ≤ i
    · exact hrest.created i a c' hlate hi' hVi hget'
    rw [hrest.frame (base + i) (by omega) (by omega)]
    -- the object itself, or one of those below it
    by_cases hself : i = n
    · subst hself
      rw [hV] at hVi
      cases hVi
      rw [hget] at hget'
      cases hget'
      exact hnew
    · exact hchild.created i a c' (by omega) (by omega) hVi hget'

/-- **Reading the children.** The reader follows the derivation: the slots of `obj` from
`filled` on receive the renamed children, and every object the derivation numbers is rebuilt
at its place. One case per constructor of the format. -/
theorem SlotsFormat.read {vs vs' : List Nat} {its : List (Option Nat)} {bs : Bytes}
    (hf : SlotsFormat h vs its bs vs') (hlen : V.length < 2 ^ 30)
    (hlim : ∀ ptr ∈ V, ∀ c, h[ptr]? = some c → c.WithinLimits)
    (hφ : ∀ i a, V[i]? = some a → φ a = base + i) :
    vs' <+: V → ∀ (fuel : Nat) (d : Deserializer) (rest : Bytes) (obj : Nat)
      (node : FileContent) (filled : List (Option Nat)),
      bs.length ≤ fuel → Reading d base vs (bs ++ rest) → obj < base + vs.length →
      d.heap[obj]? = some { node with contents := filled ++ List.replicate its.length none } →
      ∃ d', (List.range' filled.length its.length).foldlM
          (Deserializer.ext (deserialize fuel) obj) d = some d' ∧
        Reading d' base vs' rest ∧
        d'.heap[obj]? = some { node with contents := filled ++ its.map (Option.map φ) } ∧
        Rebuilt h V φ base obj vs.length vs'.length d.heap d'.heap := by
  induction hf with
  | nil vs =>
    intro _ fuel d rest obj node filled _ hreading _ hobj
    refine ⟨d, rfl, hreading, by simpa using hobj, fun _ _ _ => rfl, ?_⟩
    exact fun i a c h1 h2 => absurd h1 (by omega)
  | @null vs vs' its bs _ ih =>
    intro hV fuel d rest obj node filled hfuel hreading hlt hobj
    rw [List.length_append] at hfuel
    rw [List.append_assoc] at hreading
    have hnext := setPtr_next none hobj
    obtain ⟨d', hrun, hreading', hobj', hrebuilt⟩ := ih hV fuel _ rest obj node (filled ++ [none])
      (by omega) (hreading.advance.setPtr obj filled.length none) hlt hnext
    refine ⟨d', ?_, hreading', by simpa using hobj', hrebuilt.of_setPtr⟩
    rw [List.length_cons, List.range'_succ, List.foldlM_cons,
      Deserializer.ext_null hreading.ready]
    simpa using hrun
  | @seen vs vs' its bs ptr hmem rest₁ ih =>
    intro hV fuel d rest obj node filled hfuel hreading hlt hobj
    rw [List.length_append] at hfuel
    rw [List.append_assoc] at hreading
    -- the id read names the copy of `ptr`
    have hidx := List.idxOf_lt_length_of_mem hmem
    have hvs : vs <+: V := rest₁.grows.trans hV
    have hVidx : V[vs.idxOf ptr]? = some ptr := by
      rw [List.prefix_iff_getElem?.mp hvs _ hidx, List.getElem_idxOf]
    have hshared : d.ctx.sharedState (vs.idxOf ptr + 1) = some (φ ptr) := by
      rw [hreading.linked, if_pos hidx, hφ _ _ hVidx]
    have hVlen := hvs.length_le
    have hnext := setPtr_next (some (φ ptr)) hobj
    obtain ⟨d', hrun, hreading', hobj', hrebuilt⟩ := ih hV fuel _ rest obj node
      (filled ++ [some (φ ptr)]) (by omega)
      (hreading.advance.setPtr obj filled.length (some (φ ptr))) hlt hnext
    refine ⟨d', ?_, hreading', by simpa using hobj', hrebuilt.of_setPtr⟩
    rw [List.length_cons, List.range'_succ, List.foldlM_cons,
      Deserializer.ext_seen (by omega) hshared hreading.ready]
    simpa using hrun
  | @first vs vs₁ vs' its bs₁ bs ptr c hnew hget child rest₁ ih₁ ih =>
    intro hV fuel d rest obj node filled hfuel hreading hlt hobj
    have hV₁ : vs₁ <+: V := rest₁.grows.trans hV
    have hvs₁ := child.grows.length_le
    have hvs' := rest₁.grows.length_le
    have hVlen := hV.length_le
    have hlen := hreading.length
    rw [List.length_append, List.length_singleton] at hvs₁
    have hVptr : V[vs.length]? = some ptr := by
      rw [List.prefix_iff_getElem?.mp (child.grows.trans hV₁) _ (by simp)]
      simp
    have hφptr : φ ptr = d.heap.length := by rw [hφ _ _ hVptr, hlen]
    have hptrV : ptr ∈ V := hV₁.subset (child.grows.subset (by simp))
    have hheader := headerBytes_length c
    simp only [List.length_append] at hfuel
    obtain ⟨k, rfl⟩ : ∃ k, fuel = k + 1 := ⟨fuel - 1, by omega⟩
    simp only [List.append_assoc] at hreading
    -- the id is new and the slot empty: an object is created for it and its header is read
    have hshared : d.ctx.sharedState (vs.length + 1) = none := by
      rw [hreading.linked, if_neg (Nat.lt_irrefl _)]
    have hslot : d.getPtr obj filled.length = none := by
      simp [Deserializer.getPtr, hobj]
    obtain ⟨d₂, hrun₂, hr₂, hnew₂, hobj₂, hframe₂⟩ :=
      read_created ptr (hlim ptr hptrV c hget) hreading hlt hobj
    -- then its children
    obtain ⟨d₃, hrun₃, hr₃, hnew₃, hb₃⟩ := ih₁ hV₁ k d₂ (bs ++ rest) d.heap.length c []
      (by omega) hr₂ (by rw [hlen, List.length_append, List.length_singleton]; omega) hnew₂
    rw [List.length_append, List.length_singleton, hlen] at hb₃
    have hobj₃ : d₃.heap[obj]? = some { node with
        contents := (filled ++ [some d.heap.length]) ++ List.replicate its.length none } := by
      rw [hb₃.frame obj (by omega) (by omega), hobj₂]
    -- and the slot is assigned once more, from the shared state
    have hobj₄ : (d₃.setPtr obj filled.length (some d.heap.length)).heap[obj]? = some { node with
        contents := (filled ++ [some d.heap.length]) ++ List.replicate its.length none } := by
      rw [Deserializer.setPtr, Deserializer.update_self hobj₃]
      simp
    obtain ⟨d', hrun, hreading', hobj', hb⟩ := ih hV (k + 1) _ rest obj node
      (filled ++ [some d.heap.length]) (by omega)
      (hr₃.setPtr obj filled.length (some d.heap.length)) (by omega) hobj₄
    refine ⟨d', ?_, hreading', by simpa [hφptr] using hobj', ?_⟩
    · rw [List.length_cons, List.range'_succ, List.foldlM_cons,
        Deserializer.ext_first (by omega) hshared hslot hreading.ready, deserialize]
      simp only [hrun₂, List.range_eq_range']
      rw [List.length_nil] at hrun₃
      rw [hrun₃]
      simpa using hrun
    · rw [hlen] at hnew₃ hframe₂
      exact Rebuilt.first hVptr hget hlt (by omega) hframe₂ hnew₃ hb₃ hb.of_setPtr

end Read

/-! ## The round trip -/

/-- The node as a fresh object has it: no name, no children, and a type that nothing has
initialised. -/
def FileContent.fresh (type : FileType) : FileContent := { type }

/-- Everything reachable from the root is the root or has been numbered. -/
theorem mem_numbering_of_reaches {h : Heap} {r a : Nat} {c : FileContent} {bs : Bytes}
    {V : List Nat} (hget : h[r]? = some c) (hf : SlotsFormat h [] c.contents bs V)
    (ha : h.Reaches r a) : a = r ∨ a ∈ V := by
  induction ha with
  | refl => exact Or.inl rfl
  | @tail b a _ hpoints ih =>
    obtain ⟨cb, hcb, hmem⟩ := hpoints
    have hmem := FileContent.mem_children.mp hmem
    right
    rcases ih with rfl | hb
    · rw [hget] at hcb
      cases hcb
      exact hf.covers.1 a hmem
    · exact hf.covers.2 b hb (by simp) cb hcb a hmem

/-- What is numbered lies below the root. -/
theorem below_of_mem_numbering {h : Heap} {r a : Nat} {c : FileContent} {bs : Bytes}
    {V : List Nat} (hget : h[r]? = some c) (hf : SlotsFormat h [] c.contents bs V) (ha : a ∈ V) :
    Relation.TransGen h.Points r a := by
  rcases hf.reaches a ha with hin | ⟨_, ptr, hptr, hreach⟩
  · exact absurd hin (by simp)
  · exact Relation.TransGen.head' ⟨c, hget, FileContent.mem_children.mpr hptr⟩ hreach

/-- The address of the copy of `a`, when the objects numbered by `V` go to `base` and up. -/
def newName (V : List Nat) (base content a : Nat) : Nat :=
  if a ∈ V then base + V.idxOf a else content

/-- Numbered objects go behind the old heap, in the order of the numbering. -/
theorem newName_of_getElem? {V : List Nat} {i a : Nat} (hnodup : V.Nodup) (base content : Nat)
    (hi : V[i]? = some a) : newName V base content a = base + i := by
  obtain ⟨hlt, rfl⟩ := List.getElem?_eq_some_iff.mp hi
  simp [newName, hnodup.idxOf_getElem]

/-- The root goes into the object that is given. -/
theorem newName_of_notMem {V : List Nat} {a : Nat} (base content : Nat) (ha : a ∉ V) :
    newName V base content a = content := by
  rw [newName, if_neg ha]

/-- A root and the objects below it, rebuilt as renamed copies, are an isomorphic graph. -/
theorem relocation_of_rebuilt {h heap heap' : Heap} {r content : Nat} {c : FileContent}
    {bs : Bytes} {V : List Nat} (hget : h[r]? = some c) (hf : SlotsFormat h [] c.contents bs V)
    (hroot : r ∉ V) (hcontent : content < heap.length)
    (hobj : heap'[content]? = some (c.rename (newName V heap.length content)))
    (hb : Rebuilt h V (newName V heap.length content) heap.length content 0 V.length heap heap') :
    h.Relocation r heap' content (newName V heap.length content) := by
  have hr := newName_of_notMem heap.length content hroot
  have hnumbered : ∀ a ∈ V, newName V heap.length content a = heap.length + V.idxOf a :=
    fun a ha => if_pos ha
  refine ⟨hr, fun a c' hreach hc' => ?_, fun a b ha hb' hab => ?_⟩
  · rcases mem_numbering_of_reaches hget hf hreach with rfl | haV
    · rw [hget] at hc'
      cases hc'
      rw [hr, hobj]
    · have hidx := List.idxOf_lt_length_of_mem haV
      rw [hnumbered a haV]
      exact hb.created _ a c' (Nat.zero_le _) hidx (by simp [hidx]) hc'
  · -- the root is not numbered, and numbers are distinct
    rcases mem_numbering_of_reaches hget hf ha with rfl | haV <;>
      rcases mem_numbering_of_reaches hget hf hb' with rfl | hbV
    · rfl
    · rw [hr, hnumbered b hbV] at hab
      omega
    · rw [hr, hnumbered a haV] at hab
      omega
    · rw [hnumbered a haV, hnumbered b hbV] at hab
      exact (List.idxOf_inj haV).mp (by omega)

/-- `headerBytes c ++ bs` is the encoding of the graph below `r`, whose root holds `c`, and the
graph keeps to what the reader accepts. -/
structure Encodes (h : Heap) (r : Nat) (c : FileContent) (bs : Bytes) (V : List Nat) : Prop where
  get : h[r]? = some c
  format : SlotsFormat h [] c.contents bs V
  root : r ∉ V
  count : V.length < 2 ^ 30
  limits : ∀ ptr ∈ V, ∀ c, h[ptr]? = some c → c.WithinLimits
  limitsRoot : c.WithinLimits

/-- What the writer does with an acyclic graph within the limits, whose encoding is short. -/
theorem serializeLocalFS_encodes {h : Heap} {r : Nat} (hacyc : h.Acyclic r)
    (hlim : ∀ a c, h.Reaches r a → h[a]? = some c → c.WithinLimits)
    (hlen : ∀ ser, serializeObject h r = some ser → ser.adapter.bytes.length < 2 ^ 32) :
    ∃ ser c bs V, serializeObject h r = some ser ∧ ser.adapter.assertsHold = true ∧
      serializeLocalFS h r = some (headerBytes c ++ bs) ∧ Encodes h r c bs V := by
  have hrlt := hacyc.closed r (PointerGraph.Reaches.refl r)
  obtain ⟨c, hget⟩ : ∃ c, h[r]? = some c := ⟨_, List.getElem?_eq_getElem hrlt⟩
  obtain ⟨ser, bs, V, hser, hf, hc⟩ := serializeObject_eq hacyc.closed hget
  -- the numbering: distinct objects below the root, fewer than `2 ^ 30`
  have hroot : r ∉ V := fun hin =>
    hacyc.acyclic r (PointerGraph.Reaches.refl r) (below_of_mem_numbering hget hf hin)
  have hbytes : ser.adapter.bytes = headerBytes c ++ bs := by
    rw [hc.bytes, Serializer.header_bytes]
    rfl
  have hlen32 := hlen ser hser
  have hcount : V.length < 2 ^ 30 := by
    have := hf.length_le
    rw [hbytes, List.length_append] at hlen32
    rw [List.length_nil] at this
    omega
  have hlimV : ∀ ptr ∈ V, ∀ c, h[ptr]? = some c → c.WithinLimits := fun ptr hptr c' hc' =>
    hlim ptr c' (below_of_mem_numbering hget hf hptr).to_reflTransGen hc'
  have hlimc : c.WithinLimits := hlim r c (PointerGraph.Reaches.refl r) hget
  refine ⟨ser, c, bs, V, hser, ?_, ?_, ⟨hget, hf, hroot, hcount, hlimV, hlimc⟩⟩
  · rw [hc.asserts hcount hlimV, Serializer.header_assertsHold _ hlimc]
  · rw [serializeLocalFS, hser, Option.map_some, UInt32.toNat_ofNat',
      Nat.mod_eq_of_lt hlen32, List.take_length, hbytes]

/-- What the reader does with an encoding: it accepts it and rebuilds the graph. -/
theorem Encodes.accepted {h : Heap} {r : Nat} {c : FileContent} {bs : Bytes} {V : List Nat}
    (he : Encodes h r c bs V) {heap : Heap} {content : Nat} {type : FileType}
    (hfresh : heap[content]? = some (FileContent.fresh type)) :
    ∃ heap', deserializeToFileContent (headerBytes c ++ bs) heap content = some (true, heap') ∧
      h.Relocation r heap' content (newName V heap.length content) ∧
      ∀ a, a < heap.length → a ≠ content → heap'[a]? = heap[a]? := by
  have hnodup := he.format.nodup List.nodup_nil
  have hcontent : content < heap.length := (List.getElem?_eq_some_iff.mp hfresh).1
  have hφ : ∀ i a, V[i]? = some a → newName V heap.length content a = heap.length + i :=
    fun i a hi => newName_of_getElem? hnodup heap.length content hi
  let d : Deserializer := { adapter := .ofData (headerBytes c ++ bs), heap }
  have hready : d.adapter.Ready (headerBytes c ++ (bs ++ [])) := by
    rw [List.append_nil]
    exact InputBufferAdapter.ready_ofData _
  obtain ⟨d₁, hrun₁, hready₁, hctx₁, hlen₁, hobj₁, hframe₁⟩ :=
    deserialize_header he.limitsRoot hfresh rfl hready
  obtain ⟨d₂, hrun₂, hr₂, hobj₂, hb₂⟩ := he.format.read he.count he.limits hφ List.prefix_rfl
    (headerBytes c ++ bs).length d₁ [] content c [] (by simp)
    ⟨hready₁, hctx₁ ▸ linked_zero heap.length, by simpa using hlen₁⟩ (by simpa using hcontent)
    hobj₁
  have hdes : deserializeToFileContent (headerBytes c ++ bs) heap content
      = some (true, d₂.heap) := by
    rw [deserializeToFileContent, deserialize]
    simp only [d] at hrun₁
    simp only [hrun₁, List.range_eq_range']
    rw [List.length_nil] at hrun₂
    rw [hrun₂]
    simp [hr₂.ready.completed]
  -- what was there before the children is framed by the header
  have hframe : ∀ a, a < heap.length → a ≠ content → d₂.heap[a]? = heap[a]? := fun a ha hne => by
    rw [hb₂.frame a (by simpa using ha) hne, hframe₁ a hne]
  have hrebuilt : Rebuilt h V (newName V heap.length content) heap.length content 0 V.length heap
      d₂.heap := ⟨hframe, hb₂.created⟩
  exact ⟨d₂.heap, hdes, relocation_of_rebuilt he.get he.format he.root hcontent hobj₂ hrebuilt,
    hframe⟩

/-- **Serialization round trip.** For a finite acyclic graph within the limits, whose encoding
is shorter than `2 ^ 32` bytes, `SerializeLocalFS` succeeds without a failed assertion, and
`DeserializeToFileContent` into a fresh object accepts its result and rebuilds an isomorphic
graph there. -/
theorem deserialize_serializeLocalFS (h : Heap) (localFS : Nat) (hacyc : h.Acyclic localFS)
    (hlim : ∀ a c, h.Reaches localFS a → h[a]? = some c → c.WithinLimits)
    (hlen : ∀ ser, serializeObject h localFS = some ser → ser.adapter.bytes.length < 2 ^ 32)
    (heap : Heap) (content : Nat) (type : FileType)
    (hfresh : heap[content]? = some (FileContent.fresh type)) :
    ∃ ser data heap' φ,
      serializeObject h localFS = some ser ∧ ser.adapter.assertsHold = true ∧
      serializeLocalFS h localFS = some data ∧
      deserializeToFileContent data heap content = some (true, heap') ∧
      h.Relocation localFS heap' content φ ∧
      ∀ a, a < heap.length → a ≠ content → heap'[a]? = heap[a]? := by
  obtain ⟨ser, c, bs, V, hser, hasserts, hdata, he⟩ := serializeLocalFS_encodes hacyc hlim hlen
  obtain ⟨heap', hdes, hcopy, hframe⟩ := he.accepted hfresh
  exact ⟨ser, _, heap', _, hser, hasserts, hdata, hdes, hcopy, hframe⟩

/-- A directory that holds one directory twice, with a null slot between and a shared file. -/
def sharedGraph : Heap :=
  [{ type := FileType.directory, name := [67], contents := [some 1, none, some 1, some 2] },
   { type := FileType.directory, networkNode.ipv4 := ⟨10, 0, 0, 7⟩, name := [97],
     contents := [some 2] },
   { type := 0xBEEF, networkNode.ipv4 := ⟨127, 0, 0, 1⟩, name := [0, 255] }]

theorem sharedGraph_acyclic : sharedGraph.Acyclic 0 :=
  Heap.acyclic_of_forward (by decide) (by decide)

theorem sharedGraph_withinLimits :
    ∀ a c, sharedGraph.Reaches 0 a → sharedGraph[a]? = some c → c.WithinLimits := by
  intro a c _ hc
  have hall : ∀ c ∈ sharedGraph, c.name.length ≤ 64 ∧ c.contents.length ≤ maxFileCapacity := by
    decide
  exact ⟨(hall c (List.mem_of_getElem? hc)).1, (hall c (List.mem_of_getElem? hc)).2⟩

theorem sharedGraph_short :
    ∀ ser, serializeObject sharedGraph 0 = some ser → ser.adapter.bytes.length < 2 ^ 32 := by
  intro ser hser
  have hsize : (serializeObject sharedGraph 0).all
      (fun ser => decide (ser.adapter.bytes.length < 2 ^ 32)) = true := by decide
  rw [hser] at hsize
  simpa using hsize

theorem deserialize_serializeLocalFS_sharedGraph :
    ∃ ser data heap' φ,
      serializeObject sharedGraph 0 = some ser ∧ ser.adapter.assertsHold = true ∧
      serializeLocalFS sharedGraph 0 = some data ∧
      deserializeToFileContent data [FileContent.new, FileContent.fresh 7] 1 = some (true, heap') ∧
      sharedGraph.Relocation 0 heap' 1 φ ∧
      ∀ a, a < 2 → a ≠ 1 → heap'[a]? = [FileContent.new, FileContent.fresh 7][a]? :=
  deserialize_serializeLocalFS sharedGraph 0 sharedGraph_acyclic sharedGraph_withinLimits
    sharedGraph_short [FileContent.new, FileContent.fresh 7] 1 7 rfl

end Guthi
