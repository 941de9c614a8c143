import Guthi.Filesystem.Consumers
import Guthi.Filesystem.Unfolding

/-!
# Guthi — decoding into an object that is in use

`DeserializeToFileContent` takes the object to decode into from its caller. A child whose slot
holds an object already is read over it, and so are the children below. An object that is shared
can be read over while a loop goes through its children: its vector is resized then, and the
iterators of the loop are not valid any more.

* `deserializeWithin`, `deserializeOver` — the reader that stops where this happens;
* `deserialize_sameReading` — what is read, and whether an error is recorded, does not depend on
  the objects that are read into;
* `Slots.readOver` — the objects that are read over, found by walking the old graph beside the
  input;
* `Parses.reread` — if these are pairwise different, no iterator is lost, and every node ends up in
  an object of its own;
* `deserialize_over` — so the result unfolds to what a fresh object would have.
-/

namespace Guthi

open Bitsery PointerGraph

/-! ## The loops that a reader is in -/

/-- `deserialize` with the objects `walked` whose children a loop is going through. To read over one
of them resizes its vector under the iterators of that loop; the run ends there. -/
def deserializeWithin : Nat → List Addr → Addr → Deserializer → Option Deserializer
  | 0, _, _, _ => none
  | fuel + 1, walked, obj, d =>
    if walked.contains obj then none
    else
      let d := ((d.readType obj).readIpv4 obj).readName obj
      let (size, d) := d.readContentsSize obj
      (List.range size).foldlM (Deserializer.ext (deserializeWithin fuel (obj :: walked)) obj) d

/-- `NetworkFS::DeserializeToFileContent(data, content)` on an object that may be in use; `none` if
an iterator is lost. -/
def deserializeOver (data : Bytes) (heap : Heap) (content : Addr) : Option (Bool × Heap) :=
  (deserializeWithin (data.length + 1) [] content { adapter := .ofData data, heap }).map fun des =>
    (des.adapter.noError && des.adapter.isCompletedSuccessfully, des.heap)

/-- One level of the recursion, into an object that no loop is in. -/
theorem deserializeWithin_succ {walked : List Addr} {obj : Addr} (hobj : obj ∉ walked)
    (fuel : Nat) (d : Deserializer) : deserializeWithin (fuel + 1) walked obj d =
      (List.range (d.readHeader obj).1).foldlM
        (Deserializer.ext (deserializeWithin fuel (obj :: walked)) obj) (d.readHeader obj).2 := by
  rw [deserializeWithin, if_neg (by simpa using hobj), Deserializer.readHeader]

/-- A child is read the same way by a reader that goes on where the other one does. -/
theorem Deserializer.ext_mono {fnc fnc' : Nat → Deserializer → Option Deserializer}
    (hfnc : ∀ obj d d', fnc obj d = some d' → fnc' obj d = some d') {obj i : Nat}
    {d d' : Deserializer} (h : ext fnc obj d i = some d') : ext fnc' obj d i = some d' := by
  rw [ext_apply, extWithId] at h ⊢
  split_ifs at h ⊢ with hid
  · -- the id was met, the slot holds an object, or one is created
    split at h
    · exact h
    · split at h
      · obtain ⟨d₁, hrun, heq⟩ := Option.map_eq_some_iff.mp h
        rw [hfnc _ _ _ hrun, ← heq]
        rfl
      · obtain ⟨d₁, hrun, heq⟩ := Option.map_eq_some_iff.mp h
        rw [hfnc _ _ _ hrun, ← heq]
        rfl
  · exact h

/-- A reader that loses no iterator does what `deserialize` does. Induction on the fuel. -/
theorem deserialize_of_within {fuel : Nat} {walked : List Addr} {obj : Addr} {d d' : Deserializer}
    (h : deserializeWithin fuel walked obj d = some d') : deserialize fuel obj d = some d' := by
  induction fuel generalizing walked obj d d' with
  | zero => cases h
  | succ fuel ih =>
    have hobj : obj ∉ walked := by
      intro hmem
      rw [deserializeWithin, if_pos (by simpa using hmem)] at h
      cases h
    rw [deserializeWithin_succ hobj] at h
    rw [deserialize_succ]
    revert h
    generalize (d.readHeader obj).2 = d₁
    generalize List.range (d.readHeader obj).1 = is
    intro h
    induction is generalizing d₁ with
    | nil => exact h
    | cons i is ihis =>
      rw [List.foldlM_cons] at h ⊢
      obtain ⟨d₂, hstep, hrest⟩ := Option.bind_eq_some_iff.mp h
      exact Option.bind_eq_some_iff.mpr
        ⟨d₂, Deserializer.ext_mono (fun _ _ _ => ih) hstep, ihis d₂ hrest⟩

/-! ## Two readers of one input -/

/-- Two readers that are at the same place and have met the same ids. -/
structure SameReading (d e : Deserializer) : Prop where
  adapter : e.adapter = d.adapter
  met : ∀ id, (e.ctx.sharedState id).isSome = (d.ctx.sharedState id).isSome

/-- `fnc` reads the same into any two objects. -/
def SameReads (fnc : Nat → Deserializer → Option Deserializer) : Prop :=
  ∀ obj obj' d e d', SameReading d e → fnc obj d = some d' →
    ∃ e', fnc obj' e = some e' ∧ SameReading d' e'

namespace Deserializer

/-- The object that a child with a new id is read into, and the reader that starts on it. -/
def enter (d : Deserializer) (obj i id : Nat) : Addr × Deserializer :=
  match d.getPtr obj i with
  | some ptr => (ptr, { d with ctx := d.ctx.saveToSharedState id ptr })
  | none => (d.heap.length, d.createShared obj i id)

/-- An id that was met: nothing is read. -/
theorem extWithId_met {id ptr : Nat} {d : Deserializer} (hid : id ≠ 0)
    (hmet : d.ctx.sharedState id = some ptr) (fnc : Nat → Deserializer → Option Deserializer)
    (obj i : Nat) : extWithId fnc obj i id d = some (d.setPtr obj i (some ptr)) := by
  rw [extWithId, if_pos hid, hmet]

/-- A new id: the node is read into the object of the slot, or into a new one. -/
theorem extWithId_new {id : Nat} {d : Deserializer} (hid : id ≠ 0)
    (hnew : d.ctx.sharedState id = none) (fnc : Nat → Deserializer → Option Deserializer)
    (obj i : Nat) : extWithId fnc obj i id d =
      (fnc (d.enter obj i id).1 (d.enter obj i id).2).map
        (·.setPtr obj i (some (d.enter obj i id).1)) := by
  rw [extWithId, if_pos hid, hnew, enter]
  cases d.getPtr obj i <;> rfl

/-- Entering an object reads nothing. -/
theorem enter_adapter (d : Deserializer) (obj i id : Nat) :
    (d.enter obj i id).2.adapter = d.adapter := by
  rw [enter]
  cases d.getPtr obj i <;> rfl

/-- The id names the object that was entered. -/
theorem enter_ctx (d : Deserializer) (obj i id : Nat) :
    (d.enter obj i id).2.ctx = d.ctx.saveToSharedState id (d.enter obj i id).1 := by
  rw [enter]
  cases d.getPtr obj i <;> rfl

end Deserializer

namespace SameReading

variable {d e : Deserializer}

/-- Slots are written on both sides, which nobody reads from the input. -/
theorem setPtr (h : SameReading d e) (obj obj' i i' : Nat) (ptr ptr' : Option Nat) :
    SameReading (d.setPtr obj i ptr) (e.setPtr obj' i' ptr') := ⟨h.adapter, h.met⟩

/-- Both enter an object, maybe an old one here and a new one there. -/
theorem enter (h : SameReading d e) (obj obj' i i' id : Nat) :
    SameReading (d.enter obj i id).2 (e.enter obj' i' id).2 := by
  refine ⟨?_, fun id' => ?_⟩
  · rw [Deserializer.enter_adapter, Deserializer.enter_adapter, h.adapter]
  · rw [Deserializer.enter_ctx, Deserializer.enter_ctx, sharedState_save, sharedState_save]
    split_ifs
    · rfl
    · exact h.met id'

/-- A field that was read is written on both sides. -/
theorem update (h : SameReading d e) (adapter : InputBufferAdapter) (obj obj' : Nat)
    (f f' : FileContent → FileContent) :
    SameReading ({ d with adapter }.update obj f) ({ e with adapter }.update obj' f') :=
  ⟨rfl, h.met⟩

/-- The header is read from the same bytes. -/
theorem readType (h : SameReading d e) (obj obj' : Nat) :
    SameReading (d.readType obj) (e.readType obj') := by
  rw [Deserializer.readType_apply, Deserializer.readType_apply, h.adapter]
  exact h.update ..

theorem readIpv4 (h : SameReading d e) (obj obj' : Nat) :
    SameReading (d.readIpv4 obj) (e.readIpv4 obj') := by
  rw [Deserializer.readIpv4_apply, Deserializer.readIpv4_apply, h.adapter]
  exact h.update ..

theorem readName (h : SameReading d e) (obj obj' : Nat) :
    SameReading (d.readName obj) (e.readName obj') := by
  rw [Deserializer.readName_apply, Deserializer.readName_apply, h.adapter]
  exact h.update ..

/-- The number of children is the same, too. -/
theorem readContentsSize (h : SameReading d e) (obj obj' : Nat) :
    (e.readContentsSize obj').1 = (d.readContentsSize obj).1 ∧
      SameReading (d.readContentsSize obj).2 (e.readContentsSize obj').2 := by
  rw [Deserializer.readContentsSize_apply, Deserializer.readContentsSize_apply, h.adapter]
  exact ⟨rfl, h.update ..⟩

theorem readHeader (h : SameReading d e) (obj obj' : Nat) :
    (e.readHeader obj').1 = (d.readHeader obj).1 ∧
      SameReading (d.readHeader obj).2 (e.readHeader obj').2 :=
  (((h.readType obj obj').readIpv4 obj obj').readName obj obj').readContentsSize obj obj'

/-- One child: what is done with its id depends only on whether it was met. -/
theorem ext {fnc : Nat → Deserializer → Option Deserializer} (hfnc : SameReads fnc)
    (h : SameReading d e) {obj i : Nat} {d' : Deserializer}
    (hrun : Deserializer.ext fnc obj d i = some d') (obj' : Nat) :
    ∃ e', Deserializer.ext fnc obj' e i = some e' ∧ SameReading d' e' := by
  rw [Deserializer.ext_apply] at hrun ⊢
  rw [h.adapter]
  generalize (d.adapter.readSize none).1 = id at hrun ⊢
  have h₁ : SameReading { d with adapter := (d.adapter.readSize none).2 }
      { e with adapter := (d.adapter.readSize none).2 } := ⟨rfl, h.met⟩
  revert hrun h₁
  generalize ({ d with adapter := (d.adapter.readSize none).2 } : Deserializer) = d₁
  generalize ({ e with adapter := (d.adapter.readSize none).2 } : Deserializer) = e₁
  intro hrun h₁
  -- null, met before, or new
  by_cases hid : id = 0
  · subst hid
    cases hrun
    exact ⟨_, rfl, h₁.setPtr ..⟩
  · have hmet := h₁.met id
    cases hd : d₁.ctx.sharedState id with
    | some ptr =>
      rw [hd, Option.isSome_some, Option.isSome_iff_exists] at hmet
      obtain ⟨ptr', he⟩ := hmet
      rw [Deserializer.extWithId_met hid hd, Option.some.injEq] at hrun
      subst hrun
      exact ⟨_, Deserializer.extWithId_met hid he fnc obj' i, h₁.setPtr ..⟩
    | none =>
      rw [hd, Option.isSome_none, Option.isSome_eq_false_iff, Option.isNone_iff_eq_none] at hmet
      rw [Deserializer.extWithId_new hid hd] at hrun
      obtain ⟨d₂, hnode, rfl⟩ := Option.map_eq_some_iff.mp hrun
      obtain ⟨e₂, hnode', h₂⟩ :=
        hfnc _ (e₁.enter obj' i id).1 _ _ _ (h₁.enter obj obj' i i id) hnode
      exact ⟨_, by rw [Deserializer.extWithId_new hid hmet, hnode']; rfl, h₂.setPtr ..⟩

theorem foldlM_ext {fnc : Nat → Deserializer → Option Deserializer} (hfnc : SameReads fnc)
    (obj obj' : Nat) (is : List Nat) : ∀ {d e d' : Deserializer}, SameReading d e →
      is.foldlM (Deserializer.ext fnc obj) d = some d' →
      ∃ e', is.foldlM (Deserializer.ext fnc obj') e = some e' ∧ SameReading d' e' := by
  induction is with
  | nil =>
    intro d e d' h hrun
    cases hrun
    exact ⟨e, rfl, h⟩
  | cons i is ih =>
    intro d e d' h hrun
    rw [List.foldlM_cons] at hrun
    obtain ⟨d₁, hstep, hrest⟩ := Option.bind_eq_some_iff.mp hrun
    obtain ⟨e₁, hstep', h₁⟩ := h.ext hfnc hstep obj'
    obtain ⟨e', hrest', h'⟩ := ih h₁ hrest
    refine ⟨e', ?_, h'⟩
    rw [List.foldlM_cons, hstep']
    exact hrest'

end SameReading

/-- **What is read does not depend on what it is read into.** Induction on the fuel. -/
theorem deserialize_sameReading (fuel : Nat) : SameReads (deserialize fuel) := by
  induction fuel with
  | zero => exact fun obj obj' d e d' _ hrun => absurd hrun (by simp [deserialize])
  | succ fuel ih =>
    intro obj obj' d e d' h hrun
    rw [deserialize_succ] at hrun ⊢
    -- the headers announce the same number of children
    obtain ⟨hcount, hheader⟩ := h.readHeader obj obj'
    rw [hcount]
    exact SameReading.foldlM_ext ih obj obj' _ hheader hrun

/-- A reader that agrees with another one where a third comes to an end reads a child as that
other one does. -/
theorem Deserializer.ext_agree {full fnc fnc' : Nat → Deserializer → Option Deserializer}
    (hfnc : ∀ obj d e e', full obj d = some e → fnc' obj d = some e' → fnc obj d = some e')
    {obj i : Nat} {d e e' : Deserializer} (hfull : ext full obj d i = some e)
    (h : ext fnc' obj d i = some e') : ext fnc obj d i = some e' := by
  rw [ext_apply] at hfull h ⊢
  revert hfull h
  generalize (d.adapter.readSize none).1 = id
  generalize ({ d with adapter := (d.adapter.readSize none).2 } : Deserializer) = d₁
  intro hfull h
  by_cases hid : id = 0
  · rw [extWithId, if_neg (not_not.mpr hid)] at h ⊢
    exact h
  · cases hmet : d₁.ctx.sharedState id with
    | some ptr =>
      rw [extWithId_met hid hmet] at h ⊢
      exact h
    | none =>
      rw [extWithId_new hid hmet] at hfull h ⊢
      obtain ⟨d₂, hnode, rfl⟩ := Option.map_eq_some_iff.mp h
      obtain ⟨d₃, hnode', -⟩ := Option.map_eq_some_iff.mp hfull
      rw [hfnc _ _ _ _ hnode' hnode]
      rfl

/-- Where `deserialize` comes to an end, more fuel makes no difference: the reader stops for a lost
iterator only. Induction on the fuel. -/
theorem deserializeWithin_of_fuel {fuel fuel' : Nat} {walked : List Addr} {obj : Addr}
    {d e e' : Deserializer} (hfull : deserialize fuel obj d = some e)
    (h : deserializeWithin fuel' walked obj d = some e') :
    deserializeWithin fuel walked obj d = some e' := by
  induction fuel generalizing fuel' walked obj d e e' with
  | zero => cases hfull
  | succ fuel ih =>
    cases fuel' with
    | zero => cases h
    | succ fuel' =>
      have hobj : obj ∉ walked := by
        intro hmem
        rw [deserializeWithin, if_pos (by simpa using hmem)] at h
        cases h
      rw [deserializeWithin_succ hobj] at h ⊢
      rw [deserialize_succ] at hfull
      revert hfull h
      generalize (d.readHeader obj).2 = d₁
      generalize List.range (d.readHeader obj).1 = is
      intro hfull h
      induction is generalizing d₁ with
      | nil => exact h
      | cons i is ihis =>
        rw [List.foldlM_cons] at hfull h ⊢
        obtain ⟨d₂, hstep, hrest⟩ := Option.bind_eq_some_iff.mp h
        obtain ⟨d₃, hstep', hrest'⟩ := Option.bind_eq_some_iff.mp hfull
        -- both runs have read the same so far
        cases hstep'.symm.trans (Deserializer.ext_mono (fun _ _ _ => deserialize_of_within)
          (Deserializer.ext_agree (fun _ _ _ _ => ih) hstep' hstep))
        exact Option.bind_eq_some_iff.mpr
          ⟨_, Deserializer.ext_agree (fun _ _ _ _ => ih) hstep' hstep, ihis _ hrest' hrest⟩

/-! ## The objects that are read over -/

/-- The slots of the object at `a`. -/
def Heap.entries (h : Heap) (a : Addr) : List (Option Addr) :=
  (h[a]?.map FileContent.contents).getD []

namespace Slots

/-- The objects that the nodes of the list are read over when its slots hold `ps`: the object in
the slot of the node, if there is one, and those that stand below it where the input has nodes
too. -/
def readOver (h : Heap) (ps : List (Option Addr)) : Slots → List Addr
  | nil => []
  | null rest => rest.readOver h ps.tail
  | ref _ rest => rest.readOver h ps.tail
  | node _ _ children rest =>
    match ps.head?.join with
    | some ptr => ptr :: (children.readOver h (h.entries ptr) ++ rest.readOver h ps.tail)
    | none => rest.readOver h ps.tail

/-- The pointers the list becomes, when `place` says where the node of an id is. -/
def placed (place : Nat → Option Addr) : Slots → List (Option Addr)
  | nil => []
  | null rest => none :: rest.placed place
  | ref id rest => place id :: rest.placed place
  | node id _ _ rest => place id :: rest.placed place

variable {h h' : Heap}

/-- A slot that holds an object: the node is read over it, and its children over that object's. -/
theorem readOver_node_some (id : Nat) (hd : Header) (cs rest : Slots) (ptr : Addr)
    (ps : List (Option Addr)) : (node id hd cs rest).readOver h (some ptr :: ps) =
      ptr :: (cs.readOver h (h.entries ptr) ++ rest.readOver h ps) := rfl

/-- An empty slot: the node is read into a new object, with nothing below. -/
theorem readOver_node_none (id : Nat) (hd : Header) (cs rest : Slots) (ps : List (Option Addr)) :
    (node id hd cs rest).readOver h (none :: ps) = rest.readOver h ps := rfl

/-- Into empty slots nothing is read over. -/
theorem readOver_nulls (ss : Slots) (n : Nat) : ss.readOver h (List.replicate n none) = [] := by
  induction ss generalizing n with
  | nil => rfl
  | null rest ih =>
    rw [readOver, List.tail_replicate]
    exact ih (n - 1)
  | ref id rest ih =>
    rw [readOver, List.tail_replicate]
    exact ih (n - 1)
  | node id hd cs rest ihcs ih =>
    cases n with
    | zero => exact ih 0
    | succ n => exact ih n

/-- The walk looks at the objects that it lists only. -/
theorem readOver_congr (ss : Slots) (ps : List (Option Addr))
    (hagree : ∀ a ∈ ss.readOver h ps, h'[a]? = h[a]?) : ss.readOver h' ps = ss.readOver h ps := by
  induction ss generalizing ps with
  | nil => rfl
  | null rest ih => exact ih ps.tail hagree
  | ref id rest ih => exact ih ps.tail hagree
  | node id hd cs rest ihcs ih =>
    cases hslot : ps.head?.join with
    | none =>
      simp only [readOver, hslot] at hagree ⊢
      exact ih ps.tail hagree
    | some ptr =>
      simp only [readOver, hslot] at hagree ⊢
      have hentries : h'.entries ptr = h.entries ptr := by
        rw [Heap.entries, hagree ptr List.mem_cons_self, Heap.entries]
      rw [hentries, ihcs (h.entries ptr) fun a ha => hagree a (by simp [ha]),
        ih ps.tail fun a ha => hagree a (by simp [ha])]

end Slots

/-- Resizing the slots to their number in the input does not change the walk. -/
theorem Parses.readOver_resized {ids ids' : List Nat} {n : Nat} {bs bs' : Bytes} {ss : Slots}
    (h : Parses ids n bs ss ids' bs') (heap : Heap) (ps : List (Option Addr)) :
    ss.readOver heap (ps.take n ++ List.replicate (n - ps.length) none) =
      ss.readOver heap ps := by
  -- a slot and the slots behind it, resized
  have hresized : ∀ (n : Nat) (ps : List (Option Addr)),
      (ps.take (n + 1) ++ List.replicate (n + 1 - ps.length) none).head?.join = ps.head?.join ∧
      (ps.take (n + 1) ++ List.replicate (n + 1 - ps.length) none).tail =
        ps.tail.take n ++ List.replicate (n - ps.tail.length) none := by
    intro n ps
    cases ps with
    | nil => exact ⟨rfl, by simp⟩
    | cons p ps => exact ⟨rfl, by simp⟩
  induction h generalizing ps with
  | nil ids bs => rfl
  | null _ _ ih => rw [Slots.readOver, (hresized _ ps).2, ih, Slots.readOver]
  | ref _ _ _ _ ih => rw [Slots.readOver, (hresized _ ps).2, ih, Slots.readOver]
  | node _ _ _ _ _ _ _ ih =>
    rw [Slots.readOver, (hresized _ ps).1, (hresized _ ps).2, ih, Slots.readOver]

/-! ## Reading over objects -/

/-- The decoder has met the ids `ids`, and `bs` is left. -/
structure Receives (d : Deserializer) (ids : List Nat) (bs : Bytes) : Prop where
  ready : d.adapter.Ready bs
  met : ∀ id, (d.ctx.sharedState id).isSome ↔ id ∈ ids

/-- `place` finds all the nodes that the decoder has met. -/
def Locates (place : Nat → Option Addr) (d : Deserializer) : Prop :=
  ∀ id a, d.ctx.sharedState id = some a → place id = some a

/-- From `d` to `d'` the children `ss` of `obj` were read into its slots behind `filled`, over the
objects `reused`. -/
structure Reread (obj : Addr) (hd : Header) (filled : List (Option Addr)) (ss : Slots)
    (reused : List Addr) (d d' : Deserializer) : Prop where
  length : d.heap.length ≤ d'.heap.length
  linked : ∀ place, Locates place d' → Locates place d
  frame : ∀ a < d.heap.length, a ≠ obj → a ∉ reused → d'.heap[a]? = d.heap[a]?
  self : ∀ place, Locates place d' →
    d'.heap[obj]? = some (hd.toFileContent (filled ++ ss.placed place))
  nodes : ∀ place, Locates place d' → ∀ x ∈ ss.nodes, ∃ a, place x.1 = some a ∧
    (a ∈ reused ∨ d.heap.length ≤ a ∧ a < d'.heap.length) ∧
    d'.heap[a]? = some (x.2.1.toFileContent (x.2.2.placed place))

namespace Receives

variable {d : Deserializer} {ids : List Nat} {bs : Bytes}

theorem setPtr (h : Receives d ids bs) (obj i : Nat) (ptr : Option Nat) :
    Receives (d.setPtr obj i ptr) ids bs := ⟨h.ready, h.met⟩

theorem withAdapter (h : Receives d ids bs) {adapter : InputBufferAdapter} {rest : Bytes}
    (hr : adapter.Ready rest) : Receives { d with adapter } ids rest := ⟨hr, h.met⟩

theorem enter (h : Receives d ids bs) (obj i id : Nat) :
    Receives (d.enter obj i id).2 (ids ++ [id]) bs := by
  refine ⟨?_, fun id' => ?_⟩
  · rw [Deserializer.enter_adapter]
    exact h.ready
  · rw [Deserializer.enter_ctx, sharedState_save, List.mem_append, List.mem_singleton]
    split_ifs with hid
    · simp [hid]
    · rw [h.met id', or_iff_left hid]

/-- An id that was not met names nothing. -/
theorem sharedState_new (h : Receives d ids bs) {id : Nat} (hnew : id ∉ ids) :
    d.ctx.sharedState id = none := by
  have hnot : ¬ (d.ctx.sharedState id).isSome := fun hmet => hnew ((h.met id).mp hmet)
  simpa using hnot

/-- An id that was met names something. -/
theorem sharedState_met (h : Receives d ids bs) {id : Nat} (hmem : id ∈ ids) :
    ∃ a, d.ctx.sharedState id = some a :=
  Option.isSome_iff_exists.mp ((h.met id).mpr hmem)

end Receives

section Slot

variable {d : Deserializer} {obj : Addr} {hd : Header} {filled ps : List (Option Addr)}
  {p : Option Addr}

theorem getPtr_slot (hobj : d.heap[obj]? = some (hd.toFileContent (filled ++ p :: ps))) :
    d.getPtr obj filled.length = p := by
  simp [Deserializer.getPtr, hobj]

/-- Slots are filled from the front, the ones behind staying as they are. -/
theorem set_slot (filled : List (Option Addr)) (p ptr : Option Addr) (ps : List (Option Addr)) :
    (filled ++ p :: ps).set filled.length ptr = (filled ++ [ptr]) ++ ps := by
  rw [List.set_append_right _ _ (Nat.le_refl _), Nat.sub_self, List.set_cons_zero,
    List.append_assoc]
  rfl

theorem setPtr_over (ptr : Option Addr)
    (hobj : d.heap[obj]? = some (hd.toFileContent (filled ++ p :: ps))) :
    (d.setPtr obj filled.length ptr).heap[obj]? =
      some (hd.toFileContent ((filled ++ [ptr]) ++ ps)) := by
  rw [Deserializer.setPtr, Deserializer.update_self hobj]
  exact congrArg (fun cs => some (hd.toFileContent cs)) (set_slot filled p ptr ps)

/-- The object that a new node is read into stands in the slot, or is new. -/
theorem enter_spec (hobj : d.heap[obj]? = some (hd.toFileContent (filled ++ p :: ps)))
    (hp : ∀ a, p = some a → a < d.heap.length ∧ a ≠ obj) (id : Nat) :
    d.heap.length ≤ (d.enter obj filled.length id).2.heap.length ∧
    (∀ a < d.heap.length, a ≠ obj →
      (d.enter obj filled.length id).2.heap[a]? = d.heap[a]?) ∧
    (∃ q, (d.enter obj filled.length id).2.heap[obj]? =
      some (hd.toFileContent (filled ++ q :: ps))) ∧
    (d.enter obj filled.length id).1 ≠ obj ∧
    ∃ own c₀, (d.enter obj filled.length id).2.heap[(d.enter obj filled.length id).1]? = some c₀ ∧
      ((d.enter obj filled.length id).1 ∈ own ∨
        d.heap.length ≤ (d.enter obj filled.length id).1) ∧
      ∀ id' hdc cs rest, (Slots.node id' hdc cs rest).readOver d.heap (p :: ps) =
        own ++ (cs.readOver d.heap c₀.contents ++ rest.readOver d.heap ps) := by
  cases p with
  -- the object of the slot, which is read over
  | some ptr =>
    obtain ⟨hlt, hne⟩ := hp ptr rfl
    have hget : d.heap[ptr]? = some d.heap[ptr] := List.getElem?_eq_getElem hlt
    rw [Deserializer.enter, getPtr_slot hobj]
    refine ⟨Nat.le_refl _, fun _ _ _ => rfl, ⟨_, hobj⟩, hne, [ptr], d.heap[ptr], hget,
      Or.inl List.mem_cons_self, fun id' hdc cs rest => ?_⟩
    rw [Slots.readOver_node_some, Heap.entries, hget]
    rfl
  | none =>
    have hlt : obj < d.heap.length := (List.getElem?_eq_some_iff.mp hobj).1
    rw [Deserializer.enter, getPtr_slot hobj]
    refine ⟨?_, fun a ha hne => createShared_frame ha hne, ⟨some d.heap.length, ?_⟩,
      Nat.ne_of_gt hlt, [], FileContent.new, createShared_new (Nat.ne_of_gt hlt),
      Or.inr (Nat.le_refl _), fun id' hdc cs rest => ?_⟩
    · rw [Deserializer.length_createShared]
      exact Nat.le_succ _
    · rw [createShared_obj _ _ hobj]
      refine congrArg (fun cs => some (hd.toFileContent cs)) ?_
      exact (set_slot filled none _ ps).trans (List.append_assoc ..)
    · rw [Slots.readOver_node_none, show FileContent.new.contents = List.replicate 0 none from rfl,
        Slots.readOver_nulls]
      rfl

end Slot

namespace Reread

variable {obj : Addr} {hd : Header} {filled : List (Option Addr)} {ss : Slots}
  {reused : List Addr} {d d' : Deserializer}

theorem nil (hobj : d.heap[obj]? = some (hd.toFileContent filled)) :
    Reread obj hd filled .nil [] d d := by
  refine ⟨Nat.le_refl _, fun _ h => h, fun _ _ _ _ => rfl, fun place _ => ?_, fun _ _ x hx => ?_⟩
  · rw [hobj, Slots.placed, List.append_nil]
  · exact absurd hx List.not_mem_nil

/-- The write to a slot is a write to `obj`, which is not framed. -/
theorem of_setPtr {i : Nat} {ptr : Option Nat}
    (h : Reread obj hd filled ss reused (d.setPtr obj i ptr) d') :
    Reread obj hd filled ss reused d d' := by
  have hlen : (d.setPtr obj i ptr).heap.length = d.heap.length :=
    Deserializer.length_setPtr d obj i ptr
  refine ⟨hlen ▸ h.length, h.linked, fun a ha hne hnot => ?_, h.self, fun place hplace x hx => ?_⟩
  · rw [h.frame a (hlen ▸ ha) hne hnot, setPtr_frame hne]
  · rw [← hlen]
    exact h.nodes place hplace x hx

/-- Where the reader is does not matter for what it has written. -/
theorem of_adapter {adapter : InputBufferAdapter}
    (h : Reread obj hd filled ss reused { d with adapter } d') :
    Reread obj hd filled ss reused d d' := ⟨h.length, h.linked, h.frame, h.self, h.nodes⟩

theorem null (h : Reread obj hd (filled ++ [none]) ss reused d d') :
    Reread obj hd filled (.null ss) reused d d' := by
  refine ⟨h.length, h.linked, h.frame, fun place hplace => ?_, h.nodes⟩
  rw [h.self place hplace, Slots.placed, List.append_assoc]
  rfl

/-- A shared slot in front: the id names what it named. -/
theorem ref {id : Nat} {a : Addr} (hmet : d.ctx.sharedState id = some a)
    (h : Reread obj hd (filled ++ [some a]) ss reused d d') :
    Reread obj hd filled (.ref id ss) reused d d' := by
  refine ⟨h.length, h.linked, h.frame, fun place hplace => ?_, h.nodes⟩
  rw [h.self place hplace, Slots.placed, h.linked place hplace id a hmet, List.append_assoc]
  rfl

/-- A node that was read into the object at `ptr` between `d₁` and `d₂`, and the children behind
it. -/
theorem node {ptr : Addr} {hdc : Header} {cs : Slots} {id i : Nat} {own below behind : List Addr}
    {d₁ d₂ : Deserializer} (hlen : d.heap.length ≤ d₁.heap.length)
    (hframe : ∀ a < d.heap.length, a ≠ obj → d₁.heap[a]? = d.heap[a]?)
    (hlinked : ∀ place, Locates place d₁ → Locates place d ∧ place id = some ptr)
    (hnode : Reread ptr hdc [] cs below d₁ d₂)
    (hbehind : Reread obj hd (filled ++ [some ptr]) ss behind (d₂.setPtr obj i (some ptr)) d')
    (hptr : ptr ∈ own ∨ d.heap.length ≤ ptr) (hne : ptr ≠ obj)
    (hnodup : (own ++ (below ++ behind)).Nodup) (hobj : obj ∉ own ++ (below ++ behind))
    (hobjlt : obj < d.heap.length) (hlt : ∀ a ∈ own ++ (below ++ behind), a < d.heap.length) :
    Reread obj hd filled (.node id hdc cs ss) (own ++ (below ++ behind)) d d' := by
  have hbehind := hbehind.of_setPtr
  -- what the ids name in the end, they named in between
  have hplace : ∀ place, Locates place d' → Locates place d₂ ∧ Locates place d ∧
      place id = some ptr := fun place h =>
    ⟨hbehind.linked place h, hlinked place (hnode.linked place (hbehind.linked place h))⟩
  obtain ⟨_, hnodup', howndisj⟩ := List.nodup_append.mp hnodup
  obtain ⟨_, _, hdisj⟩ := List.nodup_append.mp hnodup'
  -- nothing behind is read over the object of this node
  have hptrBehind : ptr ∉ behind := fun hmem => by
    rcases hptr with hown | hge
    · exact howndisj ptr hown ptr (List.mem_append_right _ hmem) rfl
    · exact absurd (hlt ptr (by simp [hmem])) (Nat.not_lt.mpr hge)
  have hlen₁ := hnode.length
  have hlen₂ := hbehind.length
  refine ⟨(hlen.trans hlen₁).trans hlen₂, fun place h => (hplace place h).2.1,
    fun a ha haobj hnot => ?_, fun place h => ?_, fun place h x hx => ?_⟩
  · simp only [List.mem_append, not_or] at hnot
    -- the frame: `a` is neither the object of the node nor below nor behind
    have hane : a ≠ ptr := by
      rintro rfl
      exact hptr.elim hnot.1 (Nat.not_le.mpr ha)
    calc d'.heap[a]? = d₂.heap[a]? :=
          hbehind.frame a (ha.trans_le (hlen.trans hlen₁)) haobj hnot.2.2
      _ = d₁.heap[a]? := hnode.frame a (ha.trans_le hlen) hane hnot.2.1
      _ = d.heap[a]? := hframe a ha haobj
  · rw [hbehind.self place h, Slots.placed, (hplace place h).2.2, List.append_assoc]
    rfl
  · -- the node itself, what lies below it, and what stands behind it
    rcases List.mem_cons.mp hx with rfl | hx
    · have hself := hnode.self place (hplace place h).1
      have hptrlt : ptr < d₂.heap.length := (List.getElem?_eq_some_iff.mp hself).1
      refine ⟨ptr, (hplace place h).2.2, ?_, ?_⟩
      · exact hptr.imp (List.mem_append_left _) fun hge => ⟨hge, hptrlt.trans_le hlen₂⟩
      · rw [hbehind.frame ptr hptrlt hne hptrBehind]
        exact hself
    · rcases List.mem_append.mp hx with hx | hx
      · obtain ⟨a, ha, hwhere, hget⟩ := hnode.nodes place (hplace place h).1 x hx
        have halt : a < d₂.heap.length := (List.getElem?_eq_some_iff.mp hget).1
        have haobj : a ≠ obj := by
          rintro rfl
          rcases hwhere with hbelow | ⟨hge, _⟩
          · exact hobj (by simp [hbelow])
          · exact absurd hobjlt (Nat.not_lt.mpr (hlen.trans hge))
        have hnot : a ∉ behind := fun hmem => by
          rcases hwhere with hbelow | ⟨hge, _⟩
          · exact hdisj a hbelow a hmem rfl
          · exact absurd (hlt a (by simp [hmem])) (Nat.not_lt.mpr (hlen.trans hge))
        refine ⟨a, ha, ?_, by rw [hbehind.frame a halt haobj hnot, hget]⟩
        exact hwhere.imp (fun hbelow => by simp [hbelow])
          fun hge => ⟨hlen.trans hge.1, halt.trans_le hlen₂⟩
      · obtain ⟨a, ha, hwhere, hget⟩ := hbehind.nodes place h x hx
        refine ⟨a, ha, ?_, hget⟩
        exact hwhere.imp (fun hmem => by simp [hmem])
          fun hge => ⟨(hlen.trans hlen₁).trans hge.1, hge.2⟩

end Reread

/-- The objects of the loops are not new, and none of them is read over. -/
def Apart (walked reused : List Addr) (d : Deserializer) : Prop :=
  ∀ a ∈ walked, a < d.heap.length ∧ a ∉ reused

/-- What reading the children `ss` does, over objects that are pairwise different and not those of
the loops around it. -/
def RereadsChildren (ids : List Nat) (n : Nat) (bs : Bytes) (ss : Slots) (ids' : List Nat)
    (bs' : Bytes) : Prop :=
  ∀ (fuel : Nat) (walked : List Addr) (obj : Addr) (hd : Header) (filled ps : List (Option Addr))
    (d d' : Deserializer), ps.length = n →
    (List.range' filled.length n).foldlM (Deserializer.ext (deserialize fuel) obj) d = some d' →
    d'.adapter.noError = true → Receives d ids bs →
    d.heap[obj]? = some (hd.toFileContent (filled ++ ps)) → (ss.readOver d.heap ps).Nodup →
    obj ∉ ss.readOver d.heap ps → (∀ a ∈ ss.readOver d.heap ps, a < d.heap.length) →
    Apart walked (ss.readOver d.heap ps) d →
    (Receives d' ids' bs' ∧ Reread obj hd filled ss (ss.readOver d.heap ps) d d') ∧
      (List.range' filled.length n).foldlM (Deserializer.ext (deserializeWithin fuel walked) obj)
        d = some d'

/-- A node is its header and its children. -/
theorem reread_node {ids ids' : List Nat} {n : Nat} {bs bs₁ bs' : Bytes} {hd : Header} {ss : Slots}
    (hheader : takeHeader bs = some (hd, n, bs₁)) (hparses : Parses ids n bs₁ ss ids' bs')
    (hchildren : RereadsChildren ids n bs₁ ss ids' bs') {fuel : Nat} {walked : List Addr}
    {obj : Addr} {d d' : Deserializer} {c₀ : FileContent}
    (hrun : deserialize fuel obj d = some d')
    (hok : d'.adapter.noError = true) (h : Receives d ids bs) (hget : d.heap[obj]? = some c₀)
    (hnodup : (ss.readOver d.heap c₀.contents).Nodup) (hobj : obj ∉ ss.readOver d.heap c₀.contents)
    (hlt : ∀ a ∈ ss.readOver d.heap c₀.contents, a < d.heap.length) (hwalked : obj ∉ walked)
    (hapart : Apart walked (ss.readOver d.heap c₀.contents) d) :
    (Receives d' ids' bs' ∧ Reread obj hd [] ss (ss.readOver d.heap c₀.contents) d d') ∧
      deserializeWithin fuel walked obj d = some d' := by
  have hobjlt : obj < d.heap.length := (List.getElem?_eq_some_iff.mp hget).1
  cases fuel with
  | zero => exact absurd hrun (by simp [deserialize])
  | succ fuel =>
    rw [deserialize_succ] at hrun
    obtain ⟨hd₁, n₁, rest, d₁, hheader₁, heq, hready, hctx, hlen, hobj₁, hframe⟩ :=
      Deserializer.readHeader_over h.ready hget
        (Deserializer.noError_of_foldlM_ext (deserialize_keepsErrors fuel) hrun hok)
    cases hheader.symm.trans hheader₁
    rw [heq, List.range_eq_range'] at hrun
    -- reading the header changes `obj` only, which the walk below does not meet
    have hsame : ss.readOver d₁.heap
        (c₀.contents.take n ++ List.replicate (n - c₀.contents.length) none) =
          ss.readOver d.heap c₀.contents := by
      rw [hparses.readOver_resized, ss.readOver_congr]
      rintro a ha
      exact hframe a fun heq => hobj (heq ▸ ha)
    have hres := hchildren fuel (obj :: walked) obj hd []
      (c₀.contents.take n ++ List.replicate (n - c₀.contents.length) none) d₁ d'
      (by simp only [List.length_append, List.length_take, List.length_replicate]; omega) hrun hok
      ⟨hready, hctx ▸ h.met⟩ hobj₁
    -- the loop over the children of `obj` is one more that must not be disturbed
    rw [hsame, Apart, hlen, List.forall_mem_cons] at hres
    obtain ⟨⟨hreceives, hreread⟩, hwithin⟩ := hres hnodup hobj hlt ⟨⟨hobjlt, hobj⟩, hapart⟩
    rw [deserializeWithin_succ hwalked, heq, List.range_eq_range']
    refine ⟨⟨hreceives, hlen ▸ hreread.length, fun place hplace => ?_, fun a ha hne hnot => ?_,
      hreread.self, fun place hplace x hx => ?_⟩, hwithin⟩
    · have hlocates := hreread.linked place hplace
      rw [Locates, hctx] at hlocates
      exact hlocates
    · rw [hreread.frame a (hlen ▸ ha) hne hnot, hframe a hne]
    · rw [← hlen]
      exact hreread.nodes place hplace x hx

/-- The first of several children: its id is taken, and the others follow. -/
theorem children_step {fnc : Nat → Deserializer → Option Deserializer} (hkeep : KeepsErrors fnc)
    {obj id n : Nat} {filled : List (Option Addr)} {bs bs₁ : Bytes} {d d' : Deserializer}
    (hrun : (List.range' filled.length (n + 1)).foldlM (Deserializer.ext fnc obj) d = some d')
    (hok : d'.adapter.noError = true) (hready : d.adapter.Ready bs)
    (hid : takeSize bs = some (id, bs₁)) :
    ∃ adapter d₁, adapter.Ready bs₁ ∧
      Deserializer.extWithId fnc obj filled.length id { d with adapter } = some d₁ ∧
      d₁.adapter.noError = true ∧ ∀ q : Option Addr,
        (List.range' (filled ++ [q]).length n).foldlM (Deserializer.ext fnc obj) d₁ = some d' ∧
        ∀ fnc' : Nat → Deserializer → Option Deserializer,
          Deserializer.extWithId fnc' obj filled.length id { d with adapter } = some d₁ →
          (List.range' (filled ++ [q]).length n).foldlM (Deserializer.ext fnc' obj) d₁ = some d' →
          (List.range' filled.length (n + 1)).foldlM (Deserializer.ext fnc' obj) d = some d' := by
  rw [List.range'_succ, List.foldlM_cons] at hrun
  obtain ⟨d₁, hstep, hrest⟩ := Option.bind_eq_some_iff.mp hrun
  have hok₁ := Deserializer.noError_of_foldlM_ext hkeep hrest hok
  obtain ⟨bs', hid', -, hready'⟩ :=
    hready.readSize_of_noError (Deserializer.noError_of_ext hkeep hstep hok₁)
  cases hid.symm.trans hid'
  refine ⟨(d.adapter.readSize none).2, d₁, hready', hstep, hok₁, fun q => ?_⟩
  rw [List.length_append, List.length_singleton]
  refine ⟨hrest, fun fnc' hstep' hrest' => ?_⟩
  rw [List.range'_succ, List.foldlM_cons, Deserializer.ext_apply, hstep']
  exact hrest'

/-- The children behind a slot that was written. -/
theorem RereadsChildren.behind {ids ids' : List Nat} {n : Nat} {bs bs' : Bytes} {ss : Slots}
    (h : RereadsChildren ids n bs ss ids' bs') {fuel : Nat} {walked : List Addr} {obj : Addr}
    {hd : Header} {filled ps : List (Option Addr)} {p q : Option Addr} {d d' : Deserializer}
    (hps : ps.length = n)
    (hrun : (List.range' (filled ++ [q]).length n).foldlM (Deserializer.ext (deserialize fuel) obj)
      (d.setPtr obj filled.length q) = some d')
    (hok : d'.adapter.noError = true) (hreceives : Receives d ids bs)
    (hobj : d.heap[obj]? = some (hd.toFileContent (filled ++ p :: ps)))
    (hnodup : (ss.readOver d.heap ps).Nodup) (hnot : obj ∉ ss.readOver d.heap ps)
    (hlt : ∀ a ∈ ss.readOver d.heap ps, a < d.heap.length)
    (hapart : Apart walked (ss.readOver d.heap ps) d) :
    (Receives d' ids' bs' ∧ Reread obj hd (filled ++ [q]) ss (ss.readOver d.heap ps)
      (d.setPtr obj filled.length q) d') ∧
      (List.range' (filled ++ [q]).length n).foldlM
        (Deserializer.ext (deserializeWithin fuel walked) obj) (d.setPtr obj filled.length q) =
          some d' := by
  have hsame : ss.readOver (d.setPtr obj filled.length q).heap ps = ss.readOver d.heap ps := by
    apply ss.readOver_congr
    intro a ha
    exact setPtr_frame fun heq => hnot (heq ▸ ha)
  have hres := h fuel walked obj hd (filled ++ [q]) ps _ d' hps hrun hok (hreceives.setPtr ..)
    (setPtr_over q hobj)
  rw [hsame, Apart, Deserializer.length_setPtr] at hres
  exact hres hnodup hnot hlt hapart

/-- **Reading over objects that are pairwise different.** Induction on the input. -/
theorem Parses.reread {ids ids' : List Nat} {n : Nat} {bs bs' : Bytes} {ss : Slots}
    (h : Parses ids n bs ss ids' bs') : RereadsChildren ids n bs ss ids' bs' := by
  induction h with
  | nil ids bs =>
    intro fuel walked obj hd filled ps d d' hps hrun _ hreceives hobj _ _ _ _
    obtain rfl := List.length_eq_zero_iff.mp hps
    cases hrun
    exact ⟨⟨hreceives, Reread.nil (by simpa using hobj)⟩, rfl⟩
  | null hid _ ih =>
    intro fuel walked obj hd filled ps d d' hps hrun hok hreceives hobj hnodup hnot hlt hapart
    obtain ⟨p, ps, rfl⟩ := List.exists_cons_of_length_eq_add_one hps
    obtain ⟨adapter, d₁, hready, hext, _, hrest⟩ :=
      children_step (deserialize_keepsErrors fuel) hrun hok hreceives.ready hid
    cases hext
    -- the same slot for both readers, then the children behind it
    obtain ⟨hplain, hwithin⟩ := hrest none
    obtain ⟨⟨hreceives', hreread⟩, hbehind⟩ := ih.behind (Nat.succ.inj hps) hplain hok
      (hreceives.withAdapter hready) hobj hnodup hnot hlt hapart
    exact ⟨⟨hreceives', hreread.of_setPtr.of_adapter.null⟩, hwithin _ rfl hbehind⟩
  | @ref ids n bs id bs₁ ss ids' bs' hid hne hmem _ ih =>
    intro fuel walked obj hd filled ps d d' hps hrun hok hreceives hobj hnodup hnot hlt hapart
    obtain ⟨p, ps, rfl⟩ := List.exists_cons_of_length_eq_add_one hps
    obtain ⟨adapter, d₁, hready, hext, _, hrest⟩ :=
      children_step (deserialize_keepsErrors fuel) hrun hok hreceives.ready hid
    -- the slot comes to share what the id names
    obtain ⟨a, hmet⟩ := hreceives.sharedState_met hmem
    rw [Deserializer.extWithId_met (d := { d with adapter }) hne hmet] at hext
    cases hext
    obtain ⟨hplain, hwithin⟩ := hrest (some a)
    obtain ⟨⟨hreceives', hreread⟩, hbehind⟩ := ih.behind (Nat.succ.inj hps) hplain hok
      (hreceives.withAdapter hready) hobj hnodup hnot hlt hapart
    exact ⟨⟨hreceives', hreread.of_setPtr.of_adapter.ref hmet⟩,
      hwithin _ (Deserializer.extWithId_met (d := { d with adapter }) hne hmet ..) hbehind⟩
  | @node ids n bs id bs₁ hdc m bs₂ cs ids₁ bs₃ ss ids' bs' hid hne hnew hheader children rest
      ihchildren ih =>
    intro fuel walked obj hd filled ps d d' hps hrun hok hreceives hobj hnodup hnot hlt hapart
    obtain ⟨p, ps, rfl⟩ := List.exists_cons_of_length_eq_add_one hps
    obtain ⟨adapter, d₁, hready, hext, hok₁, hrest⟩ :=
      children_step (deserialize_keepsErrors fuel) hrun hok hreceives.ready hid
    have hreceives₀ : Receives { d with adapter } ids bs₁ := hreceives.withAdapter hready
    have hextNew := fun fnc => Deserializer.extWithId_new (d := { d with adapter }) hne
      (hreceives₀.sharedState_new hnew) fnc obj filled.length
    rw [hextNew] at hext
    obtain ⟨d₂, hnode, rfl⟩ := Option.map_eq_some_iff.mp hext
    have hextWithin : ∀ fnc : Nat → Deserializer → Option Deserializer,
        fnc (Deserializer.enter { d with adapter } obj filled.length id).1
          (Deserializer.enter { d with adapter } obj filled.length id).2 = some d₂ →
        Deserializer.extWithId fnc obj filled.length id { d with adapter } =
          some (d₂.setPtr obj filled.length
            (some (Deserializer.enter { d with adapter } obj filled.length id).1)) := by
      intro fnc hfnc
      rw [hextNew, hfnc]
      rfl
    -- the old object of the slot is on the walk, so it is on the heap and is not `obj`
    have hp : ∀ a, p = some a → a < d.heap.length ∧ a ≠ obj := by
      rintro a rfl
      have hmem : a ∈ (Slots.node id hdc cs ss).readOver d.heap (some a :: ps) :=
        List.mem_cons_self
      exact ⟨hlt a hmem, fun heq => hnot (heq ▸ hmem)⟩
    obtain ⟨hlen, hframe, ⟨q, hobj₁⟩, hptrne, own, c₀, hget, hptr, hwalk⟩ :=
      enter_spec (d := { d with adapter }) hobj hp id
    have hreceives₁ := hreceives₀.enter obj filled.length id
    have hctx := Deserializer.enter_ctx { d with adapter } obj filled.length id
    generalize Deserializer.enter { d with adapter } obj filled.length id = entered at *
    obtain ⟨ptr, d₁⟩ := entered
    simp only at hnode hok₁ hrest hlen hframe hobj₁ hptrne hget hptr hreceives₁ hctx hwalk
    rw [hwalk] at hnodup hnot hlt ⊢
    obtain ⟨_, hnodup', howndisj⟩ := List.nodup_append.mp hnodup
    obtain ⟨hbelow, hbehind, hdisj⟩ := List.nodup_append.mp hnodup'
    have hobjlt : obj < d.heap.length := (List.getElem?_eq_some_iff.mp hobj).1
    have hptrnot : ptr ∉ cs.readOver d.heap c₀.contents ++ ss.readOver d.heap ps := fun hmem => by
      rcases hptr with hown | hge
      · exact howndisj ptr hown ptr hmem rfl
      · exact absurd (hlt ptr (List.mem_append_right _ hmem)) (Nat.not_lt.mpr hge)
    simp only [List.mem_append, not_or] at hnot hptrnot
    -- the walk below the node meets what it met before the object was entered
    have hsame : cs.readOver d₁.heap c₀.contents = cs.readOver d.heap c₀.contents := by
      apply cs.readOver_congr
      intro a ha
      exact hframe a (hlt a (by simp [ha])) fun heq => hnot.2.1 (heq ▸ ha)
    -- no loop goes through the children of the object that is entered
    have hwalked : ptr ∉ walked := by
      intro hmem
      obtain ⟨hptrlt, hnot⟩ := hapart ptr hmem
      rcases hptr with hown | hge
      · exact hnot (hwalk id hdc cs ss ▸ List.mem_append_left _ hown)
      · exact absurd hptrlt (Nat.not_lt.mpr hge)
    have hapartBelow : Apart walked (cs.readOver d.heap c₀.contents) d₁ := by
      intro a ha
      obtain ⟨halt, hnot⟩ := hapart a ha
      rw [hwalk] at hnot
      simp only [List.mem_append, not_or] at hnot
      exact ⟨halt.trans_le hlen, hnot.2.1⟩
    obtain ⟨⟨hreceives₂, hnode'⟩, hnodeWithin⟩ := reread_node hheader children ihchildren hnode hok₁
      hreceives₁ hget (hsame ▸ hbelow) (hsame ▸ hptrnot.1)
      (hsame ▸ fun a ha => (hlt a (by simp [ha])).trans_le hlen) hwalked (hsame.symm ▸ hapartBelow)
    rw [hsame] at hnode'
    -- reading it has left the slots of `obj` and the objects behind alone
    have hobj₂ : d₂.heap[obj]? = some (hd.toFileContent (filled ++ q :: ps)) := by
      rw [hnode'.frame obj (hobjlt.trans_le hlen) hptrne.symm hnot.2.1, hobj₁]
    have hkept : ∀ a ∈ ss.readOver d.heap ps, d₂.heap[a]? = d.heap[a]? := by
      intro a ha
      have halt : a < d.heap.length := hlt a (by simp [ha])
      rw [hnode'.frame a (halt.trans_le hlen) (fun heq => hptrnot.2 (heq ▸ ha))
        fun hmem => hdisj a hmem a ha rfl]
      exact hframe a halt fun heq => hnot.2.2 (heq ▸ ha)
    have hsame₂ : ss.readOver d₂.heap ps = ss.readOver d.heap ps := ss.readOver_congr ps hkept
    have hapartBehind : Apart walked (ss.readOver d.heap ps) d₂ := by
      intro a ha
      obtain ⟨halt, hnot⟩ := hapart a ha
      rw [hwalk] at hnot
      simp only [List.mem_append, not_or] at hnot
      exact ⟨halt.trans_le (hlen.trans hnode'.length), hnot.2.2⟩
    obtain ⟨hplain, hwithin⟩ := hrest (some ptr)
    obtain ⟨⟨hreceives', hreread⟩, hbehindWithin⟩ := ih.behind (Nat.succ.inj hps) hplain hok
      hreceives₂ hobj₂ (hsame₂ ▸ hbehind) (hsame₂ ▸ hnot.2.2)
      (hsame₂ ▸ fun a ha => (hlt a (by simp [ha])).trans_le (hlen.trans hnode'.length))
      (hsame₂.symm ▸ hapartBehind)
    rw [hsame₂] at hreread
    refine ⟨⟨hreceives', Reread.node hlen hframe (fun place hplace => ?_) hnode' hreread hptr hptrne
      hnodup (by simpa using hnot) hobjlt hlt⟩, hwithin _ (hextWithin _ hnodeWithin) hbehindWithin⟩
    -- the id of the node is new, so the older ones still name what they named
    rw [Locates, hctx] at hplace
    refine ⟨fun id' a hid' => hplace id' a ?_, hplace id ptr ?_⟩
    · rw [sharedState_save, if_neg]
      · exact hid'
      · rintro rfl
        exact hnew ((hreceives.met id').mp (by rw [hid']; rfl))
    · rw [sharedState_save, if_pos rfl]

/-! ## What the result unfolds to -/

/-- The ids in the list itself, not in the nodes below it. -/
def Slots.slotIds : Slots → List Nat
  | .nil => []
  | .null rest => rest.slotIds
  | .ref id rest => id :: rest.slotIds
  | .node id _ _ rest => id :: rest.slotIds

/-- The id of a slot is that of a node in the input. -/
def Slots.Names (ss sub : Slots) : Prop := ∀ id ∈ sub.slotIds, ∃ x ∈ ss.nodes, x.1 = id

/-- Every id that a slot has was met by the end. -/
theorem Parses.slotIds_met {ids ids' : List Nat} {n : Nat} {bs bs' : Bytes} {ss : Slots}
    (h : Parses ids n bs ss ids' bs') :
    (∀ id ∈ ss.slotIds, id ∈ ids') ∧ ∀ x ∈ ss.nodes, ∀ id ∈ x.2.2.slotIds, id ∈ ids' := by
  induction h with
  | nil ids bs => simp [Slots.slotIds, Slots.nodes]
  | null _ _ ih => exact ih
  | ref _ _ hmem rest ih =>
    exact ⟨List.forall_mem_cons.mpr ⟨rest.grows.subset hmem, ih.1⟩, ih.2⟩
  | node _ _ _ _ children rest ih₁ ih =>
    have hkept := rest.grows.subset
    refine ⟨List.forall_mem_cons.mpr ⟨hkept (children.grows.subset (by simp)), ih.1⟩, ?_⟩
    intro x hx id hid
    rcases List.mem_cons.mp hx with rfl | hx
    · exact hkept (ih₁.1 id hid)
    · rcases List.mem_append.mp hx with hx | hx
      · exact hkept (ih₁.2 x hx id hid)
      · exact ih.2 x hx id hid

/-- So it is the id of a node of the input. -/
theorem Parses.names {n : Nat} {bs bs' : Bytes} {ss : Slots} {ids : List Nat}
    (h : Parses [] n bs ss ids bs') : ss.Names ss ∧ ∀ x ∈ ss.nodes, ss.Names x.2.2 := by
  have hnode : ∀ id ∈ ids, ∃ x ∈ ss.nodes, x.1 = id := by
    intro id hid
    rw [h.ids_eq] at hid
    simpa [Slots.ids] using hid
  exact ⟨fun id hid => hnode id (h.slotIds_met.1 id hid),
    fun x hx id hid => hnode id (h.slotIds_met.2 x hx id hid)⟩

/-- The pointer of the first slot, for any places of the nodes. -/
theorem Slots.placed_shape (ss : Slots) : (∀ place, ss.placed place = []) ∨
    (∃ rest : Slots, ss.slotIds = rest.slotIds ∧
      ∀ place, ss.placed place = none :: rest.placed place) ∨
    ∃ (id : Nat) (rest : Slots), ss.slotIds = id :: rest.slotIds ∧
      ∀ place, ss.placed place = place id :: rest.placed place := by
  cases ss with
  | nil => exact Or.inl fun _ => rfl
  | null rest => exact Or.inr (Or.inl ⟨rest, rfl, fun _ => rfl⟩)
  | ref id rest => exact Or.inr (Or.inr ⟨id, rest, rfl, fun _ => rfl⟩)
  | node id hd cs rest => exact Or.inr (Or.inr ⟨id, rest, rfl, fun _ => rfl⟩)

/-- The root and the nodes of the input are on the heap, each node where `place` says. -/
structure Laid (content : Addr) (place : Nat → Option Addr) (hd : Header) (ss : Slots)
    (heap : Heap) : Prop where
  root : heap[content]? = some (hd.toFileContent (ss.placed place))
  nodes : ∀ x ∈ ss.nodes, ∃ a, place x.1 = some a ∧
    heap[a]? = some (x.2.1.toFileContent (x.2.2.placed place))

namespace Laid

variable {content content' : Addr} {place place' : Nat → Option Addr} {hd : Header} {ss : Slots}
  {heap heap' : Heap}

/-- Induction on what the slots unfold to. -/
theorem unfolds_placed (h : Laid content place hd ss heap) (h' : Laid content' place' hd ss heap')
    (hnames : ∀ x ∈ ss.nodes, ss.Names x.2.2) (ts : FileTrees) : ∀ sub : Slots, ss.Names sub →
      heap.Unfolds (sub.placed place) ts → heap'.Unfolds (sub.placed place') ts := by
  -- every id of a slot has a place
  have hplaced : ∀ {sub rest : Slots} {id : Nat}, ss.Names sub → sub.slotIds = id :: rest.slotIds →
      ∃ x ∈ ss.nodes, x.1 = id := fun hsub hids => hsub _ (hids ▸ List.mem_cons_self)
  induction ts with
  | nil =>
    intro sub hsub hunfolds
    have hempty : sub.placed place = [] := hunfolds
    rcases sub.placed_shape with hnil | ⟨rest, _, hnull⟩ | ⟨id, rest, _, hid⟩
    · exact hnil place'
    · exact absurd ((hnull place).symm.trans hempty) (List.cons_ne_nil _ _)
    · exact absurd ((hid place).symm.trans hempty) (List.cons_ne_nil _ _)
  | null trest ih =>
    intro sub hsub hunfolds
    obtain ⟨ps, hslots, hrest⟩ := hunfolds
    -- the first slot is null on both sides, or has an id, and then its node has a place on both
    rcases sub.placed_shape with hnil | ⟨rest, hids, hnull⟩ | ⟨id, rest, hids, hid⟩
    · exact absurd ((hnil place).symm.trans hslots) (List.cons_ne_nil _ _).symm
    · obtain ⟨-, rfl⟩ := List.cons.inj ((hnull place).symm.trans hslots)
      exact ⟨_, hnull place', ih rest (fun j hj => hsub j (hids ▸ hj)) hrest⟩
    · obtain ⟨x, hx, rfl⟩ := hplaced hsub hids
      obtain ⟨a, ha, _⟩ := h.nodes x hx
      rw [hid place, ha] at hslots
      cases hslots
  | node header tchildren trest ihchildren ih =>
    intro sub hsub hunfolds
    obtain ⟨a, c, ps, hslots, hc, rfl, hchildren, hrest⟩ := hunfolds
    rcases sub.placed_shape with hnil | ⟨rest, hids, hnull⟩ | ⟨id, rest, hids, hid⟩
    · exact absurd ((hnil place).symm.trans hslots) (List.cons_ne_nil _ _).symm
    · rw [hnull place] at hslots
      cases hslots
    · obtain ⟨x, hx, rfl⟩ := hplaced hsub hids
      obtain ⟨b, hb, hget⟩ := h.nodes x hx
      obtain ⟨b', hb', hget'⟩ := h'.nodes x hx
      rw [hid place, hb] at hslots
      cases hslots
      cases hget.symm.trans hc
      refine ⟨b', _, _, by rw [hid place', hb'], hget', rfl, ?_, ?_⟩
      · exact ihchildren x.2.2 (hnames x hx) hchildren
      · exact ih rest (fun j hj => hsub j (hids ▸ List.mem_cons_of_mem _ hj)) hrest

/-- Where the nodes are does not show in the values. -/
theorem unfolds (h : Laid content place hd ss heap) (h' : Laid content' place' hd ss heap')
    (hnames : ss.Names ss ∧ ∀ x ∈ ss.nodes, ss.Names x.2.2) {ts : FileTrees}
    (hunfolds : heap.Unfolds [some content] ts) : heap'.Unfolds [some content'] ts := by
  cases ts with
  | nil => cases hunfolds
  | null _ =>
    obtain ⟨_, hslots, _⟩ := hunfolds
    cases hslots
  | node header children rest =>
    obtain ⟨_, c, _, hslots, hc, rfl, hchildren, hrest⟩ := hunfolds
    cases hslots
    cases h.root.symm.trans hc
    obtain rfl : rest = .nil := hrest.unique rfl
    exact ⟨content', _, [], rfl, h'.root, rfl,
      h.unfolds_placed h' hnames.2 children ss hnames.1 hchildren, rfl⟩

end Laid

/-! ## The old graph -/

section Old

variable {h : Heap}

/-- The slots of an object that is there. -/
theorem Heap.entries_of_get {a : Addr} {c : FileContent} (hc : h[a]? = some c) :
    h.entries a = c.contents := by
  rw [Heap.entries, hc]
  rfl

/-- A slot that is not null is a pointer. -/
theorem Heap.points_of_entries {a b : Addr} (hb : some b ∈ h.entries a) : h.Points a b := by
  rw [Heap.entries] at hb
  cases hc : h[a]? with
  | none =>
    rw [hc] at hb
    cases hb
  | some c =>
    rw [hc] at hb
    exact ⟨c, hc, FileContent.mem_children.mpr hb⟩

/-- The first slot is one of them. -/
theorem mem_of_head?_join {ps : List (Option Addr)} {a : Addr} (h : ps.head?.join = some a) :
    some a ∈ ps := by
  cases ps with
  | nil => cases h
  | cons p ps =>
    obtain rfl : p = some a := h
    exact List.mem_cons_self

/-- What is read over lies below the slots. -/
theorem Slots.readOver_reaches (ss : Slots) (ps : List (Option Addr)) :
    ∀ a ∈ ss.readOver h ps, ∃ b, some b ∈ ps ∧ h.Reaches b a := by
  have htail : ∀ {ps : List (Option Addr)} {a : Addr},
      (∃ b, some b ∈ ps.tail ∧ h.Reaches b a) → ∃ b, some b ∈ ps ∧ h.Reaches b a :=
    fun ⟨b, hb, hreach⟩ => ⟨b, List.mem_of_mem_tail hb, hreach⟩
  induction ss generalizing ps with
  | nil => exact fun a ha => absurd ha List.not_mem_nil
  | null rest ih => exact fun a ha => htail (ih ps.tail a ha)
  | ref id rest ih => exact fun a ha => htail (ih ps.tail a ha)
  | node id hd cs rest ihcs ih =>
    intro a ha
    rw [readOver] at ha
    cases hslot : ps.head?.join with
    | none =>
      rw [hslot] at ha
      exact htail (ih ps.tail a ha)
    | some ptr =>
      rw [hslot] at ha
      have hptr := mem_of_head?_join hslot
      rcases List.mem_cons.mp ha with rfl | ha
      · exact ⟨a, hptr, Reaches.refl a⟩
      · rcases List.mem_append.mp ha with ha | ha
        · -- below the object of the first slot
          obtain ⟨b, hb, hreach⟩ := ihcs (h.entries ptr) a ha
          exact ⟨ptr, hptr, .head (Heap.points_of_entries hb) hreach⟩
        · exact htail (ih ps.tail a ha)

/-- In a tree no two slots hold the same object. -/
theorem Slots.readOver_nodup (ss : Slots) (ps : List (Option Addr))
    (hunshared : ∀ b, some b ∈ ps → Unshared FileContent.children h b)
    (hapart : (ps.filterMap id).Pairwise fun b b' => ∀ x, h.Reaches b x → ¬ h.Reaches b' x) :
    (ss.readOver h ps).Nodup := by
  have htail : ∀ ps : List (Option Addr), (ps.tail.filterMap id).Sublist (ps.filterMap id) :=
    fun ps => (List.tail_sublist ps).filterMap id
  induction ss generalizing ps with
  | nil => exact List.nodup_nil
  | null rest ih =>
    exact ih ps.tail (fun b hb => hunshared b (List.mem_of_mem_tail hb)) (hapart.sublist (htail ps))
  | ref id rest ih =>
    exact ih ps.tail (fun b hb => hunshared b (List.mem_of_mem_tail hb)) (hapart.sublist (htail ps))
  | node id hd cs rest ihcs ih =>
    have hrest := ih ps.tail (fun b hb => hunshared b (List.mem_of_mem_tail hb))
      (hapart.sublist (htail ps))
    rw [readOver]
    cases hslot : ps.head?.join with
    | none => exact hrest
    | some ptr =>
      obtain ⟨ps, rfl⟩ : ∃ ps', ps = some ptr :: ps' := by
        cases ps with
        | nil => cases hslot
        | cons p ps' => exact ⟨ps', congrArg (· :: ps') hslot⟩
      obtain ⟨happtr, -⟩ := List.pairwise_cons.mp hapart
      have hptr := hunshared ptr List.mem_cons_self
      have hentries : (cs.readOver h (h.entries ptr)).Nodup := by
        obtain ⟨below, apart⟩ := hptr
        refine ihcs _ (fun b hb => below b (Heap.points_of_entries hb)) ?_
        cases hc : h[ptr]? with
        | none => simp [Heap.entries, hc]
        | some c =>
          rw [Heap.entries_of_get hc]
          exact apart c hc
      -- what is read over for this node is the object in the slot, or below it
      have hreach : ∀ a ∈ cs.readOver h (h.entries ptr), ∃ b, h.Points ptr b ∧ h.Reaches b a := by
        intro a ha
        obtain ⟨b, hb, hreach⟩ := cs.readOver_reaches _ a ha
        exact ⟨b, Heap.points_of_entries hb, hreach⟩
      have hbehind : ∀ a ∈ rest.readOver h ps, ¬ h.Reaches ptr a := by
        intro a ha hptra
        obtain ⟨b, hb, hreach⟩ := rest.readOver_reaches ps a ha
        exact happtr b (by simpa using hb) a hptra hreach
      -- the object is not below itself, and what is below is not behind
      refine List.nodup_cons.mpr ⟨fun hmem => ?_, List.nodup_append.mpr ⟨hentries, hrest, ?_⟩⟩
      · rcases List.mem_append.mp hmem with hcs | hps
        · obtain ⟨b, hpoints, hback⟩ := hreach ptr hcs
          exact hptr.grounded.acyclic ptr (Reaches.refl ptr) (Relation.TransGen.head' hpoints hback)
        · exact hbehind ptr hps (Reaches.refl ptr)
      · rintro a hcs _ hps rfl
        obtain ⟨b, hpoints, hba⟩ := hreach a hcs
        exact hbehind a hps (.head hpoints hba)

/-- In an acyclic graph they are objects below the root. -/
theorem Slots.readOver_below (ss : Slots) {r : Addr} (hr : h.Acyclic r) :
    r ∉ ss.readOver h (h.entries r) ∧ ∀ a ∈ ss.readOver h (h.entries r), a < h.length := by
  constructor
  · intro hmem
    obtain ⟨b, hb, hback⟩ := ss.readOver_reaches _ r hmem
    exact hr.acyclic r (Reaches.refl r)
      (Relation.TransGen.head' (Heap.points_of_entries hb) hback)
  · intro a ha
    obtain ⟨b, hb, hreach⟩ := ss.readOver_reaches _ a ha
    exact hr.closed a (.head (Heap.points_of_entries hb) hreach)

end Old

/-! ## The whole input -/

/-- The run on the whole input, into an object whose graph may be in use. -/
theorem deserialize_laid {data : Bytes} {hd : Header} {ss : Slots} {ids : List Nat} {heap : Heap}
    {content : Addr} {c₀ : FileContent} {fuel : Nat} {d' : Deserializer}
    (hp : ParsesTree data hd ss ids) (hget : heap[content]? = some c₀)
    (hrun : deserialize fuel content { adapter := .ofData data, heap } = some d')
    (hok : d'.adapter.noError = true) (hnodup : (ss.readOver heap c₀.contents).Nodup)
    (hnot : content ∉ ss.readOver heap c₀.contents)
    (hlt : ∀ a ∈ ss.readOver heap c₀.contents, a < heap.length) :
    Laid content d'.ctx.sharedState hd ss d'.heap ∧
      deserializeWithin fuel [] content { adapter := .ofData data, heap } = some d' := by
  obtain ⟨hheader, hchildren⟩ := hp
  have hstart : Receives { adapter := .ofData data, heap } [] data :=
    ⟨InputBufferAdapter.ready_ofData data,
      fun id => iff_of_false Bool.false_ne_true List.not_mem_nil⟩
  -- no loop is running yet
  have hwalked : content ∉ ([] : List Addr) := List.not_mem_nil
  obtain ⟨⟨-, hreread⟩, hwithin⟩ := reread_node hheader hchildren hchildren.reread hrun hok hstart
    hget hnodup hnot hlt hwalked fun a ha => absurd ha List.not_mem_nil
  have hlocates : Locates d'.ctx.sharedState d' := fun _ _ h => h
  refine ⟨⟨hreread.self _ hlocates, fun x hx => ?_⟩, hwithin⟩
  obtain ⟨a, ha, -, hgeta⟩ := hreread.nodes _ hlocates x hx
  exact ⟨a, ha, hgeta⟩

/-- A Directory with the Files `a` and `b`. -/
def twoFilesInput : Bytes :=
  [0, 0, 10, 0, 0, 7, 0, 2, 1, 1, 0, 10, 0, 0, 7, 1, 97, 0, 2, 1, 0, 10, 0, 0, 7, 1, 98, 0]

/-- A Directory with Files of the names given. -/
def filesIn (names : List Bytes) : FileTrees :=
  .node (plainHeader FileType.directory [])
    (names.foldr (fun name => .node (plainHeader FileType.file name) .nil) .nil) .nil

/-- What a fresh object holds after this input. -/
def twoFilesHeap : Heap :=
  [(plainHeader FileType.directory []).toFileContent [some 1, some 2],
   (plainHeader FileType.file (ascii "a")).toFileContent [],
   (plainHeader FileType.file (ascii "b")).toFileContent []]

/-- A fresh object accepts the two Files. -/
theorem deserialize_twoFilesInput :
    deserializeToFileContent twoFilesInput [FileContent.fresh 7] 0 = some (true, twoFilesHeap) := by
  decide +kernel

theorem twoFilesHeap_unfolds :
    twoFilesHeap.Unfolds [some 0] (filesIn [ascii "a", ascii "b"]) :=
  ⟨0, _, [], rfl, rfl, rfl,
    ⟨1, _, [some 2], rfl, rfl, rfl, rfl, 2, _, [], rfl, rfl, rfl, rfl, rfl⟩, rfl⟩

/-- A Directory whose one child has a child of its own. -/
def nestedHeap : Heap :=
  [{ name := ascii "old", contents := [some 1] }, { contents := [some 2] },
   { type := FileType.file, name := ascii "older" }]

/-- The old graph is a chain, so nothing in it is shared. -/
theorem nestedHeap_unshared : Unshared FileContent.children nestedHeap 0 := by
  have hfile : Unshared FileContent.children nestedHeap 2 := by
    refine .intro (fun b hb => ?_) fun c hc => ?_
    · obtain ⟨c, hc, hmem⟩ := hb
      cases hc
      cases hmem
    · cases hc
      exact List.Pairwise.nil
  have hchild : ∀ (a b : Addr) (c : FileContent), nestedHeap[a]? = some c → c.children = [b] →
      Unshared FileContent.children nestedHeap b → Unshared FileContent.children nestedHeap a := by
    intro a b c hc hchildren hb
    refine .intro (fun b' hb' => ?_) fun c' hc' => ?_
    · obtain ⟨c', hc', hmem⟩ := hb'
      cases hc.symm.trans hc'
      rw [hchildren, List.mem_singleton] at hmem
      exact hmem ▸ hb
    · cases hc.symm.trans hc'
      rw [hchildren]
      exact List.pairwise_singleton _ _
  exact hchild 0 1 _ rfl rfl (hchild 1 2 _ rfl rfl hfile)

/-- Six Directories in the root: one in the first child, a reference to the first in the second,
and two below each other in the third. -/
def sixDirectoriesInput : Bytes :=
  [0, 0, 10, 0, 0, 7, 0, 3, 1, 0, 0, 10, 0, 0, 7, 0, 1, 2, 0, 0, 10, 0, 0, 7, 0, 0,
   3, 0, 0, 10, 0, 0, 7, 0, 1, 1,
   4, 0, 0, 10, 0, 0, 7, 0, 1, 5, 0, 0, 10, 0, 0, 7, 0, 1, 6, 0, 0, 10, 0, 0, 7, 0, 2, 0, 0]

/-- The first and the third child are one object, which holds the second. The reference makes the
two hold each other, so the sixth Directory is read over the object of the fourth. -/
example : (deserializeToFileContent sixDirectoriesInput [FileContent.fresh 7] 0).map Prod.fst =
      some true ∧
    deserializeOver sixDirectoriesInput
      [{ contents := [some 1, some 2, some 1] }, { contents := [some 2] }, {}] 0 = none := by
  decide +kernel

/-- A Directory that holds one object twice. -/
def twiceHeap : Heap := [{ contents := [some 1, some 1] }, {}]

end Guthi
