import Guthi.Bitsery.Reading
import Guthi.Filesystem.RoundTrip

/-!
# Guthi — decoding arbitrary bytes ends

`DeserializeToFileContent` on any byte vector. A read past the end gives zeros and is recorded,
but the recursion goes on: counts and pointer ids come from the input, and nothing stops the
decoder at the first error. What bounds it is the input that is left: a new object costs a
pointer id, and an id that is not zero has cost a byte.

* `Confined` — the decoder writes only to its own objects, and these keep to the limits;
* `Progress` — no step gives back what was read, and a new object has cost a byte;
* `deserialize_progress` — with more fuel than there are bytes left, `deserialize` returns.
-/

namespace Guthi

open Bitsery

/-- The limits of the reader, and children from `base` on only. -/
structure FileContent.Confined (base : Nat) (c : FileContent) : Prop where
  limits : c.WithinLimits
  contents : ∀ b, some b ∈ c.contents → base ≤ b

/-- A new object has no name and no children yet. -/
theorem FileContent.confined_new (base : Nat) : FileContent.new.Confined base :=
  ⟨⟨Nat.zero_le _, Nat.zero_le _⟩, by simp [FileContent.new]⟩

namespace Deserializer

/-- A decoder that began with `content` on a heap of `base` objects: what it has created, shared
and linked lies from `base` on. -/
structure Confined (base content : Nat) (d : Deserializer) : Prop where
  base_le : base ≤ d.heap.length
  shared : ∀ id a, d.ctx.sharedState id = some a → base ≤ a
  objects : ∀ a c, a = content ∨ base ≤ a → d.heap[a]? = some c → c.Confined base

/-- What is reached from `content` is `content` or was created. -/
theorem Confined.eq_or_le_of_reaches {base content a : Nat} {d : Deserializer}
    (h : Confined base content d) (ha : d.heap.Reaches content a) : a = content ∨ base ≤ a := by
  induction ha with
  | refl => exact Or.inl rfl
  | tail _ hpoints ih =>
    obtain ⟨c, hc, hmem⟩ := hpoints
    exact Or.inr ((h.objects _ _ ih hc).contents _ (FileContent.mem_children.mp hmem))

/-- What reading cannot undo: no byte is put back, no object goes away, and each new one has cost a
byte. -/
structure Progress (d d' : Deserializer) : Prop where
  left : d'.adapter.left ≤ d.adapter.left
  length : d.heap.length ≤ d'.heap.length
  created : d'.adapter.left + d'.heap.length ≤ d.adapter.left + d.heap.length

/-- Nothing has been read yet. -/
theorem Progress.refl (d : Deserializer) : Progress d d :=
  ⟨Nat.le_refl _, Nat.le_refl _, Nat.le_refl _⟩

theorem Progress.trans {d₁ d₂ d₃ : Deserializer} (h₁ : Progress d₁ d₂) (h₂ : Progress d₂ d₃) :
    Progress d₁ d₃ :=
  ⟨h₂.left.trans h₁.left, h₁.length.trans h₂.length, h₂.created.trans h₁.created⟩

/-- A step that creates nothing only has to answer for the adapter. -/
theorem Progress.of_adapter {d d' : Deserializer} (hlen : d'.heap.length = d.heap.length)
    (hleft : d'.adapter.left ≤ d.adapter.left) : Progress d d' :=
  ⟨hleft, hlen.ge, by omega⟩

section

variable {base content : Nat} {d : Deserializer}

/-! ## Writing to an object -/

/-- A write to an object that keeps it confined keeps the decoder confined. -/
theorem Confined.update (h : Confined base content d) (obj : Nat)
    {f : FileContent → FileContent} (hf : ∀ c, c.Confined base → (f c).Confined base) :
    Confined base content (d.update obj f) := by
  refine ⟨by rw [update_length]; exact h.base_le, h.shared, fun a c ha hc => ?_⟩
  by_cases haobj : a = obj
  · subst haobj
    -- `update` leaves the heap as it was where there is no object
    obtain ⟨c₀, hc₀⟩ : ∃ c₀, d.heap[a]? = some c₀ := by
      rw [← Option.isSome_iff_exists]
      simpa [Deserializer.update] using congrArg Option.isSome hc
    rw [update_self hc₀] at hc
    cases hc
    exact hf c₀ (h.objects a c₀ ha hc₀)
  · rw [update_ne haobj] at hc
    exact h.objects a c ha hc

/-- A pointer to something new can be stored into a slot. -/
theorem Confined.setPtr (h : Confined base content d) (obj i : Nat) {ptr : Option Nat}
    (hptr : ∀ a ∈ ptr, base ≤ a) : Confined base content (d.setPtr obj i ptr) := by
  refine h.update obj fun c hc => ⟨⟨hc.limits.name, ?_⟩, fun b hb => ?_⟩
  · rw [List.length_set]
    exact hc.limits.contents
  · -- an old slot, or the one that was written
    rcases List.mem_or_eq_of_mem_set hb with hin | heq
    · exact hc.contents b hin
    · exact hptr b heq.symm

/-- `createShared` puts the new object at the end of the heap, so it lies from `base` on. -/
theorem Confined.createShared (h : Confined base content d) (obj i id : Nat) :
    Confined base content (d.createShared obj i id) := by
  -- first the heap, which has one object more
  have hnew : Confined base content { d with heap := d.heap ++ [FileContent.new] } := by
    refine ⟨?_, h.shared, fun a c ha hc => ?_⟩
    · rw [List.length_append]
      exact h.base_le.trans (Nat.le_add_right _ _)
    · rcases List.mem_append.mp (List.mem_of_getElem? hc) with hin | hself
      · by_cases hlt : a < d.heap.length
        · exact h.objects a c ha (by rwa [List.getElem?_append_left hlt] at hc)
        · rw [List.getElem?_append_right (Nat.le_of_not_gt hlt)] at hc
          have hc := List.mem_singleton.mp (List.mem_of_getElem? hc)
          exact hc ▸ FileContent.confined_new base
      · exact List.mem_singleton.mp hself ▸ FileContent.confined_new base
  have hptr : ∀ a ∈ some d.heap.length, base ≤ a := by simpa using h.base_le
  -- then the slot, then the context
  have hset := hnew.setPtr obj i hptr
  refine ⟨hset.base_le, fun id' a ha => ?_, hset.objects⟩
  have hsaved : (d.ctx.saveToSharedState id d.heap.length).sharedState id' = some a := ha
  rw [sharedState_save] at hsaved
  split_ifs at hsaved
  · cases hsaved
    exact h.base_le
  · exact h.shared id' a hsaved

/-- The context takes up a pointer to something new. -/
theorem Confined.saveToSharedState (h : Confined base content d) (id : Nat) {ptr : Nat}
    (hptr : base ≤ ptr) :
    Confined base content { d with ctx := d.ctx.saveToSharedState id ptr } := by
  refine ⟨h.base_le, fun id' a ha => ?_, h.objects⟩
  rw [sharedState_save] at ha
  split_ifs at ha
  · cases ha
    exact hptr
  · exact h.shared id' a ha

theorem length_setPtr (d : Deserializer) (obj i : Nat) (ptr : Option Nat) :
    (d.setPtr obj i ptr).heap.length = d.heap.length := update_length d obj _

/-- One object is created. -/
theorem length_createShared (d : Deserializer) (obj i id : Nat) :
    (d.createShared obj i id).heap.length = d.heap.length + 1 := by
  show (Deserializer.setPtr _ obj i _).heap.length = _
  rw [length_setPtr, List.length_append, List.length_singleton]

theorem Progress.setPtr {d' : Deserializer} (h : Progress d d') (obj i : Nat) (ptr : Option Nat) :
    Progress d (d'.setPtr obj i ptr) :=
  h.trans (Progress.of_adapter (length_setPtr d' obj i ptr) (Nat.le_refl _))

/-! ## Reading a header -/

/-- Each read of the header is a read of the adapter and a write to the object. -/
theorem readType_apply (d : Deserializer) (obj : Nat) :
    d.readType obj = { d with adapter := d.adapter.readBytes2.2 }.update obj
      fun c => { c with type := d.adapter.readBytes2.1 } := rfl

theorem readIpv4_apply (d : Deserializer) (obj : Nat) :
    let r₀ := d.adapter.readBytes1
    let r₁ := r₀.2.readBytes1
    let r₂ := r₁.2.readBytes1
    let r₃ := r₂.2.readBytes1
    d.readIpv4 obj = { d with adapter := r₃.2 }.update obj
      fun c => { c with networkNode.ipv4 := ⟨r₀.1, r₁.1, r₂.1, r₃.1⟩ } := rfl

theorem readName_apply (d : Deserializer) (obj : Nat) :
    let size := d.adapter.readSize (some 64)
    let name := size.2.readBuffer size.1
    d.readName obj = { d with adapter := name.2 }.update obj
      fun c => { c with name := name.1 } := rfl

theorem readContentsSize_apply (d : Deserializer) (obj : Nat) :
    let size := d.adapter.readSize (some maxFileCapacity)
    d.readContentsSize obj = (size.1, { d with adapter := size.2 }.update obj fun c =>
      { c with
        contents := c.contents.take size.1 ++
          List.replicate (size.1 - c.contents.length) none }) := rfl

/-- A header creates nothing, so only its reads count. -/
theorem readType_progress (d : Deserializer) (obj : Nat) : Progress d (d.readType obj) := by
  rw [readType_apply]
  exact Progress.of_adapter (update_length ..) (InputBufferAdapter.left_readBytes2_le _)

theorem readIpv4_progress (d : Deserializer) (obj : Nat) : Progress d (d.readIpv4 obj) := by
  rw [readIpv4_apply]
  exact Progress.of_adapter (update_length ..) ((InputBufferAdapter.left_readBytes1_le _).trans
    ((InputBufferAdapter.left_readBytes1_le _).trans
      ((InputBufferAdapter.left_readBytes1_le _).trans (InputBufferAdapter.left_readBytes1_le _))))

theorem readName_progress (d : Deserializer) (obj : Nat) : Progress d (d.readName obj) := by
  rw [readName_apply]
  exact Progress.of_adapter (update_length ..)
    ((InputBufferAdapter.left_readBuffer_le _ _).trans (InputBufferAdapter.left_readSize_le _ _))

/-- The number of children says nothing yet about new objects: the slots are null. -/
theorem readContentsSize_progress (d : Deserializer) (obj : Nat) :
    Progress d (d.readContentsSize obj).2 := by
  rw [readContentsSize_apply]
  exact Progress.of_adapter (update_length ..) (InputBufferAdapter.left_readSize_le _ _)

/-- What the reader is at does not matter for what it has written. -/
theorem Confined.withAdapter (h : Confined base content d) (adapter : InputBufferAdapter) :
    Confined base content { d with adapter } := ⟨h.base_le, h.shared, h.objects⟩

/-- Type and address are not what confines an object. -/
theorem Confined.readType (h : Confined base content d) (obj : Nat) :
    Confined base content (d.readType obj) := by
  rw [readType_apply]
  exact (h.withAdapter _).update obj fun _ hc =>
    ⟨⟨hc.limits.name, hc.limits.contents⟩, hc.contents⟩

theorem Confined.readIpv4 (h : Confined base content d) (obj : Nat) :
    Confined base content (d.readIpv4 obj) := by
  rw [readIpv4_apply]
  exact (h.withAdapter _).update obj fun _ hc =>
    ⟨⟨hc.limits.name, hc.limits.contents⟩, hc.contents⟩

/-- No read gives more bytes than it was asked for. -/
theorem length_readBuffer (r : InputBufferAdapter) (n : Nat) : (r.readBuffer n).1.length ≤ n := by
  unfold InputBufferAdapter.readBuffer
  split_ifs
  · exact List.length_take_le _ _
  · rw [List.length_replicate]

/-- The limit of 64 is checked before the name is read. -/
theorem Confined.readName (h : Confined base content d) (obj : Nat) :
    Confined base content (d.readName obj) := by
  rw [readName_apply]
  exact (h.withAdapter _).update obj fun _ hc =>
    ⟨⟨(length_readBuffer _ _).trans (InputBufferAdapter.readSize_le _ 64), hc.limits.contents⟩,
      hc.contents⟩

/-- Neither the resized vector is too long nor are its new slots pointers. -/
theorem Confined.readContentsSize (h : Confined base content d) (obj : Nat) :
    Confined base content (d.readContentsSize obj).2 := by
  rw [readContentsSize_apply]
  refine (h.withAdapter _).update obj fun c hc => ⟨⟨hc.limits.name, ?_⟩, fun b hb => ?_⟩
  · have hsize := InputBufferAdapter.readSize_le d.adapter maxFileCapacity
    simp only [List.length_append, List.length_take, List.length_replicate]
    omega
  · rcases List.mem_append.mp hb with hin | hnull
    · -- a slot that was there before
      exact hc.contents b (List.mem_of_mem_take hin)
    · exact absurd (List.eq_of_mem_replicate hnull) (by simp)

/-- The header of an object, up to the number of its children. -/
def readHeader (d : Deserializer) (obj : Nat) : Nat × Deserializer :=
  (((d.readType obj).readIpv4 obj).readName obj).readContentsSize obj

/-- Nothing in a header puts anything back. -/
theorem readHeader_progress (d : Deserializer) (obj : Nat) : Progress d (d.readHeader obj).2 :=
  (((readType_progress d obj).trans (readIpv4_progress _ obj)).trans
    (readName_progress _ obj)).trans (readContentsSize_progress _ obj)

/-- Nothing in a header leads out of what was created. -/
theorem Confined.readHeader (h : Confined base content d) (obj : Nat) :
    Confined base content (d.readHeader obj).2 :=
  (((h.readType obj).readIpv4 obj).readName obj).readContentsSize obj

/-! ## Reading the children -/

/-- What reading an object does to a decoder with fewer than `fuel` bytes left. -/
def Returns (base content fuel : Nat) (fnc : Nat → Deserializer → Option Deserializer) : Prop :=
  ∀ obj d, obj = content ∨ base ≤ obj → Confined base content d → d.adapter.left < fuel →
    ∃ d', fnc obj d = some d' ∧ Confined base content d' ∧ Progress d d'

/-- A pointer that is read out of a slot leads to something new. -/
theorem Confined.getPtr (h : Confined base content d) {obj i a : Nat}
    (hobj : obj = content ∨ base ≤ obj) (hptr : d.getPtr obj i = some a) : base ≤ a := by
  obtain ⟨c, hc, hslot⟩ := Option.bind_eq_some_iff.mp hptr
  exact (h.objects obj c hobj hc).contents a
    (List.mem_of_getElem? (Option.join_eq_some_iff.mp hslot))

/-- `ext`, once the pointer id has been read. -/
def extWithId (fnc : Nat → Deserializer → Option Deserializer) (obj i id : Nat)
    (d : Deserializer) : Option Deserializer :=
  if id ≠ 0 then
    match d.ctx.sharedState id with
    | some ptr => some (d.setPtr obj i (some ptr))
    | none =>
      match d.getPtr obj i with
      | some ptr =>
        (fnc ptr { d with ctx := d.ctx.saveToSharedState id ptr }).map (·.setPtr obj i (some ptr))
      | none =>
        (fnc d.heap.length (d.createShared obj i id)).map (·.setPtr obj i (some d.heap.length))
  else some (d.setPtr obj i none)

/-- `ext` reads the id from the adapter, then does with it what `extWithId` does. -/
theorem ext_apply (fnc : Nat → Deserializer → Option Deserializer) (obj : Nat) (d : Deserializer)
    (i : Nat) :
    ext fnc obj d i = extWithId fnc obj i (d.adapter.readSize none).1
      { d with adapter := (d.adapter.readSize none).2 } := rfl

/-- What follows the id of a child. Only an id that is not zero leads on, and it has cost a
byte. -/
theorem extWithId_progress {fuel obj id : Nat} {fnc : Nat → Deserializer → Option Deserializer}
    {d₁ : Deserializer} (hfnc : Returns base content fuel fnc)
    (hobj : obj = content ∨ base ≤ obj) (h : Confined base content d₁) (hp : Progress d d₁)
    (hlen : d₁.heap.length = d.heap.length)
    (hid : id ≠ 0 → d₁.adapter.left < d.adapter.left) (hleft : d.adapter.left ≤ fuel) (i : Nat) :
    ∃ d', extWithId fnc obj i id d₁ = some d' ∧ Confined base content d' ∧ Progress d d' := by
  unfold extWithId
  split_ifs with hne
  · -- below, only an id that is not zero matters: it makes the fuel suffice
    have hlt := hid hne
    cases hshared : d₁.ctx.sharedState id with
    | some ptr =>
      -- the id has been seen: the slot shares the object, and nothing more is read
      exact ⟨_, rfl, h.setPtr obj i (by simpa using h.shared id ptr hshared), hp.setPtr obj i _⟩
    | none =>
      cases hslot : d₁.getPtr obj i with
      | some ptr =>
        have hbase := h.getPtr hobj hslot
        obtain ⟨d₂, hrun, hc₂, hp₂⟩ := hfnc ptr _ (Or.inr hbase) (h.saveToSharedState id hbase)
          (by show d₁.adapter.left < fuel; omega)
        have hread : Progress d₁ d₂ := ⟨hp₂.left, hp₂.length, hp₂.created⟩
        simp only [hrun, Option.map_some]
        exact ⟨_, rfl, hc₂.setPtr obj i (by simpa using hbase), (hp.trans hread).setPtr obj i _⟩
      | none =>
        have hbase := h.base_le
        obtain ⟨d₂, hrun, hc₂, hp₂⟩ := hfnc d₁.heap.length _ (Or.inr hbase)
          (h.createShared obj i id) (by show d₁.adapter.left < fuel; omega)
        -- the new object is paid for by the byte of its id
        have hcreated : Progress d (d₁.createShared obj i id) := by
          refine ⟨hp.left, ?_, ?_⟩
          · rw [length_createShared]
            omega
          · rw [length_createShared]
            show d₁.adapter.left + (d₁.heap.length + 1) ≤ _
            omega
        simp only [hrun, Option.map_some]
        exact ⟨_, rfl, hc₂.setPtr obj i (by simpa using hbase),
          (hcreated.trans hp₂).setPtr obj i _⟩
  · exact ⟨_, rfl, h.setPtr obj i (by simp), hp.setPtr obj i none⟩

/-- One child. `hfnc` is what is known of the recursive call. -/
theorem ext_progress {fuel obj : Nat} {fnc : Nat → Deserializer → Option Deserializer}
    (hfnc : Returns base content fuel fnc) (hobj : obj = content ∨ base ≤ obj)
    (h : Confined base content d) (hleft : d.adapter.left ≤ fuel) (i : Nat) :
    ∃ d', ext fnc obj d i = some d' ∧ Confined base content d' ∧ Progress d d' := by
  have hread : Progress d { d with adapter := (d.adapter.readSize none).2 } :=
    Progress.of_adapter rfl (InputBufferAdapter.left_readSize_le _ _)
  rw [ext_apply]
  exact extWithId_progress hfnc hobj (h.withAdapter _) hread rfl
    InputBufferAdapter.left_readSize_lt hleft i

/-- All children, one after the other. -/
theorem foldlM_ext_progress {fuel obj : Nat} {fnc : Nat → Deserializer → Option Deserializer}
    (hfnc : Returns base content fuel fnc) (hobj : obj = content ∨ base ≤ obj) (is : List Nat)
    (h : Confined base content d) (hleft : d.adapter.left ≤ fuel) :
    ∃ d', is.foldlM (ext fnc obj) d = some d' ∧ Confined base content d' ∧ Progress d d' := by
  induction is generalizing d with
  | nil => exact ⟨d, rfl, h, Progress.refl d⟩
  | cons i is ih =>
    obtain ⟨d₁, hrun₁, hc₁, hp₁⟩ := ext_progress hfnc hobj h hleft i
    obtain ⟨d₂, hrun₂, hc₂, hp₂⟩ := ih hc₁ (hp₁.left.trans hleft)
    refine ⟨d₂, ?_, hc₂, hp₁.trans hp₂⟩
    rw [List.foldlM_cons, hrun₁]
    exact hrun₂

end

end Deserializer

/-- One level of the recursion: the header, then a loop over the children. -/
theorem deserialize_succ (fuel obj : Nat) (d : Deserializer) :
    deserialize (fuel + 1) obj d =
      (List.range (d.readHeader obj).1).foldlM (Deserializer.ext (deserialize fuel) obj)
        (d.readHeader obj).2 := by
  rw [deserialize, Deserializer.readHeader]

/-- **Decoding ends.** Induction on the fuel, which is more than what is left to read. -/
theorem deserialize_progress (base content fuel : Nat) :
    Deserializer.Returns base content fuel (deserialize fuel) := by
  induction fuel with
  | zero => exact fun obj d _ _ hleft => absurd hleft (Nat.not_lt_zero _)
  | succ fuel ih =>
    intro obj d hobj h hleft
    -- the children have at most what the header leaves
    have hp := Deserializer.readHeader_progress d obj
    obtain ⟨d', hrun, hc', hp'⟩ := Deserializer.foldlM_ext_progress ih hobj
      (List.range (d.readHeader obj).1) (h.readHeader obj) (by have := hp.left; omega)
    exact ⟨d', (deserialize_succ fuel obj d).trans hrun, hc', hp.trans hp'⟩

end Guthi
