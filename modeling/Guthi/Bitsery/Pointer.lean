import Mathlib.Tactic

/-!
# Bitsery — pointer linking contexts

The two maps of `PointerLinkingContext` (`ext/utils/pointer_utils.h`). Writing, each distinct
pointer gets the next id when it is met first; reading, each id names the object that was
created for it. Every pointer of the file tree is a `std::shared_ptr`, so the ownership type
is `SharedOwner` throughout and is left out, and an entry counts as processed
(`isSharedProcessed`) from its second visit on.

`Numbered` and `Linked` say what the maps hold after a given list of first visits; the
lookup lemmas below are all the round trip uses of the maps.
-/

namespace Guthi.Bitsery

/-- `PointerLinkingContextSerialization`: from a pointer to its id. -/
structure PointerLinkingContextSerialization where
  currId : Nat := 0
  ptrMap : List (Nat × Nat) := []
deriving DecidableEq, Repr

/-- `PLCInfoSerializer`, the part that a caller of `getInfoByPtr` reads. -/
structure PLCInfoSerializer where
  id : Nat
  isSharedProcessed : Bool
deriving DecidableEq, Repr

/-- A pointer that was not met before gets the next id. -/
def PointerLinkingContextSerialization.enter (ctx : PointerLinkingContextSerialization)
    (ptr : Nat) : PointerLinkingContextSerialization :=
  { currId := ctx.currId + 1, ptrMap := (ptr, ctx.currId + 1) :: ctx.ptrMap }

/-- `getInfoByPtr`: a pointer met before keeps its id and is marked processed, a new one gets
the next id. -/
def PointerLinkingContextSerialization.getInfoByPtr (ctx : PointerLinkingContextSerialization)
    (ptr : Nat) : PLCInfoSerializer × PointerLinkingContextSerialization :=
  match ctx.ptrMap.lookup ptr with
  | some id => (⟨id, true⟩, ctx)
  | none => (⟨ctx.currId + 1, false⟩, ctx.enter ptr)

/-- `PointerLinkingContextDeserialization`: from an id to the object its shared state holds.
An id is entered together with its shared state, so an absent id and an id without shared
state are the same. -/
structure PointerLinkingContextDeserialization where
  idMap : List (Nat × Nat) := []
deriving DecidableEq, Repr

/-- The object in `getInfoById(id).sharedState`. -/
def PointerLinkingContextDeserialization.sharedState
    (ctx : PointerLinkingContextDeserialization) (id : Nat) : Option Nat := ctx.idMap.lookup id

/-- `saveToSharedState`: from now on the id names this object. -/
def PointerLinkingContextDeserialization.saveToSharedState
    (ctx : PointerLinkingContextDeserialization) (id ptr : Nat) :
    PointerLinkingContextDeserialization := { idMap := (id, ptr) :: ctx.idMap }

/-- A new id names its object, any other what it named before. -/
theorem sharedState_save (ctx : PointerLinkingContextDeserialization) (id ptr id' : Nat) :
    (ctx.saveToSharedState id ptr).sharedState id' =
      if id' = id then some ptr else ctx.sharedState id' := by
  show List.lookup id' ((id, ptr) :: ctx.idMap) = _
  rw [List.lookup_cons]
  by_cases hid : id' = id
  · simp [hid]
  · -- the newest entry is looked at first
    have hbeq : (id' == id) = false := by simpa using hid
    rw [hbeq, if_neg hid]
    rfl

/-! ## What the writing context holds -/

/-- The pointers `visited`, in the order of their first visit, have the ids `1, 2, …`. -/
structure Numbered (ctx : PointerLinkingContextSerialization) (visited : List Nat) : Prop where
  currId : ctx.currId = visited.length
  lookup : ∀ ptr, ctx.ptrMap.lookup ptr =
    if ptr ∈ visited then some (visited.idxOf ptr + 1) else none

/-- Before the first pointer, nothing is numbered. -/
theorem numbered_nil : Numbered {} [] := ⟨rfl, by simp⟩

namespace Numbered

variable {ctx : PointerLinkingContextSerialization} {visited : List Nat} {ptr : Nat}

/-- A pointer that was met has its place in the numbering as its id, and the context stays as it is.
-/
theorem getInfoByPtr_mem (h : Numbered ctx visited) (hmem : ptr ∈ visited) :
    ctx.getInfoByPtr ptr = (⟨visited.idxOf ptr + 1, true⟩, ctx) := by
  rw [PointerLinkingContextSerialization.getInfoByPtr, h.lookup, if_pos hmem]

/-- A new pointer gets the id behind all others. -/
theorem getInfoByPtr_new (h : Numbered ctx visited) (hnew : ptr ∉ visited) :
    ctx.getInfoByPtr ptr = (⟨visited.length + 1, false⟩, ctx.enter ptr) := by
  rw [PointerLinkingContextSerialization.getInfoByPtr, h.lookup, if_neg hnew, ← h.currId]

/-- Entering a new pointer numbers it last. -/
theorem enter (h : Numbered ctx visited) (hnew : ptr ∉ visited) :
    Numbered (ctx.enter ptr) (visited ++ [ptr]) := by
  refine ⟨by simp [PointerLinkingContextSerialization.enter, h.currId], fun p => ?_⟩
  show List.lookup p ((ptr, ctx.currId + 1) :: ctx.ptrMap) = _
  rw [List.lookup_cons, h.lookup]
  by_cases hp : p = ptr
  · -- the new pointer is the last one of the numbering
    subst hp
    simp [List.idxOf_append_of_notMem hnew, h.currId]
  · have hbeq : (p == ptr) = false := by simpa using hp
    rw [hbeq]
    -- any other pointer keeps its position
    by_cases hv : p ∈ visited
    · simp [hv, List.idxOf_append_of_mem hv]
    · simp [hv, hp]

end Numbered

/-! ## What the reading context holds -/

/-- The ids `1, …, n` name the consecutive addresses `base, …, base + n - 1`, and no other id
has been met. -/
def Linked (ctx : PointerLinkingContextDeserialization) (base n : Nat) : Prop :=
  ∀ i, ctx.sharedState (i + 1) = if i < n then some (base + i) else none

/-- Before the first object, no id is linked. -/
theorem linked_zero (base : Nat) : Linked {} base 0 := fun _ => rfl

/-- Objects that are made one after the other are linked to the next id each. -/
theorem Linked.save {ctx : PointerLinkingContextDeserialization} {base n : Nat}
    (h : Linked ctx base n) :
    Linked (ctx.saveToSharedState (n + 1) (base + n)) base (n + 1) := by
  intro i
  rw [sharedState_save, h i]
  -- the id of the new object, or another one
  by_cases hin : i = n
  · subst hin
    rw [if_pos rfl, if_pos (Nat.lt_succ_self i)]
  · rw [if_neg (fun heq => hin (Nat.succ.inj heq))]
    simp only [show i < n + 1 ↔ i < n by omega]

end Guthi.Bitsery
