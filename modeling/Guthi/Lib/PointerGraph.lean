import Mathlib.Tactic

/-!
# Object graphs on a heap

A heap is a list of objects, an address is an index into it. What an object points to is
given by a function `succ`, so the module knows nothing about the objects themselves.

* `Points succ h a b` — the object at `a` points to `b`;
* `Reaches succ h r a` — `a` can be reached from `r`;
* `Grounded succ h a` — every pointer path from `a` ends, so none leads back;
* `Sealed succ h T`, `Unshared succ h a` — a part of the heap no pointer leaves, and a graph that
  is a tree;
* `Relocation` — one graph is a renamed copy of another: objects correspond one to one,
  pointers correspond to pointers, and distinct objects stay distinct.
-/

namespace Guthi.PointerGraph

variable {α β : Type*} (succ : α → List Nat)

/-- The object at `a` has a pointer to `b`. -/
def Points (h : List α) (a b : Nat) : Prop :=
  ∃ c, h[a]? = some c ∧ b ∈ succ c

/-- A chain of pointers leads from the one object to the other. -/
def Reaches (h : List α) : Nat → Nat → Prop := Relation.ReflTransGen (Points succ h)

/-- No pointer path of at least one step leads from a reachable object back to itself. -/
def Acyclic (h : List α) (r : Nat) : Prop :=
  ∀ a, Reaches succ h r a → ¬ Relation.TransGen (Points succ h) a a

/-- Nothing that is reached dangles. -/
def Closed (h : List α) (r : Nat) : Prop :=
  ∀ a, Reaches succ h r a → a < h.length

variable {succ}

/-- Every object reaches itself, over no pointer. -/
theorem Reaches.refl {h : List α} (r : Nat) : Reaches succ h r r := Relation.ReflTransGen.refl

theorem Reaches.tail {h : List α} {r a b : Nat} (hr : Reaches succ h r a)
    (hp : Points succ h a b) : Reaches succ h r b := Relation.ReflTransGen.tail hr hp

/-- A heap whose pointers all lead to later objects is closed and acyclic from any object. -/
theorem closed_and_acyclic_of_forward {h : List α} {r : Nat} (hr : r < h.length)
    (hforward : ∀ a b, Points succ h a b → a < b ∧ b < h.length) :
    Closed succ h r ∧ Acyclic succ h r := by
  -- along a path the addresses grow, so none leads back
  have hpath : ∀ a b, Relation.TransGen (Points succ h) a b → a < b := by
    intro a b hab
    induction hab with
    | single hp => exact (hforward _ _ hp).1
    | tail _ hp ih => exact Nat.lt_trans ih (hforward _ _ hp).1
  refine ⟨fun a ha => ?_, fun a _ hcycle => Nat.lt_irrefl a (hpath a a hcycle)⟩
  cases ha with
  | refl => exact hr
  | tail _ hp => exact (hforward _ _ hp).2

/-! ## Paths that end -/

/-- Every pointer path from the object ends: induction over it is induction over what it points
to. -/
def Grounded (succ : α → List Nat) (h : List α) : Nat → Prop :=
  Acc fun b a => Points succ h a b

/-- From what is reached, all paths end too. -/
theorem Grounded.of_reaches {h : List α} {r a : Nat} (hr : Grounded succ h r)
    (ha : Reaches succ h r a) : Grounded succ h a := by
  induction ha with
  | refl => exact hr
  | tail _ hpoints ih => exact ih.inv hpoints

/-- A path that ends does not come back. -/
theorem Grounded.acyclic {h : List α} {r : Nat} (hr : Grounded succ h r) : Acyclic succ h r := by
  intro a ha hcycle
  -- induction on `a`: the first object of a path back to `a` would lie on a cycle as well
  have hground := hr.of_reaches ha
  clear ha
  induction hground with
  | intro a _ ih =>
    obtain ⟨b, hab, hba⟩ := Relation.TransGen.head'_iff.mp hcycle
    exact ih b hab (Relation.TransGen.tail' hba hab)

/-! ## Separate parts of the heap -/

/-- No pointer leads out of `T`. -/
def Sealed (succ : α → List Nat) (h : List α) (T : Set Nat) : Prop :=
  ∀ a ∈ T, ∀ b, Points succ h a b → b ∈ T

/-- What is reached from an object is sealed. -/
theorem sealed_reaches (h : List α) (r : Nat) : Sealed succ h {a | Reaches succ h r a} :=
  fun _ ha _ hpoints => Reaches.tail ha hpoints

/-- Two sealed parts together are sealed. -/
theorem Sealed.union {h : List α} {S T : Set Nat} (hS : Sealed succ h S) (hT : Sealed succ h T) :
    Sealed succ h (S ∪ T) := by
  rintro a (ha | ha) b hpoints
  · exact Or.inl (hS a ha b hpoints)
  · exact Or.inr (hT a ha b hpoints)

/-- No path leads out of a sealed part. -/
theorem Sealed.mem_of_reaches {h : List α} {T : Set Nat} (hT : Sealed succ h T) {a b : Nat}
    (ha : a ∈ T) (hb : Reaches succ h a b) : b ∈ T := by
  induction hb with
  | refl => exact ha
  | tail _ hpoints ih => exact hT _ ih _ hpoints

/-- Another heap with the same objects in `T` is sealed there as well. -/
theorem Sealed.congr {h h' : List α} {T : Set Nat} (hT : Sealed succ h T)
    (hagree : ∀ a ∈ T, h'[a]? = h[a]?) : Sealed succ h' T := by
  rintro a ha b ⟨c, hc, hmem⟩
  exact hT a ha b ⟨c, (hagree a ha).symm.trans hc, hmem⟩

/-- What lies below `a` is a tree: the pointers of one object lead to separate trees. -/
inductive Unshared (succ : α → List Nat) (h : List α) : Nat → Prop where
  | intro {a : Nat} (below : ∀ b, Points succ h a b → Unshared succ h b)
      (apart : ∀ c, h[a]? = some c → (succ c).Pairwise fun b b' =>
        ∀ x, Reaches succ h b x → ¬ Reaches succ h b' x) : Unshared succ h a

/-- Where nothing is shared, all paths end. -/
theorem Unshared.grounded {h : List α} {a : Nat} (ha : Unshared succ h a) : Grounded succ h a := by
  induction ha with
  | intro _ _ ih => exact .intro _ ih

/-! ## Renamed copies -/

/-- The graph rooted at `r'` in `h'` is a copy of the graph rooted at `r` in `h`: address `a`
became `φ a`, and each object was renamed by `ren φ`. -/
structure Relocation (succ : α → List Nat) (ren : (Nat → Nat) → α → α)
    (h : List α) (r : Nat) (h' : List α) (r' : Nat) (φ : Nat → Nat) : Prop where
  root : φ r = r'
  object : ∀ a c, Reaches succ h r a → h[a]? = some c → h'[φ a]? = some (ren φ c)
  injective : ∀ a b, Reaches succ h r a → Reaches succ h r b → φ a = φ b → a = b

end Guthi.PointerGraph
