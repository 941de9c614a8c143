import Guthi.Filesystem.Accepted
import Guthi.Filesystem.Formatter

/-!
# Guthi — the graph of an accepted input

What the input says about the graph that it decodes to. An id may be given for any node met
before, also for one that the child stands inside of (`Slots.refersBack`); a child may be a null
pointer (`Slots.hasNull`), and a type any word.

* `DecodesTo.grounded`, `DecodesTo.cyclic` — the graph has a cycle exactly when the input refers
  back;
* `DecodesTo.unshared` — without any reference the graph is a tree;
* `DecodesTo.wellFormed_iff` — the graph is sound exactly when the input has no null pointer and
  names the types it gives.
-/

namespace Guthi

open Bitsery PointerGraph

namespace Slots

/-- A child gives the id of a node that it stands inside of; `opn` are the ids of those around
the list. -/
def refersBack (opn : List Nat) : Slots → Bool
  | nil => false
  | null rest => rest.refersBack opn
  | ref id rest => opn.contains id || rest.refersBack opn
  | node id _ children rest => children.refersBack (id :: opn) || rest.refersBack opn

/-- A child gives an id met before. -/
def hasRef : Slots → Bool
  | nil => false
  | null rest => rest.hasRef
  | ref _ _ => true
  | node _ _ children rest => children.hasRef || rest.hasRef

/-- A child of some node is a null pointer. -/
def hasNull : Slots → Bool
  | nil => false
  | null _ => true
  | ref _ rest => rest.hasNull
  | node _ _ children rest => children.hasNull || rest.hasNull

/-- The ids of the nodes, in the order they are met. -/
def ids (ss : Slots) : List Nat := ss.nodes.map (·.1)

/-- The heap holds the nodes, each where its id says. -/
def PlacedAt (ss : Slots) (heap : Heap) (base : Nat) (V : List Nat) : Prop :=
  ∀ x ∈ ss.nodes, heap[base + V.idxOf x.1]? = some (x.2.1.toFileContent (x.2.2.targets base V))

variable {heap : Heap} {base : Nat} {V : List Nat} {id : Nat} {hd : Header} {cs tail : Slots}

/-- The ids of a node, of those below it and of those behind it. -/
theorem ids_node : (node id hd cs tail).ids = id :: (cs.ids ++ tail.ids) := by
  simp [ids, nodes]

/-- The object of the node itself. -/
theorem PlacedAt.self (h : (node id hd cs tail).PlacedAt heap base V) :
    heap[base + V.idxOf id]? = some (hd.toFileContent (cs.targets base V)) :=
  h (id, hd, cs) List.mem_cons_self

/-- The objects of the nodes below it. -/
theorem PlacedAt.children (h : (node id hd cs tail).PlacedAt heap base V) :
    cs.PlacedAt heap base V := fun x hx =>
  h x (List.mem_cons_of_mem _ (List.mem_append_left _ hx))

/-- The objects of the nodes behind it. -/
theorem PlacedAt.rest (h : (node id hd cs tail).PlacedAt heap base V) :
    tail.PlacedAt heap base V := fun x hx =>
  h x (List.mem_cons_of_mem _ (List.mem_append_right _ hx))

/-- What the object of a header with these children points to. -/
theorem points_iff {ss : Slots} {p : Addr}
    (hp : heap[p]? = some (hd.toFileContent (ss.targets base V))) {a : Addr} :
    heap.Points p a ↔ some a ∈ ss.targets base V := by
  constructor
  · rintro ⟨c, hc, hmem⟩
    cases hp.symm.trans hc
    exact FileContent.mem_children.mp hmem
  · exact fun ha => ⟨_, hp, FileContent.mem_children.mpr ha⟩

end Slots

/-- A parse adds the ids of the nodes it reads. -/
theorem Parses.ids_eq {ids ids' : List Nat} {n : Nat} {bs bs' : Bytes} {ss : Slots}
    (h : Parses ids n bs ss ids' bs') : ids' = ids ++ ss.ids := by
  induction h with
  | nil ids bs => exact (List.append_nil ids).symm
  | null _ _ ih => exact ih
  | ref _ _ _ _ ih => exact ih
  | node _ _ _ _ _ _ ih₁ ih =>
    rw [ih, ih₁, Slots.ids_node]
    simp

theorem Parses.nodup {ids ids' : List Nat} {n : Nat} {bs bs' : Bytes} {ss : Slots}
    (h : Parses ids n bs ss ids' bs') (hids : ids.Nodup) : ids'.Nodup := by
  induction h with
  | nil ids bs => exact hids
  | null _ _ ih => exact ih hids
  | ref _ _ _ _ ih => exact ih hids
  | node _ _ hnew _ _ _ ih₁ ih =>
    exact ih (ih₁ (List.nodup_append.mpr ⟨hids, by simp, by
      rintro a ha b hb rfl
      exact hnew (List.mem_singleton.mp hb ▸ ha)⟩))

/-! ## Cycles -/

section Cycles

variable {heap : Heap} {base : Nat} {V : List Nat}

/-- Without a reference back every pointer path ends: induction on the input. The nodes that are
still open are not met again, and the others have been dealt with. -/
theorem Parses.grounded {ids ids' : List Nat} {n : Nat} {bs bs' : Bytes} {ss : Slots}
    (h : Parses ids n bs ss ids' bs') : ∀ opn : List Nat, ss.refersBack opn = false →
      ss.PlacedAt heap base V →
      (∀ id ∈ ids, id ∉ opn → Grounded FileContent.children heap (base + V.idxOf id)) →
      (∀ id ∈ ids', id ∉ opn → Grounded FileContent.children heap (base + V.idxOf id)) ∧
        ∀ a, some a ∈ ss.targets base V → Grounded FileContent.children heap a := by
  induction h with
  | nil ids bs => exact fun opn _ _ hids => ⟨hids, fun a ha => (nomatch ha)⟩
  | null _ _ ih =>
    intro opn hback hplaced hids
    obtain ⟨hids', htargets⟩ := ih opn hback hplaced hids
    exact ⟨hids', fun a ha => htargets a (by simpa [Slots.targets] using ha)⟩
  | @ref ids n bs id bs₁ ss ids' bs' _ _ hmem _ ih =>
    intro opn hback hplaced hids
    simp only [Slots.refersBack, Bool.or_eq_false_iff, List.contains_eq_mem,
      decide_eq_false_iff_not] at hback
    obtain ⟨hids', htargets⟩ := ih opn hback.2 hplaced hids
    refine ⟨hids', fun a ha => ?_⟩
    rcases List.mem_cons.mp ha with heq | ha
    · cases heq
      exact hids id hmem hback.1
    · exact htargets a ha
  | @node ids n bs id bs₁ hd m bs₂ cs ids₁ bs₃ ss ids' bs' _ _ _ _ children _ ih₁ ih =>
    intro opn hback hplaced hids
    simp only [Slots.refersBack, Bool.or_eq_false_iff] at hback
    obtain ⟨hids₁, hchildren⟩ := ih₁ (id :: opn) hback.1 hplaced.children fun j hj hout => by
      simp only [List.mem_cons, not_or] at hout
      rcases List.mem_append.mp hj with hj | hj
      · exact hids j hj hout.2
      · exact absurd (List.mem_singleton.mp hj) hout.1
    have hself : Grounded FileContent.children heap (base + V.idxOf id) :=
      .intro _ fun b hb => hchildren b ((Slots.points_iff hplaced.self).mp hb)
    obtain ⟨hids', htargets⟩ := ih opn hback.2 hplaced.rest fun j hj hout => by
      -- the node that has just been closed, or one from before
      by_cases hjid : j = id
      · exact hjid ▸ hself
      · exact hids₁ j hj (by simp [hjid, hout])
    refine ⟨hids', fun a ha => ?_⟩
    rcases List.mem_cons.mp ha with heq | ha
    · cases heq
      exact hself
    · exact htargets a ha

/-- A reference back closes a cycle. `p` is the object the list belongs to, and lies below all
that are open. -/
theorem Slots.cyclic (ss : Slots) : ∀ (opn : List Nat) (p : Addr), ss.refersBack opn = true →
    ss.PlacedAt heap base V → (∀ a, some a ∈ ss.targets base V → heap.Points p a) →
    (∀ id ∈ opn, heap.Reaches (base + V.idxOf id) p) →
    ∃ a, heap.Reaches p a ∧ Relation.TransGen heap.Points a a := by
  induction ss with
  | nil => exact fun opn p hback => absurd hback (by simp [refersBack])
  | null rest ih =>
    exact fun opn p hback hplaced hpoints =>
      ih opn p hback hplaced fun a ha => hpoints a (List.mem_cons_of_mem _ ha)
  | ref id rest ih =>
    intro opn p hback hplaced hpoints hopn
    simp only [refersBack, Bool.or_eq_true, List.contains_eq_mem, decide_eq_true_eq] at hback
    rcases hback with hid | hback
    · -- the open node reaches `p`, which points to it
      have hpid := hpoints _ List.mem_cons_self
      exact ⟨p, Reaches.refl p, Relation.TransGen.head' hpid (hopn id hid)⟩
    · exact ih opn p hback hplaced (fun a ha => hpoints a (List.mem_cons_of_mem _ ha)) hopn
  | node id hd cs rest ihcs ih =>
    intro opn p hback hplaced hpoints hopn
    simp only [refersBack, Bool.or_eq_true] at hback
    have hpid := hpoints _ List.mem_cons_self
    -- the reference lies below the node, or behind it
    rcases hback with hback | hback
    · obtain ⟨a, hreach, hcycle⟩ := ihcs (id :: opn) (base + V.idxOf id) hback hplaced.children
        (fun a ha => (points_iff hplaced.self).mpr ha) fun j hj => by
          rcases List.mem_cons.mp hj with rfl | hj
          · exact Reaches.refl _
          · exact (hopn j hj).tail hpid
      exact ⟨a, .head hpid hreach, hcycle⟩
    · exact ih opn p hback hplaced.rest (fun a ha => hpoints a (List.mem_cons_of_mem _ ha)) hopn

end Cycles

/-! ## Trees -/

section Unshared

variable {heap : Heap} {base : Nat} {V : List Nat}

/-- Without a reference the children of a list are separate trees: what one of them reaches are
nodes of its own. Induction on the input. -/
theorem Slots.unshared (ss : Slots) : ss.hasRef = false → ss.PlacedAt heap base V → ss.ids.Nodup →
    (∀ id ∈ ss.ids, id ∈ V) →
    (∀ a, some a ∈ ss.targets base V → Unshared FileContent.children heap a ∧
      ∀ b, heap.Reaches a b → ∃ id ∈ ss.ids, b = base + V.idxOf id) ∧
    ((ss.targets base V).filterMap id).Pairwise fun b b' =>
      ∀ x, heap.Reaches b x → ¬ heap.Reaches b' x := by
  induction ss with
  | nil => exact fun _ _ _ _ => ⟨fun a ha => (nomatch ha), List.Pairwise.nil⟩
  | null rest ih =>
    intro href hplaced hnodup hV
    obtain ⟨htargets, hpairwise⟩ := ih href hplaced hnodup hV
    exact ⟨fun a ha => htargets a (by simpa [targets] using ha), hpairwise⟩
  | ref id rest ih => exact fun href => absurd href (by simp [hasRef])
  | node id hd cs rest ihcs ih =>
    intro href hplaced hnodup hV
    simp only [hasRef, Bool.or_eq_false_iff] at href
    rw [ids_node] at hnodup hV
    obtain ⟨hid, hnodup⟩ := List.nodup_cons.mp hnodup
    obtain ⟨hnodupcs, hnoduprest, hdisjoint⟩ := List.nodup_append.mp hnodup
    -- below the node, behind it, and the two apart by their ids
    obtain ⟨hcs, hapart⟩ := ihcs href.1 hplaced.children hnodupcs fun j hj => hV j (by simp [hj])
    obtain ⟨hrest, hpairwise⟩ := ih href.2 hplaced.rest hnoduprest fun j hj => hV j (by simp [hj])
    have hpoints := fun a => points_iff (a := a) hplaced.self
    have hself : Unshared FileContent.children heap (base + V.idxOf id) := by
      refine .intro (fun b hb => (hcs b ((hpoints b).mp hb)).1) fun c hc => ?_
      cases hplaced.self.symm.trans hc
      exact hapart
    -- the node reaches itself and the nodes below it
    have hreach : ∀ b, heap.Reaches (base + V.idxOf id) b →
        ∃ j ∈ id :: cs.ids, b = base + V.idxOf j := by
      intro b hb
      rcases Relation.ReflTransGen.cases_head hb with rfl | ⟨a, ha, hab⟩
      · exact ⟨id, List.mem_cons_self, rfl⟩
      · obtain ⟨j, hj, heq⟩ := (hcs a ((hpoints a).mp ha)).2 b hab
        exact ⟨j, List.mem_cons_of_mem _ hj, heq⟩
    refine ⟨fun a ha => ?_, ?_⟩
    · rcases List.mem_cons.mp ha with heq | ha
      · cases heq
        refine ⟨hself, fun b hb => ?_⟩
        obtain ⟨j, hj, heq⟩ := hreach b hb
        exact ⟨j, by rw [ids_node]; exact List.mem_cons.mpr ((List.mem_cons.mp hj).imp_right
          (List.mem_append_left _)), heq⟩
      · refine ⟨(hrest a ha).1, fun b hb => ?_⟩
        obtain ⟨j, hj, heq⟩ := (hrest a ha).2 b hb
        exact ⟨j, by rw [ids_node]; simp [hj], heq⟩
    · show List.Pairwise _ (_ :: _)
      refine List.Pairwise.cons (fun b' hb' x hx hx' => ?_) hpairwise
      obtain ⟨j, hj, rfl⟩ := hreach x hx
      obtain ⟨k, hk, heq⟩ := (hrest b' (by simpa using hb')).2 _ hx'
      -- distinct ids name distinct objects
      have hjk : j = k := by
        refine (List.idxOf_inj (hV j ?_)).mp (Nat.add_left_cancel heq)
        exact List.mem_cons.mpr ((List.mem_cons.mp hj).imp_right (List.mem_append_left _))
      subst hjk
      rcases List.mem_cons.mp hj with rfl | hj
      · exact hid (List.mem_append_right _ hk)
      · exact hdisjoint j hj j hk rfl

end Unshared

/-! ## Null pointers and types -/

section WellFormed

variable {heap : Heap} {base : Nat} {V : List Nat}

/-- A null pointer in the input is one in the objects. -/
theorem Slots.hasNull_iff (base : Nat) (V : List Nat) (ss : Slots) : ss.hasNull = true ↔
    none ∈ ss.targets base V ∨ ∃ x ∈ ss.nodes, none ∈ x.2.2.targets base V := by
  induction ss with
  | nil => simp [hasNull, targets, nodes]
  | null rest ih => simp [hasNull, targets]
  | ref id rest ih => simpa [hasNull, targets, nodes] using ih
  | node id hd cs rest ihcs ih =>
    simp only [hasNull, Bool.or_eq_true, ihcs, ih, targets, nodes, List.mem_cons, List.mem_append,
      reduceCtorEq, false_or]
    constructor
    · rintro ((h | ⟨x, hx, h⟩) | (h | ⟨x, hx, h⟩))
      · exact Or.inr ⟨_, Or.inl rfl, h⟩
      · exact Or.inr ⟨x, Or.inr (Or.inl hx), h⟩
      · exact Or.inl h
      · exact Or.inr ⟨x, Or.inr (Or.inr hx), h⟩
    · rintro (h | ⟨x, rfl | hx | hx, h⟩)
      · exact Or.inr (Or.inl h)
      · exact Or.inl (Or.inl h)
      · exact Or.inl (Or.inr ⟨x, hx, h⟩)
      · exact Or.inr (Or.inr ⟨x, hx, h⟩)

/-- Every pointer leads to a node of the input. -/
theorem Parses.targets_named {ids ids' : List Nat} {n : Nat} {bs bs' : Bytes} {ss : Slots}
    (h : Parses ids n bs ss ids' bs') (base : Nat) (V : List Nat) :
    (∀ a, some a ∈ ss.targets base V → ∃ id ∈ ids', a = base + V.idxOf id) ∧
      ∀ x ∈ ss.nodes, ∀ a, some a ∈ x.2.2.targets base V → ∃ id ∈ ids', a = base + V.idxOf id := by
  induction h with
  | nil ids bs => simp [Slots.targets, Slots.nodes]
  | null _ _ ih => exact ⟨fun a ha => ih.1 a (by simpa [Slots.targets] using ha), ih.2⟩
  | ref _ _ hmem rest ih =>
    refine ⟨fun a ha => ?_, ih.2⟩
    rcases List.mem_cons.mp ha with heq | ha
    · cases heq
      exact ⟨_, rest.grows.subset hmem, rfl⟩
    · exact ih.1 a ha
  | node _ _ _ _ children rest ih₁ ih =>
    refine ⟨fun a ha => ?_, fun x hx a ha => ?_⟩
    · rcases List.mem_cons.mp ha with heq | ha
      · cases heq
        exact ⟨_, rest.grows.subset (children.grows.subset (by simp)), rfl⟩
      · exact ih.1 a ha
    · rcases List.mem_cons.mp hx with rfl | hx
      · obtain ⟨id, hid, heq⟩ := ih₁.1 a ha
        exact ⟨id, rest.grows.subset hid, heq⟩
      · rcases List.mem_append.mp hx with hx | hx
        · obtain ⟨id, hid, heq⟩ := ih₁.2 x hx a ha
          exact ⟨id, rest.grows.subset hid, heq⟩
        · exact ih.2 x hx a ha

/-- Every node of the input can be reached from the object its list belongs to. -/
theorem Slots.reaches_nodes (ss : Slots) : ∀ p : Addr, ss.PlacedAt heap base V →
    (∀ a, some a ∈ ss.targets base V → heap.Points p a) →
    ∀ x ∈ ss.nodes, heap.Reaches p (base + V.idxOf x.1) := by
  induction ss with
  | nil => exact fun p _ _ x hx => (nomatch hx)
  | null rest ih =>
    exact fun p hplaced hpoints => ih p hplaced fun a ha => hpoints a (List.mem_cons_of_mem _ ha)
  | ref id rest ih =>
    exact fun p hplaced hpoints => ih p hplaced fun a ha => hpoints a (List.mem_cons_of_mem _ ha)
  | node id hd cs rest ihcs ih =>
    intro p hplaced hpoints x hx
    have hpid := hpoints _ List.mem_cons_self
    -- the node itself, one below it, or one behind it
    rcases List.mem_cons.mp hx with rfl | hx
    · exact (Reaches.refl p).tail hpid
    · rcases List.mem_append.mp hx with hx | hx
      · exact .head hpid (ihcs _ hplaced.children (fun a => (points_iff hplaced.self).mpr) x hx)
      · exact ih p hplaced.rest (fun a ha => hpoints a (List.mem_cons_of_mem _ ha)) x hx

end WellFormed

/-! ## The whole input -/

/-- The types are those that have a name, and no pointer is null. -/
def SoundInput (hd : Header) (ss : Slots) : Prop :=
  hd.type.Known ∧ (∀ x ∈ ss.nodes, x.2.1.type.Known) ∧ ss.hasNull = false

/-- Three conditions that can be computed. -/
instance (hd : Header) (ss : Slots) : Decidable (SoundInput hd ss) :=
  inferInstanceAs (Decidable (_ ∧ _ ∧ _))

namespace DecodesTo

variable {data : Bytes} {base content : Nat} {hd : Header} {ss : Slots} {ids : List Nat}
  {heap' : Heap}

theorem placed (h : DecodesTo base content hd ss ids heap') : ss.PlacedAt heap' base ids := h.nodes

theorem points_iff (h : DecodesTo base content hd ss ids heap') {a : Addr} :
    heap'.Points content a ↔ some a ∈ ss.targets base ids := Slots.points_iff h.root

/-- Without a reference back every pointer path from the root ends. -/
theorem grounded (h : DecodesTo base content hd ss ids heap') (hp : ParsesTree data hd ss ids)
    (hback : ss.refersBack [] = false) : Grounded FileContent.children heap' content := by
  obtain ⟨_, hparses⟩ := hp
  have htargets := (hparses.grounded [] hback h.placed (by simp)).2
  exact .intro _ fun b hb => htargets b (h.points_iff.mp hb)

/-- The graph is acyclic exactly if no reference leads back to an enclosing node. -/
theorem acyclic_iff (h : DecodesTo base content hd ss ids heap') (hp : ParsesTree data hd ss ids) :
    PointerGraph.Acyclic FileContent.children heap' content ↔ ss.refersBack [] = false := by
  constructor
  · intro hacyclic
    by_contra hback
    obtain ⟨a, hreach, hcycle⟩ := ss.cyclic [] content (by simpa using hback) h.placed
      (fun a => h.points_iff.mpr) (by simp)
    exact hacyclic a hreach hcycle
  · exact fun hback => (h.grounded hp hback).acyclic

/-- Without references the graph is a tree. -/
theorem unshared (h : DecodesTo base content hd ss ids heap') (hp : ParsesTree data hd ss ids)
    (href : ss.hasRef = false) : Unshared FileContent.children heap' content := by
  obtain ⟨_, hparses⟩ := hp
  have hids : ids = ss.ids := hparses.ids_eq
  have hnodup : ss.ids.Nodup := hids ▸ hparses.nodup List.nodup_nil
  obtain ⟨htargets, hpairwise⟩ := ss.unshared href h.placed hnodup fun id hid => hids ▸ hid
  refine .intro (fun b hb => (htargets b (h.points_iff.mp hb)).1) fun c hc => ?_
  cases h.root.symm.trans hc
  exact hpairwise

/-- Every object of the graph is the root or a node of the input. -/
theorem reaches_iff (h : DecodesTo base content hd ss ids heap') (hp : ParsesTree data hd ss ids)
    {a : Addr} : heap'.Reaches content a ↔
      a = content ∨ ∃ x ∈ ss.nodes, a = base + ids.idxOf x.1 := by
  obtain ⟨_, hparses⟩ := hp
  have hids : ids = ss.ids := hparses.ids_eq
  obtain ⟨hroot, hnodes⟩ := hparses.targets_named base ids
  have hnamed : ∀ id ∈ ids, ∃ x ∈ ss.nodes, id = x.1 := by
    intro id hid
    rw [hids] at hid
    obtain ⟨x, hx, rfl⟩ := List.mem_map.mp hid
    exact ⟨x, hx, rfl⟩
  constructor
  · intro ha
    -- along the path each object is a node of the input
    induction ha with
    | refl => exact Or.inl rfl
    | @tail _ b _ hpoints ih =>
      have hid : ∃ id ∈ ids, b = base + ids.idxOf id := by
        rcases ih with rfl | ⟨x, hx, rfl⟩
        · exact hroot _ (h.points_iff.mp hpoints)
        · exact hnodes x hx _ ((Slots.points_iff (h.nodes x hx)).mp hpoints)
      obtain ⟨id, hid, rfl⟩ := hid
      obtain ⟨x, hx, rfl⟩ := hnamed id hid
      exact Or.inr ⟨x, hx, rfl⟩
  · rintro (rfl | ⟨x, hx, rfl⟩)
    · exact Reaches.refl _
    · exact ss.reaches_nodes content h.placed (fun a => h.points_iff.mpr) x hx

/-- The graph is well formed exactly if the input has known types and no null pointers. -/
theorem wellFormed_iff (h : DecodesTo base content hd ss ids heap')
    (hp : ParsesTree data hd ss ids) : heap'.WellFormed content ↔ SoundInput hd ss := by
  constructor
  · intro hwf
    have hsound : ∀ {a : Addr} {hd' : Header} {cs : Slots}, heap'.Reaches content a →
        heap'[a]? = some (hd'.toFileContent (cs.targets base ids)) →
        hd'.type.Known ∧ none ∉ cs.targets base ids := by
      intro a hd' cs ha hc
      obtain ⟨c, hc', htype, hnull⟩ := hwf a ha
      cases hc.symm.trans hc'
      exact ⟨htype, hnull⟩
    have hnodes := fun x hx => hsound ((h.reaches_iff hp).mpr (Or.inr ⟨x, hx, rfl⟩)) (h.nodes x hx)
    obtain ⟨htype, hnull⟩ := hsound (Reaches.refl content) h.root
    refine ⟨htype, fun x hx => (hnodes x hx).1, ?_⟩
    rw [← Bool.not_eq_true, Slots.hasNull_iff base ids]
    rintro (hnone | ⟨x, hx, hnone⟩)
    · exact hnull hnone
    · exact (hnodes x hx).2 hnone
  · rintro ⟨htype, htypes, hnull⟩ a ha
    rw [← Bool.not_eq_true, Slots.hasNull_iff base ids, not_or] at hnull
    rcases (h.reaches_iff hp).mp ha with rfl | ⟨x, hx, rfl⟩
    · exact ⟨_, h.root, htype, hnull.1⟩
    · exact ⟨_, h.nodes x hx, htypes x hx, fun hnone => hnull.2 ⟨x, hx, hnone⟩⟩

end DecodesTo

end Guthi
