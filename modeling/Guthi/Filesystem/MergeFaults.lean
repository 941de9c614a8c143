import Guthi.Filesystem.Merge

/-!
# Guthi — the faults of a merge

Which `MergeFault` a call can end with, for graphs that need not be trees: postconditions of
the parts of `MergeSingleFileContent`, and what they come to over the recursion.

* `mergeSingleFileContent_ends` — merging a tree ends, whatever it is merged into;
* `mergeSingleFileContent_kept`, `mergeDiff_sound` — merging among sound objects meets no null
  pointer;
* `MergeCall.OfMergeDiff.soundOn` — and every call on the way is made for sound objects.
-/

namespace Guthi

namespace Heap

variable {h : Heap} {E : MergeFault → Prop}

/-! ## The parts of a call -/

/-- The search follows `x` and the entries up to the match, and what it finds is one of them. -/
theorem findSameName_outcome {x : Option Addr} {cs : List (Option Addr)}
    (hx : Outcome (fun _ => True) E (deref h x))
    (hcs : ∀ f1 ∈ cs, Outcome (fun _ => True) E (deref h f1)) :
    Outcome (fun found => ∀ iter, found = some iter → iter ∈ cs) E (findSameName h x cs) := by
  induction cs with
  | nil => exact fun iter hiter => (nomatch hiter)
  | cons f1 cs ih =>
    rw [findSameName]
    refine (hcs f1 (by simp)).bind fun entry _ _ => hx.bind fun other _ _ => ?_
    split_ifs with hname
    · rintro iter ⟨⟩
      exact List.mem_cons_self
    · exact (ih fun g hg => hcs g (by simp [hg])).mono
        (fun found hfound iter hiter => List.mem_cons_of_mem f1 (hfound iter hiter)) fun _ he => he

/-- `push_back` has changed one object. -/
def Pushed (h : Heap) (node x : Option Addr) (h' : Heap) : Prop :=
  ∃ a c, node = some a ∧ h[a]? = some c ∧ h' = h.set a { c with contents := c.contents ++ [x] }

/-- `push_back` fails if the pointer is bad, or if the vector is being walked over. -/
theorem pushBack_outcome {walked : List Addr} {node x : Option Addr}
    (hnode : Outcome (fun _ => True) E (deref h node))
    (hwalked : ∀ a, node = some a → a ∈ walked → E .iteratorInvalidated) :
    Outcome (Pushed h node x) E (pushBack walked h node x) := by
  rw [pushBack]
  refine hnode.bind fun c hc _ => ?_
  cases node with
  | none => cases hc
  | some a =>
    show Outcome _ _ (if a ∈ walked then _ else _)
    split_ifs with hmem
    · exact hwalked a rfl hmem
    · exact ⟨a, c, rfl, deref_eq_ok.mp hc, rfl⟩

/-- One entry is appended, or merged into an entry of its name. -/
theorem mergeEntry_outcome {P : Heap → Prop} {walked : List Addr} {file1 x : Option Addr}
    {merge : Heap → Option Addr → Option Addr → Except MergeFault Heap}
    (hfile1 : Outcome (fun c => ∀ f1 ∈ c.contents, Outcome (fun _ => True) E (deref h f1)) E
      (deref h file1))
    (hx : Outcome (fun _ => True) E (deref h x))
    (hwalked : ∀ a, file1 = some a → a ∈ walked → E .iteratorInvalidated)
    (hpush : ∀ h', Pushed h file1 x h' → P h')
    (hmerge : ∀ c iter entry, deref h file1 = .ok c → iter ∈ c.contents →
      deref h x = .ok entry → entry.type ≠ FileType.file → Outcome P E (merge h iter x)) :
    Outcome P E (mergeEntry merge walked file1 h x) := by
  -- the two branches that append
  have hpushed : Outcome P E (pushBack walked h file1 x) :=
    (pushBack_outcome (hfile1.mono (fun _ _ => trivial) fun _ he => he) hwalked).mono hpush
      fun _ he => he
  rw [mergeEntry]
  refine hfile1.bind fun c hc hcs => (findSameName_outcome hx hcs).bind fun found _ hfound => ?_
  cases found with
  | none => exact hpushed
  | some iter =>
    refine hx.bind fun entry hentry _ => ?_
    split_ifs with hfile
    · exact hpushed
    · -- a folder, and an entry of its name: the recursive call
      exact hmerge c iter entry hc (hfound iter rfl) hentry hfile

/-! ## Merging a tree ends -/

/-- No pointer of an object in `T` leads out of `T`. -/
abbrev Sealed (h : Heap) (T : Set Addr) : Prop := PointerGraph.Sealed FileContent.children h T

/-- A merge into the part `T` of the heap has changed nothing outside of it but what lies in `D`,
and no pointer leads out of what it has changed. -/
def MergedWithin (h : Heap) (T D : Set Addr) (h' : Heap) : Prop :=
  ∃ T', T ⊆ T' ∧ T' ⊆ T ∪ D ∧ Sealed h' T' ∧ ∀ a, a ∉ T' → h'[a]? = h[a]?

/-- Appending `x` to an object in `T` joins what lies below `x` to `T`. -/
theorem Pushed.within {h' : Heap} {file1 x : Option Addr} {T D : Set Addr}
    (hpushed : Pushed h file1 x h') (hT : Sealed h T) (hfile1 : ∀ a, file1 = some a → a ∈ T)
    (hD : Sealed h D) (hx : ∀ b, x = some b → b ∈ D) : MergedWithin h T D h' := by
  obtain ⟨a, c, rfl, hc, rfl⟩ := hpushed
  have ha := hfile1 a rfl
  -- the object has one pointer more, to `x`
  refine ⟨T ∪ D, Set.subset_union_left, Set.Subset.rfl, ?_, fun b hb => ?_⟩
  · rintro a' ha' b ⟨c', hc', hmem⟩
    by_cases heq : a' = a
    · subst heq
      rw [List.getElem?_set_self (List.getElem?_eq_some_iff.mp hc).1] at hc'
      cases hc'
      rcases List.mem_append.mp (FileContent.mem_children.mp hmem) with hold | hnew
      · exact Or.inl (hT a' ha b ⟨c, hc, FileContent.mem_children.mpr hold⟩)
      · exact Or.inr (hx b (by simpa using (List.mem_singleton.mp hnew).symm))
    · rw [List.getElem?_set_ne (Ne.symm heq)] at hc'
      exact hT.union hD a' ha' b ⟨c', hc', hmem⟩
  · rw [List.getElem?_set_ne]
    rintro rfl
    exact hb (Or.inl ha)

/-- A merge after a merge, in the part of the heap that the first has grown to. -/
theorem MergedWithin.trans {h h₁ h₂ : Heap} {T D D₁ D₂ : Set Addr}
    (hfirst : ∃ T', T ⊆ T' ∧ T' ⊆ T ∪ D₁ ∧ MergedWithin h₁ T' D₂ h₂ ∧ ∀ a, a ∉ T' → h₁[a]? = h[a]?)
    (hD₁ : D₁ ⊆ D) (hD₂ : D₂ ⊆ D) : MergedWithin h T D h₂ := by
  obtain ⟨T', hsub, hsup, ⟨T'', hsub', hsup', hsealed, hframe'⟩, hframe⟩ := hfirst
  refine ⟨T'', hsub.trans hsub', fun a ha => ?_, hsealed, fun a ha => ?_⟩
  · rcases hsup' ha with ha | ha
    · exact (hsup ha).imp_right fun h => hD₁ h
    · exact Or.inr (hD₂ ha)
  · exact (hframe' a ha).trans (hframe a fun h => ha (hsub' h))

/-- What lies below an entry. -/
def below (h : Heap) (y : Option Addr) : Set Addr := {a | ∃ b, y = some b ∧ h.Reaches b a}

/-- What lies below a pointer is sealed. -/
theorem sealed_below (h : Heap) (y : Option Addr) : Sealed h (h.below y) := by
  rintro a ⟨b, rfl, hreach⟩ a' hpoints
  exact ⟨b, rfl, hreach.tail hpoints⟩

/-- Below a pointer lies what it reaches. -/
theorem mem_below_some {h : Heap} {a b : Addr} : a ∈ h.below (some b) ↔ h.Reaches b a := by
  simp [below]

/-- What lies below an entry lies below the object. -/
theorem below_subset {h : Heap} {x : Addr} {c : FileContent} (hc : h[x]? = some c)
    {y : Option Addr} (hy : y ∈ c.contents) : h.below y ⊆ h.below (some x) := by
  rintro a ⟨b, rfl, hreach⟩
  exact ⟨x, rfl, .head ⟨c, hc, FileContent.mem_children.mpr hy⟩ hreach⟩

/-- In a tree an entry shares nothing with the entries before it. -/
theorem not_mem_below_of_before {h : Heap} {c : FileContent}
    (hapart : c.children.Pairwise fun b b' => ∀ x, h.Reaches b x → ¬ h.Reaches b' x)
    {pre post : List (Option Addr)} {y z : Option Addr} (hsplit : pre ++ y :: post = c.contents)
    (hz : z ∈ pre) {a : Addr} (ha : a ∈ h.below z) : a ∉ h.below y := by
  rintro ⟨b, rfl, hreach⟩
  obtain ⟨b', rfl, hreach'⟩ := ha
  rw [FileContent.children, ← hsplit, List.filterMap_append, List.pairwise_append] at hapart
  exact hapart.2.2 b' (by simpa using hz) b (by simp) a hreach' hreach

/-- With this much fuel a call for the tree that stands at `x` on `h₀` does not run out of it.
Meanwhile the heap may have changed elsewhere, in a part `T` that no pointer leaves. -/
def MergeEnds (h₀ : Heap) (x : Addr) (fuel : Nat) : Prop :=
  ∀ (walked : List Addr) (h : Heap) (file1 : Option Addr) (T : Set Addr), Sealed h T →
    (∀ a, file1 = some a → a ∈ T) → (∀ a, h₀.Reaches x a → a ∉ T ∧ h[a]? = h₀[a]?) →
    Outcome (MergedWithin h T (h₀.below (some x))) (· ≠ .recursionTooDeep)
      (mergeSingleFileContent fuel walked h file1 (some x))

theorem mergeEntry_within {h₀ h : Heap} {fuel : Nat} {walked : List Addr} {file1 y : Option Addr}
    {T : Set Addr} (hT : Sealed h T) (hfile1 : ∀ a, file1 = some a → a ∈ T)
    (hends : ∀ b, y = some b → MergeEnds h₀ b fuel)
    (hapart : ∀ a ∈ h₀.below y, a ∉ T ∧ h[a]? = h₀[a]?) :
    Outcome (MergedWithin h T (h₀.below y)) (· ≠ .recursionTooDeep)
      (mergeEntry (mergeSingleFileContent fuel walked) walked file1 h y) := by
  -- the entry itself is as it was at first
  have hbelow : Sealed h (h₀.below y) :=
    (sealed_below h₀ y).congr fun a ha => (hapart a ha).2
  refine mergeEntry_outcome ((deref_outcome h file1).mono (fun c _ f1 _ => deref_outcome h f1)
    fun _ he => he) (deref_outcome h y) (fun _ _ _ => by decide) (fun h' hpushed => ?_) ?_
  · exact hpushed.within hT hfile1 hbelow fun b hb => ⟨b, hb, PointerGraph.Reaches.refl b⟩
  · intro c iter entry hc hiter hentry _
    cases y with
    | none => cases hentry
    | some b =>
      refine hends b rfl walked h iter T hT ?_ fun a ha => hapart a ⟨b, rfl, ha⟩
      -- the entry found is a child of `file1`
      rintro a rfl
      cases file1 with
      | none => cases hc
      | some f =>
        have hchild := FileContent.mem_children.mpr hiter
        exact hT f (hfile1 f rfl) a ⟨c, deref_eq_ok.mp hc, hchild⟩

/-- **Merging a tree ends.** Induction on the tree: below a match the same loop runs over fewer
nodes, none of which an earlier entry has touched. -/
theorem mergeEnds_of_unshared {h₀ : Heap} {x : Addr}
    (hx : PointerGraph.Unshared FileContent.children h₀ x) :
    ∃ bound, ∀ fuel, bound ≤ fuel → MergeEnds h₀ x fuel := by
  induction hx with
  | @intro x _ apart ih =>
    -- a bound for the objects that `x` points to
    have hbound : ∃ bound, ∀ fuel, bound ≤ fuel → ∀ b, h₀.Points x b → MergeEnds h₀ b fuel := by
      cases hc : h₀[x]? with
      | none => exact ⟨0, fun fuel _ b ⟨c, hc', _⟩ => by rw [hc] at hc'; cases hc'⟩
      | some c =>
        obtain ⟨bound, hbound⟩ := exists_bound_forall_mem (l := c.children) fun b hb =>
          ih b ⟨c, hc, hb⟩
        refine ⟨bound, fun fuel hfuel b ⟨c', hc', hb⟩ => ?_⟩
        rw [hc] at hc'
        cases hc'
        exact hbound fuel hfuel b hb
    obtain ⟨bound, hbound⟩ := hbound
    refine ⟨bound + 1, fun fuel hfuel walked h file1 T hT hfile1 hapart => ?_⟩
    obtain ⟨fuel, rfl⟩ := Nat.exists_eq_add_of_le' (Nat.one_le_of_lt hfuel)
    rw [mergeSingleFileContent]
    refine (deref_outcome h (some x)).bind fun source hsource _ => ?_
    have hsource₀ : h₀[x]? = some source := by
      rw [← (hapart x (PointerGraph.Reaches.refl x)).2]
      exact deref_eq_ok.mp hsource
    -- the invariant: nothing has changed but `T` and what lies below the entries done
    refine (Outcome.foldlM_split (I := fun pre _ h' => ∃ T', T ⊆ T' ∧
      T' ⊆ T ∪ {a | ∃ y ∈ pre, a ∈ h₀.below y} ∧ Sealed h' T' ∧ ∀ a, a ∉ T' → h'[a]? = h[a]?) ?_
      ⟨T, Set.Subset.rfl, Set.subset_union_left, hT, fun _ _ => rfl⟩).mono ?_ fun _ he => he
    · -- a step of the loop: what lies below `y` is still as it was
      rintro pre y post h₁ hsplit ⟨T₁, hsub, hsup, hsealed, hframe⟩
      have hy : y ∈ source.contents := by simp [← hsplit]
      have hapart₁ : ∀ a ∈ h₀.below y, a ∉ T₁ ∧ h₁[a]? = h₀[a]? := by
        intro a ha
        obtain ⟨hnot, hsame⟩ := hapart a (mem_below_some.mp (below_subset hsource₀ hy ha))
        have hnew : a ∉ T₁ := fun hmem => by
          rcases hsup hmem with hmem | ⟨z, hz, hbelow⟩
          · exact hnot hmem
          · exact not_mem_below_of_before (apart source hsource₀) hsplit hz hbelow ha
        exact ⟨hnew, (hframe a hnew).trans hsame⟩
      refine (mergeEntry_within hsealed (fun a ha => hsub (hfile1 a ha)) ?_ hapart₁).mono
        (fun h₂ hwithin => ?_) fun _ he => he
      · rintro b rfl
        exact hbound fuel (by omega) b ⟨source, hsource₀, FileContent.mem_children.mpr hy⟩
      · exact MergedWithin.trans ⟨T₁, hsub, hsup, hwithin, hframe⟩
          (fun a ⟨z, hz, ha⟩ => ⟨z, by simp [hz], ha⟩) fun a ha => ⟨y, by simp, ha⟩
    · rintro h' ⟨T', hsub, hsup, hsealed, hframe⟩
      -- the end of the loop: all that changed lies below `x` or in `T`
      refine ⟨T', hsub, hsup.trans (Set.union_subset_union_right T ?_), hsealed, hframe⟩
      exact fun a ⟨y, hy, ha⟩ => below_subset hsource₀ hy ha

/-- A tree that shares nothing with the target is merged within a bound. -/
theorem mergeSingleFileContent_ends {x file1 : Addr}
    (hx : PointerGraph.Unshared FileContent.children h x)
    (hapart : ∀ a, h.Reaches file1 a → ¬ h.Reaches x a) :
    ∃ bound, ∀ fuel, bound ≤ fuel → ∀ walked,
      mergeSingleFileContent fuel walked h (some file1) (some x) ≠ .error .recursionTooDeep := by
  obtain ⟨bound, hbound⟩ := mergeEnds_of_unshared hx
  refine ⟨bound, fun fuel hfuel walked herr => ?_⟩
  refine (hbound fuel hfuel walked h (some file1) {a | h.Reaches file1 a}
    (PointerGraph.sealed_reaches h file1) ?_ ?_).of_error herr rfl
  · rintro a ⟨⟩
    exact PointerGraph.Reaches.refl file1
  · exact fun a ha => ⟨fun hfile1 => hapart a hfile1 ha, rfl⟩

end Heap

/-! ## Merging sound objects meets no null pointer -/

/-- The values that have a name. -/
def FileType.Known (type : FileType) : Prop := type = FileType.directory ∨ type = FileType.file

/-- The type word can be looked at. -/
instance : DecidablePred FileType.Known := fun type =>
  inferInstanceAs (Decidable (type = FileType.directory ∨ type = FileType.file))

namespace Heap

variable {h : Heap}

/-- A pointer that leads into `S`. -/
def Into (S : Set Addr) (p : Option Addr) : Prop := ∃ b ∈ S, p = some b

/-- The children of each object in `S` are in `S`, none of them null. -/
def ClosedOn (h : Heap) (S : Set Addr) : Prop :=
  ∀ a ∈ S, ∃ c, h[a]? = some c ∧ ∀ p ∈ c.contents, Into S p

/-- Without null or dangling pointers below `r`, all pointers below it stay there. -/
theorem closedOn_reaches {r : Addr} (hr : ∀ a, h.Reaches r a → ∃ c, h[a]? = some c ∧
    none ∉ c.contents) : h.ClosedOn {a | h.Reaches r a} := by
  intro a ha
  obtain ⟨c, hc, hnull⟩ := hr a ha
  refine ⟨c, hc, fun p hp => ?_⟩
  cases p with
  | none => exact absurd hp hnull
  | some b => exact ⟨b, ha.tail ⟨c, hc, FileContent.mem_children.mpr hp⟩, rfl⟩

/-- Two closed parts together are closed. -/
theorem ClosedOn.union {S T : Set Addr} (hS : h.ClosedOn S) (hT : h.ClosedOn T) :
    h.ClosedOn (S ∪ T) := by
  rintro a (ha | ha)
  · obtain ⟨c, hc, hinto⟩ := hS a ha
    exact ⟨c, hc, fun p hp => (hinto p hp).imp fun b hb => ⟨Or.inl hb.1, hb.2⟩⟩
  · obtain ⟨c, hc, hinto⟩ := hT a ha
    exact ⟨c, hc, fun p hp => (hinto p hp).imp fun b hb => ⟨Or.inr hb.1, hb.2⟩⟩

theorem ClosedOn.isSealed {S : Set Addr} (hS : h.ClosedOn S) : Sealed h S := by
  rintro a ha b ⟨c, hc, hmem⟩
  obtain ⟨c', hc', hinto⟩ := hS a ha
  cases hc.symm.trans hc'
  obtain ⟨b', hb', heq⟩ := hinto _ (FileContent.mem_children.mp hmem)
  cases heq
  exact hb'

/-- From a closed part no null pointer is met. -/
theorem ClosedOn.no_null {S : Set Addr} (hS : h.ClosedOn S) {r a : Addr} (hr : r ∈ S)
    (ha : h.Reaches r a) : ∃ c, h[a]? = some c ∧ none ∉ c.contents := by
  obtain ⟨c, hc, hinto⟩ := hS a (hS.isSealed.mem_of_reaches hr ha)
  refine ⟨c, hc, fun hnull => ?_⟩
  obtain ⟨b, _, hb⟩ := hinto none hnull
  cases hb

/-- Each object in `S` is a Directory or a File, and its children are in `S`, none of them null. -/
def SoundOn (h : Heap) (S : Set Addr) : Prop :=
  ∀ a ∈ S, ∃ c, h[a]? = some c ∧ c.type.Known ∧ ∀ p ∈ c.contents, Into S p

/-- What is below `r` consists of Directories and Files, without a null pointer. -/
def WellFormed (h : Heap) (r : Addr) : Prop :=
  ∀ a, h.Reaches r a → ∃ c, h[a]? = some c ∧ c.type.Known ∧ none ∉ c.contents

/-- Sound objects point to each other only. -/
theorem SoundOn.closedOn {S : Set Addr} (hS : h.SoundOn S) : h.ClosedOn S := by
  intro a ha
  obtain ⟨c, hc, _, hinto⟩ := hS a ha
  exact ⟨c, hc, hinto⟩

/-- What is reached from a well-formed object is sound. -/
theorem WellFormed.soundOn {r : Addr} (hr : h.WellFormed r) : h.SoundOn {a | h.Reaches r a} := by
  intro a ha
  have hclosed := closedOn_reaches (h := h) (r := r) fun b hb => by
    obtain ⟨c, hc, _, hnull⟩ := hr b hb
    exact ⟨c, hc, hnull⟩
  obtain ⟨c, hc, hinto⟩ := hclosed a ha
  obtain ⟨c', hc', htype, _⟩ := hr a ha
  cases hc.symm.trans hc'
  exact ⟨c, hc, htype, hinto⟩

/-- Two sound parts together are sound. -/
theorem SoundOn.union {S T : Set Addr} (hS : h.SoundOn S) (hT : h.SoundOn T) :
    h.SoundOn (S ∪ T) := by
  intro a ha
  obtain ⟨c, hc, hinto⟩ := hS.closedOn.union hT.closedOn a ha
  -- the type word is that of the part that the object is in
  have htype : c.type.Known := by
    rcases ha with ha | ha
    · obtain ⟨c', hc', htype, _⟩ := hS a ha
      cases hc.symm.trans hc'
      exact htype
    · obtain ⟨c', hc', htype, _⟩ := hT a ha
      cases hc.symm.trans hc'
      exact htype
  exact ⟨c, hc, htype, hinto⟩

/-- An object of a sound part is well formed. -/
theorem SoundOn.wellFormed {S : Set Addr} (hS : h.SoundOn S) {r : Addr} (hr : r ∈ S) :
    h.WellFormed r := by
  intro a ha
  obtain ⟨c, hc, hnull⟩ := hS.closedOn.no_null hr ha
  obtain ⟨c', hc', htype, _⟩ := hS a (hS.closedOn.isSealed.mem_of_reaches hr ha)
  cases hc.symm.trans hc'
  exact ⟨c, hc, htype, hnull⟩

/-- Neither a null pointer nor one to no object was dereferenced. -/
def NoBadPointer (e : MergeFault) : Prop := e ≠ .nullDereference ∧ e ≠ .dangling

/-- A pointer into a sound part can be followed. -/
theorem SoundOn.deref {S : Set Addr} (hS : h.SoundOn S) {p : Option Addr} (hp : Into S p) :
    ∃ c, Heap.deref h p = .ok c ∧ c.type.Known ∧ ∀ q ∈ c.contents, Into S q := by
  obtain ⟨a, ha, rfl⟩ := hp
  obtain ⟨c, hc, hc'⟩ := hS a ha
  exact ⟨c, deref_eq_ok.mpr hc, hc'⟩

/-- The same as an outcome, for sequences. -/
theorem SoundOn.deref_outcome {S : Set Addr} (hS : h.SoundOn S) {p : Option Addr}
    (hp : Into S p) : Outcome (fun c => c.type.Known ∧ ∀ q ∈ c.contents, Into S q) NoBadPointer
      (Heap.deref h p) := by
  obtain ⟨c, hc, hc'⟩ := hS.deref hp
  rw [hc]
  exact hc'

/-- In a closed part the types may be anything. -/
theorem ClosedOn.deref_outcome {S : Set Addr} (hS : h.ClosedOn S) {p : Option Addr}
    (hp : Into S p) : Outcome (fun c => ∀ q ∈ c.contents, Into S q) NoBadPointer
      (Heap.deref h p) := by
  obtain ⟨a, ha, rfl⟩ := hp
  obtain ⟨c, hc, hinto⟩ := hS a ha
  rw [deref_eq_ok.mpr hc]
  exact hinto

/-- The same, when it does not matter what is found. -/
theorem ClosedOn.deref_returns {S : Set Addr} (hS : h.ClosedOn S) {p : Option Addr}
    (hp : Into S p) : Outcome (fun _ => True) NoBadPointer (Heap.deref h p) :=
  (hS.deref_outcome hp).mono (fun _ _ => trivial) fun _ he => he

/-- Merging changes the entries of an object at most. -/
def SameTypes (h h' : Heap) : Prop :=
  ∀ a : Addr, h'[a]?.map FileContent.type = h[a]?.map FileContent.type

/-- Types that stay as they are in two steps do so in both together. -/
theorem SameTypes.trans {h₁ h₂ : Heap} (h₁_same : SameTypes h h₁) (h₂_same : SameTypes h₁ h₂) :
    SameTypes h h₂ := fun a => (h₂_same a).trans (h₁_same a)

/-- Appending changes no type word. -/
theorem Pushed.sameTypes {node x : Option Addr} {h' : Heap} (hpushed : Pushed h node x h') :
    SameTypes h h' := by
  obtain ⟨a, c, rfl, hc, rfl⟩ := hpushed
  intro a'
  by_cases heq : a' = a
  · subst heq
    rw [List.getElem?_set_self (List.getElem?_eq_some_iff.mp hc).1, hc]
    rfl
  · rw [List.getElem?_set_ne (Ne.symm heq)]

/-- What a merge among the objects in `S` keeps. -/
structure KeptOn (h : Heap) (S : Set Addr) (h' : Heap) : Prop where
  closed : h'.ClosedOn S
  types : SameTypes h h'

/-- Appending a pointer into the part keeps it closed. -/
theorem Pushed.keptOn {S : Set Addr} {node x : Option Addr} {h' : Heap}
    (hpushed : Pushed h node x h') (hS : h.ClosedOn S) (hx : Into S x) : KeptOn h S h' := by
  refine ⟨?_, hpushed.sameTypes⟩
  obtain ⟨a, c, rfl, hc, rfl⟩ := hpushed
  intro a' ha'
  obtain ⟨c', hc', hinto⟩ := hS a' ha'
  -- only the object that was appended to has a new slot
  by_cases heq : a' = a
  · subst heq
    cases hc.symm.trans hc'
    refine ⟨_, List.getElem?_set_self (List.getElem?_eq_some_iff.mp hc).1, fun p hp => ?_⟩
    rcases List.mem_append.mp hp with hold | hnew
    · exact hinto p hold
    · exact List.mem_singleton.mp hnew ▸ hx
  · exact ⟨c', by rw [List.getElem?_set_ne (Ne.symm heq), hc'], hinto⟩

/-- A part that was sound and was kept is sound. -/
theorem SoundOn.of_keptOn {S : Set Addr} {h' : Heap} (hS : h.SoundOn S) (hkept : KeptOn h S h') :
    h'.SoundOn S := by
  intro a ha
  obtain ⟨c, hc, htype, _⟩ := hS a ha
  obtain ⟨c', hc', hinto⟩ := hkept.closed a ha
  have hsame : c'.type = c.type := by simpa [hc, hc'] using hkept.types a
  exact ⟨c', hc', hsame ▸ htype, hinto⟩

/-- One round of the loop, for a call that keeps what it is to keep. -/
theorem mergeEntry_kept {S : Set Addr} {walked : List Addr} {file1 x : Option Addr}
    {merge : Heap → Option Addr → Option Addr → Except MergeFault Heap} (hS : h.ClosedOn S)
    (hfile1 : Into S file1) (hx : Into S x)
    (hmerge : ∀ iter, Into S iter → Outcome (KeptOn h S) NoBadPointer (merge h iter x)) :
    Outcome (KeptOn h S) NoBadPointer (mergeEntry merge walked file1 h x) := by
  refine mergeEntry_outcome ((hS.deref_outcome hfile1).mono
    (fun c hc f1 hf1 => hS.deref_returns (hc f1 hf1)) fun _ he => he) (hS.deref_returns hx)
    (fun _ _ _ => by constructor <;> decide) (fun h' hpushed => hpushed.keptOn hS hx)
    fun c iter entry hc hiter _ _ => hmerge iter ?_
  exact (hS.deref_outcome hfile1).of_ok hc iter hiter

/-- The loop, for calls that keep what they are to keep. -/
theorem foldlM_mergeEntry_kept {S : Set Addr} {walked : List Addr} {file1 : Option Addr}
    {xs : List (Option Addr)}
    {merge : Heap → Option Addr → Option Addr → Except MergeFault Heap} (hS : h.ClosedOn S)
    (hfile1 : Into S file1) (hxs : ∀ x ∈ xs, Into S x)
    (hmerge : ∀ h', h'.ClosedOn S → ∀ iter, Into S iter → ∀ x ∈ xs,
      Outcome (KeptOn h' S) NoBadPointer (merge h' iter x)) :
    Outcome (KeptOn h S) NoBadPointer (xs.foldlM (mergeEntry merge walked file1) h) := by
  refine Outcome.foldlM (fun h' x hx hkept => ?_) ⟨hS, fun _ => rfl⟩
  refine (mergeEntry_kept hkept.closed hfile1 (hxs x hx) fun iter hiter =>
    hmerge h' hkept.closed iter hiter x hx).mono (fun h'' hkept' => ?_) fun _ he => he
  exact ⟨hkept'.closed, hkept.types.trans hkept'.types⟩

/-- **Merging among objects that point to each other only** keeps that, and dereferences no bad
pointer. Induction on the fuel; the loop keeps it. -/
theorem mergeSingleFileContent_kept {S : Set Addr} (fuel : Nat) :
    ∀ (walked : List Addr) (h : Heap) (file1 file2 : Option Addr), h.ClosedOn S → Into S file1 →
      Into S file2 →
      Outcome (KeptOn h S) NoBadPointer (mergeSingleFileContent fuel walked h file1 file2) := by
  induction fuel with
  | zero =>
    intro walked h file1 file2 _ _ _
    show NoBadPointer .recursionTooDeep
    constructor <;> decide
  | succ fuel ih =>
    intro walked h file1 file2 hS hfile1 hfile2
    rw [mergeSingleFileContent]
    refine (hS.deref_outcome hfile2).bind fun source _ hsource => ?_
    exact foldlM_mergeEntry_kept hS hfile1 hsource fun h' hS' iter hiter x hx =>
      ih _ h' iter x hS' hiter (hsource x hx)

/-- `AddAsChildDirectory` keeps the part as the recursion does, whichever branch it takes. -/
theorem addDirectory_kept {S : Set Addr} {root : Addr} {dir : Option Addr} (hS : h.ClosedOn S)
    (hroot : root ∈ S) (hdir : Into S dir) :
    Outcome (KeptOn h S) NoBadPointer (addDirectory root h dir) := by
  have hroot' : Into S (some root) := ⟨root, hroot, rfl⟩
  rw [addDirectory]
  refine (hS.deref_outcome hroot').bind fun target _ hcs => ?_
  refine (findSameName_outcome (hS.deref_returns hdir) fun f1 hf1 =>
    hS.deref_returns (hcs f1 hf1)).bind
    fun found _ hfound => ?_
  cases found with
  | none =>
    exact (pushBack_outcome (hS.deref_returns hroot') fun _ _ _ => by
      constructor <;> decide).mono (fun h' hpushed => hpushed.keptOn hS hdir) fun _ he => he
  | some iter =>
    exact mergeSingleFileContent_kept _ _ h iter dir hS (hcs iter (hfound iter rfl)) hdir

/-- `MergeDiff` adds one directory. -/
theorem mergeDiff_eq (root : Addr) (h : Heap) (inContent : Option Addr) :
    mergeDiff root h inContent = addDirectory root h inContent := by
  unfold mergeDiff addAsChildDirectory
  rw [List.foldlM_cons]
  exact bind_pure _

/-- Merging sound objects meets no null pointer. -/
theorem mergeDiff_sound {S : Set Addr} {root : Addr} {inContent : Option Addr} (hS : h.SoundOn S)
    (hroot : root ∈ S) (hin : Into S inContent) :
    Outcome (SoundOn · S) NoBadPointer (mergeDiff root h inContent) := by
  rw [mergeDiff_eq]
  exact (addDirectory_kept hS.closedOn hroot hin).mono (fun _ hkept => hS.of_keptOn hkept)
    fun _ he => he

/-! ## The calls of a run -/

/-- The arguments of a call of `MergeSingleFileContent`, and the heap it starts on. -/
structure MergeCall where
  fuel : Nat
  walked : List Addr
  heap : Heap
  file1 : Option Addr
  file2 : Option Addr

/-- The call `MergeSingleFileContent(*iter, x)` in the loop of another call, when the entries
before `x` have been merged. -/
inductive MergeCall.Nested : MergeCall → MergeCall → Prop where
  | intro {fuel : Nat} {walked : List Addr} {h h' : Heap} {file1 file2 x iter : Option Addr}
      {source target entry : FileContent} {pre post : List (Option Addr)}
      (hsource : deref h file2 = .ok source) (hsplit : source.contents = pre ++ x :: post)
      (hpre : pre.foldlM (mergeEntry (mergeSingleFileContent fuel (file2.toList ++ walked))
        (file2.toList ++ walked) file1) h = .ok h')
      (htarget : deref h' file1 = .ok target)
      (hfound : findSameName h' x target.contents = .ok (some iter))
      (hentry : deref h' x = .ok entry) (htype : entry.type ≠ FileType.file) :
      Nested ⟨fuel + 1, walked, h, file1, file2⟩ ⟨fuel, file2.toList ++ walked, h', iter, x⟩

/-- The calls that one `MergeDiff` leads to. -/
inductive MergeCall.OfMergeDiff (root : Addr) (h : Heap) (inContent : Option Addr) :
    MergeCall → Prop where
  | first {target : FileContent} {iter : Option Addr} (htarget : deref h (some root) = .ok target)
      (hfound : findSameName h inContent target.contents = .ok (some iter)) :
      OfMergeDiff root h inContent ⟨h.length + 1, [], h, iter, inContent⟩
  | nested {call call' : MergeCall} (hcall : OfMergeDiff root h inContent call)
      (hnested : call.Nested call') : OfMergeDiff root h inContent call'

/-- A call on sound objects. -/
structure MergeCall.SoundOn (call : MergeCall) (S : Set Addr) : Prop where
  heap : call.heap.SoundOn S
  file1 : Into S call.file1
  file2 : Into S call.file2

/-- A call that a sound call makes is sound: the rounds before it have kept the objects. -/
theorem MergeCall.Nested.soundOn {S : Set Addr} {call call' : MergeCall}
    (hnested : call.Nested call') (hcall : call.SoundOn S) : call'.SoundOn S := by
  obtain ⟨hsource, hsplit, hpre, htarget, hfound, hentry, htype⟩ := hnested
  obtain ⟨hS, hfile1, hfile2⟩ := hcall
  have hcs := ((hS.deref_outcome hfile2).of_ok hsource).2
  rw [hsplit] at hcs
  -- the entries before `x` have left the objects sound
  have hS' : Heap.SoundOn _ S := hS.of_keptOn <| (foldlM_mergeEntry_kept hS.closedOn hfile1
    (fun y hy => hcs y (by simp [hy])) fun h₁ hS₁ iter hiter y hy =>
      mergeSingleFileContent_kept _ _ h₁ iter y hS₁ hiter (hcs y (by simp [hy]))).of_ok hpre
  have hx := hcs _ (List.mem_append_right _ List.mem_cons_self)
  have htargets := ((hS'.deref_outcome hfile1).of_ok htarget).2
  have hiter := (findSameName_outcome (hS'.closedOn.deref_returns hx) fun f1 hf1 =>
    hS'.closedOn.deref_returns (htargets f1 hf1)).of_ok hfound _ rfl
  exact ⟨hS', htargets _ hiter, hx⟩

/-- So are all calls that `MergeDiff` leads to, by induction on how deep they are. -/
theorem MergeCall.OfMergeDiff.soundOn {S : Set Addr} {root : Addr} {inContent : Option Addr}
    {call : MergeCall} (hcall : OfMergeDiff root h inContent call) (hS : h.SoundOn S)
    (hroot : root ∈ S) (hin : Into S inContent) : call.SoundOn S := by
  induction hcall with
  | first htarget hfound =>
    have hcs := ((hS.deref_outcome ⟨root, hroot, rfl⟩).of_ok htarget).2
    have hiter := (findSameName_outcome (hS.closedOn.deref_returns hin) fun f1 hf1 =>
      hS.closedOn.deref_returns (hcs f1 hf1)).of_ok hfound _ rfl
    exact ⟨hS, hcs _ hiter, hin⟩
  | nested _ hnested ih => exact hnested.soundOn ih

end Heap

end Guthi
