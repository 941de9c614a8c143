import Guthi.Filesystem.MergeFaults
import Guthi.Lib.Run

/-!
# Guthi — merging content that shares nodes

The arguments of `MergeDiff` may share nodes with each other and with what is below the root. A
merge walks over directories of its argument while it appends to directories below the root, so
it goes wrong when the two meet.

* `Walks` — the directories of the argument that a merge may walk over;
* `EntriesApart` — they do not meet what the merge appends to;
* `Covered` — the merge finds everything there already, so it appends nothing;
* `mergeSingleFileContent_apart`, `mergeSingleFileContent_covered` — in both cases no vector
  changes while it is walked, and the recursion ends;
* `mergeDiffs_return` — runs of such calls.
-/

namespace Guthi

namespace Heap

variable {h₀ h : Heap}

/-! ## What a merge walks over -/

/-- From a directory to an entry of it that is no File. -/
def WalkStep (h : Heap) (a b : Addr) : Prop :=
  h.Points a b ∧ ∃ c, h[b]? = some c ∧ c.type ≠ FileType.file

/-- A merge of the object at `x` may walk over these. The type of `x` itself plays no role. -/
abbrev Walks (h : Heap) : Addr → Addr → Prop := Relation.ReflTransGen h.WalkStep

/-- An entry of a walked directory does not lead to what is walked over after it. -/
def EntriesApart (h : Heap) (x : Addr) : Prop :=
  ∀ w c, h.Walks x w → h[w]? = some c → c.contents.Pairwise fun y y' =>
    ∀ b', y' = some b' → h.WalkStep w b' → ∀ a, h.Walks b' a → a ∉ h.below y

/-! ## The state of a merge -/

/-- A merge that began on `h₀` has changed nothing outside of `T`, from where no pointer leads
out. -/
structure ChangedIn (h₀ : Heap) (T : Set Addr) (h : Heap) : Prop where
  isSealed : Sealed h T
  same : ∀ a, a ∉ T → h[a]? = h₀[a]?
  types : SameTypes h₀ h

/-- From `T` on, what may have changed has grown by a part of `D`. -/
def ChangesWithin (h₀ : Heap) (T D : Set Addr) (h : Heap) : Prop :=
  ∃ T', T ⊆ T' ∧ T' ⊆ T ∪ D ∧ ChangedIn h₀ T' h

/-- The vectors that are being walked while `x` is merged: those of objects above `x`, where
nothing changes. -/
structure WalkStack (h₀ : Heap) (T : Set Addr) (walked : List Addr) (x : Addr) : Prop where
  nodup : walked.Nodup
  above : ∀ w ∈ walked, Relation.TransGen h₀.Points w x
  unchanged : ∀ w ∈ walked, w ∉ T

/-- What a call of `MergeSingleFileContent` needs of its source. -/
structure SourceApart (h₀ : Heap) (T : Set Addr) (x : Addr) : Prop where
  acyclic : PointerGraph.Acyclic FileContent.children h₀ x
  walks : ∀ a, h₀.Walks x a → a ∉ T
  entries : h₀.EntriesApart x

/-- No more objects can be walked over at a time than there are. -/
theorem WalkStack.length_le {T : Set Addr} {walked : List Addr} {x : Addr}
    (hstack : WalkStack h₀ T walked x) : walked.length ≤ h₀.length := by
  have hsub : walked ⊆ List.range h₀.length := by
    intro w hw
    obtain ⟨b, ⟨c, hc, _⟩, _⟩ := Relation.TransGen.head'_iff.mp (hstack.above w hw)
    exact List.mem_range.mpr (List.getElem?_eq_some_iff.mp hc).1
  simpa using (List.subperm_of_subset hstack.nodup hsub).length_le

/-- Before the first call nothing is walked over. -/
theorem walkStack_nil {T : Set Addr} (x : Addr) : WalkStack h₀ T [] x :=
  ⟨List.nodup_nil, fun _ hw => absurd hw List.not_mem_nil, fun _ hw => absurd hw List.not_mem_nil⟩

/-- The call for an entry `b` of `x`, when the changes have come to `T'`. -/
theorem WalkStack.push {T T' : Set Addr} {walked : List Addr} {x b : Addr}
    (hstack : WalkStack h₀ T walked x)
    (hacyclic : PointerGraph.Acyclic FileContent.children h₀ x) (hb : h₀.Points x b)
    (hunchanged : ∀ w ∈ x :: walked, w ∉ T') : WalkStack h₀ T' (x :: walked) b := by
  refine ⟨List.nodup_cons.mpr ⟨fun hx => ?_, hstack.nodup⟩, fun w hw => ?_, hunchanged⟩
  · exact hacyclic x (PointerGraph.Reaches.refl x) (hstack.above x hx)
  · rcases List.mem_cons.mp hw with rfl | hw
    · exact .single hb
    · exact .tail (hstack.above w hw) hb

/-- What is apart from the target is so with each of its entries. -/
theorem SourceApart.entry {T T' : Set Addr} {x b : Addr} (hx : SourceApart h₀ T x)
    (hb : h₀.WalkStep x b) (hwalks : ∀ a, h₀.Walks b a → a ∉ T') : SourceApart h₀ T' b :=
  ⟨fun a ha => hx.acyclic a (.head hb.1 ha), hwalks,
    fun w c hw => hx.entries w c (.head hb hw)⟩

/-- What lies below an entry of `x` does not lead back to `x` nor to an object above it. -/
theorem WalkStack.not_mem_below {T : Set Addr} {walked : List Addr} {x w : Addr} {y : Option Addr}
    {c : FileContent} (hstack : WalkStack h₀ T walked x)
    (hacyclic : PointerGraph.Acyclic FileContent.children h₀ x) (hc : h₀[x]? = some c)
    (hy : y ∈ c.contents) (hw : w ∈ x :: walked) : w ∉ h₀.below y := by
  rintro ⟨b, rfl, hbw⟩
  have hb : h₀.Points x b := ⟨c, hc, FileContent.mem_children.mpr hy⟩
  have hxw : Relation.TransGen h₀.Points x w := Relation.TransGen.head' hb hbw
  refine hacyclic x (PointerGraph.Reaches.refl x) ?_
  rcases List.mem_cons.mp hw with rfl | hw
  · exact hxw
  · exact hxw.trans (hstack.above w hw)

theorem Pushed.changesWithin {h' : Heap} {file1 y : Option Addr} {T : Set Addr}
    (hpushed : Pushed h file1 y h') (hT : ChangedIn h₀ T h)
    (hfile1 : ∀ a, file1 = some a → a ∈ T) : ChangesWithin h₀ T (h₀.below y) h' := by
  -- below `y` the heap is as at first, up to where it leads into `T`
  have hsealed : Sealed h (T ∪ h₀.below y) := by
    rintro a ha b hpoints
    by_cases haT : a ∈ T
    · exact Or.inl (hT.isSealed a haT b hpoints)
    · obtain ⟨c, hc, hmem⟩ := hpoints
      rw [hT.same a haT] at hc
      exact Or.inr (sealed_below h₀ y a (ha.resolve_left haT) b ⟨c, hc, hmem⟩)
  obtain ⟨T', hsub, hsup, hsealed', hframe⟩ := hpushed.within hT.isSealed hfile1 hsealed
    fun b hb => Or.inr ⟨b, hb, PointerGraph.Reaches.refl b⟩
  refine ⟨T', hsub, fun a ha => ?_, hsealed', fun a ha => ?_, hT.types.trans hpushed.sameTypes⟩
  · rcases hsup ha with ha | ha
    · exact Or.inl ha
    · exact ha
  · exact (hframe a ha).trans (hT.same a fun hmem => ha (hsub hmem))

/-- Changes within a part that has grown from `T`. -/
theorem ChangesWithin.widen {T T₁ D D₁ D' : Set Addr} {h' : Heap} (h : ChangesWithin h₀ T₁ D₁ h')
    (hsub : T ⊆ T₁) (hsup : T₁ ⊆ T ∪ D) (hD : D ⊆ D') (hD₁ : D₁ ⊆ D') :
    ChangesWithin h₀ T D' h' := by
  obtain ⟨T₂, hsub₂, hsup₂, hT₂⟩ := h
  refine ⟨T₂, hsub.trans hsub₂, hsup₂.trans (Set.union_subset ?_ ?_), hT₂⟩
  · exact hsup.trans (Set.union_subset_union_right T hD)
  · exact hD₁.trans Set.subset_union_right

/-! ## No vector changes while it is walked -/

/-- No vector was changed under an iterator, and the recursion was not too deep. -/
def Orderly (e : MergeFault) : Prop := e ≠ .iteratorInvalidated ∧ e ≠ .recursionTooDeep

/-- Following a pointer is neither of the two faults. -/
theorem deref_orderly (h : Heap) (p : Option Addr) :
    Outcome (fun _ => True) Orderly (deref h p) := by
  cases p with
  | none =>
    show Orderly .nullDereference
    constructor <;> decide
  | some a =>
    cases hc : h[a]? with
    | none =>
      rw [deref, hc]
      show Orderly .dangling
      constructor <;> decide
    | some c =>
      rw [deref_eq_ok.mpr hc]
      trivial

/-- **Merging apart from the source.** Induction on the fuel. The loop over the entries of `x`
carries the part `T` of the heap that may have changed: it never comes to hold an object that is
being walked, nor one that is still to be walked. -/
theorem mergeSingleFileContent_apart (fuel : Nat) : ∀ (walked : List Addr) (h : Heap)
    (file1 : Option Addr) (x : Addr) (T : Set Addr), ChangedIn h₀ T h →
      (∀ a, file1 = some a → a ∈ T) → SourceApart h₀ T x → WalkStack h₀ T walked x →
      h₀.length < fuel + walked.length →
      Outcome (ChangesWithin h₀ T (h₀.below (some x))) Orderly
        (mergeSingleFileContent fuel walked h file1 (some x)) := by
  induction fuel with
  | zero =>
    intro walked h file1 x T _ _ _ hstack hfuel
    have := hstack.length_le
    omega
  | succ fuel ih =>
    intro walked h file1 x T hT hfile1 hx hstack hfuel
    rw [mergeSingleFileContent]
    refine (deref_orderly h (some x)).bind fun source hsource _ => ?_
    have hsource₀ : h₀[x]? = some source := by
      rw [← hT.same x (hx.walks x .refl)]
      exact deref_eq_ok.mp hsource
    refine (Outcome.foldlM_split
      (I := fun pre _ h' => ChangesWithin h₀ T {a | ∃ z ∈ pre, a ∈ h₀.below z} h') ?_
      ⟨T, Set.Subset.rfl, Set.subset_union_left, hT⟩).mono ?_ fun _ he => he
    · rintro pre y post h₁ hsplit ⟨T₁, hsub, hsup, hT₁⟩
      have hy : y ∈ source.contents := by simp [← hsplit]
      -- walked :: the invariant for what is being walked over
      have hunchanged : ∀ w ∈ x :: walked, w ∉ T₁ := by
        intro w hw hmem
        rcases hsup hmem with hmem | ⟨z, hz, hbelow⟩
        · rcases List.mem_cons.mp hw with rfl | hw
          · exact hx.walks w .refl hmem
          · exact hstack.unchanged w hw hmem
        · exact hstack.not_mem_below hx.acyclic hsource₀ (by simp [← hsplit, hz]) hw hbelow
      -- and for what is still to be
      have hwalks : ∀ b, y = some b → h₀.WalkStep x b → ∀ a, h₀.Walks b a → a ∉ T₁ := by
        intro b hb hstep a ha hmem
        rcases hsup hmem with hmem | ⟨z, hz, hbelow⟩
        · exact hx.walks a (.head hstep ha) hmem
        · have hpairs := hx.entries x source .refl hsource₀
          rw [← hsplit, List.pairwise_append] at hpairs
          exact hpairs.2.2 z hz y (by simp) b hb hstep a ha hbelow
      -- what one round changes is among what the loop may change
      have hwithin : ∀ h₂, ChangesWithin h₀ T₁ (h₀.below y) h₂ →
          ChangesWithin h₀ T {a | ∃ z ∈ pre ++ [y], a ∈ h₀.below z} h₂ := by
        intro h₂ h
        apply h.widen hsub hsup
        · rintro a ⟨z, hz, hbelow⟩
          exact ⟨z, List.mem_append_left _ hz, hbelow⟩
        · intro a hbelow
          exact ⟨y, List.mem_append_right _ List.mem_cons_self, hbelow⟩
      refine mergeEntry_outcome ((deref_orderly h₁ file1).mono
        (fun c _ f1 _ => deref_orderly h₁ f1) fun _ he => he) (deref_orderly h₁ y)
        (fun a ha hwalked => absurd (hsub (hfile1 a ha)) (hunchanged a hwalked))
        (fun h₂ hpushed => hwithin h₂ (hpushed.changesWithin hT₁ fun a ha => hsub (hfile1 a ha))) ?_
      intro c iter entry hc hiter hentry hdir
      cases y with
      | none => cases hentry
      | some b =>
        -- the type that is read is the one at first
        have hstep : h₀.WalkStep x b := by
          refine ⟨⟨source, hsource₀, FileContent.mem_children.mpr hy⟩, ?_⟩
          have htype := hT₁.types b
          rw [deref_eq_ok.mp hentry] at htype
          obtain ⟨c₀, hc₀, heq⟩ := Option.map_eq_some_iff.mp htype.symm
          exact ⟨c₀, hc₀, heq ▸ hdir⟩
        -- walked) h₁ iter b T₁ hT₁ :: one object deeper, so with more room on the stack of those
        -- that are walked over
        refine (ih (x :: walked) h₁ iter b T₁ hT₁ ?_ (hx.entry hstep (hwalks b rfl hstep))
          (hstack.push hx.acyclic hstep.1 hunchanged) ?_).mono hwithin fun _ he => he
        · rintro a rfl
          cases file1 with
          | none => cases hc
          | some f =>
            exact hT₁.isSealed f (hsub (hfile1 f rfl)) a
              ⟨c, deref_eq_ok.mp hc, FileContent.mem_children.mpr hiter⟩
        · rw [List.length_cons]
          omega
    · intro h' h
      apply h.widen Set.Subset.rfl Set.subset_union_left (Set.empty_subset _)
      rintro a ⟨y, hy, ha⟩
      exact below_subset hsource₀ hy ha

/-! ## Nothing to append -/

/-- Nothing that is reached dangles or has a null pointer. -/
def NoNullBelow (h : Heap) (r : Addr) : Prop :=
  ∀ a, h.Reaches r a → ∃ c, h[a]? = some c ∧ none ∉ c.contents

/-- From a pair of a directory and what it is merged into: an entry, and the one of its name. -/
def PairStep (h : Heap) (p q : Addr × Option Addr) : Prop :=
  h.Points p.1 q.1 ∧ ∃ target, deref h p.2 = .ok target ∧
    findSameName h (some q.1) target.contents = .ok (some q.2)

/-- Wherever the merge of `x` into `iter` comes to, it finds an entry of each name, and no File is
to be added. -/
def Covered (h : Heap) (x : Addr) (iter : Option Addr) : Prop :=
  ∀ p, Relation.ReflTransGen h.PairStep (x, iter) p → ∀ b, h.Points p.1 b →
    (∀ entry, h[b]? = some entry → entry.type ≠ FileType.file) ∧ ∃ d, h.PairStep p (b, d)

/-- **Merging what is there already** changes nothing, whatever is shared. Induction on the fuel;
the recursion ends since the source is acyclic. -/
theorem mergeSingleFileContent_covered (fuel : Nat) : ∀ (walked : List Addr) (x : Addr)
    (iter : Option Addr), h.Covered x iter → h.Acyclic x → h.NoNullBelow x →
      WalkStack h ∅ walked x → h.length < fuel + walked.length →
      Outcome (· = h) (fun _ => False) (mergeSingleFileContent fuel walked h iter (some x)) := by
  induction fuel with
  | zero =>
    intro walked x iter _ _ _ hstack hfuel
    have := hstack.length_le
    omega
  | succ fuel ih =>
    intro walked x iter hcovered hacyclic hnull hstack hfuel
    obtain ⟨source, hsource, hentries⟩ := hnull x (PointerGraph.Reaches.refl x)
    rw [mergeSingleFileContent, deref_eq_ok.mpr hsource, ok_bind]
    refine Outcome.foldlM (I := (· = h)) (fun h' y hy hh' => ?_) rfl
    subst hh'
    cases y with
    | none => exact absurd hy hentries
    | some b =>
      have hb : h'.Points x b := ⟨source, hsource, FileContent.mem_children.mpr hy⟩
      obtain ⟨hdir, d, hstep⟩ := hcovered (x, iter) .refl b hb
      obtain ⟨_, target, htarget, hfound⟩ := id hstep
      obtain ⟨entry, hentry, _⟩ := hnull b (.head hb .refl)
      -- the entry is found and is no File, so it comes to the recursive call, never to `push_back`
      rw [mergeEntry, htarget, ok_bind, hfound, ok_bind]
      simp only [deref_eq_ok.mpr hentry, ok_bind]
      rw [if_neg (hdir entry hentry)]
      refine ih (x :: walked) b d (fun p hp => hcovered p (.head hstep hp)) ?_
        (fun a ha => hnull a (.head hb ha))
        (hstack.push hacyclic.acyclic hb fun w _ => Set.notMem_empty w) ?_
      · exact ⟨fun a ha => hacyclic.closed a (.head hb ha),
          fun a ha => hacyclic.acyclic a (.head hb ha)⟩
      · rw [List.length_cons]
        omega

/-! ## Calls of `MergeDiff` -/

/-- The argument `x` is an acyclic graph without null pointers. Where the root has an entry of its
name, nothing that the merge walks over is below that entry or below an entry walked before; or
the merge appends nothing. -/
structure MergesSafely (root : Addr) (h : Heap) (x : Addr) : Prop where
  acyclic : h.Acyclic x
  noNull : h.NoNullBelow x
  target : ∀ c iter, deref h (some root) = .ok c → findSameName h (some x) c.contents =
    .ok (some iter) → ((∀ a, h.Walks x a → a ∉ h.below iter) ∧ h.EntriesApart x) ∨
      h.Covered x iter

/-- One call: into a directory of its name, which is apart or has it all; else it is appended. -/
theorem addDirectory_orderly {root x : Addr} (hx : MergesSafely root h x) :
    Outcome (fun _ => True) Orderly (addDirectory root h (some x)) := by
  rw [addDirectory]
  refine (deref_orderly h (some root)).bind fun target htarget _ => ?_
  refine (findSameName_outcome (deref_orderly h (some x)) fun f1 _ => deref_orderly h f1).bind
    fun found hfound _ => ?_
  cases found with
  -- the root is not walked over
  | none =>
    refine (pushBack_outcome (deref_orderly h (some root)) fun a _ ha => ?_).mono
      (fun _ _ => trivial) fun _ he => he
    cases ha
  | some iter =>
    rcases hx.target target iter htarget hfound with ⟨hwalks, hentries⟩ | hcovered
    · have hunchanged : ChangedIn h (h.below iter) h :=
        ⟨sealed_below h iter, fun _ _ => rfl, fun _ => rfl⟩
      refine (mergeSingleFileContent_apart (h.length + 1) [] h iter x (h.below iter) hunchanged ?_
        ⟨hx.acyclic.acyclic, hwalks, hentries⟩ (walkStack_nil x) (by simp)).mono
        (fun _ _ => trivial) fun _ he => he
      rintro a rfl
      exact ⟨a, rfl, PointerGraph.Reaches.refl a⟩
    · exact (mergeSingleFileContent_covered (h.length + 1) [] x iter hcovered hx.acyclic hx.noNull
        (walkStack_nil x) (by simp)).mono (fun _ _ => trivial) fun _ he => he.elim

/-- Such a call returns, and leaves no null pointer below the root. -/
theorem mergeDiff_returns {root x : Addr} (hroot : h.NoNullBelow root)
    (hx : MergesSafely root h x) :
    ∃ h', mergeDiff root h (some x) = .ok h' ∧ h'.NoNullBelow root := by
  rw [mergeDiff_eq]
  have hS := (closedOn_reaches hroot).union (closedOn_reaches hx.noNull)
  have hrootS : root ∈ {a | h.Reaches root a} ∪ {a | h.Reaches x a} :=
    Or.inl (PointerGraph.Reaches.refl root)
  have hkept := addDirectory_kept hS hrootS ⟨x, Or.inr (PointerGraph.Reaches.refl x), rfl⟩
  have horderly := addDirectory_orderly hx
  cases hresult : addDirectory root h (some x) with
  | ok h' =>
    rw [hresult] at hkept
    exact ⟨h', rfl, fun a ha => hkept.closed.no_null hrootS ha⟩
  | error e =>
    -- the two together leave no fault
    rw [hresult] at hkept horderly
    obtain ⟨hnull, hdangling⟩ := hkept
    obtain ⟨hiterator, hdeep⟩ := horderly
    cases e <;> contradiction

/-- `MergeDiff` as a step of a run; a call with a fault ends it. -/
def mergeStep (root : Addr) (h : Heap) (x : Addr) : Option Heap :=
  (mergeDiff root h (some x)).toOption

/-- **Merging shared content.** A run of `MergeDiff` calls on a root without null pointers returns
from every call, if each argument is, when it is passed, an acyclic graph without null pointers
that merges safely: no vector is changed while it is walked, and no recursion is too deep. -/
theorem mergeDiffs_return {root : Addr} {xs : List Addr} (hroot : h.NoNullBelow root)
    (hxs : EachTry (mergeStep root) (MergesSafely root) h xs) :
    ∃ h', runAddCalls root h (xs.map fun x => .mergeDiff (some x)) = .ok h' := by
  induction xs generalizing h with
  | nil => exact ⟨h, rfl⟩
  | cons x xs ih =>
    obtain ⟨hx, hrest⟩ := hxs
    -- one call returns and keeps what the next one needs of the root
    obtain ⟨h₁, hstep, hroot₁⟩ := mergeDiff_returns hroot hx
    obtain ⟨h', hrun⟩ := ih hroot₁ (hrest h₁ (by rw [mergeStep, hstep]; rfl))
    refine ⟨h', ?_⟩
    rw [List.map_cons, runAddCalls, List.foldlM_cons, AddCall.apply, hstep]
    exact hrun

/-- Every pointer of the heap leads to a later object. -/
def PointsForward (h : Heap) : Prop :=
  ∀ p ∈ h.zipIdx, ∀ q ∈ p.1.contents, (q.any fun b => p.2 < b ∧ b < h.length) = true

/-- Evaluated over all slots. -/
instance (h : Heap) : Decidable h.PointsForward := by unfold PointsForward; infer_instance

/-- A heap of forward pointers is acyclic and has no null pointer, so examples can be checked by
evaluation. -/
theorem PointsForward.graph (hforward : h.PointsForward) {r : Addr} (hr : r < h.length) :
    h.Acyclic r ∧ h.NoNullBelow r := by
  have hlater : ∀ (a : Addr) (c : FileContent), h[a]? = some c → ∀ q ∈ c.contents,
      ∃ b, q = some b ∧ a < b ∧ b < h.length := by
    intro a c hc q hq
    have hany := hforward (c, a) (List.mem_zipIdx_iff_getElem?.mpr hc) q hq
    cases q with
    | none => cases hany
    | some b => exact ⟨b, rfl, by simpa using hany⟩
  have hacyclic : h.Acyclic r := acyclic_of_forward hr fun a ha b hb => by
    obtain ⟨b', heq, hlt⟩ := hlater a _ (List.getElem?_eq_getElem ha) (some b)
      (FileContent.mem_children.mp hb)
    cases heq
    exact hlt
  refine ⟨hacyclic, fun a ha => ?_⟩
  have hlt := hacyclic.closed a ha
  refine ⟨h[a], List.getElem?_eq_getElem hlt, fun hnull => ?_⟩
  obtain ⟨b, hb, _⟩ := hlater a _ (List.getElem?_eq_getElem hlt) none hnull
  cases hb

/-- An empty root, and two Directories `a` with one File in both. -/
def sharedFile : Heap :=
  [{}, { name := ascii "a", contents := [some 3] }, { name := ascii "a", contents := [some 3] },
    { type := FileType.file, name := ascii "f" }]

/-- Two directories of one name that share a File. -/
theorem mergeDiffs_return_sharedFile :
    ∃ h', runAddCalls 0 sharedFile [.mergeDiff (some 1), .mergeDiff (some 2)] = .ok h' := by
  have hforward : sharedFile.PointsForward := by decide
  have hroot : sharedFile.NoNullBelow 0 := (hforward.graph (by decide)).2
  refine mergeDiffs_return hroot (?_ : EachTry _ _ sharedFile [1, 2])
  refine ⟨?_, ?_⟩
  · obtain ⟨hacyclic, hnull⟩ := hforward.graph (r := 1) (by decide)
    refine ⟨hacyclic, hnull, fun c iter hc hfound => ?_⟩
    cases hc
    cases hfound
  · -- the second call, on the heap that the first leaves
    intro h₁ hstep
    obtain rfl : h₁ = sharedFile.set 0 { contents := [some 1] } := by
      have hrun : mergeStep 0 sharedFile 1 = some (sharedFile.set 0 { contents := [some 1] }) := rfl
      exact Option.some.inj (hstep.symm.trans hrun)
    have hforward₁ : PointsForward (sharedFile.set 0 { contents := [some 1] }) := by decide
    obtain ⟨hacyclic, hnull⟩ := hforward₁.graph (r := 2) (by decide)
    -- the File is not walked over, and `2` is not below `1`
    have hwalks : ∀ a, Walks (sharedFile.set 0 { contents := [some 1] }) 2 a → a = 2 := by
      intro a ha
      induction ha with
      | refl => rfl
      | tail _ hlast ih =>
        subst ih
        obtain ⟨⟨c, hc, hmem⟩, entry, hentry, hdir⟩ := hlast
        cases hc
        obtain rfl := List.mem_singleton.mp hmem
        cases hentry
        exact absurd rfl hdir
    have hsealed : Sealed (sharedFile.set 0 { contents := [some 1] }) {1, 3} := by
      rintro a (rfl | rfl) b ⟨c, hc, hmem⟩
      · cases hc
        exact Or.inr (List.mem_singleton.mp hmem)
      · cases hc
        exact (nomatch hmem)
    refine ⟨⟨hacyclic, hnull, fun c iter hc hfound => ?_⟩, fun h' _ => trivial⟩
    cases hc
    cases hfound
    refine Or.inl ⟨fun a ha hbelow => ?_, fun w c hw hc => ?_⟩
    · obtain rfl := hwalks a ha
      have := hsealed.mem_of_reaches (Or.inl rfl) (mem_below_some.mp hbelow)
      revert this
      decide
    · obtain rfl := hwalks w hw
      cases hc
      exact List.pairwise_singleton _ _

/-- A Directory `a` with a File in it. -/
def repeatedArgument : Heap :=
  [{}, { name := ascii "a", contents := [some 2] }, { type := FileType.file, name := ascii "f" }]

/-- An empty Directory `a`, and another that holds the same Directory `n` twice. -/
def repeatedEntry : Heap :=
  [{}, { name := ascii "a" }, { name := ascii "a", contents := [some 3, some 3] },
    { name := ascii "n", contents := [some 4] }, { type := FileType.file, name := ascii "f" }]

/-- Acyclic arguments without null pointers: the same one twice, and one that holds an entry
twice. A vector is appended to while it is walked. -/
theorem merge_changes_walked_vector :
    (repeatedArgument.Acyclic 1 ∧ repeatedArgument.NoNullBelow 1 ∧
      runAddCalls 0 repeatedArgument [.mergeDiff (some 1), .mergeDiff (some 1)] =
        .error .iteratorInvalidated) ∧
    (∀ x ∈ [1, 2], repeatedEntry.Acyclic x ∧ repeatedEntry.NoNullBelow x) ∧
      runAddCalls 0 repeatedEntry [.mergeDiff (some 1), .mergeDiff (some 2)] =
        .error .iteratorInvalidated := by
  have hargument : repeatedArgument.PointsForward := by decide
  have hentry : repeatedEntry.PointsForward := by decide
  obtain ⟨hacyclic, hnull⟩ := hargument.graph (r := 1) (by decide)
  refine ⟨⟨hacyclic, hnull, rfl⟩, fun x hx => hentry.graph ?_, rfl⟩
  revert x
  decide

end Heap

end Guthi
