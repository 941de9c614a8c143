import Guthi.Filesystem.Merge
import Guthi.Filesystem.Tree

/-!
# Guthi — merging on the heap refines merging of trees

`absorb x cs` is the merge as a function on values: the list of siblings `cs` takes in one more
entry `x`. The module proves that `MergeSingleFileContent` and its callers compute it on the
heap as long as no two nodes of the trees involved share an object.

* `MergesTo` — what a call that succeeds has done: the new tree is on the heap and every object
  outside the two trees is as it was;
* `mergeEntry_refines`, `addDirectory_refines` — one entry, at any depth or at the root;
* `mergeTotalFileContent_refines`, `runAddCalls_refines` — the callers.
-/

namespace Guthi

namespace Tree

/-- The comparison of names. -/
def hasName (n : Bytes) (t : Tree) : Bool := t.name = n

/-- The comparison, as an equation. -/
@[simp] theorem hasName_iff {n : Bytes} {t : Tree} : hasName n t = true ↔ t.name = n := by
  simp [hasName]

mutual

/-- The entries of a directory after the entry `x` was merged into them. -/
def absorb : Tree → List Tree → List Tree
  | .node a ty nn nm xs, cs =>
    if cs.find? (hasName nm) = none ∨ ty = FileType.file then cs ++ [.node a ty nn nm xs]
    else updateFirst (hasName nm) (fun c => c.setContents (absorbAll xs c.contents)) cs

/-- The entries of a directory after a whole list was merged into them, in order. -/
def absorbAll : List Tree → List Tree → List Tree
  | [], cs => cs
  | x :: xs, cs => absorbAll xs (absorb x cs)

end

/-- The ways of absorbing an entry: it is appended if its name is new. -/
theorem absorb_of_new {x : Tree} {cs : List Tree} (hnew : cs.find? (hasName x.name) = none) :
    absorb x cs = cs ++ [x] := by
  cases x
  exact if_pos (Or.inl hnew)

/-- A File is appended whether or not its name is new. -/
theorem absorb_of_file {x : Tree} (cs : List Tree) (hfile : x.type = FileType.file) :
    absorb x cs = cs ++ [x] := by
  cases x
  exact if_pos (Or.inr hfile)

/-- Otherwise its entries go below the first one of its name. -/
theorem absorb_of_match {x c : Tree} {cs : List Tree} (hc : cs.find? (hasName x.name) = some c)
    (hdir : x.type ≠ FileType.file) :
    absorb x cs = updateFirst (hasName x.name)
      (fun c => c.setContents (absorbAll x.contents c.contents)) cs := by
  cases x
  apply if_neg
  rintro (hnone | hfile)
  · exact absurd (hc.symm.trans hnone) (by simp)
  · exact hdir hfile

/-- The three outcomes of absorbing an entry: appended because its name is new, appended
because it is a File, or merged into the first entry of its name. -/
theorem absorb_cases (x : Tree) (cs : List Tree) :
    (cs.find? (hasName x.name) = none ∧ absorb x cs = cs ++ [x]) ∨
    (x.type = FileType.file ∧ absorb x cs = cs ++ [x]) ∨
    (x.type ≠ FileType.file ∧ ∃ pre c post, cs = pre ++ c :: post ∧
      (∀ b ∈ pre, hasName x.name b = false) ∧ c.name = x.name ∧
      absorb x cs = pre ++ c.setContents (absorbAll x.contents c.contents) :: post) := by
  cases hfind : cs.find? (hasName x.name) with
  | none => exact Or.inl ⟨rfl, absorb_of_new hfind⟩
  | some c =>
    by_cases hfile : x.type = FileType.file
    · exact Or.inr (Or.inl ⟨hfile, absorb_of_file cs hfile⟩)
    · -- `x` itself is dropped, and only its entries are kept
      obtain ⟨hname, pre, post, rfl, hpre⟩ := find?_split hfind
      refine Or.inr (Or.inr ⟨hfile, pre, c, post, rfl, hpre, hasName_iff.mp hname, ?_⟩)
      rw [absorb_of_match hfind hfile, updateFirst_split hpre hname]

/-- The entries of a root after the tree `x` was added to it: as `absorb`, but the type of `x` is
not looked at. -/
def adopt (x : Tree) (cs : List Tree) : List Tree :=
  if cs.find? (hasName x.name) = none then cs ++ [x]
  else updateFirst (hasName x.name) (fun c => c.setContents (absorbAll x.contents c.contents)) cs

/-- `addDirectory` appends only what has a new name. -/
theorem adopt_of_new {x : Tree} {cs : List Tree} (hnew : cs.find? (hasName x.name) = none) :
    adopt x cs = cs ++ [x] := if_pos hnew

/-- All else goes below the first entry of its name. -/
theorem adopt_of_match {x c : Tree} {cs : List Tree} (hc : cs.find? (hasName x.name) = some c) :
    adopt x cs = updateFirst (hasName x.name)
      (fun c => c.setContents (absorbAll x.contents c.contents)) cs :=
  if_neg (by simp [hc])

theorem adopt_eq_absorb {x : Tree} (hdir : x.type ≠ FileType.file) (cs : List Tree) :
    adopt x cs = absorb x cs := by
  cases hfind : cs.find? (hasName x.name) with
  | none => rw [adopt_of_new hfind, absorb_of_new hfind]
  | some c => rw [adopt_of_match hfind, absorb_of_match hfind hdir]

/-- The two outcomes of adopting. -/
theorem adopt_cases (x : Tree) (cs : List Tree) :
    (cs.find? (hasName x.name) = none ∧ adopt x cs = cs ++ [x]) ∨
    ∃ pre c post, cs = pre ++ c :: post ∧ adopt x cs =
      pre ++ c.setContents (absorbAll x.contents c.contents) :: post := by
  cases hfind : cs.find? (hasName x.name) with
  | none => exact Or.inl ⟨rfl, adopt_of_new hfind⟩
  | some c =>
    obtain ⟨hname, pre, post, rfl, hpre⟩ := find?_split hfind
    exact Or.inr ⟨pre, c, post, rfl, by rw [adopt_of_match hfind, updateFirst_split hpre hname]⟩

/-! ## No address is invented -/

/-- If each entry brings no more than its own addresses, so do all together. -/
theorem count_addrsAll_absorbAll_of {xs : List Tree} (a : Nat)
    (hone : ∀ x ∈ xs, ∀ cs, (addrsAll (absorb x cs)).count a ≤
      (addrsAll cs).count a + x.addrs.count a) (cs : List Tree) :
    (addrsAll (absorbAll xs cs)).count a ≤ (addrsAll cs).count a + (addrsAll xs).count a := by
  induction xs generalizing cs with
  | nil => simp [absorbAll]
  | cons x xs ih =>
    have hx := hone x (by simp) cs
    have hxs := ih (fun y hy => hone y (by simp [hy])) (absorb x cs)
    rw [absorbAll, addrsAll_cons, List.count_append]
    omega

/-- Merging `x` into an entry drops `x` itself, and its children go below the entry. -/
theorem count_addrsAll_into {x : Tree} (a : Nat) (hone : ∀ y ∈ x.contents, ∀ cs,
    (addrsAll (absorb y cs)).count a ≤ (addrsAll cs).count a + y.addrs.count a)
    (pre post : List Tree) (c : Tree) :
    (addrsAll (pre ++ c.setContents (absorbAll x.contents c.contents) :: post)).count a ≤
      (addrsAll (pre ++ c :: post)).count a + x.addrs.count a := by
  have hbelow := count_addrsAll_absorbAll_of a hone c.contents
  simp only [addrsAll_append, addrsAll_cons, List.count_append, addrs_eq, addr_setContents,
    contents_setContents, List.count_cons]
  omega

/-- Absorbing a tree brings no address that is not in it, and none twice. Induction over the tree.
-/
theorem count_addrsAll_absorb (a : Nat) (x : Tree) : ∀ cs,
    (addrsAll (absorb x cs)).count a ≤ (addrsAll cs).count a + x.addrs.count a := by
  induction x using induct with
  | step x ih =>
    intro cs
    -- twice appended as it is, once merged into a child
    rcases absorb_cases x cs with ⟨_, heq⟩ | ⟨_, heq⟩ | ⟨_, pre, c, post, rfl, _, _, heq⟩
    · rw [heq, addrsAll_append, addrsAll_cons, addrsAll_nil, List.append_nil, List.count_append]
    · rw [heq, addrsAll_append, addrsAll_cons, addrsAll_nil, List.append_nil, List.count_append]
    · rw [heq]
      exact count_addrsAll_into a ih pre post c

/-- A way of adding an entry to a list of siblings that invents no address. -/
def Frugal (add : Tree → List Tree → List Tree) : Prop :=
  ∀ a x cs, (addrsAll (add x cs)).count a ≤ (addrsAll cs).count a + x.addrs.count a

/-- Neither way of adding an entry invents an address. -/
theorem frugal_absorb : Frugal absorb := count_addrsAll_absorb

theorem frugal_adopt : Frugal adopt := by
  intro a x cs
  rcases adopt_cases x cs with ⟨_, heq⟩ | ⟨pre, c, post, rfl, heq⟩
  · rw [heq, addrsAll_append, addrsAll_cons, addrsAll_nil, List.append_nil, List.count_append]
  · rw [heq]
    exact count_addrsAll_into a (fun y _ => count_addrsAll_absorb a y) pre post c

section Frugal

variable {add : Tree → List Tree → List Tree}

/-- The same for the directory that takes up the entry. -/
theorem Frugal.count_addrs (hadd : Frugal add) (a : Nat) (x t : Tree) :
    (t.setContents (add x t.contents)).addrs.count a ≤ t.addrs.count a + x.addrs.count a := by
  have := hadd a x t.contents
  simp only [addrs_eq t, addrs_eq (t.setContents _), addr_setContents, contents_setContents,
    List.count_cons] at this ⊢
  omega

/-- An address afterwards was in the directory or in the entry. -/
theorem Frugal.mem_addrs (hadd : Frugal add) {a : Nat} {x t : Tree}
    (ha : a ∈ (t.setContents (add x t.contents)).addrs) : a ∈ t.addrs ++ x.addrs := by
  have hpos := List.count_pos_iff.mpr ha
  have hle := hadd.count_addrs a x t
  rw [← List.count_pos_iff, List.count_append]
  omega

end Frugal

/-! ## What a merge has done to the heap -/

/-- The heap `h'` differs from `h` on `touched` only, and holds the tree `t`. -/
structure MergesTo (h : Heap) (t : Tree) (touched : List Nat) (h' : Heap) : Prop where
  length : h'.length = h.length
  result : t.In h'
  frame : ∀ a, a ∉ touched → h'[a]? = h[a]?

/-- Appending `x` to the `contents` of the object at `t`. -/
theorem In.push {h : Heap} {t x : Tree} (ht : t.In h) (hx : x.In h)
    (hnodup : (t.addrs ++ x.addrs).Nodup) :
    MergesTo h (t.setContents (t.contents ++ [x])) [t.addr]
      (h.set t.addr { t.toFileContent with contents := t.toFileContent.contents ++ [some x.addr] })
      := by
  have hlt : t.addr < h.length := ht.lt_length (addr_mem_addrs t)
  have hdisjoint := List.disjoint_of_nodup_append hnodup
  have hbelow : t.addr ∉ addrsAll t.contents := by
    have ht_nodup := (List.nodup_append.mp hnodup).1
    rw [addrs_eq, List.nodup_cons] at ht_nodup
    exact ht_nodup.1
  have hother : ∀ a, a ≠ t.addr → (h.set t.addr { t.toFileContent with
      contents := t.toFileContent.contents ++ [some x.addr] })[a]? = h[a]? := fun a ha =>
    List.getElem?_set_ne (Ne.symm ha)
  refine ⟨by simp, ?_, fun a ha => hother a (by simpa using ha)⟩
  -- the root has the new slot; below it nothing has changed
  refine in_iff.mpr ⟨?_, fun c hc => ?_⟩
  · rw [addr_setContents, List.getElem?_set_self hlt]
    cases t
    simp [toFileContent, setContents, type, networkNode, name, contents]
  · rw [contents_setContents] at hc
    rcases List.mem_append.mp hc with hc | hc
    · -- an old child does not contain the root of the tree
      apply (ht.child hc).congr
      intro a ha
      apply hother a
      rintro rfl
      exact hbelow (mem_addrsAll.mpr ⟨c, hc, ha⟩)
    · obtain rfl : c = x := by simpa using hc
      apply hx.congr
      intro a ha
      apply hother a
      rintro rfl
      exact hdisjoint (addr_mem_addrs t) ha

/-- Replacing one child of `t` by another tree at the same address. -/
theorem In.replaceChild {h h' : Heap} {t c c' : Tree} {pre post : List Tree}
    {touched : List Nat} (ht : t.In h) (hsplit : t.contents = pre ++ c :: post)
    (haddr : c'.addr = c.addr) (hmerge : MergesTo h c' touched h') (hroot : t.addr ∉ touched)
    (hpre : ∀ a ∈ addrsAll pre, a ∉ touched) (hpost : ∀ a ∈ addrsAll post, a ∉ touched) :
    (t.setContents (pre ++ c' :: post)).In h' := by
  -- the other children share nothing with what was changed
  have hsibling : ∀ b ∈ t.contents, (∀ a ∈ b.addrs, a ∉ touched) → b.In h' := fun b hb hb' =>
    (ht.child hb).congr fun a ha => hmerge.frame a (hb' a ha)
  refine in_iff.mpr ⟨?_, fun b hb => ?_⟩
  · rw [addr_setContents, hmerge.frame t.addr hroot, ht.root]
    cases t
    unfold contents at hsplit
    simp [toFileContent, setContents, type, networkNode, name, contents, hsplit, haddr]
  · rw [contents_setContents] at hb
    rcases List.mem_append.mp hb with hb | hb
    · exact hsibling b (by simp [hsplit, hb]) fun a ha => hpre a (mem_addrsAll.mpr ⟨b, hb, ha⟩)
    · rcases List.mem_cons.mp hb with rfl | hb
      · exact hmerge.result
      · exact hsibling b (by simp [hsplit, hb]) fun a ha => hpost a (mem_addrsAll.mpr ⟨b, hb, ha⟩)

/-! ## The code on trees -/

/-- The root of a tree on the heap can be followed. -/
theorem In.deref {h : Heap} {t : Tree} (ht : t.In h) :
    Heap.deref h (some t.addr) = .ok t.toFileContent := by
  simp only [Heap.deref, ht.root]

/-- The search of the code is the search of the tree. -/
theorem findSameName_eq {h : Heap} {x : Tree} (hx : x.In h) (cs : List Tree)
    (hcs : ∀ c ∈ cs, c.In h) :
    Heap.findSameName h (some x.addr) (cs.map fun c => some c.addr) =
      .ok ((cs.find? (hasName x.name)).map fun c => some c.addr) := by
  induction cs with
  | nil => rfl
  | cons c cs ih =>
    have hc : c.In h := hcs c (by simp)
    rw [List.map_cons, Heap.findSameName, hc.deref, hx.deref]
    by_cases hname : c.name = x.name
    · rw [List.find?_cons_of_pos (hasName_iff.mpr hname), ok_bind, ok_bind,
        name_toFileContent, name_toFileContent, if_pos hname]
      rfl
    · rw [List.find?_cons_of_neg (by simpa using hname), ok_bind, ok_bind,
        name_toFileContent, name_toFileContent, if_neg hname]
      exact ih fun d hd => hcs d (by simp [hd])

/-- `push_back` appends, since the loop does not walk over the vector that it goes to. -/
theorem In.pushBack {h : Heap} {t x : Tree} {walked : List Nat} (ht : t.In h) (hx : x.In h)
    (hnodup : (t.addrs ++ x.addrs).Nodup) (hwalked : t.addr ∉ walked) :
    ∃ h', Heap.pushBack walked h (some t.addr) (some x.addr) = .ok h' ∧
      MergesTo h (t.setContents (t.contents ++ [x])) [t.addr] h' := by
  refine ⟨_, ?_, ht.push hx hnodup⟩
  rw [Heap.pushBack, ht.deref]
  simp only [ok_bind, if_neg hwalked]

/-! ## The recursion -/

/-- The part of the heap that may be touched can be taken larger. -/
theorem MergesTo.mono {h h' : Heap} {t : Tree} {touched touched' : List Nat}
    (hmerge : MergesTo h t touched h') (hsub : ∀ a ∈ touched, a ∈ touched') :
    MergesTo h t touched' h' :=
  ⟨hmerge.length, hmerge.result, fun a ha => hmerge.frame a fun hmem => ha (hsub a hmem)⟩

/-- A loop body that merges the entry `x` into the directory at `root`. While it runs, the
vectors of the nodes in `walked` are being iterated. -/
def EntryRefines (step : Heap → Option Addr → Except MergeFault Heap) (walked : List Nat)
    (root : Nat) (x : Tree) : Prop :=
  ∀ (h : Heap) (t : Tree), t.addr = root → t.In h → x.In h → (t.addrs ++ x.addrs).Nodup →
    (∀ a ∈ walked, a ∉ t.addrs ++ x.addrs) →
    ∃ h', step h (some x.addr) = .ok h' ∧
      MergesTo h (t.setContents (absorb x t.contents)) (t.addrs ++ x.addrs) h'

/-- The same for any way `add` of adding an entry: `EntryRefines` is the case of `absorb`. -/
def EntryRefinesBy (add : Tree → List Tree → List Tree)
    (step : Heap → Option Addr → Except MergeFault Heap) (walked : List Nat) (root : Nat)
    (x : Tree) : Prop :=
  ∀ (h : Heap) (t : Tree), t.addr = root → t.In h → x.In h → (t.addrs ++ x.addrs).Nodup →
    (∀ a ∈ walked, a ∉ t.addrs ++ x.addrs) →
    ∃ h', step h (some x.addr) = .ok h' ∧
      MergesTo h (t.setContents (add x t.contents)) (t.addrs ++ x.addrs) h'

/-- What a loop needs to go on: the entries still to come are on the heap and apart from all that
was touched so far. -/
structure Mergeable (h : Heap) (t : Tree) (xs : List Tree) (walked : List Nat) : Prop where
  target : t.In h
  entries : ∀ x ∈ xs, x.In h
  nodup : (t.addrs ++ addrsAll xs).Nodup
  apart : ∀ a ∈ walked, a ∉ t.addrs ++ addrsAll xs

/-- The first entry can be merged by itself. -/
theorem Mergeable.head {h : Heap} {t x : Tree} {xs : List Tree} {walked : List Nat}
    (hm : Mergeable h t (x :: xs) walked) :
    x.In h ∧ (t.addrs ++ x.addrs).Nodup ∧ ∀ a ∈ walked, a ∉ t.addrs ++ x.addrs := by
  have hnodup := hm.nodup
  rw [addrsAll_cons, ← List.append_assoc] at hnodup
  refine ⟨hm.entries x (by simp), (List.nodup_append.mp hnodup).1, fun a ha hmem => ?_⟩
  apply hm.apart a ha
  rw [addrsAll_cons, ← List.append_assoc]
  exact List.mem_append_left _ hmem

/-- What it takes for a single entry. -/
theorem mergeable_single {h : Heap} {t x : Tree} {walked : List Nat} :
    Mergeable h t [x] walked ↔ t.In h ∧ x.In h ∧ (t.addrs ++ x.addrs).Nodup ∧
      ∀ a ∈ walked, a ∉ t.addrs ++ x.addrs := by
  refine ⟨fun hm => ⟨hm.target, hm.head⟩, fun ⟨ht, hx, hnodup, hwalked⟩ => ⟨ht, ?_, ?_, ?_⟩⟩
  · simpa using hx
  · simpa [addrsAll_cons] using hnodup
  · simpa [addrsAll_cons] using hwalked

/-- With the first entry added, no address has come in. -/
theorem Frugal.mem_rest {add : Tree → List Tree → List Tree} (hadd : Frugal add) {t x : Tree}
    {xs : List Tree} {a : Addr}
    (ha : a ∈ (t.setContents (add x t.contents)).addrs ++ addrsAll xs) :
    a ∈ t.addrs ++ (x.addrs ++ addrsAll xs) := by
  rcases List.mem_append.mp ha with ha | ha
  · have hold := hadd.mem_addrs ha
    simp only [List.mem_append] at hold ⊢
    tauto
  · simp [ha]

/-- After the first entry the loop can go on. -/
theorem Mergeable.rest {add : Tree → List Tree → List Tree} (hadd : Frugal add) {h h₁ : Heap}
    {t x : Tree} {xs : List Tree} {walked : List Nat} (hm : Mergeable h t (x :: xs) walked)
    (hmerge : MergesTo h (t.setContents (add x t.contents)) (t.addrs ++ x.addrs) h₁) :
    Mergeable h₁ (t.setContents (add x t.contents)) xs walked := by
  have hnodup := hm.nodup
  have hwalked := hm.apart
  rw [addrsAll_cons] at hnodup hwalked
  refine ⟨hmerge.result, fun y hy => ?_, ?_, fun a ha hmem => hwalked a ha ?_⟩
  · apply (hm.entries y (by simp [hy])).congr
    intro a ha
    apply hmerge.frame a
    rw [← List.append_assoc] at hnodup
    exact fun hmem => List.disjoint_of_nodup_append hnodup hmem (mem_addrsAll.mpr ⟨y, hy, ha⟩)
  · -- by counting: what was added was there once
    rw [List.nodup_iff_count_le_one] at hnodup ⊢
    intro a
    have := hnodup a
    have := hadd.count_addrs a x t
    simp only [List.count_append] at *
    omega
  · exact hadd.mem_rest hmem

/-- The entries of `x` can be merged where `x` can; while they are walked, nothing is appended to
`x` itself. -/
theorem Mergeable.descend {h : Heap} {t x : Tree} {walked : List Nat}
    (hm : Mergeable h t [x] walked) : Mergeable h t x.contents (x.addr :: walked) := by
  have hnodup := hm.nodup
  have hwalked := hm.apart
  rw [addrsAll_cons, addrsAll_nil, List.append_nil, addrs_eq x] at hnodup hwalked
  rw [List.nodup_middle, List.nodup_cons] at hnodup
  refine ⟨hm.target, fun y hy => (hm.entries x (by simp)).child hy, hnodup.2, fun a ha hmem => ?_⟩
  -- `x` is walked over now, and is not among its own entries
  rcases List.mem_cons.mp ha with rfl | ha
  · exact hnodup.1 hmem
  · apply hwalked a ha
    simp only [List.mem_append, List.mem_cons] at hmem ⊢
    tauto

/-- A loop over entries, each of which is added as `add` does, adds them all. Induction over the
entries; `Mergeable` is what carries over. -/
theorem foldlM_refinesBy {add : Tree → List Tree → List Tree} (hadd : Frugal add)
    {step : Heap → Option Addr → Except MergeFault Heap} {walked : List Nat} {xs : List Tree}
    {h : Heap} {t : Tree} (hone : ∀ x ∈ xs, EntryRefinesBy add step walked t.addr x)
    (ht : t.In h) (hxs : ∀ x ∈ xs, x.In h) (hnodup : (t.addrs ++ addrsAll xs).Nodup)
    (hwalked : ∀ a ∈ walked, a ∉ t.addrs ++ addrsAll xs) :
    ∃ h', (xs.map fun x => some x.addr).foldlM step h = .ok h' ∧
      MergesTo h (t.setContents (xs.foldl (fun cs x => add x cs) t.contents))
        (t.addrs ++ addrsAll xs) h' := by
  induction xs generalizing h t with
  | nil => exact ⟨h, rfl, rfl, by simpa using ht, fun a _ => rfl⟩
  | cons x xs ih =>
    have hm : Mergeable h t (x :: xs) walked := ⟨ht, hxs, hnodup, hwalked⟩
    obtain ⟨hx, hnodup₁, hwalked₁⟩ := hm.head
    obtain ⟨h₁, hstep, hmerge₁⟩ := hone x (by simp) h t rfl ht hx hnodup₁ hwalked₁
    -- the others are still as they were, and still apart
    have hrest := hm.rest hadd hmerge₁
    obtain ⟨h', hloop, hmerge'⟩ := ih (t := t.setContents (add x t.contents))
      (fun y hy => by simpa using hone y (by simp [hy])) hrest.target hrest.entries hrest.nodup
      hrest.apart
    rw [addrsAll_cons]
    refine ⟨h', ?_, hmerge'.length.trans hmerge₁.length, ?_, fun a ha => ?_⟩
    · rw [List.map_cons, List.foldlM_cons, hstep, ok_bind, hloop]
    · simpa using hmerge'.result
    · rw [hmerge'.frame a fun hmem => ha ?_, hmerge₁.frame a fun hmem => ha ?_]
      · simp only [List.mem_append] at hmem ⊢
        tauto
      · exact hadd.mem_rest hmem

/-- `absorbAll` is the loop over `absorb`. -/
theorem absorbAll_eq_foldl (xs cs : List Tree) :
    absorbAll xs cs = xs.foldl (fun cs x => absorb x cs) cs := by
  induction xs generalizing cs with
  | nil => rfl
  | cons x xs ih => rw [absorbAll, ih, List.foldl_cons]

/-- The loop of `MergeSingleFileContent`, given one round of it. -/
theorem foldlM_refines {step : Heap → Option Addr → Except MergeFault Heap} {walked : List Nat}
    {xs : List Tree} {h : Heap} {t : Tree} (hone : ∀ x ∈ xs, EntryRefines step walked t.addr x)
    (ht : t.In h) (hxs : ∀ x ∈ xs, x.In h) (hnodup : (t.addrs ++ addrsAll xs).Nodup)
    (hwalked : ∀ a ∈ walked, a ∉ t.addrs ++ addrsAll xs) :
    ∃ h', (xs.map fun x => some x.addr).foldlM step h = .ok h' ∧
      MergesTo h (t.setContents (absorbAll xs t.contents)) (t.addrs ++ addrsAll xs) h' := by
  rw [absorbAll_eq_foldl]
  exact foldlM_refinesBy frugal_absorb hone ht hxs hnodup hwalked

/-- The function, given a round for each entry of `x`: the fuel is what the trees below take. -/
theorem mergeSingleFileContent_refines_of {x : Tree} {fuel : Nat} {walked : List Nat} {h : Heap}
    {t : Tree} (hone : ∀ y ∈ x.contents, ∀ fuel walked, y.nodes.length ≤ fuel →
      EntryRefines (Heap.mergeEntry (Heap.mergeSingleFileContent fuel walked) walked
        (some t.addr)) walked t.addr y)
    (hfuel : x.nodes.length ≤ fuel) (ht : t.In h) (hx : x.In h)
    (hnodup : (t.addrs ++ x.addrs).Nodup) (hwalked : ∀ a ∈ walked, a ∉ t.addrs ++ x.addrs) :
    ∃ h', Heap.mergeSingleFileContent fuel walked h (some t.addr) (some x.addr) = .ok h' ∧
      MergesTo h (t.setContents (absorbAll x.contents t.contents))
        (t.addrs ++ addrsAll x.contents) h' := by
  obtain ⟨fuel, rfl⟩ : ∃ n, fuel = n + 1 := by
    rw [nodes_eq, List.length_cons] at hfuel
    exact ⟨fuel - 1, by omega⟩
  have hm : Mergeable h t x.contents (x.addr :: walked) :=
    (mergeable_single.mpr ⟨ht, hx, hnodup, hwalked⟩).descend
  simp only [Heap.mergeSingleFileContent, hx.deref, ok_bind]
  refine foldlM_refines (fun y hy => hone y hy fuel _ ?_) ht hm.entries hm.nodup hm.apart
  have := length_nodes_lt hy
  omega

/-- The addresses of a directory, around one of its children. -/
theorem addrs_split {t c : Tree} {pre post : List Tree} (hsplit : t.contents = pre ++ c :: post) :
    t.addrs = t.addr :: (addrsAll pre ++ (c.addrs ++ addrsAll post)) := by
  rw [addrs_eq, hsplit, addrsAll_append, addrsAll_cons]

/-- What can be merged into a directory can be merged into a child of it. -/
theorem Mergeable.child {h : Heap} {t c x : Tree} {pre post : List Tree} {walked : List Nat}
    (hm : Mergeable h t [x] walked) (hsplit : t.contents = pre ++ c :: post) :
    Mergeable h c [x] walked := by
  obtain ⟨ht, hx, hnodup, hwalked⟩ := mergeable_single.mp hm
  have hsub : ∀ a, (c.addrs ++ x.addrs).count a ≤ (t.addrs ++ x.addrs).count a := by
    intro a
    simp only [addrs_split hsplit, List.count_append, List.count_cons]
    omega
  refine mergeable_single.mpr ⟨ht.child (by simp [hsplit]), hx, ?_, fun a ha hmem => ?_⟩
  · exact List.nodup_iff_count_le_one.mpr fun a =>
      (hsub a).trans (List.nodup_iff_count_le_one.mp hnodup a)
  · exact hwalked a ha (List.count_pos_iff.mp ((List.count_pos_iff.mpr hmem).trans_le (hsub a)))

/-- Merging the children of `x` into a child of `t` merges `x` into `t`. -/
theorem MergesTo.parent {h h' : Heap} {t c x : Tree} {pre post : List Tree} (ht : t.In h)
    (hsplit : t.contents = pre ++ c :: post) (hnodup : (t.addrs ++ x.addrs).Nodup)
    (hmerge : MergesTo h (c.setContents (absorbAll x.contents c.contents))
      (c.addrs ++ addrsAll x.contents) h') :
    MergesTo h (t.setContents (pre ++ c.setContents (absorbAll x.contents c.contents) :: post))
      (t.addrs ++ x.addrs) h' := by
  rw [List.nodup_iff_count_le_one] at hnodup
  simp only [addrs_split hsplit, addrs_eq x, List.count_append, List.count_cons] at hnodup
  -- everything in `t` outside of `c` is left alone
  have houtside : ∀ a, 0 < (if t.addr == a then 1 else 0) + (addrsAll pre).count a +
      (addrsAll post).count a → a ∉ c.addrs ++ addrsAll x.contents := by
    intro a hpos hmem
    have := hnodup a
    rw [← List.count_pos_iff, List.count_append] at hmem
    omega
  refine ⟨hmerge.length, ?_, fun a ha => hmerge.frame a fun hmem => ha ?_⟩
  · apply ht.replaceChild hsplit (by simp) hmerge (houtside _ (by simp))
    · exact fun a ha => houtside a (by have := List.count_pos_iff.mpr ha; omega)
    · exact fun a ha => houtside a (by have := List.count_pos_iff.mpr ha; omega)
  · rw [addrs_split hsplit, addrs_eq x]
    simp only [List.mem_append, List.mem_cons] at hmem ⊢
    tauto

/-- Merging `x` into a child of `t`, given that its own entries can be merged there. -/
theorem mergeSingleFileContent_into {x c t : Tree} {pre post : List Tree} {fuel : Nat}
    {walked : List Nat} {h : Heap} (hone : ∀ y ∈ x.contents, ∀ fuel walked, y.nodes.length ≤ fuel →
      EntryRefines (Heap.mergeEntry (Heap.mergeSingleFileContent fuel walked) walked
        (some c.addr)) walked c.addr y)
    (hsplit : t.contents = pre ++ c :: post) (hfuel : x.nodes.length ≤ fuel) (ht : t.In h)
    (hx : x.In h) (hnodup : (t.addrs ++ x.addrs).Nodup)
    (hwalked : ∀ a ∈ walked, a ∉ t.addrs ++ x.addrs) :
    ∃ h', Heap.mergeSingleFileContent fuel walked h (some c.addr) (some x.addr) = .ok h' ∧
      MergesTo h (t.setContents (pre ++ c.setContents (absorbAll x.contents c.contents) :: post))
        (t.addrs ++ x.addrs) h' := by
  obtain ⟨hc, hx, hcnodup, hcwalked⟩ := mergeable_single.mp
    ((mergeable_single.mpr ⟨ht, hx, hnodup, hwalked⟩).child hsplit)
  obtain ⟨h', hok, hmerge⟩ := mergeSingleFileContent_refines_of hone hfuel hc hx hcnodup hcwalked
  exact ⟨h', hok, hmerge.parent ht hsplit hnodup⟩

/-- `mergeEntry` does it, by induction on the entry: below a match the same loop runs over the
entry's children. -/
theorem mergeEntry_refines (x : Tree) : ∀ (root : Nat) (fuel : Nat) (walked : List Nat),
    x.nodes.length ≤ fuel → EntryRefines (Heap.mergeEntry
      (Heap.mergeSingleFileContent fuel walked) walked (some root)) walked root x := by
  induction x using induct with
  | step x ih =>
    rintro _ fuel walked hfuel h t rfl ht hx hnodup hwalked
    have hfind := findSameName_eq hx t.contents fun c hc => ht.child hc
    have hroot : t.addr ∉ walked := fun hmem => hwalked _ hmem (by simp [addr_mem_addrs])
    -- up to the search the code is the same in all cases
    simp only [Heap.mergeEntry, ht.deref, ok_bind, contents_toFileContent, hfind]
    -- both ways of appending end the same
    have hpush : ∃ h', Heap.pushBack walked h (some t.addr) (some x.addr) = .ok h' ∧
        MergesTo h (t.setContents (t.contents ++ [x])) (t.addrs ++ x.addrs) h' := by
      obtain ⟨h', hok, hmerge⟩ := ht.pushBack hx hnodup hroot
      exact ⟨h', hok, hmerge.mono fun a ha => by simp_all [addr_mem_addrs]⟩
    cases hfound : t.contents.find? (hasName x.name) with
    | none =>
      rw [absorb_of_new hfound]
      exact hpush
    | some c =>
      simp only [Option.map_some, hx.deref, ok_bind]
      by_cases hfile : x.type = FileType.file
      · -- a File is appended also when there is one of its name
        rw [absorb_of_file _ hfile]
        rw [type_toFileContent, if_pos hfile]
        exact hpush
      · -- a folder goes below the match
        obtain ⟨hname, pre, post, hsplit, hpre⟩ := find?_split hfound
        rw [type_toFileContent, if_neg hfile]
        rw [absorb_of_match hfound hfile, hsplit, updateFirst_split hpre hname]
        exact mergeSingleFileContent_into (fun y hy => ih y hy c.addr) hsplit hfuel ht hx hnodup
          hwalked

/-- A tree that shares nothing has no more nodes than the heap has objects. -/
theorem In.length_nodes_le {h : Heap} {t : Tree} (ht : t.In h) (hnodup : t.addrs.Nodup) :
    t.nodes.length ≤ h.length := by
  have hsub : t.addrs ⊆ List.range h.length := fun a ha =>
    List.mem_range.mpr (ht.lt_length ha)
  have := (List.subperm_of_subset hnodup hsub).length_le
  simpa [addrs] using this

/-- `addDirectory` differs from `mergeEntry` in not looking at the type at all. -/
theorem addDirectory_adopts (x : Tree) (root : Nat) :
    EntryRefinesBy adopt (Heap.addDirectory root) [] root x := by
  rintro h t rfl ht hx hnodup -
  -- the fuel is the size of the heap, which no tree on it exceeds
  have hfuel : x.nodes.length ≤ h.length + 1 :=
    Nat.le_succ_of_le (hx.length_nodes_le (List.nodup_append.mp hnodup).2.1)
  have hfind := findSameName_eq hx t.contents fun c hc => ht.child hc
  simp only [Heap.addDirectory, ht.deref, ok_bind, contents_toFileContent, hfind]
  cases hfound : t.contents.find? (hasName x.name) with
  | none =>
    have hwalked : t.addr ∉ [] := by simp
    obtain ⟨h', hok, hmerge⟩ := ht.pushBack hx hnodup hwalked
    rw [adopt_of_new hfound]
    exact ⟨h', hok, hmerge.mono fun a ha => by simp_all [addr_mem_addrs]⟩
  | some c =>
    obtain ⟨hname, pre, post, hsplit, hpre⟩ := find?_split hfound
    rw [adopt_of_match hfound, hsplit, updateFirst_split hpre hname]
    exact mergeSingleFileContent_into (fun y _ => mergeEntry_refines y c.addr) hsplit hfuel ht hx
      hnodup (by simp)

/-- On an entry that is no File it agrees with `mergeEntry`. -/
theorem addDirectory_refines {x : Tree} (hdir : x.type ≠ FileType.file) (root : Nat) :
    EntryRefines (Heap.addDirectory root) [] root x := by
  intro h t
  rw [← adopt_eq_absorb hdir]
  exact addDirectory_adopts x root h t

/-- The loop over directories, none of which is a File. -/
theorem addDirectories_refines {h : Heap} {t : Tree} {ts : List Tree}
    (hdirs : ∀ x ∈ ts, x.type ≠ FileType.file) (ht : t.In h) (hts : ∀ x ∈ ts, x.In h)
    (hnodup : (t.addrs ++ addrsAll ts).Nodup) :
    ∃ h', (ts.map fun x => some x.addr).foldlM (Heap.addDirectory t.addr) h = .ok h' ∧
      MergesTo h (t.setContents (absorbAll ts t.contents)) (t.addrs ++ addrsAll ts) h' :=
  foldlM_refines (fun x hx => addDirectory_refines (hdirs x hx) t.addr) ht hts hnodup (by simp)

/-- `MergeTotalFileContent`: the new root holds what the trees merge to. -/
theorem mergeTotalFileContent_refines {h : Heap} {ts : List Tree}
    (hdirs : ∀ x ∈ ts, x.type ≠ FileType.file) (hts : ∀ x ∈ ts, x.In h)
    (hnodup : (addrsAll ts).Nodup) :
    ∃ h', Heap.mergeTotalFileContent h (ts.map fun x => some x.addr) = .ok (h', h.length) ∧
      (node h.length FileType.directory {} Heap.rootName (absorbAll ts [])).In h' := by
  have hold : ∀ a ∈ addrsAll ts, a < h.length := by
    intro a ha
    obtain ⟨t, ht, ha⟩ := mem_addrsAll.mp ha
    exact (hts t ht).lt_length ha
  -- the new root lies behind all trees, so it shares nothing with them
  obtain ⟨h', hok, hmerge⟩ := addDirectories_refines
    (h := h ++ [{ FileContent.new with name := Heap.rootName, type := FileType.directory }])
    (t := node h.length FileType.directory {} Heap.rootName []) hdirs
    (by simp [In, nodes, nodesAll, addr, toFileContent, FileContent.new, type, networkNode, name,
      contents])
    (fun x hx => (hts x hx).congr fun a ha => List.getElem?_append_left
      (hold a (mem_addrsAll.mpr ⟨x, hx, ha⟩)))
    (by
      simp only [addrs_eq, contents, addrsAll_nil, addr, List.singleton_append, List.nodup_cons]
      exact ⟨fun hmem => Nat.lt_irrefl _ (hold _ hmem), hnodup⟩)
  rw [addr] at hok
  refine ⟨h', ?_, by simpa [setContents, contents] using hmerge.result⟩
  simp only [Heap.mergeTotalFileContent, hok, ok_bind]
  rfl

/-- Any sequence of `MergeDiff` and `AddAsChildDirectory` calls on a root. -/
theorem runAddCalls_refines {h : Heap} {t : Tree} {ts : List Tree} {calls : List Heap.AddCall}
    (hcalls : calls.flatMap Heap.AddCall.additions = ts.map fun x => some x.addr)
    (hdirs : ∀ x ∈ ts, x.type ≠ FileType.file) (ht : t.In h) (hts : ∀ x ∈ ts, x.In h)
    (hnodup : (t.addrs ++ addrsAll ts).Nodup) :
    ∃ h', Heap.runAddCalls t.addr h calls = .ok h' ∧
      (t.setContents (absorbAll ts t.contents)).In h' := by
  obtain ⟨h', hok, hmerge⟩ := addDirectories_refines hdirs ht hts hnodup
  exact ⟨h', by rw [Heap.runAddCalls_eq, hcalls, hok], hmerge.result⟩

end Tree

end Guthi
