import Guthi.Filesystem.MergeFaults
import Guthi.Lib.FirstMatch

/-!
# Guthi — adding and removing the entries of a directory

`AddFile` and `RemoveFile` of `filesystem/network_fs.hpp`, on directories that were built by
`AddFile` and the merges.

A merge appends a File even where the directory has an entry of its name, and `RemoveFile`
looks at nothing but the name: of several entries of one name it removes the first, whichever of
them it was given.

* `Heap.Built.allLive` — in a heap that was built so every entry is an object;
* `Heap.removeFile_removes` — what `RemoveFile` removes, and when it undoes an `AddFile`.
-/

namespace Guthi

namespace Heap

/-- `AddFile(file_dir, file)`: what it returns, and the heap afterwards. -/
def addFile (h : Heap) (fileDir : Addr) (file : Option Addr) : Except MergeFault (Bool × Heap) := do
  let h' ← pushBack [] h (some fileDir) file
  return (true, h')

/-- `std::find_if` as in `findSameName`, and `erase` of the iterator: what is left of the
entries, or `none` when no entry has the name. -/
def eraseSameName (h : Heap) (file : Option Addr) :
    List (Option Addr) → Except MergeFault (Option (List (Option Addr)))
  | [] => .ok none
  | f1 :: rest => do
    let entry ← deref h f1
    let other ← deref h file
    if entry.name = other.name then .ok (some rest)
    else
      let rest' ← eraseSameName h file rest
      return rest'.map (f1 :: ·)

/-- `RemoveFile(file_dir, file)`. -/
def removeFile (h : Heap) (fileDir : Addr) (file : Option Addr) :
    Except MergeFault (Bool × Heap) := do
  let dir ← deref h (some fileDir)
  match ← eraseSameName h file dir.contents with
  | none => return (false, h)
  | some contents => return (true, h.set fileDir { dir with contents })

/-! ## The first entry of a name -/

variable {h : Heap}

/-- The name of the node that a pointer leads to. -/
def nameOf (h : Heap) (p : Option Addr) : Option Bytes :=
  p.bind fun a => h[a]?.map FileContent.name

/-- `x` is the first entry that has the name of `f`. -/
structure FirstOfName (h : Heap) (f : Option Addr) (cs pre : List (Option Addr)) (x : Option Addr)
    (post : List (Option Addr)) : Prop where
  split : cs = pre ++ x :: post
  name : h.nameOf x = h.nameOf f
  before : ∀ y ∈ pre, h.nameOf y ≠ h.nameOf f

/-- A name that occurs has a first entry. -/
theorem exists_firstOfName {f g : Option Addr} {cs : List (Option Addr)} (hg : g ∈ cs)
    (hname : h.nameOf g = h.nameOf f) : ∃ pre x post, h.FirstOfName f cs pre x post := by
  have hfound : (cs.find? fun y => decide (h.nameOf y = h.nameOf f)).isSome :=
    List.find?_isSome.mpr ⟨g, hg, by simpa using hname⟩
  obtain ⟨x, hx⟩ := Option.isSome_iff_exists.mp hfound
  obtain ⟨hsame, pre, post, hsplit, hpre⟩ := find?_split hx
  exact ⟨pre, x, post, hsplit, by simpa using hsame, fun y hy => by simpa using hpre y hy⟩

/-- Only one entry is the first of a name. -/
theorem FirstOfName.unique {f x y : Option Addr} {cs pre pre' post post' : List (Option Addr)}
    (hx : h.FirstOfName f cs pre x post) (hy : h.FirstOfName f cs pre' y post') :
    pre = pre' ∧ x = y ∧ post = post' := by
  have hsplit : pre ++ x :: post = pre' ++ y :: post' := hx.split.symm.trans hy.split
  -- one of the two parts in front begins with the other
  rcases List.append_eq_append_iff.mp hsplit with ⟨mid, hpre, hpost⟩ | ⟨mid, hpre, hpost⟩
  · cases mid with
    | nil => simp_all
    | cons z mid =>
      -- `x` would come before `y`
      obtain ⟨rfl, -⟩ : x = z ∧ post = mid ++ y :: post' := by simpa using hpost
      exact absurd hx.name (hy.before x (by simp [hpre]))
  · cases mid with
    | nil => simp_all
    | cons z mid =>
      obtain ⟨rfl, -⟩ : y = z ∧ post' = mid ++ x :: post := by simpa using hpost
      exact absurd hy.name (hx.before y (by simp [hpre]))

/-! ## Heaps whose entries are objects -/

/-- A pointer to an object. -/
abbrev Live (h : Heap) (p : Option Addr) : Prop := Into (Set.Iio h.length) p

/-- A pointer to an object can be dereferenced. -/
theorem Live.deref {p : Option Addr} (hp : h.Live p) :
    ∃ c, Heap.deref h p = .ok c ∧ h.nameOf p = some c.name := by
  obtain ⟨a, ha, rfl⟩ := hp
  have hget : h[a]? = some h[a] := List.getElem?_eq_getElem ha
  exact ⟨h[a], deref_eq_ok.mpr hget, by simp [nameOf, hget]⟩

/-- Every entry of every object is an object. -/
abbrev AllLive (h : Heap) : Prop := h.ClosedOn (Set.Iio h.length)

/-- The entries of a directory are objects. -/
theorem AllLive.entry {fileDir : Addr} {dir : FileContent} (hlive : h.AllLive)
    (hdir : h[fileDir]? = some dir) : ∀ p ∈ dir.contents, h.Live p := by
  obtain ⟨dir', hdir', hentries⟩ := hlive fileDir (List.getElem?_eq_some_iff.mp hdir).1
  cases hdir.symm.trans hdir'
  exact hentries

/-! ## What is erased -/

/-- The loop erases the first entry of the name. -/
theorem eraseSameName_first {f x : Option Addr} {cs pre post : List (Option Addr)}
    (hcs : ∀ p ∈ cs, h.Live p) (hf : h.Live f) (hfirst : h.FirstOfName f cs pre x post) :
    eraseSameName h f cs = .ok (some (pre ++ post)) := by
  obtain ⟨other, hother, hotherName⟩ := hf.deref
  obtain ⟨rfl, hname, hbefore⟩ := hfirst
  induction pre with
  | nil =>
    obtain ⟨entry, hentry, hentryName⟩ := (hcs x (by simp)).deref
    have hsame : entry.name = other.name := by simpa [hentryName, hotherName] using hname
    show eraseSameName h f (x :: post) = _
    rw [eraseSameName, hentry, ok_bind, hother, ok_bind, if_pos hsame]
    rfl
  | cons y pre ih =>
    obtain ⟨entry, hentry, hentryName⟩ := (hcs y (by simp)).deref
    have hother' : entry.name ≠ other.name := by
      simpa [hentryName, hotherName] using hbefore y (by simp)
    have hrest := ih (fun z hz => hbefore z (by simp [hz]))
      fun p hp => hcs p (List.mem_cons_of_mem y hp)
    show eraseSameName h f (y :: (pre ++ x :: post)) = _
    rw [eraseSameName, hentry, ok_bind, hother, ok_bind, if_neg hother', hrest]
    rfl

/-- `RemoveFile` erases the first entry of the name. -/
theorem removeFile_first {fileDir : Addr} {dir : FileContent} {f x : Option Addr}
    {pre post : List (Option Addr)} (hdir : h[fileDir]? = some dir)
    (hentries : ∀ p ∈ dir.contents, h.Live p) (hf : h.Live f)
    (hfirst : h.FirstOfName f dir.contents pre x post) :
    removeFile h fileDir f =
      .ok (true, h.set fileDir { dir with contents := pre ++ post }) := by
  rw [removeFile, deref_eq_ok.mpr hdir, ok_bind, eraseSameName_first hentries hf hfirst]
  rfl

theorem addFile_eq {fileDir : Addr} {dir : FileContent} (hdir : h[fileDir]? = some dir)
    (file : Option Addr) : addFile h fileDir file =
      .ok (true, h.set fileDir { dir with contents := dir.contents ++ [file] }) := by
  rw [addFile, pushBack, deref_eq_ok.mpr hdir]
  rfl

/-! ## Heaps that were built by adding and merging -/

/-- The heaps that programs make of new objects by `AddFile` and the merges. A call whose
behaviour is undefined leads to no heap. -/
inductive Built : Heap → Prop where
  | empty : Built []
  | create {h : Heap} (hh : Built h) (file : FileContent) (hfile : ∀ p ∈ file.contents, h.Live p) :
      Built (h ++ [file])
  | addFile {h h' : Heap} (hh : Built h) (fileDir file : Addr) (hfile : file < h.length)
      (hcall : Heap.addFile h fileDir (some file) = .ok (true, h')) : Built h'
  | mergeSingle {h h' : Heap} (hh : Built h) (fuel : Nat) (file1 file2 : Addr)
      (hfile1 : file1 < h.length) (hfile2 : file2 < h.length)
      (hcall : mergeSingleFileContent fuel [] h (some file1) (some file2) = .ok h') : Built h'
  | mergeTotal {h h' : Heap} (hh : Built h) {files : List (Option Addr)} {dfs : Addr}
      (hfiles : ∀ p ∈ files, h.Live p) (hcall : mergeTotalFileContent h files = .ok (h', dfs)) :
      Built h'
  | addAsChild {h h' : Heap} (hh : Built h) {root : Addr} {newAddition : List (Option Addr)}
      (hroot : root < h.length) (hnew : ∀ p ∈ newAddition, h.Live p)
      (hcall : addAsChildDirectory root h newAddition = .ok h') : Built h'

/-- A pointer stays good when the heap grows. -/
theorem Live.append {p : Option Addr} (hp : h.Live p) (file : FileContent) :
    Live (h ++ [file]) p := by
  obtain ⟨a, ha, rfl⟩ := hp
  refine ⟨a, ?_, rfl⟩
  show a < (h ++ [file]).length
  rw [List.length_append]
  exact Nat.lt_add_right _ ha

/-- A pointer stays good when an object is overwritten. -/
theorem Live.set {p : Option Addr} (hp : h.Live p) (a : Addr) (file : FileContent) :
    Live (h.set a file) p := by
  show Into (Set.Iio (List.length (h.set a file))) p
  rw [List.length_set]
  exact hp

/-- A new object with good entries keeps all entries good. -/
theorem AllLive.append (hh : h.AllLive) (file : FileContent)
    (hfile : ∀ p ∈ file.contents, h.Live p) : AllLive (h ++ [file]) := by
  intro a ha
  have hlt : a < h.length + 1 := by simpa using ha
  rcases Nat.lt_succ_iff_lt_or_eq.mp hlt with hold | rfl
  · obtain ⟨c, hc, hentries⟩ := hh a hold
    refine ⟨c, ?_, fun p hp => Live.append (hentries p hp) file⟩
    rw [List.getElem?_append_left hold, hc]
  · exact ⟨file, by simp, fun p hp => Live.append (hfile p hp) file⟩

/-- Merging makes no object and destroys none. -/
theorem SameTypes.length_eq {h' : Heap} (hsame : SameTypes h h') : h'.length = h.length := by
  have hlt : ∀ a, a < h'.length ↔ a < h.length := fun a => by
    have hsome := congrArg Option.isSome (hsame a)
    rw [Option.isSome_map, Option.isSome_map, Bool.eq_iff_iff] at hsome
    simpa only [isSome_getElem?] using hsome
  have hle := hlt h.length
  have hge := hlt h'.length
  omega

/-- What the merges keep includes that all entries are good. -/
theorem KeptOn.allLive {h' : Heap} (hkept : KeptOn h (Set.Iio h.length) h') : h'.AllLive := by
  show h'.ClosedOn (Set.Iio h'.length)
  rw [hkept.types.length_eq]
  exact hkept.closed

/-- The loop over the arguments of `MergeTotalFileContent` or `AddAsChildDirectory`. -/
theorem foldlM_addDirectory_kept {S : Set Addr} {root : Addr} {dirs : List (Option Addr)}
    (hS : h.ClosedOn S) (hroot : root ∈ S) (hdirs : ∀ p ∈ dirs, Into S p) :
    Outcome (KeptOn h S) NoBadPointer (dirs.foldlM (addDirectory root) h) := by
  refine Outcome.foldlM (fun h' dir hdir hkept => ?_) ⟨hS, fun _ => rfl⟩
  refine (addDirectory_kept hkept.closed hroot (hdirs dir hdir)).mono (fun h'' hkept' => ?_)
    fun _ he => he
  exact ⟨hkept'.closed, hkept.types.trans hkept'.types⟩

/-- **Every entry of a heap that was built so is an object.** Induction on the calls. -/
theorem Built.allLive (hbuilt : Built h) : h.AllLive := by
  induction hbuilt with
  | empty => exact fun a ha => absurd ha (Nat.not_lt_zero a)
  | create _ file hfile ih => exact ih.append file hfile
  -- one case for each call that builds
  | @addFile h h' _ fileDir file hfile hcall ih =>
    rw [Heap.addFile, bind_eq_ok] at hcall
    obtain ⟨h₁, hpush, hreturn⟩ := hcall
    cases hreturn
    have hpushed : Pushed h (some fileDir) (some file) h' :=
      (pushBack_outcome (deref_outcome h _) fun _ _ _ => by decide).of_ok hpush
    exact (hpushed.keptOn ih ⟨file, hfile, rfl⟩).allLive
  | @mergeSingle h h' _ fuel file1 file2 hfile1 hfile2 hcall ih =>
    exact ((mergeSingleFileContent_kept fuel [] h _ _ ih ⟨file1, hfile1, rfl⟩
      ⟨file2, hfile2, rfl⟩).of_ok hcall).allLive
  | @mergeTotal h h' _ files dfs hfiles hcall ih =>
    rw [mergeTotalFileContent, bind_eq_ok] at hcall
    obtain ⟨h₁, hloop, hreturn⟩ := hcall
    cases hreturn
    have hroot := ih.append { FileContent.new with
      name := rootName, type := FileType.directory } fun p hp => (nomatch hp)
    refine ((foldlM_addDirectory_kept hroot ?_ fun p hp => (hfiles p hp).append _).of_ok
      hloop).allLive
    simp
  | @addAsChild h h' _ root newAddition hroot hnew hcall ih =>
    exact ((foldlM_addDirectory_kept ih hroot hnew).of_ok hcall).allLive

/-! ## What `RemoveFile` removes -/

/-- Adding entries changes no name. -/
theorem nameOf_set {fileDir : Addr} {dir : FileContent} (hdir : h[fileDir]? = some dir)
    (contents : List (Option Addr)) (p : Option Addr) :
    Heap.nameOf (h.set fileDir { dir with contents }) p = h.nameOf p := by
  cases p with
  | none => rfl
  | some a =>
    show (h.set fileDir { dir with contents })[a]?.map _ = h[a]?.map _
    -- the directory itself, or another object
    by_cases heq : fileDir = a
    · subst heq
      rw [List.getElem?_set_self (List.getElem?_eq_some_iff.mp hdir).1, hdir]
      rfl
    · rw [List.getElem?_set_ne heq]

/-- A vector with an entry moved from the front to the back. -/
theorem append_singleton_eq_cons {α : Type} {x f : α} {post : List α} :
    post ++ [f] = x :: post ↔ ∀ y ∈ x :: post, y = f := by
  induction post generalizing x with
  | nil => simp [eq_comm]
  | cons y post ih =>
    rw [List.cons_append, List.cons.injEq, ih, List.forall_mem_cons (a := x)]
    constructor
    · rintro ⟨rfl, hpost⟩
      exact ⟨hpost y List.mem_cons_self, hpost⟩
    · rintro ⟨rfl, hpost⟩
      exact ⟨hpost y List.mem_cons_self, hpost⟩

/-- An entry behind the first one does not matter. -/
theorem FirstOfName.append {f x : Option Addr} {cs pre post : List (Option Addr)}
    (hfirst : h.FirstOfName f cs pre x post) (g : Option Addr) :
    h.FirstOfName f (cs ++ [g]) pre x (post ++ [g]) :=
  ⟨by rw [hfirst.split, List.append_assoc, List.cons_append], hfirst.name, hfirst.before⟩

/-- `RemoveFile` after an `AddFile` to the same directory. -/
theorem removeFile_addFile {fileDir : Addr} {dir : FileContent} {f x : Option Addr}
    {pre post : List (Option Addr)} (hdir : h[fileDir]? = some dir)
    (hentries : ∀ p ∈ dir.contents, h.Live p) (hf : h.Live f)
    (hfirst : h.FirstOfName f (dir.contents ++ [f]) pre x post) :
    ∃ h₁, addFile h fileDir f = .ok (true, h₁) ∧
      removeFile h₁ fileDir f =
        .ok (true, h.set fileDir { dir with contents := pre ++ post }) := by
  refine ⟨_, addFile_eq hdir f, ?_⟩
  have hlt : fileDir < h.length := (List.getElem?_eq_some_iff.mp hdir).1
  have hfirst' : FirstOfName (h.set fileDir { dir with contents := dir.contents ++ [f] }) f
      (dir.contents ++ [f]) pre x post := by
    refine ⟨hfirst.split, ?_, fun y hy => ?_⟩
    · rw [nameOf_set hdir, nameOf_set hdir, hfirst.name]
    · rw [nameOf_set hdir, nameOf_set hdir]
      exact hfirst.before y hy
  rw [removeFile_first (List.getElem?_set_self hlt) (fun p hp => ?_) (hf.set _ _) hfirst',
    List.set_set]
  -- an old entry, or the one that was added
  rcases List.mem_append.mp hp with hold | hnew
  · exact Live.set (hentries p hold) _ _
  · obtain rfl : p = f := List.mem_singleton.mp hnew
    exact hf.set _ _

/-- **`RemoveFile` removes the first entry of the name it is given**, in every directory of a heap
that was built by `AddFile` and the merges. It undoes an `AddFile` of the entry if and only if
the directory had no entry of that name, or nothing but the entry itself from the first of that
name on. -/
theorem removeFile_removes (hbuilt : h.Built) {fileDir : Addr} {dir : FileContent}
    (hdir : h[fileDir]? = some dir) :
    (∀ f ∈ dir.contents, ∃ pre x post, h.FirstOfName f dir.contents pre x post ∧
      removeFile h fileDir f =
        .ok (true, h.set fileDir { dir with contents := pre ++ post })) ∧
    ∀ file < h.length, ∃ h₁ contents, addFile h fileDir (some file) = .ok (true, h₁) ∧
      removeFile h₁ fileDir (some file) =
        .ok (true, h.set fileDir { dir with contents }) ∧
      (contents = dir.contents ↔ ∀ pre x post,
        h.FirstOfName (some file) dir.contents pre x post → ∀ y ∈ x :: post, y = some file) := by
  have hentries := hbuilt.allLive.entry hdir
  refine ⟨fun f hf => ?_, fun file hfile => ?_⟩
  · obtain ⟨pre, x, post, hfirst⟩ := exists_firstOfName hf rfl
    exact ⟨pre, x, post, hfirst, removeFile_first hdir hentries (hentries f hf) hfirst⟩
  · have hlive : h.Live (some file) := ⟨file, hfile, rfl⟩
    -- the directory has an entry of the name already, or not
    by_cases hfound : ∃ g ∈ dir.contents, h.nameOf g = h.nameOf (some file)
    · obtain ⟨g, hg, hname⟩ := hfound
      obtain ⟨pre, x, post, hfirst⟩ := exists_firstOfName hg hname
      obtain ⟨h₁, hadd, hremove⟩ :=
        removeFile_addFile hdir hentries hlive (hfirst.append (some file))
      refine ⟨h₁, _, hadd, hremove, ?_⟩
      rw [hfirst.split, List.append_cancel_left_eq, append_singleton_eq_cons, ← hfirst.split]
      constructor
      · intro hall pre' x' post' hfirst'
        obtain ⟨-, rfl, rfl⟩ := hfirst.unique hfirst'
        exact hall
      · intro hall
        exact hall pre x post hfirst
    · -- the new entry is the first of its name
      have hfirst : h.FirstOfName (some file) (dir.contents ++ [some file]) dir.contents
          (some file) [] := ⟨rfl, rfl, fun y hy hname => hfound ⟨y, hy, hname⟩⟩
      obtain ⟨h₁, hadd, hremove⟩ := removeFile_addFile hdir hentries hlive hfirst
      refine ⟨h₁, _, hadd, hremove, iff_of_true (List.append_nil _) ?_⟩
      intro pre x post hother
      exact absurd ⟨x, by simp [hother.split], hother.name⟩ hfound

/-! ### Two Files of one name -/

/-- One computer. -/
def nodeA : NetworkNode := { ipv4 := ⟨10, 0, 0, 1⟩ }

/-- Another one. -/
def nodeB : NetworkNode := { ipv4 := ⟨10, 0, 0, 2⟩ }

/-- The File that both have. -/
def notes (networkNode : NetworkNode) : FileContent :=
  { type := FileType.file, networkNode, name := ascii "notes.txt" }

/-- The Directory that it is in. -/
def docs (contents : List (Option Addr)) : FileContent :=
  { type := FileType.directory, name := ascii "docs", contents }

/-- The directory at 0 after a merge with the one at 3: two Files `notes.txt` of two nodes. -/
def mergedDocs : Heap :=
  [docs [some 1, some 2], notes nodeA, notes nodeB, docs [some 2]]

/-- The heap is built by `AddFile` and a merge. -/
theorem mergedDocs_built : Built mergedDocs := by
  have hdocs : Built [docs []] := .create .empty (docs []) fun p hp => (nomatch hp)
  have hnotesA : Built [docs [], notes nodeA] := hdocs.create (notes nodeA) fun p hp => (nomatch hp)
  have hnotesB : Built [docs [], notes nodeA, notes nodeB] :=
    hnotesA.create (notes nodeB) fun p hp => (nomatch hp)
  have hother : Built [docs [], notes nodeA, notes nodeB, docs [some 2]] :=
    hnotesB.create (docs [some 2]) fun p hp => ⟨2, by decide, List.mem_singleton.mp hp⟩
  have hadded : Built [docs [some 1], notes nodeA, notes nodeB, docs [some 2]] :=
    hother.addFile 0 1 (by decide) (by decide +kernel)
  exact hadded.mergeSingle 1 0 3 (by decide) (by decide) (by decide +kernel)

/-- The theorem at the second of the two Files. -/
theorem removeFile_removes_mergedDocs :
    ∃ pre x post, mergedDocs.FirstOfName (some 2) [some 1, some 2] pre x post ∧
      removeFile mergedDocs 0 (some 2) =
        .ok (true, mergedDocs.set 0 { docs [some 1, some 2] with contents := pre ++ post }) :=
  (removeFile_removes mergedDocs_built
    (show mergedDocs[0]? = some (docs [some 1, some 2]) from rfl)).1 (some 2) (by decide)

/-- **Given the second of two Files of one name, `RemoveFile` removes the first.** -/
theorem removeFile_not_exact : ¬ ∀ h : Heap, h.Built → ∀ (fileDir : Addr) (dir : FileContent),
    h[fileDir]? = some dir →
    (∀ f ∈ dir.contents, ∃ pre x post, dir.contents = pre ++ x :: post ∧
      deref h x = deref h f ∧ removeFile h fileDir f =
        .ok (true, h.set fileDir { dir with contents := pre ++ post })) ∧
    ∀ file < h.length, ∃ h₁, addFile h fileDir (some file) = .ok (true, h₁) ∧
      removeFile h₁ fileDir (some file) = .ok (true, h) := by
  intro hexact
  obtain ⟨pre, x, post, hsplit, hsame, hremove⟩ :=
    (hexact mergedDocs mergedDocs_built 0 (docs [some 1, some 2]) rfl).1 (some 2) (by decide)
  have hleft : pre ++ post = [some 2] := by
    have hrun : removeFile mergedDocs 0 (some 2) =
      .ok (true, mergedDocs.set 0 (docs [some 2])) := by decide +kernel
    rw [hrun] at hremove
    simpa [mergedDocs, docs, eq_comm] using hremove
  have hx : x = some 1 := by
    cases pre with
    | nil =>
      have hcons : [some 1, some 2] = x :: post := hsplit
      simpa [eq_comm] using (List.cons.inj hcons).1
    | cons y pre =>
      have hcons : [some 1, some 2] = y :: (pre ++ x :: post) := hsplit
      have hy : some 2 = some 1 := (List.cons.inj hleft).1.symm.trans (List.cons.inj hcons).1.symm
      exact absurd hy (by decide)
  subst hx
  exact absurd hsame (by decide +kernel)

end Heap

end Guthi
