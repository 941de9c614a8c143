import Guthi.Core.Publish
import Guthi.Lib.Run

/-!
# Guthi — the published tree beside the cache

`AddToFileCache` of `core/c_api.cpp` updates two stores: the cache, through
`FileCache::AddFileToCache`, and the children of `local_fs`. The first can give up when it cannot
create a file, and returns nothing that would say so.

* `addCall_consistent_iff` — what one call does to the names in both;
* `addCalls_consistent_iff` — they stay the same in a run exactly if no call gives up.
-/

namespace Guthi

/-- The names of the File children of a directory. -/
def Heap.fileNames (h : Heap) (dir : Addr) : List Bytes :=
  match h[dir]? with
  | none => []
  | some c => c.children.filterMap fun a =>
    (h[a]?.filter fun f => f.type = FileType.file).map FileContent.name

namespace CApi

variable {F : Type*} [DecidableEq F] (resolve : Bytes → F)

def GFS.publishedNames (gfs : GFS F) : List Bytes := gfs.heap.fileNames gfs.localFs

def GFS.cachedNames (gfs : GFS F) : List Bytes :=
  gfs.localCache.offlineCache.entries.map fun e => e.2.fileName

/-- The names are the same ones, as often in the one store as in the other. -/
def GFS.Consistent (gfs : GFS F) : Prop := gfs.publishedNames.Perm gfs.cachedNames

def addCall (gfs : GFS F) (c : AddCall) : GFS F :=
  addToFileCache resolve gfs c.add.fileName c.add.ipAddr c.add.data c.add.memoryShort c.created

/-- The call takes the on-disk branch, and the file cannot be created. -/
def AddCall.Fails (c : AddCall) : Prop := c.add.memoryShort = true ∧ c.created = false

instance (c : AddCall) : Decidable c.Fails := inferInstanceAs (Decidable (_ ∧ _))

/-- A call that fails leaves both stores as they were. -/
def KeepsOnFailure (gfs : GFS F) (c : AddCall) : Prop :=
  c.Fails → (addCall resolve gfs c).publishedNames = gfs.publishedNames ∧
    (addCall resolve gfs c).localCache = gfs.localCache

/-! ## One call -/

theorem cachedNames_of_fails (gfs : GFS F) {c : AddCall} (hc : c.Fails) :
    (addCall resolve gfs c).cachedNames = gfs.cachedNames := by
  obtain ⟨hshort, hcreated⟩ := hc
  unfold GFS.cachedNames addCall addToFileCache FileCache.addFileToCache
  rw [hshort, hcreated]
  rfl

theorem cachedNames_of_not_fails (gfs : GFS F) {c : AddCall} (hc : ¬ c.Fails) :
    (addCall resolve gfs c).cachedNames.Perm (c.fileName :: gfs.cachedNames) := by
  have hinsert : ∀ e : FileCacheEntry, e.fileName = c.fileName →
      (((gfs.localCache.offlineCache.insert c.fileName e).entries).map
        fun e => e.2.fileName).Perm (c.fileName :: gfs.cachedNames) := by
    intro e he
    have hperm := (Multimap.insertEntry_perm (c.fileName, e)
      gfs.localCache.offlineCache.entries).map fun e => e.2.fileName
    rw [List.map_cons, he] at hperm
    exact hperm
  unfold GFS.cachedNames addCall addToFileCache FileCache.addFileToCache
  -- in memory, or in a file that was created
  cases hshort : c.add.memoryShort with
  | false => exact hinsert _ rfl
  | true =>
    cases hcreated : c.created with
    | false => exact absurd ⟨hshort, hcreated⟩ hc
    | true => exact hinsert _ rfl

theorem fileNames_localHeap (names : List Bytes) : (localHeap names).fileNames 1 = names := by
  -- the first files, on their number
  have hfirst : ∀ k, k ≤ names.length →
      (List.range' 2 k).filterMap (fun a => ((localHeap names)[a]?.filter
        fun f => f.type = FileType.file).map FileContent.name) = names.take k := by
    intro k
    induction k with
    | zero => exact fun _ => by simp
    | succ k ih =>
      intro hk
      have hfile : (localHeap names)[2 + k]? = some (fileFor names[k]) := by
        rw [Nat.add_comm]
        exact localHeap_file hk
      rw [List.range'_concat, List.filterMap_append, ih (by omega), List.take_add_one,
        List.getElem?_eq_getElem hk, Nat.one_mul, List.filterMap_cons, hfile]
      rfl
  have hdir : (localHeap names)[1]? = some { FileContent.new with
      contents := (List.range' 2 names.length).map some } := rfl
  unfold Heap.fileNames
  rw [hdir]
  simpa [FileContent.children, List.filterMap_map] using hfirst names.length (Nat.le_refl _)

/-- `local_fs` and its children, after files of these names were added. -/
def GFS.Built (gfs : GFS F) (names : List Bytes) : Prop :=
  gfs.heap = localHeap names ∧ gfs.localFs = 1

omit [DecidableEq F] in
theorem built_new (disk : Disk F) : (GFS.new disk).Built [] := ⟨rfl, rfl⟩

omit [DecidableEq F] in
theorem GFS.Built.publishedNames {gfs : GFS F} {names : List Bytes} (h : gfs.Built names) :
    gfs.publishedNames = names := by
  rw [GFS.publishedNames, h.1, h.2]
  exact fileNames_localHeap names

/-- Whatever becomes of the file itself, the call makes an entry for it. -/
theorem GFS.Built.addCall {gfs : GFS F} {names : List Bytes} (h : gfs.Built names) (c : AddCall) :
    (addCall resolve gfs c).Built (names ++ [c.fileName]) := by
  refine ⟨?_, h.2⟩
  show (gfs.heap ++ [fileFor c.fileName]).modify gfs.localFs (fun node => { node with
    contents := node.contents ++ [some gfs.heap.length] }) = _
  rw [h.1, h.2]
  exact localHeap_concat names c.fileName

theorem addCall_consistent_iff {gfs : GFS F} {names : List Bytes} (hbuilt : gfs.Built names)
    (hgfs : gfs.Consistent) (c : AddCall) : (addCall resolve gfs c).Consistent ↔ ¬ c.Fails := by
  unfold GFS.Consistent at hgfs ⊢
  rw [hbuilt.publishedNames] at hgfs
  rw [(hbuilt.addCall resolve c).publishedNames]
  constructor
  · -- the tree has one name more than before, and the cache has not
    intro hperm hfails
    rw [cachedNames_of_fails resolve gfs hfails] at hperm
    have hlen := (hperm.trans hgfs.symm).length_eq
    rw [List.length_append, List.length_singleton] at hlen
    omega
  · intro hc
    have hnames : (names ++ [c.fileName]).Perm (c.fileName :: gfs.cachedNames) :=
      (List.perm_append_singleton _ _).trans (hgfs.cons _)
    exact hnames.trans (cachedNames_of_not_fails resolve gfs hc).symm

/-! ## A sequence of calls -/

/-- **Both stores hold the same names** after every call, and none changes in a call that fails,
exactly if no call fails. -/
theorem addCalls_consistent_iff (disk : Disk F) (calls : List AddCall) :
    (Throughout (fun gfs c => some (addCall resolve gfs c)) GFS.Consistent (GFS.new disk) calls ∧
      EachTry (fun gfs c => some (addCall resolve gfs c)) (KeepsOnFailure resolve) (GFS.new disk)
        calls) ↔ ∀ c ∈ calls, ¬ c.Fails := by
  have hrun : Throughout (fun gfs c => some (addCall resolve gfs c)) GFS.Consistent (GFS.new disk)
      calls ↔ EachStep (fun gfs c => some (addCall resolve gfs c)) (fun _ c => ¬ c.Fails)
        (GFS.new disk) calls := throughout_iff_eachStep
    (J := fun gfs : GFS F => ∃ names, gfs.Built names)
    (fun gfs c gfs' ⟨names, hnames⟩ h => ⟨_, Option.some.inj h ▸ hnames.addCall resolve c⟩)
    (fun gfs c gfs' ⟨names, hnames⟩ hgfs h =>
      Option.some.inj h ▸ addCall_consistent_iff resolve hnames hgfs c)
    ⟨[], built_new disk⟩ (List.Perm.refl []) calls
  -- every call goes through
  rw [hrun, eachStep_total_iff]
  refine ⟨fun h => h.1, fun hcalls => ⟨hcalls, ?_⟩⟩
  exact eachTry_of_forall (fun _ c hc hfails => absurd hfails (hcalls c hc)) _

/-- A full disk: the file is published, and not cached. -/
theorem addCalls_not_consistent :
    ¬ (Throughout (fun gfs c => some (addCall id gfs c)) GFS.Consistent
        (GFS.new fun _ : Bytes => none) [⟨⟨ascii "a", ⟨10, 0, 0, 1⟩, [1], true⟩, false⟩] ∧
      EachTry (fun gfs c => some (addCall id gfs c)) (KeepsOnFailure id)
        (GFS.new fun _ : Bytes => none) [⟨⟨ascii "a", ⟨10, 0, 0, 1⟩, [1], true⟩, false⟩]) := by
  rintro ⟨hthroughout, _⟩
  have hlast := (hthroughout.2 _ rfl).length_eq
  exact absurd hlast (by decide)

end CApi

end Guthi
