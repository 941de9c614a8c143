import Guthi.Filesystem.Cache

/-!
# Guthi — what the cache returns

The state of the cache after any sequence of adds, and with it the answer of every lookup, in
terms of the adds alone.

* `run_eq` — the map holds the adds in name order, the disk the last write to each file;
* `getCachedFile_run` — the file that is returned: that of the first add, in name order and from
  the name asked for, with another address than the one asked for;
* `getCachedFile_isLast_iff` — when this is the file of the last add for the key.
-/

namespace Guthi

namespace CacheAdd

variable {F : Type*} [DecidableEq F] (resolve : Bytes → F) (disk : Disk F) (dir : Bytes)

/-! ## The state after the adds -/

/-- An add on the disk is the last write to its file. -/
theorem lastWrite_concat (adds : List CacheAdd) (a : CacheAdd) (f : F) :
    lastWrite resolve (adds ++ [a]) f =
      if a.memoryShort ∧ resolve (cStr a.name) = f then some a else lastWrite resolve adds f := by
  rw [lastWrite, List.filter_append]
  split_ifs with h
  · rw [List.filter_cons_of_pos (by simpa using h), List.filter_nil, List.getLast?_concat]
  · rw [List.filter_cons_of_neg (by simpa using h), List.filter_nil, List.append_nil, lastWrite]

theorem diskAfter_concat (adds : List CacheAdd) (a : CacheAdd) :
    diskAfter resolve disk (adds ++ [a]) =
      if a.memoryShort then (diskAfter resolve disk adds).write resolve a.name
        (copyInto a.fileSize (a.bytes.map some))
      else diskAfter resolve disk adds := by
  funext f
  rw [diskAfter, lastWrite_concat]
  by_cases hshort : a.memoryShort = true
  · -- only the file that the name resolves to changes
    rw [if_pos hshort, Disk.write, Function.update_apply]
    by_cases hf : f = resolve (cStr a.name)
    · rw [if_pos hf, if_pos ⟨hshort, hf.symm⟩]
    · rw [if_neg hf, if_neg fun h => hf h.2.symm, diskAfter]
  · rw [if_neg hshort, if_neg fun h => hshort h.1, diskAfter]

/-- The cache is the multimap of the entries, in the order of the adds. -/
theorem run_eq (adds : List CacheAdd) :
    run resolve (FileCache.new dir) disk adds =
      (⟨dir, Multimap.ofList (adds.map fun a => (a.name, a.entry))⟩,
        diskAfter resolve disk adds) := by
  induction adds using List.reverseRecOn with
  | nil => rfl
  | append_singleton adds a ih =>
    rw [run] at ih ⊢
    rw [List.foldl_append, ih, List.map_append, List.map_singleton, Multimap.ofList_concat,
      diskAfter_concat]
    cases hshort : a.memoryShort <;>
      simp [FileCache.addFileToCache, hshort, entry, file]

/-! ## The lookups -/

/-- The search, said of the adds. -/
theorem findEntry_run (adds : List CacheAdd) (name : Bytes) (ipAddr : Ipv4) :
    (run resolve (FileCache.new dir) disk adds).1.findEntry name ipAddr =
      (otherFrom adds name ipAddr).map fun a => (a.name, a.entry) := by
  rw [run_eq]
  show ((Multimap.ofList _).lowerBound name).find? _ = _
  rw [Multimap.find?_lowerBound_ofList_map, otherFrom]
  simp only [decide_eq_true_eq]
  rfl

/-- The name has no entry if it was never added. -/
theorem count_run_eq_zero (adds : List CacheAdd) (name : Bytes) :
    (run resolve (FileCache.new dir) disk adds).1.offlineCache.count name = 0 ↔
      ∀ a ∈ adds, a.name ≠ name := by
  rw [run_eq]
  show (Multimap.ofList _).count name = 0 ↔ _
  rw [Multimap.count_ofList_eq_zero]
  simp

/-- The bytes a lookup returns when it comes upon the given add. -/
def served (adds : List CacheAdd) (name : Bytes) (e : CacheAdd) : Option Buffer :=
  if e.memoryShort then
    (diskAfter resolve disk adds (resolve (cStr name))).map (copyInto e.fileSize)
  else some (copyInto e.fileSize (e.bytes.map some))

/-- `IsFileCached`, said of the adds. -/
theorem isFileCached_run (adds : List CacheAdd) (name : Bytes) (ipAddr : Ipv4) :
    (run resolve (FileCache.new dir) disk adds).1.isFileCached name ipAddr = true ↔
      (∃ a ∈ adds, a.name = name) ∧ ∃ e, otherFrom adds name ipAddr = some e := by
  rw [FileCache.isFileCached, findEntry_run]
  split_ifs with hcount
  · rw [count_run_eq_zero] at hcount
    simp only [false_iff, not_and]
    rintro ⟨a, ha, hname⟩
    exact absurd hname (hcount a ha)
  · rw [count_run_eq_zero] at hcount
    push Not at hcount
    rw [Option.isSome_map, Option.isSome_iff_exists]
    exact ⟨fun h => ⟨hcount, h⟩, fun h => h.2⟩

/-- If the search finds nothing, the file is empty. -/
theorem getCachedFile_run_of_none {adds : List CacheAdd} {name : Bytes} (ipAddr : Ipv4)
    (hnone : (∀ a ∈ adds, a.name ≠ name) ∨ otherFrom adds name ipAddr = none) :
    (run resolve (FileCache.new dir) disk adds).1.getCachedFile resolve
      (run resolve (FileCache.new dir) disk adds).2 name ipAddr = {} := by
  have hentry :
      (run resolve (FileCache.new dir) disk adds).1.getCachedEntry name ipAddr = none := by
    rw [FileCache.getCachedEntry, findEntry_run]
    rcases hnone with hnone | hnone
    · rw [if_pos ((count_run_eq_zero resolve disk dir adds name).mpr hnone)]
    · rw [hnone, Option.map_none, Option.map_none, ite_self]
  rw [FileCache.getCachedFile, hentry]

/-- The file returned is that of the first add from the name on, in name order, with another
address than the one asked for. -/
theorem getCachedFile_run {adds : List CacheAdd} {name : Bytes} {ipAddr : Ipv4} {e : CacheAdd}
    (hname : ∃ a ∈ adds, a.name = name) (he : otherFrom adds name ipAddr = some e) :
    (run resolve (FileCache.new dir) disk adds).1.getCachedFile resolve
      (run resolve (FileCache.new dir) disk adds).2 name ipAddr =
      { fileName := name, fileSize := e.fileSize, data := served resolve disk adds name e } := by
  have hcount : (run resolve (FileCache.new dir) disk adds).1.offlineCache.count name ≠ 0 := by
    obtain ⟨a, ha, han⟩ := hname
    exact fun hzero => (count_run_eq_zero resolve disk dir adds name).mp hzero a ha han
  have hentry : (run resolve (FileCache.new dir) disk adds).1.getCachedEntry name ipAddr =
      some e.entry := by
    rw [FileCache.getCachedEntry, findEntry_run, if_neg hcount, he]
    rfl
  rw [FileCache.getCachedFile, hentry]
  cases hshort : e.memoryShort <;>
    simp [entry, served, hshort, Disk.read, run_eq]

/-! ## The cache as a last-write-wins map -/

/-- A copy of so many bytes equals them if the source begins with them. -/
theorem copyInto_eq_iff {bytes : Bytes} {source : Buffer} :
    copyInto bytes.length source = bytes.map some ↔ bytes.map some <+: source := by
  induction bytes generalizing source with
  | nil => simp [copyInto]
  | cons b bytes ih =>
    cases source with
    | nil => simp [copyInto]
    | cons c source =>
      have ih' := @ih source
      rw [copyInto] at ih' ⊢
      rw [List.length_cons, List.takeD_succ, List.map_cons, List.cons_prefix_cons, List.cons.injEq,
        List.head?_cons, Option.getD_some, List.tail_cons, ih', eq_comm]

/-- A copy of all bytes is all of them. -/
theorem copyInto_self (bytes : Bytes) :
    copyInto bytes.length (bytes.map some) = bytes.map some :=
  copyInto_eq_iff.mpr (List.prefix_refl _)

/-- An add of the name with another address is there to be found, and is found under the name
itself. -/
theorem otherFrom_of_last_none {adds : List CacheAdd} {name : Bytes} {ipAddr : Ipv4}
    (hname : ∃ a ∈ adds, a.name = name) (hlast : last adds name ipAddr = none) :
    ∃ e, otherFrom adds name ipAddr = some e ∧ e ∈ adds ∧ e.name = name := by
  obtain ⟨a, ha, rfl⟩ := hname
  -- `a` has another address, so the search can find it
  have hother : a ∈ adds.filter fun b => a.name ≤ b.name ∧ ipAddr ≠ b.ipAddr := by
    refine List.mem_filter.mpr ⟨ha, ?_⟩
    rw [last, List.getLast?_eq_none_iff, List.filter_eq_nil_iff] at hlast
    have := hlast a ha
    simp only [true_and, decide_eq_true_eq] at this
    simpa using Ne.symm this
  -- nothing from the name on has a smaller name
  cases he : otherFrom adds a.name ipAddr with
  | none =>
    rw [otherFrom, earliestLeast_eq_none] at he
    rw [he] at hother
    exact absurd hother List.not_mem_nil
  | some e =>
    unfold otherFrom at he
    have hmem := List.mem_filter.mp (earliestLeast_mem he)
    have hle : e.name ≤ a.name := earliestLeast_le he hother
    have hge : a.name ≤ e.name := (of_decide_eq_true hmem.2).1
    exact ⟨e, rfl, hmem.1, le_antisymm hle hge⟩

/-- An entry that was added has its bytes, in memory or on the disk. -/
theorem served_ne_none {adds : List CacheAdd} {e : CacheAdd} (he : e ∈ adds) :
    served resolve disk adds e.name e ≠ none := by
  unfold served
  split_ifs with hshort
  · have hwritten : lastWrite resolve adds (resolve (cStr e.name)) ≠ none := by
      rw [lastWrite, Ne, List.getLast?_eq_none_iff, List.filter_eq_nil_iff]
      exact fun h => h e he (by simp [hshort])
    unfold diskAfter
    cases hlast : lastWrite resolve adds (resolve (cStr e.name)) with
    | none => exact absurd hlast hwritten
    | some a => simp
  · simp

/-- What a lookup should return: the size and the bytes of the last add for the key, or no data
when there was none. -/
def IsLast (adds : List CacheAdd) (name : Bytes) (ipAddr : Ipv4) (r : RawFile) : Prop :=
  match last adds name ipAddr with
  | none => r.data = none
  | some l => r.fileSize = l.bytes.length ∧ r.data = some (l.bytes.map some)

/-- The cache answers a lookup like a last-write-wins map exactly when the name was never added,
or when the key was added and the entry found for another address happens to lead to the same
bytes: in memory itself, on disk through the file of the name asked for. -/
theorem getCachedFile_isLast_iff {adds : List CacheAdd}
    (hsize : ∀ a ∈ adds, a.fileSize = a.bytes.length) (name : Bytes) (ipAddr : Ipv4) :
    IsLast adds name ipAddr
      ((run resolve (FileCache.new dir) disk adds).1.getCachedFile resolve
        (run resolve (FileCache.new dir) disk adds).2 name ipAddr) ↔
      (∀ a ∈ adds, a.name ≠ name) ∨
      ∃ l e, last adds name ipAddr = some l ∧ otherFrom adds name ipAddr = some e ∧
        e.bytes.length = l.bytes.length ∧
        if e.memoryShort then ∃ content, diskAfter resolve disk adds (resolve (cStr name)) =
          some content ∧ l.bytes.map some <+: content
        else e.bytes = l.bytes := by
  by_cases hname : ∃ a ∈ adds, a.name = name
  · rw [or_iff_right (by push Not; exact hname)]
    cases hlast : last adds name ipAddr with
    | none =>
      -- the entry of some other address is returned for a key that was never added
      obtain ⟨e, he, hmem, hen⟩ := otherFrom_of_last_none hname hlast
      have hserved := served_ne_none resolve disk hmem
      rw [hen] at hserved
      -- both are there, and what counts are their bytes
      rw [getCachedFile_run resolve disk dir hname he, IsLast, hlast]
      simp [hserved]
    | some l =>
      cases he : otherFrom adds name ipAddr with
      | none =>
        -- the key was added, but the search passes over it and finds nothing
        rw [getCachedFile_run_of_none resolve disk dir ipAddr (Or.inr he), IsLast, hlast]
        simp
      | some e =>
        have hmem : e ∈ adds := List.mem_of_mem_filter (earliestLeast_mem he)
        rw [getCachedFile_run resolve disk dir hname he, IsLast, hlast]
        simp only [Option.some.injEq, exists_and_left, exists_eq_left', hsize e hmem]
        refine and_congr_right fun hlen => ?_
        rw [served, hsize e hmem]
        split_ifs with hshort
        · rw [hlen]
          simp only [Option.map_eq_some_iff, copyInto_eq_iff]
        · rw [copyInto_self, Option.some.injEq]
          exact List.map_inj_right fun _ _ => Option.some.inj
  · push Not at hname
    rw [getCachedFile_run_of_none resolve disk dir ipAddr (Or.inl hname)]
    have hlast : last adds name ipAddr = none := by
      rw [last, List.getLast?_eq_none_iff, List.filter_eq_nil_iff]
      intro a ha
      simp [hname a ha]
    simp only [IsLast, hlast, true_iff]
    exact Or.inl hname

/-- One file of node 10.0.0.1, kept in memory. -/
def exampleAdd : CacheAdd where
  name := ascii "a"
  ipAddr := ⟨10, 0, 0, 1⟩
  bytes := [1]
  fileSize := 1
  memoryShort := false

/-- The same file from another node. -/
def exampleAddOther : CacheAdd := { exampleAdd with ipAddr := ⟨10, 0, 0, 2⟩ }

/-- One name from two nodes. -/
theorem getCachedFile_isLast_iff_example :
    IsLast [exampleAdd, exampleAddOther] (ascii "a") ⟨10, 0, 0, 1⟩
      ((run id (FileCache.new []) (fun _ : Bytes => none)
        [exampleAdd, exampleAddOther]).1.getCachedFile id
        (run id (FileCache.new []) (fun _ => none) [exampleAdd, exampleAddOther]).2
        (ascii "a") ⟨10, 0, 0, 1⟩) ↔
      (∀ a ∈ [exampleAdd, exampleAddOther], a.name ≠ ascii "a") ∨
      ∃ l e, last [exampleAdd, exampleAddOther] (ascii "a") ⟨10, 0, 0, 1⟩ = some l ∧
        otherFrom [exampleAdd, exampleAddOther] (ascii "a") ⟨10, 0, 0, 1⟩ = some e ∧
        e.bytes.length = l.bytes.length ∧
        if e.memoryShort then ∃ content, diskAfter id (fun _ => none)
          [exampleAdd, exampleAddOther] (id (cStr (ascii "a"))) = some content ∧
          l.bytes.map some <+: content
        else e.bytes = l.bytes :=
  getCachedFile_isLast_iff id (fun _ => none) [] (by decide) (ascii "a") ⟨10, 0, 0, 1⟩

/-- A file that was added, and is not found. -/
theorem getCachedFile_misses_only_file :
    exampleAdd.fileSize = exampleAdd.bytes.length ∧
    ¬ IsLast [exampleAdd] exampleAdd.name exampleAdd.ipAddr
      ((run id (FileCache.new []) (fun _ : Bytes => none) [exampleAdd]).1.getCachedFile id
        (run id (FileCache.new []) (fun _ => none) [exampleAdd]).2
        exampleAdd.name exampleAdd.ipAddr) := by
  refine ⟨rfl, fun h => ?_⟩
  rw [getCachedFile_run_of_none id _ [] _ (Or.inr (by decide))] at h
  have hlast : last [exampleAdd] exampleAdd.name exampleAdd.ipAddr = some exampleAdd := by decide
  rw [IsLast, hlast] at h
  exact absurd h.2 (by decide)

end CacheAdd

end Guthi
