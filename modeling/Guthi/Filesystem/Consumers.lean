import Guthi.Filesystem.DecodedGraph

/-!
# Guthi — using what was accepted

`SetFilesystem` and `read_shm` print what they have decoded, and `MergeDiff` merges it.
`DeserializeToFileContent` checks neither the ids nor the types it reads, so what the two can
rely on is said by the input.

* `accepted_acyclic_iff` — when the recursions end;
* `accepted_wellFormed_iff` — when no null pointer is met and every type is known.
-/

namespace Guthi

open Heap

variable {data : Bytes} {heap heap' : Heap} {content : Addr} {type : FileType}

/-- **Accepted inputs and cycles.** The decoded graph is acyclic exactly when no child gives the id
of a node that it stands inside of; then the recursion of `FileFormatter` ends. If no child gives
an id met before, so does the one of `MergeSingleFileContent`, into any graph that shares no
object with the decoded one. -/
theorem accepted_acyclic_iff (hfresh : heap[content]? = some (FileContent.fresh type))
    (hacc : deserializeToFileContent data heap content = some (true, heap')) :
    ∃ hd ss ids, ParsesTree data hd ss ids ∧
      (PointerGraph.Acyclic FileContent.children heap' content ↔ ss.refersBack [] = false) ∧
      (ss.refersBack [] = false → ∃ bound, ∀ fuel, bound ≤ fuel → ∀ depth,
        heap'.fileFormatter fuel (some content) depth ≠ .error .recursionTooDeep) ∧
      (ss.hasRef = false → ∀ file1, (∀ a, heap'.Reaches file1 a → ¬ heap'.Reaches content a) →
        ∃ bound, ∀ fuel, bound ≤ fuel → ∀ walked,
          mergeSingleFileContent fuel walked heap' (some file1) (some content) ≠
            .error .recursionTooDeep) := by
  -- what was accepted is a tree with references
  obtain ⟨hd, ss, ids, hparses, hdecodes, _⟩ := accepted_parses hfresh hacc
  refine ⟨hd, ss, ids, hparses, hdecodes.acyclic_iff hparses, fun hback => ?_, fun href file1 => ?_⟩
  · obtain ⟨bound, hbound⟩ := fileFormatter_ends (hdecodes.grounded hparses hback)
    exact ⟨bound, fun fuel hfuel depth herr => (hbound fuel hfuel depth).of_error herr rfl⟩
  · exact mergeSingleFileContent_ends (hdecodes.unshared hparses href)

/-- A Directory with the File `x`. -/
def plainInput : Bytes := [0, 0, 10, 0, 0, 7, 0, 1, 1, 1, 0, 10, 0, 0, 7, 1, 120, 0]

def plainHeader (type : FileType) (name : Bytes) : Header :=
  ⟨type, ⟨⟨10, 0, 0, 7⟩⟩, name⟩

theorem parsesTree_plainInput : ParsesTree plainInput (plainHeader FileType.directory [])
    (.node 1 (plainHeader FileType.file (ascii "x")) .nil .nil) [1] :=
  ⟨rfl, .node rfl (by decide) (by decide) rfl (.nil _ _) (.nil _ _)⟩

/-- What it decodes to, beside a root that holds an empty Directory. -/
def plainHeap : Heap :=
  [(plainHeader FileType.directory []).toFileContent [some 3], { contents := [some 2] }, {},
    (plainHeader FileType.file (ascii "x")).toFileContent []]

theorem deserialize_plainInput : deserializeToFileContent plainInput
    [FileContent.fresh 7, { contents := [some 2] }, {}] 0 = some (true, plainHeap) := by decide

theorem soundOn_plainHeap : plainHeap.SoundOn {1, 2} := by
  rintro a (rfl | rfl)
  · exact ⟨_, rfl, by decide, by simp [Into]⟩
  · exact ⟨_, rfl, by decide, by simp⟩

theorem accepted_acyclic_iff_plainInput :
    PointerGraph.Acyclic FileContent.children plainHeap 0 ∧
    (∃ bound, ∀ fuel, bound ≤ fuel → ∀ depth,
      plainHeap.fileFormatter fuel (some 0) depth ≠ .error .recursionTooDeep) ∧
    ∃ bound, ∀ fuel, bound ≤ fuel → ∀ walked,
      mergeSingleFileContent fuel walked plainHeap (some 1) (some 0) ≠
        .error .recursionTooDeep := by
  have hfresh : ([FileContent.fresh 7, { contents := [some 2] }, {}] : Heap)[0]? =
      some (FileContent.fresh 7) := rfl
  obtain ⟨hd, ss, ids, hparses, hacyclic, hprint, hmerge⟩ :=
    accepted_acyclic_iff hfresh deserialize_plainInput
  obtain ⟨rfl, rfl, rfl⟩ := hparses.functional parsesTree_plainInput
  refine ⟨hacyclic.mpr rfl, hprint rfl, hmerge rfl 1 fun a hroot hcontent => ?_⟩
  -- the root and what it holds are apart from what was decoded
  have hdecoded : plainHeap.SoundOn {0, 3} := by
    rintro a (rfl | rfl)
    · exact ⟨_, rfl, by decide, by simp [Header.toFileContent, Into]⟩
    · exact ⟨_, rfl, by decide, by simp [Header.toFileContent]⟩
  have h₁ := soundOn_plainHeap.closedOn.isSealed.mem_of_reaches (Or.inl rfl) hroot
  have h₂ := hdecoded.closedOn.isSealed.mem_of_reaches (Or.inl rfl) hcontent
  rcases h₁ with rfl | rfl <;> rcases h₂ with h₂ | h₂ <;> cases h₂

/-- A Directory whose child is its own child. -/
def cyclicInput : Bytes := [0, 0, 10, 0, 0, 7, 0, 1, 1, 0, 0, 10, 0, 0, 7, 0, 1, 1]

/-- An empty Directory, one that holds it, and the first again. -/
def sharedInput : Bytes :=
  [0, 0, 10, 0, 0, 7, 0, 3, 1, 0, 0, 10, 0, 0, 7, 0, 0, 2, 0, 0, 10, 0, 0, 7, 0, 1, 1, 1]

/-- What the two inputs decode to, behind the objects that were there before. -/
def cyclicHeap : Heap :=
  [{ networkNode := ⟨⟨10, 0, 0, 7⟩⟩, contents := [some 1] },
   { networkNode := ⟨⟨10, 0, 0, 7⟩⟩, contents := [some 1] }]

def sharedHeap : Heap :=
  [{ networkNode := ⟨⟨10, 0, 0, 7⟩⟩, contents := [some 2, some 3, some 2] },
   FileContent.new,
   { networkNode := ⟨⟨10, 0, 0, 7⟩⟩ },
   { networkNode := ⟨⟨10, 0, 0, 7⟩⟩, contents := [some 2] }]

/-- The objects of `sharedHeap` when two of the three entries were merged into the empty
Directory: the Directory at 2 has taken in itself. -/
def selfMergedHeap : Heap :=
  [{ networkNode := ⟨⟨10, 0, 0, 7⟩⟩, contents := [some 2, some 3, some 2] },
   { contents := [some 2] },
   { networkNode := ⟨⟨10, 0, 0, 7⟩⟩, contents := [some 2] },
   { networkNode := ⟨⟨10, 0, 0, 7⟩⟩, contents := [some 2] }]

theorem fileFormatter_cyclicHeap (fuel : Nat) : ∀ depth,
    cyclicHeap.fileFormatter fuel (some 1) depth = .error .recursionTooDeep := by
  induction fuel with
  | zero => exact fun _ => rfl
  | succ fuel ih =>
    intro depth
    show (do
      let below ← [some 1].mapM fun dir => cyclicHeap.fileFormatter fuel dir (depth + 1)
      _) = _
    rw [List.mapM_cons, ih]
    rfl

theorem merge_selfMergedHeap (fuel : Nat) : ∀ walked,
    mergeSingleFileContent fuel walked selfMergedHeap (some 2) (some 2) =
      .error .recursionTooDeep := by
  -- each call walks the same child again
  induction fuel with
  | zero => exact fun _ => rfl
  | succ fuel ih =>
    intro walked
    show [some 2].foldlM (mergeEntry (mergeSingleFileContent fuel (2 :: walked)) (2 :: walked)
      (some 2)) selfMergedHeap = _
    rw [List.foldlM_cons]
    show (mergeSingleFileContent fuel (2 :: walked) selfMergedHeap (some 2) (some 2) >>= _) = _
    rw [ih]
    rfl

theorem merge_sharedHeap (fuel : Nat) :
    mergeSingleFileContent fuel [] sharedHeap (some 1) (some 0) = .error .recursionTooDeep := by
  match fuel with
  | 0 => rfl
  | 1 => rfl
  | fuel + 2 =>
    show (mergeSingleFileContent (fuel + 1) [0] selfMergedHeap (some 2) (some 2) >>= _) = _
    rw [merge_selfMergedHeap]
    rfl

theorem grounded_sharedHeap : PointerGraph.Grounded FileContent.children sharedHeap 0 := by
  have hleaf : PointerGraph.Grounded FileContent.children sharedHeap 2 := by
    -- from the leaf upwards
    refine .intro _ fun b ⟨c, hc, hb⟩ => ?_
    cases hc
    cases hb
  have hholder : PointerGraph.Grounded FileContent.children sharedHeap 3 := by
    refine .intro _ fun b ⟨c, hc, hb⟩ => ?_
    cases hc
    obtain rfl : b = 2 := List.mem_singleton.mp hb
    exact hleaf
  refine .intro _ fun b ⟨c, hc, hb⟩ => ?_
  cases hc
  have hb : b ∈ [2, 3, 2] := hb
  simp only [List.mem_cons, List.not_mem_nil, or_false] at hb
  rcases hb with rfl | rfl | rfl
  · exact hleaf
  · exact hholder
  · exact hleaf

/-- An accepted input can be cyclic, and printing it does not end. Another one is acyclic, and
merging it into an empty Directory does not end. -/
theorem accepted_cyclic :
    (∃ heap', deserializeToFileContent cyclicInput [FileContent.fresh 0] 0 = some (true, heap') ∧
      ¬ PointerGraph.Acyclic FileContent.children heap' 0 ∧
      ∀ fuel, heap'.fileFormatter fuel (some 0) 1 = .error .recursionTooDeep) ∧
    ∃ heap', deserializeToFileContent sharedInput [FileContent.fresh 0, FileContent.new] 0 =
        some (true, heap') ∧ PointerGraph.Acyclic FileContent.children heap' 0 ∧
      ∀ fuel, mergeSingleFileContent fuel [] heap' (some 1) (some 0) =
        .error .recursionTooDeep := by
  refine ⟨⟨cyclicHeap, by decide, fun hacyclic => ?_, fun fuel => ?_⟩,
    ⟨sharedHeap, by decide, ?_, merge_sharedHeap⟩⟩
  · have hroot : cyclicHeap.Points 0 1 := ⟨_, rfl, by decide⟩
    have hloop : cyclicHeap.Points 1 1 := ⟨_, rfl, by decide⟩
    exact hacyclic 1 ((PointerGraph.Reaches.refl 0).tail hroot) (.single hloop)
  · cases fuel with
    | zero => rfl
    | succ fuel =>
      show (do
        let below ← [some 1].mapM fun dir => cyclicHeap.fileFormatter fuel dir 2
        _) = _
      rw [List.mapM_cons, fileFormatter_cyclicHeap]
      rfl
  · exact PointerGraph.Grounded.acyclic grounded_sharedHeap

/-! ## Null pointers and types -/

/-- **Accepted inputs and soundness.** The decoded graph has only non-null children, Directories
and Files exactly when the input has only these. Then printing it dereferences no bad pointer and
prints every line for a Directory or a File; and `MergeDiff` into a well-formed root dereferences
no bad pointer either, and calls `MergeSingleFileContent` for Directories and Files only. -/
theorem accepted_wellFormed_iff (hfresh : heap[content]? = some (FileContent.fresh type))
    (hacc : deserializeToFileContent data heap content = some (true, heap')) :
    ∃ hd ss ids, ParsesTree data hd ss ids ∧
      (heap'.WellFormed content ↔ SoundInput hd ss) ∧
      (SoundInput hd ss →
        (∀ fuel depth, Outcome (fun lines => ∀ line ∈ lines, line.file.type.Known) NoBadPointer
          (heap'.fileFormatter fuel (some content) depth)) ∧
        ∀ root, heap'.WellFormed root →
          Outcome (fun merged => merged.WellFormed root) NoBadPointer
            (heap'.mergeDiff root (some content)) ∧
          ∀ call, MergeCall.OfMergeDiff root heap' (some content) call → ∃ c₁ c₂,
            call.heap.deref call.file1 = .ok c₁ ∧ call.heap.deref call.file2 = .ok c₂ ∧
            c₁.type.Known ∧ c₂.type.Known) := by
  obtain ⟨hd, ss, ids, hparses, hdecodes, _⟩ := accepted_parses hfresh hacc
  have hiff := hdecodes.wellFormed_iff hparses
  refine ⟨hd, ss, ids, hparses, hiff, fun hsound => ⟨fun fuel depth => ?_, fun root hroot => ?_⟩⟩
  · exact fileFormatter_sound (hiff.mpr hsound).soundOn fuel (some content) depth
      ⟨content, PointerGraph.Reaches.refl content, rfl⟩
  · -- the objects below the root and those decoded are sound together
    have hS := hroot.soundOn.union (hiff.mpr hsound).soundOn
    have hrootS : root ∈ {a | heap'.Reaches root a} ∪ {a | heap'.Reaches content a} :=
      Or.inl (PointerGraph.Reaches.refl root)
    have hcontentS : Into ({a | heap'.Reaches root a} ∪ {a | heap'.Reaches content a})
        (some content) := ⟨content, Or.inr (PointerGraph.Reaches.refl content), rfl⟩
    refine ⟨?_, fun call hcall => ?_⟩
    · exact (mergeDiff_sound hS hrootS hcontentS).mono
        (fun merged hmerged => hmerged.wellFormed hrootS) fun _ he => he
    · obtain ⟨hcallS, hfile1, hfile2⟩ := hcall.soundOn hS hrootS hcontentS
      obtain ⟨c₁, hc₁, htype₁, _⟩ := hcallS.deref hfile1
      obtain ⟨c₂, hc₂, htype₂, _⟩ := hcallS.deref hfile2
      exact ⟨c₁, c₂, hc₁, hc₂, htype₁, htype₂⟩

theorem accepted_wellFormed_iff_plainInput :
    (∀ fuel depth, Outcome (fun lines => ∀ line ∈ lines, line.file.type.Known) NoBadPointer
      (plainHeap.fileFormatter fuel (some 0) depth)) ∧
    Outcome (fun merged => merged.WellFormed 1) NoBadPointer (plainHeap.mergeDiff 1 (some 0)) ∧
    ∀ call, MergeCall.OfMergeDiff 1 plainHeap (some 0) call → ∃ c₁ c₂,
      call.heap.deref call.file1 = .ok c₁ ∧ call.heap.deref call.file2 = .ok c₂ ∧
      c₁.type.Known ∧ c₂.type.Known := by
  have hfresh : ([FileContent.fresh 7, { contents := [some 2] }, {}] : Heap)[0]? =
      some (FileContent.fresh 7) := rfl
  obtain ⟨hd, ss, ids, hparses, _, huse⟩ := accepted_wellFormed_iff hfresh deserialize_plainInput
  obtain ⟨rfl, rfl, rfl⟩ := hparses.functional parsesTree_plainInput
  obtain ⟨hprint, hmerge⟩ := huse (by decide)
  exact ⟨hprint, hmerge 1 (soundOn_plainHeap.wellFormed (Or.inl rfl))⟩

/-- A null pointer and a type without a name are accepted. Printing the one dereferences a null
pointer, as does merging it into a root that has a Directory of its name; the other is printed as
a folder. -/
theorem accepted_malformed :
    (∃ heap', deserializeToFileContent [0, 0, 10, 0, 0, 7, 0, 1, 0] [FileContent.fresh 0,
        { contents := [some 2] }, { contents := [some 3] }, {}] 0 = some (true, heap') ∧
      heap'.WellFormed 1 ∧ ¬ heap'.WellFormed 0 ∧
      heap'.fileFormatter 2 (some 0) 1 = .error .nullDereference ∧
      heap'.mergeDiff 1 (some 0) = .error .nullDereference) ∧
    ∃ heap' lines, deserializeToFileContent [7, 0, 10, 0, 0, 7, 0, 0] [FileContent.fresh 0] 0 =
        some (true, heap') ∧ ¬ heap'.WellFormed 0 ∧
      heap'.fileFormatter 1 (some 0) 1 = .ok lines ∧ printed lines = ascii "|_____Folder []\n" := by
  refine ⟨⟨_, rfl, ?_, fun hwf => ?_, rfl, rfl⟩, _, _, rfl, fun hwf => ?_, rfl, rfl⟩
  · apply SoundOn.wellFormed (S := {1, 2, 3}) _ (Or.inl rfl)
    rintro a (rfl | rfl | rfl)
    · exact ⟨_, rfl, by decide, by simp [Into]⟩
    · exact ⟨_, rfl, by decide, by simp [Into]⟩
    · exact ⟨_, rfl, by decide, by simp⟩
  · -- the null child
    obtain ⟨c, hc, _, hnull⟩ := hwf 0 (PointerGraph.Reaches.refl 0)
    cases hc
    exact hnull List.mem_cons_self
  · -- the type
    obtain ⟨c, hc, htype, _⟩ := hwf 0 (PointerGraph.Reaches.refl 0)
    cases hc
    exact absurd htype (by decide)

end Guthi
