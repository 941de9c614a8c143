import Guthi.Filesystem.MergeFaults

/-!
# Guthi — printing a file tree

`FileFormatter` of `filesystem/network_fs.hpp`, which `operator<<` calls with depth 1. It
dereferences every child and has no end of its own, so it has the faults of the merge. A line
of the output is kept with the object it was printed for.

* `fileFormatter_ends` — where every pointer path ends, so does the recursion;
* `fileFormatter_sound` — among sound objects no bad pointer is dereferenced, and every line is
  printed for a Directory or a File.
-/

namespace Guthi

/-- `|     ` for each level above, and `|_____`. -/
def indent (depth : Nat) : Bytes :=
  (List.replicate (depth - 1) (ascii "|     ")).flatten ++ ascii "|_____"

structure Line where
  file : FileContent
  text : Bytes
deriving DecidableEq, Repr

namespace Heap

def fileFormatter (h : Heap) : Nat → Option Addr → Nat → Except MergeFault (List Line)
  | 0, _, _ => .error .recursionTooDeep
  | fuel + 1, file, depth => do
    let c ← deref h file
    if c.type = FileType.file then
      .ok [⟨c, indent depth ++ ascii "File [" ++ c.name ++ ascii "]\n"⟩]
    else
      let below ← c.contents.mapM fun dir => fileFormatter h fuel dir (depth + 1)
      .ok (⟨c, indent depth ++ ascii "Folder [" ++ c.name ++ ascii "]\n"⟩ :: below.flatten)

/-- What `os` receives. -/
def printed (lines : List Line) : Bytes := lines.flatMap Line.text

end Heap

/-! ## The recursion -/

namespace Heap

variable {h : Heap}

/-- One level of the recursion: what holds of every line below holds of every line, if it holds
of the one for `file`. -/
theorem fileFormatter_outcome {E : MergeFault → Prop} {P : Line → Prop} {fuel depth : Nat}
    {file : Option Addr} (hderef : Outcome (fun c => (∀ text, P ⟨c, text⟩) ∧ ∀ dir ∈ c.contents,
      Outcome (fun lines => ∀ line ∈ lines, P line) E (fileFormatter h fuel dir (depth + 1))) E
      (deref h file)) :
    Outcome (fun lines => ∀ line ∈ lines, P line) E (fileFormatter h (fuel + 1) file depth) := by
  rw [fileFormatter]
  refine hderef.bind fun c _ ⟨hself, hbelow⟩ => ?_
  split_ifs with hfile
  · rw [outcome_ok, List.forall_mem_singleton]
    exact hself _
  · refine (Outcome.mapM hbelow).bind fun below _ hlines => ?_
    rw [outcome_ok, List.forall_mem_cons]
    refine ⟨hself _, fun line hline => ?_⟩
    obtain ⟨lines, hmem, hline⟩ := List.mem_flatten.mp hline
    exact hlines lines hmem line hline

/-- The recursion ends where every pointer path does: induction along the pointers. -/
theorem fileFormatter_ends {a : Addr} (ha : PointerGraph.Grounded FileContent.children h a) :
    ∃ bound, ∀ fuel, bound ≤ fuel → ∀ depth,
      Outcome (fun lines => ∀ line ∈ lines, True) (· ≠ .recursionTooDeep)
        (fileFormatter h fuel (some a) depth) := by
  induction ha with
  | intro a _ ih =>
    -- a null child ends the recursion with another fault
    have hchildren : ∀ c, h[a]? = some c → ∀ dir ∈ c.contents, ∃ bound, ∀ fuel, bound ≤ fuel →
        ∀ depth, Outcome (fun lines => ∀ line ∈ lines, True) (· ≠ .recursionTooDeep)
          (fileFormatter h fuel dir depth) := by
      intro c hc dir hdir
      cases dir with
      | none =>
        refine ⟨1, fun fuel hfuel depth => ?_⟩
        obtain ⟨fuel, rfl⟩ := Nat.exists_eq_add_of_le' hfuel
        show MergeFault.nullDereference ≠ .recursionTooDeep
        decide
      | some b => exact ih b ⟨c, hc, FileContent.mem_children.mpr hdir⟩
    have hbound : ∃ bound, ∀ fuel, bound ≤ fuel → ∀ c, h[a]? = some c → ∀ dir ∈ c.contents,
        ∀ depth, Outcome (fun lines => ∀ line ∈ lines, True) (· ≠ .recursionTooDeep)
          (fileFormatter h fuel dir depth) := by
      cases hc : h[a]? with
      | none => exact ⟨0, fun _ _ c hc => (nomatch hc)⟩
      | some c =>
        obtain ⟨bound, hbound⟩ := exists_bound_forall_mem (hchildren c hc)
        refine ⟨bound, fun fuel hfuel c' hc' => ?_⟩
        cases hc'
        exact hbound fuel hfuel
    obtain ⟨bound, hbound⟩ := hbound
    refine ⟨bound + 1, fun fuel hfuel depth => ?_⟩
    obtain ⟨fuel, rfl⟩ := Nat.exists_eq_add_of_le' (Nat.one_le_of_lt hfuel)
    apply fileFormatter_outcome
    cases hderef : deref h (some a) with
    | error e => exact (deref_outcome h (some a)).of_error hderef
    | ok c =>
      exact ⟨fun _ => trivial, fun dir hdir => hbound fuel (by omega) c (deref_eq_ok.mp hderef) dir
        hdir (depth + 1)⟩

theorem fileFormatter_sound {S : Set Addr} (hS : h.SoundOn S) (fuel : Nat) :
    ∀ (file : Option Addr) (depth : Nat), Into S file →
      Outcome (fun lines => ∀ line ∈ lines, line.file.type.Known) NoBadPointer
        (fileFormatter h fuel file depth) := by
  induction fuel with
  | zero =>
    intro file depth _
    show NoBadPointer .recursionTooDeep
    constructor <;> decide
  | succ fuel ih =>
    intro file depth hfile
    apply fileFormatter_outcome
    refine (hS.deref_outcome hfile).mono (fun c hc => ?_) fun _ he => he
    exact ⟨fun _ => hc.1, fun dir hdir => ih dir (depth + 1) (hc.2 dir hdir)⟩

end Heap

end Guthi
