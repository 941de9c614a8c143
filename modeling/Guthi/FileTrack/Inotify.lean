import Guthi.FileTrack.Listen

/-!
# Guthi — what inotify knows

The system's side of `file_track_linux.cpp`: `inotify` watches files, not names. A write to a
watched file queues an event; so does the end of a watched file, which takes the watch with it.
All watches are for `IN_MODIFY`, as the daemon asks for, and on files, not on directories.

* `Inotify.addWatch` — `inotify_add_watch`; `addWatch_registers` — what it leaves;
* `Inotify.write`, `Inotify.relink` — what happens to files; `Hears` — what is queued then.
-/

namespace Guthi

/-- A file, however many names lead to it. -/
abbrev Inode := Nat

/-- The file that a name leads to now, the descriptor of the watch on a file, the descriptors
that have ever been handed out, and the events that have not been read. -/
structure Inotify where
  fileAt : Bytes → Option Inode := fun _ => none
  watch : Inode → Option TrackHandle := fun _ => none
  handed : List TrackHandle := []
  pending : List BatchEvent := []

namespace Inotify

def inModify : UInt32 := 0x00000002

def inIgnored : UInt32 := 0x00008000

def event (mask : UInt32) (wd : TrackHandle) : BatchEvent where
  wd := wd
  mask := mask
  cookie := 0
  name := []

/-- `inotify_add_watch(…, IN_MODIFY)` on the full path of `name`. A file that is watched keeps its
descriptor, another one gets `fresh`; `none` if that is not one to hand out. -/
def addWatch (k : Inotify) (name : Bytes) (fresh : TrackHandle) : Option (Inotify × TrackHandle) :=
  match k.fileAt name with
  | none => some (k, -1)
  | some file =>
    match k.watch file with
    | some wd => some (k, wd)
    | none =>
      if 0 ≤ fresh ∧ fresh ∉ k.handed then
        some ({ k with
          watch := Function.update k.watch file (some fresh)
          handed := fresh :: k.handed }, fresh)
      else none

/-- An event that is equal to the last one in the queue is not queued again. -/
def queue (k : Inotify) (e : BatchEvent) : Inotify :=
  if k.pending.getLast? = some e then k else { k with pending := k.pending ++ [e] }

/-- A program writes to the file. -/
def write (k : Inotify) (file : Inode) : Inotify :=
  match k.watch file with
  | some wd => k.queue (event inModify wd)
  | none => k

/-- A file ends. -/
def remove (k : Inotify) (file : Inode) : Inotify :=
  match k.watch file with
  | some wd => { k with watch := Function.update k.watch file none }.queue (event inIgnored wd)
  | none => k

/-- Names come to lead elsewhere, by a creation, a removal or a renaming; the file that was removed
or replaced may end with that. -/
def relink (k : Inotify) (fileAt : Bytes → Option Inode) : Option Inode → Inotify
  | some gone => { k with fileAt }.remove gone
  | none => { k with fileAt }

/-! ## Registration -/

/-- Descriptors are used once and tell the watched files apart. -/
structure Sound (k : Inotify) : Prop where
  handed : ∀ file wd, k.watch file = some wd → wd ∈ k.handed
  nonneg : ∀ wd ∈ k.handed, 0 ≤ wd
  injective : ∀ file file' wd, k.watch file = some wd → k.watch file' = some wd → file = file'

/-- What a call of `inotify_add_watch` leaves. -/
structure Registers (k : Inotify) (name : Bytes) (k' : Inotify) (wd : TrackHandle) : Prop where
  fileAt : k'.fileAt = k.fileAt
  pending : k'.pending = k.pending
  handed : ∀ w ∈ k.handed, w ∈ k'.handed
  few : k'.handed.length ≤ k.handed.length + 1
  kept : ∀ file w, k.watch file = some w → k'.watch file = some w
  fresh : ∀ file w, k'.watch file = some w → k.watch file = some w ∨ (w = wd ∧ w ∉ k.handed)
  leads : 0 ≤ wd → ∃ file, k.fileAt name = some file ∧ k'.watch file = some wd

variable {k k' : Inotify} {name : Bytes} {wd fresh : TrackHandle} {file : Inode} {e : BatchEvent}

theorem sound_start (fileAt : Bytes → Option Inode) : Sound { fileAt } where
  handed _ _ h := by cases h
  nonneg _ h := by cases h
  injective _ _ _ h := by cases h

theorem addWatch_registers (hk : k.Sound) (h : k.addWatch name fresh = some (k', wd)) :
    k'.Sound ∧ k.Registers name k' wd := by
  unfold addWatch at h
  cases hfile : k.fileAt name with
  -- no such file
  | none =>
    simp only [hfile] at h
    cases h
    refine ⟨hk, rfl, rfl, fun _ hw => hw, Nat.le_succ _, fun _ _ hw => hw,
      fun _ _ hw => Or.inl hw, fun hneg => ?_⟩
    exact absurd hneg (by decide)
  | some file =>
    simp only [hfile] at h
    cases hwatch : k.watch file with
    | some wd' =>
      simp only [hwatch] at h
      cases h
      exact ⟨hk, rfl, rfl, fun _ hw => hw, Nat.le_succ _, fun _ _ hw => hw,
        fun _ _ hw => Or.inl hw, fun _ => ⟨file, hfile, hwatch⟩⟩
    | none =>
      simp only [hwatch] at h
      obtain ⟨⟨hnonneg, hnew⟩, ⟨⟩⟩ := Option.ite_none_right_eq_some.mp h
      have hupdated : ∀ f w, Function.update k.watch file (some wd) f = some w →
          (f = file ∧ w = wd) ∨ k.watch f = some w := by
        intro f w hw
        by_cases hf : f = file
        · subst hf
          rw [Function.update_self] at hw
          cases hw
          exact Or.inl ⟨rfl, rfl⟩
        · rw [Function.update_of_ne hf] at hw
          exact Or.inr hw
      refine ⟨⟨fun f w hw => ?_, ?_, fun f g w hf hg => ?_⟩, rfl, rfl, fun w hw => ?_,
        le_refl _, fun f w hw => ?_, fun f w hw => ?_,
        fun _ => ⟨file, hfile, Function.update_self ..⟩⟩
      · rcases hupdated f w hw with ⟨_, rfl⟩ | hold
        · exact List.mem_cons_self
        · exact List.mem_cons_of_mem _ (hk.handed f w hold)
      · show ∀ w ∈ wd :: k.handed, 0 ≤ w
        exact List.forall_mem_cons.mpr ⟨hnonneg, hk.nonneg⟩
      · -- the new descriptor belongs to the new watch only
        rcases hupdated f w hf with ⟨rfl, rfl⟩ | hold
        · rcases hupdated g w hg with ⟨rfl, _⟩ | hold'
          · rfl
          · exact absurd (hk.handed g w hold') hnew
        · rcases hupdated g w hg with ⟨_, rfl⟩ | hold'
          · exact absurd (hk.handed f w hold) hnew
          · exact hk.injective f g w hold hold'
      · exact List.mem_cons_of_mem _ hw
      · have hne : f ≠ file := by
          rintro rfl
          rw [hwatch] at hw
          cases hw
        show Function.update k.watch file (some wd) f = some w
        rw [Function.update_of_ne hne]
        exact hw
      · rcases hupdated f w hw with ⟨_, rfl⟩ | hold
        · exact Or.inr ⟨rfl, hnew⟩
        · exact Or.inl hold

/-- There is a descriptor left as long as fewer were handed out than there are. -/
theorem exists_fresh (k : Inotify) (h : k.handed.length < 2 ^ 31) :
    ∃ fresh : TrackHandle, 0 ≤ fresh ∧ fresh ∉ k.handed := by
  let used := (k.handed.map Int32.toNatClampNeg).toFinset
  have hcard : used.card < (Finset.range (k.handed.length + 1)).card := by
    have hle : used.card ≤ (k.handed.map Int32.toNatClampNeg).length := List.toFinset_card_le _
    rw [List.length_map] at hle
    rw [Finset.card_range]
    omega
  -- more numbers than were handed out
  obtain ⟨n, hn, hunused⟩ := Finset.exists_mem_notMem_of_card_lt_card hcard
  have hsmall : n < 2 ^ 31 := by
    have hlt := Finset.mem_range.mp hn
    omega
  refine ⟨Int32.ofNat n, Int32.zero_le_ofNat_of_lt hsmall, fun hmem => hunused ?_⟩
  rw [List.mem_toFinset, List.mem_map]
  exact ⟨Int32.ofNat n, hmem, Int32.toNatClampNeg_ofNat_of_lt hsmall⟩

theorem exists_addWatch (hk : k.Sound) (hfile : k.fileAt name ≠ none)
    (hleft : k.handed.length < 2 ^ 31) :
    ∃ fresh k' wd, k.addWatch name fresh = some (k', wd) ∧ 0 ≤ wd := by
  obtain ⟨file, hfile⟩ := Option.ne_none_iff_exists'.mp hfile
  obtain ⟨fresh, hfresh⟩ := k.exists_fresh hleft
  unfold addWatch
  rw [hfile]
  dsimp only
  cases hwatch : k.watch file with
  | some wd => exact ⟨fresh, k, wd, rfl, hk.nonneg wd (hk.handed file wd hwatch)⟩
  | none => exact ⟨fresh, _, fresh, if_pos hfresh, hfresh.1⟩

/-! ## Events -/

/-- What happens to the queue at an event of a file, with the watch that the file has: there is at
most one event more, and one that tells of the file. -/
structure Hears (before after : List BatchEvent) (wd : Option TrackHandle) : Prop where
  one : after = before ∨ ∃ e, e.name = [] ∧ wd = some e.wd ∧ after = before ++ [e]
  heard : ∀ w, wd = some w → ∃ e ∈ after, e.wd = w

variable {before after : List BatchEvent} {w : Option TrackHandle}

theorem Hears.old (h : Hears before after w) : ∀ e ∈ before, e ∈ after := by
  intro e he
  rcases h.one with rfl | ⟨_, _, _, rfl⟩
  · exact he
  · exact List.mem_append_left _ he

theorem Hears.new (h : Hears before after w) :
    ∀ e ∈ after, e ∈ before ∨ (e.name = [] ∧ w = some e.wd) := by
  intro e he
  rcases h.one with rfl | ⟨e', hname, hwd, rfl⟩
  · exact Or.inl he
  · rcases List.mem_append.mp he with hold | hnew
    · exact Or.inl hold
    · rw [List.mem_singleton.mp hnew]
      exact Or.inr ⟨hname, hwd⟩

theorem hears_none (before : List BatchEvent) : Hears before before none where
  one := Or.inl rfl
  heard _ h := by cases h

theorem queue_hears (k : Inotify) (mask : UInt32) (wd : TrackHandle) :
    ∃ pending, k.queue (event mask wd) = { k with pending } ∧
      Hears k.pending pending (some wd) := by
  unfold queue
  -- the kernel merges an event with an equal one at the end
  split_ifs with hlast
  · refine ⟨k.pending, rfl, Or.inl rfl, fun w h => ?_⟩
    cases h
    exact ⟨_, List.mem_of_getLast? hlast, rfl⟩
  · refine ⟨_, rfl, Or.inr ⟨_, rfl, rfl, rfl⟩, fun w h => ?_⟩
    cases h
    exact ⟨_, List.mem_append_right _ (List.mem_singleton.mpr rfl), rfl⟩

/-- A write says so to those that watch the file, and does nothing else. -/
theorem write_eq (k : Inotify) (file : Inode) :
    ∃ pending, k.write file = { k with pending } ∧ Hears k.pending pending (k.watch file) := by
  unfold write
  cases hwatch : k.watch file with
  | none => exact ⟨k.pending, rfl, hears_none _⟩
  | some wd => exact k.queue_hears inModify wd

/-- The files that stay keep their watches, and of the one that goes there is an event. -/
theorem relink_eq (k : Inotify) (fileAt : Bytes → Option Inode) (gone : Option Inode) :
    ∃ watch pending, k.relink fileAt gone = { k with fileAt, watch, pending } ∧
      Hears k.pending pending (gone.bind k.watch) ∧
      (∀ file, gone ≠ some file → watch file = k.watch file) ∧
      ∀ file, gone = some file → watch file = none := by
  -- the name was free, or its file goes
  cases gone with
  | none => exact ⟨k.watch, k.pending, rfl, hears_none _, fun _ _ => rfl, fun _ h => by cases h⟩
  | some gone =>
    unfold relink remove
    rw [Option.bind_some]
    dsimp only
    cases hwatch : k.watch gone with
    | none =>
      refine ⟨k.watch, k.pending, rfl, hears_none _, fun _ _ => rfl, ?_⟩
      rintro file ⟨⟩
      exact hwatch
    | some wd =>
      obtain ⟨pending, heq, hears⟩ :=
        ({ k with fileAt, watch := Function.update k.watch gone none } : Inotify).queue_hears
          inIgnored wd
      refine ⟨_, pending, heq, hears, fun file hne => ?_, ?_⟩
      · exact Function.update_of_ne (fun h => hne (by rw [h])) _ _
      · rintro file ⟨⟩
        exact Function.update_self ..

end Inotify

end Guthi
