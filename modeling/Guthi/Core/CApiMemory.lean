import Guthi.Filesystem.CacheMemory

/-!
# Guthi — the memory of the C interface

`AddToFileFS`, `AddToFileCache` and `GetCachedFile` of `core/c_api.cpp`, over the pointers of the
cache. The C interface makes a `RawFile` from the bytes of the caller and never destroys one: what
the cache does not take over is lost when the function returns.

* `CacheCall.ops` — what a call does with `RawFile`s;
* `c_api_memory` — no sequence of calls uses an array wrongly, and which arrays are lost.
-/

namespace Guthi

namespace CApi

/-- A call of the C interface, and how the disk and the memory were then. -/
inductive CacheCall where
  | addToFileFS (fileName data : Bytes)
  | addToFileCache (fileName data : Bytes) (ipAddr : Ipv4) (memoryShort created : Bool)
  | getCachedFile (fileName : Bytes) (ipAddr : Ipv4)
deriving DecidableEq, Repr

namespace CacheCall

/-- What a call does while so many `RawFile`s are held elsewhere: `rawfile` is the next one. -/
def ops (held : Nat) : CacheCall → List Memory.Op
  | addToFileFS fileName data => [.newFile fileName data false, .drop held]
  | addToFileCache fileName data ipAddr memoryShort created =>
    -- `rawfile.file_size` is not set
    [.newFile fileName data false, .add held ipAddr memoryShort created, .drop held]
  -- the array goes to the caller
  | getCachedFile fileName ipAddr => [.get (cStr fileName) ipAddr]

/-- The cache does not take the array over. -/
def losesArray : CacheCall → Bool
  | addToFileFS _ _ => true
  | addToFileCache _ _ _ memoryShort _ => memoryShort
  | getCachedFile _ _ => false

def fetches : CacheCall → Bool
  | getCachedFile _ _ => true
  | _ => false

end CacheCall

end CApi

namespace Memory

open CApi

variable {F : Type}

/-- How many arrays nobody can delete any more. -/
def lostArrays (s : Memory F) : Nat := s.lost.countP Option.isSome

section

variable [DecidableEq F] (resolve : Bytes → F)

def call (s : Memory F) (c : CacheCall) : Except MemoryFault (Memory F) :=
  s.run resolve (c.ops s.files.length)

def calls (s : Memory F) (cs : List CacheCall) : Except MemoryFault (Memory F) :=
  cs.foldlM (call resolve) s

end

variable {s s' : Memory F}

theorem lostArrays_cons {p : Option Nat} (hlost : s'.lost = p :: s.lost) :
    s'.lostArrays = s.lostArrays + if p.isSome then 1 else 0 := by
  unfold lostArrays
  rw [hlost, List.countP_cons]

/-- A `RawFile` behind the others, which is dropped. -/
theorem drop_last [DecidableEq F] (resolve : Bytes → F) {files : List HeldFile} {file : HeldFile}
    (hfiles : s.files = files ++ [file]) : s.step resolve (.drop files.length) =
      .ok { s with files := files, lost := file.owns :: s.lost } := by
  have hlast : s.files[files.length]? = some file := by
    rw [hfiles]
    exact List.getElem?_concat_length
  have herase : s.files.eraseIdx files.length = files := by
    rw [hfiles, List.eraseIdx_append_of_length_le le_rfl, Nat.sub_self]
    exact List.append_nil files
  rw [step, hlast]
  show Except.ok { s with files := s.files.eraseIdx files.length, lost := file.owns :: s.lost } = _
  rw [herase]

section

variable [DecidableEq F] {resolve : Bytes → F}

/-- What `AddFileToCache` leaves of the `RawFile`, and of all others. -/
theorem frame_add {i : Nat} {file : HeldFile} {ipAddr : Ipv4} {memoryShort created : Bool}
    (hi : s.files[i]? = some file)
    (h : s.step resolve (.add i ipAddr memoryShort created) = .ok s') :
    s'.lost = s.lost ∧
      s'.files = s.files.set i (if memoryShort then file else
        { file with data := none, fileSize := 0, destroyed := true }) := by
  rw [step, hi] at h
  -- kept in memory, or written to a file and destroyed
  cases memoryShort with
  | false =>
    cases h
    exact ⟨rfl, rfl⟩
  | true =>
    cases created with
    | false =>
      cases h
      exact ⟨rfl, rfl⟩
    | true =>
      obtain ⟨⟨t, file'⟩, hadd, hset⟩ := bind_eq_ok.mp h
      obtain ⟨content, _, hstore⟩ := bind_eq_ok.mp hadd
      cases hstore
      cases hset
      exact ⟨rfl, rfl⟩

theorem frame_get {fileName : Bytes} {ipAddr : Ipv4}
    (h : s.step resolve (.get fileName ipAddr) = .ok s') :
    s'.lost = s.lost ∧ s'.files.length = s.files.length + 1 := by
  obtain ⟨⟨t, file⟩, hget, hhold⟩ := bind_eq_ok.mp h
  have hkept : t.lost = s.lost ∧ t.files = s.files := by
    unfold getCachedFile at hget
    cases hentry : s.getCachedEntry fileName ipAddr with
    | none =>
      rw [hentry] at hget
      cases hget
      exact ⟨rfl, rfl⟩
    | some entry =>
      simp only [hentry] at hget
      -- a copy from memory, or what the file holds
      split_ifs at hget with hram
      · obtain ⟨content, _, hcopy⟩ := bind_eq_ok.mp hget
        cases hcopy
        exact ⟨rfl, rfl⟩
      · cases hread : s.disk.read resolve fileName with
        | none =>
          simp only [hread] at hget
          cases hget
          exact ⟨rfl, rfl⟩
        | some content =>
          simp only [hread] at hget
          cases hget
          exact ⟨rfl, rfl⟩
  cases hhold
  refine ⟨hkept.1, ?_⟩
  show (t.files ++ [file]).length = _
  rw [hkept.2, List.length_append]
  rfl

theorem run_cons {s₁ : Memory F} {op : Op} (hstep : s.step resolve op = .ok s₁) (ops : List Op) :
    s.run resolve (op :: ops) = s₁.run resolve ops := by
  rw [run, List.foldlM_cons, hstep]
  rfl

/-- A new `RawFile` is behind the others. -/
theorem Sound.newFile (hs : s.Sound) (resolve : Bytes → F) (name data : Bytes) :
    ∃ s₁ file, s.step resolve (.newFile name data false) = .ok s₁ ∧ s₁.Sound ∧
      s₁.lost = s.lost ∧ s₁.files = s.files ++ [file] ∧
      file.destroyed = false ∧ file.data.isSome := by
  obtain ⟨s₁, hstep, hsound, _⟩ : StepsWell resolve s (.newFile name data false) :=
    hs.step_newFile name data false
  have hnew := hstep
  cases hnew
  exact ⟨_, _, hstep, hsound, rfl, rfl, rfl, rfl⟩

/-- What a call does to the number of arrays that are lost and of those that the caller has. -/
theorem Sound.call (hs : s.Sound) (resolve : Bytes → F) (c : CacheCall) :
    ∃ s', s.call resolve c = .ok s' ∧ s'.Sound ∧
      s'.lostArrays = s.lostArrays + (if c.losesArray then 1 else 0) ∧
      s'.files.length = s.files.length + (if c.fetches then 1 else 0) := by
  cases c with
  -- a new `RawFile`, which goes at the end of the call
  | addToFileFS name data =>
    obtain ⟨s₁, file, hnew, hs₁, hlost, hfiles, hlive, hdata⟩ := hs.newFile resolve name data
    have howns : file.owns = file.data := if_neg (by simp [hlive])
    have hdrop := drop_last resolve hfiles
    obtain ⟨s₂, hstep, hs₂, _⟩ : StepsWell resolve s₁ (.drop s.files.length) :=
      hs₁.step_drop s.files.length
    rw [hdrop] at hstep
    cases hstep
    refine ⟨_, (run_cons hnew _).trans (run_cons hdrop _), hs₂, ?_, rfl⟩
    rw [lostArrays_cons (s := s) (congrArg (file.owns :: ·) hlost), howns, hdata]
    rfl
  | addToFileCache name data ipAddr memoryShort created =>
    obtain ⟨s₁, file, hnew, hs₁, hlost, hfiles, hlive, hdata⟩ := hs.newFile resolve name data
    have howns : file.owns = file.data := if_neg (by simp [hlive])
    have hfile : s₁.files[s.files.length]? = some file := by
      rw [hfiles]
      exact List.getElem?_concat_length
    -- the new `RawFile` has its array, and is not destroyed
    have hcareful : s₁.Careful (.add s.files.length ipAddr memoryShort created) := by
      intro file' hfile'
      rw [hfile, Option.some.injEq] at hfile'
      subst hfile'
      refine ⟨fun hdangling => ?_, fun hnull => ?_⟩
      · cases hlive.symm.trans hdangling.1
      · rw [hnull] at hdata
        cases hdata
    obtain ⟨s₂, hadd, hs₂, _⟩ :
        StepsWell resolve s₁ (.add s.files.length ipAddr memoryShort created) :=
      hs₁.step_add s.files.length ipAddr memoryShort created hcareful
    obtain ⟨hlost₂, hset⟩ := frame_add hfile hadd
    have hfiles₂ : s₂.files = s.files ++ [if memoryShort then file else
        { file with data := none, fileSize := 0, destroyed := true }] := by
      rw [hset, hfiles, List.set_append_right _ _ le_rfl, Nat.sub_self]
      rfl
    have hdrop := drop_last resolve hfiles₂
    obtain ⟨s₃, hstep, hs₃, _⟩ : StepsWell resolve s₂ (.drop s.files.length) :=
      hs₂.step_drop s.files.length
    rw [hdrop] at hstep
    cases hstep
    refine ⟨_, (run_cons hnew _).trans ((run_cons hadd _).trans (run_cons hdrop _)), hs₃, ?_, rfl⟩
    rw [lostArrays_cons (s := s) (congrArg (_ :: ·) (hlost₂.trans hlost))]
    cases memoryShort with
    | false => rfl
    | true =>
      rw [if_pos rfl, howns, hdata]
      rfl
  -- the `RawFile` that is returned stays with the caller
  | getCachedFile name ipAddr =>
    obtain ⟨s₁, hget, hs₁, _⟩ : StepsWell resolve s (.get (cStr name) ipAddr) :=
      hs.step_get (cStr name) ipAddr
    obtain ⟨hlost, hfiles⟩ := frame_get hget
    refine ⟨s₁, run_cons hget [], hs₁, ?_, hfiles⟩
    unfold lostArrays
    rw [hlost]
    rfl

theorem Sound.calls (hs : s.Sound) (resolve : Bytes → F) (cs : List CacheCall) :
    ∃ s', s.calls resolve cs = .ok s' ∧ s'.Sound ∧
      s'.lostArrays = s.lostArrays + cs.countP CacheCall.losesArray ∧
      s'.files.length = s.files.length + cs.countP CacheCall.fetches := by
  induction cs generalizing s with
  | nil => exact ⟨s, rfl, hs, rfl, rfl⟩
  | cons c cs ih =>
    obtain ⟨s₁, hcall, hs₁, hlost₁, hfiles₁⟩ := hs.call resolve c
    obtain ⟨s₂, hcalls, hs₂, hlost₂, hfiles₂⟩ := ih hs₁
    refine ⟨s₂, ?_, hs₂, ?_, ?_⟩
    · show (c :: cs).foldlM (Memory.call resolve) s = _
      rw [List.foldlM_cons, hcall]
      exact hcalls
    · rw [hlost₂, hlost₁, List.countP_cons]
      omega
    · rw [hfiles₂, hfiles₁, List.countP_cons]
      omega

end

end Memory

/-- Whatever is called through the C interface, in any order: no array is deleted twice, read after
it was deleted or read past its end. Lost are the arrays of `AddToFileFS`, and of the files that
`AddToFileCache` puts on the disk or fails to; all others belong to an entry or to the caller of
`GetCachedFile`. -/
theorem c_api_memory {F : Type} [DecidableEq F] (resolve : Bytes → F) (localCacheDirectory : Bytes)
    (disk : Disk F) (cs : List CApi.CacheCall) :
    ∃ s, (Memory.fresh localCacheDirectory disk).calls resolve cs = .ok s ∧
      Owned s.blocks s.owners ∧
      s.lostArrays = cs.countP CApi.CacheCall.losesArray ∧
      s.files.length = cs.countP CApi.CacheCall.fetches := by
  obtain ⟨s, hcalls, hs, hlost, hfiles⟩ :=
    (Memory.fresh_sound localCacheDirectory disk).calls resolve cs
  refine ⟨s, hcalls, hs.owned, ?_, ?_⟩
  · rw [hlost]
    exact Nat.zero_add _
  · rw [hfiles]
    exact Nat.zero_add _

end Guthi
