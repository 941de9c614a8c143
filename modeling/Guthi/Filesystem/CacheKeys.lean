import Guthi.Filesystem.Cache
import Guthi.Lib.Run

/-!
# Guthi — keys of the cache

An entry of the cache belongs to a file name and an address. The three scans of
`filesystem/cache.cpp` start at the first entry of the name, run to the end of the map, and
compare addresses only. This module says when they nevertheless treat the map as one that is
keyed by both.

* `removesExactly_iff` — `RemoveFromCache` takes an entry of the key and nothing else, unless an
  entry of a later name stands in for a missing one;
* `answers_of_meets` — adds and removals of a key balance along every run of such removals;
* `lookupsAgree_iff` — `IsFileCached` and `GetCachedEntry` agree with the entries only for names
  that are not cached at all.
-/

namespace Guthi

namespace FileCache

/-- The entry is one of the given name and address. -/
def IsFor (name : Bytes) (ipAddr : Ipv4) (e : Bytes × FileCacheEntry) : Prop :=
  e.1 = name ∧ e.2.ipAddr = ipAddr

/-- A key can be compared. -/
instance instDecidableIsFor (name : Bytes) (ipAddr : Ipv4) (e : Bytes × FileCacheEntry) :
    Decidable (IsFor name ipAddr e) := by
  unfold IsFor
  infer_instance

/-- `RemoveFromCache(file_name, ip_addr)`: what it returns and the cache it leaves. -/
def removeFromCache (cache : FileCache) (fileName : Bytes) (ipAddr : Ipv4) : Bool × FileCache :=
  if cache.offlineCache.count fileName = 0 then (false, cache)
  else
    -- the first entry from `lower_bound` on with this address, whatever its name is
    match (cache.offlineCache.lowerBound fileName).find? fun e => ipAddr = e.2.ipAddr with
    | none => (false, cache)
    | some _ =>
      (true, { cache with
        offlineCache := cache.offlineCache.eraseFrom fileName fun e => ipAddr = e.2.ipAddr })

variable {cache : FileCache} {name : Bytes} {ipAddr : Ipv4}

/-! ## One removal -/

/-- What a removal of a key should do: it succeeds if there is an entry of the key, and then one
such entry goes; otherwise nothing happens. -/
structure RemovesExactly (cache : FileCache) (name : Bytes) (ipAddr : Ipv4) : Prop where
  returns : (cache.removeFromCache name ipAddr).1 = true ↔
    ∃ e ∈ cache.offlineCache.entries, IsFor name ipAddr e
  removes : (cache.removeFromCache name ipAddr).1 = true → ∃ e pre post, IsFor name ipAddr e ∧
    cache.offlineCache.entries = pre ++ e :: post ∧
    (cache.removeFromCache name ipAddr).2.offlineCache.entries = pre ++ post
  keeps : (cache.removeFromCache name ipAddr).1 = false →
    (cache.removeFromCache name ipAddr).2 = cache

/-- There is an entry of the key, or the scan does not start, or it finds nothing. -/
def NoStandIn (cache : FileCache) (name : Bytes) (ipAddr : Ipv4) : Prop :=
  (∃ e ∈ cache.offlineCache.entries, IsFor name ipAddr e) ∨
  (∀ e ∈ cache.offlineCache.entries, e.1 ≠ name) ∨
  ∀ e ∈ cache.offlineCache.entries, name ≤ e.1 → e.2.ipAddr ≠ ipAddr

/-- The condition can be evaluated on a cache. -/
instance instDecidableNoStandIn (cache : FileCache) (name : Bytes) (ipAddr : Ipv4) :
    Decidable (cache.NoStandIn name ipAddr) := by
  unfold NoStandIn
  infer_instance

/-- Without an entry of the name, nothing is searched. -/
theorem removeFromCache_of_absent (h : ∀ e ∈ cache.offlineCache.entries, e.1 ≠ name) :
    cache.removeFromCache name ipAddr = (false, cache) := by
  unfold removeFromCache
  rw [if_pos (Multimap.count_eq_zero.mpr h)]

/-- Without an entry of the address from the name on, nothing is found. -/
theorem removeFromCache_of_unmatched
    (h : ∀ e ∈ cache.offlineCache.entries, name ≤ e.1 → e.2.ipAddr ≠ ipAddr) :
    cache.removeFromCache name ipAddr = (false, cache) := by
  have hnone : ((cache.offlineCache.lowerBound name).find? fun e => ipAddr = e.2.ipAddr) =
      none := by
    apply List.find?_eq_none.mpr
    intro e he
    have hne := h e (Multimap.mem_lowerBound.mp he).1 (Multimap.mem_lowerBound.mp he).2
    simpa using Ne.symm hne
  unfold removeFromCache
  rw [hnone, ite_self]

/-- The scan ends at the first entry from the name on with the address, and that entry goes. -/
theorem removeFromCache_of_match {b c : Bytes × FileCacheEntry}
    (hb : b ∈ cache.offlineCache.entries) (hname : b.1 = name)
    (hc : c ∈ cache.offlineCache.entries) (hle : name ≤ c.1) (hip : c.2.ipAddr = ipAddr) :
    (cache.removeFromCache name ipAddr).1 = true ∧
    ∃ e pre post, e.2.ipAddr = ipAddr ∧ name ≤ e.1 ∧ e.1 ≤ c.1 ∧
      cache.offlineCache.entries = pre ++ e :: post ∧
      (cache.removeFromCache name ipAddr).2.offlineCache.entries = pre ++ post := by
  have hcount : cache.offlineCache.count name ≠ 0 := fun hzero =>
    Multimap.count_eq_zero.mp hzero b hb hname
  unfold removeFromCache
  rw [if_neg hcount]
  cases hfind : (cache.offlineCache.lowerBound name).find? fun e => ipAddr = e.2.ipAddr with
  -- the scan cannot have missed `c`
  | none =>
    have hnot := List.find?_eq_none.mp hfind c (Multimap.mem_lowerBound.mpr ⟨hc, hle⟩)
    exact absurd hip.symm (by simpa using hnot)
  | some e =>
    have hmem := Multimap.mem_lowerBound.mp (List.mem_of_find?_eq_some hfind)
    have heip : ipAddr = e.2.ipAddr := by simpa using List.find?_some hfind
    obtain ⟨pre, post, hsplit, hleft⟩ := Multimap.eraseFrom_split hfind
    have hfirst : e.1 ≤ c.1 := Multimap.find?_lowerBound_le hfind hc hle (by simpa using hip.symm)
    exact ⟨rfl, e, pre, post, heip.symm, hmem.2, hfirst, hsplit, hleft⟩

/-- Removing nothing is right if there is nothing to remove. -/
theorem removesExactly_of_unchanged (h : cache.removeFromCache name ipAddr = (false, cache))
    (hmissing : ¬ ∃ e ∈ cache.offlineCache.entries, IsFor name ipAddr e) :
    cache.RemovesExactly name ipAddr where
  returns := by
    rw [h]
    exact ⟨fun hfalse => (nomatch hfalse), fun hex => absurd hex hmissing⟩
  removes htrue := by
    rw [h] at htrue
    cases htrue
  keeps _ := by rw [h]

/-- For every state of the cache and every key: `RemoveFromCache` removes exactly the requested
entry if and only if no entry of a later name with the address stands in for a missing one. -/
theorem removesExactly_iff (cache : FileCache) (name : Bytes) (ipAddr : Ipv4) :
    cache.RemovesExactly name ipAddr ↔ cache.NoStandIn name ipAddr := by
  constructor
  · intro h
    by_contra hstand
    simp only [NoStandIn, not_or, not_forall, not_not] at hstand
    obtain ⟨hmissing, ⟨b, hb, hname⟩, c, hc, hle, hip⟩ := hstand
    exact hmissing (h.returns.mp (removeFromCache_of_match hb hname hc hle hip).1)
  · -- the entry is there; no entry has the name; or none has the address
    rintro (⟨c, hc, hname, hip⟩ | habsent | hunmatched)
    · obtain ⟨htrue, e, pre, post, heip, hge, hle, hsplit, hleft⟩ :=
        removeFromCache_of_match hc hname hc (le_of_eq hname.symm) hip
      have hfor : IsFor name ipAddr e := ⟨le_antisymm (hname ▸ hle) hge, heip⟩
      exact {
        returns := ⟨fun _ => ⟨c, hc, hname, hip⟩, fun _ => htrue⟩
        removes := fun _ => ⟨e, pre, post, hfor, hsplit, hleft⟩
        keeps := fun hfalse => by rw [htrue] at hfalse; cases hfalse }
    · apply removesExactly_of_unchanged (removeFromCache_of_absent habsent)
      rintro ⟨e, he, hname, _⟩
      exact habsent e he hname
    · apply removesExactly_of_unchanged (removeFromCache_of_unmatched hunmatched)
      rintro ⟨e, he, hname, hip⟩
      exact hunmatched e he (le_of_eq hname.symm) hip

/-! ## Runs -/

/-- The number of entries of a key. -/
def entriesFor (cache : FileCache) (name : Bytes) (ipAddr : Ipv4) : Nat :=
  cache.offlineCache.entries.countP fun e => IsFor name ipAddr e

/-- There are entries of a key if there is one. -/
theorem entriesFor_pos : 0 < cache.entriesFor name ipAddr ↔
    ∃ e ∈ cache.offlineCache.entries, IsFor name ipAddr e := by
  unfold entriesFor
  simp [List.countP_pos_iff]

/-- What a removal returns, by the number of entries. -/
theorem RemovesExactly.returns_eq (h : cache.RemovesExactly name ipAddr) :
    (cache.removeFromCache name ipAddr).1 = decide (0 < cache.entriesFor name ipAddr) := by
  apply Bool.eq_iff_iff.mpr
  rw [h.returns, decide_eq_true_eq, entriesFor_pos]

/-- Such a removal takes one entry of its own key, if there is one, and none of another key. -/
theorem RemovesExactly.entriesFor_eq (h : cache.RemovesExactly name ipAddr) (n : Bytes)
    (ip : Ipv4) : (cache.removeFromCache name ipAddr).2.entriesFor n ip =
      cache.entriesFor n ip - if name = n ∧ ipAddr = ip then 1 else 0 := by
  cases hresult : (cache.removeFromCache name ipAddr).1 with
  | false =>
    rw [h.keeps hresult]
    split_ifs with hkey
    · -- nothing is removed because there is nothing to remove
      obtain ⟨rfl, rfl⟩ := hkey
      have hzero : ¬ 0 < cache.entriesFor name ipAddr := by
        rw [h.returns_eq] at hresult
        exact of_decide_eq_false hresult
      omega
    · rfl
  | true =>
    obtain ⟨e, pre, post, hfor, hsplit, hleft⟩ := h.removes hresult
    -- the entry that went, counted once
    have hcounts : cache.entriesFor n ip =
        (cache.removeFromCache name ipAddr).2.entriesFor n ip +
          if name = n ∧ ipAddr = ip then 1 else 0 := by
      unfold entriesFor
      have hkey : IsFor n ip e ↔ name = n ∧ ipAddr = ip := by rw [IsFor, hfor.1, hfor.2]
      rw [hsplit, hleft]
      simp only [List.countP_append, List.countP_cons, decide_eq_true_eq, hkey]
      exact (Nat.add_assoc _ _ _).symm
    omega

end FileCache

open FileCache

/-- A call that changes the cache. -/
inductive CacheOp where
  | add (file : RawFile) (ipAddr : Ipv4) (memoryShort created : Bool)
  | remove (name : Bytes) (ipAddr : Ipv4)

namespace CacheOp

/-- The call adds an entry of the key; it does not if the file for it cannot be created. -/
def Adds (name : Bytes) (ipAddr : Ipv4) : CacheOp → Prop
  | .add file ip memoryShort created =>
    file.fileName = name ∧ ip = ipAddr ∧ (memoryShort → created)
  | .remove _ _ => False

/-- The operation is a removal of this key. -/
def Removes (name : Bytes) (ipAddr : Ipv4) : CacheOp → Prop
  | .add _ _ _ _ => False
  | .remove n ip => n = name ∧ ip = ipAddr

/-- Both can be evaluated. -/
instance instDecidableAdds (name : Bytes) (ipAddr : Ipv4) (op : CacheOp) :
    Decidable (op.Adds name ipAddr) := by
  cases op <;> unfold Adds <;> infer_instance

instance instDecidableRemoves (name : Bytes) (ipAddr : Ipv4) (op : CacheOp) :
    Decidable (op.Removes name ipAddr) := by
  cases op <;> unfold Removes <;> infer_instance

variable {F : Type*} [DecidableEq F] (resolve : Bytes → F)

/-- One operation. -/
def apply (s : FileCache × Disk F) : CacheOp → FileCache × Disk F
  | .add file ip memoryShort created => s.1.addFileToCache resolve s.2 file ip memoryShort created
  | .remove name ip => ((s.1.removeFromCache name ip).2, s.2)

/-- Operations one after the other. -/
def run (s : FileCache × Disk F) (ops : List CacheOp) : FileCache × Disk F :=
  ops.foldl (apply resolve) s

/-- What the removals of a key return along a run. -/
def answers (name : Bytes) (ipAddr : Ipv4) : FileCache × Disk F → List CacheOp → List Bool
  | _, [] => []
  | s, op :: ops =>
    if op.Removes name ipAddr then
      (s.1.removeFromCache name ipAddr).1 :: answers name ipAddr (op.apply resolve s) ops
    else answers name ipAddr (op.apply resolve s) ops

/-- The answers to `n` removals when there are `k` entries to remove. -/
def firstSucceed (k n : Nat) : List Bool :=
  List.replicate (min k n) true ++ List.replicate (n - k) false

/-- The first removal succeeds if there is an entry, and leaves one less. -/
theorem firstSucceed_succ (k n : Nat) :
    firstSucceed k (n + 1) = decide (0 < k) :: firstSucceed (k - 1) n := by
  unfold firstSucceed
  cases k with
  | zero => simp [List.replicate_succ]
  | succ k =>
    rw [Nat.succ_min_succ, List.replicate_succ, Nat.add_sub_add_right]
    simp

/-- A removal in this state is not led to an entry of a later name. -/
def Meets (s : FileCache × Disk F) : CacheOp → Prop
  | .add _ _ _ _ => True
  | .remove name ip => s.1.NoStandIn name ip

/-- The condition of a run can be evaluated. -/
instance instDecidableMeets (s : FileCache × Disk F) (op : CacheOp) : Decidable (Meets s op) := by
  cases op <;> unfold Meets <;> infer_instance

variable {resolve} {name : Bytes} {ipAddr : Ipv4} {s : FileCache × Disk F}

/-- An insertion adds one entry of its key. -/
theorem entriesFor_insert (cache : FileCache) (e : Bytes × FileCacheEntry) :
    FileCache.entriesFor { cache with offlineCache := cache.offlineCache.insert e.1 e.2 }
      name ipAddr = cache.entriesFor name ipAddr + if IsFor name ipAddr e then 1 else 0 := by
  unfold FileCache.entriesFor
  show (Multimap.insertEntry e cache.offlineCache.entries).countP _ = _
  rw [(Multimap.insertEntry_perm _ _).countP_eq]
  simp only [List.countP_cons, decide_eq_true_eq]

/-- One operation that does not remove the key adds an entry of it or leaves their number. -/
theorem entriesFor_apply {op : CacheOp} (hmeets : Meets s op) (hno : ¬ op.Removes name ipAddr) :
    (op.apply resolve s).1.entriesFor name ipAddr =
      s.1.entriesFor name ipAddr + if op.Adds name ipAddr then 1 else 0 := by
  cases op with
  | add file ip memoryShort created =>
    unfold apply FileCache.addFileToCache
    cases memoryShort with
    | false => simpa [Adds, IsFor] using entriesFor_insert s.1 (file.fileName, _)
    | true =>
      cases created with
      | false => simp [Adds]
      | true => simpa [Adds, IsFor] using entriesFor_insert s.1 (file.fileName, _)
  | remove n ip =>
    have hexact := (removesExactly_iff s.1 n ip).mpr hmeets
    show (s.1.removeFromCache n ip).2.entriesFor name ipAddr = _
    have hother : ¬ (n = name ∧ ip = ipAddr) := hno
    have hadds : ¬ (CacheOp.remove n ip).Adds name ipAddr := id
    rw [hexact.entriesFor_eq, if_neg hother, if_neg hadds]
    rfl

/-- Without removals of the key, its entries are those that were added. -/
theorem entriesFor_run {ops : List CacheOp}
    (hmeets : EachTry (fun s op => some (apply resolve s op)) Meets s ops)
    (hno : ∀ op ∈ ops, ¬ op.Removes name ipAddr) :
    (run resolve s ops).1.entriesFor name ipAddr =
      s.1.entriesFor name ipAddr + ops.countP fun op => op.Adds name ipAddr := by
  induction ops generalizing s with
  | nil => rfl
  | cons op ops ih =>
    have hstep : (op.apply resolve s).1.entriesFor name ipAddr = _ :=
      entriesFor_apply hmeets.1 (hno op (by simp))
    have hrest := ih (hmeets.2 _ rfl) fun o ho => hno o (by simp [ho])
    simp only [List.countP_cons, decide_eq_true_eq]
    show (run resolve (op.apply resolve s) ops).1.entriesFor name ipAddr = _
    omega

/-- Without adds of the key, as many of its removals succeed as there are entries of it, and all
later ones fail. -/
theorem answers_of_meets {ops : List CacheOp}
    (hmeets : EachTry (fun s op => some (apply resolve s op)) Meets s ops)
    (hno : ∀ op ∈ ops, ¬ op.Adds name ipAddr) :
    answers resolve name ipAddr s ops =
      firstSucceed (s.1.entriesFor name ipAddr)
        (ops.countP fun op => op.Removes name ipAddr) := by
  induction ops generalizing s with
  | nil => simp [answers, firstSucceed]
  | cons op ops ih =>
    have hrest := ih (hmeets.2 _ rfl) fun o ho => hno o (by simp [ho])
    unfold answers
    simp only [List.countP_cons, decide_eq_true_eq, hrest]
    by_cases hop : op.Removes name ipAddr
    · rw [if_pos hop, if_pos hop]
      cases op with
      | add => exact hop.elim
      | remove n ip =>
        -- a removal of the key: its answer is the next of the list
        obtain ⟨rfl, rfl⟩ := hop
        have hexact := (removesExactly_iff s.1 n ip).mpr hmeets.1
        have hcount : (apply resolve s (.remove n ip)).1.entriesFor n ip =
            s.1.entriesFor n ip - 1 := by
          show (s.1.removeFromCache n ip).2.entriesFor n ip = _
          rw [hexact.entriesFor_eq, if_pos ⟨rfl, rfl⟩]
        rw [hcount, hexact.returns_eq, firstSucceed_succ]
    · rw [if_neg hop, if_neg hop, entriesFor_apply hmeets.1 hop, if_neg (hno op (by simp))]
      rfl

theorem entriesFor_new (dir : Bytes) : (FileCache.new dir).entriesFor name ipAddr = 0 := rfl

/-- `RemoveFromCache` removes exactly the requested entry if and only if no entry of a later name
stands in for it. In every run all of whose removals meet this, the removals of a key that was
added `k` times before, and of which there are `n` afterwards, succeed as long as the `k` entries
last and fail from then on, whatever is done to other keys. -/
theorem removes_requested_entry (resolve : Bytes → F) :
    (∀ (cache : FileCache) (name : Bytes) (ipAddr : Ipv4),
      cache.RemovesExactly name ipAddr ↔ cache.NoStandIn name ipAddr) ∧
    ∀ (dir : Bytes) (disk : Disk F) (name : Bytes) (ipAddr : Ipv4) (before after : List CacheOp),
      (∀ op ∈ before, ¬ op.Removes name ipAddr) → (∀ op ∈ after, ¬ op.Adds name ipAddr) →
      EachTry (fun s op => some (apply resolve s op)) Meets (FileCache.new dir, disk)
        (before ++ after) →
      answers resolve name ipAddr (run resolve (FileCache.new dir, disk) before) after =
        firstSucceed (before.countP fun op => op.Adds name ipAddr)
          (after.countP fun op => op.Removes name ipAddr) := by
  refine ⟨removesExactly_iff, fun dir disk name ipAddr before after hbefore hafter hmeets => ?_⟩
  -- the adds are counted before, the answers afterwards
  obtain ⟨hfirst, hsecond⟩ := eachTry_append.mp hmeets
  rw [answers_of_meets (s := run resolve _ before) hsecond hafter, entriesFor_run hfirst hbefore,
    entriesFor_new, Nat.zero_add]

/-- A file of one byte, added in memory. -/
def exampleAdd (name : String) (ipAddr : Ipv4) : CacheOp :=
  .add { fileName := ascii name, fileSize := 1, data := some [some 7] } ipAddr false true

/-- Two adds of one key and one of another name, which is removed in between. -/
theorem removes_requested_entry_example :
    answers id (ascii "a") ⟨10, 0, 0, 1⟩
      (run id (FileCache.new [], fun _ : Bytes => none)
        [exampleAdd "a" ⟨10, 0, 0, 1⟩, exampleAdd "b" ⟨10, 0, 0, 1⟩,
          exampleAdd "a" ⟨10, 0, 0, 1⟩])
      [.remove (ascii "a") ⟨10, 0, 0, 1⟩, .remove (ascii "b") ⟨10, 0, 0, 1⟩,
        .remove (ascii "a") ⟨10, 0, 0, 1⟩, .remove (ascii "a") ⟨10, 0, 0, 1⟩] =
      [true, true, false] :=
  (removes_requested_entry id).2 [] (fun _ => none) (ascii "a") ⟨10, 0, 0, 1⟩ _ _ (by decide)
    (by decide) (by
      simp only [List.cons_append, List.nil_append, eachTry_cons_total]
      exact ⟨trivial, trivial, trivial, by decide, by decide, by decide, by decide, trivial⟩)

/-- An entry without data. -/
def exampleEntry (name : String) (ipAddr : Ipv4) : Bytes × FileCacheEntry :=
  (ascii name, { location := .onRAM, size := 1, ipAddr := ipAddr, fileName := ascii name })

/-- The entry of another file and address is removed in place of one that is not there. -/
theorem removeFromCache_removes_stand_in :
    ¬ RemovesExactly ⟨[], Multimap.ofList [exampleEntry "a" ⟨10, 0, 0, 2⟩,
      exampleEntry "b" ⟨10, 0, 0, 1⟩]⟩ (ascii "a") ⟨10, 0, 0, 1⟩ := by
  intro h
  exact absurd (h.returns.mp (by decide)) (by decide)

end CacheOp

/-! ## The lookups -/

namespace FileCache

/-- What the lookups of a key should say: the two agree, they say that there is an entry of the
key exactly if there is one, and the entry they give is one of the key. -/
structure LookupsAgree (cache : FileCache) (name : Bytes) (ipAddr : Ipv4) : Prop where
  same : cache.isFileCached name ipAddr = true ↔ cache.getCachedEntry name ipAddr ≠ none
  stored : cache.isFileCached name ipAddr = true ↔
    ∃ e ∈ cache.offlineCache.entries, IsFor name ipAddr e
  own : ∀ e, cache.getCachedEntry name ipAddr = some e → e.fileName = name ∧ e.ipAddr = ipAddr

variable (cache : FileCache) (name : Bytes) (ipAddr : Ipv4)

/-- The two lookups always agree with each other. -/
theorem isFileCached_eq_isSome :
    cache.isFileCached name ipAddr = (cache.getCachedEntry name ipAddr).isSome := by
  unfold isFileCached getCachedEntry
  split_ifs
  · rfl
  · rw [Option.isSome_map]

/-- What `GetCachedEntry` finds never has the address that was asked for. -/
theorem getCachedEntry_ip_ne {e : FileCacheEntry}
    (h : cache.getCachedEntry name ipAddr = some e) : e.ipAddr ≠ ipAddr := by
  unfold getCachedEntry at h
  split_ifs at h
  obtain ⟨b, hb, rfl⟩ := Option.map_eq_some_iff.mp h
  have hne := List.find?_some hb
  exact Ne.symm (by simpa using hne)

/-- Both comparisons are the wrong way round: the lookups of a key are right exactly if nothing
is cached under its name. -/
theorem lookupsAgree_iff :
    cache.LookupsAgree name ipAddr ↔ ∀ e ∈ cache.offlineCache.entries, e.1 ≠ name := by
  have hsame : cache.isFileCached name ipAddr = true ↔
      cache.getCachedEntry name ipAddr ≠ none := by
    rw [isFileCached_eq_isSome, Option.isSome_iff_ne_none]
  constructor
  · intro h b hb hname
    cases hentry : cache.getCachedEntry name ipAddr with
    | some e =>
      -- what is found has another address
      exact getCachedEntry_ip_ne cache name ipAddr hentry (h.own e hentry).2
    | none =>
      -- nothing from the name on has another address, so `b` has this one
      have hcount : cache.offlineCache.count name ≠ 0 := fun hzero =>
        Multimap.count_eq_zero.mp hzero b hb hname
      unfold getCachedEntry findEntry at hentry
      rw [if_neg hcount, Option.map_eq_none_iff, List.find?_eq_none] at hentry
      have hip := hentry b (Multimap.mem_lowerBound.mpr ⟨hb, le_of_eq hname.symm⟩)
      have hfound := h.stored.mpr ⟨b, hb, hname, Eq.symm (by simpa using hip)⟩
      rw [isFileCached, if_neg hcount, findEntry, List.find?_eq_none.mpr hentry] at hfound
      cases hfound
  · -- without an entry of the name both find nothing, which is right
    intro habsent
    have hcount := Multimap.count_eq_zero.mpr habsent
    refine ⟨hsame, ?_, ?_⟩
    · rw [isFileCached, if_pos hcount]
      refine ⟨fun hfalse => (nomatch hfalse), ?_⟩
      rintro ⟨e, he, hname, _⟩
      exact absurd hname (habsent e he)
    · intro e he
      rw [getCachedEntry, if_pos hcount] at he
      cases he

/-- One file is cached for one node: it is not found for that node, and it is for another. -/
theorem lookups_find_other_node :
    ¬ LookupsAgree (CacheOp.run id (FileCache.new [], fun _ : Bytes => none)
      [CacheOp.exampleAdd "a" ⟨10, 0, 0, 1⟩]).1 (ascii "a") ⟨10, 0, 0, 1⟩ ∧
    ¬ LookupsAgree (CacheOp.run id (FileCache.new [], fun _ : Bytes => none)
      [CacheOp.exampleAdd "a" ⟨10, 0, 0, 1⟩]).1 (ascii "a") ⟨10, 0, 0, 2⟩ := by
  refine ⟨fun h => ?_, fun h => ?_⟩
  · exact absurd (h.stored.mpr (by decide)) (by decide)
  · exact absurd (h.stored.mp (by decide)) (by decide)

end FileCache

end Guthi
