import Mathlib.Data.List.MinMax
import Mathlib.Tactic

/-!
# Guthi — ordered multimaps

`std::multimap` as a list that is sorted by key. A new entry goes behind the entries of its
key, so entries of one key stand in the order of their insertion.

* `insert`, `count`, `lowerBound` — the operations; a search that starts at `lower_bound` and is
  not stopped at `upper_bound` runs to the end of the map;
* `eraseFrom` — erase the entry that such a search finds; `eraseFrom_split` says what is left;
* `find?_lowerBound_ofList` — what such a search finds, said without the map: of all entries
  from the key on that pass the test, one with the least key, and of these the oldest;
* `mapValues` — the same map with other values, which the operations go along with.
-/

namespace Guthi

variable {κ ν : Type*} [LinearOrder κ]

/-- Entries in the order of their keys; a key can have several. -/
structure Multimap (κ ν : Type*) [LinearOrder κ] where
  entries : List (κ × ν)
  sorted : entries.Pairwise fun a b => a.1 ≤ b.1

/-- The earliest element among those with the least value of `f`. -/
def earliestLeast {α : Type*} (f : α → κ) (l : List α) : Option α := l.argmin f

section

variable {α : Type*} {f : α → κ} {l : List α} {a b : α}

/-- There is a least element unless there is none at all. -/
theorem earliestLeast_eq_none : earliestLeast f l = none ↔ l = [] := List.argmin_eq_none

theorem earliestLeast_mem (h : earliestLeast f l = some a) : a ∈ l := List.argmin_mem h

/-- No other element has a lesser value. -/
theorem earliestLeast_le (h : earliestLeast f l = some a) (hb : b ∈ l) : f a ≤ f b :=
  List.le_of_mem_argmin hb h

end

namespace Multimap

/-- Put an entry in front of the first entry with a greater key. -/
def insertEntry (e : κ × ν) : List (κ × ν) → List (κ × ν)
  | [] => [e]
  | b :: l => if e.1 < b.1 then e :: b :: l else b :: insertEntry e l

/-- An insertion adds the entry and keeps all others. -/
theorem insertEntry_perm (e : κ × ν) (l : List (κ × ν)) : (insertEntry e l).Perm (e :: l) := by
  induction l with
  | nil => exact List.Perm.refl _
  | cons b l ih =>
    rw [insertEntry]
    -- in front of the first greater key, or further on
    split_ifs with hlt
    · exact List.Perm.refl _
    · exact (List.Perm.cons b ih).trans (List.Perm.swap e b l)

theorem insertEntry_sorted (e : κ × ν) {l : List (κ × ν)}
    (hl : l.Pairwise fun a b => a.1 ≤ b.1) :
    (insertEntry e l).Pairwise fun a b => a.1 ≤ b.1 := by
  induction l with
  | nil => exact List.pairwise_singleton _ _
  | cons b l ih =>
    rw [List.pairwise_cons] at hl
    rw [insertEntry]
    split_ifs with hlt
    -- in front of `b`, all that follows has a greater key
    · refine List.pairwise_cons.mpr ⟨fun c hc => ?_, List.pairwise_cons.mpr hl⟩
      rcases List.mem_cons.mp hc with rfl | hc
      · exact hlt.le
      · exact hlt.le.trans (hl.1 c hc)
    · -- behind `b`, which is not above the new entry nor above the others
      refine List.pairwise_cons.mpr ⟨fun c hc => ?_, ih hl.2⟩
      rcases List.mem_cons.mp ((insertEntry_perm e l).mem_iff.mp hc) with rfl | hc
      · exact not_lt.mp hlt
      · exact hl.1 c hc

/-- A filter sees an insertion as an insertion into what it keeps. -/
theorem filter_insertEntry (q : κ × ν → Bool) (e : κ × ν) {l : List (κ × ν)}
    (hl : l.Pairwise fun a b => a.1 ≤ b.1) :
    (insertEntry e l).filter q = if q e then insertEntry e (l.filter q) else l.filter q := by
  induction l with
  | nil => by_cases hq : q e = true <;> simp [insertEntry, hq]
  | cons b l ih =>
    rw [List.pairwise_cons] at hl
    rw [insertEntry]
    by_cases hlt : e.1 < b.1
    · rw [if_pos hlt]
      by_cases hq : q e = true
      · -- everything the filter keeps of the tail has a greater key too
        have hfront : ∀ l' : List (κ × ν), (∀ c ∈ l', e.1 < c.1) → insertEntry e l' = e :: l' := by
          intro l' hl'
          cases l' with
          | nil => rfl
          | cons c l' => rw [insertEntry, if_pos (hl' c (by simp))]
        rw [if_pos hq, List.filter_cons_of_pos hq, hfront]
        intro c hc
        rcases List.mem_cons.mp (List.mem_of_mem_filter hc) with rfl | hc
        · exact hlt
        · exact hlt.trans_le (hl.1 c hc)
      · rw [if_neg hq, List.filter_cons_of_neg hq]
    · -- `b` stays in front on both sides
      rw [if_neg hlt, List.filter_cons, List.filter_cons, ih hl.2]
      by_cases hb : q b = true <;> by_cases hq : q e = true <;> simp [hb, hq, insertEntry, hlt]

/-- An insertion changes the first entry only if the new key is less. -/
theorem head?_insertEntry (e : κ × ν) (l : List (κ × ν)) :
    (insertEntry e l).head? = match l.head? with
      | none => some e
      | some b => if e.1 < b.1 then some e else some b := by
  cases l with
  | nil => rfl
  | cons b l =>
    rw [insertEntry, List.head?_cons]
    by_cases hlt : e.1 < b.1 <;> simp [hlt]

/-! ## The operations -/

/-- The multimap of a container that was just made. -/
def empty : Multimap κ ν := ⟨[], List.Pairwise.nil⟩

/-- `insert({k, v})`: behind the entries of the same key. -/
def insert (m : Multimap κ ν) (k : κ) (v : ν) : Multimap κ ν :=
  ⟨insertEntry (k, v) m.entries, insertEntry_sorted (k, v) m.sorted⟩

/-- `count(k)`. -/
def count (m : Multimap κ ν) (k : κ) : Nat := m.entries.countP fun e => e.1 = k

/-- The entries from `lower_bound(k)` to the end of the map. -/
def lowerBound (m : Multimap κ ν) (k : κ) : List (κ × ν) := m.entries.dropWhile fun e => e.1 < k

/-- What is from `lower_bound(k)` on are the entries whose keys are not below `k`. -/
theorem lowerBound_eq_filter (m : Multimap κ ν) (k : κ) :
    m.lowerBound k = m.entries.filter fun e => k ≤ e.1 := by
  obtain ⟨l, hl⟩ := m
  show l.dropWhile _ = l.filter _
  induction l with
  | nil => rfl
  | cons b l ih =>
    rw [List.pairwise_cons] at hl
    -- the entries below `k` are in front, since the list is sorted
    by_cases hlt : b.1 < k
    · rw [List.dropWhile_cons_of_pos (by simpa using hlt), ih hl.2,
        List.filter_cons_of_neg (by simpa using hlt)]
    · rw [List.dropWhile_cons_of_neg (by simpa using hlt), List.filter_eq_self.mpr]
      intro c hc
      rcases List.mem_cons.mp hc with rfl | hc
      · simpa using hlt
      · simpa using (not_lt.mp hlt).trans (hl.1 c hc)

/-- The entries below `k`, and the others. -/
theorem takeWhile_append_lowerBound (m : Multimap κ ν) (k : κ) :
    (m.entries.takeWhile fun e => e.1 < k) ++ m.lowerBound k = m.entries :=
  List.takeWhile_append_dropWhile

/-- Erase the first entry from `lower_bound(k)` on that passes the test. -/
def eraseFrom (m : Multimap κ ν) (k : κ) (p : κ × ν → Bool) : Multimap κ ν where
  entries := (m.entries.takeWhile fun e => e.1 < k) ++ (m.lowerBound k).eraseP p
  sorted := by
    -- what is left is a part of the map in the same order
    have hsub := (List.Sublist.refl (m.entries.takeWhile fun e => e.1 < k)).append
      (List.eraseP_sublist (p := p) (l := m.lowerBound k))
    rw [takeWhile_append_lowerBound] at hsub
    exact m.sorted.sublist hsub

/-- One entry goes, the one that the search finds, and all others stay as they are. -/
theorem eraseFrom_split {m : Multimap κ ν} {k : κ} {p : κ × ν → Bool} {e : κ × ν}
    (h : (m.lowerBound k).find? p = some e) :
    ∃ pre post, m.entries = pre ++ e :: post ∧ (m.eraseFrom k p).entries = pre ++ post := by
  obtain ⟨he, before, post, hlist, hbefore⟩ := List.find?_eq_some_iff_append.mp h
  -- in front of the entry are those below `k`, and those that fail the test
  refine ⟨(m.entries.takeWhile fun b => b.1 < k) ++ before, post, ?_, ?_⟩
  · rw [List.append_assoc, ← hlist, takeWhile_append_lowerBound]
  · have hnot : ∀ b ∈ before, ¬ p b = true := fun b hb => by simpa using hbefore b hb
    show _ ++ (m.lowerBound k).eraseP p = _
    rw [hlist, List.eraseP_append_right _ hnot, List.eraseP_cons_of_pos he, List.append_assoc]

/-- Membership in what a search from `lower_bound(k)` walks over. -/
theorem mem_lowerBound {m : Multimap κ ν} {k : κ} {e : κ × ν} :
    e ∈ m.lowerBound k ↔ e ∈ m.entries ∧ k ≤ e.1 := by
  rw [lowerBound_eq_filter, List.mem_filter, decide_eq_true_eq]

/-- The search finds an entry with the least key among those that pass the test. -/
theorem find?_lowerBound_le {m : Multimap κ ν} {k : κ} {p : κ × ν → Bool} {e b : κ × ν}
    (h : (m.lowerBound k).find? p = some e) (hb : b ∈ m.entries) (hk : k ≤ b.1)
    (hp : p b = true) : e.1 ≤ b.1 := by
  have hsorted : (m.lowerBound k).Pairwise fun a b => a.1 ≤ b.1 :=
    m.sorted.sublist (List.dropWhile_sublist _)
  have hmem : b ∈ m.lowerBound k := mem_lowerBound.mpr ⟨hb, hk⟩
  obtain ⟨_, before, post, hlist, hbefore⟩ := List.find?_eq_some_iff_append.mp h
  -- `b` is not in front of what was found, where all fail the test
  rw [hlist] at hsorted hmem
  rcases List.mem_append.mp hmem with hbf | hpost
  · exact absurd hp (by simpa using hbefore b hbf)
  · rcases List.mem_cons.mp hpost with rfl | hpost
    · exact le_refl _
    · exact (List.pairwise_cons.mp (List.pairwise_append.mp hsorted).2.1).1 b hpost

/-- `count(k)` is zero exactly if no entry has the key. -/
theorem count_eq_zero {m : Multimap κ ν} {k : κ} : m.count k = 0 ↔ ∀ e ∈ m.entries, e.1 ≠ k := by
  simp [count]

/-- The map after these insertions, first to last. -/
def ofList (adds : List (κ × ν)) : Multimap κ ν := adds.foldl (fun m e => m.insert e.1 e.2) empty

/-- The last insertion is made into the map of the others. -/
theorem ofList_concat (adds : List (κ × ν)) (e : κ × ν) :
    ofList (adds ++ [e]) = (ofList adds).insert e.1 e.2 := by
  rw [ofList, List.foldl_append]
  rfl

/-- Everything that was inserted is there, and nothing else. -/
theorem entries_ofList_perm (adds : List (κ × ν)) : (ofList adds).entries.Perm adds := by
  induction adds using List.reverseRecOn with
  | nil => exact List.Perm.refl _
  | append_singleton adds e ih =>
    rw [ofList_concat]
    exact ((insertEntry_perm _ _).trans (List.Perm.cons _ ih)).trans
      (List.perm_append_singleton e adds).symm

theorem count_ofList_eq_zero {adds : List (κ × ν)} {k : κ} :
    (ofList adds).count k = 0 ↔ ∀ e ∈ adds, e.1 ≠ k := by
  rw [count_eq_zero]
  simp [(entries_ofList_perm adds).mem_iff]

/-- The first entry of the map that passes a test is, among those inserted, the oldest with the
least key. -/
theorem head?_filter_ofList (q : κ × ν → Bool) (adds : List (κ × ν)) :
    ((ofList adds).entries.filter q).head? = earliestLeast Prod.fst (adds.filter q) := by
  unfold earliestLeast
  induction adds using List.reverseRecOn with
  | nil => rfl
  | append_singleton adds e ih =>
    rw [ofList_concat, List.filter_append]
    show ((insertEntry e (ofList adds).entries).filter q).head? = _
    rw [filter_insertEntry q e (ofList adds).sorted]
    by_cases hq : q e = true
    · -- `argmin` too lets an older element of the same key stand
      rw [if_pos hq, head?_insertEntry, ih, List.filter_cons_of_pos hq, List.filter_nil,
        List.argmin_concat]
      cases (adds.filter q).argmin Prod.fst <;> rfl
    · rw [if_neg hq, List.filter_cons_of_neg hq, List.filter_nil, List.append_nil, ih]

/-- A search from `lower_bound(k)` to the end of the map finds, of all entries from `k` on that
pass the test, the oldest of those with the least key. -/
theorem find?_lowerBound_ofList (k : κ) (p : κ × ν → Bool) (adds : List (κ × ν)) :
    ((ofList adds).lowerBound k).find? p =
      earliestLeast Prod.fst (adds.filter fun e => k ≤ e.1 ∧ p e) := by
  rw [lowerBound_eq_filter, ← List.head?_filter, List.filter_filter, head?_filter_ofList]
  congr 2
  funext e
  simp [Bool.and_comm]

/-- The earliest least element of an image is the image of the earliest least element. -/
theorem earliestLeast_map {α β : Type*} (f : β → κ) (g : α → β) (l : List α) :
    earliestLeast f (l.map g) = (earliestLeast (fun a => f (g a)) l).map g := by
  unfold earliestLeast
  induction l using List.reverseRecOn with
  | nil => rfl
  | append_singleton l a ih =>
    rw [List.map_append, List.map_singleton, List.argmin_concat, List.argmin_concat, ih]
    cases l.argmin fun a => f (g a) with
    | none => rfl
    -- `argmin` compares the last element with the best so far
    | some c => simp only [Option.map_some]; split_ifs <;> rfl

/-- The same for entries that are built from other data. -/
theorem find?_lowerBound_ofList_map {α : Type*} (g : α → κ × ν) (k : κ) (p : κ × ν → Bool)
    (l : List α) : ((ofList (l.map g)).lowerBound k).find? p =
      (earliestLeast (fun a => (g a).1) (l.filter fun a => k ≤ (g a).1 ∧ p (g a))).map g := by
  rw [find?_lowerBound_ofList, List.filter_map, earliestLeast_map]
  rfl

/-! ## Other values under the same keys -/

section MapValues

variable {μ : Type*} (f : ν → μ)

/-- The keys decide where an entry goes, not the values. -/
theorem insertEntry_map (k : κ) (v : ν) (l : List (κ × ν)) :
    insertEntry (k, f v) (l.map (Prod.map id f)) = (insertEntry (k, v) l).map (Prod.map id f) := by
  induction l with
  | nil => rfl
  | cons b l ih =>
    rw [List.map_cons, insertEntry, insertEntry, ih]
    show (if k < b.1 then _ else _) = List.map _ (if k < b.1 then _ else _)
    split_ifs <;> rfl

/-- The map with `f` applied to its values. -/
def mapValues (m : Multimap κ ν) : Multimap κ μ where
  entries := m.entries.map (Prod.map id f)
  sorted := List.pairwise_map.mpr m.sorted

/-- Only what `f` does to values of the map matters. -/
theorem mapValues_congr {m : Multimap κ ν} {f g : ν → μ} (h : ∀ e ∈ m.entries, f e.2 = g e.2) :
    m.mapValues f = m.mapValues g := by
  have hentries : m.entries.map (Prod.map id f) = m.entries.map (Prod.map id g) :=
    List.map_congr_left fun e he => Prod.ext rfl (h e he)
  simp only [mapValues, hentries]

/-- `mapValues` commutes with each operation. -/
theorem mapValues_insert (m : Multimap κ ν) (k : κ) (v : ν) :
    (m.insert k v).mapValues f = (m.mapValues f).insert k (f v) := by
  simp only [mapValues, insert, insertEntry_map]

theorem count_mapValues (m : Multimap κ ν) (k : κ) : (m.mapValues f).count k = m.count k := by
  unfold count mapValues
  rw [List.countP_map]
  rfl

theorem lowerBound_mapValues (m : Multimap κ ν) (k : κ) :
    (m.mapValues f).lowerBound k = (m.lowerBound k).map (Prod.map id f) := by
  unfold lowerBound mapValues
  rw [List.dropWhile_map]
  rfl

/-- Erasing by a test on the new values is erasing by the same test on the old ones. -/
theorem mapValues_eraseFrom (m : Multimap κ ν) (k : κ) (p : κ × μ → Bool) :
    (m.eraseFrom k (p ∘ Prod.map id f)).mapValues f = (m.mapValues f).eraseFrom k p := by
  -- the entries in front of `lower_bound(k)`, which stay
  have htake : ((m.entries.map (Prod.map id f)).takeWhile fun e => decide (e.1 < k)) =
      (m.entries.takeWhile fun e => decide (e.1 < k)).map (Prod.map id f) := by
    rw [List.takeWhile_map]
    rfl
  -- and those behind it, of which one goes
  have herase : ((m.mapValues f).lowerBound k).eraseP p =
      ((m.lowerBound k).eraseP (p ∘ Prod.map id f)).map (Prod.map id f) := by
    rw [lowerBound_mapValues, List.eraseP_map]
  simp only [mapValues, eraseFrom, List.map_append, htake, ← herase]

end MapValues

end Multimap

end Guthi
