import Mathlib.Tactic

/-!
# Guthi — maps whose `insert` does not overwrite

`std::unordered_map` as a partial function. `insert` leaves an entry that is there as it is, so
two maps that mirror each other drift apart unless the key is new in both or the entry is the
same in both.

* `insertNew`, `erase` — the operations;
* `Inverse` — two maps mirror each other; `Inverse.insertNew_iff` — when an insertion into both
  keeps that; `Inverse.erase_insertNew_iff` — when erasing a key on one side and inserting
  another one does.
-/

namespace Guthi

variable {κ ν : Type*} [DecidableEq κ]

/-- `map.insert({k, v})`. -/
def insertNew (m : κ → Option ν) (k : κ) (v : ν) : κ → Option ν :=
  if m k = none then Function.update m k (some v) else m

/-- `map.erase(k)`. -/
def erase (m : κ → Option ν) (k : κ) : κ → Option ν := Function.update m k none

/-- The entries of `w` are those of `m`, with key and value exchanged. -/
def Inverse (m : κ → Option ν) (w : ν → Option κ) : Prop :=
  ∀ k v, m k = some v ↔ w v = some k

variable {m : κ → Option ν} {w : ν → Option κ} {k : κ} {v : ν}

theorem insertNew_self_of_none (h : m k = none) : insertNew m k v k = some v := by
  rw [insertNew, if_pos h, Function.update_self]

theorem insertNew_of_ne (m : κ → Option ν) {k k' : κ} (hne : k' ≠ k) (v : ν) :
    insertNew m k v k' = m k' := by
  unfold insertNew
  split_ifs
  · exact Function.update_of_ne hne _ _
  · rfl

/-- A key that is there keeps its value. -/
theorem insertNew_of_some {v' : ν} (h : m k = some v') (v : ν) : insertNew m k v = m :=
  if_neg (by rw [h]; simp)

theorem insertNew_stays {k' : κ} {v' : ν} (h : m k' = some v') : insertNew m k v k' = some v' := by
  by_cases hk : k' = k
  · subst hk
    rw [insertNew_of_some h]
    exact h
  · rw [insertNew_of_ne m hk]
    exact h

/-- The keys afterwards are those before, and the new one. -/
theorem insertNew_isSome_iff {k' : κ} :
    (∃ v', insertNew m k v k' = some v') ↔ (∃ v', m k' = some v') ∨ k' = k := by
  by_cases hk : k' = k
  · subst hk
    cases hm : m k' with
    | none => simp [insertNew_self_of_none hm]
    | some v' => simp [insertNew_of_some hm, hm]
  · rw [insertNew_of_ne m hk]
    simp [hk]

/-- Only the erased key is touched. -/
theorem erase_of_ne (m : κ → Option ν) {k k' : κ} (hne : k' ≠ k) : erase m k k' = m k' :=
  Function.update_of_ne hne _ _

/-- An entry that is left was there, under another key. -/
theorem of_erase {k' : κ} {v' : ν} (h : erase m k k' = some v') : k' ≠ k ∧ m k' = some v' := by
  rw [erase, Function.update_apply] at h
  split_ifs at h with hk
  exact ⟨hk, h⟩

/-- What holds of every entry and of the new one holds of every entry afterwards. -/
theorem forall_insertNew {P : κ → ν → Prop} (hm : ∀ k v, m k = some v → P k v) (hnew : P k v) :
    ∀ k' v', insertNew m k v k' = some v' → P k' v' := by
  intro k' v' h
  by_cases hk : k' = k
  · subst hk
    cases hmk : m k' with
    | none =>
      rw [insertNew_self_of_none hmk] at h
      cases h
      exact hnew
    | some w =>
      rw [insertNew_of_some hmk] at h
      exact hm k' v' h
  · rw [insertNew_of_ne m hk] at h
    exact hm k' v' h

/-- An entry afterwards was there before, or is the new one. -/
theorem insertNew_cases {k' : κ} {v' : ν} (h : insertNew m k v k' = some v') :
    m k' = some v' ∨ (k' = k ∧ v' = v) :=
  forall_insertNew (P := fun k' v' => m k' = some v' ∨ (k' = k ∧ v' = v))
    (fun _ _ hm => Or.inl hm) (Or.inr ⟨rfl, rfl⟩) k' v' h

variable [DecidableEq ν]

/-- A new key and a new value can be entered on both sides. -/
theorem Inverse.insertNew_of_fresh (h : Inverse m w) (hm : m k = none) (hw : w v = none) :
    Inverse (insertNew m k v) (insertNew w v k) := by
  intro a b
  -- whether an entry of the one map is the new one, and whether one of the other is
  by_cases ha : a = k <;> by_cases hb : b = v
  · subst ha hb
    simp [insertNew_self_of_none hm, insertNew_self_of_none hw]
  · subst ha
    -- another value does not lead back to the key
    have hnot : w b ≠ some a := fun hwb => by
      rw [(h a b).mpr hwb] at hm
      exact absurd hm (by simp)
    rw [insertNew_self_of_none hm, insertNew_of_ne w hb]
    simp [hnot, Ne.symm hb]
  · subst hb
    have hnot : m a ≠ some b := fun hma => by
      rw [(h a b).mp hma] at hw
      exact absurd hw (by simp)
    rw [insertNew_self_of_none hw, insertNew_of_ne m ha]
    simp [hnot, Ne.symm ha]
  · rw [insertNew_of_ne m ha, insertNew_of_ne w hb]
    exact h a b

/-- An insertion into both maps keeps them inverse exactly if both sides are new, or the key is
there and so is the value: then nothing is inserted on either side. -/
theorem Inverse.insertNew_iff (h : Inverse m w) :
    Inverse (insertNew m k v) (insertNew w v k) ↔
      (m k = none ∧ w v = none) ∨ ((∃ v', m k = some v') ∧ ∃ k', w v = some k') := by
  cases hm : m k with
  | none =>
    cases hw : w v with
    | none => simpa using h.insertNew_of_fresh hm hw
    | some k' =>
      -- the key is entered with a value that belongs to another key
      simp only [reduceCtorEq, and_false, exists_false, false_and, or_false, iff_false]
      intro h'
      have hback := (h' k v).mp (insertNew_self_of_none hm)
      rw [insertNew_of_some hw, hw] at hback
      rw [(h k v).mpr (hw.trans hback)] at hm
      exact absurd hm (by simp)
  | some v' =>
    cases hw : w v with
    | none =>
      -- the value is entered for a key that keeps its old value
      simp only [reduceCtorEq, false_and, and_false, exists_false, or_false, iff_false]
      intro h'
      have hback := (h' k v).mpr (insertNew_self_of_none hw)
      rw [insertNew_of_some hm] at hback
      rw [(h k v).mp hback] at hw
      exact absurd hw (by simp)
    | some k' =>
      rw [insertNew_of_some hm, insertNew_of_some hw]
      simpa using h

/-- Erasing `v` from the map that holds it for `k`, and entering `k` under `v'` instead without
touching the other side, keeps the maps inverse exactly if `v'` is `v`. -/
theorem Inverse.erase_insertNew_iff (h : Inverse m w) (v' : ν) (hv : w v = some k) :
    Inverse (insertNew m k v') (insertNew (erase w v) v' k) ↔ v' = v := by
  have hm : m k = some v := (h k v).mpr hv
  have herased : erase w v v = none := Function.update_self ..
  rw [insertNew_of_some hm]
  constructor
  · intro h'
    by_contra hne
    -- `m` still leads from `k` to the erased `v`
    have hback := (h' k v).mp hm
    rw [insertNew_of_ne _ (Ne.symm hne), herased] at hback
    exact absurd hback (by simp)
  · rintro rfl
    -- the erased entry is put back
    have hsame : insertNew (erase w v') v' k = w := by
      funext b
      by_cases hb : b = v'
      · subst hb
        rw [insertNew_self_of_none herased, hv]
      · rw [insertNew_of_ne _ hb, erase, Function.update_of_ne hb]
    rw [hsame]
    exact h

end Guthi
