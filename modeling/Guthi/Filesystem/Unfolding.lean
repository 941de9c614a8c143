import Guthi.Filesystem.WireFormat

/-!
# Guthi — the values in a graph of nodes

`FileTrees` is a list of file trees without addresses: what a program sees that follows the
pointers from a list of slots and compares no two of them. A node that several slots share
occurs once for each.

* `Heap.Unfolds h ps ts` — the slots `ps` unfold to `ts`;
* `Heap.Unfolds.unique`, `Heap.exists_unfolds_of_grounded` — they do so to one list at most, and
  to one where no pointer leads back.
-/

namespace Guthi

/-- A null pointer or a node with its children, and the slots behind it. -/
inductive FileTrees where
  | nil
  | null (rest : FileTrees)
  | node (header : Header) (children rest : FileTrees)
deriving DecidableEq, Repr

def FileContent.header (c : FileContent) : Header where
  type := c.type
  networkNode := c.networkNode
  name := c.name

@[simp] theorem Header.contents_toFileContent (hd : Header) (contents : List (Option Addr)) :
    (hd.toFileContent contents).contents = contents := rfl

namespace Heap

def Unfolds (h : Heap) (ps : List (Option Addr)) : FileTrees → Prop
  | .nil => ps = []
  | .null rest => ∃ ps', ps = none :: ps' ∧ h.Unfolds ps' rest
  | .node header children rest => ∃ a c ps', ps = some a :: ps' ∧ h[a]? = some c ∧
      c.header = header ∧ h.Unfolds c.contents children ∧ h.Unfolds ps' rest

variable {h : Heap}

theorem Unfolds.unique {ps : List (Option Addr)} {ts ts' : FileTrees} (hts : h.Unfolds ps ts)
    (hts' : h.Unfolds ps ts') : ts = ts' := by
  induction ts generalizing ps ts' with
  | nil =>
    obtain rfl : ps = [] := hts
    cases ts' with
    | nil => rfl
    | null rest' =>
      obtain ⟨_, hps, _⟩ := hts'
      cases hps
    | node header' children' rest' =>
      obtain ⟨_, _, _, hps, _⟩ := hts'
      cases hps
  | null rest ih =>
    obtain ⟨ps', rfl, hrest⟩ := hts
    cases ts' with
    | nil => cases hts'
    | null rest' =>
      obtain ⟨_, hps, hrest'⟩ := hts'
      cases hps
      rw [ih hrest hrest']
    | node header' children' rest' =>
      obtain ⟨_, _, _, hps, _⟩ := hts'
      cases hps
  | node header children rest ihchildren ih =>
    obtain ⟨a, c, ps', rfl, hc, rfl, hchildren, hrest⟩ := hts
    cases ts' with
    | nil => cases hts'
    | null rest' =>
      obtain ⟨_, hps, _⟩ := hts'
      cases hps
    | node header' children' rest' =>
      obtain ⟨_, c', _, hps, hc', rfl, hchildren', hrest'⟩ := hts'
      cases hps
      cases hc.symm.trans hc'
      rw [ihchildren hchildren hchildren', ih hrest hrest']

/-- Slots one by one. -/
theorem exists_unfolds_of_forall {ps : List (Option Addr)}
    (hps : ∀ a, some a ∈ ps → ∃ ts, h.Unfolds [some a] ts) : ∃ ts, h.Unfolds ps ts := by
  induction ps with
  | nil => exact ⟨.nil, rfl⟩
  | cons p ps ih =>
    obtain ⟨rest, hrest⟩ := ih fun a ha => hps a (List.mem_cons_of_mem p ha)
    cases p with
    | none => exact ⟨.null rest, ps, rfl, hrest⟩
    | some a =>
      obtain ⟨ts, hts⟩ := hps a List.mem_cons_self
      cases ts with
      | nil => cases hts
      | null _ =>
        obtain ⟨_, hslot, _⟩ := hts
        cases hslot
      | node header children _ =>
        obtain ⟨_, c, _, hslot, hc, hheader, hchildren, _⟩ := hts
        cases hslot
        exact ⟨.node header children rest, a, c, ps, rfl, hc, hheader, hchildren, hrest⟩

/-- Induction on the paths, which end. -/
theorem exists_unfolds_of_grounded {a : Addr} (ha : PointerGraph.Grounded FileContent.children h a)
    (hclosed : ∀ b, h.Reaches a b → ∃ c, h[b]? = some c) : ∃ ts, h.Unfolds [some a] ts := by
  induction ha with
  | intro a _ ih =>
    obtain ⟨c, hc⟩ := hclosed a (PointerGraph.Reaches.refl a)
    have hslots : ∀ b, some b ∈ c.contents → ∃ ts, h.Unfolds [some b] ts := by
      intro b hb
      have hpoints : h.Points a b := ⟨c, hc, FileContent.mem_children.mpr hb⟩
      exact ih b hpoints fun b' hb' => hclosed b' (.head hpoints hb')
    obtain ⟨children, hchildren⟩ := exists_unfolds_of_forall hslots
    exact ⟨.node c.header children .nil, a, c, [], rfl, hc, rfl, hchildren, rfl⟩

end Heap

end Guthi
