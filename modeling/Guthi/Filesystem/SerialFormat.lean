import Guthi.Filesystem.Serialize

/-!
# Guthi — the format of a serialised file tree

`SlotsFormat h vs its bs vs'` is the grammar of the format: with the pointers `vs` already
numbered, the children `its` are written as the bytes `bs`, after which the pointers `vs'`
are numbered. It knows nothing of adapters, contexts or fuel.

* `SlotsFormat.run` — `serialize` writes the bytes of a derivation;
* `serializeObject_eq` — every closed graph has a derivation, and the fuel is enough for it;
* `SlotsFormat.grows`, `.nodup`, `.reaches`, `.covers`, `.length_le` — the numbering lists
  every object below the root once, and each costs nine bytes at least.
-/

namespace Guthi

open Bitsery

/-- The preconditions the writer asserts: name and children within the reader's limits. -/
structure FileContent.WithinLimits (c : FileContent) : Prop where
  name : c.name.length ≤ 64
  contents : c.contents.length ≤ maxFileCapacity

/-- What `serialize` writes of an object in front of its children. -/
def headerBytes (c : FileContent) : Bytes :=
  leBytes16 c.type ++ (c.networkNode.ipv4.toBytes ++
    (sizeBytes c.name.length ++ (c.name ++ sizeBytes c.contents.length)))

/-- A header has at least eight bytes. -/
theorem headerBytes_length (c : FileContent) : 8 ≤ (headerBytes c).length := by
  have h1 := sizeBytes_length_pos c.name.length
  have h2 := sizeBytes_length_pos c.contents.length
  simp only [headerBytes, leBytes16, Ipv4.toBytes, List.length_append, List.length_cons,
    List.length_nil]
  omega

/-- Numbering a new object keeps the numbers apart. -/
theorem nodup_concat {vs : List Addr} {ptr : Addr} (hvs : vs.Nodup) (hnew : ptr ∉ vs) :
    (vs ++ [ptr]).Nodup := by
  rw [← List.concat_eq_append]
  exact hvs.concat hnew

/-- The bytes `bs` encode the slots `its`, where `vs` is numbered before and `vs'` after: zero for
null, the number of what was met before, and for a new object the next number, its header and its
children. -/
inductive SlotsFormat (h : Heap) :
    List Addr → List (Option Addr) → Bytes → List Addr → Prop where
  | nil (vs : List Addr) : SlotsFormat h vs [] [] vs
  | null {vs vs' its bs} (rest : SlotsFormat h vs its bs vs') :
      SlotsFormat h vs (none :: its) (sizeBytes 0 ++ bs) vs'
  | seen {vs vs' its bs ptr} (hmem : ptr ∈ vs) (rest : SlotsFormat h vs its bs vs') :
      SlotsFormat h vs (some ptr :: its) (sizeBytes (vs.idxOf ptr + 1) ++ bs) vs'
  | first {vs vs₁ vs' its bs₁ bs ptr c} (hnew : ptr ∉ vs) (hget : h[ptr]? = some c)
      (child : SlotsFormat h (vs ++ [ptr]) c.contents bs₁ vs₁)
      (rest : SlotsFormat h vs₁ its bs vs') :
      SlotsFormat h vs (some ptr :: its)
        (sizeBytes (vs.length + 1) ++ (headerBytes c ++ (bs₁ ++ bs))) vs'

namespace SlotsFormat

variable {h : Heap} {vs vs' : List Addr} {its : List (Option Addr)} {bs : Bytes}

theorem grows (hf : SlotsFormat h vs its bs vs') : vs <+: vs' := by
  induction hf with
  | nil vs => exact List.prefix_rfl
  | null _ ih => exact ih
  | seen _ _ ih => exact ih
  | first _ _ _ _ ih₁ ih => exact ((List.prefix_append _ _).trans ih₁).trans ih

theorem nodup (hf : SlotsFormat h vs its bs vs') (hvs : vs.Nodup) : vs'.Nodup := by
  induction hf with
  | nil vs => exact hvs
  | null _ ih => exact ih hvs
  | seen _ _ ih => exact ih hvs
  | first hnew _ _ _ ih₁ ih => exact ih (ih₁ (nodup_concat hvs hnew))

/-- Every object numbered lies below one of the children written, and is an object. -/
theorem reaches (hf : SlotsFormat h vs its bs vs') :
    ∀ a ∈ vs', a ∈ vs ∨ (a < h.length ∧ ∃ ptr, some ptr ∈ its ∧ h.Reaches ptr a) := by
  induction hf with
  | nil vs => exact fun a ha => Or.inl ha
  | null _ ih =>
    intro a ha
    rcases ih a ha with hin | ⟨hlt, ptr, hptr, hreach⟩
    · exact Or.inl hin
    · exact Or.inr ⟨hlt, ptr, List.mem_cons_of_mem _ hptr, hreach⟩
  | seen _ _ ih =>
    intro a ha
    rcases ih a ha with hin | ⟨hlt, ptr, hptr, hreach⟩
    · exact Or.inl hin
    · exact Or.inr ⟨hlt, ptr, List.mem_cons_of_mem _ hptr, hreach⟩
  | @first vs vs₁ vs' its bs₁ bs ptr c hnew hget _ _ ih₁ ih =>
    intro a ha
    rcases ih a ha with hin | ⟨hlt, ptr', hptr', hreach⟩
    · -- numbered by the object's own children, or before
      rcases ih₁ a hin with hin₁ | ⟨hlt, ptr', hptr', hreach⟩
      · rcases List.mem_append.mp hin₁ with hvs | hself
        · exact Or.inl hvs
        · -- the object first visited here
          rw [List.mem_singleton.mp hself]
          exact Or.inr ⟨(List.getElem?_eq_some_iff.mp hget).1, ptr, List.mem_cons_self ..,
            PointerGraph.Reaches.refl ptr⟩
      · -- an object below it
        refine Or.inr ⟨hlt, ptr, List.mem_cons_self .., ?_⟩
        exact Relation.ReflTransGen.head ⟨c, hget, FileContent.mem_children.mpr hptr'⟩ hreach
    · exact Or.inr ⟨hlt, ptr', List.mem_cons_of_mem _ hptr', hreach⟩

/-- After the children are written, they and the children of every newly numbered object are
numbered. -/
theorem covers (hf : SlotsFormat h vs its bs vs') :
    (∀ ptr, some ptr ∈ its → ptr ∈ vs') ∧
    ∀ a ∈ vs', a ∉ vs → ∀ c, h[a]? = some c → ∀ b, some b ∈ c.contents → b ∈ vs' := by
  induction hf with
  | nil vs => exact ⟨by simp, fun a ha hna => absurd ha hna⟩
  | null _ ih =>
    refine ⟨fun ptr hptr => ih.1 ptr ?_, ih.2⟩
    simpa using hptr
  | seen hmem rest ih =>
    refine ⟨fun ptr hptr => ?_, ih.2⟩
    rcases List.mem_cons.mp hptr with heq | htail
    · exact rest.grows.subset (Option.some.inj heq ▸ hmem)
    · exact ih.1 ptr htail
  | @first vs vs₁ vs' its bs₁ bs ptr c hnew hget child rest ih₁ ih =>
    have hsub : vs₁ ⊆ vs' := rest.grows.subset
    have hself : ptr ∈ vs₁ := child.grows.subset (by simp)
    refine ⟨fun ptr' hptr' => ?_, fun a ha hna c' hc' b hb => ?_⟩
    · rcases List.mem_cons.mp hptr' with heq | htail
      · exact hsub (Option.some.inj heq ▸ hself)
      · exact ih.1 ptr' htail
    · -- numbered below `ptr`, or by the children behind it
      by_cases ha₁ : a ∈ vs₁
      · by_cases haptr : a = ptr
        · subst haptr
          rw [hget] at hc'
          cases hc'
          exact hsub (ih₁.1 b hb)
        · exact hsub (ih₁.2 a ha₁ (by simp [hna, haptr]) c' hc' b hb)
      · exact ih.2 a ha ha₁ c' hc' b hb

/-- Each object costs at least nine bytes: its id and its header. -/
theorem length_le (hf : SlotsFormat h vs its bs vs') :
    9 * vs'.length ≤ bs.length + 9 * vs.length := by
  induction hf with
  | nil vs => simp
  | null _ ih =>
    rw [List.length_append]
    omega
  | seen _ _ ih =>
    rw [List.length_append]
    omega
  | @first vs vs₁ vs' its bs₁ bs ptr c _ _ _ _ ih₁ ih =>
    -- one byte for the id, eight for the header
    have hid := sizeBytes_length_pos (vs.length + 1)
    have hheader := headerBytes_length c
    simp only [List.length_append, List.length_cons, List.length_nil] at ih₁ ⊢
    omega

end SlotsFormat

/-! ## The writer keeps to the format -/

namespace Serializer

/-- The header is written as the format has it. -/
theorem header_bytes (s : Serializer) (c : FileContent) :
    (s.header c).adapter.bytes = s.adapter.bytes ++ headerBytes c := by
  simp [header, value1b, value2b, container1b, containerSize, Ipv4.toBytes, headerBytes]

/-- Within the limits no assertion on a header fails. -/
theorem header_assertsHold (s : Serializer) {c : FileContent} (hlim : c.WithinLimits) :
    (s.header c).adapter.assertsHold = s.adapter.assertsHold := by
  have hname := hlim.name
  have hcontents := hlim.contents
  unfold maxFileCapacity at hcontents
  simp only [header, container1b, containerSize, maxFileCapacity]
  rw [OutputBufferAdapter.writeSize_assertsHold _ (by omega)]
  simp only [OutputBufferAdapter.assert, OutputBufferAdapter.writeBuffer_assertsHold]
  rw [OutputBufferAdapter.writeSize_assertsHold _ (by omega)]
  simp [value1b, value2b, Ipv4.toBytes, hname, hcontents]

end Serializer

/-- The writer's state `s'` continues `s` by the bytes `bs` and the numbering `vs'`; within
the limits and below `2 ^ 30` objects no assertion failed on the way. -/
structure Continues (h : Heap) (s s' : Serializer) (bs : Bytes) (vs' : List Addr) : Prop where
  bytes : s'.adapter.bytes = s.adapter.bytes ++ bs
  numbered : Numbered s'.ctx vs'
  asserts : vs'.length < 2 ^ 30 →
    (∀ ptr ∈ vs', ∀ c, h[ptr]? = some c → c.WithinLimits) →
    s'.adapter.assertsHold = s.adapter.assertsHold

/-- An id in front of what is written. -/
theorem Continues.writeSize {h : Heap} {s s' : Serializer} {bs : Bytes} {vs' : List Addr}
    {size : Nat} (ctx : PointerLinkingContextSerialization)
    (hc : Continues h ({ s with ctx }.writeSize size) s' bs vs')
    (hsize : vs'.length < 2 ^ 30 → size < 2 ^ 30) :
    Continues h s s' (sizeBytes size ++ bs) vs' := by
  refine ⟨?_, hc.numbered, fun hlen hlim => ?_⟩
  · rw [hc.bytes, ← List.append_assoc]
    simp [Serializer.writeSize]
  · rw [hc.asserts hlen hlim]
    exact OutputBufferAdapter.writeSize_assertsHold _ (hsize hlen)

/-- **`serialize` writes the format.** Given fuel for the objects a derivation numbers, the
loop over the children writes its bytes. One case per constructor of the format. -/
theorem SlotsFormat.run {h : Heap} {vs vs' : List Addr} {its : List (Option Addr)} {bs : Bytes}
    (hf : SlotsFormat h vs its bs vs') :
    ∀ (fuel : Nat) (s : Serializer), Numbered s.ctx vs → vs'.length ≤ fuel + vs.length →
      ∃ s', its.foldlM (Serializer.ext fun ptr s => h[ptr]?.bind fun c => serialize h fuel c s) s
          = some s' ∧ Continues h s s' bs vs' := by
  induction hf with
  | nil vs =>
    intro fuel s hnum _
    exact ⟨s, rfl, ⟨by simp, hnum, fun _ _ => rfl⟩⟩
  | null _ ih =>
    intro fuel s hnum hfuel
    obtain ⟨s', hrun, hc⟩ := ih fuel (s.writeSize 0) hnum hfuel
    exact ⟨s', by rw [List.foldlM_cons]; exact hrun, hc.writeSize s.ctx fun _ => by decide⟩
  | @seen vs vs' its bs ptr hmem rest ih =>
    intro fuel s hnum hfuel
    have hidx := List.idxOf_lt_length_of_mem hmem
    have hvs := rest.grows.length_le
    obtain ⟨s', hrun, hc⟩ := ih fuel (s.writeSize (vs.idxOf ptr + 1)) hnum hfuel
    refine ⟨s', ?_, hc.writeSize s.ctx fun _ => by omega⟩
    rw [List.foldlM_cons, Serializer.ext, hnum.getInfoByPtr_mem hmem]
    exact hrun
  | @first vs vs₁ vs' its bs₁ bs ptr c hnew hget child rest ih₁ ih =>
    intro fuel s hnum hfuel
    have hvs₁ := rest.grows.length_le
    have hvs := child.grows.length_le
    rw [List.length_append, List.length_singleton] at hvs
    -- a level of fuel is left, since `ptr` is numbered below
    obtain ⟨k, rfl⟩ : ∃ k, fuel = k + 1 := ⟨fuel - 1, by omega⟩
    let s₁ := { s with ctx := s.ctx.enter ptr }.writeSize (vs.length + 1)
    have hnum₁ : Numbered (s₁.header c).ctx (vs ++ [ptr]) := hnum.enter hnew
    obtain ⟨s₂, hchild, hc₁⟩ := ih₁ k (s₁.header c) hnum₁ (by
      rw [List.length_append, List.length_singleton]
      omega)
    obtain ⟨s', hrun, hc⟩ := ih (k + 1) s₂ hc₁.numbered (by omega)
    refine ⟨s', ?_, Continues.writeSize (s.ctx.enter ptr) ?_ fun _ => by omega⟩
    · rw [List.foldlM_cons, Serializer.ext, hnum.getInfoByPtr_new hnew]
      simp only [Bool.not_false, if_true, hget, Option.bind_some]
      rw [serialize, hchild]
      exact hrun
    · refine ⟨?_, hc.numbered, fun hlen hlim => ?_⟩
      · simp [hc.bytes, hc₁.bytes, Serializer.header_bytes, s₁]
      · have hsub : vs₁ ⊆ vs' := rest.grows.subset
        have hself : ptr ∈ vs' := hsub (child.grows.subset (by simp))
        rw [hc.asserts hlen hlim, hc₁.asserts (by omega) (fun p hp => hlim p (hsub hp)),
          Serializer.header_assertsHold _ (hlim ptr hself c hget)]

/-! ## Every closed graph has an encoding -/

/-- Distinct addresses below `n` are at most `n`. -/
theorem length_le_of_nodup {vs : List Addr} {n : Nat} (hnodup : vs.Nodup)
    (hlt : ∀ v ∈ vs, v < n) : vs.length ≤ n := by
  have hsub : vs ⊆ List.range n := fun v hv => List.mem_range.mpr (hlt v hv)
  simpa using (hnodup.subperm hsub).length_le

/-- So no more objects are numbered than there are. -/
theorem SlotsFormat.count_le {h : Heap} {its : List (Option Addr)} {bs : Bytes} {vs : List Addr}
    (hf : SlotsFormat h [] its bs vs) : vs.length ≤ h.length := by
  refine length_le_of_nodup (hf.nodup List.nodup_nil) fun v hv => ?_
  rcases hf.reaches v hv with hin | ⟨hlt, _⟩
  · exact absurd hin (by simp)
  · exact hlt

/-- The children of a closed graph can be written. Induction on the number `n` of objects not
yet numbered, and on the children within one level. -/
theorem slotsFormat_exists {h : Heap} {r : Addr}
    (hclosed : PointerGraph.Closed FileContent.children h r) :
    ∀ (n : Nat) (its : List (Option Addr)) (vs : List Addr), vs.Nodup →
      (∀ v ∈ vs, v < h.length) → (∀ ptr, some ptr ∈ its → h.Reaches r ptr) →
      h.length ≤ n + vs.length → ∃ bs vs', SlotsFormat h vs its bs vs' := by
  intro n
  induction n using Nat.strong_induction_on with
  | _ n ihn =>
    intro its
    induction its with
    | nil => exact fun vs _ _ _ _ => ⟨[], vs, .nil vs⟩
    | cons it its ih =>
      intro vs hnodup hrange hreach hn
      have hreach' : ∀ ptr, some ptr ∈ its → h.Reaches r ptr := fun ptr hptr =>
        hreach ptr (List.mem_cons_of_mem _ hptr)
      cases it with
      | none =>
        obtain ⟨bs, vs', hf⟩ := ih vs hnodup hrange hreach' hn
        exact ⟨_, vs', .null hf⟩
      | some ptr =>
        by_cases hmem : ptr ∈ vs
        · obtain ⟨bs, vs', hf⟩ := ih vs hnodup hrange hreach' hn
          exact ⟨_, vs', .seen hmem hf⟩
        · have hptr : h.Reaches r ptr := hreach ptr (List.mem_cons_self ..)
          have hlt : ptr < h.length := hclosed ptr hptr
          have hget : h[ptr]? = some h[ptr] := List.getElem?_eq_getElem hlt
          have hnodup₁ := nodup_concat hnodup hmem
          have hrange₁ : ∀ v ∈ vs ++ [ptr], v < h.length := by
            intro v hv
            rcases List.mem_append.mp hv with hin | hself
            · exact hrange v hin
            · rwa [List.mem_singleton.mp hself]
          -- the measure goes down: one object more is numbered
          have hcount := length_le_of_nodup hnodup₁ hrange₁
          rw [List.length_append, List.length_singleton] at hcount
          -- the children of `ptr`, with one object fewer to number
          obtain ⟨bs₁, vs₁, hf₁⟩ := ihn (n - 1) (by omega) h[ptr].contents (vs ++ [ptr])
            hnodup₁ hrange₁
            (fun p hp => hptr.tail ⟨_, hget, FileContent.mem_children.mpr hp⟩) (by
              rw [List.length_append, List.length_singleton]
              omega)
          have hvs₁ := hf₁.grows.length_le
          rw [List.length_append, List.length_singleton] at hvs₁
          obtain ⟨bs, vs', hf⟩ := ih vs₁ (hf₁.nodup hnodup₁) (fun v hv => by
            rcases hf₁.reaches v hv with hin | ⟨hlt', _⟩
            · exact hrange₁ v hin
            · exact hlt') hreach' (by omega)
          exact ⟨_, vs', .first hmem hget hf₁ hf⟩

/-- **Every closed graph has an encoding, and `SerializeLocalFS` writes it.** -/
theorem serializeObject_eq {h : Heap} {r : Addr} {c : FileContent}
    (hclosed : PointerGraph.Closed FileContent.children h r) (hget : h[r]? = some c) :
    ∃ ser bs vs, serializeObject h r = some ser ∧ SlotsFormat h [] c.contents bs vs ∧
      Continues h (Serializer.header {} c) ser bs vs := by
  have hreach : ∀ ptr, some ptr ∈ c.contents → h.Reaches r ptr := fun ptr hptr =>
    (PointerGraph.Reaches.refl r).tail ⟨c, hget, FileContent.mem_children.mpr hptr⟩
  obtain ⟨bs, vs, hf⟩ := slotsFormat_exists hclosed h.length c.contents [] List.nodup_nil
    (by simp) hreach (by simp)
  obtain ⟨ser, hrun, hc⟩ := hf.run h.length (Serializer.header {} c) numbered_nil
    (by simpa using hf.count_le)
  refine ⟨ser, bs, vs, ?_, hf, hc⟩
  rw [serializeObject, hget, Option.bind_some, serialize, hrun]

end Guthi
