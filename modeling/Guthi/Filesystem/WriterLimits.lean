import Guthi.Bitsery.GrowingBuffer
import Guthi.Filesystem.RoundTrip

/-!
# Guthi — what the writer asserts

`Continues` says that the writer's assertions hold for a graph within the limits. Here is the
converse, and how long an encoding within the limits can be.

* `serializeObject_withinLimits` — if no assertion has failed, every object is within the limits;
* `serializeObject_length_le` — each object costs a bounded number of bytes;
* `serializeLocalFS_growing` — the buffer that `SerializeLocalFS` really writes to, and resizes.
-/

namespace Guthi

open Bitsery

namespace Bitsery

theorem sizeBytes_length_le (size : Nat) : (sizeBytes size).length ≤ 4 := by
  -- one byte, two, or four
  unfold sizeBytes OutputBufferAdapter.writeSize
  split
  · simp
  · split <;> simp [leBytes16]

theorem OutputBufferAdapter.assertsHold_of_writeSize {w : OutputBufferAdapter} {size : Nat}
    (h : (w.writeSize size).assertsHold = true) : w.assertsHold = true := by
  unfold OutputBufferAdapter.writeSize at h
  split at h
  · exact h
  · split at h
    · exact h
    · exact (Bool.and_eq_true_iff.mp h).1

end Bitsery

theorem headerBytes_length_le {c : FileContent} (hlim : c.WithinLimits) :
    (headerBytes c).length ≤ 78 := by
  have h1 := sizeBytes_length_le c.name.length
  have h2 := sizeBytes_length_le c.contents.length
  have h3 := hlim.name
  -- two, four, four for each size, and a name of 64
  simp only [headerBytes, leBytes16, Ipv4.toBytes, List.length_append, List.length_cons,
    List.length_nil]
  omega

/-! ## The assertions -/

namespace Serializer

theorem assertsHold_of_containerSize {s : Serializer} {size maxSize : Nat}
    (h : (s.containerSize size maxSize).adapter.assertsHold = true) :
    s.adapter.assertsHold = true ∧ size ≤ maxSize := by
  have hassert := OutputBufferAdapter.assertsHold_of_writeSize h
  exact (Bool.and_eq_true_iff.mp hassert).imp_right of_decide_eq_true

theorem withinLimits_of_header {s : Serializer} {c : FileContent}
    (h : (s.header c).adapter.assertsHold = true) :
    s.adapter.assertsHold = true ∧ c.WithinLimits := by
  obtain ⟨h, hcontents⟩ := assertsHold_of_containerSize h
  obtain ⟨h, hname⟩ := assertsHold_of_containerSize h
  exact ⟨h, hname, hcontents⟩

end Serializer

/-- Whoever has numbered `vs'` without a failed assertion has checked what was numbered on the way.
One case per constructor of the format. -/
theorem SlotsFormat.withinLimits {h : Heap} {vs vs' : List Addr} {its : List (Option Addr)}
    {bs : Bytes} (hf : SlotsFormat h vs its bs vs') :
    ∀ (fuel : Nat) (s s' : Serializer), Numbered s.ctx vs → vs'.length ≤ fuel + vs.length →
      its.foldlM (Serializer.ext fun ptr s => h[ptr]?.bind fun c => serialize h fuel c s) s
        = some s' → s'.adapter.assertsHold = true →
      s.adapter.assertsHold = true ∧
        ∀ ptr ∈ vs', ptr ∉ vs → ∀ c, h[ptr]? = some c → c.WithinLimits := by
  induction hf with
  | nil vs =>
    intro fuel s s' _ _ hrun hok
    cases hrun
    exact ⟨hok, fun ptr hin hout => absurd hin hout⟩
  | null _ ih =>
    intro fuel s s' hnum hfuel hrun hok
    rw [List.foldlM_cons] at hrun
    obtain ⟨hok', hlim⟩ := ih fuel (s.writeSize 0) s' hnum hfuel hrun hok
    exact ⟨OutputBufferAdapter.assertsHold_of_writeSize hok', hlim⟩
  | seen hmem rest ih =>
    intro fuel s s' hnum hfuel hrun hok
    rw [List.foldlM_cons, Serializer.ext, hnum.getInfoByPtr_mem hmem] at hrun
    obtain ⟨hok', hlim⟩ := ih fuel _ s' (by exact hnum) hfuel hrun hok
    exact ⟨OutputBufferAdapter.assertsHold_of_writeSize hok', hlim⟩
  | @first vs vs₁ vs' its bs₁ bs ptr c hnew hget child rest ih₁ ih =>
    intro fuel s s' hnum hfuel hrun hok
    have hvs₁ := rest.grows.length_le
    have hvs := child.grows.length_le
    rw [List.length_append, List.length_singleton] at hvs
    obtain ⟨k, rfl⟩ : ∃ k, fuel = k + 1 := ⟨fuel - 1, by omega⟩
    let s₁ := { s with ctx := s.ctx.enter ptr }.writeSize (vs.length + 1)
    have hnum₁ : Numbered (s₁.header c).ctx (vs ++ [ptr]) := hnum.enter hnew
    have hfuel₁ : vs₁.length ≤ k + (vs ++ [ptr]).length := by
      rw [List.length_append, List.length_singleton]
      omega
    -- the writer behind the child, and then behind the rest
    obtain ⟨s₂, hchild, hc₁⟩ := child.run k (s₁.header c) hnum₁ hfuel₁
    rw [List.foldlM_cons, Serializer.ext, hnum.getInfoByPtr_new hnew] at hrun
    simp only [Bool.not_false, if_true, hget, Option.bind_some] at hrun
    rw [serialize, hchild] at hrun
    -- backwards: no assertion behind the child, so none before
    obtain ⟨hok₂, hlim⟩ := ih (k + 1) s₂ s' hc₁.numbered (by omega) hrun hok
    obtain ⟨hok₁, hlim₁⟩ := ih₁ k (s₁.header c) s₂ hnum₁ hfuel₁ hchild hok₂
    obtain ⟨hok₀, hself⟩ := Serializer.withinLimits_of_header hok₁
    refine ⟨OutputBufferAdapter.assertsHold_of_writeSize hok₀, fun p hin hout c' hc' => ?_⟩
    by_cases hp : p ∈ vs₁
    · -- the child itself, or what is below it
      by_cases heq : p = ptr
      · subst heq
        cases hget.symm.trans hc'
        exact hself
      · exact hlim₁ p hp (by simp [hout, heq]) c' hc'
    · exact hlim p hin hp c' hc'

/-- **No assertion has failed** for a closed graph only if each of its objects is within the
limits. -/
theorem serializeObject_withinLimits {h : Heap} {r : Addr} {ser : Serializer}
    (hclosed : PointerGraph.Closed FileContent.children h r)
    (hser : serializeObject h r = some ser) (hok : ser.adapter.assertsHold = true) :
    ∀ a c, h.Reaches r a → h[a]? = some c → c.WithinLimits := by
  obtain ⟨root, hget⟩ : ∃ c, h[r]? = some c :=
    ⟨_, List.getElem?_eq_getElem (hclosed r (PointerGraph.Reaches.refl r))⟩
  obtain ⟨_, bs, V, _, hf, _⟩ := serializeObject_eq hclosed hget
  rw [serializeObject, hget, Option.bind_some, serialize] at hser
  obtain ⟨hroot, hlim⟩ := hf.withinLimits h.length _ ser numbered_nil (by simpa using hf.count_le)
    hser hok
  intro a c ha hc
  rcases mem_numbering_of_reaches hget hf ha with rfl | hV
  · cases hget.symm.trans hc
    exact (Serializer.withinLimits_of_header hroot).2
  · exact hlim a hV (by simp) c hc

/-! ## The length -/

/-- Each child costs four bytes for its id at most, and each object within the limits its header
and the ids of its children. -/
theorem SlotsFormat.length_upper {h : Heap} {vs vs' : List Addr} {its : List (Option Addr)}
    {bs : Bytes} (hf : SlotsFormat h vs its bs vs')
    (hlim : ∀ ptr ∈ vs', ∀ c, h[ptr]? = some c → c.WithinLimits) :
    bs.length + (78 + 4 * maxFileCapacity) * vs.length ≤
      4 * its.length + (78 + 4 * maxFileCapacity) * vs'.length := by
  unfold maxFileCapacity
  -- one case per constructor of the format
  induction hf with
  | nil vs => simp
  | null _ ih =>
    have := ih hlim
    have := sizeBytes_length_le 0
    simp only [List.length_append, List.length_cons]
    omega
  | @seen vs vs' its bs ptr _ _ ih =>
    have := ih hlim
    have := sizeBytes_length_le (vs.idxOf ptr + 1)
    simp only [List.length_append, List.length_cons]
    omega
  | @first vs vs₁ vs' its bs₁ bs ptr c hnew hget child rest ih₁ ih =>
    have hsub : vs₁ ⊆ vs' := rest.grows.subset
    have hc := hlim ptr (hsub (child.grows.subset (by simp))) c hget
    have hcontents := hc.contents
    unfold maxFileCapacity at hcontents
    have h₁ := ih₁ fun p hp => hlim p (hsub hp)
    have h₂ := ih hlim
    have h₃ := sizeBytes_length_le (vs.length + 1)
    have h₄ := headerBytes_length_le hc
    simp only [List.length_append, List.length_cons, List.length_nil] at h₁ ⊢
    omega

theorem serializeObject_length_le {h : Heap} {r : Addr} {ser : Serializer}
    (hclosed : PointerGraph.Closed FileContent.children h r)
    (hser : serializeObject h r = some ser)
    (hlim : ∀ a c, h.Reaches r a → h[a]? = some c → c.WithinLimits) :
    ser.adapter.bytes.length ≤ (78 + 4 * maxFileCapacity) * (h.length + 1) := by
  obtain ⟨root, hget⟩ : ∃ c, h[r]? = some c :=
    ⟨_, List.getElem?_eq_getElem (hclosed r (PointerGraph.Reaches.refl r))⟩
  obtain ⟨ser', bs, V, hser', hf, hc⟩ := serializeObject_eq hclosed hget
  cases hser.symm.trans hser'
  have hroot := hlim r root (PointerGraph.Reaches.refl r) hget
  have hheader := headerBytes_length_le hroot
  have hcontents := hroot.contents
  have hbody := hf.length_upper fun ptr hptr c' hc' =>
    hlim ptr c' (below_of_mem_numbering hget hf hptr).to_reflTransGen hc'
  -- each object is numbered once
  have hcount := Nat.mul_le_mul_left (78 + 4 * maxFileCapacity) hf.count_le
  rw [hc.bytes, Serializer.header_bytes, List.length_append, List.length_append, Nat.mul_succ]
  simp only [List.length_nil] at hbody ⊢
  omega

/-! ## The buffer -/

/-- In whatever pieces the writer writes its bytes to the vector of 512, and however the vector
grows: resized to the count as a `uint32_t`, it is what `SerializeLocalFS` returns. -/
theorem serializeLocalFS_growing (g : Growth) {h : Heap} {localFS : Addr} {ser : Serializer}
    (hser : serializeObject h localFS = some ser) {pieces : List Bytes}
    (hpieces : pieces.flatten = ser.adapter.bytes) :
    ∃ w, (GrowingAdapter.ofBuffer g (.zeros 512)).run g (pieces.map .write) = .ok w ∧
      serializeLocalFS h localFS =
        some (w.buffer.resize g (UInt32.ofNat w.writtenBytesCount).toNat).elems := by
  obtain ⟨w, hrun, hw⟩ := (GrowingAdapter.ofBuffer_holds g 512).run (pieces.map .write)
  have hbytes : (Written.run .start (pieces.map .write)).bytes = ser.adapter.bytes := by
    rw [Written.run_writes .start pieces rfl, hpieces]
    rfl
  have hcut : (UInt32.ofNat w.writtenBytesCount).toNat ≤
      (Written.run .start (pieces.map .write)).bytes.length := by
    rw [hw.writtenBytesCount, UInt32.toNat_ofNat']
    exact Nat.mod_le _ _
  refine ⟨w, hrun, ?_⟩
  rw [hw.resize hcut, hw.writtenBytesCount, hbytes, serializeLocalFS, hser]
  rfl

/-- A vector with no more capacity than it needs. -/
def exactGrowth : Growth where
  capacityFor _ size := size
  le _ _ := Nat.le_refl _

theorem serializeLocalFS_growing_sharedGraph :
    ∃ w, (GrowingAdapter.ofBuffer exactGrowth (.zeros 512)).run exactGrowth
        ([[0, 0], [0, 0, 0, 0], [1], [67], [4, 1, 0, 0, 10, 0, 0, 7], [1, 97, 1, 2, 239, 190],
          [127, 0, 0, 1, 2, 0, 255], [0], [0, 1, 2]].map .write) = .ok w ∧
      serializeLocalFS sharedGraph 0 =
        some (w.buffer.resize exactGrowth (UInt32.ofNat w.writtenBytesCount).toNat).elems := by
  have hser : serializeObject sharedGraph 0 = some
      { adapter := ⟨[0, 0, 0, 0, 0, 0, 1, 67, 4, 1, 0, 0, 10, 0, 0, 7, 1, 97, 1, 2, 239, 190,
          127, 0, 0, 1, 2, 0, 255, 0, 0, 1, 2], true⟩
        ctx := { currId := 2, ptrMap := [(2, 2), (1, 1)] } } := rfl
  exact serializeLocalFS_growing exactGrowth hser rfl

end Guthi
