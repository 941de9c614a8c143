import Guthi.Filesystem.Accepted

/-!
# Guthi — how much an input decodes to

Two consequences of the grammar for `DeserializeToFileContent`.

* `deserialize_bounded` — any input, accepted or not, is decoded to a graph that is no larger
  than the input and keeps to the limits;
* `deserialize_selfDelimiting` — of what `SerializeLocalFS` writes nothing can be cut off, and
  nothing can be added to it.
-/

namespace Guthi

open Bitsery

theorem confined_start {heap : Heap} {content : Nat} {type : FileType} (data : Bytes)
    (hfresh : heap[content]? = some (FileContent.fresh type)) :
    Deserializer.Confined heap.length content { adapter := .ofData data, heap } := by
  refine ⟨Nat.le_refl _, fun id a ha => (nomatch ha), fun a c ha hc => ?_⟩
  have hc : heap[a]? = some c := hc
  rcases ha with rfl | hle
  · rw [hfresh] at hc
    cases hc
    exact ⟨⟨Nat.zero_le _, Nat.zero_le _⟩, by simp [FileContent.fresh]⟩
  · rw [List.getElem?_eq_none hle] at hc
    cases hc

/-- `DeserializeToFileContent` returns, and what it has made is confined to new objects. -/
theorem deserializeToFileContent_returns (data : Bytes) {heap : Heap} {content : Nat}
    {type : FileType} (hfresh : heap[content]? = some (FileContent.fresh type)) :
    ∃ accepted d', deserializeToFileContent data heap content = some (accepted, d'.heap) ∧
      Deserializer.Confined heap.length content d' ∧
      heap.length ≤ d'.heap.length ∧ d'.heap.length ≤ heap.length + data.length := by
  have hleft := InputBufferAdapter.left_ofData data
  obtain ⟨d', hrun, hconfined, hprogress⟩ := deserialize_progress heap.length content
    (data.length + 1) content _ (Or.inl rfl) (confined_start data hfresh)
    (by show (InputBufferAdapter.ofData data).left < _; omega)
  have hcreated : d'.adapter.left + d'.heap.length ≤
    (InputBufferAdapter.ofData data).left + heap.length := hprogress.created
  refine ⟨d'.adapter.noError && d'.adapter.isCompletedSuccessfully, d', ?_, hconfined,
    hprogress.length, by omega⟩
  rw [deserializeToFileContent, hrun, Option.map_some]

/-- **Decoding is bounded.** Whatever the bytes, `DeserializeToFileContent` into a fresh object
returns, having created at most as many objects as there are bytes, and every object of the
resulting graph keeps to the limits on names and children. An accepted input has paid for its
root with eight bytes and for each object created with nine. -/
theorem deserialize_bounded (data : Bytes) (heap : Heap) (content : Nat) (type : FileType)
    (hfresh : heap[content]? = some (FileContent.fresh type)) :
    ∃ accepted heap', deserializeToFileContent data heap content = some (accepted, heap') ∧
      heap.length ≤ heap'.length ∧ heap'.length - heap.length ≤ data.length ∧
      (accepted = true → 8 + 9 * (heap'.length - heap.length) ≤ data.length) ∧
      ∀ a c, heap'.Reaches content a → heap'[a]? = some c →
        c.name.length ≤ 64 ∧ c.contents.length ≤ maxFileCapacity := by
  obtain ⟨accepted, d', hdes, hconfined, hle, hcreated⟩ :=
    deserializeToFileContent_returns data hfresh
  refine ⟨accepted, d'.heap, hdes, hle, by omega, fun hacc => ?_, fun a c ha hc => ?_⟩
  · subst hacc
    obtain ⟨hd, ss, ids, ⟨hheader, hparses⟩, hdecodes, _⟩ := accepted_parses hfresh hdes
    have hroot := length_of_takeHeader hheader
    have hbelow := hparses.length_le
    have := hdecodes.length
    simp only [List.length_nil] at hbelow
    omega
  · have hlimits := (hconfined.objects a c (hconfined.eq_or_le_of_reaches ha) hc).limits
    exact ⟨hlimits.name, hlimits.contents⟩

/-- A directory with one child whose two-byte id is cut off: a child is created all the same. -/
theorem deserialize_bounded_cutOff :
    ∃ accepted heap', deserializeToFileContent [0, 0, 10, 0, 0, 7, 0, 1, 0x81]
        [FileContent.fresh 7] 0 = some (accepted, heap') ∧
      1 ≤ heap'.length ∧ heap'.length - 1 ≤ 9 ∧
      (accepted = true → 8 + 9 * (heap'.length - 1) ≤ 9) ∧
      ∀ a c, heap'.Reaches 0 a → heap'[a]? = some c →
        c.name.length ≤ 64 ∧ c.contents.length ≤ maxFileCapacity :=
  deserialize_bounded [0, 0, 10, 0, 0, 7, 0, 1, 0x81] [FileContent.fresh 7] 0 7 rfl

/-- An input that is no tree of the grammar. -/
theorem rejected_of_not_parses {data : Bytes} {heap : Heap} {content : Nat} {type : FileType}
    (hfresh : heap[content]? = some (FileContent.fresh type))
    (hnot : ∀ hd ss ids, ¬ ParsesTree data hd ss ids) :
    ∃ heap', deserializeToFileContent data heap content = some (false, heap') := by
  obtain ⟨accepted, d', hdes, _⟩ := deserializeToFileContent_returns data hfresh
  cases accepted with
  | false => exact ⟨_, hdes⟩
  | true =>
    obtain ⟨hd, ss, ids, hparses, _⟩ := accepted_parses hfresh hdes
    exact absurd hparses (hnot hd ss ids)

/-- An input that is accepted neither continues nor begins another one that is. -/
theorem rejected_of_accepted {p q : Bytes} {heap₀ heap₁ heap : Heap} {content₀ content : Nat}
    {type₀ type : FileType} (hq : q ≠ [])
    (hfresh₀ : heap₀[content₀]? = some (FileContent.fresh type₀))
    (hfresh : heap[content]? = some (FileContent.fresh type)) :
    (deserializeToFileContent (p ++ q) heap₀ content₀ = some (true, heap₁) →
      ∃ heap', deserializeToFileContent p heap content = some (false, heap')) ∧
    (deserializeToFileContent p heap₀ content₀ = some (true, heap₁) →
      ∃ heap', deserializeToFileContent (p ++ q) heap content = some (false, heap')) := by
  constructor
  · intro hacc
    obtain ⟨_, _, _, hparses₀, _⟩ := accepted_parses hfresh₀ hacc
    exact rejected_of_not_parses hfresh fun _ _ _ hparses => hq (hparses.prefix_free hparses₀)
  · intro hacc
    obtain ⟨_, _, _, hparses₀, _⟩ := accepted_parses hfresh₀ hacc
    exact rejected_of_not_parses hfresh fun _ _ _ hparses => hq (hparses₀.prefix_free hparses)

/-- **The encoding is self-delimiting.** The bytes that `SerializeLocalFS` produces for an
acyclic graph within the limits are rejected when anything is cut off or added. -/
theorem deserialize_selfDelimiting (h : Heap) (localFS : Nat) (hacyc : h.Acyclic localFS)
    (hlim : ∀ a c, h.Reaches localFS a → h[a]? = some c → c.WithinLimits)
    (hlen : ∀ ser, serializeObject h localFS = some ser → ser.adapter.bytes.length < 2 ^ 32) :
    ∃ data, serializeLocalFS h localFS = some data ∧
      ∀ (heap : Heap) (content : Nat) (type : FileType),
        heap[content]? = some (FileContent.fresh type) →
        (∀ p q, p ++ q = data → q ≠ [] →
          ∃ heap', deserializeToFileContent p heap content = some (false, heap')) ∧
        (∀ q, q ≠ [] →
          ∃ heap', deserializeToFileContent (data ++ q) heap content = some (false, heap')) := by
  obtain ⟨ser, c, bs, V, _, _, hdata, he⟩ := serializeLocalFS_encodes hacyc hlim hlen
  refine ⟨_, hdata, fun heap content type hfresh => ?_⟩
  obtain ⟨heap', hacc, _⟩ := he.accepted hfresh
  refine ⟨fun p q hpq hq => ?_, fun q hq => ?_⟩
  · rw [← hpq] at hacc
    exact (rejected_of_accepted hq hfresh hfresh).1 hacc
  · exact (rejected_of_accepted hq hfresh hfresh).2 hacc

theorem deserialize_selfDelimiting_sharedGraph :
    ∃ data, serializeLocalFS sharedGraph 0 = some data ∧
      ∀ (heap : Heap) (content : Nat) (type : FileType),
        heap[content]? = some (FileContent.fresh type) →
        (∀ p q, p ++ q = data → q ≠ [] →
          ∃ heap', deserializeToFileContent p heap content = some (false, heap')) ∧
        (∀ q, q ≠ [] →
          ∃ heap', deserializeToFileContent (data ++ q) heap content = some (false, heap')) :=
  deserialize_selfDelimiting sharedGraph 0 sharedGraph_acyclic sharedGraph_withinLimits
    sharedGraph_short

end Guthi
