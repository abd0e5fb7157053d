import CodeCache.Proofs.Bytes.Texts
import CodeCache.Proofs.Tag.Reading

/-!
# The room that a stream takes

A record takes as many bytes as its stored form, the end mark perhaps fewer: the
padding behind it may be missing. So a stream in a section of whole words can be
written back to where it was read.
-/

namespace CodeCache

def Spans {α : Type} (size : α → Nat) (reader : Read α) : Prop :=
  ∀ c a c', reader c = .ok a c' → c.position + size a ≤ c'.position

namespace Spans

variable {α β : Type} {size : β → Nat} {first : α → Nat}

theorem of_pure {b : β} (h : size b = 0) : Spans size (pure b) := by
  intro c a c' hrun
  cases hrun
  rw [h]
  exact Nat.le_refl _

theorem of_throw (e : Error) : Spans size (throw e : Read β) := by
  intro c a c' hrun
  cases hrun

theorem of_advances {n : Nat} {reader : Read α} (h : Advances n reader) :
    Spans (fun _ => n) reader :=
  fun c a c' hrun => (h c a c' hrun).2.1

theorem of_bind {reader : Read α} {next : α → Read β} (h : Spans first reader)
    (hnext : ∀ a, Spans (fun b => size b - first a) (next a)) :
    Spans size (reader >>= next) := by
  intro c b c' hrun
  rcases of_bind_run hrun with ⟨a, middle, hfirst, hrest⟩
  have hle := h c a middle hfirst
  have hle' := hnext a middle b c' hrest
  dsimp only at hle'
  omega

end Spans

namespace TagRecord

theorem word_spans (start : Nat) :
    Spans (fun _ => 4) (within start Read.uint32) :=
  .of_advances (within_advances Advances.of_uint32)

theorem loaderOf_spans (start : Nat) (code : UInt16) :
    Spans (fun _ => 0) (loaderOf start code) :=
  .of_advances (loaderOf_advances start code)

theorem readText_spans (start : Nat) :
    Spans (fun s => 4 + (Utf8.encode s).length) (readText start) := by
  unfold readText
  apply Spans.of_bind (word_spans start)
  intro size c s c' hrun
  rcases of_bind_run hrun with ⟨bs, middle, hbytes, hrest⟩
  have hle := (within_advances (Advances.of_bytes size.toNat)) c bs middle hbytes
  have hlength : bs.length = size.toNat := by
    unfold within Read.mapError Read.bytes at hbytes
    cases hslice : c.bytes.slice c.position size.toNat with
    | error e =>
        rw [hslice] at hbytes
        cases hbytes
    | ok part =>
        rw [hslice] at hbytes
        cases hbytes
        exact Bytes.length_of_slice hslice
  cases hdecode : Utf8.decode bs with
  | error fault =>
      rw [hdecode] at hrest
      cases hrest
  | ok text =>
      rw [hdecode] at hrest
      cases hrest
      dsimp only
      rw [Utf8.length_encode_of_decode hdecode, hlength]
      omega

theorem readState_spans (start : Nat) : Spans (fun _ => 4) (readState start) := by
  unfold readState
  apply Spans.of_bind (word_spans start)
  intro code
  split
  · exact .of_pure rfl
  · exact .of_throw _

theorem decodeOperands_spans (start : Nat) (tag half : UInt16) :
    Spans (fun r => r.operands.length) (decodeOperands start tag half) := by
  have hword : ∀ f : UInt32 → TagRecord, (∀ v, (f v).operands.length = 4) →
      Spans (fun r => r.operands.length)
        (within start Read.uint32 >>= fun v => pure (f v)) := by
    intro f hf
    apply Spans.of_bind (word_spans start)
    intro v
    apply Spans.of_pure
    rw [hf]
  have hclass : ∀ f : Loader → UInt32 → InitState → TagRecord,
      (∀ loader index state, (f loader index state).operands.length = 8) →
      Spans (fun r => r.operands.length) (loaderOf start half >>= fun loader =>
        within start Read.uint32 >>= fun index =>
          readState start >>= fun state => pure (f loader index state)) := by
    intro f hf
    apply Spans.of_bind (loaderOf_spans start half)
    intro loader
    apply Spans.of_bind (word_spans start)
    intro index
    apply Spans.of_bind (readState_spans start)
    intro state
    apply Spans.of_pure
    rw [hf]
  unfold decodeOperands
  split
  · exact .of_throw _
  · split
    · exact hword _ fun _ => rfl
    · exact .of_throw _
  · apply Spans.of_bind (readText_spans start)
    intro s
    apply Spans.of_pure
    simp [operands]
  · apply Spans.of_bind (loaderOf_spans start half)
    intro loader
    exact .of_pure rfl
  · apply Spans.of_bind (word_spans start)
    intro index
    split
    · exact .of_pure rfl
    · exact .of_throw _
  · exact .of_throw _
  · exact .of_pure rfl
  · exact hword _ fun _ => rfl
  · exact hclass _ fun _ _ _ => by simp [operands]
  · exact hclass _ fun _ _ _ => by simp [operands]
  · apply Spans.of_bind (loaderOf_spans start half)
    intro loader
    exact hword _ fun _ => rfl
  · exact .of_pure rfl
  · exact .of_pure rfl
  · exact .of_pure rfl
  · exact .of_throw _

theorem position_of_decode {c next : Cursor} {r : TagRecord}
    (h : decode c = .ok r next) :
    c.position % 8 = 0 ∧ c.position + r.encode.length ≤ next.position := by
  unfold decode at h
  rcases of_bind_run h with ⟨start, c₁, hstart, h⟩
  cases hstart
  dsimp only at h
  split at h
  · cases h
  · rename_i haligned
    rcases of_bind_run h with ⟨tag, c₂, htag, h⟩
    rcases of_bind_run h with ⟨half, c₃, hhalf, h⟩
    rcases of_bind_run h with ⟨record, c₄, hrecord, h⟩
    rcases of_bind_run h with ⟨_, c₅, halign, h⟩
    cases h
    cases halign
    have htag_le := (within_advances Advances.of_uint16 _ _ _ htag).2.1
    have hhalf_le := (within_advances Advances.of_uint16 _ _ _ hhalf).2.1
    have hoperands := decodeOperands_spans _ tag half _ _ _ hrecord
    have hmod : c.position % 8 = 0 := by
      simpa [isAligned] using haligned
    refine ⟨hmod, ?_⟩
    change _ ≤ alignUp c₄.position
    unfold encode
    rw [Bytes.length_padded, List.length_append, List.length_append,
      Bytes.length_ofUInt16, Bytes.length_ofUInt16]
    unfold alignUp
    dsimp only at hoperands
    omega

end TagRecord

namespace TagStream

theorem Holds.encode_fits {c : Cursor} {records : List TagRecord}
    (h : Holds c records) (hwords : c.bytes.length % 8 = 0) :
    c.position + (encode records).length ≤ c.bytes.length := by
  induction h with
  | finish h =>
      rcases TagRecord.decode_advances _ _ _ h with ⟨-, -, hin⟩
      have hmod := (TagRecord.position_of_decode h).1
      have hinside := hin (by decide)
      change _ + 8 ≤ _
      omega
  | cons h hne rest ih =>
      rcases TagRecord.decode_advances _ _ _ h with ⟨hbytes, -, -⟩
      have hrecord := (TagRecord.position_of_decode h).2
      rw [hbytes] at ih
      have hrest := ih hwords
      unfold encode at hrest ⊢
      rw [List.flatMap_cons, List.append_assoc, List.length_append]
      omega

end TagStream

end CodeCache
