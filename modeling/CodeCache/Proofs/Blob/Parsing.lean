import CodeCache.Blob.Basic
import Mathlib.Algebra.Ring.Nat

/-!
# When a blob is accepted

A blob is accepted at an offset exactly if its header can be read there and all
of its sections lie behind the header and inside the blob.
-/

namespace CodeCache

namespace Blob

structure LiesAt (space : Bytes) (offset : UInt32) (b : Blob) : Prop where
  offset_eq : b.offset = offset
  aligned : isAligned offset.toNat = true
  header_fits : offset.toNat + BlobHeader.byteSize ≤ space.length
  header_read : BlobHeader.decode.run
    (space.window offset.toNat BlobHeader.byteSize) = .ok b.header
  fits : offset.toNat + b.header.size.toNat ≤ space.length
  header_le_size : BlobHeader.byteSize ≤ b.header.size.toNat
  sections_fit : badSection? b.header b.header.size.toNat = none
  bytes_eq : b.bytes = space.window offset.toNat b.header.size.toNat

theorem liesAt_of_parse {space : Bytes} {offset : UInt32} {b : Blob}
    (h : parse space offset = .ok b) :
    b.LiesAt space offset := by
  unfold parse at h
  simp only [bind, Except.bind] at h
  split at h
  · cases h
  · rename_i haligned
    split at h
    · cases h
    · rename_i hheader
      split at h
      · cases h
      · rename_i header hread
        split at h
        · cases h
        · rename_i hfits
          split at h
          · cases h
          · rename_i hsize
            split at h
            · cases h
            · rename_i hsections
              cases h
              constructor
              · rfl
              · simpa using haligned
              · exact Nat.not_lt.mp hheader
              · exact hread
              · exact Nat.not_lt.mp hfits
              · exact Nat.not_lt.mp hsize
              · exact hsections
              · rfl

theorem LiesAt.parse_eq {space : Bytes} {offset : UInt32} {b : Blob}
    (h : b.LiesAt space offset) :
    parse space offset = .ok b := by
  have haligned := h.aligned
  have hheader := h.header_fits
  have hfits := h.fits
  have hsize := h.header_le_size
  unfold parse
  simp only [bind, Except.bind]
  rw [haligned, if_neg (by decide), if_neg (Nat.not_lt.mpr hheader),
    h.header_read]
  dsimp only
  rw [if_neg (Nat.not_lt.mpr hfits), if_neg (Nat.not_lt.mpr hsize),
    h.sections_fit, ← h.bytes_eq, ← h.offset_eq]
  rfl

theorem parse_eq_ok_iff {space : Bytes} {offset : UInt32} {b : Blob} :
    parse space offset = .ok b ↔ b.LiesAt space offset :=
  ⟨liesAt_of_parse, LiesAt.parse_eq⟩

end Blob

end CodeCache
