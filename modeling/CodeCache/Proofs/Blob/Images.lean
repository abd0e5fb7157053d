import CodeCache.Proofs.Blob.Contents

/-!
# Blobs as bytes

Chains only need to know of a blob that it is a header, whose link may change,
with bytes behind it in which its sections lie. A blob that was written from a
method is such an image, and so is every blob that can be parsed, whoever wrote
it.
-/

namespace CodeCache

/-!
## Bytes as words
-/

namespace Bytes

theorem ofUInt32_toUInt32 {bs : Bytes} (h : bs.length = 4) :
    ofUInt32 (toUInt32 bs) = bs := by
  have hlt := ofLittleEndian_lt bs
  rw [h] at hlt
  unfold ofUInt32 toUInt32
  rw [UInt32.toNat_ofNat_of_lt' hlt, ← h]
  exact littleEndian_ofLittleEndian bs

theorem exists_ofWords (n : Nat) {bs : Bytes} (h : bs.length = n * 4) :
    ∃ words : List UInt32, words.length = n ∧ bs = ofWords words := by
  induction n generalizing bs with
  | zero =>
      rw [Nat.zero_mul, List.length_eq_zero_iff] at h
      exact ⟨[], rfl, h⟩
  | succ n ih =>
      rw [Nat.succ_mul] at h
      have hfront : (bs.take 4).length = 4 := by
        rw [List.length_take]
        omega
      have hrest : (bs.drop 4).length = n * 4 := by
        rw [List.length_drop]
        omega
      rcases ih hrest with ⟨words, hlength, hwords⟩
      refine ⟨toUInt32 (bs.take 4) :: words, congrArg (· + 1) hlength, ?_⟩
      unfold ofWords at hwords ⊢
      rw [List.flatMap_cons, ofUInt32_toUInt32 hfront, ← hwords,
        List.take_append_drop]

theorem overwrite_padded {bs : Bytes} {offset : Nat} {new : Bytes}
    (h : offset + new.length ≤ bs.length) :
    bs.padded.overwrite offset new = (bs.overwrite offset new).padded := by
  have hpadding : (bs.overwrite offset new).padding = bs.padding := by
    unfold padding
    rw [length_overwrite h]
  rw [padded_eq, padded_eq, hpadding]
  unfold overwrite
  rw [List.take_append_of_le_length (by omega), List.drop_append_of_le_length h]
  simp only [List.append_assoc]

end Bytes

namespace BlobHeader

theorem exists_encode_eq {bs : Bytes} (h : bs.length = byteSize) :
    ∃ header : BlobHeader, header.encode = bs := by
  rcases Bytes.exists_ofWords 22 h with ⟨words, hlength, rfl⟩
  match words, hlength with
  | [size, codeSize, entry, verifiedEntry, relocStart, relocCount, depsStart,
      depsLength, optsStart, optsLength, oopCount, metaCount, metaStart,
      metaLength, oopStart, oopLength, siteStart, siteLength, mapsStart,
      mapsLength, next, methodIndex], _ =>
      refine ⟨⟨size, codeSize, entry, verifiedEntry, relocStart, relocCount,
        ⟨depsStart, depsLength⟩, ⟨optsStart, optsLength⟩, oopCount, metaCount,
        ⟨metaStart, metaLength⟩, ⟨oopStart, oopLength⟩, ⟨siteStart, siteLength⟩,
        ⟨mapsStart, mapsLength⟩, next.toInt32, methodIndex⟩, ?_⟩
      simp only [encode, Bytes.ofWords, Bytes.ofInt32, UInt32.toUInt32_toInt32,
        List.flatMap_cons, List.flatMap_nil, List.append_nil, List.append_assoc]

theorem encode_of_run {bs : Bytes} {header : BlobHeader}
    (hlength : bs.length = byteSize) (h : decode.run bs = .ok header) :
    header.encode = bs := by
  rcases exists_encode_eq hlength with ⟨header', rfl⟩
  rw [(decode_reads header' 0).run_eq] at h
  cases h
  rfl

end BlobHeader

/-!
## Images
-/

namespace Blob

structure Image where
  header : BlobHeader
  rest : Bytes

namespace Image

def size (i : Image) : Nat :=
  BlobHeader.byteSize + i.rest.length

def linked (i : Image) (next : Int32) : BlobHeader :=
  { i.header with nextVersion := next }

def bytes (i : Image) (next : Int32) : Bytes :=
  (i.linked next).encode ++ i.rest

def blob (i : Image) (next : Int32) (offset : UInt32) : Blob :=
  ⟨i.bytes next, i.linked next, offset⟩

structure Sound (i : Image) : Prop where
  size_eq : i.header.size.toNat = i.size
  sections_fit : badSection? i.header i.size = none

variable {i : Image}

theorem byteSize_le_size (i : Image) : BlobHeader.byteSize ≤ i.size :=
  Nat.le_add_right _ _

theorem length_bytes (i : Image) (next : Int32) :
    (i.bytes next).length = i.size := by
  unfold bytes size
  rw [List.length_append, BlobHeader.length_encode]

theorem bytes_setNext (i : Image) (next next' : Int32) :
    (i.bytes next).overwrite BlobHeader.nextVersionOffset (Bytes.ofInt32 next') =
      i.bytes next' :=
  BlobHeader.overwrite_next _ _ _

theorem Sound.parse_eq (h : i.Sound) {space : Bytes} {offset : UInt32}
    {next : Int32} (hpart : space.HasPart offset.toNat (i.bytes next))
    (haligned : offset.toNat % 8 = 0) :
    parse space offset = .ok (i.blob next offset) := by
  have hfits := hpart.fits
  have hwindow := hpart.window_eq
  have hroom := i.byteSize_le_size
  have hsize : (i.linked next).size.toNat = i.size := h.size_eq
  rw [length_bytes] at hfits hwindow
  apply LiesAt.parse_eq
  constructor
  · rfl
  · unfold isAligned
    rw [haligned]
    rfl
  · omega
  · have hheader : space.window offset.toNat BlobHeader.byteSize =
        (i.linked next).encode := by
      rcases hpart with ⟨pre, post, rfl, hpre⟩
      unfold bytes
      rw [← hpre, ← BlobHeader.length_encode (i.linked next),
        ← List.append_assoc, List.append_assoc _ _ post]
      exact Bytes.window_append _ _ _
    rw [hheader]
    exact (BlobHeader.decode_reads _ 0).run_eq
  · show offset.toNat + (i.linked next).size.toNat ≤ space.length
    rw [hsize]
    exact hfits
  · show BlobHeader.byteSize ≤ (i.linked next).size.toNat
    rw [hsize]
    exact hroom
  · show badSection? (i.linked next) (i.linked next).size.toNat = none
    rw [hsize]
    exact h.sections_fit
  · show i.bytes next = space.window offset.toNat (i.linked next).size.toNat
    rw [hsize, hwindow]

/-- Every blob that can be parsed is an image at its place. -/
theorem exists_of_parse {space : Bytes} {offset : UInt32} {b : Blob}
    (h : parse space offset = .ok b) :
    ∃ i : Image, i.Sound ∧ b = i.blob b.header.nextVersion offset := by
  have hlies := liesAt_of_parse h
  have hfits := hlies.fits
  have hroom := hlies.header_le_size
  have hlength : (space.window offset.toNat b.header.size.toNat).length =
      b.header.size.toNat :=
    Bytes.length_window hfits
  have hfront : (space.window offset.toNat b.header.size.toNat).take
      BlobHeader.byteSize = b.header.encode := by
    have htake : (space.window offset.toNat b.header.size.toNat).take
        BlobHeader.byteSize = space.window offset.toNat BlobHeader.byteSize := by
      unfold Bytes.window
      rw [List.take_take, Nat.min_eq_left hroom]
    rw [htake, BlobHeader.encode_of_run (Bytes.length_window hlies.header_fits)
      hlies.header_read]
  have hbytes : b.bytes = b.header.encode ++ b.bytes.drop BlobHeader.byteSize := by
    rw [hlies.bytes_eq, ← hfront, List.take_append_drop]
  have hsize : size ⟨b.header, b.bytes.drop BlobHeader.byteSize⟩ =
      b.header.size.toNat := by
    unfold size
    rw [List.length_drop, hlies.bytes_eq, hlength]
    omega
  refine ⟨⟨b.header, b.bytes.drop BlobHeader.byteSize⟩, ⟨hsize.symm, ?_⟩, ?_⟩
  · rw [hsize]
    exact hlies.sections_fit
  · rw [← hlies.offset_eq]
    exact congrArg (fun bytes => (⟨bytes, b.header, b.offset⟩ : Blob)) hbytes

end Image

end Blob

/-!
## Blobs of methods
-/

namespace Emit.Content

def image (c : Content) : Blob.Image where
  header := c.header (-1)
  rest := (body c.method c.parts).drop BlobHeader.byteSize

theorem linked_image (c : Content) (next : Int32) :
    c.image.linked next = c.header next := by
  unfold Blob.Image.linked image header
  rfl

theorem bytes_image (c : Content) (next : Int32) :
    c.image.bytes next = c.bytes next := by
  rw [bytes_eq, Blob.Image.bytes, linked_image, image]

theorem blob_image (c : Content) (next : Int32) (offset : UInt32) :
    c.image.blob next offset = c.blob next offset := by
  rw [Blob.Image.blob, bytes_image, linked_image]
  rfl

theorem size_image (c : Content) : c.image.size = c.size := by
  rw [← c.image.length_bytes (-1), bytes_image, length_bytes]

theorem sound_image {c : Content} (h : c.size < 2 ^ 32) : c.image.Sound := by
  have hfilled := c.filled h (-1)
  have hsize : (c.header (-1)).size.toNat = c.image.size := by
    rw [hfilled.size_eq, length_bytes, size_image]
  refine ⟨hsize, ?_⟩
  rw [← hsize]
  exact hfilled.sections_fit

end Emit.Content

namespace Blob.Image

def OfMethod (i : Image) : Prop :=
  ∃ content : Emit.Content, content.Sound ∧ content.size < 2 ^ 32 ∧
    i = content.image

theorem OfMethod.stores {i : Image} (h : i.OfMethod) (next : Int32)
    (offset : UInt32) :
    ∃ nm metas oops sites, (i.blob next offset).Stores nm metas oops sites := by
  rcases h with ⟨content, hsound, hsize, rfl⟩
  rw [content.blob_image]
  exact ⟨_, _, _, _, hsound.stores hsize next offset⟩

end Blob.Image

end CodeCache
