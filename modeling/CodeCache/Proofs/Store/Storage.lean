import CodeCache.Proofs.Bytes.Reading
import CodeCache.Store.Container

/-!
# Stored containers

Fingerprints, lookup tables and containers are read back as they were written.
The sections of a container are found by their offsets, so those have to fit
their 32-bit fields.
-/

namespace CodeCache

/-!
## Fingerprints
-/

namespace Fingerprint

theorem decodePointer_reads (p : NarrowPointer) (place : Nat) :
    Reads place decodePointer (encodePointer p) p := by
  have hflag : ((if p.implicitNullChecks then 1 else 0 : UInt32) != 0) =
      p.implicitNullChecks := by
    cases p.implicitNullChecks <;> rfl
  unfold decodePointer encodePointer
  rw [List.append_assoc]
  refine (Reads.of_uint64 _).of_bind ?_
  refine (Reads.of_uint32 _).of_bind ?_
  have hread : Reads (place + (Bytes.ofUInt64 p.base).length +
      (Bytes.ofUInt32 p.shift).length)
      (Read.uint32 >>= fun checks => pure
        ({ base := p.base, shift := p.shift,
           implicitNullChecks := checks != 0 } : NarrowPointer))
      (Bytes.ofUInt32 (if p.implicitNullChecks then 1 else 0)) _ :=
    (Reads.of_uint32 _).of_bind_pure
  rw [hflag] at hread
  exact hread

theorem decodeFlags_reads (flags : List (UInt32 × Bool)) (place : Nat) :
    Reads place (decodeFlags flags.length) (flags.flatMap encodeFlag) flags := by
  induction flags generalizing place with
  | nil => exact Reads.of_pure []
  | cons flag flags ih =>
      rcases flag with ⟨index, value⟩
      have hflag : ((if value then 1 else 0 : UInt32) != 0) = value := by
        cases value <;> rfl
      rw [List.flatMap_cons, List.length_cons]
      unfold decodeFlags encodeFlag
      rw [List.append_assoc]
      refine (Reads.of_uint32 _).of_bind ?_
      refine (Reads.of_uint32 _).of_bind ?_
      rw [hflag]
      exact (ih _).of_bind_pure

theorem length_flags (flags : List (UInt32 × Bool)) :
    (flags.flatMap encodeFlag).length = flags.length * 8 := by
  induction flags with
  | nil => rfl
  | cons flag flags ih =>
      rw [List.flatMap_cons, List.length_append, ih, List.length_cons]
      unfold encodeFlag
      rw [List.length_append, Bytes.length_ofUInt32, Bytes.length_ofUInt32]
      omega

@[simp] theorem length_encode (f : Fingerprint) :
    f.encode.length = f.encodedSize := by
  unfold encode encodePointer encodedSize headerSize
  simp only [List.length_append, Bytes.length_ofUInt32, Bytes.length_ofUInt64,
    length_flags]

theorem decode_encode {f : Fingerprint} (h : f.encodedSize < 2 ^ 32) :
    decode f.encode = .ok f := by
  have hcount : (UInt32.ofNat f.flags.length).toNat = f.flags.length := by
    apply UInt32.toNat_ofNat_of_lt'
    unfold encodedSize at h
    show f.flags.length < 2 ^ 32
    omega
  apply Reads.run_eq
  unfold encode decoder
  simp only [List.append_assoc]
  refine (Reads.of_uint32 _).of_bind ?_
  refine (Reads.of_uint32 _).of_bind ?_
  refine (Reads.of_uint32 _).of_bind ?_
  refine (Reads.of_uint32 _).of_bind ?_
  refine (decodePointer_reads _ _).of_bind ?_
  refine (decodePointer_reads _ _).of_bind ?_
  rw [hcount]
  refine Reads.of_remaining ?_
  intro held hheld
  rw [length_flags] at hheld
  refine Reads.of_check (by omega) ?_
  exact (decodeFlags_reads _ _).of_bind_pure

end Fingerprint

/-!
## Lookup tables
-/

namespace TableEntry

theorem decode_reads (e : TableEntry) (place : Nat) :
    Reads place decode e.encode e := by
  unfold decode encode
  simp only [List.append_assoc]
  refine (Reads.of_int32 _).of_bind ?_
  refine (Reads.of_uint32 _).of_bind ?_
  refine (Reads.of_int32 _).of_bind ?_
  exact (Reads.of_int32 _).of_bind_pure

theorem decodeMany_reads (es : List TableEntry) (place : Nat) :
    Reads place (decodeMany es.length) (es.flatMap encode) es := by
  induction es generalizing place with
  | nil => exact Reads.of_pure []
  | cons e es ih =>
      rw [List.flatMap_cons, List.length_cons]
      unfold decodeMany
      refine (decode_reads e _).of_bind ?_
      exact (ih _).of_bind_pure

end TableEntry

namespace LookupTable

structure Shaped (t : LookupTable) : Prop where
  has_buckets : 0 < t.bucketCount
  buckets_le : t.bucketCount ≤ t.entries.length

theorem decode_encode {t : LookupTable} (hshape : t.Shaped)
    (h : t.encodedSize < 2 ^ 32) :
    decode t.encode = .ok t := by
  have hle := hshape.buckets_le
  have hpos := hshape.has_buckets
  have hsize : t.encode.length = headerSize + t.entries.length * 16 :=
    t.length_encode
  have hentries : t.entries.length < 2 ^ 32 := by
    unfold encodedSize TableEntry.byteSize at h
    omega
  have hcount : (UInt32.ofNat t.entries.length).toNat = t.entries.length :=
    UInt32.toNat_ofNat_of_lt' hentries
  have hbuckets : (UInt32.ofNat t.bucketCount).toNat = t.bucketCount :=
    UInt32.toNat_ofNat_of_lt' (Nat.lt_of_le_of_lt hle hentries)
  apply Reads.run_eq
  have hbody : (t.entries.flatMap TableEntry.encode).length =
      t.entries.length * 16 := by
    unfold encode headerSize at hsize
    simp only [List.length_append, Bytes.length_ofUInt32] at hsize
    omega
  have hread : Reads 0 (decoder t.encode.length)
      (Bytes.ofUInt32 (UInt32.ofNat t.bucketCount) ++
        (Bytes.ofUInt32 (UInt32.ofNat t.entries.length) ++
          t.entries.flatMap TableEntry.encode)) t := by
    unfold decoder
    refine (Reads.of_uint32 _).of_bind ?_
    refine (Reads.of_uint32 _).of_bind ?_
    rw [hcount, hbuckets]
    refine Reads.of_remaining ?_
    intro held hheld
    rw [hbody] at hheld
    refine Reads.of_check ?_ ?_
    · unfold TableEntry.byteSize
      omega
    · exact (TableEntry.decodeMany_reads _ _).of_bind_pure
  rwa [← List.append_assoc] at hread

end LookupTable

/-!
## Containers
-/

namespace Container

def codeStart (c : Container) : Nat :=
  headerSize + alignUp c.fingerprint.encodedSize + alignUp c.table.encodedSize

structure WellFormed (c : Container) : Prop where
  shaped : c.table.Shaped
  code_lt : c.code.size < 2 ^ 31

/-- Every section starts, and is smaller than, four gigabytes from the start of
the container. -/
structure Storable (c : Container) : Prop where
  shaped : c.table.Shaped
  start_lt : c.codeStart < 2 ^ 32
  code_lt : c.code.size < 2 ^ 32

theorem length_encode (c : Container) (next : UInt64) :
    (c.encode next).length = c.encodedSize := by
  unfold encode encodedSize headerSize CodeSpace.size
  simp [Bytes.ofWords]
  omega

theorem encodedSize_mod (c : Container) : c.encodedSize % 8 = 0 := by
  have hfingerprint := alignUp_mod c.fingerprint.encodedSize
  have htable := alignUp_mod c.table.encodedSize
  have hcode := alignUp_mod c.code.size
  unfold encodedSize headerSize
  omega

theorem headerSize_le_encodedSize (c : Container) :
    headerSize ≤ c.encodedSize := by
  unfold encodedSize
  omega

def header (c : Container) (next : UInt64) : Bytes :=
  Bytes.ofWords ([headerSize, c.fingerprint.encodedSize,
      headerSize + alignUp c.fingerprint.encodedSize, c.table.encodedSize,
      c.codeStart, c.code.size].map UInt32.ofNat)
    ++ Bytes.ofUInt64 next

theorem length_header (c : Container) (next : UInt64) :
    (c.header next).length = headerSize := by
  unfold header headerSize
  simp [Bytes.ofWords]

theorem encode_eq (c : Container) (next : UInt64) :
    c.encode next = c.header next ++ c.fingerprint.encode.padded ++
      c.table.encode.padded ++ c.code.bytes.padded := by
  unfold encode header codeStart CodeSpace.size
  dsimp only
  rw [Fingerprint.length_encode, LookupTable.length_encode]

theorem decodeHeader_run (c : Container) (next : UInt64) :
    decodeHeader.run (c.header next) = .ok
      (⟨UInt32.ofNat headerSize, UInt32.ofNat c.fingerprint.encodedSize⟩,
        ⟨UInt32.ofNat (headerSize + alignUp c.fingerprint.encodedSize),
          UInt32.ofNat c.table.encodedSize⟩,
        ⟨UInt32.ofNat c.codeStart, UInt32.ofNat c.code.size⟩, next) := by
  apply Reads.run_eq
  unfold header Bytes.ofWords decodeHeader BlobHeader.readSection
  simp only [List.map_cons, List.map_nil, List.flatMap_cons, List.flatMap_nil,
    List.append_assoc, List.nil_append, bind_assoc, pure_bind]
  refine (Reads.of_uint32 _).of_bind ?_
  refine (Reads.of_uint32 _).of_bind ?_
  refine (Reads.of_uint32 _).of_bind ?_
  refine (Reads.of_uint32 _).of_bind ?_
  refine (Reads.of_uint32 _).of_bind ?_
  refine (Reads.of_uint32 _).of_bind ?_
  exact (Reads.of_uint64 _).of_bind_pure

theorem section?_append {start : Nat} {offset length : UInt32} {bs : Bytes}
    (pre post : Bytes) (hstart : start + offset.toNat = pre.length)
    (hlength : length.toNat = bs.length) (hbehind : headerSize ≤ offset.toNat) :
    Container.section? (pre ++ bs ++ post) start offset length = .ok bs := by
  unfold section?
  rw [if_neg (Nat.not_lt.mpr hbehind), hstart, hlength]
  exact Bytes.slice_append pre bs post

/-!
Where the parts of a container lie among other bytes.
-/

section Parts

variable {c : Container} (pre post : Bytes) (next : UInt64)

theorem slice_header :
    (pre ++ c.encode next ++ post).slice pre.length headerSize =
      .ok (c.header next) := by
  have hsplit : pre ++ c.encode next ++ post =
      pre ++ c.header next ++ (c.fingerprint.encode.padded ++
        c.table.encode.padded ++ c.code.bytes.padded ++ post) := by
    rw [encode_eq]
    simp only [List.append_assoc]
  rw [hsplit, ← c.length_header next]
  exact Bytes.slice_append _ _ _

variable (h : c.Storable)
include h

theorem section?_fingerprint :
    Container.section? (pre ++ c.encode next ++ post) pre.length
      (UInt32.ofNat headerSize) (UInt32.ofNat c.fingerprint.encodedSize) =
        .ok c.fingerprint.encode := by
  have hfits := h.start_lt
  have hfp := le_alignUp c.fingerprint.encodedSize
  unfold codeStart at hfits
  have hsplit : pre ++ c.encode next ++ post =
      (pre ++ c.header next) ++ c.fingerprint.encode ++
        (c.fingerprint.encode.padding ++ c.table.encode.padded ++
          c.code.bytes.padded ++ post) := by
    rw [encode_eq]
    simp only [Bytes.padded_eq, List.append_assoc]
  have hstart : (UInt32.ofNat headerSize).toNat = headerSize :=
    UInt32.toNat_ofNat_of_lt' (show _ < 2 ^ 32 by omega)
  rw [hsplit]
  refine section?_append _ _ ?_ ?_ ?_
  · rw [hstart, List.length_append, length_header]
  · rw [UInt32.toNat_ofNat_of_lt' (show _ < 2 ^ 32 by omega), Fingerprint.length_encode]
  · exact Nat.le_of_eq hstart.symm

theorem section?_table :
    Container.section? (pre ++ c.encode next ++ post) pre.length
      (UInt32.ofNat (headerSize + alignUp c.fingerprint.encodedSize))
      (UInt32.ofNat c.table.encodedSize) = .ok c.table.encode := by
  have hfits := h.start_lt
  have htb := le_alignUp c.table.encodedSize
  unfold codeStart at hfits
  have hsplit : pre ++ c.encode next ++ post =
      (pre ++ c.header next ++ c.fingerprint.encode.padded) ++
        c.table.encode ++
          (c.table.encode.padding ++ c.code.bytes.padded ++ post) := by
    rw [encode_eq]
    simp only [Bytes.padded_eq, List.append_assoc]
  have hstart :
      (UInt32.ofNat (headerSize + alignUp c.fingerprint.encodedSize)).toNat =
        headerSize + alignUp c.fingerprint.encodedSize :=
    UInt32.toNat_ofNat_of_lt' (show _ < 2 ^ 32 by omega)
  rw [hsplit]
  refine section?_append _ _ ?_ ?_ ?_
  · rw [hstart, List.length_append, List.length_append, length_header,
      Bytes.length_padded, Fingerprint.length_encode, Nat.add_assoc]
  · rw [UInt32.toNat_ofNat_of_lt' (show _ < 2 ^ 32 by omega), LookupTable.length_encode]
  · rw [hstart]
    exact Nat.le_add_right _ _

theorem section?_code :
    Container.section? (pre ++ c.encode next ++ post) pre.length
      (UInt32.ofNat c.codeStart) (UInt32.ofNat c.code.size) =
        .ok c.code.bytes := by
  have hsplit : pre ++ c.encode next ++ post =
      (pre ++ c.header next ++ c.fingerprint.encode.padded ++
        c.table.encode.padded) ++ c.code.bytes ++
          (c.code.bytes.padding ++ post) := by
    rw [encode_eq]
    simp only [Bytes.padded_eq, List.append_assoc]
  have hstart : (UInt32.ofNat c.codeStart).toNat = c.codeStart :=
    UInt32.toNat_ofNat_of_lt' h.start_lt
  rw [hsplit]
  refine section?_append _ _ ?_ ?_ ?_
  · rw [hstart]
    simp only [List.length_append, length_header, Bytes.length_padded,
      Fingerprint.length_encode, LookupTable.length_encode]
    unfold codeStart
    omega
  · rw [UInt32.toNat_ofNat_of_lt' h.code_lt]
    rfl
  · rw [hstart]
    unfold codeStart
    omega

end Parts

/-- Reading a container back yields it, whatever stands around it, unless its
link leads backwards. -/
theorem decode_encode_cases {c : Container} (h : c.Storable) (pre post : Bytes)
    (next : UInt64) :
    decode (pre ++ c.encode next ++ post) pre.length =
      if next = 0 then .ok (c, none)
      else if next.toNat ≤ pre.length then
        .error (.corruption (.containerLink pre.length next.toNat))
      else .ok (c, some next) := by
  have hfits := h.start_lt
  have hfp := le_alignUp c.fingerprint.encodedSize
  have htb := le_alignUp c.table.encodedSize
  unfold codeStart at hfits
  unfold decode
  rw [slice_header]
  dsimp only [bind, Except.bind]
  rw [decodeHeader_run]
  dsimp only
  rw [section?_fingerprint pre post next h]
  rw [section?_table pre post next h, section?_code pre post next h]
  dsimp only
  rw [Fingerprint.decode_encode (by omega),
    LookupTable.decode_encode h.shaped (by omega)]
  dsimp only
  rfl

theorem decode_encode {c : Container} (h : c.Storable) (pre post : Bytes)
    {next : UInt64} (hnext : next ≠ 0 → pre.length < next.toNat) :
    decode (pre ++ c.encode next ++ post) pre.length =
      .ok (c, if next = 0 then none else some next) := by
  rw [decode_encode_cases h]
  by_cases hlast : next = 0
  · rw [if_pos hlast, if_pos hlast]
  · rw [if_neg hlast, if_neg hlast, if_neg (Nat.not_le.mpr (hnext hlast))]

end Container

end CodeCache
