import CodeCache.Blob.Emit
import CodeCache.Proofs.Assumption.Storage
import CodeCache.Proofs.Blob.Parsing
import CodeCache.Proofs.Code.Storage
import CodeCache.Proofs.Tag.Storage

/-!
# The layout of a blob

A blob is its header and a stack of sections, each on a multiple of eight. The
header is written last, over the room left for it. Parsing the blob of a method
finds every section where the header says, and the sections hold what was
written.
-/

namespace CodeCache

/-!
## Parts of bytes
-/

namespace Bytes

def HasPart (bs : Bytes) (start : Nat) (part : Bytes) : Prop :=
  ∃ pre post, bs = pre ++ part ++ post ∧ pre.length = start

namespace HasPart

variable {bs part : Bytes} {start : Nat}

theorem window_eq (h : bs.HasPart start part) :
    bs.window start part.length = part := by
  rcases h with ⟨pre, post, rfl, rfl⟩
  exact window_append pre part post

theorem fits (h : bs.HasPart start part) : start + part.length ≤ bs.length := by
  rcases h with ⟨pre, post, rfl, rfl⟩
  simp only [List.length_append]
  omega

theorem append (h : bs.HasPart start part) (more : Bytes) :
    (bs ++ more).HasPart start part := by
  rcases h with ⟨pre, post, rfl, hstart⟩
  refine ⟨pre, post ++ more, ?_, hstart⟩
  simp only [List.append_assoc]

theorem padded (h : bs.HasPart start part) : bs.padded.HasPart start part :=
  h.append bs.padding

theorem of_padded (h : bs.HasPart start part.padded) : bs.HasPart start part := by
  rcases h with ⟨pre, post, rfl, hstart⟩
  refine ⟨pre, part.padding ++ post, ?_, hstart⟩
  rw [padded_eq]
  simp only [List.append_assoc]

theorem overwrite (h : bs.HasPart start part) {new : Bytes}
    (hnew : new.length ≤ start) :
    (bs.overwrite 0 new).HasPart start part := by
  rcases h with ⟨pre, post, rfl, rfl⟩
  refine ⟨new ++ pre.drop new.length, post, ?_, ?_⟩
  · unfold Bytes.overwrite
    rw [List.take_zero, List.nil_append, Nat.zero_add, List.append_assoc pre,
      List.drop_append_of_le_length hnew]
    simp only [List.append_assoc]
  · rw [List.length_append, List.length_drop]
    omega

end HasPart

theorem overwrite_append (pre : Bytes) {old new : Bytes} (post : Bytes)
    (h : new.length = old.length) :
    (pre ++ old ++ post).overwrite pre.length new = pre ++ new ++ post := by
  unfold overwrite
  rw [h, List.append_assoc pre old post, List.take_left, ← List.append_assoc,
    ← List.length_append, List.drop_left]

/-!
## Stacks of sections
-/

def stack (bs : Bytes) : List Bytes → Bytes
  | [] => bs
  | part :: parts => stack (bs.padded ++ part) parts

theorem stack_append (bs : Bytes) (before after : List Bytes) :
    bs.stack (before ++ after) = (bs.stack before).stack after := by
  induction before generalizing bs with
  | nil => rfl
  | cons part before ih => exact ih (bs.padded ++ part)

theorem HasPart.stack {bs part : Bytes} {start : Nat}
    (h : bs.HasPart start part) (parts : List Bytes) :
    (bs.stack parts).HasPart start part := by
  induction parts generalizing bs with
  | nil => exact h
  | cons other parts ih => exact ih (h.padded.append other)

theorem hasPart_stack (bs : Bytes) (before : List Bytes) (part : Bytes)
    (after : List Bytes) :
    (bs.stack (before ++ part :: after)).HasPart
      (alignUp (bs.stack before).length) part := by
  rw [stack_append]
  have hpart : ((bs.stack before).padded ++ part).HasPart
      (alignUp (bs.stack before).length) part := by
    refine ⟨(bs.stack before).padded, [], ?_, length_padded _⟩
    rw [List.append_nil]
  exact hpart.stack after

theorem length_le_stack (bs : Bytes) (parts : List Bytes) :
    bs.length ≤ (bs.stack parts).length := by
  induction parts generalizing bs with
  | nil => exact Nat.le_refl _
  | cons part parts ih =>
      have hrest := ih (bs.padded ++ part)
      have hpad := le_alignUp bs.length
      rw [List.length_append, length_padded] at hrest
      exact Nat.le_trans (by omega) hrest

end Bytes

/-!
## Headers
-/

namespace BlobHeader

theorem readSection_reads (s : Section) (place : Nat) :
    Reads place readSection
      (Bytes.ofUInt32 s.start ++ Bytes.ofUInt32 s.length) s := by
  refine (Reads.of_uint32 _).of_bind ?_
  exact (Reads.of_uint32 _).of_bind_pure

theorem decode_reads (h : BlobHeader) (place : Nat) :
    Reads place decode h.encode h := by
  have hsection : ∀ (p : Nat) (s : Section) {β : Type} (g : Section → Read β)
      (rest : Bytes) (b : β),
      Reads (p + (Bytes.ofUInt32 s.start ++ Bytes.ofUInt32 s.length).length)
        (g s) rest b →
      Reads p (readSection >>= g)
        (Bytes.ofUInt32 s.start ++ (Bytes.ofUInt32 s.length ++ rest)) b := by
    intro p s β g rest b hrest
    rw [← List.append_assoc]
    exact (readSection_reads s p).of_bind hrest
  unfold decode encode Bytes.ofWords
  simp only [List.flatMap_cons, List.flatMap_nil, List.append_nil,
    List.append_assoc]
  refine (Reads.of_uint32 _).of_bind ?_
  refine (Reads.of_uint32 _).of_bind ?_
  refine (Reads.of_uint32 _).of_bind ?_
  refine (Reads.of_uint32 _).of_bind ?_
  refine (Reads.of_uint32 _).of_bind ?_
  refine (Reads.of_uint32 _).of_bind ?_
  refine hsection _ h.deps _ _ _ ?_
  refine hsection _ h.opts _ _ _ ?_
  refine (Reads.of_uint32 _).of_bind ?_
  refine (Reads.of_uint32 _).of_bind ?_
  refine hsection _ h.tagMeta _ _ _ ?_
  refine hsection _ h.tagOop _ _ _ ?_
  refine hsection _ h.tagReloc _ _ _ ?_
  refine hsection _ h.stackMaps _ _ _ ?_
  refine (Reads.of_int32 _).of_bind ?_
  exact (Reads.of_uint32 _).of_bind_pure

end BlobHeader

/-!
## Blobs of methods
-/

structure Emit.Placed (bs : Bytes) (s : Section) (part : Bytes) : Prop where
  stands : bs.HasPart s.start.toNat part
  length_eq : s.length.toNat = part.length
  behind_header : BlobHeader.byteSize ≤ s.start.toNat
  aligned : isAligned s.start.toNat = true

namespace Blob

structure Stores (b : Blob) (nm : CompiledMethod)
    (metas oops sites : List TagRecord) : Prop where
  code_eq : b.code = nm.code
  codeSize_eq : b.header.codeSize.toNat = nm.code.length
  entry_eq : b.header.entry = nm.entry
  verifiedEntry_eq : b.header.verifiedEntry = nm.verifiedEntry
  relocations_eq : b.relocations = .ok nm.relocations
  dependencies_eq : b.dependencies = .ok nm.dependencies
  speculations_eq : b.speculations = .ok nm.speculations
  stackMaps_eq : b.stackMaps = .ok nm.stackMaps
  metaCount_eq : b.header.metaCount.toNat = nm.metadata.length
  oopCount_eq : b.header.oopCount.toNat = nm.oops.length
  metas_held : TagStream.Holds { bytes := b.tagMeta } metas
  oops_held : TagStream.Holds { bytes := b.tagOop } oops
  sites_held : TagStream.Holds { bytes := b.tagReloc } sites

theorem part_eq_of_placed {b : Blob} {s : Section} {part : Bytes}
    (h : Emit.Placed b.bytes s part) :
    b.part s = part := by
  unfold Blob.part
  rw [h.length_eq]
  exact h.stands.window_eq

theorem not_bad_of_placed {bs : Bytes} {s : Section} {part : Bytes}
    (h : Emit.Placed bs s part) :
    (s.start.toNat < BlobHeader.byteSize ||
      bs.length < s.start.toNat + s.length.toNat ||
      !isAligned s.start.toNat) = false := by
  have hfits := h.stands.fits
  have hstart := h.behind_header
  rw [h.length_eq, h.aligned]
  simp only [Bool.not_true, Bool.or_false, Bool.or_eq_false_iff,
    decide_eq_false_iff_not]
  omega

end Blob

namespace Emit

def base (nm : CompiledMethod) : Bytes :=
  Bytes.zeros BlobHeader.byteSize ++ nm.code

def sectionAfter (nm : CompiledMethod) (before : List Bytes) (part : Bytes) :
    Section :=
  ⟨UInt32.ofNat (alignUp ((base nm).stack before).length),
    UInt32.ofNat part.length⟩

def body (nm : CompiledMethod) (parts : List Bytes) : Bytes :=
  ((base nm).stack parts).padded

variable {nm : CompiledMethod} {written : Bytes}

theorem length_base (nm : CompiledMethod) :
    (base nm).length = BlobHeader.byteSize + nm.code.length := by
  unfold base
  rw [List.length_append, Bytes.length_zeros]

theorem length_base_le_body (nm : CompiledMethod) (parts : List Bytes) :
    (base nm).length ≤ (body nm parts).length := by
  have hle := le_alignUp ((base nm).stack parts).length
  unfold body
  rw [Bytes.length_padded]
  exact Nat.le_trans (Bytes.length_le_stack _ _) hle

theorem length_overwrite_body (parts : List Bytes)
    (hwritten : written.length = BlobHeader.byteSize) :
    ((body nm parts).overwrite 0 written).length = (body nm parts).length := by
  have hle := length_base_le_body nm parts
  rw [length_base] at hle
  refine Bytes.length_overwrite ?_
  omega

theorem hasPart_body {parts before after : List Bytes} {part : Bytes}
    (hsplit : parts = before ++ part :: after) :
    (body nm parts).HasPart (alignUp ((base nm).stack before).length) part := by
  unfold body
  rw [hsplit]
  exact (Bytes.hasPart_stack (base nm) before part after).padded

theorem start_sectionAfter {parts before after : List Bytes} {part : Bytes}
    (hsize : (body nm parts).length < 2 ^ 32)
    (hsplit : parts = before ++ part :: after) :
    (sectionAfter nm before part).start.toNat =
      alignUp ((base nm).stack before).length := by
  have hfits := (@hasPart_body nm _ _ _ _ hsplit).fits
  exact UInt32.toNat_ofNat_of_lt' (show _ < 2 ^ 32 by omega)

theorem placed_of_split {parts before after : List Bytes} {part : Bytes}
    (hwritten : written.length = BlobHeader.byteSize)
    (hsize : (body nm parts).length < 2 ^ 32)
    (hsplit : parts = before ++ part :: after) :
    Placed ((body nm parts).overwrite 0 written)
      (sectionAfter nm before part) part := by
  have hpart := @hasPart_body nm _ _ _ _ hsplit
  have hfits := hpart.fits
  have hstart := start_sectionAfter hsize hsplit
  have hbehind : BlobHeader.byteSize ≤
      alignUp ((base nm).stack before).length := by
    have hbase := Bytes.length_le_stack (base nm) before
    have halign := le_alignUp ((base nm).stack before).length
    rw [length_base] at hbase
    omega
  constructor
  · rw [hstart]
    exact hpart.overwrite (by rw [hwritten]; exact hbehind)
  · exact UInt32.toNat_ofNat_of_lt' (show _ < 2 ^ 32 by omega)
  · rw [hstart]
    exact hbehind
  · rw [hstart]
    unfold isAligned
    rw [alignUp_mod]
    rfl

theorem placed_code {parts : List Bytes}
    (hwritten : written.length = BlobHeader.byteSize)
    (hsize : (body nm parts).length < 2 ^ 32) :
    Placed ((body nm parts).overwrite 0 written)
      ⟨UInt32.ofNat BlobHeader.byteSize, UInt32.ofNat nm.code.length⟩
      nm.code := by
  have hle := length_base_le_body nm parts
  rw [length_base] at hle
  have hpart : (body nm parts).HasPart BlobHeader.byteSize nm.code := by
    have hbase : (base nm).HasPart BlobHeader.byteSize nm.code := by
      refine ⟨Bytes.zeros BlobHeader.byteSize, [], ?_, Bytes.length_zeros _⟩
      rw [List.append_nil]
      rfl
    exact (hbase.stack parts).padded
  constructor
  · exact hpart.overwrite (Nat.le_of_eq hwritten)
  · exact UInt32.toNat_ofNat_of_lt' (show _ < 2 ^ 32 by omega)
  · exact show BlobHeader.byteSize ≤
      (UInt32.ofNat BlobHeader.byteSize).toNat by decide
  · exact show isAligned (UInt32.ofNat BlobHeader.byteSize).toNat = true by
      decide

def parts (nm : CompiledMethod) (tagMeta tagOop tagReloc : Bytes) :
    List Bytes :=
  [Relocation.encodeAll nm.relocations, Dependency.encodeAll nm.dependencies,
    Speculation.encodeAll nm.speculations, tagMeta, tagOop, tagReloc,
    StackMap.encodeAll nm.stackMaps]

def header (nm : CompiledMethod) (methodIndex : UInt32)
    (tagMeta tagOop tagReloc : Bytes) : BlobHeader :=
  let all := parts nm tagMeta tagOop tagReloc
  { size := UInt32.ofNat (body nm all).length
    codeSize := UInt32.ofNat nm.code.length
    entry := nm.entry
    verifiedEntry := nm.verifiedEntry
    relocStart :=
      (sectionAfter nm [] (Relocation.encodeAll nm.relocations)).start
    relocCount := UInt32.ofNat nm.relocations.length
    deps := sectionAfter nm (all.take 1) (Dependency.encodeAll nm.dependencies)
    opts :=
      sectionAfter nm (all.take 2) (Speculation.encodeAll nm.speculations)
    oopCount := UInt32.ofNat nm.oops.length
    metaCount := UInt32.ofNat nm.metadata.length
    tagMeta := sectionAfter nm (all.take 3) tagMeta
    tagOop := sectionAfter nm (all.take 4) tagOop
    tagReloc := sectionAfter nm (all.take 5) tagReloc
    stackMaps := sectionAfter nm (all.take 6) (StackMap.encodeAll nm.stackMaps)
    nextVersion := -1
    methodIndex }

structure Filled (bs : Bytes) (h : BlobHeader) (nm : CompiledMethod)
    (tagMeta tagOop tagReloc : Bytes) : Prop where
  size_eq : h.size.toNat = bs.length
  room : BlobHeader.byteSize ≤ bs.length
  short : bs.length < 2 ^ 32
  entry_eq : h.entry = nm.entry
  verifiedEntry_eq : h.verifiedEntry = nm.verifiedEntry
  relocCount_eq : h.relocCount.toNat = nm.relocations.length
  metaCount_eq : h.metaCount = UInt32.ofNat nm.metadata.length
  oopCount_eq : h.oopCount = UInt32.ofNat nm.oops.length
  code : Placed bs h.code nm.code
  relocs : Placed bs h.relocs (Relocation.encodeAll nm.relocations)
  deps : Placed bs h.deps (Dependency.encodeAll nm.dependencies)
  opts : Placed bs h.opts (Speculation.encodeAll nm.speculations)
  tagMeta : Placed bs h.tagMeta tagMeta
  tagOop : Placed bs h.tagOop tagOop
  tagReloc : Placed bs h.tagReloc tagReloc
  stackMaps : Placed bs h.stackMaps (StackMap.encodeAll nm.stackMaps)

theorem filled_body {methodIndex : UInt32} {tagMeta tagOop tagReloc : Bytes}
    (hwritten : written.length = BlobHeader.byteSize)
    (hsize : (body nm (parts nm tagMeta tagOop tagReloc)).length < 2 ^ 32) :
    Filled ((body nm (parts nm tagMeta tagOop tagReloc)).overwrite 0 written)
      (header nm methodIndex tagMeta tagOop tagReloc) nm
      tagMeta tagOop tagReloc := by
  have hlength := @length_overwrite_body nm _
    (parts nm tagMeta tagOop tagReloc) hwritten
  have hroom := length_base_le_body nm (parts nm tagMeta tagOop tagReloc)
  rw [length_base] at hroom
  have hplaced : ∀ before part after,
      parts nm tagMeta tagOop tagReloc = before ++ part :: after →
      Placed ((body nm (parts nm tagMeta tagOop tagReloc)).overwrite 0 written)
        (sectionAfter nm before part) part :=
    fun before part after hsplit => placed_of_split hwritten hsize hsplit
  have hrelocs := hplaced [] (Relocation.encodeAll nm.relocations) _ rfl
  have hcount : nm.relocations.length * Relocation.size < 2 ^ 32 := by
    have hfits := hrelocs.stands.fits
    rw [Relocation.length_encodeAll, hlength] at hfits
    omega
  have hn : (UInt32.ofNat nm.relocations.length).toNat =
      nm.relocations.length := by
    unfold Relocation.size at hcount
    exact UInt32.toNat_ofNat_of_lt' (show _ < 2 ^ 32 by omega)
  constructor
  · rw [hlength]
    exact UInt32.toNat_ofNat_of_lt' hsize
  · rw [hlength]
    omega
  · rw [hlength]
    exact hsize
  · rfl
  · rfl
  · exact hn
  · rfl
  · rfl
  · exact placed_code hwritten hsize
  · refine ⟨hrelocs.stands, ?_, hrelocs.behind_header, hrelocs.aligned⟩
    show (UInt32.ofNat nm.relocations.length * UInt32.ofNat 16).toNat = _
    rw [UInt32.toNat_mul, hn, Relocation.length_encodeAll]
    exact Nat.mod_eq_of_lt hcount
  · exact hplaced _ _ _ rfl
  · exact hplaced _ _ _ rfl
  · exact hplaced _ _ _ rfl
  · exact hplaced _ _ _ rfl
  · exact hplaced _ _ _ rfl
  · exact hplaced _ _ _ rfl

namespace Filled

variable {bs tagMeta tagOop tagReloc : Bytes} {h : BlobHeader}

theorem sections_fit (hfilled : Filled bs h nm tagMeta tagOop tagReloc) :
    Blob.badSection? h h.size.toNat = none := by
  have hrelocs : min (h.relocCount.toNat * Relocation.size) (UInt32.size - 1) =
      h.relocs.length.toNat := by
    have hfits := hfilled.relocs.stands.fits
    have hshort := hfilled.short
    rw [Relocation.length_encodeAll] at hfits
    rw [hfilled.relocs.length_eq, Relocation.length_encodeAll,
      hfilled.relocCount_eq, UInt32.size]
    omega
  unfold Blob.badSection? BlobHeader.extents
  rw [hrelocs, hfilled.size_eq, List.find?_eq_none]
  intro extent hextent
  rw [Bool.not_eq_true]
  simp only [List.mem_cons, List.not_mem_nil, or_false] at hextent
  rcases hextent with rfl | rfl | rfl | rfl | rfl | rfl | rfl | rfl
  · exact Blob.not_bad_of_placed hfilled.code
  · exact Blob.not_bad_of_placed hfilled.relocs
  · exact Blob.not_bad_of_placed hfilled.deps
  · exact Blob.not_bad_of_placed hfilled.opts
  · exact Blob.not_bad_of_placed hfilled.tagMeta
  · exact Blob.not_bad_of_placed hfilled.tagOop
  · exact Blob.not_bad_of_placed hfilled.tagReloc
  · exact Blob.not_bad_of_placed hfilled.stackMaps

theorem stores {b : Blob} {metas oops sites : List TagRecord}
    (hfilled : Filled b.bytes b.header nm (TagStream.encode metas)
      (TagStream.encode oops) (TagStream.encode sites))
    (hmetas : metas.length = nm.metadata.length)
    (hoops : oops.length = nm.oops.length)
    (hfinish : ∀ r ∈ metas ++ oops ++ sites, r ≠ .finish) :
    b.Stores nm metas oops sites := by
  have hshort := hfilled.short
  have hpart : ∀ {s : Section} {part : Bytes}, Placed b.bytes s part →
      part.length < 2 ^ 32 := by
    intro s part hplaced
    have hfits := hplaced.stands.fits
    omega
  have hstream : ∀ {s : Section} {records : List TagRecord},
      Placed b.bytes s (TagStream.encode records) →
      (∀ r ∈ records, r ≠ .finish) →
      records.length < 2 ^ 32 ∧
        TagStream.Holds { bytes := b.part s } records := by
    intro s records hplaced hne
    have hlt := TagStream.length_lt_length_encode records
    have hlength := hpart hplaced
    refine ⟨by omega, ?_⟩
    rw [Blob.part_eq_of_placed hplaced]
    exact TagStream.holds_encode
      (fun r hr => TagStream.isShort_of_mem hlength hr) hne
  rcases hstream hfilled.tagMeta (fun r hr => hfinish r (by simp [hr]))
    with ⟨hmetaCount, hmetasHeld⟩
  rcases hstream hfilled.tagOop (fun r hr => hfinish r (by simp [hr]))
    with ⟨hoopCount, hoopsHeld⟩
  rcases hstream hfilled.tagReloc (fun r hr => hfinish r (by simp [hr]))
    with ⟨_, hsitesHeld⟩
  constructor
  · exact Blob.part_eq_of_placed hfilled.code
  · exact hfilled.code.length_eq
  · exact hfilled.entry_eq
  · exact hfilled.verifiedEntry_eq
  · unfold Blob.relocations
    rw [Blob.part_eq_of_placed hfilled.relocs, hfilled.relocCount_eq]
    exact (Relocation.decodeMany_reads nm.relocations 0).run_eq
  · unfold Blob.dependencies
    rw [Blob.part_eq_of_placed hfilled.deps]
    exact Dependency.decodeAll_encodeAll
      (Nat.lt_trans (hpart hfilled.deps) (by decide))
  · unfold Blob.speculations
    rw [Blob.part_eq_of_placed hfilled.opts]
    exact Speculation.decodeAll_encodeAll
      (Nat.lt_trans (hpart hfilled.opts) (by decide))
  · unfold Blob.stackMaps
    rw [Blob.part_eq_of_placed hfilled.stackMaps]
    exact StackMap.decodeAll_encodeAll (hpart hfilled.stackMaps)
  · rw [hfilled.metaCount_eq, ← hmetas]
    exact UInt32.toNat_ofNat_of_lt' hmetaCount
  · rw [hfilled.oopCount_eq, ← hoops]
    exact UInt32.toNat_ofNat_of_lt' hoopCount
  · exact hmetasHeld
  · exact hoopsHeld
  · exact hsitesHeld

end Filled

end Emit

end CodeCache
