import CodeCache.Proofs.Blob.Layout

/-!
# What a blob is written from

A blob is determined by its method, its metaspace index, the records of its tag
streams and its link. The link and the index can be changed in place, and so can
a stream, as long as its length stays the same.
-/

namespace CodeCache

namespace Bytes

theorem length_stack_congr {bs bs' : Bytes} {parts parts' : List Bytes}
    (hbs : bs.length = bs'.length)
    (hparts : parts.map List.length = parts'.map List.length) :
    (bs.stack parts).length = (bs'.stack parts').length := by
  induction parts generalizing bs bs' parts' with
  | nil =>
      rw [List.map_nil, eq_comm, List.map_eq_nil_iff] at hparts
      rw [hparts]
      exact hbs
  | cons part parts ih =>
      cases parts' with
      | nil => cases hparts
      | cons part' parts' =>
          rw [List.map_cons, List.map_cons, List.cons.injEq] at hparts
          show ((bs.padded ++ part).stack parts).length =
            ((bs'.padded ++ part').stack parts').length
          refine ih ?_ hparts.2
          rw [List.length_append, List.length_append, length_padded,
            length_padded, hbs, hparts.1]

theorem stack_eq_append (bs : Bytes) (parts : List Bytes) :
    ∃ behind, ∀ bs' : Bytes, bs'.length = bs.length →
      bs'.stack parts = bs' ++ behind := by
  induction parts generalizing bs with
  | nil => exact ⟨[], fun bs' _ => (List.append_nil bs').symm⟩
  | cons part parts ih =>
      rcases ih (bs.padded ++ part) with ⟨behind, hbehind⟩
      refine ⟨bs.padding ++ part ++ behind, ?_⟩
      intro bs' hlength
      have hpadding : bs'.padding = bs.padding := by
        unfold padding
        rw [hlength]
      show (bs'.padded ++ part).stack parts = _
      rw [hbehind]
      · rw [padded_eq, hpadding]
        simp only [List.append_assoc]
      · rw [List.length_append, List.length_append, length_padded,
          length_padded, hlength]

theorem overwrite_stack (bs : Bytes) (before : List Bytes) {old new : Bytes}
    (after : List Bytes) (h : new.length = old.length) :
    ∃ pre post, pre.length = alignUp (bs.stack before).length ∧
      (bs.stack (before ++ old :: after)).padded = pre ++ old ++ post ∧
      (bs.stack (before ++ new :: after)).padded = pre ++ new ++ post := by
  rcases stack_eq_append ((bs.stack before).padded ++ old) after with
    ⟨behind, hbehind⟩
  have hsplit : ∀ part : Bytes, part.length = old.length →
      bs.stack (before ++ part :: after) =
        (bs.stack before).padded ++ part ++ behind := by
    intro part hpart
    rw [stack_append]
    refine hbehind _ ?_
    rw [List.length_append, List.length_append, hpart]
  have hpadding : ∀ part : Bytes, part.length = old.length →
      (bs.stack (before ++ part :: after)).padding =
        (bs.stack (before ++ old :: after)).padding := by
    intro part hpart
    unfold padding
    rw [hsplit part hpart, hsplit old rfl]
    simp only [List.length_append, hpart]
  refine ⟨(bs.stack before).padded,
    behind ++ (bs.stack (before ++ old :: after)).padding,
    length_padded _, ?_, ?_⟩
  · rw [padded_eq, hsplit old rfl]
    simp only [List.append_assoc]
  · rw [padded_eq, hpadding new h, hsplit new h]
    simp only [List.append_assoc]

end Bytes

namespace BlobHeader

def words (h : BlobHeader) : Bytes :=
  Bytes.ofWords [h.size, h.codeSize, h.entry, h.verifiedEntry, h.relocStart,
    h.relocCount, h.deps.start, h.deps.length, h.opts.start, h.opts.length,
    h.oopCount, h.metaCount, h.tagMeta.start, h.tagMeta.length, h.tagOop.start,
    h.tagOop.length, h.tagReloc.start, h.tagReloc.length, h.stackMaps.start,
    h.stackMaps.length]

theorem length_words (h : BlobHeader) : h.words.length = nextVersionOffset := by
  simp [words, Bytes.ofWords, nextVersionOffset]

theorem encode_eq (h : BlobHeader) :
    h.encode = h.words ++ Bytes.ofInt32 h.nextVersion ++
      Bytes.ofUInt32 h.methodIndex :=
  rfl

theorem overwrite_next (h : BlobHeader) (next : Int32) (rest : Bytes) :
    (h.encode ++ rest).overwrite nextVersionOffset (Bytes.ofInt32 next) =
      { h with nextVersion := next }.encode ++ rest := by
  have hlength : (Bytes.ofInt32 next).length =
      (Bytes.ofInt32 h.nextVersion).length := by
    rw [Bytes.length_ofInt32, Bytes.length_ofInt32]
  rw [encode_eq, List.append_assoc, ← h.length_words,
    Bytes.overwrite_append _ _ hlength, ← List.append_assoc]
  rfl

theorem overwrite_methodIndex (h : BlobHeader) (index : UInt32) (rest : Bytes) :
    (h.encode ++ rest).overwrite methodIndexOffset (Bytes.ofUInt32 index) =
      { h with methodIndex := index }.encode ++ rest := by
  have hlength : (Bytes.ofUInt32 index).length =
      (Bytes.ofUInt32 h.methodIndex).length := by
    rw [Bytes.length_ofUInt32, Bytes.length_ofUInt32]
  have hplace : (h.words ++ Bytes.ofInt32 h.nextVersion).length =
      methodIndexOffset := by
    rw [List.length_append, length_words, Bytes.length_ofInt32]
    rfl
  rw [encode_eq, ← hplace, Bytes.overwrite_append _ _ hlength]
  rfl

end BlobHeader

namespace Emit

structure Content where
  method : CompiledMethod
  index : UInt32
  metas : List TagRecord
  oops : List TagRecord
  sites : List TagRecord

namespace Content

def parts (c : Content) : List Bytes :=
  Emit.parts c.method (TagStream.encode c.metas) (TagStream.encode c.oops)
    (TagStream.encode c.sites)

def size (c : Content) : Nat :=
  (body c.method c.parts).length

def header (c : Content) (next : Int32) : BlobHeader :=
  { Emit.header c.method c.index (TagStream.encode c.metas)
      (TagStream.encode c.oops) (TagStream.encode c.sites) with
    nextVersion := next }

def bytes (c : Content) (next : Int32) : Bytes :=
  (body c.method c.parts).overwrite 0 (c.header next).encode

def blob (c : Content) (next : Int32) (offset : UInt32) : Blob :=
  ⟨c.bytes next, c.header next, offset⟩

structure Sound (c : Content) : Prop where
  metas_length : c.metas.length = c.method.metadata.length
  oops_length : c.oops.length = c.method.oops.length
  ne_finish : ∀ r ∈ c.metas ++ c.oops ++ c.sites, r ≠ .finish

variable {c : Content}

theorem length_bytes (c : Content) (next : Int32) :
    (c.bytes next).length = c.size :=
  length_overwrite_body c.parts (BlobHeader.length_encode _)

theorem bytes_eq (c : Content) (next : Int32) :
    c.bytes next = (c.header next).encode ++
      (body c.method c.parts).drop BlobHeader.byteSize := by
  unfold bytes Bytes.overwrite
  rw [List.take_zero, List.nil_append, BlobHeader.length_encode, Nat.zero_add]

theorem filled (hsize : c.size < 2 ^ 32) (next : Int32) :
    Filled (c.bytes next) (c.header next) c.method (TagStream.encode c.metas)
      (TagStream.encode c.oops) (TagStream.encode c.sites) := by
  have hfilled := @filled_body c.method _ c.index (TagStream.encode c.metas)
    (TagStream.encode c.oops) (TagStream.encode c.sites)
    (BlobHeader.length_encode (c.header next)) hsize
  exact ⟨hfilled.size_eq, hfilled.room, hfilled.short, rfl, rfl,
    hfilled.relocCount_eq, rfl, rfl, hfilled.code, hfilled.relocs, hfilled.deps,
    hfilled.opts, hfilled.tagMeta, hfilled.tagOop, hfilled.tagReloc,
    hfilled.stackMaps⟩

/-!
## Reading
-/

theorem parse_eq {space : Bytes} {offset : UInt32} {next : Int32}
    (hsize : c.size < 2 ^ 32) (hpart : space.HasPart offset.toNat (c.bytes next))
    (haligned : offset.toNat % 8 = 0) :
    Blob.parse space offset = .ok (c.blob next offset) := by
  have hfilled := c.filled hsize next
  have hfits := hpart.fits
  have hbytes := hpart.window_eq
  have hheader : (c.header next).size.toNat = (c.bytes next).length :=
    hfilled.size_eq
  apply Blob.LiesAt.parse_eq
  constructor
  · rfl
  · unfold isAligned
    rw [haligned]
    rfl
  · exact Nat.le_trans (Nat.add_le_add_left hfilled.room _) hfits
  · have hwindow : space.window offset.toNat BlobHeader.byteSize =
        (c.header next).encode := by
      rcases hpart with ⟨pre, post, rfl, hpre⟩
      rw [bytes_eq, ← hpre, ← BlobHeader.length_encode (c.header next),
        ← List.append_assoc, List.append_assoc _ _ post]
      exact Bytes.window_append _ _ _
    rw [hwindow]
    exact (BlobHeader.decode_reads (c.header next) 0).run_eq
  · show offset.toNat + (c.header next).size.toNat ≤ space.length
    rw [hheader]
    exact hfits
  · show BlobHeader.byteSize ≤ (c.header next).size.toNat
    rw [hheader]
    exact hfilled.room
  · exact hfilled.sections_fit
  · show c.bytes next = space.window offset.toNat (c.header next).size.toNat
    rw [hheader]
    exact hbytes.symm

theorem parse_own (hsize : c.size < 2 ^ 32) (next : Int32) :
    Blob.parse (c.bytes next) 0 = .ok (c.blob next 0) := by
  have hpart : (c.bytes next).HasPart 0 (c.bytes next) := by
    refine ⟨[], [], ?_, rfl⟩
    rw [List.nil_append, List.append_nil]
  exact parse_eq hsize hpart rfl

theorem Sound.stores (h : c.Sound) (hsize : c.size < 2 ^ 32) (next : Int32)
    (offset : UInt32) :
    (c.blob next offset).Stores c.method c.metas c.oops c.sites :=
  Filled.stores (b := c.blob next offset) (c.filled hsize next) h.metas_length
    h.oops_length h.ne_finish

/-!
## Changing in place
-/

theorem bytes_setNext (c : Content) (next next' : Int32) :
    (c.bytes next).overwrite BlobHeader.nextVersionOffset (Bytes.ofInt32 next') =
      c.bytes next' := by
  rw [bytes_eq, bytes_eq, BlobHeader.overwrite_next]
  rfl

theorem bytes_setIndex (c : Content) (next : Int32) (index : UInt32) :
    (c.bytes next).overwrite BlobHeader.methodIndexOffset
      (Bytes.ofUInt32 index) = { c with index }.bytes next := by
  rw [bytes_eq, bytes_eq, BlobHeader.overwrite_methodIndex]
  rfl

theorem size_congr {c c' : Content} (hmethod : c'.method = c.method)
    (hparts : c'.parts.map List.length = c.parts.map List.length) :
    c'.size = c.size := by
  unfold size body
  rw [Bytes.length_padded, Bytes.length_padded, hmethod,
    Bytes.length_stack_congr rfl hparts]

theorem header_congr {c c' : Content} (hmethod : c'.method = c.method)
    (hindex : c'.index = c.index)
    (hparts : c'.parts.map List.length = c.parts.map List.length)
    (next : Int32) :
    c'.header next = c.header next := by
  have hbefore : ∀ n, (c'.parts.take n).map List.length =
      (c.parts.take n).map List.length := by
    intro n
    rw [List.map_take, List.map_take, hparts]
  have hstart : ∀ n, ((base c.method).stack (c'.parts.take n)).length =
      ((base c.method).stack (c.parts.take n)).length :=
    fun n => Bytes.length_stack_congr rfl (hbefore n)
  have hbody := size_congr hmethod hparts
  unfold size at hbody
  rcases c' with ⟨method, index, metas, oops, sites⟩
  subst hmethod
  subst hindex
  unfold parts Emit.parts at hparts hstart hbody
  simp only [List.map_cons, List.cons.injEq] at hparts
  rcases hparts with ⟨-, -, -, hmetas, hoops, hsites, -⟩
  unfold header Emit.header sectionAfter Emit.parts
  dsimp only
  rw [hbody, hstart 1, hstart 2, hstart 3, hstart 4, hstart 5, hstart 6, hmetas,
    hoops, hsites]

theorem sectionAfter_congr (nm : CompiledMethod) {before before' : List Bytes}
    {part part' : Bytes}
    (hbefore : before'.map List.length = before.map List.length)
    (hpart : part'.length = part.length) :
    sectionAfter nm before' part' = sectionAfter nm before part := by
  unfold sectionAfter
  rw [@Bytes.length_stack_congr (base nm) _ _ _ rfl hbefore, hpart]

theorem bytes_replace {c c' : Content} (hmethod : c'.method = c.method)
    (hindex : c'.index = c.index) {before after : List Bytes} {old new : Bytes}
    (hc : c.parts = before ++ old :: after)
    (hc' : c'.parts = before ++ new :: after) (hlength : new.length = old.length)
    (next : Int32) :
    (c.bytes next).overwrite
      (alignUp ((base c.method).stack before).length) new = c'.bytes next := by
  have hheader : c'.header next = c.header next := by
    refine header_congr hmethod hindex ?_ next
    rw [hc, hc', List.map_append, List.map_append, List.map_cons, List.map_cons,
      hlength]
  rcases Bytes.overwrite_stack (base c.method) before after hlength with
    ⟨pre, post, hpre, hold, hnew⟩
  have hroom : BlobHeader.byteSize ≤ pre.length := by
    have hbase := Bytes.length_le_stack (base c.method) before
    have halign := le_alignUp ((base c.method).stack before).length
    rw [length_base] at hbase
    omega
  have hfront : ∀ part : Bytes, (pre ++ part ++ post).overwrite 0
      (c.header next).encode =
        pre.overwrite 0 (c.header next).encode ++ part ++ post := by
    intro part
    unfold Bytes.overwrite
    rw [List.append_assoc pre, List.drop_append_of_le_length]
    · simp only [List.take_zero, List.nil_append, List.append_assoc]
    · rw [BlobHeader.length_encode, Nat.zero_add]
      exact hroom
  have hstart : (pre.overwrite 0 (c.header next).encode).length =
      pre.length := by
    refine Bytes.length_overwrite ?_
    rw [BlobHeader.length_encode, Nat.zero_add]
    exact hroom
  unfold bytes body
  rw [hheader, hmethod, hc, hc', hold, hnew, hfront, hfront, ← hpre, ← hstart]
  exact Bytes.overwrite_append _ _ hlength

end Content

end Emit

end CodeCache
