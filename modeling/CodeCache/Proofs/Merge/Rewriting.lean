import CodeCache.Proofs.Merge.Aligning
import CodeCache.Proofs.Merge.Filling
import CodeCache.Proofs.Merge.Reindexing
import CodeCache.Proofs.Tag.Room

/-!
# Blobs that can be copied

A merge reads the tag streams of a blob twice: once to decide whether the blob is
counted, and once more to write the streams back with new indices. The second
reading succeeds where the first one did if every stream has room for its own
records and no stream lies across another one.
-/

namespace CodeCache

namespace Bytes

theorem window_overwrite {bs new : Bytes} {offset start len : Nat}
    (hfits : offset + new.length ≤ bs.length)
    (happart : start + len ≤ offset ∨ offset + new.length ≤ start) :
    (bs.overwrite offset new).window start len = bs.window start len := by
  unfold overwrite window
  apply List.ext_getElem?
  intro i
  rw [List.getElem?_take, List.getElem?_take, List.getElem?_drop,
    List.getElem?_drop]
  split
  · rcases happart with hbefore | hbehind
    · rw [List.append_assoc, List.getElem?_append_left,
        List.getElem?_take_of_lt (by omega)]
      rw [List.length_take]
      omega
    · rw [List.getElem?_append_right, List.getElem?_drop]
      · congr 1
        rw [List.length_append, List.length_take]
        omega
      · rw [List.length_append, List.length_take]
        omega
  · rfl

end Bytes

def Section.Apart (s t : Section) : Prop :=
  s.start.toNat + s.length.toNat ≤ t.start.toNat ∨
    t.start.toNat + t.length.toNat ≤ s.start.toNat

instance : DecidableRel Section.Apart :=
  fun _ _ => inferInstanceAs (Decidable (_ ∨ _))

namespace Blob

def tagSections (b : Blob) : List Section :=
  [b.header.tagMeta, b.header.tagOop, b.header.tagReloc]

/-- The tag streams have sections of whole words to themselves. -/
structure Roomy (b : Blob) : Prop where
  words : ∀ s ∈ b.tagSections, s.length.toNat % 8 = 0
  apart : b.tagSections.Pairwise Section.Apart

instance (b : Blob) : Decidable b.Roomy :=
  decidable_of_iff (_ ∧ _)
    ⟨fun h => ⟨h.1, h.2⟩, fun h => ⟨h.words, h.apart⟩⟩

end Blob

namespace TagRecord

theorem exists_mapIndexM {f : UInt32 → Except Error UInt32} {r : TagRecord}
    (h : ∀ i, r.metaIndex? = some i → ∃ j, f i = .ok j) :
    ∃ r', r.mapIndexM f = .ok r' := by
  cases r with
  | klass loader i state =>
      rcases h i rfl with ⟨j, hj⟩
      exact ⟨_, congrArg (· >>= _) hj⟩
  | mirror loader i state =>
      rcases h i rfl with ⟨j, hj⟩
      exact ⟨_, congrArg (· >>= _) hj⟩
  | method loader i =>
      rcases h i rfl with ⟨j, hj⟩
      exact ⟨_, congrArg (· >>= _) hj⟩
  | _ => exact ⟨_, rfl⟩

end TagRecord

namespace Merge

variable {space merged : MetaSpace} {map : Reindexing}

theorem exists_reindex {indices : List UInt32}
    (h : ∀ i ∈ indices, i.toNat < space.size) :
    ∃ map' merged', reindex space map merged indices = .ok (map', merged') ∧
      (∀ i ∈ indices, ∃ j, newIndex map' i = .ok j) ∧
      ∀ i, (∃ j, newIndex map i = .ok j) → ∃ j, newIndex map' i = .ok j := by
  induction indices generalizing map merged with
  | nil =>
      refine ⟨map, merged, rfl, ?_, fun _ => id⟩
      intro i hi
      cases hi
  | cons index indices ih =>
      have hrest := fun i hi => h i (List.mem_cons_of_mem index hi)
      unfold reindex
      cases hknown : map.lookup index with
      | some new =>
          rcases @ih merged map hrest with ⟨map', merged', hrun, hall, hkept⟩
          refine ⟨map', merged', hrun, ?_, hkept⟩
          intro i hi
          rcases List.mem_cons.mp hi with rfl | hmem
          · apply hkept i
            unfold newIndex
            rw [hknown]
            exact ⟨new, rfl⟩
          · exact hall i hmem
      | none =>
          have hlt := h index List.mem_cons_self
          have hkey : ∃ key, space.key index = .ok key := by
            rw [← space.length_keys] at hlt
            exact ⟨_, MetaSpace.key_eq_ok_iff.mpr (List.getElem?_eq_getElem hlt)⟩
          rcases hkey with ⟨key, hkey⟩
          rcases @ih (merged.internKey key).1
            ((index, (merged.internKey key).2) :: map) hrest with
            ⟨map', merged', hrun, hall, hkept⟩
          have hnew : ∃ j, newIndex ((index, (merged.internKey key).2) :: map)
              index = .ok j := by
            unfold newIndex
            rw [List.lookup_cons_self]
            exact ⟨_, rfl⟩
          refine ⟨map', merged', ?_, ?_, ?_⟩
          · dsimp only
            rw [hkey]
            exact hrun
          · intro i hi
            rcases List.mem_cons.mp hi with rfl | hmem
            · exact hkept _ hnew
            · exact hall i hmem
          · intro i hi
            apply hkept i
            by_cases hsame : i = index
            · rw [hsame]
              exact hnew
            · unfold newIndex at hi ⊢
              have hne : (i == index) = false := beq_eq_false_iff_ne.mpr hsame
              rw [List.lookup_cons, hne]
              exact hi

structure Rewritable (known : UInt32 → Prop) (bytes : Bytes) (s : Section) :
    Prop where
  fits : s.start.toNat + s.length.toNat ≤ bytes.length
  words : s.length.toNat % 8 = 0
  holds : ∃ records, TagStream.Holds
      { bytes := bytes.window s.start.toNat s.length.toNat } records ∧
    ∀ r ∈ records, ∀ i, r.metaIndex? = some i → known i

theorem Rewritable.exists_reindexPart {bytes : Bytes} {s : Section}
    (h : Rewritable (fun i => ∃ j, newIndex map i = .ok j) bytes s) :
    ∃ new, reindexPart map bytes s = .ok (bytes.overwrite s.start.toNat new) ∧
      new.length ≤ s.length.toNat := by
  rcases h.holds with ⟨records, hholds, hknown⟩
  have hlength := Bytes.length_window h.fits
  rcases exists_mapM_eq_ok (f := fun r : TagRecord => r.mapIndexM (newIndex map))
    (fun r hr => TagRecord.exists_mapIndexM (hknown r hr)) with ⟨records', hrun⟩
  have hroom := hholds.encode_fits (by rw [hlength]; exact h.words)
  have hsame := length_encode_of_mapIndexM (forall₂_of_mapM hrun)
  rw [Nat.zero_add, hlength, ← hsame] at hroom
  refine ⟨TagStream.encode records', ?_, hroom⟩
  have hstream : TagStream.reindex (newIndex map)
      (bytes.window s.start.toNat s.length.toNat) =
        .ok (TagStream.encode records') := by
    unfold TagStream.reindex
    rw [hholds.walk_eq fun record => record.mapIndexM (newIndex map), hrun]
    rfl
  unfold reindexPart
  dsimp only
  rw [hstream]
  exact if_neg (Nat.not_lt.mpr hroom)

theorem exists_reindexParts {sections : List Section} {bytes : Bytes}
    (hsections : ∀ s ∈ sections,
      Rewritable (fun i => ∃ j, newIndex map i = .ok j) bytes s)
    (hapart : sections.Pairwise Section.Apart) :
    ∃ bytes', sections.foldlM (reindexPart map) bytes = .ok bytes' := by
  induction sections generalizing bytes with
  | nil => exact ⟨bytes, rfl⟩
  | cons s sections ih =>
      have hs := hsections s List.mem_cons_self
      rcases hs.exists_reindexPart with ⟨new, hpart, hnew⟩
      have hfits : s.start.toNat + new.length ≤ bytes.length :=
        Nat.le_trans (Nat.add_le_add_left hnew _) hs.fits
      rcases List.pairwise_cons.mp hapart with ⟨hfirst, hrest⟩
      rw [List.foldlM_cons, hpart]
      apply ih _ hrest
      intro t ht
      have hold := hsections t (List.mem_cons_of_mem s ht)
      have hwindow : (bytes.overwrite s.start.toNat new).window t.start.toNat
          t.length.toNat = bytes.window t.start.toNat t.length.toNat := by
        apply Bytes.window_overwrite hfits
        rcases hfirst t ht with hbefore | hbehind
        · exact Or.inr (Nat.le_trans (Nat.add_le_add_left hnew _) hbefore)
        · exact Or.inl hbehind
      constructor
      · rw [Bytes.length_overwrite hfits]
        exact hold.fits
      · exact hold.words
      · rw [hwindow]
        exact hold.holds

theorem holds_of_accepted {b : Blob} (h : Accepted space b) :
    ∀ s ∈ b.tagSections, ∃ records, TagStream.Holds { bytes := b.part s } records ∧
      ∀ r ∈ records, ∀ i, r.metaIndex? = some i → i.toNat < space.size := by
  rcases h with ⟨m, keys, answer, keys', hrun⟩
  rcases of_normalize hrun with ⟨_, _, _, _, hreadable, -⟩
  intro s hs
  simp only [Blob.tagSections, List.mem_cons, List.not_mem_nil, or_false] at hs
  rcases hs with rfl | rfl | rfl
  · exact TagStream.of_checkIndices hreadable.metas
  · exact TagStream.of_checkIndices hreadable.oops
  · exact TagStream.of_checkIndices hreadable.sites

theorem exists_metaIndices {b : Blob} (h : Accepted space b) :
    ∃ indices, b.tagSections.mapM (fun s => TagStream.metaIndices (b.part s)) =
        .ok indices ∧
      (∀ i ∈ indices.flatten, i.toNat < space.size) ∧
      ∀ s ∈ b.tagSections, ∀ records,
        TagStream.Holds { bytes := b.part s } records →
          ∀ r ∈ records, ∀ i, r.metaIndex? = some i → i ∈ indices.flatten := by
  have hholds := holds_of_accepted h
  rcases exists_mapM_eq_ok (f := fun s => TagStream.metaIndices (b.part s))
    (fun s hs => by
      rcases hholds s hs with ⟨records, hrecords, -⟩
      exact ⟨_, hrecords.metaIndices⟩) with ⟨indices, hrun⟩
  have hall := forall₂_of_mapM hrun
  refine ⟨indices, hrun, ?_, ?_⟩
  · intro i hi
    rcases List.mem_flatten.mp hi with ⟨is, his, hmem⟩
    rcases exists_of_mem_right hall his with ⟨s, hs, hsection⟩
    rcases hholds s hs with ⟨records, hrecords, hlt⟩
    rw [hrecords.metaIndices] at hsection
    cases hsection
    rcases List.mem_filterMap.mp hmem with ⟨r, hr, hindex⟩
    exact hlt r hr i hindex
  · intro s hs records hrecords r hr i hindex
    rcases exists_of_mem_left hall hs with ⟨is, his, hsection⟩
    rw [hrecords.metaIndices] at hsection
    cases hsection
    exact List.mem_flatten.mpr ⟨_, his, List.mem_filterMap.mpr ⟨r, hr, hindex⟩⟩

/-- What makes a blob counted makes it copied, if its streams have room. -/
theorem exists_copyBlob {code : CodeSpace} {offset : UInt32} {b : Blob}
    (hb : code.blob offset = .ok b) (hroomy : b.Roomy)
    (haccepted : Accepted space b) (index : UInt32) (merged : MetaSpace) :
    ∃ bytes merged', copyBlob space index b merged = .ok (bytes, merged') := by
  rcases Blob.Image.exists_of_parse hb with ⟨i, hsound, hblob⟩
  have hbytes : b.bytes = i.bytes b.header.nextVersion :=
    congrArg Blob.bytes hblob
  have hheader : b.header = i.linked b.header.nextVersion :=
    congrArg Blob.header hblob
  have hlength : b.bytes.length = i.size := by
    rw [hbytes]
    exact Blob.Image.length_bytes _ _
  have hencloses : ∀ s ∈ b.tagSections, i.Encloses s := by
    have hsections : b.tagSections =
        [i.header.tagMeta, i.header.tagOop, i.header.tagReloc] := by
      unfold Blob.tagSections
      rw [hheader]
      rfl
    rw [hsections]
    exact hsound.encloses_of_mem
  have hheaderFits := i.byteSize_le_size
  rw [← hlength] at hheaderFits
  rcases exists_metaIndices haccepted with ⟨indices, hindices, hlt, hmentioned⟩
  rcases @exists_reindex space merged [] indices.flatten hlt with
    ⟨map, merged', hreindex, hknown, -⟩
  have hheaderOnly : ∀ {bytes new : Bytes} {at_ : Nat},
      bytes.length = b.bytes.length → at_ + new.length ≤ BlobHeader.byteSize →
      (bytes.overwrite at_ new).length = b.bytes.length ∧
        ∀ s ∈ b.tagSections,
          (bytes.overwrite at_ new).window s.start.toNat s.length.toNat =
            bytes.window s.start.toNat s.length.toNat := by
    intro bytes new at_ hsame hinside
    have hfits : at_ + new.length ≤ bytes.length := by
      rw [hsame]
      exact Nat.le_trans hinside hheaderFits
    refine ⟨(Bytes.length_overwrite hfits).trans hsame, fun s hs => ?_⟩
    exact Bytes.window_overwrite hfits
      (Or.inr (Nat.le_trans hinside (hencloses s hs).1))
  rcases @hheaderOnly b.bytes (Bytes.ofInt32 (-1)) BlobHeader.nextVersionOffset rfl
    (by rw [Bytes.length_ofInt32]; decide) with ⟨hunlinked, hwindow₁⟩
  rcases @hheaderOnly _ (Bytes.ofUInt32 index) BlobHeader.methodIndexOffset
    hunlinked (by rw [Bytes.length_ofUInt32]; decide) with ⟨hnamed, hwindow₂⟩
  have hrewritable : ∀ s ∈ b.tagSections,
      Rewritable (fun i => ∃ j, newIndex map i = .ok j)
        ((b.bytes.overwrite BlobHeader.nextVersionOffset
          (Bytes.ofInt32 (-1))).overwrite BlobHeader.methodIndexOffset
            (Bytes.ofUInt32 index)) s := by
    intro s hs
    constructor
    · rw [hnamed, hlength]
      exact (hencloses s hs).2
    · exact hroomy.words s hs
    · rcases holds_of_accepted haccepted s hs with ⟨records, hrecords, -⟩
      refine ⟨records, ?_, ?_⟩
      · rw [hwindow₂ s hs, hwindow₁ s hs]
        exact hrecords
      · intro r hr i hi
        exact hknown i (hmentioned s hs records hrecords r hr i hi)
  rcases exists_reindexParts hrewritable hroomy.apart with ⟨bytes, hparts⟩
  refine ⟨bytes, merged', ?_⟩
  unfold copyBlob
  dsimp only
  unfold Blob.tagSections at hindices hparts
  rw [hindices]
  change (reindex space [] merged indices.flatten >>= _) = _
  rw [hreindex]
  change (List.foldlM (reindexPart map) _ _ >>= _) = _
  rw [hparts]
  rfl

end Merge

end CodeCache
