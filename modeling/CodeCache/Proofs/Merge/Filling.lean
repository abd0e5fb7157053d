import CodeCache.Merge.Basic
import CodeCache.Proofs.Store.Adding

/-!
# Containers that a merge fills

Whatever the inputs hold, a copy is made from a blob that can be parsed, and it
differs from that blob only in its link, its index and what its tag streams hold.
So a container that is filled with copies is made of blocks.
-/

namespace CodeCache

/-!
## Changing a blob in place
-/

namespace Blob.Image

variable {i : Image}

def Encloses (i : Image) (s : Section) : Prop :=
  BlobHeader.byteSize ≤ s.start.toNat ∧ s.start.toNat + s.length.toNat ≤ i.size

theorem Sound.encloses (h : i.Sound) {s : Section} (name : String)
    (hs : (name, s.start.toNat, s.length.toNat) ∈ i.header.extents) :
    i.Encloses s := by
  have hgood := List.find?_eq_none.mp h.sections_fit _ hs
  simp only [Bool.or_eq_true, decide_eq_true_eq, not_or, Nat.not_lt] at hgood
  exact hgood.1

theorem Sound.encloses_of_mem (h : i.Sound) :
    ∀ s ∈ [i.header.tagMeta, i.header.tagOop, i.header.tagReloc],
      i.Encloses s := by
  intro s hs
  simp only [List.mem_cons, List.not_mem_nil, or_false] at hs
  rcases hs with rfl | rfl | rfl
  · exact h.encloses "aux meta" (by simp [BlobHeader.extents])
  · exact h.encloses "aux oop" (by simp [BlobHeader.extents])
  · exact h.encloses "aux reloc" (by simp [BlobHeader.extents])

theorem size_of_rest {rest : Bytes} (hrest : rest.length = i.rest.length) :
    size { i with rest } = i.size :=
  congrArg (BlobHeader.byteSize + ·) hrest

theorem Sound.of_rest (h : i.Sound) {rest : Bytes}
    (hrest : rest.length = i.rest.length) :
    Sound { i with rest } := by
  have hsize := size_of_rest hrest
  constructor
  · rw [hsize]
    exact h.size_eq
  · rw [hsize]
    exact h.sections_fit

theorem Sound.of_index (h : i.Sound) (index : UInt32) :
    Sound { i with header := { i.header with methodIndex := index } } :=
  ⟨h.size_eq, h.sections_fit⟩

theorem bytes_setIndex (i : Image) (next : Int32) (index : UInt32) :
    (i.bytes next).overwrite BlobHeader.methodIndexOffset
        (Bytes.ofUInt32 index) =
      bytes { i with header := { i.header with methodIndex := index } } next :=
  BlobHeader.overwrite_methodIndex _ _ _

theorem Encloses.bytes_overwrite {s : Section} (h : i.Encloses s) (next : Int32)
    {new : Bytes} (hnew : new.length ≤ s.length.toNat) :
    ∃ rest : Bytes, rest.length = i.rest.length ∧
      (i.bytes next).overwrite s.start.toNat new = bytes { i with rest } next := by
  rcases Nat.exists_eq_add_of_le h.1 with ⟨offset, hoffset⟩
  have hfits : offset + new.length ≤ i.rest.length := by
    have hend := h.2
    unfold size at hend
    omega
  refine ⟨i.rest.overwrite offset new, Bytes.length_overwrite hfits, ?_⟩
  have hmiddle := Bytes.overwrite_middle (i.linked next).encode [] hfits
  rw [List.append_nil, List.append_nil, BlobHeader.length_encode, ← hoffset]
    at hmiddle
  exact hmiddle

end Blob.Image

namespace Merge

open Blob (Image)

variable {inputs : List Input} {c c' : Container}
  {merged merged' : MetaSpace} {map : Reindexing} {i : Image}

theorem image_of_reindexPart {s : Section} (hs : i.Encloses s) {next : Int32}
    {bytes : Bytes} (h : reindexPart map (i.bytes next) s = .ok bytes) :
    ∃ rest : Bytes, rest.length = i.rest.length ∧
      bytes = Image.bytes { i with rest } next := by
  unfold reindexPart at h
  rcases of_bind_eq_ok h with ⟨reindexed, _, h⟩
  dsimp only at h
  split at h
  · cases h
  · rename_i hlength
    cases h
    exact hs.bytes_overwrite next (Nat.not_lt.mp hlength)

theorem image_of_reindexParts {sections : List Section}
    (hs : ∀ s ∈ sections, i.Encloses s) {next : Int32} {bytes : Bytes}
    (h : sections.foldlM (reindexPart map) (i.bytes next) = .ok bytes) :
    ∃ rest : Bytes, rest.length = i.rest.length ∧
      bytes = Image.bytes { i with rest } next := by
  induction sections generalizing i with
  | nil =>
      cases h
      exact ⟨i.rest, rfl, rfl⟩
  | cons s sections ih =>
      rw [List.foldlM_cons] at h
      rcases of_bind_eq_ok h with ⟨part, hpart, hparts⟩
      rcases image_of_reindexPart (hs s List.mem_cons_self) hpart with
        ⟨rest, hrest, rfl⟩
      have hencloses : ∀ s ∈ sections, Image.Encloses { i with rest } s := by
        intro s' hs'
        rw [Image.Encloses, Image.size_of_rest hrest]
        exact hs s' (List.mem_cons_of_mem s hs')
      rcases ih hencloses hparts with ⟨rest', hrest', rfl⟩
      exact ⟨rest', hrest'.trans hrest, rfl⟩

theorem image_of_copyBlob {code : CodeSpace} {offset index : UInt32} {b : Blob}
    (hb : code.blob offset = .ok b) {space : MetaSpace} {bytes : Bytes}
    (h : copyBlob space index b merged = .ok (bytes, merged')) :
    ∃ i : Image, i.Sound ∧ bytes = i.bytes (-1) := by
  rcases Image.exists_of_parse hb with ⟨i, hsound, hblob⟩
  have hheader : b.header = i.linked b.header.nextVersion :=
    congrArg Blob.header hblob
  have hbytes : b.bytes = i.bytes b.header.nextVersion :=
    congrArg Blob.bytes hblob
  unfold copyBlob at h
  rcases of_bind_eq_ok h with ⟨indices, _, h⟩
  rcases of_bind_eq_ok h with ⟨⟨map, grown⟩, _, h⟩
  rcases of_bind_eq_ok h with ⟨bytes', hparts, hdone⟩
  cases hdone
  rw [hbytes, Image.bytes_setNext, Image.bytes_setIndex, hheader] at hparts
  have hnamed := hsound.of_index index
  rcases image_of_reindexParts hnamed.encloses_of_mem hparts with
    ⟨rest, hrest, rfl⟩
  exact ⟨_, hnamed.of_rest hrest, rfl⟩

/-!
## Filling
-/

theorem of_blobAt {place : BlobPlace} {b : Blob} {space : MetaSpace}
    (h : blobAt inputs place = .ok (b, space)) :
    ∃ (input : Input) (code : CodeSpace), input ∈ inputs ∧
      space = input.file.space ∧ code.blob place.offset = .ok b := by
  unfold blobAt at h
  split at h
  · cases h
  · rename_i input container hfound
    rw [Option.bind_eq_some_iff] at hfound
    rcases hfound with ⟨input', hinput, hcontainer⟩
    rw [Option.map_eq_some_iff] at hcontainer
    rcases hcontainer with ⟨container', -, hsame⟩
    cases hsame
    cases hb : container.code.blob place.offset with
    | error e =>
        rw [hb] at h
        cases h
    | ok b' =>
        rw [hb] at h
        cases h
        exact ⟨input, container.code, List.mem_of_getElem? hinput, rfl, hb⟩

theorem of_copyVersions_cons {index : UInt32} {name : String}
    {place : BlobPlace} {places : List BlobPlace}
    (h : copyVersions inputs index name (c, merged) (place :: places) =
      .ok (c', merged')) :
    ∃ b space bytes grown added offset,
      blobAt inputs place = .ok (b, space) ∧
      copyBlob space index b merged = .ok (bytes, grown) ∧
      c.addVersion index name bytes = .ok (added, offset) ∧
      copyVersions inputs index name (added, grown) places =
        .ok (c', merged') := by
  unfold copyVersions at h
  rcases of_bind_eq_ok h with ⟨⟨b, space⟩, hat, h⟩
  rcases of_bind_eq_ok h with ⟨⟨bytes, grown⟩, hcopy, h⟩
  rcases of_bind_eq_ok h with ⟨⟨added, offset⟩, hadd, h⟩
  exact ⟨b, space, bytes, grown, added, offset, hat, hcopy, hadd, h⟩

theorem copyVersions_stocked {fingerprint : Fingerprint} {buckets count : Nat}
    {index : UInt32} {name : String} {places : List BlobPlace}
    (hc : c.Stocked (fun _ => True) fingerprint buckets count)
    (h : copyVersions inputs index name (c, merged) places =
      .ok (c', merged')) :
    c'.Stocked (fun _ => True) fingerprint buckets (count + places.length) := by
  induction places generalizing c merged count with
  | nil =>
      cases h
      exact hc
  | cons place places ih =>
      rcases of_copyVersions_cons h with
        ⟨b, space, bytes, grown, added, offset, hat, hcopy, hadd, htail⟩
      rcases of_blobAt hat with ⟨input, code, -, -, hb⟩
      rcases image_of_copyBlob hb hcopy with ⟨i, hsound, rfl⟩
      have hrest := ih (hc.addVersion hsound trivial hadd) htail
      rw [List.length_cons, Nat.add_comm places.length, ← Nat.add_assoc]
      exact hrest

theorem copyMethods_stocked {fingerprint : Fingerprint} {buckets count : Nat}
    {ks : List Kept} (hks : ∀ k ∈ ks, k.places ≠ [])
    (hc : c.Stocked (fun _ => True) fingerprint buckets count)
    (h : copyMethods inputs (c, merged) ks = .ok (c', merged')) :
    c'.Stocked (fun _ => True) fingerprint buckets (count + ks.length) := by
  induction ks generalizing c merged count with
  | nil =>
      cases h
      exact hc
  | cons k ks ih =>
      unfold copyMethods at h
      rcases of_bind_eq_ok h with ⟨⟨copied, grown⟩, hcopy, hrest⟩
      have hplaces := List.length_pos_iff.mpr (hks k List.mem_cons_self)
      have hfirst := (copyVersions_stocked hc hcopy).mono
        (Nat.add_le_add_left hplaces count)
      have hothers := ih (fun k hk => hks k (List.mem_cons_of_mem _ hk)) hfirst
        hrest
      rw [List.length_cons, Nat.add_comm ks.length, ← Nat.add_assoc]
      exact hothers

theorem copyGroups_stocked {gs : List (Group × List Kept)}
    (hgs : ∀ g ∈ gs, ∀ k ∈ g.2, k.places ≠ []) {containers : List Container}
    (h : copyGroups inputs merged gs = .ok (containers, merged')) :
    List.Forall₂ (fun g c => Container.Stocked (fun _ => True) g.1.fingerprint
      (max g.2.length LookupTable.minBuckets) g.2.length c) gs containers := by
  induction gs generalizing merged containers with
  | nil =>
      cases h
      exact .nil
  | cons g gs ih =>
      rcases g with ⟨g, ks⟩
      unfold copyGroups at h
      rcases of_bind_eq_ok h with ⟨⟨container, grown⟩, hcopy, h⟩
      rcases of_bind_eq_ok h with ⟨⟨rest, last⟩, hrest, hdone⟩
      cases hdone
      have hfirst := copyMethods_stocked (hgs (g, ks) List.mem_cons_self)
        (.of_sized _ g.fingerprint ks.length) hcopy
      rw [Nat.zero_add] at hfirst
      exact .cons hfirst (ih (fun g hg => hgs g (List.mem_cons_of_mem _ hg)) hrest)

end Merge

end CodeCache
