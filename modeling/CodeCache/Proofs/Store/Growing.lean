import CodeCache.Proofs.Store.Interleaving

/-!
# Containers as multi-version stores

A container comes about by adding versions to a new one, and may be stored and
read back in between. Whatever the order of the additions, and however the names
of the methods collide in the table, a lookup tells which methods were added, a
chain holds the versions of its method, and the listing names every method once.
-/

namespace CodeCache

namespace Blob

def unlinked (b : Blob) : Bytes :=
  b.bytes.overwrite BlobHeader.nextVersionOffset (Bytes.ofInt32 (-1))

namespace Image

theorem unlinked_blob (i : Image) (next : Int32) (offset : UInt32) :
    (i.blob next offset).unlinked = i.bytes (-1) :=
  i.bytes_setNext next (-1)

end Image

end Blob

/-- The chain from an offset on is intact and holds these blobs, in order; only
their links may differ. -/
def CodeSpace.Keeps (space : CodeSpace) (head : UInt32) (added : List Bytes) :
    Prop :=
  ∃ blobs : List Blob, space.versions head = blobs.map .ok ∧
    blobs.map Blob.unlinked = added

theorem CodeSpace.Yields.keeps {space : CodeSpace} {head : UInt32}
    {images : List Blob.Image} (h : space.Yields head images) :
    space.Keeps head (images.map fun i => i.bytes (-1)) := by
  rcases h with ⟨blobs, hversions, hall⟩
  refine ⟨blobs, hversions, ?_⟩
  clear hversions
  induction hall with
  | nil => rfl
  | cons hb _ ih =>
      rcases hb with ⟨next, hb⟩
      rw [List.map_cons, List.map_cons, ih, hb, Blob.Image.unlinked_blob]

namespace Container

/-- A container that was made for some number of methods, versions that were
added to it since, as index and blob, and nothing else but storing it and
reading it back.

An entry of the table is linked by its byte offset, a signed number of 32 bits.
A container made for 10^8 methods leaves room for as many entries as there can
be versions in a code space; far beyond that the links no longer reach. -/
inductive Grown (space : MetaSpace) :
    Container → List (UInt32 × Bytes) → Prop where
  | new (fingerprint : Fingerprint) {expected : Nat} (h : expected ≤ 10 ^ 8) :
      Grown space (sized fingerprint expected) []
  | added {c c' : Container} {adds : List (UInt32 × Bytes)}
      {index offset : UInt32} {key : MetaKey} {bytes : Bytes} {b : Blob}
      (before : Grown space c adds) (hindex : index.toNat < 2 ^ 31)
      (hkey : space.keys[index.toNat]? = some key)
      (hparse : Blob.parse bytes 0 = .ok b)
      (hsize : b.header.size.toNat = bytes.length)
      (hlast : b.header.nextVersion = -1)
      (hadd : c.addVersion index key.name.display bytes = .ok (c', offset)) :
      Grown space c' (adds ++ [(index, bytes)])
  | reloaded {c c' : Container} {adds : List (UInt32 × Bytes)}
      {pre post : Bytes} {next : UInt64} {link : Option UInt64}
      (before : Grown space c adds)
      (hflags : c.fingerprint.flags.length < 2 ^ 27)
      (hdecode : decode (pre ++ c.encode next ++ post) pre.length =
        .ok (c', link)) :
      Grown space c' adds

variable {space : MetaSpace} {c : Container}

structure Backed (space : MetaSpace) (c : Container)
    (adds : List (UInt32 × Bytes)) (additions : List Addition) : Prop where
  records : ∃ blocks, c.Records additions blocks
  adds_eq : adds = additions.map fun a => (a.index, a.image.bytes (-1))
  named : ∀ a ∈ additions, ∃ k, space.keys[a.index.toNat]? = some k ∧
    a.name = k.name.display
  buckets_le : c.table.bucketCount ≤ 10 ^ 8

namespace Backed

variable {c' : Container} {adds : List (UInt32 × Bytes)}
  {additions : List Addition}

theorem addVersion (h : c.Backed space adds additions) {index offset : UInt32}
    {key : MetaKey} {image : Blob.Image} (hindex : index.toNat < 2 ^ 31)
    (hkey : space.keys[index.toNat]? = some key) (himage : image.Sound)
    (hadd : c.addVersion index key.name.display (image.bytes (-1)) =
      .ok (c', offset)) :
    c'.Backed space (adds ++ [(index, image.bytes (-1))])
      (additions ++ [⟨index, key.name.display, image⟩]) := by
  rcases h.records with ⟨blocks, hrecords⟩
  have hname : ∀ a ∈ additions, a.index = index → a.name = key.name.display := by
    intro a ha hsame
    rcases h.named a ha with ⟨k, hk, hname⟩
    rw [hsame, hkey] at hk
    cases hk
    exact hname
  constructor
  · exact hrecords.addVersion (a := ⟨index, key.name.display, image⟩) hindex
      hname h.buckets_le himage hadd
  · rw [h.adds_eq, List.map_append]
    rfl
  · intro a ha
    rcases List.mem_append.mp ha with hold | hnew
    · exact h.named a hold
    · cases List.mem_singleton.mp hnew
      exact ⟨key, hkey, rfl⟩
  · rw [bucketCount_of_addVersion hadd]
    exact h.buckets_le

theorem storable (h : c.Backed space adds additions)
    (hflags : c.fingerprint.flags.length < 2 ^ 27) :
    c.Storable := by
  rcases h.records with ⟨blocks, hrecords⟩
  have hbuckets := h.buckets_le
  have hlength := hrecords.length_le
  have hmany := hrecords.length_mul_le
  have hcode := hrecords.consists.size_lt
  have htable := alignUp_lt c.table.encodedSize
  have hprint := alignUp_lt c.fingerprint.encodedSize
  unfold BlobHeader.byteSize at hmany
  unfold LookupTable.encodedSize LookupTable.headerSize TableEntry.byteSize
    at htable
  unfold Fingerprint.encodedSize Fingerprint.headerSize at hprint
  constructor
  · exact hrecords.tidy.shaped
  · unfold codeStart headerSize LookupTable.encodedSize LookupTable.headerSize
      TableEntry.byteSize Fingerprint.encodedSize Fingerprint.headerSize
    omega
  · omega

theorem exists_adds (h : c.Backed space adds additions) (P : UInt32 → Prop) :
    (∃ a ∈ adds, P a.1) ↔ ∃ a ∈ additions, P a.index := by
  simp [h.adds_eq]

theorem forall_adds (h : c.Backed space adds additions) (P : UInt32 → Prop) :
    (∀ a ∈ adds, P a.1) ↔ ∀ a ∈ additions, P a.index := by
  simp [h.adds_eq]

theorem indices_eq (h : c.Backed space adds additions) :
    adds.map Prod.fst = additions.map (·.index) := by
  rw [h.adds_eq, List.map_map]
  rfl

theorem added_eq (h : c.Backed space adds additions) (index : UInt32) :
    (adds.filter fun a => a.1 == index).map Prod.snd =
      ((Addition.toMethod index additions).map (·.image)).map
        fun i => i.bytes (-1) := by
  rw [h.adds_eq, List.filter_map, List.map_map, List.map_map]
  rfl

end Backed

theorem Backed.find_spec {adds : List (UInt32 × Bytes)}
    {additions : List Addition} (h : c.Backed space adds additions)
    (key : MetaKey) :
    (∃ index ∈ adds.map Prod.fst, space.keys[index.toNat]? = some key ∧
      ∃ head, c.find space key = .ok (.success, some head) ∧
        c.code.Keeps head ((adds.filter fun a => a.1 == index).map Prod.snd)) ∨
    (∀ a ∈ adds, space.keys[a.1.toNat]? ≠ some key) ∧
      ((∃ a ∈ adds, ∃ k, space.keys[a.1.toNat]? = some k ∧
          k.name = key.name) ∧
        c.find space key = .ok (.foundWithName, none) ∨
      (∀ a ∈ adds, ∀ k, space.keys[a.1.toNat]? = some k →
          k.name ≠ key.name) ∧
        c.find space key = .ok (.notInCache, none)) := by
  rcases h.records with ⟨blocks, hrecords⟩
  rw [h.forall_adds fun i => space.keys[i.toNat]? ≠ some key,
    h.exists_adds fun i => ∃ k, space.keys[i.toNat]? = some k ∧
      k.name = key.name,
    h.forall_adds fun i => ∀ k, space.keys[i.toNat]? = some k →
      k.name ≠ key.name]
  rcases hrecords.find_cases h.named key with
    ⟨a, ha, hkey, head, hfind, hyields⟩ | hmissing
  · left
    rw [h.indices_eq]
    refine ⟨a.index, List.mem_map_of_mem ha, hkey, head, hfind, ?_⟩
    rw [h.added_eq]
    exact hyields.keeps
  · exact Or.inr hmissing

namespace Sample

def keys : List MetaKey :=
  [⟨.method "A" "f" "()V", 7, .app⟩, ⟨.method "A" "f" "()V", 8, .app⟩,
    ⟨.method "B" "g" "(I)I", 9, .boot⟩]

def blob (index : UInt32) : Bytes :=
  let none : Section := ⟨88, 0⟩
  BlobHeader.encode
    { size := 88, relocStart := 88, deps := none, opts := none, tagMeta := none,
      tagOop := none, tagReloc := none, stackMaps := none, nextVersion := -1,
      methodIndex := index }

def put (c : Container) (index : UInt32) (bytes : Bytes) : Container :=
  match c.addVersion index ((MetaSpace.ofKeys keys).name index) bytes with
  | .ok (c, _) => c
  | .error _ => c

def new : Container :=
  sized (.capture {}) 1

/-- Both methods of the one name hash to the same bucket, so that the second of
them is behind the buckets. -/
def shelf : Container :=
  put (put (put (put new 0 (blob 0)) 1 (blob 1)) 2 (blob 2)) 0 (blob 3)

def adds : List (UInt32 × Bytes) :=
  [(0, blob 0), (1, blob 1), (2, blob 2), (0, blob 3)]

end Sample

end Container

end CodeCache
