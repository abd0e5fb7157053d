import CodeCache.Proofs.Blob.Parsing
import CodeCache.Proofs.Bytes.Bounds
import CodeCache.Proofs.Store.Machine

/-!
# Sections by machine words

A header counts in words of 32 bits, and so does whoever looks at a section: the end of
a section is a sum of two words, the length of the relocations a product, and neither
need be a word. Cutting a part out that is not there is a trap. These are the sections
of a blob with words for all offsets, where nothing is a trap. Of a blob that was
accepted each is the section that it stands for: the one check of the header leaves no
room for a sum that wraps.
-/

namespace CodeCache

namespace Blob

/-!
## Words
-/

def sum? (a b : UInt32) : Option UInt32 :=
  if a.toNat + b.toNat < UInt32.size then some (a + b) else none

def product? (a b : UInt32) : Option UInt32 :=
  if a.toNat * b.toNat < UInt32.size then some (a * b) else none

/-- The bytes from `first` up to but not including `last`, if they are there. -/
def cut? (bs : Bytes) (first last : UInt32) : Option Bytes :=
  if first ≤ last ∧ last.toNat ≤ bs.length then
    some (bs.window first.toNat (last.toNat - first.toNat))
  else none

variable (b : Blob)

/-- The bytes of a section; nothing where there is a trap. -/
def part? (s : Section) : Option Bytes := do
  cut? b.bytes s.start (← sum? s.start s.length)

def code? : Option Bytes :=
  b.part? ⟨UInt32.ofNat BlobHeader.byteSize, b.header.codeSize⟩

def relocations? : Option (Except Error (List Relocation)) := do
  let length ← product? b.header.relocCount (UInt32.ofNat Relocation.size)
  let part ← b.part? ⟨b.header.relocStart, length⟩
  return (Relocation.decodeMany b.header.relocCount.toNat).run part

def dependencies? : Option (Except Error (List Dependency)) := do
  return Dependency.decodeAll (← b.part? b.header.deps)

def speculations? : Option (Except Error (List Speculation)) := do
  return Speculation.decodeAll (← b.part? b.header.opts)

def stackMaps? : Option (Except Error (List StackMap)) := do
  return StackMap.decodeAll (← b.part? b.header.stackMaps)

theorem sum?_eq_some {a b : UInt32} (h : a.toNat + b.toNat < 2 ^ 32) :
    sum? a b = some (a + b) :=
  if_pos h

theorem product?_eq_some {a b : UInt32} (h : a.toNat * b.toNat < 2 ^ 32) :
    product? a b = some (a * b) :=
  if_pos h

theorem part?_eq_some_iff {s : Section} {part : Bytes} :
    b.part? s = some part ↔
      s.start.toNat + s.length.toNat < 2 ^ 32 ∧
        s.start.toNat + s.length.toNat ≤ b.bytes.length ∧ b.part s = part := by
  unfold part?
  by_cases hword : s.start.toNat + s.length.toNat < 2 ^ 32
  · have hend : (s.start + s.length).toNat = s.start.toNat + s.length.toNat := by
      rw [UInt32.toNat_add]
      exact Nat.mod_eq_of_lt hword
    have hle : s.start ≤ s.start + s.length := by
      rw [UInt32.le_iff_toNat_le, hend]
      exact Nat.le_add_right _ _
    rw [sum?_eq_some hword, Option.bind_eq_bind, Option.bind_some, cut?, hend,
      Nat.add_sub_cancel_left, Option.ite_none_right_eq_some, Option.some.injEq]
    constructor
    · rintro ⟨⟨-, hfits⟩, hpart⟩
      exact ⟨hword, hfits, hpart⟩
    · rintro ⟨-, hfits, hpart⟩
      exact ⟨⟨hle, hfits⟩, hpart⟩
  · have hnone : sum? s.start s.length = none := if_neg hword
    rw [hnone]
    constructor
    · intro h
      cases h
    · rintro ⟨hlt, -, -⟩
      exact absurd hlt hword

end Blob

/-!
## Blobs that were accepted
-/

namespace BlobHeader

def sections (h : BlobHeader) : List Section :=
  [h.code, h.relocs, h.deps, h.opts, h.tagMeta, h.tagOop, h.tagReloc, h.stackMaps]

end BlobHeader

namespace Blob

/-- Each section of the blob lies behind the header and inside the blob, no word wraps
on the way to it, and there are as many relocations as the header counts. -/
structure InRange (b : Blob) : Prop where
  inside : ∀ s ∈ b.header.sections, BlobHeader.byteSize ≤ s.start.toNat ∧
    s.start.toNat + s.length.toNat ≤ b.bytes.length
  code_eq : b.code? = some b.code
  relocations_eq : b.relocations? = some b.relocations
  dependencies_eq : b.dependencies? = some b.dependencies
  speculations_eq : b.speculations? = some b.speculations
  tagMeta_eq : b.part? b.header.tagMeta = some b.tagMeta
  tagOop_eq : b.part? b.header.tagOop = some b.tagOop
  tagReloc_eq : b.part? b.header.tagReloc = some b.tagReloc
  stackMaps_eq : b.stackMaps? = some b.stackMaps
  relocations_counted : ∀ relocs, b.relocations = .ok relocs →
    relocs.length = b.header.relocCount.toNat

variable {b : Blob} {space : Bytes} {offset : UInt32}

theorem LiesAt.length_bytes (h : b.LiesAt space offset) :
    b.bytes.length = b.header.size.toNat := by
  rw [h.bytes_eq]
  exact Bytes.length_window h.fits

theorem LiesAt.length_lt (h : b.LiesAt space offset) : b.bytes.length < 2 ^ 32 := by
  rw [h.length_bytes]
  exact b.header.size.toNat_lt

theorem LiesAt.extent_fits (h : b.LiesAt space offset) (name : String) {start length : Nat}
    (hextent : (name, start, length) ∈ b.header.extents) :
    BlobHeader.byteSize ≤ start ∧ start + length ≤ b.bytes.length := by
  have hgood := List.find?_eq_none.mp h.sections_fit _ hextent
  simp only [Bool.or_eq_true, decide_eq_true_eq, not_or, Nat.not_lt] at hgood
  rw [h.length_bytes]
  exact hgood.1

/-- Relocations that are too many for a word are checked as if they were as long as a
word can say, which leaves no room for the header in front of them. -/
theorem LiesAt.relocs_lt (h : b.LiesAt space offset) :
    b.header.relocCount.toNat * Relocation.size < 2 ^ 32 := by
  have hshort := h.length_lt
  have hextent : ("relocations", b.header.relocStart.toNat,
      min (b.header.relocCount.toNat * Relocation.size) (UInt32.size - 1)) ∈
        b.header.extents := by
    simp [BlobHeader.extents]
  have hfits := h.extent_fits _ hextent
  rw [UInt32.size, BlobHeader.byteSize] at hfits
  omega

theorem LiesAt.length_relocs (h : b.LiesAt space offset) :
    b.header.relocs.length.toNat = b.header.relocCount.toNat * Relocation.size := by
  have hlt := h.relocs_lt
  change (b.header.relocCount * 16).toNat = b.header.relocCount.toNat * 16
  rw [UInt32.toNat_mul]
  exact Nat.mod_eq_of_lt hlt

theorem LiesAt.inside (h : b.LiesAt space offset) {s : Section}
    (hs : s ∈ b.header.sections) :
    BlobHeader.byteSize ≤ s.start.toNat ∧
      s.start.toNat + s.length.toNat ≤ b.bytes.length := by
  have hrelocs : min (b.header.relocCount.toNat * Relocation.size) (UInt32.size - 1) =
      b.header.relocs.length.toNat := by
    rw [h.length_relocs]
    exact Nat.min_eq_left (Nat.le_pred_of_lt h.relocs_lt)
  have hcode : ("code", BlobHeader.byteSize, b.header.codeSize.toNat) ∈
      b.header.extents := by
    simp [BlobHeader.extents]
  simp only [BlobHeader.sections, List.mem_cons, List.not_mem_nil, or_false] at hs
  rcases hs with rfl | rfl | rfl | rfl | rfl | rfl | rfl | rfl
  · exact h.extent_fits "code" hcode
  · exact h.extent_fits "relocations"
      (by rw [← hrelocs]; simp [BlobHeader.extents, BlobHeader.relocs])
  · exact h.extent_fits "dependencies" (by simp [BlobHeader.extents])
  · exact h.extent_fits "opt records" (by simp [BlobHeader.extents])
  · exact h.extent_fits "aux meta" (by simp [BlobHeader.extents])
  · exact h.extent_fits "aux oop" (by simp [BlobHeader.extents])
  · exact h.extent_fits "aux reloc" (by simp [BlobHeader.extents])
  · exact h.extent_fits "oop maps" (by simp [BlobHeader.extents])

theorem LiesAt.part?_eq (h : b.LiesAt space offset) {s : Section}
    (hs : s ∈ b.header.sections) :
    b.part? s = some (b.part s) := by
  have hend := (h.inside hs).2
  exact b.part?_eq_some_iff.mpr ⟨Nat.lt_of_le_of_lt hend h.length_lt, hend, rfl⟩

end Blob

theorem Relocation.length_of_decodeMany (n : Nat) :
    Ensures (fun _ => True) (decodeMany n) fun relocs => relocs.length = n := by
  induction n with
  | zero => exact .of_pure rfl
  | succ n ih =>
      unfold decodeMany
      refine (Ensures.of_true _).of_bind fun r _ => ?_
      refine ih.of_bind fun relocs hrelocs => ?_
      exact .of_pure (congrArg (· + 1) hrelocs)

namespace Blob

variable {b : Blob} {space : Bytes} {offset : UInt32}

theorem LiesAt.inRange (h : b.LiesAt space offset) : b.InRange := by
  have hpart : ∀ s ∈ b.header.sections, b.part? s = some (b.part s) := fun s hs =>
    h.part?_eq hs
  simp only [BlobHeader.sections, List.forall_mem_cons] at hpart
  obtain ⟨hcode, hrelocs, hdeps, hopts, hmeta, hoop, hreloc, hmaps, -⟩ := hpart
  have hproduct : product? b.header.relocCount (UInt32.ofNat Relocation.size) =
      some b.header.relocs.length :=
    product?_eq_some h.relocs_lt
  constructor
  · exact fun s hs => h.inside hs
  · exact hcode
  · unfold relocations?
    rw [hproduct]
    change (b.part? b.header.relocs).bind _ = _
    rw [hrelocs]
    rfl
  · unfold dependencies?
    rw [hdeps]
    rfl
  · unfold speculations?
    rw [hopts]
    rfl
  · exact hmeta
  · exact hoop
  · exact hreloc
  · unfold stackMaps?
    rw [hmaps]
    rfl
  · intro relocs hread
    exact (Relocation.length_of_decodeMany _).of_run hread

end Blob

theorem CodeSpace.exists_liesAt {code : CodeSpace} {b : Blob} {steps : Nat} {head : UInt32}
    (h : .ok b ∈ code.versionsFrom steps head) :
    ∃ offset, b.LiesAt code.bytes offset := by
  induction steps generalizing head with
  | zero =>
      cases List.mem_singleton.mp h
  | succ steps ih =>
      unfold versionsFrom at h
      cases hblob : code.blob head with
      | error e =>
          rw [hblob] at h
          cases List.mem_singleton.mp h
      | ok first =>
          rw [hblob] at h
          cases h with
          | head => exact ⟨head, Blob.liesAt_of_parse hblob⟩
          | tail _ hrest =>
              cases hnext : first.header.next? with
              | none =>
                  simp only [hnext] at hrest
                  cases hrest
              | some next =>
                  simp only [hnext] at hrest
                  exact ih hrest

namespace Blob

/-- No blob that is accepted, and none that is met on a walk through the containers of a
file, has a section that is out of range. -/
theorem accepted_in_range :
    (∀ space offset b, parse space offset = .ok b → b.InRange) ∧
      ∀ view expected f, CacheFile.decode view expected = .ok f →
        ∀ c ∈ f.containers, ∀ head b, .ok b ∈ c.code.versions head → b.InRange := by
  constructor
  · intro space offset b hparse
    exact (liesAt_of_parse hparse).inRange
  · intro view expected f _ c _ head b hmem
    obtain ⟨offset, hlies⟩ := CodeSpace.exists_liesAt hmem
    exact hlies.inRange

def patched : Blob :=
  let header : BlobHeader :=
    { size := 144, codeSize := 8, relocStart := 96, relocCount := 1,
      deps := ⟨144, 0⟩, opts := ⟨144, 0⟩, tagMeta := ⟨112, 8⟩, tagOop := ⟨120, 8⟩,
      tagReloc := ⟨128, 8⟩, stackMaps := ⟨136, 8⟩, nextVersion := -1 }
  { header, offset := 0,
    bytes := header.encode ++ Bytes.ofUInt64 0 ++ Relocation.encode ⟨0, .none⟩ ++
      TagStream.encode [] ++ TagStream.encode [] ++ TagStream.encode [] ++
      StackMap.encodeAll [] }

def patchedFile : Bytes :=
  CacheFile.encode
    { buildIdentity := "build"
      containers := [{ Container.sized (.capture {}) 0 with code := ⟨patched.bytes⟩ }] }

theorem accepted_in_range_patched :
    ∃ f, CacheFile.decode patchedFile none = .ok f ∧
      ∃ c ∈ f.containers, .ok patched ∈ c.code.versions 0 ∧ patched.InRange ∧
        patched.relocations? = some (.ok [⟨0, .none⟩]) := by
  have hfile : valueWith (fun f : CacheFile => f.containers.any fun c =>
      (c.code.versions 0).any (valueWith fun b => decide (b = patched)))
      (CacheFile.decode patchedFile none) = true := by
    decide +kernel
  obtain ⟨f, hdecode, hversions⟩ := of_valueWith hfile
  obtain ⟨c, hc, hversions⟩ := List.any_eq_true.mp hversions
  obtain ⟨version, hmem, hversion⟩ := List.any_eq_true.mp hversions
  rw [eq_ok_of_valueWith hversion] at hmem
  have hrange := accepted_in_range.2 patchedFile none f hdecode c hc 0 patched hmem
  refine ⟨f, hdecode, c, hc, hmem, hrange, ?_⟩
  rw [hrange.relocations_eq]
  exact congrArg some (eq_ok_of_valueWith (by decide +kernel))

/-- A header that was never checked: the length of its relocations wraps to nothing, and
there would be a trap. -/
example : relocations? { patched with
    header := { patched.header with relocCount := 268435456 } } = none := by
  decide +kernel

end Blob

end CodeCache
