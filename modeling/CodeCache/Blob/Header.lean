import CodeCache.Bytes.Cursor
import CodeCache.Code.Relocation

/-!
# Blob headers

A blob is the stored form of one compiled method. Its header gives the start and length of each
section, relative to the start of the blob, and links the blob to the next version of its method.
-/

namespace CodeCache

structure Section where
  start : UInt32 := 0
  length : UInt32 := 0
  deriving DecidableEq, Repr

structure BlobHeader where
  size : UInt32 := 0
  codeSize : UInt32 := 0
  entry : UInt32 := 0
  verifiedEntry : UInt32 := 0
  relocStart : UInt32 := 0
  relocCount : UInt32 := 0
  deps : Section := {}
  opts : Section := {}
  oopCount : UInt32 := 0
  metaCount : UInt32 := 0
  tagMeta : Section := {}
  tagOop : Section := {}
  tagReloc : Section := {}
  stackMaps : Section := {}
  /-- Offset of the next version in the code space; negative for none. -/
  nextVersion : Int32 := 0
  methodIndex : UInt32 := 0
  deriving DecidableEq, Repr

namespace BlobHeader

def byteSize : Nat := 88

def nextVersionOffset : Nat := 80

def methodIndexOffset : Nat := 84

def encode (h : BlobHeader) : Bytes :=
  Bytes.ofWords [h.size, h.codeSize, h.entry, h.verifiedEntry, h.relocStart, h.relocCount,
      h.deps.start, h.deps.length, h.opts.start, h.opts.length, h.oopCount, h.metaCount,
      h.tagMeta.start, h.tagMeta.length, h.tagOop.start, h.tagOop.length, h.tagReloc.start,
      h.tagReloc.length, h.stackMaps.start, h.stackMaps.length]
    ++ Bytes.ofInt32 h.nextVersion ++ Bytes.ofUInt32 h.methodIndex

def readSection : Read Section := do
  let start ← Read.uint32
  let length ← Read.uint32
  return { start, length }

def decode : Read BlobHeader := do
  let size ← Read.uint32
  let codeSize ← Read.uint32
  let entry ← Read.uint32
  let verifiedEntry ← Read.uint32
  let relocStart ← Read.uint32
  let relocCount ← Read.uint32
  let deps ← readSection
  let opts ← readSection
  let oopCount ← Read.uint32
  let metaCount ← Read.uint32
  let tagMeta ← readSection
  let tagOop ← readSection
  let tagReloc ← readSection
  let stackMaps ← readSection
  let nextVersion ← Read.int32
  let methodIndex ← Read.uint32
  return { size, codeSize, entry, verifiedEntry, relocStart, relocCount, deps, opts, oopCount,
           metaCount, tagMeta, tagOop, tagReloc, stackMaps, nextVersion, methodIndex }

def next? (h : BlobHeader) : Option UInt32 :=
  if 0 ≤ h.nextVersion then some h.nextVersion.toUInt32 else none

def code (h : BlobHeader) : Section :=
  ⟨UInt32.ofNat byteSize, h.codeSize⟩

def relocs (h : BlobHeader) : Section :=
  ⟨h.relocStart, h.relocCount * UInt32.ofNat Relocation.size⟩

def extents (h : BlobHeader) : List (String × Nat × Nat) :=
  [("code", byteSize, h.codeSize.toNat),
    ("relocations", h.relocStart.toNat,
      min (h.relocCount.toNat * Relocation.size) (UInt32.size - 1)),
    ("dependencies", h.deps.start.toNat, h.deps.length.toNat),
    ("opt records", h.opts.start.toNat, h.opts.length.toNat),
    ("aux meta", h.tagMeta.start.toNat, h.tagMeta.length.toNat),
    ("aux oop", h.tagOop.start.toNat, h.tagOop.length.toNat),
    ("aux reloc", h.tagReloc.start.toNat, h.tagReloc.length.toNat),
    ("oop maps", h.stackMaps.start.toNat, h.stackMaps.length.toNat)]

@[simp] theorem length_encode (h : BlobHeader) : h.encode.length = byteSize := by
  simp [encode, Bytes.ofWords, byteSize]

end BlobHeader

end CodeCache
