import CodeCache.Blob.Header
import CodeCache.Code.Method
import CodeCache.Tag.Stream

/-!
# Blobs

A blob inside a code space: a header, the code, and one section for each part of the method. A blob
is looked at only after all of its sections were found to lie inside it.
-/

namespace CodeCache

structure Blob where
  bytes : Bytes
  header : BlobHeader
  offset : UInt32
  deriving DecidableEq, Repr

namespace Blob

/-- The first section that does not lie behind the header and inside a blob of `size` bytes, or
starts on no multiple of eight. -/
def badSection? (h : BlobHeader) (size : Nat) : Option (String × Nat × Nat) :=
  h.extents.find? fun (_, start, length) =>
    start < BlobHeader.byteSize || size < start + length || !isAligned start

def parse (space : Bytes) (offset : UInt32) : Except Error Blob := do
  let start := offset.toNat
  if !isAligned start then
    throw (.corruption (.blobMisaligned start))
  if space.length < start + BlobHeader.byteSize then
    throw (.corruption (.blobHeader start))
  let header ← BlobHeader.decode.run (space.window start BlobHeader.byteSize)
  let size := header.size.toNat
  if space.length < start + size then
    throw (.corruption (.blobOutside start size))
  if size < BlobHeader.byteSize then
    throw (.corruption (.blobSize start size))
  match badSection? header size with
  | some (name, first, length) =>
    throw (.corruption (.blobSection name first (first + length) start size))
  | none => return { bytes := space.window start size, header, offset }

def part (b : Blob) (s : Section) : Bytes :=
  b.bytes.window s.start.toNat s.length.toNat

def code (b : Blob) : Bytes := b.part b.header.code

def relocations (b : Blob) : Except Error (List Relocation) :=
  (Relocation.decodeMany b.header.relocCount.toNat).run (b.part b.header.relocs)

def dependencies (b : Blob) : Except Error (List Dependency) :=
  Dependency.decodeAll (b.part b.header.deps)

def speculations (b : Blob) : Except Error (List Speculation) :=
  Speculation.decodeAll (b.part b.header.opts)

def tagMeta (b : Blob) : Bytes := b.part b.header.tagMeta

def tagOop (b : Blob) : Bytes := b.part b.header.tagOop

def tagReloc (b : Blob) : Bytes := b.part b.header.tagReloc

def stackMaps (b : Blob) : Except Error (List StackMap) :=
  StackMap.decodeAll (b.part b.header.stackMaps)

def print (name : UInt32 → String) (b : Blob) : String :=
  let h := b.header
  let stream (label : String) (bs : Bytes) : String :=
    s!"      {label}:\n" ++ TagStream.print name "        " bs
  s!"    CodeBlob @{b.offset} {name h.methodIndex} size={h.size} code={h.codeSize} "
    ++ s!"relocs={h.relocCount} oops={h.oopCount} metas={h.metaCount} next={h.nextVersion.toInt}\n"
    ++ stream "meta array" b.tagMeta ++ stream "oop array" b.tagOop
    ++ stream "relocations" b.tagReloc

def nextVersionAt (space : Bytes) (offset : UInt32) : Except Error (Option UInt32) := do
  let next ← space.readInt32 (offset.toNat + BlobHeader.nextVersionOffset)
  return if 0 ≤ next then some next.toUInt32 else none

def sizeAt (space : Bytes) (offset : UInt32) : Except Error UInt32 :=
  space.readUInt32 offset.toNat

end Blob

end CodeCache
