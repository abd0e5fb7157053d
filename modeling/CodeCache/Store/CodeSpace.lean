import CodeCache.Blob.Basic

/-!
# Code spaces

A code space holds blobs back to back. The versions of one method form a chain through the blob
headers; a table elsewhere points at its first blob. Chains come from files, so a chain may also
break off at a bad link, or run in a circle.
-/

namespace CodeCache

structure CodeSpace where
  bytes : Bytes := []
  deriving DecidableEq, Repr

namespace CodeSpace

def size (space : CodeSpace) : Nat :=
  space.bytes.length

def ofPart (bs : Bytes) (start len : Nat) : Except Error CodeSpace := do
  return ⟨← bs.slice start len⟩

/-- The space with a blob at its end, and the blob's offset. Offsets must stay below 2^31, since
links are signed. -/
def append (space : CodeSpace) (blob : Bytes) : Except Error (CodeSpace × UInt32) :=
  let offset := alignUp space.size
  let finish := offset + alignUp blob.length
  if 0x7fffffff < finish then .error (.internal (.codeSpaceFull finish))
  else .ok (⟨space.bytes.padded ++ blob.padded⟩, UInt32.ofNat offset)

def blob (space : CodeSpace) (offset : UInt32) : Except Error Blob :=
  Blob.parse space.bytes offset

/-- The versions of a chain from an offset on, at most `steps` of them; what breaks the chain comes
last. -/
def versionsFrom (space : CodeSpace) : Nat → UInt32 → List (Except Error Blob)
  | 0, offset => [.error (.corruption (.versionsEndless offset))]
  | steps + 1, offset =>
    match space.blob offset with
    | .error e => [.error e]
    | .ok b =>
      .ok b ::
        match b.header.next? with
        | some next => versionsFrom space steps next
        | none => []

/-- All versions of a chain, in the order in which they were added. Blobs do not overlap in a chain
that saving wrote, which bounds its length. -/
def versions (space : CodeSpace) (head : UInt32) : List (Except Error Blob) :=
  space.versionsFrom (space.size / BlobHeader.byteSize + 1) head

/-- The versions of an intact chain, or what breaks it. -/
def chain (space : CodeSpace) (head : UInt32) : Except Error (List Blob) :=
  (space.versions head).mapM id

def versionCount (space : CodeSpace) (head : UInt32) : Except Error Nat :=
  List.length <$> space.chain head

def lastVersion (space : CodeSpace) (head : UInt32) : Except Error UInt32 :=
  (fun blobs => (blobs.getLast?.map (·.offset)).getD head) <$> space.chain head

def setLink (space : CodeSpace) (offset next : UInt32) : CodeSpace :=
  ⟨space.bytes.overwrite (offset.toNat + BlobHeader.nextVersionOffset)
    (Bytes.ofInt32 next.toInt32)⟩

def appendVersion (space : CodeSpace) (head : Option UInt32) (blob : Bytes) :
    Except Error (CodeSpace × UInt32) := do
  let tail ← head.mapM space.lastVersion
  let (space, offset) ← space.append blob
  match tail with
  | some tail => return (space.setLink tail offset, offset)
  | none => return (space, offset)

end CodeSpace

end CodeCache
