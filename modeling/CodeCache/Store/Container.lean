import CodeCache.Store.CodeSpace
import CodeCache.Store.Fingerprint
import CodeCache.Store.LookupTable

/-!
# Containers

A container holds all code captured under one fingerprint: the fingerprint, a lookup table from
methods to their first versions, and a code space. Its stored form is a header, which gives the
start and length of the three sections and links to the next container, and the sections.
-/

namespace CodeCache

inductive ReviveStatus where
  | success
  | fail
  | notInCache
  /-- A method of the same name exists with another identity or loader. -/
  | foundWithName
  deriving DecidableEq, Repr

namespace ReviveStatus

def all : List ReviveStatus :=
  [success, fail, notInCache, foundWithName]

def name : ReviveStatus → String
  | success => "success"
  | fail => "fail"
  | notInCache => "not in cache"
  | foundWithName => "found with name"

end ReviveStatus

structure Container where
  fingerprint : Fingerprint
  table : LookupTable
  code : CodeSpace := {}
  deriving DecidableEq, Repr

namespace Container

def sized (fingerprint : Fingerprint) (expected : Nat) : Container :=
  { fingerprint, table := .sized expected }

def methodCount (c : Container) : Nat :=
  c.table.size

def addVersion (c : Container) (metaIndex : UInt32) (name : String) (blob : Bytes) :
    Except Error (Container × UInt32) := do
  let (table, place) ← c.table.insert metaIndex name
  let head := table.codeOffset? place
  let (code, offset) ← c.code.appendVersion head blob
  let table := if head.isNone then table.setCodeOffset place offset else table
  return ({ c with table, code }, offset)

def compareKey (space : MetaSpace) (key : MetaKey) (index : UInt32) : KeyMatch :=
  match space.entry? index with
  | some entry =>
    if entry.key = key then .exact
    else if entry.key.name = key.name then .nameOnly
    else .different
  | none => .different

def find (c : Container) (space : MetaSpace) (key : MetaKey) :
    Except Error (ReviveStatus × Option UInt32) := do
  match ← c.table.find key.name.display (compareKey space key) with
  | .found place =>
    match c.table.codeOffset? place with
    | some head => return (.success, some head)
    | none => return (.notInCache, none)
  | .foundWithName => return (.foundWithName, none)
  | .notFound => return (.notInCache, none)

def methods (c : Container) : List (UInt32 × UInt32) :=
  c.table.occupied.filterMap fun (place, e) =>
    (c.table.codeOffset? place).map fun head => (e.metaIndex.toUInt32, head)

/-! ## Stored form -/

def headerSize : Nat := 32

def encodedSize (c : Container) : Nat :=
  headerSize + alignUp c.fingerprint.encodedSize + alignUp c.table.encodedSize
    + alignUp c.code.size

/-- The stored container; `next` is the absolute offset of the one behind it, zero for the last. -/
def encode (c : Container) (next : UInt64) : Bytes :=
  let fingerprint := c.fingerprint.encode
  let table := c.table.encode
  let code := c.code.bytes
  let tableStart := headerSize + alignUp fingerprint.length
  let codeStart := tableStart + alignUp table.length
  Bytes.ofWords ([headerSize, fingerprint.length, tableStart, table.length, codeStart,
      code.length].map UInt32.ofNat)
    ++ Bytes.ofUInt64 next ++ fingerprint.padded ++ table.padded ++ code.padded

def section? (view : Bytes) (start : Nat) (offset len : UInt32) : Except Error Bytes :=
  if offset.toNat < headerSize then .error (.corruption (.containerSection offset.toNat))
  else view.slice (start + offset.toNat) len.toNat

def decodeHeader : Read (Section × Section × Section × UInt64) := do
  let fingerprint ← BlobHeader.readSection
  let table ← BlobHeader.readSection
  let code ← BlobHeader.readSection
  let next ← Read.uint64
  return (fingerprint, table, code, next)

/-- The container at `start`, and where the next one is. Containers follow each other forwards. -/
def decode (view : Bytes) (start : Nat) : Except Error (Container × Option UInt64) := do
  let header ← view.slice start headerSize
  let (fingerprint, table, code, next) ← decodeHeader.run header
  let fingerprint ← section? view start fingerprint.start fingerprint.length
  let table ← section? view start table.start table.length
  let code ← section? view start code.start code.length
  let fingerprint ← Fingerprint.decode fingerprint
  let table ← LookupTable.decode table
  let container : Container := { fingerprint, table, code := ⟨code⟩ }
  if next = 0 then return (container, none)
  else if next.toNat ≤ start then throw (.corruption (.containerLink start next.toNat))
  else return (container, some next)

/-! ## Listing -/

def printVersions (name : UInt32 → String) : List (Except Error Blob) → String
  | [] => ""
  | .ok b :: rest => b.print name ++ printVersions name rest
  | .error e :: _ => s!"    <{e.message}>\n"

def print (space : MetaSpace) (settings : Option Settings) (c : Container) : String :=
  s!"  Container: {c.methodCount} methods, {c.code.size} bytes of code\n"
    ++ "  Fingerprint:\n" ++ c.fingerprint.print settings ++ c.table.print space.name
    ++ String.join (c.methods.map fun (_, head) =>
      printVersions space.name (c.code.versions head))

end Container

end CodeCache
