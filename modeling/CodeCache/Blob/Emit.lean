import CodeCache.Blob.Basic

/-!
# Emitting a blob

Saving a compiled method turns every class, method and object that it mentions into a tag record and
interns the classes and methods into a metaspace. A method that mentions something without a name
cannot be saved.

The three tag streams are those of the metadata array, of the object array and of the patch sites.
Most patch sites point into one of the arrays or are rebuilt from their kind; only the others have a
record of their own.
-/

namespace CodeCache

structure BlobSizes where
  header : Nat
  body : Nat
  tags : Nat
  stackMaps : Nat
  deriving DecidableEq, Repr

structure EmittedBlob where
  bytes : Bytes
  methodIndex : UInt32
  sizes : BlobSizes
  deriving DecidableEq, Repr

namespace CompiledMethod

def siteEstimate : RelocKind → Nat
  | .oop _ true => 24
  | .metadata _ true => 24
  | .externalWord => 8
  | .runtimeCall => 8
  | .poll _ => 8
  | .pollReturn _ => 8
  | .internalWord => 8
  | .sectionWord => 8
  | _ => 0

/-- What the text of a string constant adds: it may stand in two streams. -/
def textEstimate : Option Object → Nat
  | some (.text s) => 2 * (Utf8.encode s).length
  | _ => 0

def estimateTagSize (nm : CompiledMethod) : Nat :=
  (nm.oops.length + nm.metadata.length) * 24
    + (nm.relocations.map fun r => siteEstimate r.kind).foldr (· + ·) 0
    + (nm.oops.map textEstimate).foldr (· + ·) 0 + 3 * 8

end CompiledMethod

namespace Emit

/-- How far a class has to be initialized again: as far as it is now. Array classes have no state of
their own. -/
def klassState (host : Host) (k : ClassId) : InitState :=
  if host.isInstanceClass k then host.initState k else .allocated

def entityRecord (host : Host) (self : MethodId) (entity : Entity) : InSpace TagRecord :=
  if entity = .method self then pure .selfMethod
  else do
    let index ← MetaSpace.intern host entity
    match entity with
    | .method _ => return .method (host.entityLoader entity) index
    | .klass k => return .klass (host.classLoader k) index (klassState host k)

/-- The record of an object. A loader has a name only if it defined the holder of the method. -/
def objectRecord (host : Host) (self : MethodId) (object : Object) : InSpace TagRecord :=
  match host.knownObject object with
  | some known => pure (.knownObject known)
  | none => do
    match object with
    | .text s => return .text s
    | .mirror k =>
      let index ← MetaSpace.intern host (.klass k)
      return .mirror (host.classLoader k) index (klassState host k)
    | .loader l =>
      if l = host.entityLoader (.method self) then return .loaderObject .holder
      else throw (.unresolved (.unnameable object))
    | _ => throw (.unresolved (.unnameable object))

def orNone {α : Type} (record : α → InSpace TagRecord) : Option α → InSpace TagRecord
  | some a => record a
  | none => pure .nonOop

def globalRecord (host : Host) (code : Bytes) (what : String) (site : UInt32) :
    Except Error TagRecord := do
  let address ← code.readSlot site.toNat
  match host.globals.find? address with
  | some (kind, offset) => return .global kind offset
  | none => throw (.unresolved (.unknownAddress what site address))

/-- The record of the code address in the slot of a site. The end of the code counts as part of
it. -/
def internalRecord (nm : CompiledMethod) (site : UInt32) : Except Error TagRecord := do
  let address ← nm.code.readSlot site.toNat
  let last := nm.base + UInt64.ofNat nm.code.length
  if address < nm.base || last < address then
    throw (.unresolved (.outsideCode site address nm.base last))
  return .internalWord (address - nm.base).toUInt32

def pollRecord (usesPage : Bool) : TagRecord :=
  if usesPage then .global .pollingPage 0 else .skip

/-- The entry of an array at an index that counts from one. -/
def entryAt {α : Type} (entries : List α) (index : UInt32) (missing : Unresolved) :
    Except Error α :=
  match if index = 0 then none else entries[index.toNat - 1]? with
  | some a => .ok a
  | none => .error (.unresolved missing)

def siteRecord? (host : Host) (nm : CompiledMethod) (r : Relocation) :
    InSpace (Option TagRecord) := do
  match r.kind with
  | .oop index true =>
    let object ← ofExcept (entryAt nm.oops index (.oopIndex index))
    some <$> orNone (objectRecord host nm.method) object
  | .metadata index true =>
    let entity ← ofExcept (entryAt nm.metadata index (.metadataIndex index))
    some <$> orNone (entityRecord host nm.method) entity
  | .externalWord => some <$> ofExcept (globalRecord host nm.code "external word" r.offset)
  | .runtimeCall => some <$> ofExcept (globalRecord host nm.code "runtime call" r.offset)
  | .poll usesPage => return some (pollRecord usesPage)
  | .pollReturn usesPage => return some (pollRecord usesPage)
  | .internalWord => some <$> ofExcept (internalRecord nm r.offset)
  | .sectionWord => some <$> ofExcept (internalRecord nm r.offset)
  | _ => return none

def addSection (bs part : Bytes) : Bytes × Section :=
  (bs.padded ++ part, ⟨UInt32.ofNat (alignUp bs.length), UInt32.ofNat part.length⟩)

def assemble (nm : CompiledMethod) (methodIndex : UInt32) (tagMeta tagOop tagReloc : Bytes) :
    EmittedBlob :=
  let bs := Bytes.zeros BlobHeader.byteSize ++ nm.code
  let (bs, relocs) := addSection bs (Relocation.encodeAll nm.relocations)
  let (bs, deps) := addSection bs (Dependency.encodeAll nm.dependencies)
  let (bs, opts) := addSection bs (Speculation.encodeAll nm.speculations)
  let bodyEnd := bs.length
  let (bs, tagMeta) := addSection bs tagMeta
  let (bs, tagOop) := addSection bs tagOop
  let (bs, tagReloc) := addSection bs tagReloc
  let tagsEnd := bs.length
  let (bs, stackMaps) := addSection bs (StackMap.encodeAll nm.stackMaps)
  let bs := bs.padded
  let header : BlobHeader :=
    { size := UInt32.ofNat bs.length
      codeSize := UInt32.ofNat nm.code.length
      entry := nm.entry
      verifiedEntry := nm.verifiedEntry
      relocStart := relocs.start
      relocCount := UInt32.ofNat nm.relocations.length
      deps, opts
      oopCount := UInt32.ofNat nm.oops.length
      metaCount := UInt32.ofNat nm.metadata.length
      tagMeta, tagOop, tagReloc, stackMaps
      nextVersion := -1
      methodIndex }
  { bytes := bs.overwrite 0 header.encode
    methodIndex
    sizes :=
      { header := BlobHeader.byteSize
        body := bodyEnd - BlobHeader.byteSize
        tags := tagsEnd - bodyEnd
        stackMaps := bs.length - tagsEnd } }

end Emit

/-- The blob of a compiled method. The method itself is interned first. -/
def CompiledMethod.emit (host : Host) (nm : CompiledMethod) : InSpace EmittedBlob := do
  let methodIndex ← MetaSpace.intern host (.method nm.method)
  let metas ← nm.metadata.mapM (Emit.orNone (Emit.entityRecord host nm.method))
  let oops ← nm.oops.mapM (Emit.orNone (Emit.objectRecord host nm.method))
  let sites ← nm.relocations.mapM (Emit.siteRecord? host nm)
  return Emit.assemble nm methodIndex (TagStream.encode metas) (TagStream.encode oops)
    (TagStream.encode (sites.filterMap id))

end CodeCache
