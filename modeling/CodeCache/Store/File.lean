import CodeCache.FileTree
import CodeCache.Store.Container
import CodeCache.Text.Report

/-!
# Cache files

A cache file is a header, a chain of containers and the metaspace that all of them share. It is
accepted only if its magic number is right, the declared size is the real one, and the build that
wrote it is the one that reads it, where that is asked for.
-/

namespace CodeCache

structure CacheFile where
  path : Option String := none
  buildIdentity : String
  space : MetaSpace := {}
  containers : List Container := []
  deriving Repr

structure FileHeader where
  headerSize : UInt32
  fileSize : UInt64
  containerStart : UInt64
  containerSize : UInt64
  metaStart : UInt64
  metaSize : UInt64
  containerCount : UInt32
  buildIdentity : String
  deriving DecidableEq, Repr

namespace FileHeader

def magic : UInt32 := 0xf00baba1

def fixedSize : Nat := 56

def maxContainers : Nat := 65536

def encodedSize (buildIdentity : String) : Nat :=
  alignUp (fixedSize + (Bytes.ofText buildIdentity).length)

def encode (h : FileHeader) : Bytes :=
  Bytes.padded <|
    Bytes.ofUInt32 magic ++ Bytes.ofUInt32 h.headerSize ++ Bytes.ofUInt64 h.fileSize
      ++ Bytes.ofUInt64 h.containerStart ++ Bytes.ofUInt64 h.containerSize
      ++ Bytes.ofUInt64 h.metaStart ++ Bytes.ofUInt64 h.metaSize
      ++ Bytes.ofUInt32 h.containerCount ++ Bytes.ofUInt32 0 ++ Bytes.ofText h.buildIdentity

theorem length_encode (h : FileHeader) : h.encode.length = encodedSize h.buildIdentity := by
  rw [encode, Bytes.length_padded, encodedSize]
  simp only [List.length_append, Bytes.length_ofUInt32, Bytes.length_ofUInt64, fixedSize]

def decode : Read FileHeader := do
  let found ← Read.uint32
  if found ≠ magic then
    throw (.format (.badMagic magic.toNat found.toNat))
  let headerSize ← Read.uint32
  let fileSize ← Read.uint64
  let containerStart ← Read.uint64
  let containerSize ← Read.uint64
  let metaStart ← Read.uint64
  let metaSize ← Read.uint64
  let containerCount ← Read.uint32
  let _ ← Read.uint32
  match ← Read.text? with
  | .error fault => throw (.format (.badIdentity fault))
  | .ok buildIdentity =>
    return { headerSize, fileSize, containerStart, containerSize, metaStart, metaSize,
             containerCount, buildIdentity }

def holds (h : FileHeader) (start size : UInt64) : Bool :=
  h.headerSize.toNat ≤ start.toNat && start.toNat + size.toNat ≤ h.fileSize.toNat

def check (h : FileHeader) (size : Nat) : Except Error Unit :=
  if h.fileSize.toNat ≠ size then .error (.format (.sizeMismatch h.fileSize.toNat size))
  else if !(h.holds h.containerStart h.containerSize && h.holds h.metaStart h.metaSize) then
    .error (.format .sectionOutside)
  else if maxContainers < h.containerCount.toNat then
    .error (.format (.containerCount h.containerCount.toNat))
  else .ok ()

def checkBuild (h : FileHeader) : Option String → Except Error Unit
  | none => .ok ()
  | some expected =>
    if h.buildIdentity = expected then .ok ()
    else .error (.format (.otherBuild h.buildIdentity expected))

end FileHeader

namespace CacheFile

/-! ## Loading -/

/-- The chain of containers from an offset on: `left` of them are declared beyond the `before` that
were read. Every method must be a key of the metaspace. -/
def decodeChain (view : Bytes) (space : MetaSpace) (finish : Nat) (before : Nat) :
    Nat → Nat → Except Error (List Container)
  | 0, offset => .error (.corruption (.containerChain offset before))
  | left + 1, offset => do
    if finish ≤ offset then
      throw (.corruption (.containerChain offset before))
    let (container, next) ← Container.decode view offset
    container.methods.forM fun (index, _) => do
      let _ ← space.key index
    match next with
    | some next =>
      return container :: (← decodeChain view space finish (before + 1) left next.toNat)
    | none =>
      if left ≠ 0 then
        throw (.corruption (.containerCount (before + 1 + left) (before + 1)))
      return [container]

def decode (view : Bytes) (expected : Option String) : Except Error CacheFile := do
  if view.length < FileHeader.fixedSize then
    throw (.format (.noCache view.length))
  let header ← FileHeader.decode.run view
  header.check view.length
  header.checkBuild expected
  let space ← MetaSpace.decode (view.window header.metaStart.toNat header.metaSize.toNat)
  let start := header.containerStart.toNat
  let containers ←
    decodeChain view space (start + header.containerSize.toNat) 0 header.containerCount.toNat start
  return { buildIdentity := header.buildIdentity, space, containers }

def view (files : FileTree) (path : String) : Except Error Bytes :=
  match files.at? path with
  | some (.file bytes) => .ok bytes
  | some .directory => .error (.internal (.unmappable path))
  | none => .error (.internal (.unopenable path))

def copy (files : FileTree) (path : String) : Except Error Bytes :=
  match files.read? path with
  | some bytes => .ok bytes
  | none => .error (.internal (.unreadable path))

def load (files : FileTree) (path : String) (expected : Option String) :
    Except Error CacheFile := do
  let file ← decode (← view files path) expected
  return { file with path := some path }

/-! ## Containers -/

def selectContainer (f : CacheFile) (s : Settings) : Option Nat :=
  f.containers.findIdx? fun c => (c.fingerprint.accepts s).isOk

def containerFor (f : CacheFile) (fingerprint : Fingerprint) : CacheFile × Nat :=
  match f.containers.findIdx? fun c => c.fingerprint.identical fingerprint with
  | some i => (f, i)
  | none => ({ f with containers := f.containers ++ [.sized fingerprint 0] }, f.containers.length)

def addVersion (f : CacheFile) (place : Nat) (metaIndex : UInt32) (name : String) (blob : Bytes) :
    Except Error (CacheFile × UInt32) :=
  match f.containers[place]? with
  | none => .error (.internal (.containerGone place))
  | some container => do
    let (container, offset) ← container.addVersion metaIndex name blob
    return ({ f with containers := f.containers.set place container }, offset)

def inSpace {α : Type} (f : CacheFile) (work : InSpace α) : Except Error α × CacheFile :=
  match work f.space with
  | .ok a space => (.ok a, { f with space })
  | .error e space => (.error e, { f with space })

/-! ## Saving -/

def encodedSize (f : CacheFile) : Nat :=
  FileHeader.encodedSize f.buildIdentity + (f.containers.map Container.encodedSize).foldr (· + ·) 0
    + alignUp f.space.encode.length

def encodeChain (start : Nat) : List Container → Bytes
  | [] => []
  | [c] => c.encode 0
  | c :: d :: rest =>
    let next := start + c.encodedSize
    c.encode (UInt64.ofNat next) ++ encodeChain next (d :: rest)

def encode (f : CacheFile) : Bytes :=
  let headerSize := FileHeader.encodedSize f.buildIdentity
  let chain := (encodeChain headerSize f.containers).padded
  let space := f.space.encode.padded
  let metaStart := headerSize + chain.length
  let header : FileHeader :=
    { headerSize := UInt32.ofNat headerSize
      fileSize := UInt64.ofNat (metaStart + space.length)
      containerStart := UInt64.ofNat headerSize
      containerSize := UInt64.ofNat chain.length
      metaStart := UInt64.ofNat metaStart
      metaSize := UInt64.ofNat space.length
      containerCount := UInt32.ofNat f.containers.length
      buildIdentity := f.buildIdentity }
  header.encode ++ chain ++ space

/-- The files with the cache file written to a path, and its size. Nothing is written if it would be
larger than allowed. -/
def write (f : CacheFile) (files : FileTree) (path : String) (limit : Nat) :
    Except Error (FileTree × Nat) :=
  let size := f.encodedSize
  if limit < size then .error (.fileTooLarge size limit)
  else
    let bytes := f.encode
    match files.write path bytes with
    | some files => .ok (files, bytes.length)
    | none => .error .io

/-! ## Listings -/

def print (settings : Option Settings) (f : CacheFile) : String :=
  let container (i : Nat) (c : Container) : String :=
    s!"Container #{i}\n" ++ c.print f.space settings
  let place := f.path.getD "<memory>"
  Layout.lines [s!"CacheFile: {place}", s!"  build identity: {f.buildIdentity}",
      s!"  containers: {f.containers.length}"]
    ++ String.join (f.containers.mapIdx container) ++ f.space.print

def slotName (space : MetaSpace) (method : String) (record : TagRecord) : String :=
  match record with
  | .selfMethod => method
  | .nonOop => "null"
  | record =>
    match record.metaIndex? with
    | some index => space.name index
    | none => record.describe

def slotNames (space : MetaSpace) (method : String) (b : Blob) : Except Error (List String) :=
  (·.map (slotName space method)) <$> TagStream.decode b.tagMeta

/-- The name that listings show for a slot; slots count from one. -/
def nameOfSlot (slots : List String) (slot : UInt32) : String :=
  match if slot = 0 then none else slots[slot.toNat - 1]? with
  | some name => name
  | none => s!"#{slot}"

def printVersion (space : MetaSpace) (method : String) (version : Nat) (b : Blob) :
    Except Error String := do
  let name := nameOfSlot (← slotNames space method b)
  let dependencies ← b.dependencies
  let dependencies := dependencies.mergeSort fun a b => (a.compareBy compare name b).isLE
  let speculations ← b.speculations
  let speculations := speculations.mergeSort fun a b => (a.compareByName name b).isLE
  return Layout.lines <|
    [s!"    version {version} @{b.offset}: {dependencies.length} dependencies, "
      ++ s!"{speculations.length} opt records"]
    ++ dependencies.map (fun d => "      dep " ++ d.describe name)
    ++ speculations.map (fun r => "      opt " ++ r.describe name)

def printVersionsFrom (space : MetaSpace) (method : String) :
    Nat → List (Except Error Blob) → Except Error String
  | _, [] => .ok ""
  | version, blob :: rest => do
    let shown ← printVersion space method version (← blob)
    return shown ++ (← printVersionsFrom space method (version + 1) rest)

def printMethod (space : MetaSpace) (c : Container) (index head : UInt32) :
    Except Error String := do
  let method := space.name index
  return s!"  {method}\n" ++ (← printVersionsFrom space method 0 (c.code.versions head))

def printAssumptions (f : CacheFile) : Except Error String := do
  let container (i : Nat) (c : Container) : Except Error String := do
    let methods ← c.methods.mapM fun (index, head) => printMethod f.space c index head
    return s!"Container #{i}\n" ++ String.join methods
  let containers ← (f.containers.mapIdx fun i c => (i, c)).mapM fun (i, c) => container i c
  return String.join containers

/-- Number of versions of a method; none if its chain is broken. -/
def versionsOf (c : Container) (head : UInt32) : Nat :=
  match c.code.versionCount head with
  | .ok n => n
  | .error _ => 0

def containerSummary (c : Container) : Report :=
  .object [
    ("code_bytes", .number c.code.size),
    ("methods", .number c.methodCount),
    ("versions", .number ((c.methods.map fun (_, head) => versionsOf c head).foldr (· + ·) 0))]

def summary (f : CacheFile) : Report :=
  .object [
    ("build_identity", .text f.buildIdentity),
    ("containers", .list (f.containers.map containerSummary)),
    ("metaspace_entries", .number f.space.size),
    ("path", (f.path.map Report.text).getD .null)]

end CacheFile

end CodeCache
