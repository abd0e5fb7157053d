import CodeCache.Merge.Group
import CodeCache.Merge.Inputs

/-!
# Merging cache files

A merge reads many cache files and writes one. For each group of containers it decides which
versions of each method stay, and copies their blobs into a fresh container. A copy names the same
classes and methods as the blob it was made from; only their metaspace indices change.
-/

namespace CodeCache

/-- A version that a merge kept, with the number and the count of its `MethodVersion`. -/
structure MergedVersion where
  id : Nat
  count : Nat
  speculations : Nat
  dependencies : Nat
  deriving DecidableEq, Repr

structure MergedMethod where
  name : String
  count : Nat
  versions : List MergedVersion
  deriving DecidableEq, Repr

structure MergeReport where
  output : String
  inputFiles : Nat
  validFiles : Nat
  groups : Nat
  keptGroups : Nat
  containers : List (List MergedMethod)
  fileSize : Nat
  deriving DecidableEq, Repr

namespace MergeReport

def method? (r : MergeReport) (name : String) : Option MergedMethod :=
  r.containers.flatten.find? (·.name == name)

def versionReport (v : MergedVersion) : Report :=
  .object [("id", .number v.id), ("count", .number v.count),
    ("opt_records", .number v.speculations), ("dependencies", .number v.dependencies)]

def methodReport (m : MergedMethod) : Report :=
  .object [("name", .text m.name), ("count", .number m.count),
    ("versions", .list (m.versions.map versionReport))]

def toReport (r : MergeReport) : Report :=
  .object [("output", .text r.output), ("input_files", .number r.inputFiles),
    ("valid_files", .number r.validFiles), ("groups", .number r.groups),
    ("kept_groups", .number r.keptGroups),
    ("containers", .list (r.containers.map fun ms => .list (ms.map methodReport))),
    ("file_size", .number r.fileSize)]

end MergeReport

namespace Merge

structure Kept where
  key : MetaKey
  versions : MethodVersions

def Kept.report (k : Kept) : MergedMethod where
  name := k.key.name.display
  count := k.versions.count
  versions := k.versions.versions.map fun v =>
    { id := v.id, count := v.count, speculations := v.speculations.length,
      dependencies := v.dependencies.length }

def Kept.places (k : Kept) : List BlobPlace :=
  k.versions.versions.map (·.place)

def keep (o : Options) (inputs : List Input) (g : Group) : List Kept :=
  let collected := collect inputs g
  collected.methods.filterMap fun m =>
    collected.keys[m.method.toNat]?.map fun key =>
      { key, versions := m.selectBest o.mergePolicy (max o.maxVersions 1) }

/-! ## Copying -/

abbrev Reindexing := List (UInt32 × UInt32)

def reindex (space : MetaSpace) :
    Reindexing → MetaSpace → List UInt32 → Except Error (Reindexing × MetaSpace)
  | map, merged, [] => .ok (map, merged)
  | map, merged, index :: indices =>
    match map.lookup index with
    | some _ => reindex space map merged indices
    | none => do
      let (merged, new) := merged.internKey (← space.key index)
      reindex space ((index, new) :: map) merged indices

def newIndex (map : Reindexing) (index : UInt32) : Except Error UInt32 :=
  match map.lookup index with
  | some new => .ok new
  | none => .error (.internal (.notCollected index))

def reindexPart (map : Reindexing) (bytes : Bytes) (s : Section) : Except Error Bytes := do
  let part := bytes.window s.start.toNat s.length.toNat
  let reindexed ← TagStream.reindex (newIndex map) part
  if s.length.toNat < reindexed.length then
    throw (.corruption (.reindexedSize reindexed.length s.length.toNat))
  return bytes.overwrite s.start.toNat reindexed

/-- A copy of a blob for the merged metaspace, and that metaspace. The copy is the last of its
chain. -/
def copyBlob (space : MetaSpace) (index : UInt32) (b : Blob) (merged : MetaSpace) :
    Except Error (Bytes × MetaSpace) := do
  let parts := [b.header.tagMeta, b.header.tagOop, b.header.tagReloc]
  let indices ← parts.mapM fun s => TagStream.metaIndices (b.part s)
  let (map, merged) ← reindex space [] merged indices.flatten
  let unlinked := b.bytes.overwrite BlobHeader.nextVersionOffset (Bytes.ofInt32 (-1))
  let named := unlinked.overwrite BlobHeader.methodIndexOffset (Bytes.ofUInt32 index)
  let bytes ← parts.foldlM (reindexPart map) named
  return (bytes, merged)

def blobAt (inputs : List Input) (place : BlobPlace) : Except Error (Blob × MetaSpace) :=
  match inputs[place.file]?.bind fun i => (i.file.containers[place.container]?).map (i, ·) with
  | none => .error (.internal (.containerGone place.container))
  | some (input, c) => (·, input.file.space) <$> c.code.blob place.offset

def copyVersions (inputs : List Input) (index : UInt32) (name : String) :
    Container × MetaSpace → List BlobPlace → Except Error (Container × MetaSpace)
  | out, [] => .ok out
  | (container, merged), place :: places => do
    let (b, space) ← blobAt inputs place
    let (bytes, merged) ← copyBlob space index b merged
    let (container, _) ← container.addVersion index name bytes
    copyVersions inputs index name (container, merged) places

def copyMethods (inputs : List Input) :
    Container × MetaSpace → List Kept → Except Error (Container × MetaSpace)
  | out, [] => .ok out
  | (container, merged), k :: ks => do
    let (merged, index) := merged.internKey k.key
    let out ← copyVersions inputs index k.key.name.display (container, merged) k.places
    copyMethods inputs out ks

def copyGroups (inputs : List Input) :
    MetaSpace → List (Group × List Kept) → Except Error (List Container × MetaSpace)
  | merged, [] => .ok ([], merged)
  | merged, (g, ks) :: rest => do
    let (container, merged) ← copyMethods inputs (.sized g.fingerprint ks.length, merged) ks
    let (containers, merged) ← copyGroups inputs merged rest
    return (container :: containers, merged)

/-! ## The merge -/

/-- The readable ones among some files, which must all be of one build if builds are checked. Where
none is given, the first readable file decides. -/
def readInputs (files : FileTree) (checkBuild : Bool) :
    Option String → List String → List Input
  | _, [] => []
  | identity, path :: paths =>
    match CacheFile.load files path (if checkBuild then identity else none) with
    | .error _ => readInputs files checkBuild identity paths
    | .ok file =>
      { path, file } ::
        readInputs files checkBuild (identity.or (some file.buildIdentity)) paths

def keptSize (kept : List (List Kept)) : Nat :=
  (kept.flatten.flatMap fun k => k.places.map fun p => alignUp p.size.toNat).foldr (· + ·) 0

def build (o : Options) (output : String) (paths : List String) (inputs : List Input)
    (identity : String) : Except Error (CacheFile × MergeReport) := do
  let all := groups inputs
  let chosen := keptGroups o inputs.length all
  let kept := chosen.map (keep o inputs)
  if o.maxFileSize < keptSize kept then
    throw (.fileTooLarge (keptSize kept) o.maxFileSize)
  let (containers, space) ← copyGroups inputs {} (chosen.zip kept)
  let report : MergeReport :=
    { output
      inputFiles := paths.length
      validFiles := inputs.length
      groups := all.length
      keptGroups := chosen.length
      containers := kept.map (·.map Kept.report)
      fileSize := 0 }
  return ({ buildIdentity := identity, space, containers }, report)

def run (o : Options) (expected : Option String) (files : FileTree) :
    Except Error (FileTree × MergeReport) := do
  let some output := o.file
    | throw (.config .outputMissing)
  let paths ← inputFiles o files
  let inputs := readInputs files o.checkBuild expected paths
  let some first := inputs.head?
    | throw (.config .inputsUnreadable)
  let (file, report) ← build o output paths inputs first.file.buildIdentity
  let (files, size) ← file.write files output o.maxFileSize
  return (files, { report with fileSize := size })

end Merge

end CodeCache
