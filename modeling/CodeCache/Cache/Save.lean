import CodeCache.Cache.Basic

/-!
# Saving

Saving writes the compiled methods of a process to a file. Methods whose code could not be used by
another process are passed over, and so are versions beyond the number that is kept per method.
-/

namespace CodeCache

structure SaveReport where
  methods : Nat := 0
  versions : Nat := 0
  skipped : Nat := 0
  bytes : Nat := 0
  deriving DecidableEq, Repr

structure Saving where
  file : CacheFile
  versions : List (MetaKey × Nat) := []
  stats : Statistics
  report : SaveReport := {}

namespace Saving

/-- Whether the code of a method can be used by another process: it comes from the optimizing tier,
is entered at its start, assumes no call site target, and its holder can be found by name. -/
def isEligible (host : Host) (nm : CompiledMethod) : Bool :=
  let holder := host.methodHolder nm.method
  nm.level == optimizingLevel && !nm.isOsr && !nm.hasCallSiteTarget
    && host.classLoader holder != .custom && !host.isAnonymous holder

def skip (s : Saving) : Saving :=
  { s with report := { s.report with skipped := s.report.skipped + 1 } }

def skipAfter (s : Saving) (e : Error) : Except Error Saving :=
  if e.isRecoverable then .ok s.skip else .error e

def versionsOf (s : Saving) (key : MetaKey) : Nat :=
  (s.versions.lookup key).getD 0

/-- Whether a method has as many versions as are kept. The first version is always kept. -/
def isFull (o : Options) (s : Saving) (key : MetaKey) : Bool :=
  (s.versions.lookup key).any (o.maxVersions ≤ ·)

def addBlob (fingerprint : Fingerprint) (key : MetaKey) (blob : EmittedBlob) (s : Saving) :
    Except Error Saving := do
  let versions := (key, s.versionsOf key + 1) :: s.versions.filter (·.1 != key)
  let (file, place) := s.file.containerFor fingerprint
  let name := file.space.name blob.methodIndex
  let (file, _) ← file.addVersion place blob.methodIndex name blob.bytes
  return { s with
    file, versions
    stats := s.stats.addBlobSizes blob.sizes
    report := { s.report with versions := s.report.versions + 1 } }

/-- Saves a compiled method. The number of versions is checked before anything is interned. -/
def addMethod (host : Host) (o : Options) (fingerprint : Fingerprint) (s : Saving)
    (nm : CompiledMethod) : Except Error Saving :=
  if !isEligible host nm then .ok s.skip
  else
    match MetaKey.of host (.method nm.method) with
    | .error e => s.skipAfter e
    | .ok key =>
      if s.isFull o key then .ok s.skip
      else
        match s.file.inSpace (nm.emit host) with
        | (.error e, file) => skipAfter { s with file } e
        | (.ok blob, file) => addBlob fingerprint key blob { s with file }

def countFile (s : Saving) : Statistics :=
  let tables := s.file.containers.foldl
    (fun stats c => stats.addSize .lookupTable c.table.encodedSize) s.stats
  tables.addSize .fileHeader
    (s.file.encodedSize - (s.file.containers.map Container.encodedSize).foldr (· + ·) 0)

end Saving

namespace Cache

/-- Writes the compiled methods that can be saved to the file that the options name. Several
compiled methods of one method become its versions, in order. -/
def save (host : Host) (files : FileTree) (methods : List CompiledMethod) :
    InCache (SaveReport × FileTree) := do
  let c ← get
  let o := c.options
  if !o.save then
    throw (.config .saveDisabled)
  let path ← ofExcept (outputPath o)
  if !c.isSampled then
    return ({}, files)
  let fingerprint := Fingerprint.capture host.settings
  let start : Saving := { file := { buildIdentity := host.buildIdentity }, stats := c.stats }
  let done ← ofExcept (methods.foldlM (Saving.addMethod host o fingerprint) start)
  modify fun c => { c with stats := done.countFile }
  let (files, bytes) ← ofExcept (done.file.write files path o.maxFileSize)
  modify fun c => { c with stats := c.stats.recordTime .save 0 }
  return ({ done.report with methods := done.versions.length, bytes }, files)

def merge (host : Host) (files : FileTree) : InCache (MergeReport × FileTree) := do
  let c ← get
  if !c.options.merge then
    throw (.config .mergeDisabled)
  let expected := if c.options.checkBuild then some host.buildIdentity else none
  let (files, report) ← ofExcept (Merge.run c.options expected files)
  modify fun c => { c with stats := c.stats.recordTime .merge 0 }
  return (report, files)

end Cache

end CodeCache
