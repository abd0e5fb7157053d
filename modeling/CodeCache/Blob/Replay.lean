import CodeCache.Blob.Resolve

/-!
# Replaying the patch sites

Reviving ends by writing every patch site of the code anew. The relocations say what a site refers
to; the tag stream of the sites and the list of resolved values are consumed in step with them, and
nothing of either may be left over.
-/

namespace CodeCache

structure Replay where
  code : Bytes
  tags : Cursor
  values : List SiteValue

abbrev Replaying := StateT Replay (Except Error)

namespace Replay

def write (slot : UInt32) (value : UInt64) : Replaying Unit := do
  let code ← (← get).code.writeSlot slot.toNat value
  modify fun state => { state with code := code }

def record (site : UInt32) : Replaying TagRecord := do
  match TagRecord.decode (← get).tags with
  | .error e _ => throw e
  | .ok .finish _ => throw (.corruption (.streamEnds site))
  | .ok record rest =>
    modify fun state => { state with tags := rest }
    return record

def value : Replaying SiteValue := do
  match (← get).values with
  | [] => throw (.corruption .streamOverruns)
  | v :: rest =>
    modify fun state => { state with values := rest }
    return v

def global (ctx : ReviveContext) (site : UInt32) : Replaying UInt64 := do
  match ← record site with
  | .global kind offset => ctx.host.globals.addressOf kind offset
  | other => throw (.corruption (.globalSite other site))

def objectAddress (ctx : ReviveContext) (site : UInt32) : Replaying UInt64 := do
  match ← record site with
  | .loaderObject _ => return ctx.host.objectAddress (.loader ctx.holderLoader)
  | .nonOop | .text _ | .knownObject _ | .mirror .. =>
    match ← value with
    | .null => return 0
    | .object o => return ctx.host.objectAddress o
    | .entity _ => throw (.corruption (.metadataAtOopSite site))
  | other => throw (.corruption (.oopSite other site))

def entityAddress (ctx : ReviveContext) (site : UInt32) : Replaying UInt64 := do
  match ← record site with
  | .nonOop | .selfMethod | .klass .. | .method .. =>
    match ← value with
    | .null => return 0
    | .entity e => return ctx.host.metadataAddress e
    | .object _ => throw (.corruption (.objectAtMetadataSite site))
  | other => throw (.corruption (.metadataSite other site))

/-- The address of an entry of an array at an index that counts from one; zero for an absent one. -/
def entryAddress {α : Type} (address : α → UInt64) (what : String) (entries : List (Option α))
    (index : UInt32) : Except Error UInt64 :=
  match if index = 0 then none else entries[index.toNat - 1]? with
  | some entry => .ok ((entry.map address).getD 0)
  | none => .error (.corruption (.arrayIndex what index entries.length))

def internalAddress (base : UInt64) (codeSize site : UInt32) : Replaying UInt64 := do
  match ← record site with
  | .internalWord offset =>
    if offset ≤ codeSize then return base + offset.toUInt64
    else throw (.corruption (.internalSite (.internalWord offset) site codeSize))
  | other => throw (.corruption (.internalSite other site codeSize))

def pollAddress? (ctx : ReviveContext) (site : UInt32) : Replaying (Option UInt64) := do
  match ← record site with
  | .skip => return none
  | .global kind offset => return some (← ctx.host.globals.addressOf kind offset)
  | other => throw (.corruption (.pollSite other site))

/-- The value of the slot of a patch site, if it has one to write. Calls start out unresolved: their
other slots are written here. -/
def siteValue? (ctx : ReviveContext) (resolved : Resolved) (base : UInt64) (codeSize : UInt32)
    (r : Relocation) : Replaying (Option UInt64) := do
  match r.kind with
  | .none => return none
  | .oop index false =>
    return some (← entryAddress ctx.host.objectAddress "oop" resolved.oops index)
  | .oop _ true => return some (← objectAddress ctx r.offset)
  | .metadata index false =>
    return some (← entryAddress ctx.host.metadataAddress "metadata" resolved.metadata index)
  | .metadata _ true => return some (← entityAddress ctx r.offset)
  | .externalWord | .runtimeCall => return some (← global ctx r.offset)
  | .poll _ | .pollReturn _ => pollAddress? ctx r.offset
  | .virtualCall cachedValueOffset =>
    write cachedValueOffset nonOopWord
    return some (← ctx.host.globals.addressOf .resolveVirtualCall 0)
  | .optVirtualCall => return some (← ctx.host.globals.addressOf .resolveOptVirtualCall 0)
  | .staticCall => return some (← ctx.host.globals.addressOf .resolveStaticCall 0)
  | .staticStub metadataOffset jumpOffset =>
    write metadataOffset 0
    write jumpOffset (base + jumpOffset.toUInt64)
    return none
  | .internalWord | .sectionWord => return some (← internalAddress base codeSize r.offset)

def site (ctx : ReviveContext) (resolved : Resolved) (base : UInt64) (codeSize : UInt32)
    (r : Relocation) : Replaying Unit := do
  match ← siteValue? ctx resolved base codeSize r with
  | some value => write r.offset value
  | none => return ()

def finish : Replaying Unit := do
  let state ← get
  match TagRecord.decodeEnd state.tags with
  | .error e _ => throw e
  | .ok .. =>
    if state.values.length ≠ 0 then
      throw (.corruption (.valuesUnused state.values.length))

def run (ctx : ReviveContext) (resolved : Resolved) (base : UInt64) (codeSize : UInt32)
    (relocs : List Relocation) : Replaying Unit := do
  relocs.forM (site ctx resolved base codeSize)
  finish

end Replay

/-- The method that a blob holds, ready to be installed. Only tables are consulted here: every name
was resolved before. -/
def Blob.revive (ctx : ReviveContext) (resolved : Resolved) (b : Blob) :
    Except Error CompiledMethod := do
  let base := ctx.host.installAddress ctx.method
  let relocations ← b.relocations
  let start : Replay :=
    { code := b.code, tags := { bytes := b.tagReloc }, values := resolved.values }
  let ((), done) ← (Replay.run ctx resolved base b.header.codeSize relocations).run start
  let stackMaps ← b.stackMaps
  let dependencies ← b.dependencies
  let speculations ← b.speculations
  return {
    method := ctx.method
    code := done.code
    base
    entry := b.header.entry
    verifiedEntry := b.header.verifiedEntry
    relocations
    oops := resolved.oops
    metadata := resolved.metadata
    stackMaps, dependencies, speculations }

end CodeCache
