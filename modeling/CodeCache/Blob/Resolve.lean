import CodeCache.Blob.Basic

/-!
# Resolving a blob

Reviving starts by resolving every name that the tag streams of a blob mention. The outcome is the
two arrays of the method, and a list of values for those patch sites that have a record of their
own.
-/

namespace CodeCache

inductive SiteValue where
  | null
  | object (o : Object)
  | entity (e : Entity)
  deriving DecidableEq, Repr

structure Resolved where
  metadata : List (Option Entity) := []
  oops : List (Option Object) := []
  values : List SiteValue := []
  deriving DecidableEq, Repr

structure ReviveContext where
  host : Host
  epoch : Epoch
  method : MethodId

namespace ReviveContext

/-- Whether code that needs a class in a state may use it in another one. A pure interface need not
be more than linked. -/
def isReady (host : Host) (k : ClassId) (needed : InitState) : Bool :=
  let state := host.initState k
  state != .failed &&
    (needed.code ≤ state.code
      || (host.isPureInterface k && InitState.linked.code ≤ state.code))

def checkReady (host : Host) (k : ClassId) (needed : InitState) : Except Error Unit :=
  if isReady host k needed then .ok ()
  else .error (.unresolved (.notReady (host.className k) (host.initState k) needed))

def klassAt (ctx : ReviveContext) (index : UInt32) (needed : InitState) : InSpace ClassId := do
  match ← MetaSpace.resolve ctx.host ctx.epoch index with
  | .klass k =>
    ofExcept (checkReady ctx.host k needed)
    return k
  | .method _ => throw (.corruption (.namesMethod index))

def methodAt (ctx : ReviveContext) (index : UInt32) : InSpace MethodId := do
  match ← MetaSpace.resolve ctx.host ctx.epoch index with
  | .method m =>
    ofExcept (checkReady ctx.host (ctx.host.methodHolder m) .loaded)
    return m
  | .klass _ => throw (.corruption (.namesClass index))

def holderLoader (ctx : ReviveContext) : Loader :=
  ctx.host.entityLoader (.method ctx.method)

def entityOf (ctx : ReviveContext) : TagRecord → InSpace (Option Entity)
  | .nonOop => return none
  | .selfMethod => return some (.method ctx.method)
  | .klass _ index needed => return some (.klass (← ctx.klassAt index needed))
  | .method _ index => return some (.method (← ctx.methodAt index))
  | record => throw (.corruption (.metadataPosition record))

def objectOf (ctx : ReviveContext) : TagRecord → InSpace (Option Object)
  | .nonOop => return none
  | .text s => return some (.text s)
  | .knownObject known => return some (.known known)
  | .mirror _ index needed => return some (.mirror (← ctx.klassAt index needed))
  | .loaderObject .holder => return some (.loader ctx.holderLoader)
  | record => throw (.corruption (.oopPosition record))

/-- The value that a record of a patch site names. The others need no name: addresses, and the
loader, which follows from the method. -/
def siteValue? (ctx : ReviveContext) (record : TagRecord) : InSpace (Option SiteValue) := do
  match record with
  | .nonOop => return some .null
  | .selfMethod | .klass .. | .method .. =>
    return some (((← ctx.entityOf record).map .entity).getD .null)
  | .text _ | .knownObject _ | .mirror .. =>
    return some (((← ctx.objectOf record).map .object).getD .null)
  | .global .. | .internalWord _ | .skip | .loaderObject _ | .finish => return none

end ReviveContext

namespace Blob

def readFrom {α : Type} (reader : Read α) (c : Cursor) : InSpace (α × Cursor) :=
  match reader c with
  | .ok a c => pure (a, c)
  | .error e _ => throw e

def resolveArray {α : Type} (value : TagRecord → InSpace α) : Nat → Cursor → InSpace (List α)
  | 0, c => do
    let _ ← readFrom TagRecord.decodeEnd c
    return []
  | n + 1, c => do
    let (record, c) ← readFrom TagRecord.decode c
    let a ← value record
    return a :: (← resolveArray value n c)

def resolveMetadata (ctx : ReviveContext) (b : Blob) : InSpace (List (Option Entity)) :=
  resolveArray ctx.entityOf b.header.metaCount.toNat { bytes := b.tagMeta }

def resolveOops (ctx : ReviveContext) (b : Blob) : InSpace (List (Option Object)) :=
  resolveArray ctx.objectOf b.header.oopCount.toNat { bytes := b.tagOop }

def resolveSites (ctx : ReviveContext) (b : Blob) : InSpace (List SiteValue) := do
  let stream := TagStream.scan b.tagReloc
  let values ← stream.records.mapM fun (_, record) => ctx.siteValue? record
  match stream.fault with
  | some e => throw e
  | none => return values.filterMap id

def resolve (ctx : ReviveContext) (b : Blob) : InSpace Resolved := do
  let metadata ← b.resolveMetadata ctx
  let oops ← b.resolveOops ctx
  let values ← b.resolveSites ctx
  return { metadata, oops, values }

end Blob

end CodeCache
