import CodeCache.Assumption.Check
import CodeCache.Blob.Replay
import CodeCache.Options.Basic
import CodeCache.Store.CodeSpace

/-!
# Checking one version

A version is checked in two steps. The first resolves its metadata array and scores its
speculations; the second checks its dependencies and resolves everything else that installing it
needs. A check that fails is no error: it is told by a verdict.
-/

namespace CodeCache

structure VersionState where
  version : Nat
  offset : UInt32
  isAccepted : Bool := false
  isPrepared : Bool := false
  verdict : Verdict := .ok
  /-- Cost of the version; less is better. -/
  score : Int64 := 0
  resolved : Resolved := {}
  knownObjects : List KnownObject := []
  deriving DecidableEq, Repr

namespace VersionState

def isValid (s : VersionState) : Bool :=
  s.isAccepted && s.isPrepared

def checkBits (s : VersionState) : Nat :=
  s.isAccepted.toNat + 2 * s.isPrepared.toNat

end VersionState

namespace Selection

def acceptance (ctx : ReviveContext) (o : Options) (metas : List (Option Entity)) (b : Blob) :
    Except Error Int64 := do
  let records ← b.speculations
  if o.disableConstantOpt && records.any Speculation.isConstantReplace then
    throw (.optRejected .constantsDisabled)
  Speculation.totalScore { metas, host := ctx.host, costs := o.costs } records

def accept (ctx : ReviveContext) (o : Options) (b : Blob) (state : VersionState) :
    InSpace VersionState := do
  match ← attempt (b.resolveMetadata ctx) with
  | .error _ => return { state with verdict := .badMetaArray }
  | .ok metadata =>
    let state := { state with resolved := { state.resolved with metadata } }
    match acceptance ctx o metadata b with
    | .ok score => return { state with score, isAccepted := true }
    | .error e =>
      return { state with verdict := if e.isCorruption then .badMetaArray else .rejectedOpt }

def checkDependencies (ctx : ReviveContext) (metas : List (Option Entity)) (b : Blob) :
    Except Error Unit := do
  Dependency.checkAll ctx.host metas (← b.dependencies)

def knownObjects (b : Blob) : Except Error (List KnownObject) := do
  return (← TagStream.knownObjects b.tagOop) ++ (← TagStream.knownObjects b.tagReloc)

def prepare (ctx : ReviveContext) (b : Blob) (state : VersionState) : InSpace VersionState := do
  match checkDependencies ctx state.resolved.metadata b with
  | .error _ => return { state with verdict := .violatedDependency }
  | .ok () =>
    match ← attempt (b.resolveOops ctx) with
    | .error _ => return { state with verdict := .badOopArray }
    | .ok oops =>
      let state := { state with resolved := { state.resolved with oops } }
      match ← attempt (b.resolveSites ctx) with
      | .error _ => return { state with verdict := .badRelocInfo }
      | .ok values =>
        let state := { state with resolved := { state.resolved with values } }
        match knownObjects b with
        | .error _ => return { state with verdict := .badRelocInfo }
        | .ok known => return { state with knownObjects := known, isPrepared := true }

def checkBlob (ctx : ReviveContext) (o : Options) (version : Nat) (b : Blob) :
    InSpace VersionState := do
  let state ← accept ctx o b { version, offset := b.offset }
  if state.isAccepted then prepare ctx b state else return state

def checkVersion (ctx : ReviveContext) (o : Options) (space : CodeSpace) (offset : UInt32)
    (version : Nat) : InSpace VersionState := do
  checkBlob ctx o version (← ofExcept (space.blob offset))

end Selection

end CodeCache
