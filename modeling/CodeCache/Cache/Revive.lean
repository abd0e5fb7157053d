import CodeCache.Cache.Basic

/-!
# Reviving

Reviving finds the versions of a method, selects one and rebuilds its code. A version that is out of
date or contradicted is no failure of the process: the compile then runs as usual.
-/

namespace CodeCache.Cache

def inSpace {α : Type} (file : CacheFile) (work : InSpace α) : InCache α := fun c =>
  match work file.space with
  | .ok a space => .ok a { c with file := some { file with space } }
  | .error e space => .error e { c with file := some { file with space } }

def reviveContext (host : Host) (c : Cache) (m : MethodId) : ReviveContext :=
  { host, epoch := c.epoch, method := m }

def hasOtherIdentity (host : Host) (space : MetaSpace) (b : Blob) (m : MethodId) :
    Except Error Bool := do
  let current ← MetaKey.of host (.method m)
  let saved ← space.key b.header.methodIndex
  return saved ≠ current

def install (host : Host) (m : MethodId) (container : Container) (state : VersionState) :
    InCache (ReviveStatus × Option CompiledMethod) := do
  let c ← get
  let b ← ofExcept (container.code.blob state.offset)
  if c.isDisabled m then
    return (.fail, none)
  let space := (c.file.map (·.space)).getD {}
  if c.options.checkIdentity then
    if ← ofExcept (hasOtherIdentity host space b m) then
      return (.fail, none)
  if c.options.failInstall then
    return (.fail, none)
  let nm ← ofExcept (b.revive (reviveContext host c m) state.resolved)
  return (.success, some nm)

def reviveMethod (host : Host) (draw : Nat) (m : MethodId) :
    InCache (ReviveStatus × Option CompiledMethod) := do
  let c ← get
  let (status, head) ← ofExcept (c.find host m)
  match head, c.active? with
  | some head, some (file, container) =>
    let ruledOut := c.ruledOut m
    let selection ← inSpace file <|
      Selection.select (reviveContext host c m) c.options container.code head
        (fun v => !ruledOut.contains v) draw
    modify (·.ruleOut m selection.unusable)
    if selection.disable then
      modify (·.disable m)
    match selection.selected with
    | none => return (.fail, none)
    | some state => install host m container state
  | _, _ => return (status, none)

def countRevive (status : ReviveStatus) (c : Cache) : Cache :=
  let timer := if status = .success then TimerKind.restoreSuccess else .restoreFail
  { c with stats := (c.stats.recordRevive status).recordTime timer 0 }

/-- The code of the best version of a method, or nothing if the compile has to run as usual. `draw`
decides a random choice. A failure is an error only if the options say so. -/
def revive (host : Host) (draw : Nat) (m : MethodId) (level : UInt32) :
    InCache (Option CompiledMethod) := do
  let c ← get
  if !c.isCandidate host m level then
    return none
  match ← attempt (reviveMethod host draw m) with
  | .ok (status, nm) =>
    modify (countRevive status)
    if status = .fail ∧ c.options.fatalOnFail then
      throw (.internal (.reviveFailed (host.methodDisplayName m)))
    return nm
  | .error e =>
    modify (countRevive .fail)
    if c.options.fatalOnFail then throw e else return none

def versionError (version : Nat) (name : String) (verdict : Verdict) : Error :=
  match verdict with
  | .rejectedOpt => .optRejected (.failedVersion version name verdict)
  | .violatedDependency => .dependencyViolated (.failedVersion version name verdict)
  | _ => .unresolved (.failedVersion version name verdict)

def reviveVersion (host : Host) (m : MethodId) (version : Nat) : InCache CompiledMethod := do
  let c ← get
  let name := host.methodDisplayName m
  let (_, head) ← ofExcept (c.find host m)
  match head, c.active? with
  | some head, some (file, container) =>
    match (container.code.versions head)[version]? with
    | none => throw (.unresolved (.noVersion name version))
    | some blob =>
      let b ← ofExcept blob
      let ctx := reviveContext host c m
      let state ← inSpace file (Selection.checkBlob ctx c.options version b)
      if !state.isValid then
        throw (versionError version name state.verdict)
      ofExcept (b.revive ctx state.resolved)
  | _, _ => throw (.unresolved (.notCached name))

end CodeCache.Cache
