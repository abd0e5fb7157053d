import CodeCache.Assumption.Dependency
import CodeCache.Assumption.Hierarchy

/-!
# Checking dependencies

A dependency of a saved method is checked again against the classes of the process that revives the
method. `metas` is the method's metadata array, resolved in that process.
-/

namespace CodeCache.Dependency

def entityAt (metas : List (Option Entity)) (index : UInt32) : Except Error Entity :=
  match if index = 0 then none else (metas[index.toNat - 1]?).join with
  | some entity => .ok entity
  | none => .error (.corruption (.dependencyNoEntry index))

def argAt (args : List UInt32) (position : Nat) : Except Error UInt32 :=
  match args[position]? with
  | some arg => .ok arg
  | none => .error (.corruption (.dependencyArity position))

/-- The class at a position. An implicit one comes from the next argument: the holder of a method,
or the class itself. -/
def classArg (host : Host) (metas : List (Option Entity)) (args : List UInt32) (position : Nat) :
    Except Error ClassId := do
  let arg ← argAt args position
  if arg = 0 then
    match args[position + 1]? with
    | none => throw (.corruption .dependencyContext)
    | some next =>
      match ← entityAt metas next with
      | .klass k => return k
      | .method m => return host.methodHolder m
  else
    match ← entityAt metas arg with
    | .klass k => return k
    | .method _ => throw (.corruption (.dependencyNoClass arg))

def methodArg (metas : List (Option Entity)) (args : List UInt32) (position : Nat) :
    Except Error MethodId := do
  let arg ← argAt args position
  match ← entityAt metas arg with
  | .method m => return m
  | .klass _ => throw (.corruption (.dependencyNoMethod arg))

def holds (host : Host) (metas : List (Option Entity)) (d : Dependency) : Except Error Bool := do
  let classAt := classArg host metas d.args
  let methodAt := methodArg metas d.args
  match d.kind with
  | .evolMethod => return !host.isEvolved (← methodAt 0)
  | .leafType => return (host.subclasses (← classAt 0)).isEmpty
  | .abstractWithUniqueConcreteSubtype =>
    let context ← classAt 0
    let unique ← classAt 1
    return Hierarchy.concreteSubtypes host context == [unique]
  | .abstractWithNoConcreteSubtype =>
    return (Hierarchy.concreteSubtypes host (← classAt 0)).isEmpty
  | .concreteWithNoConcreteSubtype =>
    let context ← classAt 0
    return (Hierarchy.concreteSubtypes host context).all (· == context)
  | .uniqueConcreteMethod =>
    let context ← classAt 0
    let m ← methodAt 1
    return (Hierarchy.concreteMethods host context m).all (· == m)
  | .abstractWithExclusiveConcreteSubtypes =>
    let context ← classAt 0
    let k1 ← classAt 1
    let k2 ← classAt 2
    return (Hierarchy.concreteSubtypes host context).all fun k => k == k1 || k == k2
  | .exclusiveConcreteMethods =>
    let context ← classAt 0
    let m1 ← methodAt 1
    let m2 ← methodAt 2
    return (Hierarchy.concreteMethods host context m1).all fun m => m == m1 || m == m2
  | .noFinalizableSubclasses =>
    let context ← classAt 0
    return !(Hierarchy.subtree host context).any host.hasFinalizer
  | .callSiteTargetValue => return false

def check (host : Host) (metas : List (Option Entity)) (d : Dependency) : Except Error Unit := do
  if ← d.holds host metas then return ()
  else throw (.dependencyViolated (.assumption d.kind.name d.args))

def checkAll (host : Host) (metas : List (Option Entity)) (ds : List Dependency) :
    Except Error Unit :=
  ds.forM (check host metas)

end CodeCache.Dependency
