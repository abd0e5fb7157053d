import CodeCache.Host.GlobalTable
import CodeCache.Host.Profile
import CodeCache.Host.Settings

/-!
# The host

Everything that the cache asks of the running process: names and identities of classes and methods,
the class hierarchy, profiles, addresses, settings. A host is a snapshot; what changes in the
process shows as another host at the next question.
-/

namespace CodeCache

structure Host where
  findClass : String → Loader → Option ClassId
  findMethod : ClassId → String → String → Option MethodId
  className : ClassId → String
  classIdentity : ClassId → UInt64
  classLoader : ClassId → Loader
  initState : ClassId → InitState
  isInstanceClass : ClassId → Bool
  isInterface : ClassId → Bool
  isPureInterface : ClassId → Bool
  isAnonymous : ClassId → Bool
  methodHolder : MethodId → ClassId
  methodName : MethodId → String
  methodSignature : MethodId → String
  methodIdentity : MethodId → UInt64
  superClass : ClassId → Option ClassId
  /-- Direct subclasses and direct implementors. -/
  subclasses : ClassId → List ClassId
  isAbstract : ClassId → Bool
  hasFinalizer : ClassId → Bool
  declaredMethod : ClassId → String → String → Option MethodId
  isAbstractMethod : MethodId → Bool
  isEvolved : MethodId → Bool
  callProfile : MethodId → Int32 → CallProfile
  hasMethodData : MethodId → Bool
  isMature : MethodId → Bool
  profileAt : MethodId → Int32 → Option ProfileCell
  constantField : ClassId → UInt32 → Option FieldConstant
  globals : GlobalTable
  settings : Settings
  buildIdentity : String
  knownObject : Object → Option KnownObject
  objectAddress : Object → UInt64
  metadataAddress : Entity → UInt64
  installAddress : MethodId → UInt64

namespace Host

def methodDisplayName (host : Host) (m : MethodId) : String :=
  host.className (host.methodHolder m) ++ "." ++ host.methodName m ++ host.methodSignature m

def entityName (host : Host) : Entity → String
  | .klass k => host.className k
  | .method m => host.methodDisplayName m

def entityIdentity (host : Host) : Entity → UInt64
  | .klass k => host.classIdentity k
  | .method m => host.methodIdentity m

def entityLoader (host : Host) : Entity → Loader
  | .klass k => host.classLoader k
  | .method m => host.classLoader (host.methodHolder m)

def isConcrete (host : Host) (k : ClassId) : Bool :=
  !host.isAbstract k && !host.isInterface k

end Host

end CodeCache
