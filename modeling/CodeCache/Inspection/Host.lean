import CodeCache.Host.Basic
import CodeCache.Inspection.Basic
import CodeCache.Metadata.Key

/-!
# Reports of host entities

Enumerations are reported by their names, classes and methods by their numbers.
-/

namespace CodeCache

instance : ToReport Loader where
  toReport l := .text l.name

instance : ToReport InitState where
  toReport s := .text s.name

instance : ToReport FieldType where
  toReport t := .text t.name

instance : ToReport GlobalKind where
  toReport kind := .text kind.name

instance : ToReport KnownObject where
  toReport o := .text o.name

instance : ToReport ClassId where
  toReport k := toReport k.index

instance : ToReport MethodId where
  toReport m := toReport m.index

instance : ToReport Entity where
  toReport
    | .klass k => .text s!"k{k.index}"
    | .method m => .text s!"m{m.index}"

instance : ToReport Object where
  toReport o := .object [match o with
    | .text s => ("str", toReport s)
    | .mirror k => ("mirror", toReport k)
    | .loader l => ("loader", toReport l)
    | .known o => ("known", toReport o)
    | .unnamed address => ("opaque", toReport address)]

instance : ToReport ReceiverRow where
  toReport row := .list [toReport row.klass, toReport row.count]

instance : ToReport ProfileCell where
  toReport
    | .counter n => .list [.text "counter", toReport n]
    | .virtualCall n rows => .list [.text "virtual", toReport n, toReport rows]
    | .branch taken notTaken => .list [.text "branch", toReport taken, toReport notTaken]

instance : ToReport FieldConstant where
  toReport c := .list [toReport c.type, toReport c.bits]

namespace Host

def classReport (host : Host) (k : ClassId) : Report :=
  .object [
    ("name", toReport (host.className k)), ("id", toReport (host.classIdentity k)),
    ("loader", toReport (host.classLoader k)), ("state", toReport (host.initState k)),
    ("instance", toReport (host.isInstanceClass k)), ("interface", toReport (host.isInterface k)),
    ("pure", toReport (host.isPureInterface k)), ("anon", toReport (host.isAnonymous k)),
    ("super", toReport (host.superClass k)), ("subclasses", toReport (host.subclasses k)),
    ("abstract", toReport (host.isAbstract k)), ("fin", toReport (host.hasFinalizer k)),
    ("address", toReport (host.metadataAddress (.klass k))),
    ("mirror", toReport (host.objectAddress (.mirror k)))]

def methodReport (host : Host) (m : MethodId) : Report :=
  .object [
    ("holder", toReport (host.methodHolder m)), ("name", toReport (host.methodName m)),
    ("sig", toReport (host.methodSignature m)), ("id", toReport (host.methodIdentity m)),
    ("display", toReport (host.methodDisplayName m)),
    ("abstract", toReport (host.isAbstractMethod m)), ("evolved", toReport (host.isEvolved m)),
    ("data", toReport (host.hasMethodData m)), ("mature", toReport (host.isMature m)),
    ("address", toReport (host.metadataAddress (.method m))),
    ("install", toReport (host.installAddress m))]

end Host

instance : ToReport MetaKey where
  toReport k :=
    let name : List Report := match k.name with
      | .klass name => [.text "klass", .text name]
      | .method holder name signature =>
        [.text "method", .text holder, .text name, .text signature]
    .list (name ++ [toReport k.identity, toReport k.loader])

end CodeCache
