import CodeCache.Host.GlobalKind
import CodeCache.Host.Entity

/-!
# Tag records

Saved code holds no addresses. For each value that a process has to fill in there is a tag record
that says, by name, what the value is.
-/

namespace CodeCache

inductive TagRecord where
  | global (kind : GlobalKind) (offset : UInt32)
  | text (s : String)
  | loaderObject (loader : Loader)
  | knownObject (o : KnownObject)
  | selfMethod
  | internalWord (offset : UInt32)
  | klass (loader : Loader) (index : UInt32) (minState : InitState)
  | mirror (loader : Loader) (index : UInt32) (minState : InitState)
  | method (loader : Loader) (index : UInt32)
  | skip
  | nonOop
  | finish
  deriving DecidableEq, Repr

namespace TagRecord

/-- The stored code of each sort of record; 0 and 5 are reserved. -/
def tag : TagRecord → UInt16
  | global .. => 1
  | text _ => 2
  | loaderObject _ => 3
  | knownObject _ => 4
  | selfMethod => 6
  | internalWord _ => 7
  | klass .. => 8
  | mirror .. => 9
  | method .. => 10
  | skip => 11
  | nonOop => 12
  | finish => 13

def metaIndex? : TagRecord → Option UInt32
  | klass _ index _ => some index
  | mirror _ index _ => some index
  | method _ index => some index
  | _ => none

def mapIndexM {m : Type → Type} [Monad m] (f : UInt32 → m UInt32) : TagRecord → m TagRecord
  | klass loader index minState => return klass loader (← f index) minState
  | mirror loader index minState => return mirror loader (← f index) minState
  | method loader index => return method loader (← f index)
  | record => pure record

def describe : TagRecord → String
  | global kind offset => "vm_global " ++ kind.name ++ "+" ++ toString offset.toNat
  | text s => "oop_str " ++ Quoted.quote s
  | loaderObject loader => "oop_classloader " ++ loader.name
  | knownObject o => "global_oop " ++ o.name
  | selfMethod => "meta_self_method"
  | internalWord offset => "internal_word +" ++ toString offset.toNat
  | klass loader index minState =>
    "klass_by_name #" ++ toString index.toNat ++ " " ++ loader.name ++ " " ++ minState.name
  | mirror loader index minState =>
    "mirror_by_name #" ++ toString index.toNat ++ " " ++ loader.name ++ " " ++ minState.name
  | method loader index => "method_by_name #" ++ toString index.toNat ++ " " ++ loader.name
  | skip => "skip"
  | nonOop => "non_oop"
  | finish => "end"

end TagRecord

end CodeCache
