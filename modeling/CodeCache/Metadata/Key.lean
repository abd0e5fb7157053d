import CodeCache.Host.Entity

/-!
# Metadata keys

A cache names a class or method by a key that means the same in every process: its name, a hash of
its contents, and the category of the loader that defined it.
-/

namespace CodeCache

inductive MetaName where
  | klass (name : String)
  | method (holder name signature : String)
  deriving DecidableEq, Repr

namespace MetaName

def isMethod : MetaName → Bool
  | klass _ => false
  | method .. => true

def display : MetaName → String
  | klass name => name
  | method holder name signature => holder ++ "." ++ name ++ signature

end MetaName

structure MetaKey where
  name : MetaName
  identity : UInt64
  loader : Loader
  deriving DecidableEq, Repr

def MetaKey.display (key : MetaKey) : String :=
  key.name.display ++ " [" ++ Layout.hexWide 16 key.identity.toNat ++ " " ++ key.loader.name ++ "]"

end CodeCache
