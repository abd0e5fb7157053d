import CodeCache.Assumption.Dependency
import CodeCache.Assumption.Speculation
import CodeCache.Code.Relocation
import CodeCache.Code.StackMap

/-!
# Compiled methods

A compiled method as the compiler hands it over, and as a revive hands it back.
-/

namespace CodeCache

/-- The compile level of the optimizing tier; only its output is cached. -/
def optimizingLevel : UInt32 := 4

/-- The value of an inline-cache slot that holds no receiver yet. -/
def nonOopWord : UInt64 := 0xfffffffffffffffe

structure CompiledMethod where
  method : MethodId
  code : Bytes := []
  base : UInt64
  entry : UInt32 := 0
  verifiedEntry : UInt32 := 0
  relocations : List Relocation := []
  oops : List (Option Object) := []
  metadata : List (Option Entity) := []
  stackMaps : List StackMap := []
  dependencies : List Dependency := []
  speculations : List Speculation := []
  level : UInt32 := optimizingLevel
  isOsr : Bool := false
  hasCallSiteTarget : Bool := false
  deriving DecidableEq, Repr

namespace CompiledMethod

def patchSlot (nm : CompiledMethod) (offset : UInt32) (value : UInt64) :
    Except Error CompiledMethod := do
  return { nm with code := ← nm.code.writeSlot offset.toNat value }

end CompiledMethod

end CodeCache
