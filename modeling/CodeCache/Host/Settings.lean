/-!
# Settings of the host

The settings that influence generated code.
-/

namespace CodeCache

structure NarrowPointer where
  base : UInt64 := 0
  shift : UInt32 := 0
  implicitNullChecks : Bool := false
  deriving DecidableEq, Repr

structure Flag where
  name : String
  value : Bool
  /-- Only product options are part of a fingerprint. -/
  product : Bool := true
  deriving DecidableEq, Repr

structure Settings where
  objectAlignment : UInt32 := 8
  paddingWidth : UInt32 := 128
  allocationStyle : UInt32 := 1
  narrowOop : NarrowPointer := ⟨0, 3, true⟩
  narrowKlass : NarrowPointer := ⟨0, 3, true⟩
  flags : List Flag := []
  deriving DecidableEq, Repr

end CodeCache
