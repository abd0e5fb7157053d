/-!
# Redefinition epochs

Every class redefinition advances an epoch. An entry remembers the epoch at which it was last
checked; it is trusted as long as no redefinition happened since, and checked again otherwise.
-/

namespace CodeCache

/-- The counter of redefinitions. It starts at 1 and goes up by 2, so that no epoch equals a cleared
stamp. Stored in 64 bits, it is this number for fewer than 2^63 redefinitions of one process. -/
structure Epoch where
  value : Nat := 1
  deriving DecidableEq, Repr

namespace Epoch

def advance (e : Epoch) : Epoch :=
  ⟨e.value + 2⟩

end Epoch

/-- The epoch at which one entry was last checked, in 64 bits like the epoch; 0 means never. -/
structure Stamp where
  value : Nat := 0
  deriving DecidableEq, Repr

namespace Stamp

def isCurrent (s : Stamp) (e : Epoch) : Bool :=
  s.value == e.value

def of (epoch : Nat) : Stamp :=
  ⟨epoch⟩

def never : Stamp :=
  ⟨0⟩

end Stamp

end CodeCache
