import CodeCache.Host.Entity

/-!
# Profiles and constants

What the host's interpreter has counted so far, and the current values of constant fields. Recorded
speculations are scored against both.
-/

namespace CodeCache

inductive FieldType where
  | boolean
  | char
  | float
  | double
  | byte
  | short
  | int
  | long
  | object
  deriving DecidableEq, Repr, Inhabited

namespace FieldType

def all : List FieldType :=
  [boolean, char, float, double, byte, short, int, long, object]

def index : FieldType → Nat
  | boolean => 0
  | char => 1
  | float => 2
  | double => 3
  | byte => 4
  | short => 5
  | int => 6
  | long => 7
  | object => 8

def ofIndex? (i : Nat) : Option FieldType :=
  all[i]?

def name : FieldType → String
  | boolean => "boolean"
  | char => "char"
  | float => "float"
  | double => "double"
  | byte => "byte"
  | short => "short"
  | int => "int"
  | long => "long"
  | object => "object"

theorem ofIndex?_index (t : FieldType) : ofIndex? t.index = some t := by
  cases t <;> rfl

end FieldType

structure FieldConstant where
  type : FieldType
  bits : Int64
  deriving DecidableEq, Repr

namespace FieldConstant

def ofInt (v : Int32) : FieldConstant := ⟨.int, v.toInt64⟩

def ofLong (v : Int64) : FieldConstant := ⟨.long, v⟩

/-- A single-precision value by its 32 encoding bits, taken as a signed number. -/
def ofFloat (bits : UInt32) : FieldConstant := ⟨.float, bits.toInt32.toInt64⟩

def ofDouble (bits : UInt64) : FieldConstant := ⟨.double, bits.toInt64⟩

def isPrimitive (c : FieldConstant) : Bool :=
  c.type != .object

end FieldConstant

structure ReceiverRow where
  klass : ClassId
  count : Int64
  deriving DecidableEq, Repr

/-- Profile of a call site. A negative count says that type checks failed there. -/
structure CallProfile where
  count : Int64 := 0
  receivers : List ReceiverRow := []
  deriving DecidableEq, Repr

def CallProfile.morphism (p : CallProfile) : Nat :=
  p.receivers.length

inductive ProfileCell where
  | counter (count : Int64)
  | virtualCall (count : Int64) (receivers : List ReceiverRow)
  | branch (taken notTaken : Int64)
  deriving DecidableEq, Repr

end CodeCache
