import CodeCache.Bytes.Cursor

/-!
# Record lists on the wire

Assumptions are stored as lists: a count of eight bytes, then the records. Words are little-endian,
a choice is stored as the number of the alternative in four bytes, an optional value as one byte
that says whether it follows, a truth value as one byte. An empty section holds no records.
-/

namespace CodeCache.Wire

def fault (f : RecordFault) : Error :=
  .corruption (.records f)

def bytes (len : Nat) : Read Bytes :=
  (Read.bytes len).mapError fun _ => fault .endOfInput

def uint32 : Read UInt32 := return (← bytes 4).toUInt32

def int32 : Read Int32 := return (← bytes 4).toInt32

def uint64 : Read UInt64 := return (← bytes 8).toUInt64

def int64 : Read Int64 := return (← bytes 8).toInt64

def byte : Read UInt8 := return (← bytes 1).getD 0 0

def variant (count : Nat) : Read Nat := do
  let found := (← uint32).toNat
  if found < count then return found else throw (fault (.variant found count))

def bool : Read Bool := do
  let found := (← byte).toNat
  if found = 0 then return false
  else if found = 1 then return true
  else throw (fault (.boolean found))

def option {α : Type} (value : Read α) : Read (Option α) := do
  let found := (← byte).toNat
  if found = 0 then return none
  else if found = 1 then return some (← value)
  else throw (fault (.optionTag found))

def many {α : Type} (value : Read α) : Nat → Read (List α)
  | 0 => pure []
  | n + 1 => return (← value) :: (← many value n)

def list {α : Type} (value : Read α) : Read (List α) := do
  many value (← uint64).toNat

/-- The records of a section. Bytes after the last record are ignored. -/
def decodeAll {α : Type} (record : Read α) (bs : Bytes) : Except Error (List α) :=
  if bs.isEmpty then .ok [] else (list record).run bs

/-! ## Writing -/

def ofVariant (n : Nat) : Bytes := Bytes.ofUInt32 (UInt32.ofNat n)

def ofBool (b : Bool) : Bytes := [if b then 1 else 0]

def ofOption {α : Type} (encode : α → Bytes) : Option α → Bytes
  | none => [0]
  | some a => 1 :: encode a

def ofList {α : Type} (encode : α → Bytes) (as : List α) : Bytes :=
  Bytes.ofUInt64 (UInt64.ofNat as.length) ++ as.flatMap encode

end CodeCache.Wire
