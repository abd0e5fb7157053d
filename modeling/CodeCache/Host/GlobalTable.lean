import CodeCache.Error

/-!
# Runtime addresses

Each process registers the addresses of the routines and tables that compiled code may refer to.
Saving turns an address into a kind and an offset (`find?`), reviving turns the pair back into an
address of the process at hand (`addressOf`).
-/

namespace CodeCache

/-- Addresses from `start` up to but not including `finish`. -/
structure AddressRange where
  start : UInt64
  finish : UInt64
  deriving DecidableEq, Repr

structure GlobalTable where
  ranges : GlobalKind → Option AddressRange := fun _ => none

namespace GlobalTable

def saturatingAdd (a b : UInt64) : UInt64 :=
  if a.toNat + b.toNat < UInt64.size then a + b else UInt64.ofNat (UInt64.size - 1)

/-- Registers `size` bytes, at least one, in place of any earlier range of the kind. -/
def registerRange (table : GlobalTable) (kind : GlobalKind) (address size : UInt64) : GlobalTable :=
  { ranges := fun k =>
      if k = kind then some ⟨address, saturatingAdd address (if size = 0 then 1 else size)⟩
      else table.ranges k }

def register (table : GlobalTable) (kind : GlobalKind) (address : UInt64) : GlobalTable :=
  table.registerRange kind address 8

def isRegistered (table : GlobalTable) (kind : GlobalKind) : Bool :=
  (table.ranges kind).isSome

def offsetIn? (table : GlobalTable) (address : UInt64) (kind : GlobalKind) :
    Option (GlobalKind × UInt32) :=
  match table.ranges kind with
  | some r =>
    if r.start ≤ address && address < r.finish then some (kind, (address - r.start).toUInt32)
    else none
  | none => none

def find? (table : GlobalTable) (address : UInt64) : Option (GlobalKind × UInt32) :=
  GlobalKind.all.findSome? (table.offsetIn? address)

def addressOf (table : GlobalTable) (kind : GlobalKind) (offset : UInt32) :
    Except Error UInt64 :=
  match table.ranges kind with
  | none => .error (.unresolved (.globalMissing kind))
  | some r =>
    let address := r.start + offset.toUInt64
    if r.finish ≤ address then .error (.corruption (.globalOffset offset kind)) else .ok address

def printLine (kind : GlobalKind) (r : AddressRange) : String :=
  Layout.padLeft 4 (toString kind.code.val) ++ " " ++ Layout.padRight 48 kind.name
    ++ " [" ++ Layout.hex r.start.toNat ++ ", " ++ Layout.hex r.finish.toNat ++ ")"

def print (table : GlobalTable) : String :=
  Layout.lines (GlobalKind.all.filterMap fun kind => (table.ranges kind).map (printLine kind))

end GlobalTable

end CodeCache
