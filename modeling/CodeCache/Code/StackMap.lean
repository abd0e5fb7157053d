import CodeCache.Bytes.Cursor

/-!
# Stack maps

At each safepoint of compiled code a stack map says where the frame holds object references. The
cache stores a set of them and does not look inside.
-/

namespace CodeCache

structure StackMap where
  pcOffset : UInt32
  valueCount : UInt32
  data : Bytes
  deriving DecidableEq, Repr

namespace StackMap

def encode (m : StackMap) : Bytes :=
  Bytes.padded (Bytes.ofUInt32 m.pcOffset ++ Bytes.ofUInt32 m.valueCount
    ++ Bytes.ofUInt32 (UInt32.ofNat m.data.length) ++ m.data)

def encodedSize (maps : List StackMap) : Nat :=
  8 + (maps.map fun m => alignUp (12 + m.data.length)).foldr (· + ·) 0

def encodeAll (maps : List StackMap) : Bytes :=
  Bytes.ofUInt32 (UInt32.ofNat (encodedSize maps - 8))
    ++ Bytes.ofUInt32 (UInt32.ofNat maps.length) ++ maps.flatMap encode

theorem length_encode (m : StackMap) : m.encode.length = alignUp (12 + m.data.length) := by
  rw [encode, Bytes.length_padded]
  congr 1
  simp
  omega

def decode (i : Nat) : Read StackMap := do
  let pcOffset ← Read.uint32
  let valueCount ← Read.uint32
  let size ← Read.uint32
  let data ← (Read.bytes size.toNat).mapError fun _ => .corruption (.stackMapData i)
  Read.align
  return { pcOffset, valueCount, data }

def decodeMany (i : Nat) : Nat → Read (List StackMap)
  | 0 => pure []
  | n + 1 => return (← decode i) :: (← decodeMany (i + 1) n)

def decodeSet : Read (List StackMap) := do
  let declared ← Read.uint32
  let count ← Read.uint32
  let held ← Read.remaining
  if declared.toNat ≠ held then
    throw (.corruption (.stackMapSize declared.toNat held))
  decodeMany 0 count.toNat

def decodeAll (bs : Bytes) : Except Error (List StackMap) :=
  decodeSet.run bs

end StackMap

end CodeCache
