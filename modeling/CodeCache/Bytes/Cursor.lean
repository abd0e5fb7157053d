import CodeCache.Error

/-!
# Reading bytes

Words, strings and runs of bytes are read at an offset, or one after the other by a cursor. A read
that would pass the end fails and leaves the cursor where it was, so a reader can say how far it
got.
-/

namespace CodeCache

namespace Bytes

def slice (bs : Bytes) (offset len : Nat) : Except Error Bytes :=
  if offset + len ≤ bs.length then .ok (bs.window offset len)
  else .error (.short offset len bs.length)

def readUInt8 (bs : Bytes) (offset : Nat) : Except Error UInt8 :=
  (·.getD 0 0) <$> bs.slice offset 1

def readUInt16 (bs : Bytes) (offset : Nat) : Except Error UInt16 :=
  toUInt16 <$> bs.slice offset 2

def readUInt32 (bs : Bytes) (offset : Nat) : Except Error UInt32 :=
  toUInt32 <$> bs.slice offset 4

def readInt32 (bs : Bytes) (offset : Nat) : Except Error Int32 :=
  toInt32 <$> bs.slice offset 4

def readUInt64 (bs : Bytes) (offset : Nat) : Except Error UInt64 :=
  toUInt64 <$> bs.slice offset 8

def readInt64 (bs : Bytes) (offset : Nat) : Except Error Int64 :=
  toInt64 <$> bs.slice offset 8

def readText (bs : Bytes) (offset : Nat) : Except StringFault (String × Nat) :=
  let rest := bs.drop offset
  let body := rest.takeWhile (· != 0)
  if bs.length < offset then .error (.short ⟨offset, 1, bs.length⟩)
  else if body.length = rest.length then .error (.short ⟨offset, rest.length + 1, bs.length⟩)
  else
    match Utf8.decode body with
    | .ok s => .ok (s, body.length + 1)
    | .error fault => .error (.malformed offset fault)

def ofText (s : String) : Bytes :=
  Utf8.encode s ++ [0]

def patch (bs : Bytes) (offset : Nat) (new : Bytes) : Except Error Bytes :=
  if offset + new.length ≤ bs.length then .ok (bs.overwrite offset new)
  else .error (.internal (.patchRange offset bs.length))

/-! ## Patch slots -/

def readSlot (code : Bytes) (offset : Nat) : Except Error UInt64 :=
  if offset + 8 ≤ code.length then .ok (code.window offset 8).toUInt64
  else .error (.corruption (.patchSlot offset code.length))

def writeSlot (code : Bytes) (offset : Nat) (value : UInt64) : Except Error Bytes :=
  if offset + 8 ≤ code.length then .ok (code.overwrite offset (ofUInt64 value))
  else .error (.corruption (.patchSlot offset code.length))

theorem length_of_slice {bs part : Bytes} {offset len : Nat} (h : bs.slice offset len = .ok part) :
    part.length = len := by
  unfold slice at h
  split at h
  · rename_i fits
    cases h
    exact length_window fits
  · cases h

end Bytes

structure Cursor where
  bytes : Bytes
  position : Nat := 0

namespace Cursor

def remaining (c : Cursor) : Nat :=
  c.bytes.length - c.position

def isAtEnd (c : Cursor) : Bool :=
  c.bytes.length ≤ c.position

end Cursor

/-- A reader: it moves a cursor, and says where it stopped also when it fails. -/
abbrev Read := EStateM Error Cursor

namespace Read

def bytes (len : Nat) : Read Bytes := fun c =>
  match c.bytes.slice c.position len with
  | .ok part => .ok part { c with position := c.position + len }
  | .error e => .error e c

def uint16 : Read UInt16 := return (← bytes 2).toUInt16

def uint32 : Read UInt32 := return (← bytes 4).toUInt32

def int32 : Read Int32 := return (← bytes 4).toInt32

def uint64 : Read UInt64 := return (← bytes 8).toUInt64

def int64 : Read Int64 := return (← bytes 8).toInt64

def text? : Read (Except StringFault String) := fun c =>
  match c.bytes.readText c.position with
  | .ok (s, used) => .ok (.ok s) { c with position := c.position + used }
  | .error fault => .ok (.error fault) c

def text : Read String := do
  match ← text? with
  | .ok s => return s
  | .error fault => throw (.ofString fault)

def align : Read Unit :=
  modify fun c => { c with position := alignUp c.position }

def position : Read Nat := return (← get).position

def remaining : Read Nat := return (← get).remaining

def words : Nat → Read (List UInt32)
  | 0 => pure []
  | n + 1 => return (← uint32) :: (← words n)

def run {α : Type} (reader : Read α) (bs : Bytes) : Except Error α :=
  match reader { bytes := bs } with
  | .ok a _ => .ok a
  | .error e _ => .error e

def mapError {α : Type} (f : Error → Error) (reader : Read α) : Read α := fun c =>
  match reader c with
  | .ok a c => .ok a c
  | .error e c => .error (f e) c

end Read

end CodeCache
