import CodeCache.Bytes.Cursor

/-!
# Relocations

A relocation names a patch site: an eight-byte slot of the code, and what has to stand in it. Some
sorts own further slots and carry their offsets. A stored relocation takes 16 bytes.
-/

namespace CodeCache

/-- What a patch site refers to. Indices into the arrays of a method count from one. -/
inductive RelocKind where
  | none
  | oop (index : UInt32) (immediate : Bool)
  | metadata (index : UInt32) (immediate : Bool)
  | externalWord
  | runtimeCall
  | poll (usesPage : Bool)
  | pollReturn (usesPage : Bool)
  | virtualCall (cachedValueOffset : UInt32)
  | optVirtualCall
  | staticCall
  /-- The out-of-line stub of a static call, with its metadata and jump slots. -/
  | staticStub (metadataOffset jumpOffset : UInt32)
  | internalWord
  | sectionWord
  deriving DecidableEq, Repr

namespace RelocKind

def code : RelocKind → UInt16
  | none => 0
  | oop .. => 1
  | metadata .. => 2
  | externalWord => 3
  | runtimeCall => 4
  | poll _ => 5
  | pollReturn _ => 6
  | virtualCall _ => 7
  | optVirtualCall => 8
  | staticCall => 9
  | staticStub .. => 10
  | internalWord => 11
  | sectionWord => 12

def name : RelocKind → String
  | none => "none"
  | oop .. => "oop"
  | metadata .. => "metadata"
  | externalWord => "external_word"
  | runtimeCall => "runtime_call"
  | poll _ => "poll"
  | pollReturn _ => "poll_return"
  | virtualCall _ => "virtual_call"
  | optVirtualCall => "opt_virtual_call"
  | staticCall => "static_call"
  | staticStub .. => "static_stub"
  | internalWord => "internal_word"
  | sectionWord => "section_word"

def operands : RelocKind → Bool × UInt32 × UInt32
  | oop index immediate => (immediate, index, 0)
  | metadata index immediate => (immediate, index, 0)
  | poll usesPage => (usesPage, 0, 0)
  | pollReturn usesPage => (usesPage, 0, 0)
  | virtualCall cachedValueOffset => (false, cachedValueOffset, 0)
  | staticStub metadataOffset jumpOffset => (false, metadataOffset, jumpOffset)
  | _ => (false, 0, 0)

def ofOperands? (code : UInt16) (flag : Bool) (a b : UInt32) : Option RelocKind :=
  match code.toNat with
  | 0 => some none
  | 1 => some (oop a flag)
  | 2 => some (metadata a flag)
  | 3 => some externalWord
  | 4 => some runtimeCall
  | 5 => some (poll flag)
  | 6 => some (pollReturn flag)
  | 7 => some (virtualCall a)
  | 8 => some optVirtualCall
  | 9 => some staticCall
  | 10 => some (staticStub a b)
  | 11 => some internalWord
  | 12 => some sectionWord
  | _ => .none

theorem ofOperands?_operands (kind : RelocKind) :
    ofOperands? kind.code kind.operands.1 kind.operands.2.1 kind.operands.2.2 = some kind := by
  cases kind <;> rfl

end RelocKind

structure Relocation where
  offset : UInt32
  kind : RelocKind
  deriving DecidableEq, Repr

namespace Relocation

def size : Nat := 16

def encode (r : Relocation) : Bytes :=
  let (flag, a, b) := r.kind.operands
  Bytes.ofUInt32 r.offset ++ Bytes.ofUInt16 r.kind.code
    ++ Bytes.ofUInt16 (if flag then 1 else 0) ++ Bytes.ofUInt32 a ++ Bytes.ofUInt32 b

def decode : Read Relocation := do
  let offset ← Read.uint32
  let code ← Read.uint16
  let flags ← Read.uint16
  let a ← Read.uint32
  let b ← Read.uint32
  match RelocKind.ofOperands? code (flags != 0) a b with
  | some kind => return ⟨offset, kind⟩
  | none => throw (.corruption (.relocationKind code offset))

def decodeMany : Nat → Read (List Relocation)
  | 0 => pure []
  | n + 1 => return (← decode) :: (← decodeMany n)

def encodeAll (relocs : List Relocation) : Bytes :=
  relocs.flatMap encode

@[simp] theorem length_encode (r : Relocation) : r.encode.length = size := by
  simp [encode, size]

end Relocation

end CodeCache
