import CodeCache.Code.Method
import CodeCache.Host.Basic

/-!
# Assembling a method

Builds a compiled method the way a code generator does: each step appends bytes to the code, and a
step with a patch site writes the address that the host reports and records the relocation.
-/

namespace CodeCache.Assembler

def start (host : Host) (m : MethodId) : CompiledMethod :=
  { method := m, base := host.installAddress m }

variable (nm : CompiledMethod)

def offset : UInt32 :=
  UInt32.ofNat nm.code.length

def bytes (bs : Bytes) : CompiledMethod :=
  { nm with code := nm.code ++ bs }

def nops (count : Nat) : CompiledMethod :=
  bytes nm (List.replicate count 0x90)

def setEntries (entry verifiedEntry : UInt32) : CompiledMethod :=
  { nm with entry, verifiedEntry }

def slot (value : UInt64) : CompiledMethod :=
  bytes nm (Bytes.ofUInt64 value)

def relocation (r : Relocation) : CompiledMethod :=
  { nm with relocations := nm.relocations ++ [r] }

def site (value : UInt64) (kind : RelocKind) : CompiledMethod :=
  relocation (slot nm value) ⟨offset nm, kind⟩

def addOop (object : Option Object) : CompiledMethod × UInt32 :=
  ({ nm with oops := nm.oops ++ [object] }, UInt32.ofNat (nm.oops.length + 1))

def addMetadata (entity : Option Entity) : CompiledMethod × UInt32 :=
  match nm.metadata.idxOf? entity with
  | some i => (nm, UInt32.ofNat (i + 1))
  | none => ({ nm with metadata := nm.metadata ++ [entity] },
      UInt32.ofNat (nm.metadata.length + 1))

def oop (host : Host) (object : Object) (immediate : Bool) : CompiledMethod :=
  let (nm, index) := addOop nm (some object)
  site nm (host.objectAddress object) (.oop index immediate)

def metadata (host : Host) (entity : Entity) (immediate : Bool) : CompiledMethod :=
  let (nm, index) := addMetadata nm (some entity)
  site nm (host.metadataAddress entity) (.metadata index immediate)

def runtimeCall (host : Host) (kind : GlobalKind) : Except Error CompiledMethod := do
  return site nm (← host.globals.addressOf kind 0) .runtimeCall

def runtimeCallTo (address : UInt64) : CompiledMethod :=
  site nm address .runtimeCall

def externalWord (host : Host) (kind : GlobalKind) (offset : UInt32) :
    Except Error CompiledMethod := do
  return site nm (← host.globals.addressOf kind offset) .externalWord

def pollValue (host : Host) (usesPage : Bool) : Except Error UInt64 :=
  if usesPage then host.globals.addressOf .pollingPage 0 else .ok 0

def poll (host : Host) (usesPage : Bool) : Except Error CompiledMethod := do
  return site nm (← pollValue host usesPage) (.poll usesPage)

def pollReturn (host : Host) (usesPage : Bool) : Except Error CompiledMethod := do
  return site nm (← pollValue host usesPage) (.pollReturn usesPage)

/-- A virtual call: the slot of its inline cache, then the call. -/
def virtualCall (host : Host) : Except Error CompiledMethod := do
  let target ← host.globals.addressOf .resolveVirtualCall 0
  return site (slot nm nonOopWord) target (.virtualCall (offset nm))

def optVirtualCall (host : Host) : Except Error CompiledMethod := do
  return site nm (← host.globals.addressOf .resolveOptVirtualCall 0) .optVirtualCall

def staticCall (host : Host) : Except Error CompiledMethod := do
  return site nm (← host.globals.addressOf .resolveStaticCall 0) .staticCall

/-- The stub of an unresolved static call: no metadata yet, and a jump to itself. -/
def staticStub : CompiledMethod :=
  let at0 := offset nm
  let withMetadata := slot nm 0
  let at1 := offset withMetadata
  relocation (slot withMetadata (nm.base + at0.toUInt64 + 8)) ⟨at0, .staticStub at0 at1⟩

def internalWord (target : UInt32) : CompiledMethod :=
  site nm (nm.base + target.toUInt64) .internalWord

def sectionWord (target : UInt32) : CompiledMethod :=
  site nm (nm.base + target.toUInt64) .sectionWord

def stackMap (valueCount : UInt32) (data : Bytes) : CompiledMethod :=
  { nm with stackMaps := nm.stackMaps ++ [{ pcOffset := offset nm, valueCount, data }] }

def addEntities (nm : CompiledMethod) : List Entity → CompiledMethod × List UInt32
  | [] => (nm, [])
  | entity :: entities =>
    let (nm, index) := addMetadata nm (some entity)
    let (nm, indices) := addEntities nm entities
    (nm, index :: indices)

def dependency (kind : DependencyKind) (entities : List Entity) : CompiledMethod :=
  let (nm, args) := addEntities nm entities
  { nm with dependencies := nm.dependencies ++ [{ kind, args }] }

def speculation (r : Speculation) : CompiledMethod :=
  { nm with speculations := Speculation.insertUnique nm.speculations r }

end CodeCache.Assembler
