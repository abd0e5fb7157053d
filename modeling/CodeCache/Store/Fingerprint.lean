import CodeCache.Bytes.Cursor
import CodeCache.Host.Settings

/-!
# Fingerprints

A fingerprint holds the settings that must agree for saved code to be usable. It is captured when
code is saved. Loading compares it with the settings of the process; merging compares two
fingerprints with each other.
-/

namespace CodeCache

/-- Beginnings of the names of options that never change generated code. -/
def ignoredFlagStarts : List String :=
  ["Print", "Trace", "Profile", "Perf", "CI", "HeapDump", "Unlock", "Log", "BackgroundCompilation",
    "UseCompressedOops", "UseCompressedClassPointers", "UseUTF8UTF16Intrinsics",
    "IgnoreUnrecognizedVMOptions", "ClassUnloading", "CMSClassUnloadingEnabled",
    "DisableExplicitGC", "UseSharedSpaces", "CMSIgnoreYoungGenPerWorker",
    "CMSScavengeBeforeRemark", "FastTLABRefill", "UseAdaptiveSizePolicy", "UseSHM",
    "CMSCleanOnEnter", "ParGCUseLocalOverflow", "IgnoreNoShareValue", "UseGCOverheadLimit",
    "UseContainerSupport", "CMSConcurrentMTEnabled"]

def startsWithText (s start : String) : Bool :=
  start.toList.isPrefixOf s.toList

namespace Settings

def isEnabled (s : Settings) (name : String) : Bool :=
  s.flags.any fun f => f.name == name && f.value

def isIdleCollectorFlag (s : Settings) (name : String) : Bool :=
  if !s.isEnabled "UseG1GC" then startsWithText name "G1"
  else if !s.isEnabled "UseConcMarkSweepGC" then
    startsWithText name "CMS" || startsWithText name "UseCMS"
  else false

def isCaptured (s : Settings) (f : Flag) : Bool :=
  f.product && !s.isIdleCollectorFlag f.name
    && !ignoredFlagStarts.any (startsWithText f.name)

end Settings

/-- Whether two modes of pointer compression generate the same code: only whether there is a base
counts, not which. -/
def NarrowPointer.sameShape (a b : NarrowPointer) : Bool :=
  (a.base == 0) == (b.base == 0) && a.shift == b.shift
    && a.implicitNullChecks == b.implicitNullChecks

structure Fingerprint where
  objectAlignment : UInt32
  paddingWidth : UInt32
  allocationStyle : UInt32
  narrowOop : NarrowPointer
  narrowKlass : NarrowPointer
  flags : List (UInt32 × Bool)
  deriving DecidableEq, Repr

namespace Fingerprint

def captureFlags (s : Settings) : List (UInt32 × Bool) :=
  ((s.flags.mapIdx fun i f => (i, f)).filter fun (_, f) => s.isCaptured f).map
    fun (i, f) => (UInt32.ofNat i, f.value)

def capture (s : Settings) : Fingerprint where
  objectAlignment := s.objectAlignment
  paddingWidth := s.paddingWidth
  allocationStyle := s.allocationStyle
  narrowOop := s.narrowOop
  narrowKlass := s.narrowKlass
  flags := captureFlags s

def flagMismatch? (s : Settings) : UInt32 × Bool → Option String
  | (index, value) =>
    match s.flags[index.toNat]? with
    | some f => if f.value = value then none else some f.name
    | none => some s!"flag #{index}"

/-- Fails unless code captured under the fingerprint is valid under the settings, and then names the
first setting that differs. -/
def accepts (f : Fingerprint) (s : Settings) : Except Error Unit :=
  if f.objectAlignment ≠ s.objectAlignment then
    .error (.fingerprintMismatch "object alignment")
  else if f.paddingWidth ≠ s.paddingWidth then
    .error (.fingerprintMismatch "ContendedPaddingWidth")
  else if f.allocationStyle ≠ s.allocationStyle then
    .error (.fingerprintMismatch "FieldsAllocationStyle")
  else
    match f.flags.findSome? (flagMismatch? s) with
    | some name => .error (.fingerprintMismatch name)
    | none =>
      if f.narrowOop.sameShape s.narrowOop && f.narrowKlass.sameShape s.narrowKlass then .ok ()
      else .error (.fingerprintMismatch "compressed pointers")

def identical (f g : Fingerprint) : Bool :=
  f.narrowOop.sameShape g.narrowOop && f.narrowKlass.sameShape g.narrowKlass
    && f.objectAlignment == g.objectAlignment && f.paddingWidth == g.paddingWidth
    && f.allocationStyle == g.allocationStyle && f.flags == g.flags

/-! ## Stored form and listing -/

def headerSize : Nat := 48

def encodedSize (f : Fingerprint) : Nat :=
  headerSize + f.flags.length * 8

def encodePointer (p : NarrowPointer) : Bytes :=
  Bytes.ofUInt64 p.base ++ Bytes.ofUInt32 p.shift
    ++ Bytes.ofUInt32 (if p.implicitNullChecks then 1 else 0)

def encodeFlag : UInt32 × Bool → Bytes
  | (index, value) => Bytes.ofUInt32 index ++ Bytes.ofUInt32 (if value then 1 else 0)

def encode (f : Fingerprint) : Bytes :=
  Bytes.ofUInt32 f.objectAlignment ++ Bytes.ofUInt32 f.paddingWidth
    ++ Bytes.ofUInt32 f.allocationStyle ++ Bytes.ofUInt32 (UInt32.ofNat f.flags.length)
    ++ encodePointer f.narrowOop ++ encodePointer f.narrowKlass ++ f.flags.flatMap encodeFlag

def decodePointer : Read NarrowPointer := do
  let base ← Read.uint64
  let shift ← Read.uint32
  let checks ← Read.uint32
  return { base, shift, implicitNullChecks := checks != 0 }

def decodeFlags : Nat → Read (List (UInt32 × Bool))
  | 0 => pure []
  | n + 1 => do
    let index ← Read.uint32
    let value ← Read.uint32
    return (index, value != 0) :: (← decodeFlags n)

def decoder : Read Fingerprint := do
  let objectAlignment ← Read.uint32
  let paddingWidth ← Read.uint32
  let allocationStyle ← Read.uint32
  let count := (← Read.uint32).toNat
  let narrowOop ← decodePointer
  let narrowKlass ← decodePointer
  let held ← Read.remaining
  if held / 8 < count then
    throw (.corruption (.flagCount count held))
  let flags ← decodeFlags count
  return { objectAlignment, paddingWidth, allocationStyle, narrowOop, narrowKlass, flags }

def decode (bs : Bytes) : Except Error Fingerprint :=
  decoder.run bs

def flagName (settings : Option Settings) (index : UInt32) : String :=
  match settings.bind (·.flags[index.toNat]?) with
  | some f => f.name
  | none => s!"#{index}"

def print (settings : Option Settings) (f : Fingerprint) : String :=
  let pointer (label : String) (p : NarrowPointer) : List String :=
    [s!"    NarrowPtrStruct for {label}", s!"      base  = {Layout.hex p.base.toNat}",
      s!"      shift = {p.shift}"]
  let flags := f.flags.mapIdx fun i (index, value) =>
    (if i % 5 = 0 then "\n      " else "")
      ++ " -XX:" ++ (if value then "+" else "-") ++ flagName settings index
  Layout.lines (
    [s!"    ObjectAlignmentInBytes = {f.objectAlignment}",
      s!"    ContendedPaddingWidth  = {f.paddingWidth}",
      s!"    FieldsAllocationStyle  = {f.allocationStyle}"]
    ++ pointer "UseCompressedOops" f.narrowOop
    ++ pointer "UseCompressedClassPointers" f.narrowKlass
    ++ [s!"    Bool options ({f.flags.length}):" ++ String.join flags])

end Fingerprint

end CodeCache
