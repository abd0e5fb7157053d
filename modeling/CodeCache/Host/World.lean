import CodeCache.Bytes.Hash
import CodeCache.Host.Basic

/-!
# A world in memory

A self-contained host with deterministic addresses. Two worlds built the same way agree on names and
identities; an address shift makes one of them look like a second process, in which every object,
metadata, runtime and code address has moved.
-/

namespace CodeCache

structure ClassSpec where
  name : String
  loader : Loader
  identity : Option UInt64 := none
  superClass : Option ClassId := none
  interfaces : List ClassId := []
  initState : InitState := .fullyInitialized
  isInterface : Bool := false
  isPureInterface : Bool := false
  isAbstract : Bool := false
  isArray : Bool := false
  isAnonymous : Bool := false
  hasFinalizer : Bool := false
  deriving Repr

namespace ClassSpec

def abstractClass (spec : ClassSpec) : ClassSpec :=
  { spec with isAbstract := true }

def interface (spec : ClassSpec) : ClassSpec :=
  { spec with isInterface := true, isAbstract := true }

def pureInterface (spec : ClassSpec) : ClassSpec :=
  { spec.interface with isPureInterface := true }

end ClassSpec

namespace World

structure ClassInfo where
  spec : ClassSpec
  identity : UInt64
  subclasses : List ClassId := []
  unloaded : Bool := false
  deriving Repr

structure MethodInfo where
  holder : ClassId
  name : String
  signature : String
  identity : UInt64
  isAbstract : Bool := false
  isEvolved : Bool := false
  deriving Repr

/-! ## Addresses

Each sort of thing lives in a region of its own, so that no two things share an address. -/

def textBase : UInt64 := 0x1_0000_0000

def mirrorBase : UInt64 := 0x2_0000_0000

def loaderBase : UInt64 := 0x3_0000_0000

def knownBase : UInt64 := 0x4_0000_0000

def classBase : UInt64 := 0x5_0000_0000

def methodBase : UInt64 := 0x6_0000_0000

def globalBase : UInt64 := 0x10_0000_0000

def globalStride : UInt64 := 0x100

def codeBase : UInt64 := 0x7f00_0000_0000

def codeStride : UInt64 := 0x1_0000

/-! ## Names and lookup -/

def nameIdentity (name : String) : UInt64 :=
  let bs := Utf8.encode name
  (Hash.stable 0x9e3779b9 bs).toUInt64 <<< 32 ||| (Hash.stable 0 bs).toUInt64

def globalsAt (shift : UInt64) : GlobalTable where
  ranges kind :=
    let start := globalBase + shift + UInt64.ofNat kind.code.val * globalStride
    some ⟨start, GlobalTable.saturatingAdd start globalStride⟩

/-- The loader categories in which a category looks for a class, in order. -/
def visibleFrom : Loader → List Loader
  | .boot => [.boot]
  | .ext => [.ext, .boot]
  | .app => [.app, .ext, .boot]
  | .custom => [.custom]
  | .holder => []

end World

/-- A world of classes and methods with their profiles. Later entries of the association lists stand
first and hide earlier ones of the same key. -/
structure World where
  classes : List World.ClassInfo := []
  methods : List World.MethodInfo := []
  callProfiles : List ((MethodId × Int32) × CallProfile) := []
  profileCells : List ((MethodId × Int32) × ProfileCell) := []
  mature : List (MethodId × Bool) := []
  constants : List ((ClassId × UInt32) × FieldConstant) := []
  known : List (Object × KnownObject) := []
  globals : GlobalTable
  settings : Settings := {}
  buildIdentity : String := "code-revive-test-vm 0.1.0"
  shift : UInt64 := 0

namespace World

def empty (shift : UInt64) : World where
  globals := globalsAt shift
  shift := shift

/-! ## Definitions -/

def defineClass (w : World) (spec : ClassSpec) : World × ClassId :=
  let k : ClassId := ⟨UInt32.ofNat w.classes.length⟩
  let parents := spec.superClass.toList ++ spec.interfaces
  let addTo (classes : List ClassInfo) (parent : ClassId) : List ClassInfo :=
    classes.modify parent.index.toNat fun c => { c with subclasses := c.subclasses ++ [k] }
  let info : ClassInfo :=
    { spec := spec, identity := spec.identity.getD (nameIdentity spec.name) }
  ({ w with classes := parents.foldl addTo w.classes ++ [info] }, k)

def defineMethod (w : World) (holder : ClassId) (name signature : String)
    (isAbstract : Bool := false) : World × MethodId :=
  let info : MethodInfo :=
    { holder, name, signature, identity := nameIdentity (name ++ signature), isAbstract }
  ({ w with methods := w.methods ++ [info] }, ⟨UInt32.ofNat w.methods.length⟩)

/-- The world with one class changed; a handle of no class changes nothing. -/
def modifyClass (w : World) (k : ClassId) (f : ClassInfo → ClassInfo) : World :=
  { w with classes := w.classes.modify k.index.toNat f }

def setInitState (w : World) (k : ClassId) (state : InitState) : World :=
  w.modifyClass k fun c => { c with spec := { c.spec with initState := state } }

def redefineClass (w : World) (k : ClassId) (identity : UInt64) : World :=
  let w := w.modifyClass k fun c => { c with identity := identity }
  { w with
    methods := w.methods.map fun m => if m.holder = k then { m with isEvolved := true } else m }

/-- Hides a class from lookup by name and from the hierarchy. -/
def unloadClass (w : World) (k : ClassId) : World :=
  w.modifyClass k fun c => { c with unloaded := true }

def setEvolved (w : World) (m : MethodId) (isEvolved : Bool) : World :=
  { w with methods := w.methods.modify m.index.toNat fun i => { i with isEvolved := isEvolved } }

def setCallProfile (w : World) (m : MethodId) (bci : Int32) (p : CallProfile) : World :=
  { w with callProfiles := ((m, bci), p) :: w.callProfiles }

def setProfileCell (w : World) (m : MethodId) (bci : Int32) (cell : ProfileCell) : World :=
  { w with profileCells := ((m, bci), cell) :: w.profileCells }

def setMature (w : World) (m : MethodId) (mature : Bool) : World :=
  { w with mature := (m, mature) :: w.mature }

def setConstant (w : World) (k : ClassId) (offset : UInt32) (c : FieldConstant) : World :=
  { w with constants := ((k, offset), c) :: w.constants }

def registerKnown (w : World) (object : Object) (known : KnownObject) : World :=
  { w with known := (object, known) :: w.known }

/-! ## Questions -/

def class? (w : World) (k : ClassId) : Option ClassInfo :=
  w.classes[k.index.toNat]?

def method? (w : World) (m : MethodId) : Option MethodInfo :=
  w.methods[m.index.toNat]?

def findClassIn? (w : World) (name : String) (loader : Loader) : Option ClassId :=
  (w.classes.findIdx? fun c => !c.unloaded && c.spec.loader == loader && c.spec.name == name).map
    fun i => ⟨UInt32.ofNat i⟩

def findClass (w : World) (name : String) (loader : Loader) : Option ClassId :=
  (visibleFrom loader).findSome? (w.findClassIn? name)

def declaredMethod (w : World) (k : ClassId) (name signature : String) : Option MethodId :=
  (w.methods.findIdx? fun m => m.holder == k && m.name == name && m.signature == signature).map
    fun i => ⟨UInt32.ofNat i⟩

def superClass (w : World) (k : ClassId) : Option ClassId :=
  (w.class? k).bind (·.spec.superClass)

/-- Looks in a class and then in its superclasses, of which at most `depth` are visited. -/
def findMethodWithin (w : World) (name signature : String) : Nat → ClassId → Option MethodId
  | 0, _ => none
  | depth + 1, k =>
    match w.declaredMethod k name signature with
    | some m => some m
    | none => (w.superClass k).bind (findMethodWithin w name signature depth)

/-- A method declared in a class or inherited by it. A chain of superclasses without a repetition is
no longer than the number of classes. -/
def findMethod (w : World) (k : ClassId) (name signature : String) : Option MethodId :=
  w.findMethodWithin name signature (w.classes.length + 1) k

def className (w : World) (k : ClassId) : String :=
  ((w.class? k).map (·.spec.name)).getD s!"<unknown class {k.index}>"

def classIdentity (w : World) (k : ClassId) : UInt64 :=
  ((w.class? k).map (·.identity)).getD 0

def classProperty {α : Type} (w : World) (property : ClassSpec → α) (unknown : α)
    (k : ClassId) : α :=
  ((w.class? k).map fun c => property c.spec).getD unknown

def methodHolder (w : World) (m : MethodId) : ClassId :=
  ((w.method? m).map (·.holder)).getD ⟨0xFFFFFFFF⟩

/-- A method's identity mixes that of its holder with its own. -/
def methodIdentity (w : World) (m : MethodId) : UInt64 :=
  match w.method? m with
  | some i =>
    let holder := w.classIdentity i.holder
    (holder <<< 17 ||| holder >>> 47) ^^^ i.identity
  | none => 0

def subclasses (w : World) (k : ClassId) : List ClassId :=
  match w.class? k with
  | some c => c.subclasses.filter fun s => ((w.class? s).map (!·.unloaded)).getD false
  | none => []

def callProfile (w : World) (m : MethodId) (bci : Int32) : CallProfile :=
  match w.callProfiles.lookup (m, bci) with
  | some p => p
  | none =>
    match w.profileCells.lookup (m, bci) with
    | some (.virtualCall count receivers) => { count, receivers }
    | some (.counter count) => { count }
    | _ => {}

def hasMethodData (w : World) (m : MethodId) : Bool :=
  w.profileCells.any (·.1.1 == m) || w.callProfiles.any (·.1.1 == m)

def knownObject (w : World) : Object → Option KnownObject
  | .known o => some o
  | object => w.known.lookup object

def objectAddress (w : World) : Object → UInt64
  | .text s => textBase + w.shift + (Hash.stable 0 (Utf8.encode s)).toUInt64 * 8
  | .mirror k => mirrorBase + w.shift + k.index.toUInt64 * 16
  | .loader l => loaderBase + w.shift + l.code.toUInt64 * 16
  | .known o => knownBase + w.shift + o.index.toUInt64 * 16
  | .unnamed address => address

def metadataAddress (w : World) : Entity → UInt64
  | .klass k => classBase + w.shift + k.index.toUInt64 * 64
  | .method m => methodBase + w.shift + m.index.toUInt64 * 64

def installAddress (w : World) (m : MethodId) : UInt64 :=
  codeBase + w.shift + m.index.toUInt64 * codeStride

def host (w : World) : Host where
  findClass := w.findClass
  findMethod := w.findMethod
  className := w.className
  classIdentity := w.classIdentity
  classLoader := w.classProperty (·.loader) .custom
  initState := w.classProperty (·.initState) .allocated
  isInstanceClass := w.classProperty (!·.isArray) false
  isInterface := w.classProperty (·.isInterface) false
  isPureInterface := w.classProperty (·.isPureInterface) false
  isAnonymous := w.classProperty (·.isAnonymous) false
  methodHolder := w.methodHolder
  methodName m := ((w.method? m).map (·.name)).getD ""
  methodSignature m := ((w.method? m).map (·.signature)).getD ""
  methodIdentity := w.methodIdentity
  superClass := w.superClass
  subclasses := w.subclasses
  isAbstract := w.classProperty (·.isAbstract) false
  hasFinalizer := w.classProperty (·.hasFinalizer) false
  declaredMethod := w.declaredMethod
  isAbstractMethod m := ((w.method? m).map (·.isAbstract)).getD false
  isEvolved m := ((w.method? m).map (·.isEvolved)).getD true
  callProfile := w.callProfile
  hasMethodData := w.hasMethodData
  isMature m := (w.mature.lookup m).getD false
  profileAt m bci := w.profileCells.lookup (m, bci)
  constantField k offset := w.constants.lookup (k, offset)
  globals := w.globals
  settings := w.settings
  buildIdentity := w.buildIdentity
  knownObject := w.knownObject
  objectAddress := w.objectAddress
  metadataAddress := w.metadataAddress
  installAddress := w.installAddress

end World

end CodeCache
