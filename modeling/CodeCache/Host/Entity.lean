import CodeCache.Text.Quoted

/-!
# Live entities

The host runs managed code: it owns classes, methods and heap objects. The cache never holds one; it
knows a class or method by a handle, and an object by how compiled code refers to it.
-/

namespace CodeCache

structure ClassId where
  index : UInt32
  deriving DecidableEq, Repr, Inhabited

structure MethodId where
  index : UInt32
  deriving DecidableEq, Repr, Inhabited

inductive Entity where
  | klass (k : ClassId)
  | method (m : MethodId)
  deriving DecidableEq, Repr

namespace Entity

def method? : Entity → Option MethodId
  | klass _ => none
  | method m => some m

end Entity

/-! ## Loaders -/

inductive Loader where
  | boot
  | ext
  | app
  | custom
  /-- Whatever loader defined the holder of the compiled method. -/
  | holder
  deriving DecidableEq, Repr, Inhabited

namespace Loader

def all : List Loader :=
  [boot, ext, app, custom, holder]

def name : Loader → String
  | boot => "boot"
  | ext => "ext"
  | app => "app"
  | custom => "custom"
  | holder => "holder"

def code : Loader → UInt16
  | boot => 0
  | ext => 1
  | app => 2
  | custom => 4
  | holder => 8

def ofCode? (raw : UInt16) : Option Loader :=
  [boot, ext, app, custom, holder].find? (·.code == raw)

theorem ofCode?_code (l : Loader) : ofCode? l.code = some l := by
  cases l <;> decide

end Loader

/-! ## Initialization -/

inductive InitState where
  | allocated
  | loaded
  | linked
  | beingInitialized
  | fullyInitialized
  | failed
  deriving DecidableEq, Repr, Inhabited

namespace InitState

def all : List InitState :=
  [allocated, loaded, linked, beingInitialized, fullyInitialized, failed]

/-- States are ordered by progress, with failure last. -/
def code : InitState → UInt32
  | allocated => 0
  | loaded => 1
  | linked => 2
  | beingInitialized => 3
  | fullyInitialized => 4
  | failed => 5

def ofCode? (raw : UInt32) : Option InitState :=
  all.find? (·.code == raw)

def name : InitState → String
  | allocated => "allocated"
  | loaded => "loaded"
  | linked => "linked"
  | beingInitialized => "being_initialized"
  | fullyInitialized => "fully_initialized"
  | failed => "initialization_error"

theorem ofCode?_code (s : InitState) : ofCode? s.code = some s := by
  cases s <;> decide

end InitState

/-! ## Objects -/

def knownObjectNames : List String :=
  ["java/lang/Object mirror", "java/lang/String mirror", "java/lang/Class mirror",
    "java/lang/Cloneable mirror", "java/io/Serializable mirror", "java/lang/Throwable mirror",
    "java/lang/Error mirror", "java/lang/Exception mirror", "java/lang/RuntimeException mirror",
    "java/lang/NullPointerException mirror", "java/lang/ArithmeticException mirror",
    "java/lang/Thread mirror", "the_min_jint_string", "the_null_string",
    "null_ptr_exception_instance", "arithmetic_exception_instance",
    "virtual_machine_error_instance", "vm_exception", "main_thread_group", "system_thread_group",
    "the_empty_class_klass_array", "int_mirror", "float_mirror", "double_mirror", "byte_mirror",
    "bool_mirror", "char_mirror", "long_mirror", "short_mirror", "void_mirror",
    "ArrayIndexOutOfBoundsException", "ArrayStoreException", "ClassCastException", "app_loader",
    "ext_loader"]

structure KnownObject where
  number : Fin 35
  deriving DecidableEq, Repr

namespace KnownObject

theorem length_names : knownObjectNames.length = 35 := rfl

def name (o : KnownObject) : String :=
  knownObjectNames.get (o.number.cast length_names.symm)

/-- The stored index; zero is kept for "none of these". -/
def index (o : KnownObject) : UInt32 :=
  UInt32.ofNat (o.number.val + 1)

def ofIndex? (index : UInt32) : Option KnownObject :=
  if h : 0 < index.toNat ∧ index.toNat ≤ 35 then some ⟨⟨index.toNat - 1, by omega⟩⟩ else none

def all : List KnownObject :=
  (List.finRange 35).map KnownObject.mk

def ofName? (name : String) : Option KnownObject :=
  all.find? (·.name == name)

end KnownObject

inductive Object where
  | text (s : String)
  | mirror (k : ClassId)
  | loader (l : Loader)
  | known (o : KnownObject)
  | unnamed (address : UInt64)
  deriving DecidableEq, Repr

def Object.describe : Object → String
  | text s => "Str(" ++ Quoted.quote s ++ ")"
  | mirror k => "Mirror(KlassHandle(" ++ toString k.index.toNat ++ "))"
  | loader .boot => "Loader(Boot)"
  | loader .ext => "Loader(Ext)"
  | loader .app => "Loader(App)"
  | loader .custom => "Loader(Custom)"
  | loader .holder => "Loader(MethodHolder)"
  | known o => "Known(" ++ o.name ++ ")"
  | unnamed address => "Opaque(" ++ toString address.toNat ++ ")"

end CodeCache
