import CodeCache.Assumption.Wire
import CodeCache.Host.Profile

/-!
# Speculations

A speculation is a decision that the compiler based on a profile or on the value of a constant. It
names methods and classes by slot of the method's metadata array, counted from one.
-/

namespace CodeCache

inductive Speculation where
  /-- A virtual call compiled as type checks against one or two receivers; `missIsTrap` says that a
  miss traps instead of falling back to a virtual call. -/
  | deVirtual (method : UInt32) (bci : Int32) (klass1 : UInt32) (klass2 : Option UInt32)
      (morphism : Int32) (missIsTrap : Bool)
  | inlined (caller callee : UInt32) (bci : Int32)
  | profiledReceiver (method : UInt32) (bci : Int32) (klass : UInt32)
  | unstableIf (method : UInt32) (bci : Int32) (takenTrap : Bool)
  | constantReplace (klass offset : UInt32) (type : FieldType) (value : Int64)
  deriving DecidableEq, Repr

namespace Speculation

def ordinal : Speculation → Nat
  | deVirtual .. => 0
  | inlined .. => 1
  | profiledReceiver .. => 2
  | unstableIf .. => 3
  | constantReplace .. => 4

def typeName : Speculation → String
  | deVirtual .. => "DeVirtual"
  | inlined .. => "Inline"
  | profiledReceiver .. => "ProfiledReceiver"
  | unstableIf .. => "ProfiledUnstableIf"
  | constantReplace .. => "ConstantReplace"

def owner? : Speculation → Option UInt32
  | deVirtual method .. => some method
  | inlined caller .. => some caller
  | profiledReceiver method .. => some method
  | unstableIf method .. => some method
  | constantReplace .. => none

def belongsTo (method : UInt32) (r : Speculation) : Bool :=
  r.owner? == some method

def bci : Speculation → Int32
  | deVirtual _ bci .. => bci
  | inlined _ _ bci => bci
  | profiledReceiver _ bci _ => bci
  | unstableIf _ bci _ => bci
  | constantReplace .. => -1

def isConstantReplace : Speculation → Bool
  | constantReplace .. => true
  | _ => false

/-- Whether two records describe the same decision. The two receivers of a bimorphic call may stand
in either order, and a folded constant is told by its value alone. -/
def equivalent : Speculation → Speculation → Bool
  | deVirtual m1 b1 a1 a2 p1 t1, deVirtual m2 b2 c1 c2 p2 t2 =>
    m1 == m2 && b1 == b2 && p1 == p2 && t1 == t2
      && ((a1 == c1 && a2 == c2) || (some a1 == c2 && a2 == some c1))
  | constantReplace k1 o1 _ v1, constantReplace k2 o2 _ v2 => k1 == k2 && o1 == o2 && v1 == v2
  | a, b => a == b

def indices : Speculation → List UInt32
  | deVirtual method _ klass1 klass2 _ _ => [method, klass1] ++ klass2.toList
  | inlined caller callee _ => [caller, callee]
  | profiledReceiver method _ klass => [method, klass]
  | unstableIf method _ _ => [method]
  | constantReplace klass _ _ _ => [klass]

/-! ## Re-indexing -/

def remapIndex (dest : List UInt32) (index : UInt32) : Except Error UInt32 :=
  match if index = 0 then none else dest[index.toNat - 1]? with
  | some new => .ok new
  | none => .error (.corruption (.optIndex index dest.length))

def mapIndicesM {m : Type → Type} [Monad m] (f : UInt32 → m UInt32) : Speculation → m Speculation
  | deVirtual method bci klass1 klass2 morphism missIsTrap => do
    let method ← f method
    let klass1 ← f klass1
    let klass2 ← klass2.mapM f
    return deVirtual method bci klass1 klass2 morphism missIsTrap
  | inlined caller callee bci => do
    let caller ← f caller
    let callee ← f callee
    return inlined caller callee bci
  | profiledReceiver method bci klass => do
    let method ← f method
    let klass ← f klass
    return profiledReceiver method bci klass
  | unstableIf method bci takenTrap => do
    return unstableIf (← f method) bci takenTrap
  | constantReplace klass offset type value => do
    return constantReplace (← f klass) offset type value

def remap (dest : List UInt32) (r : Speculation) : Except Error Speculation :=
  r.mapIndicesM (remapIndex dest)

/-! ## Order and listing -/

def compareBool (a b : Bool) : Ordering :=
  compare a.toNat b.toNat

def compareByName (name : UInt32 → String) (a b : Speculation) : Ordering :=
  (compare a.ordinal b.ordinal).then <|
    match a, b with
    | constantReplace k1 o1 t1 v1, constantReplace k2 o2 t2 v2 =>
      (compare o1 o2).then <| (compare t1.index t2.index).then <| (compare v1 v2).then <|
        compare (name k1) (name k2)
    | a, b =>
      let ownerName (r : Speculation) := (r.owner?.map name).getD ""
      (compare (ownerName a) (ownerName b)).then <| (compare a.bci b.bci).then <|
        match a, b with
        | deVirtual _ _ _ _ p1 t1, deVirtual _ _ _ _ p2 t2 =>
          (compare p1 p2).then (compareBool t2 t1)
        | inlined _ c1 _, inlined _ c2 _ => compare (name c1) (name c2)
        | _, _ => .eq

def describe (name : UInt32 → String) : Speculation → String
  | deVirtual method bci klass1 klass2 morphism missIsTrap =>
    let second := (klass2.map fun k => "  klass2: " ++ name k).getD ""
    let otherwise := if missIsTrap then "  default: trap" else "  default: virtual call"
    s!"DeVirtual at method={name method} bci={bci.toInt} morphism={morphism.toInt}"
      ++ "  klass1: " ++ name klass1 ++ second ++ otherwise
  | inlined caller callee bci =>
    s!"Inline at method={name caller} bci={bci.toInt} callee: {name callee}"
  | profiledReceiver method bci klass =>
    s!"ProfiledReceiver at method={name method} bci={bci.toInt} klass: {name klass}"
  | unstableIf method bci takenTrap =>
    let edge := if takenTrap then "taken" else "untaken"
    s!"ProfiledUnstableIf at method={name method} bci={bci.toInt} uncommon trap: {edge} edge"
  | constantReplace klass offset _ _ =>
    s!"ConstantReplace at klass: {name klass} field offset: {offset}"

/-! ## Stored form -/

def encode (r : Speculation) : Bytes :=
  Wire.ofVariant r.ordinal ++
    match r with
    | deVirtual method bci klass1 klass2 morphism missIsTrap =>
      Bytes.ofUInt32 method ++ Bytes.ofInt32 bci ++ Bytes.ofUInt32 klass1
        ++ Wire.ofOption Bytes.ofUInt32 klass2 ++ Bytes.ofInt32 morphism ++ Wire.ofBool missIsTrap
    | inlined caller callee bci =>
      Bytes.ofUInt32 caller ++ Bytes.ofUInt32 callee ++ Bytes.ofInt32 bci
    | profiledReceiver method bci klass =>
      Bytes.ofUInt32 method ++ Bytes.ofInt32 bci ++ Bytes.ofUInt32 klass
    | unstableIf method bci takenTrap =>
      Bytes.ofUInt32 method ++ Bytes.ofInt32 bci ++ Wire.ofBool takenTrap
    | constantReplace klass offset type value =>
      Bytes.ofUInt32 klass ++ Bytes.ofUInt32 offset ++ Wire.ofVariant type.index
        ++ Bytes.ofInt64 value

def decode : Read Speculation := do
  match ← Wire.variant 5 with
  | 0 => do
    let method ← Wire.uint32
    let bci ← Wire.int32
    let klass1 ← Wire.uint32
    let klass2 ← Wire.option Wire.uint32
    let morphism ← Wire.int32
    let missIsTrap ← Wire.bool
    return deVirtual method bci klass1 klass2 morphism missIsTrap
  | 1 => do
    let caller ← Wire.uint32
    let callee ← Wire.uint32
    let bci ← Wire.int32
    return inlined caller callee bci
  | 2 => do
    let method ← Wire.uint32
    let bci ← Wire.int32
    let klass ← Wire.uint32
    return profiledReceiver method bci klass
  | 3 => do
    let method ← Wire.uint32
    let bci ← Wire.int32
    let takenTrap ← Wire.bool
    return unstableIf method bci takenTrap
  | _ => do
    let klass ← Wire.uint32
    let offset ← Wire.uint32
    let type := (FieldType.ofIndex? (← Wire.variant FieldType.all.length)).getD default
    let value ← Wire.int64
    return constantReplace klass offset type value

def encodeAll (rs : List Speculation) : Bytes :=
  Wire.ofList encode rs

def decodeAll (bs : Bytes) : Except Error (List Speculation) :=
  Wire.decodeAll decode bs

def insertUnique (rs : List Speculation) (r : Speculation) : List Speculation :=
  if rs.any (·.equivalent r) then rs else rs ++ [r]

end Speculation

end CodeCache
