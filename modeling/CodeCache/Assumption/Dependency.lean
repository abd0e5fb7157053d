import CodeCache.Assumption.Wire

/-!
# Dependencies

A dependency is an assumption that the compiler made about the class hierarchy. Its arguments are
slots of the method's metadata array, counted from one. Zero stands for the implicit context class,
which the argument after it determines.
-/

namespace CodeCache

inductive DependencyKind where
  | evolMethod
  | leafType
  | abstractWithUniqueConcreteSubtype
  | abstractWithNoConcreteSubtype
  | concreteWithNoConcreteSubtype
  | uniqueConcreteMethod
  | abstractWithExclusiveConcreteSubtypes
  | exclusiveConcreteMethods
  | noFinalizableSubclasses
  /-- The target of a mutable call site, which no cache may assume. -/
  | callSiteTargetValue
  deriving DecidableEq, Repr, Inhabited

namespace DependencyKind

def all : List DependencyKind :=
  [evolMethod, leafType, abstractWithUniqueConcreteSubtype, abstractWithNoConcreteSubtype,
    concreteWithNoConcreteSubtype, uniqueConcreteMethod, abstractWithExclusiveConcreteSubtypes,
    exclusiveConcreteMethods, noFinalizableSubclasses, callSiteTargetValue]

/-- Position among the kinds, which is both the stored form and the order of listings. -/
def index : DependencyKind → Nat
  | evolMethod => 0
  | leafType => 1
  | abstractWithUniqueConcreteSubtype => 2
  | abstractWithNoConcreteSubtype => 3
  | concreteWithNoConcreteSubtype => 4
  | uniqueConcreteMethod => 5
  | abstractWithExclusiveConcreteSubtypes => 6
  | exclusiveConcreteMethods => 7
  | noFinalizableSubclasses => 8
  | callSiteTargetValue => 9

def name : DependencyKind → String
  | evolMethod => "evol_method"
  | leafType => "leaf_type"
  | abstractWithUniqueConcreteSubtype => "abstract_with_unique_concrete_subtype"
  | abstractWithNoConcreteSubtype => "abstract_with_no_concrete_subtype"
  | concreteWithNoConcreteSubtype => "concrete_with_no_concrete_subtype"
  | uniqueConcreteMethod => "unique_concrete_method"
  | abstractWithExclusiveConcreteSubtypes => "abstract_with_exclusive_concrete_subtypes_2"
  | exclusiveConcreteMethods => "exclusive_concrete_methods_2"
  | noFinalizableSubclasses => "no_finalizable_subclasses"
  | callSiteTargetValue => "call_site_target_value"

def hasContext : DependencyKind → Bool
  | evolMethod => false
  | callSiteTargetValue => false
  | _ => true

def ofIndex? (i : Nat) : Option DependencyKind :=
  all[i]?

theorem ofIndex?_index (k : DependencyKind) : ofIndex? k.index = some k := by
  cases k <;> rfl

end DependencyKind

structure Dependency where
  kind : DependencyKind
  args : List UInt32
  deriving DecidableEq, Repr

namespace Dependency

/-! ## Re-indexing -/

/-- An argument passed through `dest`, which lists the new index of each slot; zero stays. -/
def remapArg (dest : List UInt32) (arg : UInt32) : Except Error UInt32 :=
  if arg = 0 then .ok 0
  else
    match dest[arg.toNat - 1]? with
    | some new => .ok new
    | none => .error (.corruption (.dependencyIndex arg dest.length))

def remap (dest : List UInt32) (d : Dependency) : Except Error Dependency := do
  return { d with args := ← d.args.mapM (remapArg dest) }

/-! ## Order -/

def argKey {α : Type} (key : UInt32 → α) (arg : UInt32) : Option α :=
  if arg = 0 then none else some (key arg)

def compareOption {α : Type} (cmp : α → α → Ordering) : Option α → Option α → Ordering
  | none, none => .eq
  | none, some _ => .lt
  | some _, none => .gt
  | some a, some b => cmp a b

def compareList {α : Type} (cmp : α → α → Ordering) : List α → List α → Ordering
  | [], [] => .eq
  | [], _ :: _ => .lt
  | _ :: _, [] => .gt
  | a :: as, b :: bs => (cmp a b).then (compareList cmp as bs)

def compareBy {α : Type} (cmp : α → α → Ordering) (key : UInt32 → α) (a b : Dependency) :
    Ordering :=
  (compare a.kind.index b.kind.index).then <|
    (compare a.args.length b.args.length).then <|
      compareList (compareOption cmp) (a.args.map (argKey key)) (b.args.map (argKey key))

def describe (name : UInt32 → String) (d : Dependency) : String :=
  let args := d.args.map fun arg => if arg = 0 then "<implicit>" else name arg
  d.kind.name ++ " " ++ String.intercalate " " args

/-! ## Stored form -/

def encode (d : Dependency) : Bytes :=
  Wire.ofVariant d.kind.index ++ Wire.ofList Bytes.ofUInt32 d.args

def decode : Read Dependency := do
  let kind := (DependencyKind.ofIndex? (← Wire.variant DependencyKind.all.length)).getD default
  return { kind, args := ← Wire.list Wire.uint32 }

def encodeAll (ds : List Dependency) : Bytes :=
  Wire.ofList encode ds

def decodeAll (bs : Bytes) : Except Error (List Dependency) :=
  Wire.decodeAll decode bs

end Dependency

end CodeCache
