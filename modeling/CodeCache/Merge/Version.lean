import CodeCache.Assumption.Dependency
import CodeCache.Assumption.Speculation
import CodeCache.Options.Basic

/-!
# The distinct versions of a method

A merge sees many blobs of one method. Blobs with the same assumptions count as one version. When
there are more versions than may be kept, one that speculates less can stand in for one that makes
all of its decisions and more, and the rarest are dropped.

Methods and classes are told by numbers that mean the same in all inputs, so records of different
files compare directly.

Blobs are counted, and versions numbered, in 32 bits. The natural numbers here are the same ones as
long as fewer than 2^32 blobs are counted for one method.
-/

namespace CodeCache

structure BlobPlace where
  file : Nat
  container : Nat
  offset : UInt32
  size : UInt32
  deriving DecidableEq, Repr

structure MethodVersion where
  /-- Order of first appearance, below 2^32. -/
  id : Nat
  /-- How often it was seen, below 2^32. -/
  count : Nat
  place : BlobPlace
  speculations : List Speculation
  dependencies : List Dependency
  deriving DecidableEq, Repr

namespace MethodVersion

def takeOut? {α : Type} (test : α → Bool) : List α → Option (List α)
  | [] => none
  | a :: as => if test a then some as else (takeOut? test as).map (a :: ·)

/-- Whether two lists hold the same decisions, each as often in the one as in the other. -/
def sameSpeculations : List Speculation → List Speculation → Bool
  | [], bs => bs.isEmpty
  | a :: as, bs =>
    match takeOut? a.equivalent bs with
    | some rest => sameSpeculations as rest
    | none => false

def compareDependencies (a b : Dependency) : Ordering :=
  a.compareBy compare (fun slot => slot) b

def sameDependencies (as bs : List Dependency) : Bool :=
  as.length == bs.length && (as.zip bs).all fun (a, b) => compareDependencies a b == .eq

def hasAssumptions (v : MethodVersion) (speculations : List Speculation)
    (dependencies : List Dependency) : Bool :=
  sameSpeculations v.speculations speculations && sameDependencies v.dependencies dependencies

/-! ## Cover -/

def nextInlined? (records : List Speculation) (visited : List UInt32) : Option UInt32 :=
  records.findSome? fun
    | .inlined _ callee _ => if visited.contains callee then none else some callee
    | _ => none

def membersFrom (records : List Speculation) : Nat → List UInt32 → UInt32 → List UInt32
  | 0, _, _ => []
  | steps + 1, visited, m =>
    m :: match nextInlined? records (m :: visited) with
      | some callee => membersFrom records steps (m :: visited) callee
      | none => []

/-- The methods that a version is made of. Each but the first is inlined by a record of its own. -/
def members (v : MethodVersion) (method : UInt32) : List UInt32 :=
  membersFrom v.speculations (v.speculations.length + 1) [] method

def decidesLess (v other : MethodVersion) (m : UInt32) : Bool :=
  (v.speculations.filter (·.belongsTo m)).all fun r =>
    (other.speculations.filter (·.belongsTo m)).any (·.equivalent r)

/-- Whether a version can stand in for another one: every decision that it made in the method and in
the methods it inlined was also made by the other, so it runs wherever the other does. -/
def covers (method : UInt32) (v other : MethodVersion) : Bool :=
  (v.members method).all (v.decidesLess other)

end MethodVersion

structure MethodVersions where
  method : UInt32
  /-- How many blobs were counted, below 2^32. -/
  count : Nat := 0
  versions : List MethodVersion := []
  deriving DecidableEq, Repr

namespace MethodVersions

def countOne? (test : MethodVersion → Bool) : List MethodVersion → Option (List MethodVersion)
  | [] => none
  | v :: vs =>
    if test v then some ({ v with count := v.count + 1 } :: vs)
    else (countOne? test vs).map (v :: ·)

def add (m : MethodVersions) (speculations : List Speculation) (dependencies : List Dependency)
    (place : BlobPlace) : MethodVersions :=
  let dependencies := dependencies.mergeSort fun a b =>
    (MethodVersion.compareDependencies a b).isLE
  let versions :=
    match countOne? (·.hasAssumptions speculations dependencies) m.versions with
    | some versions => versions
    | none => m.versions ++
      [{ id := m.versions.length, count := 1, place, speculations, dependencies }]
  { m with count := m.count + 1, versions }

/-- Most frequent first, and the earlier seen of two equally frequent ones. -/
def rankedBefore (a b : MethodVersion) : Bool :=
  ((compare b.count a.count).then (compare a.id b.id)).isLE

def ranked (versions : List MethodVersion) : List MethodVersion :=
  versions.mergeSort rankedBefore

def foldInto? (method : UInt32) (v : MethodVersion) :
    List MethodVersion → Option (List MethodVersion)
  | [] => none
  | w :: ws =>
    if w.covers method v then some ({ w with count := w.count + v.count } :: ws)
    else if v.covers method w then some ({ v with count := v.count + w.count } :: ws)
    else (foldInto? method v ws).map (w :: ·)

/-- Folds versions into those before them, from the one at a place down to the second, while there
are more than `limit`. -/
def combineDown (method : UInt32) (limit : Nat) : Nat → List MethodVersion → List MethodVersion
  | 0, versions => versions
  | i + 1, versions =>
    if versions.length ≤ limit then versions
    else
      match versions[i + 1]?.bind fun v => foldInto? method v (versions.take (i + 1)) with
      | some front => combineDown method limit i (front ++ versions.drop (i + 2))
      | none => combineDown method limit i versions

def combine (method : UInt32) (limit : Nat) (versions : List MethodVersion) :
    List MethodVersion :=
  let versions := ranked versions
  combineDown method limit (versions.length - 1) versions

def selectBest (policy : MergePolicy) (limit : Nat) (m : MethodVersions) : MethodVersions :=
  let versions :=
    match policy with
    | .simple => m.versions
    | .coverage => combine m.method limit m.versions
  { m with versions := (ranked versions).take limit }

/-- How many blobs the versions stand for: no more than were counted. -/
def keptCount (m : MethodVersions) : Nat :=
  (m.versions.map (·.count)).foldr (· + ·) 0

end MethodVersions

end CodeCache
