import CodeCache.Host.Basic

/-!
# The class hierarchy below a class

A dependency speaks of all classes below its context. They are collected by a walk that keeps a
stack of classes to look at and the list of classes seen: the hierarchy may share classes, and the
host's answers may even lead back up.
-/

namespace CodeCache.Hierarchy

/-- The number of class handles, which bounds every walk: each step sees a class not seen before. -/
def handleCount : Nat := UInt32.size

/-- Walks on from a stack of classes, its top first, and lists the classes seen for the first time.
At most `steps` classes are listed. -/
def walk (next : ClassId → List ClassId) : Nat → List ClassId → List ClassId → List ClassId
  | 0, _, _ => []
  | steps + 1, seen, stack =>
    match stack.dropWhile (seen.contains ·) with
    | [] => []
    | k :: rest => k :: walk next steps (k :: seen) ((next k).reverse ++ rest)

def subtree (host : Host) (context : ClassId) : List ClassId :=
  walk host.subclasses handleCount [] [context]

def concreteSubtypes (host : Host) (context : ClassId) : List ClassId :=
  (subtree host context).filter host.isConcrete

def concreteMethods (host : Host) (context : ClassId) (m : MethodId) : List MethodId :=
  ((subtree host context).filterMap fun k =>
      host.declaredMethod k (host.methodName m) (host.methodSignature m)).filter
    fun found => !host.isAbstractMethod found

end CodeCache.Hierarchy
