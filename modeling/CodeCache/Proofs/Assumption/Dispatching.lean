import CodeCache.Assumption.Check
import CodeCache.Host.World
import CodeCache.Proofs.Assumption.Subtree
import CodeCache.Proofs.Work

/-!
# Calls that one method answers

The check of a unique method looks at what the classes below its context declare. A
call looks for its method from its receiver up, so that it may also find one that a
class above the context declares, and of those the check says nothing.
-/

namespace CodeCache

theorem Hierarchy.all_concreteMethods_iff {host : Host} {context : ClassId} {m : MethodId} :
    (concreteMethods host context m).all (· == m) = true ↔
      ∀ place ∈ subtree host context, ∀ found,
        host.declaredMethod place (host.methodName m) (host.methodSignature m) = some found →
        host.isAbstractMethod found = false → found = m := by
  rw [List.all_eq_true]
  constructor
  · intro h place hplace found hdeclared hconcrete
    exact eq_of_beq (h found (mem_concreteMethods_iff.mpr
      ⟨⟨place, mem_subtree_iff.mp hplace, hdeclared⟩, hconcrete⟩))
  · intro h found hfound
    rcases mem_concreteMethods_iff.mp hfound with ⟨⟨place, hplace, hdeclared⟩, hconcrete⟩
    exact beq_iff_eq.mpr (h place (mem_subtree_iff.mpr hplace) found hdeclared hconcrete)

theorem Dependency.check_uniqueConcreteMethod {host : Host} {metas : List (Option Entity)}
    {args : List UInt32} {context : ClassId} {m : MethodId}
    (hcontext : classArg host metas args 0 = .ok context)
    (hm : methodArg metas args 1 = .ok m) :
    check host metas ⟨.uniqueConcreteMethod, args⟩ = .ok () ↔
      ∀ place ∈ Hierarchy.subtree host context, ∀ found,
        host.declaredMethod place (host.methodName m) (host.methodSignature m) = some found →
        host.isAbstractMethod found = false → found = m := by
  have hholds : holds host metas ⟨.uniqueConcreteMethod, args⟩ =
      .ok ((Hierarchy.concreteMethods host context m).all (· == m)) := by
    unfold holds
    dsimp only
    rw [hcontext, hm]
    rfl
  rw [← Hierarchy.all_concreteMethods_iff]
  unfold check
  rw [hholds]
  cases (Hierarchy.concreteMethods host context m).all (· == m) with
  | true => exact iff_of_true rfl rfl
  | false => exact iff_of_false nofun nofun

namespace World

variable {w : World} {name signature : String} {k place : ClassId} {found m : MethodId}

def declaringClassWithin (w : World) (name signature : String) :
    Nat → ClassId → Option ClassId
  | 0, _ => none
  | depth + 1, k =>
    match w.declaredMethod k name signature with
    | some _ => some k
    | none => (w.superClass k).bind (declaringClassWithin w name signature depth)

/-- The class in which a call on a receiver of class `k` finds its method. -/
def declaringClass (w : World) (k : ClassId) (name signature : String) : Option ClassId :=
  w.declaringClassWithin name signature (w.classes.length + 1) k

theorem findMethodWithin_eq_bind (w : World) (name signature : String) (depth : Nat)
    (k : ClassId) :
    w.findMethodWithin name signature depth k =
      (w.declaringClassWithin name signature depth k).bind
        fun place => w.declaredMethod place name signature := by
  induction depth generalizing k with
  | zero => rfl
  | succ depth ih =>
      unfold findMethodWithin declaringClassWithin
      cases hdeclared : w.declaredMethod k name signature with
      | some m => exact hdeclared.symm
      | none =>
          cases w.superClass k with
          | none => rfl
          | some parent => exact ih parent

theorem findMethod_eq_some_iff :
    w.findMethod k name signature = some found ↔
      ∃ place, w.declaringClass k name signature = some place ∧
        w.declaredMethod place name signature = some found := by
  unfold findMethod declaringClass
  rw [findMethodWithin_eq_bind, Option.bind_eq_some_iff]

theorem declaringClass_of_declared (h : w.declaredMethod k name signature = some found) :
    w.declaringClass k name signature = some k := by
  unfold declaringClass declaringClassWithin
  rw [h]

/-- The check of a unique method passes exactly if every call on a receiver below the
context that finds a method there finds this one. -/
theorem check_uniqueConcreteMethod_iff {metas : List (Option Entity)} {args : List UInt32}
    {context : ClassId} (hcontext : Dependency.classArg w.host metas args 0 = .ok context)
    (hm : Dependency.methodArg metas args 1 = .ok m) :
    Dependency.check w.host metas ⟨.uniqueConcreteMethod, args⟩ = .ok () ↔
      ∀ k ∈ Hierarchy.subtree w.host context, ∀ found,
        w.findMethod k (w.host.methodName m) (w.host.methodSignature m) = some found →
        w.host.isAbstractMethod found = false →
        (∃ place ∈ Hierarchy.subtree w.host context,
          w.declaringClass k (w.host.methodName m) (w.host.methodSignature m) = some place) →
        found = m := by
  rw [Dependency.check_uniqueConcreteMethod hcontext hm]
  constructor
  · rintro h k - found hfind hconcrete ⟨place, hplace, hends⟩
    rcases findMethod_eq_some_iff.mp hfind with ⟨place', hends', hdeclared⟩
    cases hends.symm.trans hends'
    exact h place hplace found hdeclared hconcrete
  · intro h k hk found hdeclared hconcrete
    have hends := declaringClass_of_declared hdeclared
    exact h k hk found (findMethod_eq_some_iff.mpr ⟨k, hends, hdeclared⟩) hconcrete
      ⟨k, hk, hends⟩

def inherited : World :=
  let w := ((empty 0).defineClass { name := "Base", loader := .app }).1
  let w := (w.defineClass { name := "Mid", loader := .app, superClass := some ⟨0⟩ }).1
  let w := (w.defineClass { name := "Sub", loader := .app, superClass := some ⟨1⟩ }).1
  let w := (w.defineMethod ⟨0⟩ "f" "()V").1
  (w.defineMethod ⟨2⟩ "f" "()V").1

theorem check_uniqueConcreteMethod_iff_inherited :
    Dependency.check inherited.host [some (.klass ⟨1⟩), some (.method ⟨1⟩)]
        ⟨.uniqueConcreteMethod, [1, 2]⟩ = .ok () ∧
      ∀ k ∈ Hierarchy.subtree inherited.host ⟨1⟩, ∀ found,
        inherited.findMethod k "f" "()V" = some found →
        inherited.host.isAbstractMethod found = false →
        (∃ place ∈ Hierarchy.subtree inherited.host ⟨1⟩,
          inherited.declaringClass k "f" "()V" = some place) →
        found = ⟨1⟩ := by
  have hcontext : Dependency.classArg inherited.host
      [some (.klass ⟨1⟩), some (.method ⟨1⟩)] [1, 2] 0 = .ok ⟨1⟩ := rfl
  have hm : Dependency.methodArg [some (.klass ⟨1⟩), some (.method ⟨1⟩)] [1, 2] 1 =
      .ok ⟨1⟩ := rfl
  have hcheck : Dependency.check inherited.host [some (.klass ⟨1⟩), some (.method ⟨1⟩)]
      ⟨.uniqueConcreteMethod, [1, 2]⟩ = .ok () := rfl
  exact ⟨hcheck, (check_uniqueConcreteMethod_iff hcontext hm).mp hcheck⟩

theorem call_finds_inherited :
    inherited.host.isAbstractMethod ⟨1⟩ = false ∧
      Dependency.check inherited.host [some (.klass ⟨1⟩), some (.method ⟨1⟩)]
        ⟨.uniqueConcreteMethod, [1, 2]⟩ = .ok () ∧
      ⟨1⟩ ∈ Hierarchy.subtree inherited.host ⟨1⟩ ∧
      inherited.host.isConcrete ⟨1⟩ = true ∧
      inherited.findMethod ⟨1⟩ (inherited.host.methodName ⟨1⟩)
        (inherited.host.methodSignature ⟨1⟩) = some ⟨0⟩ ∧
      inherited.host.isAbstractMethod ⟨0⟩ = false :=
  ⟨rfl, rfl, by decide +kernel, rfl, rfl, rfl⟩

/-!
## Contexts that declare the method
-/

def Inherits (w : World) (context k : ClassId) : Prop :=
  Relation.ReflTransGen
    (fun parent child => w.superClass child = some parent ∧ child ∈ w.subclasses parent)
    context k

theorem Inherits.mem_subtree {context : ClassId} (h : w.Inherits context k) :
    k ∈ Hierarchy.subtree w.host context := by
  refine Hierarchy.mem_subtree_iff.mpr ?_
  induction h with
  | refl => exact .refl
  | tail _ hstep ih => exact ih.tail hstep.2

theorem Inherits.declaringClassWithin {context : ClassId}
    (hdeclared : (w.declaredMethod context name signature).isSome = true) {depth : Nat}
    (h : w.Inherits context k)
    (hends : w.declaringClassWithin name signature depth k = some place) :
    w.Inherits context place := by
  induction depth generalizing k with
  | zero => cases hends
  | succ depth ih =>
      unfold World.declaringClassWithin at hends
      cases hown : w.declaredMethod k name signature with
      | some m =>
          rw [hown] at hends
          cases hends
          exact h
      | none =>
          rw [hown] at hends
          cases h with
          | refl =>
              rw [hown] at hdeclared
              cases hdeclared
          | tail hparent hstep =>
              rw [hstep.1] at hends
              exact ih hparent hends

/-- Where the context declares the unique method itself, as it does when it is left
implicit, the check protects every call on a receiver that inherits from it. -/
theorem findMethod_eq_of_check {metas : List (Option Entity)} {args : List UInt32}
    {context : ClassId} (hcontext : Dependency.classArg w.host metas args 0 = .ok context)
    (hm : Dependency.methodArg metas args 1 = .ok m)
    (hcheck : Dependency.check w.host metas ⟨.uniqueConcreteMethod, args⟩ = .ok ())
    (hdeclared : (w.declaredMethod context (w.host.methodName m)
      (w.host.methodSignature m)).isSome = true)
    (hk : w.Inherits context k)
    (hfind : w.findMethod k (w.host.methodName m) (w.host.methodSignature m) = some found)
    (hconcrete : w.host.isAbstractMethod found = false) :
    found = m := by
  rw [Dependency.check_uniqueConcreteMethod hcontext hm] at hcheck
  rcases findMethod_eq_some_iff.mp hfind with ⟨place, hends, hfound⟩
  have hplace := (hk.declaringClassWithin hdeclared hends).mem_subtree
  exact hcheck place hplace found hfound hconcrete

end World

end CodeCache
