import CodeCache.Assumption.Check
import CodeCache.Host.World
import CodeCache.Proofs.Assumption.Subtree
import CodeCache.Proofs.Work

/-!
# The walk through the hierarchy

The walk takes one class from its stack in each turn. It passes over a class that it has
seen; a new one is listed, and the classes directly below it go on the stack. The stack
may grow in a turn, but each class pushes only once, so the turns can be counted. Where
classes are shared, or lead back up, the walk lists each of them once all the same.
-/

namespace CodeCache.Hierarchy

/-- The loop from the classes that were seen and its stack, the top first: the classes
that it lists until the stack is empty, and the number of its turns. -/
inductive Walked (next : ClassId → List ClassId) :
    List ClassId → List ClassId → List ClassId → Nat → Prop where
  | done {seen : List ClassId} : Walked next seen [] [] 0
  | pass {seen stack listed : List ClassId} {k : ClassId} {turns : Nat}
    (hseen : k ∈ seen) (rest : Walked next seen stack listed turns) :
    Walked next seen (k :: stack) listed (turns + 1)
  | list {seen stack listed : List ClassId} {k : ClassId} {turns : Nat}
    (hnew : k ∉ seen)
    (rest : Walked next (k :: seen) ((next k).reverse ++ stack) listed turns) :
    Walked next seen (k :: stack) (k :: listed) (turns + 1)

namespace Walked

variable {next : ClassId → List ClassId} {seen stack listed listed' : List ClassId}
  {turns turns' : Nat}

theorem turns_eq (h : Walked next seen stack listed turns) :
    turns = stack.length + (listed.map fun k => (next k).length).sum := by
  induction h with
  | done => rfl
  | pass _ _ ih =>
      rw [ih, List.length_cons, Nat.add_right_comm]
  | list _ _ ih =>
      rw [ih, List.map_cons, List.sum_cons, List.length_cons, List.length_append,
        List.length_reverse]
      omega

theorem listed_unique (h : Walked next seen stack listed turns)
    (h' : Walked next seen stack listed' turns') :
    listed = listed' := by
  induction h generalizing listed' turns' with
  | done =>
      cases h'
      rfl
  | pass hseen _ ih =>
      cases h' with
      | pass _ rest => exact ih rest
      | list hnew _ => exact absurd hseen hnew
  | list hnew _ ih =>
      cases h' with
      | pass hseen _ => exact absurd hseen hnew
      | list _ rest => rw [ih rest]

theorem of_subset (h : stack ⊆ seen) : ∃ turns, Walked next seen stack [] turns := by
  induction stack with
  | nil => exact ⟨0, .done⟩
  | cons k stack ih =>
      rcases List.cons_subset.mp h with ⟨hk, hstack⟩
      rcases ih hstack with ⟨turns, hrest⟩
      exact ⟨turns + 1, .pass hk hrest⟩

theorem of_dropWhile
    (h : Walked next seen (stack.dropWhile (seen.contains ·)) listed turns) :
    ∃ turns, Walked next seen stack listed turns := by
  induction stack with
  | nil => exact ⟨turns, h⟩
  | cons k stack ih =>
      by_cases hk : k ∈ seen
      · rw [List.dropWhile_cons_of_pos (List.contains_iff_mem.mpr hk)] at h
        rcases ih h with ⟨turns, hrest⟩
        exact ⟨turns + 1, .pass hk hrest⟩
      · rw [List.dropWhile_cons_of_neg (by simpa using hk)] at h
        exact ⟨turns, h⟩

end Walked

theorem exists_walked (next : ClassId → List ClassId) (stack : List ClassId) {steps : Nat}
    {seen : List ClassId} (hnodup : seen.Nodup)
    (hsteps : handleCount ≤ seen.length + steps) :
    ∃ turns, Walked next seen stack (walk next steps seen stack) turns := by
  induction steps generalizing seen stack with
  | zero =>
      apply Walked.of_subset
      intro k _
      exact mem_of_handleCount_le hnodup hsteps k
  | succ steps ih =>
      unfold walk
      rcases dropWhile_cases seen stack with ⟨hdrop, hseen⟩ | ⟨k, rest, hdrop, hk, _⟩
      · rw [hdrop]
        exact Walked.of_subset hseen
      · rw [hdrop]
        have hseen : (k :: seen).Nodup := List.nodup_cons.mpr ⟨hk, hnodup⟩
        have hcount : handleCount ≤ (k :: seen).length + steps := by
          rw [List.length_cons, Nat.add_right_comm]
          exact hsteps
        rcases ih ((next k).reverse ++ rest) hseen hcount with ⟨turns, hrest⟩
        apply Walked.of_dropWhile
        rw [hdrop]
        exact .list hk hrest

section Subtree

variable {host : Host} {context unique : ClassId} {listed : List ClassId} {turns : Nat}

/-- The number of turns in which the walk below a class ends. -/
def turnsBelow (host : Host) (context : ClassId) : Nat :=
  1 + ((subtree host context).map fun k => (host.subclasses k).length).sum

theorem walked_iff :
    Walked host.subclasses [] [context] listed turns ↔
      listed = subtree host context ∧ turns = turnsBelow host context := by
  have hsteps : handleCount ≤ ([] : List ClassId).length + handleCount := Nat.le_add_left _ _
  rcases exists_walked host.subclasses [context] List.nodup_nil hsteps with
    ⟨turns', hwalked⟩
  constructor
  · intro h
    have hlisted : listed = subtree host context := h.listed_unique hwalked
    constructor
    · exact hlisted
    · rw [h.turns_eq, hlisted]
      rfl
  · intro h
    rcases h with ⟨rfl, rfl⟩
    have hturns : turns' = turnsBelow host context := hwalked.turns_eq
    rw [← hturns]
    exact hwalked

def OnlyConcrete (host : Host) (context unique : ClassId) : Prop :=
  ∀ k, Below host context k ∧ host.isConcrete k = true ↔ k = unique

theorem concreteSubtypes_eq_iff :
    concreteSubtypes host context = [unique] ↔ OnlyConcrete host context unique := by
  rw [concreteSubtypes_eq_singleton_iff]
  apply forall_congr'
  intro k
  rw [mem_concreteSubtypes_iff]

theorem holds_unique_iff {metas : List (Option Entity)} {args : List UInt32}
    (hcontext : Dependency.classArg host metas args 0 = .ok context)
    (hunique : Dependency.classArg host metas args 1 = .ok unique) :
    ∃ verdict,
      Dependency.holds host metas ⟨.abstractWithUniqueConcreteSubtype, args⟩ = .ok verdict ∧
        (verdict = true ↔ OnlyConcrete host context unique) := by
  refine ⟨concreteSubtypes host context == [unique], ?_, ?_⟩
  · simp only [Dependency.holds, hcontext, hunique]
    rfl
  · rw [beq_iff_eq, concreteSubtypes_eq_iff]

/-- From every class the loop ends, in the turns that the links between the listed classes
make, and lists what is below the class, each class once. So the comparison with a list of
one class, by which a dependency on a unique concrete subtype is decided, tells whether
that is the only concrete class below the context. -/
theorem subtree_exact (host : Host) (context : ClassId) :
    (∀ listed turns, Walked host.subclasses [] [context] listed turns ↔
        listed = subtree host context ∧ turns = turnsBelow host context) ∧
      (subtree host context).Nodup ∧
      (∀ k, k ∈ subtree host context ↔ Below host context k) ∧
      (∀ unique, concreteSubtypes host context = [unique] ↔
        OnlyConcrete host context unique) ∧
      ∀ metas args unique, Dependency.classArg host metas args 0 = .ok context →
        Dependency.classArg host metas args 1 = .ok unique →
        ∃ verdict,
          Dependency.holds host metas ⟨.abstractWithUniqueConcreteSubtype, args⟩ =
              .ok verdict ∧
            (verdict = true ↔ OnlyConcrete host context unique) := by
  refine ⟨fun _ _ => walked_iff, nodup_subtree host context, fun _ => mem_subtree_iff,
    fun _ => concreteSubtypes_eq_iff, ?_⟩
  intro metas args unique hcontext hunique
  exact holds_unique_iff hcontext hunique

end Subtree

/-!
A class with a link to itself, a diamond, and a cycle below the diamond.
-/

namespace Cyclic

def subclasses : ClassId → List ClassId
  | ⟨0⟩ => [⟨1⟩, ⟨2⟩, ⟨0⟩]
  | ⟨1⟩ => [⟨3⟩]
  | ⟨2⟩ => [⟨3⟩]
  | ⟨3⟩ => [⟨4⟩]
  | ⟨4⟩ => [⟨1⟩]
  | _ => []

def host : Host :=
  { (World.empty 0).host with
    subclasses, isAbstract := (· != ⟨3⟩), isInterface := fun _ => false }

def metas : List (Option Entity) :=
  [some (.klass ⟨0⟩), some (.klass ⟨3⟩)]

theorem subtree_exact_when_cyclic :
    subtree host ⟨0⟩ = [⟨0⟩, ⟨2⟩, ⟨3⟩, ⟨4⟩, ⟨1⟩] ∧ turnsBelow host ⟨0⟩ = 8 ∧
      Dependency.classArg host metas [1, 2] 0 = .ok ⟨0⟩ ∧
      Dependency.classArg host metas [1, 2] 1 = .ok ⟨3⟩ ∧
      OnlyConcrete host ⟨0⟩ ⟨3⟩ := by
  have hsubtree : subtree host ⟨0⟩ = [⟨0⟩, ⟨2⟩, ⟨3⟩, ⟨4⟩, ⟨1⟩] := by decide +kernel
  have hturns : turnsBelow host ⟨0⟩ = 8 := by decide +kernel
  have hcontext : Dependency.classArg host metas [1, 2] 0 = .ok ⟨0⟩ := rfl
  have hunique : Dependency.classArg host metas [1, 2] 1 = .ok ⟨3⟩ := rfl
  have hverdict : Dependency.holds host metas ⟨.abstractWithUniqueConcreteSubtype, [1, 2]⟩ =
      .ok true := by
    apply eq_ok_of_valueWith
    decide +kernel
  rcases subtree_exact host ⟨0⟩ with ⟨_, _, _, _, hholds⟩
  rcases hholds metas [1, 2] ⟨3⟩ hcontext hunique with ⟨verdict, hrun, hiff⟩
  rw [hverdict] at hrun
  cases hrun
  exact ⟨hsubtree, hturns, hcontext, hunique, hiff.mp rfl⟩

end Cyclic

end CodeCache.Hierarchy
