import CodeCache.Assumption.Check
import CodeCache.Proofs.Assumption.Subtree
import CodeCache.Proofs.Host.Loading
import CodeCache.Proofs.Work

/-!
# Assumptions that stay violated

An assumption about the hierarchy is violated by a class or a method that is there,
or by a class that is not below its context. Loading classes changes neither, so that
a version whose assumptions are violated is not to be tried again.
-/

namespace CodeCache

namespace Host.HierarchyGrows

open Hierarchy (Below subtree concreteSubtypes concreteMethods)

variable {old new : Host} {known : Entity → Prop} {context k unique : ClassId}
  {m : MethodId}

theorem subclasses_subset (h : HierarchyGrows old new known) (k : ClassId) :
    old.subclasses k ⊆ new.subclasses k :=
  fun child hchild =>
    (h.subclasses_iff k child (h.known_of_subclass k child hchild).2).mpr hchild

theorem known_of_below (h : HierarchyGrows old new known) (hcontext : known (.klass context))
    (hk : Below old context k) :
    known (.klass k) := by
  cases hk with
  | refl => exact hcontext
  | tail _ hchild => exact (h.known_of_subclass _ k hchild).2

theorem below_iff (h : HierarchyGrows old new known) (hk : known (.klass k)) :
    Below new context k ↔ Below old context k := by
  constructor
  · intro hbelow
    induction hbelow with
    | refl => exact .refl
    | tail _ hchild ih =>
        have hchild := (h.subclasses_iff _ _ hk).mp hchild
        exact (ih (h.known_of_subclass _ _ hchild).1).tail hchild
  · intro hbelow
    induction hbelow with
    | refl => exact .refl
    | tail _ hchild ih =>
        exact (ih (h.known_of_subclass _ _ hchild).1).tail
          ((h.subclasses_iff _ _ hk).mpr hchild)

theorem subtree_subset (h : HierarchyGrows old new known)
    (hcontext : known (.klass context)) :
    subtree old context ⊆ subtree new context := by
  intro k hk
  have hbelow := Hierarchy.mem_subtree_iff.mp hk
  exact Hierarchy.mem_subtree_iff.mpr
    ((h.below_iff (h.known_of_below hcontext hbelow)).mpr hbelow)

theorem mem_concreteSubtypes_iff (h : HierarchyGrows old new known)
    (hk : known (.klass k)) :
    k ∈ concreteSubtypes new context ↔ k ∈ concreteSubtypes old context := by
  rw [Hierarchy.mem_concreteSubtypes_iff, Hierarchy.mem_concreteSubtypes_iff,
    h.below_iff hk, h.isConcrete_eq k hk]

theorem concreteSubtypes_subset (h : HierarchyGrows old new known)
    (hcontext : known (.klass context)) :
    concreteSubtypes old context ⊆ concreteSubtypes new context := by
  intro k hk
  have hbelow := (Hierarchy.mem_concreteSubtypes_iff.mp hk).1
  exact (h.mem_concreteSubtypes_iff (h.known_of_below hcontext hbelow)).mpr hk

theorem concreteSubtypes_eq_singleton (h : HierarchyGrows old new known)
    (hcontext : known (.klass context)) (hunique : known (.klass unique))
    (hnew : concreteSubtypes new context = [unique]) :
    concreteSubtypes old context = [unique] := by
  rw [Hierarchy.concreteSubtypes_eq_singleton_iff] at hnew ⊢
  intro l
  constructor
  · intro hl
    exact (hnew l).mp (h.concreteSubtypes_subset hcontext hl)
  · rintro rfl
    exact (h.mem_concreteSubtypes_iff hunique).mp ((hnew l).mpr rfl)

theorem concreteMethods_subset (h : HierarchyGrows old new known)
    (hcontext : known (.klass context)) (hm : known (.method m)) :
    concreteMethods old context m ⊆ concreteMethods new context m := by
  intro found hfound
  rcases Hierarchy.mem_concreteMethods_iff.mp hfound with ⟨⟨k, hk, hdeclared⟩, hconcrete⟩
  have hknown := h.known_of_declared _ _ _ _ hdeclared
  refine Hierarchy.mem_concreteMethods_iff.mpr ⟨⟨k, ?_, ?_⟩, ?_⟩
  · exact (h.below_iff (h.known_of_below hcontext hk)).mpr hk
  · rw [h.methodName_eq m hm, h.methodSignature_eq m hm]
    exact h.declared _ _ _ _ hdeclared
  · rw [h.isAbstractMethod_eq found hknown]
    exact hconcrete

theorem any_hasFinalizer (h : HierarchyGrows old new known)
    (hcontext : known (.klass context))
    (hany : (subtree old context).any old.hasFinalizer = true) :
    (subtree new context).any new.hasFinalizer = true := by
  rcases List.any_eq_true.mp hany with ⟨k, hk, hfinalizer⟩
  refine List.any_eq_true.mpr ⟨k, h.subtree_subset hcontext hk, ?_⟩
  have hknown := h.known_of_below hcontext (Hierarchy.mem_subtree_iff.mp hk)
  rw [h.hasFinalizer_eq k hknown]
  exact hfinalizer

end Host.HierarchyGrows

theorem all_eq_false_of_subset {α : Type} {p : α → Bool} {as bs : List α} (h : as ⊆ bs)
    (has : as.all p = false) :
    bs.all p = false := by
  rcases List.all_eq_false.mp has with ⟨a, ha, hp⟩
  exact List.all_eq_false.mpr ⟨a, h ha, hp⟩

theorem isEmpty_eq_false_of_subset {α : Type} {as bs : List α} (h : as ⊆ bs)
    (has : as.isEmpty = false) :
    bs.isEmpty = false := by
  rw [List.isEmpty_eq_false_iff_exists_mem] at has ⊢
  exact has.imp fun _ ha => h ha

namespace Dependency

/-- The assumption is known not to hold. -/
def Violated (host : Host) (metas : List (Option Entity)) (d : Dependency) : Prop :=
  ∃ cause, d.check host metas = .error (.dependencyViolated cause)

instance (host : Host) (metas : List (Option Entity)) (d : Dependency) :
    Decidable (d.Violated host metas) :=
  match h : d.check host metas with
  | .error (.dependencyViolated cause) => .isTrue ⟨cause, h⟩
  | .ok _ => .isFalse fun ⟨_, hcause⟩ => nomatch h.symm.trans hcause
  | .error (.format _) | .error (.fingerprintMismatch _) | .error (.unresolved _)
  | .error (.optRejected _) | .error (.corruption _) | .error (.config _)
  | .error (.fileTooLarge ..) | .error (.internal _) | .error .io =>
    .isFalse fun ⟨_, hcause⟩ => nomatch h.symm.trans hcause

/-!
## Arguments
-/

section

variable {host old new : Host} {metas : List (Option Entity)} {args : List UInt32}
  {position : Nat} {known : Entity → Prop} {k : ClassId} {m : MethodId}

structure Known (host : Host) (known : Entity → Prop) (metas : List (Option Entity)) :
    Prop where
  entry : ∀ e, some e ∈ metas → known e
  holder : ∀ m, some (.method m) ∈ metas → known (.klass (host.methodHolder m))

def NoViolation {α : Type} (result : Except Error α) : Prop :=
  ∀ cause, result ≠ .error (.dependencyViolated cause)

theorem NoViolation.of_bind {α β : Type} {first : Except Error α}
    {next : α → Except Error β} (hfirst : NoViolation first)
    (hnext : ∀ a, NoViolation (next a)) :
    NoViolation (first >>= next) := by
  cases first with
  | error e => exact fun cause h => hfirst cause (by cases h; rfl)
  | ok a => exact hnext a

theorem noViolation_ok {α : Type} (a : α) : NoViolation (.ok a) :=
  nofun

theorem noViolation_corruption {α : Type} (c : Corruption) :
    NoViolation (.error (.corruption c) : Except Error α) :=
  nofun

theorem noViolation_argAt (args : List UInt32) (position : Nat) :
    NoViolation (argAt args position) := by
  unfold argAt
  split
  · exact noViolation_ok _
  · exact noViolation_corruption _

theorem noViolation_entityAt (metas : List (Option Entity)) (index : UInt32) :
    NoViolation (entityAt metas index) := by
  unfold entityAt
  split
  · exact noViolation_ok _
  · exact noViolation_corruption _

theorem noViolation_classArg (host : Host) (metas : List (Option Entity))
    (args : List UInt32) (position : Nat) :
    NoViolation (classArg host metas args position) := by
  unfold classArg
  refine (noViolation_argAt args position).of_bind fun arg => ?_
  split
  · split
    · exact noViolation_corruption _
    · refine (noViolation_entityAt metas _).of_bind fun e => ?_
      cases e with
      | klass k => exact noViolation_ok _
      | method m => exact noViolation_ok _
  · refine (noViolation_entityAt metas arg).of_bind fun e => ?_
    cases e with
    | klass k => exact noViolation_ok _
    | method m => exact noViolation_corruption _

theorem noViolation_methodArg (metas : List (Option Entity)) (args : List UInt32)
    (position : Nat) :
    NoViolation (methodArg metas args position) := by
  unfold methodArg
  refine (noViolation_argAt args position).of_bind fun arg => ?_
  refine (noViolation_entityAt metas arg).of_bind fun e => ?_
  cases e with
  | klass k => exact noViolation_corruption _
  | method m => exact noViolation_ok _

theorem mem_of_entityAt {index : UInt32} {e : Entity} (h : entityAt metas index = .ok e) :
    some e ∈ metas := by
  unfold entityAt at h
  split at h
  case h_2 => cases h
  case h_1 entity hentry =>
    cases h
    split at hentry
    · cases hentry
    · rcases Option.join_eq_some_iff.mp hentry with hslot
      exact List.mem_of_getElem? hslot

theorem mem_of_methodArg (h : methodArg metas args position = .ok m) :
    some (.method m) ∈ metas := by
  unfold methodArg at h
  rcases of_bind_eq_ok h with ⟨arg, -, h⟩
  rcases of_bind_eq_ok h with ⟨e, he, h⟩
  cases e with
  | klass k => cases h
  | method m =>
      cases h
      exact mem_of_entityAt he

theorem mem_of_classArg (h : classArg host metas args position = .ok k) :
    some (.klass k) ∈ metas ∨
      ∃ m, some (.method m) ∈ metas ∧ host.methodHolder m = k := by
  unfold classArg at h
  rcases of_bind_eq_ok h with ⟨arg, -, h⟩
  split at h
  · split at h
    · cases h
    · rcases of_bind_eq_ok h with ⟨e, he, h⟩
      cases e with
      | klass k =>
          cases h
          exact Or.inl (mem_of_entityAt he)
      | method m =>
          cases h
          exact Or.inr ⟨m, mem_of_entityAt he, rfl⟩
  · rcases of_bind_eq_ok h with ⟨e, he, h⟩
    cases e with
    | klass k =>
        cases h
        exact Or.inl (mem_of_entityAt he)
    | method m => cases h

theorem Known.klass (hmetas : Known host known metas)
    (h : classArg host metas args position = .ok k) :
    known (.klass k) := by
  rcases mem_of_classArg h with hmem | ⟨m, hmem, rfl⟩
  · exact hmetas.entry _ hmem
  · exact hmetas.holder m hmem

theorem Known.method (hmetas : Known host known metas)
    (h : methodArg metas args position = .ok m) :
    known (.method m) :=
  hmetas.entry _ (mem_of_methodArg h)

theorem classArg_of_grows (hgrows : Host.HierarchyGrows old new known)
    (hmetas : Known old known metas) (h : classArg old metas args position = .ok k) :
    classArg new metas args position = .ok k := by
  unfold classArg at h ⊢
  rcases of_bind_eq_ok h with ⟨arg, harg, h⟩
  rw [harg]
  show (if arg = 0 then _ else _) = Except.ok k
  split at h
  · rename_i hzero
    rw [if_pos hzero]
    split at h
    · cases h
    · rename_i next _
      rcases of_bind_eq_ok h with ⟨e, he, h⟩
      rw [he]
      cases e with
      | klass k => exact h
      | method m =>
          cases h
          show Except.ok (new.methodHolder m) = _
          rw [hgrows.methodHolder_eq m (hmetas.entry _ (mem_of_entityAt he))]
  · rename_i hzero
    rw [if_neg hzero]
    exact h

end

/-!
## Verdicts
-/

section

variable {host old new : Host} {metas : List (Option Entity)} {known : Entity → Prop}

theorem noViolation_holds (host : Host) (metas : List (Option Entity)) (d : Dependency) :
    NoViolation (d.holds host metas) := by
  have hclass := noViolation_classArg host metas d.args
  have hmethod := noViolation_methodArg metas d.args
  unfold holds
  cases d.kind with
  | evolMethod => exact (hmethod 0).of_bind fun _ => noViolation_ok _
  | leafType | abstractWithNoConcreteSubtype | concreteWithNoConcreteSubtype
  | noFinalizableSubclasses =>
      exact (hclass 0).of_bind fun _ => noViolation_ok _
  | abstractWithUniqueConcreteSubtype =>
      exact (hclass 0).of_bind fun _ => (hclass 1).of_bind fun _ => noViolation_ok _
  | uniqueConcreteMethod =>
      exact (hclass 0).of_bind fun _ => (hmethod 1).of_bind fun _ => noViolation_ok _
  | abstractWithExclusiveConcreteSubtypes =>
      exact (hclass 0).of_bind fun _ => (hclass 1).of_bind fun _ =>
        (hclass 2).of_bind fun _ => noViolation_ok _
  | exclusiveConcreteMethods =>
      exact (hclass 0).of_bind fun _ => (hmethod 1).of_bind fun _ =>
        (hmethod 2).of_bind fun _ => noViolation_ok _
  | callSiteTargetValue => exact noViolation_ok _

theorem violated_iff {d : Dependency} :
    d.Violated host metas ↔ d.holds host metas = .ok false := by
  have hnone := noViolation_holds host metas d
  unfold Violated check
  cases hholds : d.holds host metas with
  | error e =>
      rw [hholds] at hnone
      refine iff_of_false ?_ nofun
      rintro ⟨cause, hcause⟩
      cases hcause
      exact hnone cause rfl
  | ok b =>
      cases b with
      | true => exact iff_of_false nofun nofun
      | false => exact iff_of_true ⟨_, rfl⟩ rfl

theorem bind_eq_ok_of_imp {α β : Type} {first first' : Except Error α}
    {next next' : α → Except Error β} {b : β} (h : (first >>= next) = .ok b)
    (hfirst : ∀ a, first = .ok a → first' = .ok a)
    (hnext : ∀ a, first = .ok a → next a = .ok b → next' a = .ok b) :
    (first' >>= next') = .ok b := by
  rcases of_bind_eq_ok h with ⟨a, ha, hb⟩
  rw [hfirst a ha]
  exact hnext a ha hb

theorem ok_eq_false_of_imp {a b : Bool} (h : a = false → b = false)
    (ha : (.ok a : Except Error Bool) = .ok false) :
    (.ok b : Except Error Bool) = .ok false :=
  congrArg Except.ok (h (Except.ok.inj ha))

/-- An assumption that does not hold in one host does not hold in a host in which the
hierarchy goes on. -/
theorem holds_of_grows {d : Dependency} (hgrows : Host.HierarchyGrows old new known)
    (hmetas : Known old known metas) (h : d.holds old metas = .ok false) :
    d.holds new metas = .ok false := by
  rcases d with ⟨kind, args⟩
  have hclass : ∀ position k, classArg old metas args position = .ok k →
      classArg new metas args position = .ok k :=
    fun position k => classArg_of_grows hgrows hmetas
  unfold holds at h ⊢
  cases kind with
  | evolMethod =>
      refine bind_eq_ok_of_imp h (fun _ hm => hm) fun m hm => ok_eq_false_of_imp ?_
      intro hold
      rw [Bool.not_eq_false'] at hold ⊢
      exact hgrows.evolved m (hmetas.method hm) hold
  | leafType =>
      refine bind_eq_ok_of_imp h (hclass 0) fun k hk => ok_eq_false_of_imp ?_
      exact isEmpty_eq_false_of_subset (hgrows.subclasses_subset k)
  | abstractWithUniqueConcreteSubtype =>
      refine bind_eq_ok_of_imp h (hclass 0) fun context hcontext h => ?_
      refine bind_eq_ok_of_imp h (hclass 1) fun unique hunique => ok_eq_false_of_imp ?_
      intro hold
      rw [beq_eq_false_iff_ne] at hold ⊢
      exact fun hnew => hold (hgrows.concreteSubtypes_eq_singleton
        (hmetas.klass hcontext) (hmetas.klass hunique) hnew)
  | abstractWithNoConcreteSubtype =>
      refine bind_eq_ok_of_imp h (hclass 0) fun context hcontext => ok_eq_false_of_imp ?_
      exact isEmpty_eq_false_of_subset
        (hgrows.concreteSubtypes_subset (hmetas.klass hcontext))
  | concreteWithNoConcreteSubtype =>
      refine bind_eq_ok_of_imp h (hclass 0) fun context hcontext => ok_eq_false_of_imp ?_
      exact all_eq_false_of_subset
        (hgrows.concreteSubtypes_subset (hmetas.klass hcontext))
  | uniqueConcreteMethod =>
      refine bind_eq_ok_of_imp h (hclass 0) fun context hcontext h => ?_
      refine bind_eq_ok_of_imp h (fun _ hm => hm) fun m hm => ok_eq_false_of_imp ?_
      exact all_eq_false_of_subset
        (hgrows.concreteMethods_subset (hmetas.klass hcontext) (hmetas.method hm))
  | abstractWithExclusiveConcreteSubtypes =>
      refine bind_eq_ok_of_imp h (hclass 0) fun context hcontext h => ?_
      refine bind_eq_ok_of_imp h (hclass 1) fun k1 _ h => ?_
      refine bind_eq_ok_of_imp h (hclass 2) fun k2 _ => ok_eq_false_of_imp ?_
      exact all_eq_false_of_subset
        (hgrows.concreteSubtypes_subset (hmetas.klass hcontext))
  | exclusiveConcreteMethods =>
      refine bind_eq_ok_of_imp h (hclass 0) fun context hcontext h => ?_
      refine bind_eq_ok_of_imp h (fun _ hm => hm) fun m1 hm1 h => ?_
      refine bind_eq_ok_of_imp h (fun _ hm => hm) fun m2 _ => ok_eq_false_of_imp ?_
      exact all_eq_false_of_subset
        (hgrows.concreteMethods_subset (hmetas.klass hcontext) (hmetas.method hm1))
  | noFinalizableSubclasses =>
      refine bind_eq_ok_of_imp h (hclass 0) fun context hcontext => ok_eq_false_of_imp ?_
      intro hold
      rw [Bool.not_eq_false'] at hold ⊢
      exact hgrows.any_hasFinalizer (hmetas.klass hcontext) hold
  | callSiteTargetValue => exact h

end

end Dependency

namespace World

/-- An assumption that is violated in a world stays violated there, whatever classes
and methods come, are redefined and are initialized. Its metadata array names classes
and methods of the world, whose holders are classes of it. -/
theorem violated_loadAll {w : World} {metas : List (Option Entity)} {d : Dependency}
    (hentries : ∀ e, some e ∈ metas → w.Defines e)
    (hholders : ∀ m, some (.method m) ∈ metas → w.Defines (.klass (w.methodHolder m)))
    (events : List LoadingEvent)
    (hroom : (w.loadAll events).classes.length ≤ UInt32.size)
    (hviolated : d.Violated w.host metas) :
    d.Violated (w.loadAll events).host metas := by
  rw [Dependency.violated_iff] at hviolated ⊢
  exact Dependency.holds_of_grows (extends_loadAll events hroom).hierarchyGrows
    ⟨hentries, hholders⟩ hviolated

def extended : World :=
  let w := ((empty 0).defineClass { name := "Base", loader := .app }).1
  let w := (w.defineClass { name := "Sub", loader := .app, superClass := some ⟨0⟩ }).1
  (w.defineMethod ⟨0⟩ "f" "()V").1

theorem violated_loadAll_extended :
    Dependency.Violated (extended.loadAll [.defineClass { name := "A", loader := .app },
        .defineMethod ⟨1⟩ "f" "()V" true, .redefineClass ⟨0⟩ 7,
        .setInitState ⟨1⟩ .linked]).host
      [some (.method ⟨0⟩)] ⟨.leafType, [0, 1]⟩ := by
  refine violated_loadAll ?_ ?_ _ (by decide) (by decide +kernel)
  · intro e he
    cases List.mem_singleton.mp he
    rfl
  · intro m hm
    cases List.mem_singleton.mp hm
    rfl

def crowded (others : List ClassInfo) : World :=
  { empty 0 with
    classes :=
      { spec := { name := "A", loader := .app }, identity := 0 } ::
      { spec := { name := "B", loader := .app, isAbstract := true }, identity := 1 } ::
      others }

def late : ClassSpec := { name := "C", loader := .app, superClass := some ⟨1⟩ }

/-- Where all handles are taken, the next class goes by the handle of the first one, which
so comes below the abstract class. -/
theorem heals_without_handles {others : List ClassInfo}
    (hfull : others.length + 2 = UInt32.size) :
    Dependency.Violated (crowded others).host [some (.klass ⟨0⟩), some (.klass ⟨1⟩)]
        ⟨.abstractWithUniqueConcreteSubtype, [2, 1]⟩ ∧
      ¬ Dependency.Violated ((crowded others).load (.defineClass late)).host
        [some (.klass ⟨0⟩), some (.klass ⟨1⟩)]
        ⟨.abstractWithUniqueConcreteSubtype, [2, 1]⟩ := by
  have hindex : UInt32.ofNat (crowded others).classes.length = 0 := by
    show UInt32.ofNat (others.length + 2) = 0
    rw [hfull]
    rfl
  -- the new class, by whatever handle it goes
  have hload : ∀ i, i = UInt32.ofNat (crowded others).classes.length →
      (crowded others).load (.defineClass late) =
        { crowded others with
          classes := addToParents ⟨i⟩ [⟨1⟩] (crowded others).classes ++
            [{ spec := late, identity := nameIdentity "C" }] } := by
    rintro i rfl
    rfl
  constructor
  · exact ⟨_, rfl⟩
  · rw [hload 0 hindex.symm]
    rintro ⟨cause, hcause⟩
    cases hcause

def another : ClassInfo :=
  { spec := { name := "D", loader := .app }, identity := 2 }

def full : World :=
  crowded (List.replicate (UInt32.size - 2) another)

def orphaned : World :=
  ((empty 0).defineMethod ⟨0⟩ "f" "()V").1

/-- What is no class counts as a concrete one, until an abstract class takes its place. And
where all handles are taken, a violated assumption may pass although all is defined. -/
theorem heals_without_holder_or_handles :
    (orphaned.Defines (.method ⟨0⟩) ∧
      Dependency.Violated orphaned.host [some (.method ⟨0⟩)]
        ⟨.abstractWithNoConcreteSubtype, [0, 1]⟩ ∧
      ¬ Dependency.Violated (orphaned.load
          (.defineClass { name := "A", loader := .app, isAbstract := true })).host
        [some (.method ⟨0⟩)] ⟨.abstractWithNoConcreteSubtype, [0, 1]⟩) ∧
      full.Defines (.klass ⟨0⟩) ∧ full.Defines (.klass ⟨1⟩) ∧
      Dependency.Violated full.host [some (.klass ⟨0⟩), some (.klass ⟨1⟩)]
        ⟨.abstractWithUniqueConcreteSubtype, [2, 1]⟩ ∧
      ¬ Dependency.Violated (full.load (.defineClass late)).host
        [some (.klass ⟨0⟩), some (.klass ⟨1⟩)]
        ⟨.abstractWithUniqueConcreteSubtype, [2, 1]⟩ := by
  have hfull : (List.replicate (UInt32.size - 2) another).length + 2 = UInt32.size := by
    rw [List.length_replicate]
    rfl
  refine ⟨⟨rfl, by decide +kernel, by decide +kernel⟩, rfl, rfl, ?_⟩
  exact heals_without_handles hfull

end World

end CodeCache
