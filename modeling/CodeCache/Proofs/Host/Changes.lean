import CodeCache.Proofs.Metadata.Handles

/-!
# Redefining and unloading a class

A class that was redefined has another identity, and is found as before. A class
that was unloaded keeps its identity and its loader, but no name leads to it any
more, and the hierarchy leaves it out.
-/

namespace CodeCache

theorem findIdx?_eq_of_map {α : Type} {p : α → Bool} {as bs : List α}
    (h : as.map p = bs.map p) :
    as.findIdx? p = bs.findIdx? p := by
  have hboth : ∀ cs : List α, cs.findIdx? p = (cs.map p).findIdx? id := by
    intro cs
    rw [List.findIdx?_map]
    rfl
  rw [hboth as, hboth bs, h]

namespace World

variable {w : World} {k : ClassId}

theorem class?_modifyClass (w : World) (k l : ClassId) (f : ClassInfo → ClassInfo) :
    (w.modifyClass k f).class? l =
      (w.class? l).map fun c => if k = l then f c else c := by
  unfold modifyClass class?
  rw [List.getElem?_modify]
  by_cases hl : k = l
  · subst hl
    simp
  · have hne : k.index.toNat ≠ l.index.toNat := by
      intro heq
      apply hl
      cases k
      cases l
      exact congrArg ClassId.mk (UInt32.toNat_inj.mp heq)
    simp [hl, hne]

theorem map_class?_modifyClass {α : Type} {f : ClassInfo → ClassInfo}
    {property : ClassInfo → α} (h : ∀ c, property (f c) = property c) (w : World)
    (k l : ClassId) :
    ((w.modifyClass k f).class? l).map property = (w.class? l).map property := by
  rw [class?_modifyClass]
  cases w.class? l with
  | none => rfl
  | some c =>
      refine congrArg some ?_
      dsimp only
      split
      · exact h c
      · rfl

/-!
## Redefining
-/

theorem findClass_redefineClass (w : World) (k : ClassId) (identity : UInt64) :
    (w.redefineClass k identity).findClass = w.findClass := by
  have hin : (w.redefineClass k identity).findClassIn? = w.findClassIn? := by
    funext name loader
    unfold findClassIn?
    refine congrArg _ (findIdx?_eq_of_map ?_)
    exact map_modify_of_forall (f := fun c : ClassInfo => { c with identity })
      (fun _ => rfl) _ _
  funext name loader
  unfold findClass
  rw [hin]

theorem findMethod_redefineClass (w : World) (k : ClassId) (identity : UInt64) :
    (w.redefineClass k identity).findMethod = w.findMethod := by
  have hdeclared : (w.redefineClass k identity).declaredMethod = w.declaredMethod := by
    funext l name signature
    unfold declaredMethod
    refine congrArg _ (findIdx?_eq_of_map ?_)
    unfold redefineClass
    rw [List.map_map]
    refine List.map_congr_left ?_
    intro i _
    simp only [Function.comp_apply]
    split
    · rfl
    · rfl
  have hsuper : (w.redefineClass k identity).superClass = w.superClass := by
    funext l
    have hclass := class?_modifyClass w k l fun c => { c with identity }
    change (w.redefineClass k identity).class? l = _ at hclass
    unfold superClass
    rw [hclass]
    cases w.class? l with
    | none => rfl
    | some c =>
        rw [Option.map_some, Option.bind_some, Option.bind_some]
        split
        · rfl
        · rfl
  have hwithin : ∀ depth l name signature,
      (w.redefineClass k identity).findMethodWithin name signature depth l =
        w.findMethodWithin name signature depth l := by
    intro depth
    induction depth with
    | zero =>
        intro l name signature
        rfl
    | succ depth ih =>
        intro l name signature
        unfold findMethodWithin
        rw [hdeclared, hsuper]
        cases w.declaredMethod l name signature with
        | some m => rfl
        | none => exact Option.bind_congr fun l' _ => ih l' name signature
  funext l name signature
  unfold findMethod
  rw [hwithin]
  unfold redefineClass modifyClass
  rw [List.length_modify]

theorem finds_redefineClass_iff {identity : UInt64} {key : MetaKey} {e : Entity} :
    (w.redefineClass k identity).host.Finds key e ↔ w.host.Finds key e := by
  unfold Host.Finds MetaKey.lookup World.host
  dsimp only
  rw [findClass_redefineClass, findMethod_redefineClass]

/-!
## Unloading
-/

theorem classIdentity_unloadClass (w : World) (k l : ClassId) :
    (w.unloadClass k).classIdentity l = w.classIdentity l := by
  unfold classIdentity unloadClass
  rw [map_class?_modifyClass (f := fun c => { c with unloaded := true }) fun _ => rfl]

theorem entityIdentity_unloadClass (w : World) (k : ClassId) (e : Entity) :
    (w.unloadClass k).host.entityIdentity e = w.host.entityIdentity e := by
  cases e with
  | klass l => exact classIdentity_unloadClass w k l
  | method m =>
      show (w.unloadClass k).methodIdentity m = w.methodIdentity m
      unfold methodIdentity
      rw [show (w.unloadClass k).method? m = w.method? m from rfl]
      cases w.method? m with
      | none => rfl
      | some i =>
          dsimp only
          rw [classIdentity_unloadClass]

theorem entityLoader_unloadClass (w : World) (k : ClassId) (e : Entity) :
    (w.unloadClass k).host.entityLoader e = w.host.entityLoader e := by
  have hclass : ∀ l, (w.unloadClass k).classProperty (·.loader) .custom l =
      w.classProperty (·.loader) .custom l := by
    intro l
    unfold classProperty unloadClass
    rw [map_class?_modifyClass (f := fun c => { c with unloaded := true })
      fun _ => rfl]
  cases e with
  | klass l => exact hclass l
  | method m => exact hclass (w.methodHolder m)

theorem findClassIn?_unloadClass_ne (hroom : w.classes.length ≤ UInt32.size)
    (name : String) (loader : Loader) :
    (w.unloadClass k).findClassIn? name loader ≠ some k := by
  intro h
  unfold findClassIn? at h
  rcases Option.map_eq_some_iff.mp h with ⟨n, hfirst, rfl⟩
  rcases List.findIdx?_eq_some_iff_getElem.mp hfirst with ⟨hn, hloaded, -⟩
  have hlt : n < w.classes.length := by
    unfold unloadClass modifyClass at hn
    rwa [List.length_modify] at hn
  have hplace : (UInt32.ofNat n).toNat = n :=
    UInt32.toNat_ofNat_of_lt' (Nat.lt_of_lt_of_le hlt hroom)
  simp [unloadClass, modifyClass, hplace] at hloaded

theorem not_finds_unloadClass (hroom : w.classes.length ≤ UInt32.size)
    (key : MetaKey) :
    ¬ (w.unloadClass k).host.Finds key (.klass k) := by
  intro h
  unfold Host.Finds MetaKey.lookup at h
  cases hname : key.name with
  | klass name =>
      rw [hname] at h
      rcases Option.map_eq_some_iff.mp h with ⟨l, hfound, heq⟩
      cases heq
      rcases List.exists_of_findSome?_eq_some hfound with ⟨loader, -, hin⟩
      exact findClassIn?_unloadClass_ne hroom name loader hin
  | method holder name signature =>
      rw [hname] at h
      rcases Option.bind_eq_some_iff.mp h with ⟨l, -, hmethod⟩
      rcases Option.map_eq_some_iff.mp hmethod with ⟨m, -, heq⟩
      cases heq

theorem not_mem_subclasses_unloadClass (w : World) (k p : ClassId) :
    k ∉ (w.unloadClass k).subclasses p := by
  unfold unloadClass
  rw [mem_subclasses_iff, class?_modifyClass]
  rintro ⟨-, c, hc, hloaded⟩
  rcases Option.map_eq_some_iff.mp hc with ⟨c', -, rfl⟩
  rw [if_pos rfl] at hloaded
  cases hloaded

end World

end CodeCache
