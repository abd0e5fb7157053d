import CodeCache.Host.World
import Mathlib.Data.List.Basic

/-!
# Loading classes into a world

Classes and methods come, are redefined and are initialized. Those that are there
keep their place, their superclasses and what kind of class or method they are:
whatever comes is below what was there, and nothing that was there comes below it.
-/

namespace CodeCache

/-- The hierarchy of one host goes on in another one. What the first one knows is
still below the same classes, and has no new ones above it. -/
structure Host.HierarchyGrows (old new : Host) (known : Entity → Prop) : Prop where
  known_of_subclass : ∀ p k, k ∈ old.subclasses p → known (.klass p) ∧ known (.klass k)
  subclasses_iff : ∀ p k, known (.klass k) → (k ∈ new.subclasses p ↔ k ∈ old.subclasses p)
  isConcrete_eq : ∀ k, known (.klass k) → new.isConcrete k = old.isConcrete k
  hasFinalizer_eq : ∀ k, known (.klass k) → new.hasFinalizer k = old.hasFinalizer k
  known_of_declared : ∀ p name signature m, old.declaredMethod p name signature = some m →
    known (.method m)
  declared : ∀ p name signature m, old.declaredMethod p name signature = some m →
    new.declaredMethod p name signature = some m
  methodHolder_eq : ∀ m, known (.method m) → new.methodHolder m = old.methodHolder m
  methodName_eq : ∀ m, known (.method m) → new.methodName m = old.methodName m
  methodSignature_eq : ∀ m, known (.method m) →
    new.methodSignature m = old.methodSignature m
  isAbstractMethod_eq : ∀ m, known (.method m) →
    new.isAbstractMethod m = old.isAbstractMethod m
  evolved : ∀ m, known (.method m) → old.isEvolved m = true → new.isEvolved m = true

inductive LoadingEvent where
  | defineClass (spec : ClassSpec)
  | defineMethod (holder : ClassId) (name signature : String) (isAbstract : Bool)
  | redefineClass (k : ClassId) (identity : UInt64)
  | setInitState (k : ClassId) (state : InitState)

namespace World

def load (w : World) : LoadingEvent → World
  | .defineClass spec => (w.defineClass spec).1
  | .defineMethod holder name signature isAbstract =>
    (w.defineMethod holder name signature isAbstract).1
  | .redefineClass k identity => w.redefineClass k identity
  | .setInitState k state => w.setInitState k state

def loadAll (w : World) (events : List LoadingEvent) : World :=
  events.foldl load w

def Defines (w : World) : Entity → Prop
  | .klass k => (w.class? k).isSome = true
  | .method m => (w.method? m).isSome = true

def Lists (w : World) (place : Nat) (k : ClassId) : Prop :=
  ∃ c, w.classes[place]? = some c ∧ k ∈ c.subclasses

structure ClassInfo.SameKind (c c' : ClassInfo) : Prop where
  isAbstract : c'.spec.isAbstract = c.spec.isAbstract
  isInterface : c'.spec.isInterface = c.spec.isInterface
  hasFinalizer : c'.spec.hasFinalizer = c.spec.hasFinalizer
  unloaded : c'.unloaded = c.unloaded

/-- The second method is the first one, which may have been replaced since. -/
structure MethodInfo.Remains (i i' : MethodInfo) : Prop where
  holder : i'.holder = i.holder
  name : i'.name = i.name
  signature : i'.signature = i.signature
  isAbstract : i'.isAbstract = i.isAbstract
  evolved : i.isEvolved = true → i'.isEvolved = true

structure Extends (w w' : World) : Prop where
  classes : ∀ (n : Nat) (c : ClassInfo), w.classes[n]? = some c →
    ∃ c', w'.classes[n]? = some c' ∧ c.SameKind c'
  lists_iff : ∀ n k, k.index.toNat < w.classes.length → (w'.Lists n k ↔ w.Lists n k)
  methods : ∀ (n : Nat) (i : MethodInfo), w.methods[n]? = some i →
    ∃ i', w'.methods[n]? = some i' ∧ i.Remains i'

section

variable {w w' w'' : World} {c c' c'' : ClassInfo} {i i' i'' : MethodInfo}

theorem ClassInfo.SameKind.refl (c : ClassInfo) : c.SameKind c :=
  ⟨rfl, rfl, rfl, rfl⟩

theorem ClassInfo.SameKind.trans (h : c.SameKind c') (h' : c'.SameKind c'') :
    c.SameKind c'' :=
  ⟨h'.isAbstract.trans h.isAbstract, h'.isInterface.trans h.isInterface,
    h'.hasFinalizer.trans h.hasFinalizer, h'.unloaded.trans h.unloaded⟩

theorem MethodInfo.Remains.refl (i : MethodInfo) : i.Remains i :=
  ⟨rfl, rfl, rfl, rfl, id⟩

theorem MethodInfo.Remains.trans (h : i.Remains i') (h' : i'.Remains i'') :
    i.Remains i'' :=
  ⟨h'.holder.trans h.holder, h'.name.trans h.name, h'.signature.trans h.signature,
    h'.isAbstract.trans h.isAbstract, fun he => h'.evolved (h.evolved he)⟩

theorem Extends.length_le (h : w.Extends w') : w.classes.length ≤ w'.classes.length := by
  by_contra hlt
  have hlast : w'.classes.length < w.classes.length := Nat.lt_of_not_le hlt
  rcases h.classes _ _ (List.getElem?_eq_getElem hlast) with ⟨c', hc', -⟩
  rw [List.getElem?_eq_none (Nat.le_refl _)] at hc'
  cases hc'

theorem Extends.refl (w : World) : w.Extends w where
  classes := fun _ c hc => ⟨c, hc, .refl c⟩
  lists_iff := fun _ _ _ => Iff.rfl
  methods := fun _ i hi => ⟨i, hi, .refl i⟩

theorem Extends.trans (h : w.Extends w') (h' : w'.Extends w'') : w.Extends w'' where
  classes := by
    intro n c hc
    rcases h.classes n c hc with ⟨c', hc', hkind⟩
    rcases h'.classes n c' hc' with ⟨c'', hc'', hkind'⟩
    exact ⟨c'', hc'', hkind.trans hkind'⟩
  lists_iff := fun n k hk =>
    (h'.lists_iff n k (Nat.lt_of_lt_of_le hk h.length_le)).trans (h.lists_iff n k hk)
  methods := by
    intro n i hi
    rcases h.methods n i hi with ⟨i', hi', hremains⟩
    rcases h'.methods n i' hi' with ⟨i'', hi'', hremains'⟩
    exact ⟨i'', hi'', hremains.trans hremains'⟩

end

/-!
## One event
-/

section

variable {w : World}

theorem extends_modifyClass (k : ClassId) {f : ClassInfo → ClassInfo}
    (hkind : ∀ c : ClassInfo, c.SameKind (f c))
    (hsubclasses : ∀ c, (f c).subclasses = c.subclasses) :
    w.Extends (w.modifyClass k f) where
  classes := by
    intro n c hc
    refine ⟨if k.index.toNat = n then f c else c, ?_, ?_⟩
    · simp [modifyClass, List.getElem?_modify, hc]
    · split
      · exact hkind c
      · exact .refl c
  lists_iff := by
    intro n l _
    unfold Lists modifyClass
    simp only [List.getElem?_modify]
    cases w.classes[n]? with
    | none => simp
    | some c =>
        by_cases hn : k.index.toNat = n
        · simp [hn, hsubclasses]
        · simp [hn]
  methods := fun _ i hi => ⟨i, hi, .refl i⟩

theorem extends_setInitState (k : ClassId) (state : InitState) :
    w.Extends (w.setInitState k state) :=
  extends_modifyClass k (fun _ => ⟨rfl, rfl, rfl, rfl⟩) fun _ => rfl

theorem extends_redefineClass (k : ClassId) (identity : UInt64) :
    w.Extends (w.redefineClass k identity) := by
  have hclasses := extends_modifyClass (w := w) k (f := fun c => { c with identity })
    (fun _ => ⟨rfl, rfl, rfl, rfl⟩) fun _ => rfl
  refine ⟨hclasses.classes, hclasses.lists_iff, ?_⟩
  intro n i hi
  refine ⟨if i.holder = k then { i with isEvolved := true } else i, ?_, ?_⟩
  · unfold redefineClass modifyClass
    simp [hi]
  · split
    · exact ⟨rfl, rfl, rfl, rfl, fun _ => rfl⟩
    · exact .refl i

theorem extends_defineMethod (holder : ClassId) (name signature : String)
    (isAbstract : Bool) :
    w.Extends (w.defineMethod holder name signature isAbstract).1 where
  classes := fun _ c hc => ⟨c, hc, .refl c⟩
  lists_iff := fun _ _ _ => Iff.rfl
  methods := by
    intro n i hi
    refine ⟨i, ?_, .refl i⟩
    have hlt := (List.getElem?_eq_some_iff.mp hi).1
    exact (List.getElem?_append_left hlt).trans hi

def addToParents (k : ClassId) (parents : List ClassId) (classes : List ClassInfo) :
    List ClassInfo :=
  parents.foldl (fun classes parent => classes.modify parent.index.toNat
    fun c => { c with subclasses := c.subclasses ++ [k] }) classes

theorem length_addToParents (k : ClassId) (parents : List ClassId)
    (classes : List ClassInfo) :
    (addToParents k parents classes).length = classes.length := by
  induction parents generalizing classes with
  | nil => rfl
  | cons parent parents ih =>
      exact (ih _).trans (List.length_modify ..)

theorem getElem?_addToParents (k : ClassId) (parents : List ClassId)
    (classes : List ClassInfo) (n : Nat) :
    ∃ f : ClassInfo → ClassInfo,
      (addToParents k parents classes)[n]? = classes[n]?.map f ∧
      ∀ c, c.SameKind (f c) ∧ ∀ l, l ≠ k → (l ∈ (f c).subclasses ↔ l ∈ c.subclasses) := by
  induction parents generalizing classes with
  | nil =>
      refine ⟨id, ?_, fun c => ⟨.refl c, fun _ _ => Iff.rfl⟩⟩
      rw [Option.map_id]
      rfl
  | cons parent parents ih =>
      rcases ih (classes.modify parent.index.toNat
        fun c => { c with subclasses := c.subclasses ++ [k] }) with ⟨f, hf, hkind⟩
      refine ⟨fun c => f (if parent.index.toNat = n
        then { c with subclasses := c.subclasses ++ [k] } else c), ?_, ?_⟩
      · refine hf.trans ?_
        rw [List.getElem?_modify, Option.map_eq_map, Option.map_map]
        rfl
      · intro c
        split
        · have hgrown : c.SameKind { c with subclasses := c.subclasses ++ [k] } :=
            ⟨rfl, rfl, rfl, rfl⟩
          refine ⟨hgrown.trans (hkind _).1, ?_⟩
          intro l hl
          rw [(hkind _).2 l hl]
          simp [hl]
        · exact hkind c

/-- As long as there are handles, a new class gets a handle of its own. -/
theorem extends_defineClass (spec : ClassSpec) (hroom : w.classes.length < UInt32.size) :
    w.Extends (w.defineClass spec).1 := by
  have hindex : (UInt32.ofNat w.classes.length).toNat = w.classes.length :=
    UInt32.toNat_ofNat_of_lt' hroom
  obtain ⟨k, parents, info, hk, hinfo, hw⟩ : ∃ k parents info,
      k.index.toNat = w.classes.length ∧ info.subclasses = [] ∧
      (w.defineClass spec).1 =
        { w with classes := addToParents k parents w.classes ++ [info] } :=
    ⟨⟨UInt32.ofNat w.classes.length⟩, _, _, hindex, rfl, rfl⟩
  have hlength := length_addToParents k parents w.classes
  rw [hw]
  refine ⟨?_, ?_, fun _ i hi => ⟨i, hi, .refl i⟩⟩
  · intro n c hc
    have hlt := (List.getElem?_eq_some_iff.mp hc).1
    rcases getElem?_addToParents k parents w.classes n with ⟨f, hf, hkind⟩
    refine ⟨f c, ?_, (hkind c).1⟩
    show (addToParents k parents w.classes ++ [info])[n]? = _
    rw [List.getElem?_append_left (hlength ▸ hlt), hf, hc]
    rfl
  · intro n l hl
    have hne : l ≠ k := by
      rintro rfl
      omega
    unfold Lists
    show (∃ c, (addToParents k parents w.classes ++ [info])[n]? = some c ∧ _) ↔ _
    by_cases hn : n < w.classes.length
    · rcases getElem?_addToParents k parents w.classes n with ⟨f, hf, hkind⟩
      rw [List.getElem?_append_left (hlength ▸ hn), hf, List.getElem?_eq_getElem hn]
      simp [(hkind _).2 l hne]
    · -- the new class has no subclasses, and behind it there is none
      rw [List.getElem?_append_right (hlength ▸ Nat.le_of_not_lt hn),
        List.getElem?_eq_none (Nat.le_of_not_lt hn), List.getElem?_singleton]
      split
      · simp [hinfo]
      · simp

theorem extends_load (e : LoadingEvent) (hroom : (w.load e).classes.length ≤ UInt32.size) :
    w.Extends (w.load e) := by
  cases e with
  | defineClass spec =>
      refine extends_defineClass spec ?_
      have hlength : (w.load (.defineClass spec)).classes.length = w.classes.length + 1 := by
        show (addToParents _ _ w.classes ++ [_]).length = _
        rw [List.length_append, length_addToParents]
        rfl
      omega
  | defineMethod holder name signature isAbstract =>
      exact extends_defineMethod holder name signature isAbstract
  | redefineClass k identity => exact extends_redefineClass k identity
  | setInitState k state => exact extends_setInitState k state

theorem length_le_load (w : World) (e : LoadingEvent) :
    w.classes.length ≤ (w.load e).classes.length := by
  cases e with
  | defineClass spec =>
      show _ ≤ (addToParents _ _ w.classes ++ [_]).length
      rw [List.length_append, length_addToParents]
      exact Nat.le_add_right _ _
  | defineMethod holder name signature isAbstract => exact Nat.le_refl _
  | redefineClass k identity => exact Nat.le_of_eq (List.length_modify ..).symm
  | setInitState k state => exact Nat.le_of_eq (List.length_modify ..).symm

end

/-!
## Many events
-/

theorem length_le_loadAll (w : World) (events : List LoadingEvent) :
    w.classes.length ≤ (w.loadAll events).classes.length := by
  induction events generalizing w with
  | nil => exact Nat.le_refl _
  | cons e events ih => exact Nat.le_trans (w.length_le_load e) (ih (w.load e))

theorem extends_loadAll {w : World} (events : List LoadingEvent)
    (hroom : (w.loadAll events).classes.length ≤ UInt32.size) :
    w.Extends (w.loadAll events) := by
  induction events generalizing w with
  | nil => exact .refl w
  | cons e events ih =>
      have hfirst := (w.load e).length_le_loadAll events
      exact (extends_load e (Nat.le_trans hfirst hroom)).trans (ih hroom)

/-!
## What the world answers
-/

section

variable {w w' : World}

theorem mem_subclasses_iff {p k : ClassId} :
    k ∈ w.subclasses p ↔
      w.Lists p.index.toNat k ∧ ∃ c, w.class? k = some c ∧ c.unloaded = false := by
  unfold subclasses Lists
  show _ ↔ (∃ c, w.class? p = some c ∧ _) ∧ _
  cases w.class? p with
  | none => simp
  | some c =>
      simp only [List.mem_filter, Option.some.injEq, exists_eq_left']
      refine and_congr_right fun _ => ?_
      cases w.class? k <;> simp

theorem Extends.class? (h : w.Extends w') {k : ClassId} {c : ClassInfo}
    (hc : w.class? k = some c) :
    ∃ c', w'.class? k = some c' ∧ c.SameKind c' :=
  h.classes k.index.toNat c hc

theorem Extends.method? (h : w.Extends w') {m : MethodId} {i : MethodInfo}
    (hi : w.method? m = some i) :
    ∃ i', w'.method? m = some i' ∧ i.Remains i' :=
  h.methods m.index.toNat i hi

theorem Extends.subclasses_iff (h : w.Extends w') {p k : ClassId}
    (hk : w.Defines (.klass k)) :
    k ∈ w'.subclasses p ↔ k ∈ w.subclasses p := by
  rcases Option.isSome_iff_exists.mp hk with ⟨c, hc⟩
  rcases h.class? hc with ⟨c', hc', hkind⟩
  have hlt := (List.getElem?_eq_some_iff.mp hc).1
  rw [mem_subclasses_iff, mem_subclasses_iff, h.lists_iff _ k hlt, hc, hc']
  simp [hkind.unloaded]

theorem Extends.declaredMethod (h : w.Extends w') {p : ClassId} {name signature : String}
    {m : MethodId} (hm : w.declaredMethod p name signature = some m) :
    w'.declaredMethod p name signature = some m := by
  unfold World.declaredMethod at hm ⊢
  rcases Option.map_eq_some_iff.mp hm with ⟨n, hfirst, rfl⟩
  refine Option.map_eq_some_iff.mpr ⟨n, ?_, rfl⟩
  rcases List.findIdx?_eq_some_iff_getElem.mp hfirst with ⟨hn, hholds, hbefore⟩
  have hsame : ∀ j (hj : j < w.methods.length), ∃ hj' : j < w'.methods.length,
      w.methods[j].Remains w'.methods[j] := by
    intro j hj
    rcases h.methods j _ (List.getElem?_eq_getElem hj) with ⟨i', hi', hremains⟩
    rcases List.getElem?_eq_some_iff.mp hi' with ⟨hj', rfl⟩
    exact ⟨hj', hremains⟩
  rcases hsame n hn with ⟨hn', hremains⟩
  refine List.findIdx?_eq_some_iff_getElem.mpr ⟨hn', ?_, ?_⟩
  · rw [hremains.holder, hremains.name, hremains.signature]
    exact hholds
  · intro j hj
    rcases hsame j (Nat.lt_trans hj hn) with ⟨_, hremains⟩
    rw [hremains.holder, hremains.name, hremains.signature]
    exact hbefore j hj

theorem defines_of_declaredMethod {p : ClassId} {name signature : String} {m : MethodId}
    (hm : w.declaredMethod p name signature = some m) :
    w.Defines (.method m) := by
  rcases Option.map_eq_some_iff.mp hm with ⟨n, hfirst, rfl⟩
  rcases List.findIdx?_eq_some_iff_getElem.mp hfirst with ⟨hn, -⟩
  have hle : (UInt32.ofNat n).toNat ≤ n := by
    rw [UInt32.toNat_ofNat']
    exact Nat.mod_le _ _
  show (w.methods[(UInt32.ofNat n).toNat]?).isSome = true
  rw [List.getElem?_eq_getElem (Nat.lt_of_le_of_lt hle hn)]
  rfl

theorem Extends.classProperty_eq (h : w.Extends w') {α : Type} {property : ClassSpec → α}
    (hproperty : ∀ c c' : ClassInfo, c.SameKind c' → property c'.spec = property c.spec)
    (unknown : α) {k : ClassId} (hk : w.Defines (.klass k)) :
    w'.classProperty property unknown k = w.classProperty property unknown k := by
  rcases Option.isSome_iff_exists.mp hk with ⟨c, hc⟩
  rcases h.class? hc with ⟨c', hc', hkind⟩
  unfold classProperty
  rw [hc, hc']
  exact hproperty c c' hkind

theorem Extends.hierarchyGrows (h : w.Extends w') :
    Host.HierarchyGrows w.host w'.host w.Defines := by
  have hmethod : ∀ m, w.Defines (.method m) →
      ∃ i i', w.method? m = some i ∧ w'.method? m = some i' ∧ i.Remains i' := by
    intro m hm
    rcases Option.isSome_iff_exists.mp hm with ⟨i, hi⟩
    rcases h.method? hi with ⟨i', hi', hremains⟩
    exact ⟨i, i', hi, hi', hremains⟩
  constructor
  case known_of_subclass =>
    intro p k hk
    rcases mem_subclasses_iff.mp hk with ⟨⟨c, hc, -⟩, c', hc', -⟩
    exact ⟨Option.isSome_of_eq_some hc, Option.isSome_of_eq_some hc'⟩
  case subclasses_iff => exact fun p k hk => h.subclasses_iff hk
  case isConcrete_eq =>
    intro k hk
    have habstract : w'.host.isAbstract k = w.host.isAbstract k :=
      h.classProperty_eq (fun _ _ hkind => hkind.isAbstract) false hk
    have hinterface : w'.host.isInterface k = w.host.isInterface k :=
      h.classProperty_eq (fun _ _ hkind => hkind.isInterface) false hk
    unfold Host.isConcrete
    rw [habstract, hinterface]
  case hasFinalizer_eq =>
    exact fun k hk => h.classProperty_eq (fun _ _ hkind => hkind.hasFinalizer) false hk
  case known_of_declared => exact fun p name signature m hm => defines_of_declaredMethod hm
  case declared => exact fun p name signature m hm => h.declaredMethod hm
  case methodHolder_eq =>
    intro m hm
    rcases hmethod m hm with ⟨i, i', hi, hi', hremains⟩
    show w'.methodHolder m = w.methodHolder m
    unfold methodHolder
    rw [hi, hi']
    exact hremains.holder
  all_goals
    intro m hm
    rcases hmethod m hm with ⟨i, i', hi, hi', hremains⟩
  case methodName_eq => simp [host, hi, hi', hremains.name]
  case methodSignature_eq => simp [host, hi, hi', hremains.signature]
  case isAbstractMethod_eq => simp [host, hi, hi', hremains.isAbstract]
  case evolved => simpa [host, hi, hi'] using hremains.evolved

end

end World

end CodeCache
