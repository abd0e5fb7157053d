import CodeCache.Proofs.Host.Loading
import CodeCache.Proofs.Metadata.Histories

/-!
# Interning by handle

An entity that was interned once keeps its index, and its key is not looked at again.
That agrees with interning by key as long as the key is the same. Loading classes
leaves the name and the loader of what is there alone, so only the identity can
differ: a class that was redefined is still found under its old contents.
-/

namespace CodeCache

theorem map_modify_of_forall {α β : Type} {f : α → α} {g : α → β} (h : ∀ a, g (f a) = g a)
    (n : Nat) (as : List α) :
    (as.modify n f).map g = as.map g := by
  induction as generalizing n with
  | nil => cases n <;> rfl
  | cons a as ih =>
      cases n with
      | zero => simp [h]
      | succ n => simp [ih]

theorem exists_of_map_prefix {α β : Type} {f : α → β} {as bs : List α}
    (h : as.map f <+: bs.map f) {i : Nat} {a : α} (ha : as[i]? = some a) :
    ∃ b, bs[i]? = some b ∧ f b = f a := by
  have hmap : (as.map f)[i]? = some (f a) := by simp [ha]
  have hlt := (List.getElem?_eq_some_iff.mp hmap).1
  have hkept := (getElem?_of_prefix_lt h hlt).symm.trans hmap
  rwa [List.getElem?_map, Option.map_eq_some_iff] at hkept

theorem MetaKey.loader_ne_custom {host : Host} {e : Entity} {key : MetaKey}
    (h : MetaKey.of host e = .ok key) :
    host.entityLoader e ≠ .custom := by
  intro hcustom
  simp [MetaKey.of, hcustom] at h

/-!
## What loading leaves alone
-/

namespace World

def ClassInfo.label (c : ClassInfo) : String × Loader :=
  (c.spec.name, c.spec.loader)

def MethodInfo.label (i : MethodInfo) : ClassId × String × String :=
  (i.holder, i.name, i.signature)

def classLabels (w : World) : List (String × Loader) :=
  w.classes.map (·.label)

def methodLabels (w : World) : List (ClassId × String × String) :=
  w.methods.map (·.label)

theorem classLabels_modifyClass (w : World) (k : ClassId) {f : ClassInfo → ClassInfo}
    (h : ∀ c, (f c).label = c.label) :
    (w.modifyClass k f).classLabels = w.classLabels :=
  map_modify_of_forall h _ _

theorem label_addToParents (k : ClassId) (parents : List ClassId)
    (classes : List ClassInfo) :
    (addToParents k parents classes).map (·.label) = classes.map (·.label) := by
  induction parents generalizing classes with
  | nil => rfl
  | cons parent parents ih =>
      have hfirst := map_modify_of_forall (g := ClassInfo.label)
        (f := fun c => { c with subclasses := c.subclasses ++ [k] }) (fun _ => rfl)
        parent.index.toNat classes
      exact (ih _).trans hfirst

theorem classLabels_load (w : World) (event : LoadingEvent) :
    w.classLabels <+: (w.load event).classLabels := by
  cases event with
  | defineClass spec =>
      change _ <+: (addToParents _ _ w.classes ++ [_]).map ClassInfo.label
      rw [List.map_append, label_addToParents]
      exact List.prefix_append _ _
  | defineMethod holder name signature isAbstract => exact List.prefix_refl _
  | redefineClass k identity =>
      have hsame : (w.redefineClass k identity).classLabels = w.classLabels :=
        classLabels_modifyClass w k (f := fun c => { c with identity := identity })
          fun _ => rfl
      exact hsame ▸ List.prefix_refl _
  | setInitState k state =>
      have hsame : (w.setInitState k state).classLabels = w.classLabels :=
        classLabels_modifyClass w k
          (f := fun c => { c with spec := { c.spec with initState := state } }) fun _ => rfl
      exact hsame ▸ List.prefix_refl _

theorem methodLabels_load (w : World) (event : LoadingEvent) :
    w.methodLabels <+: (w.load event).methodLabels := by
  cases event with
  | defineClass spec => exact List.prefix_refl _
  | defineMethod holder name signature isAbstract =>
      change _ <+: (w.methods ++ [_]).map MethodInfo.label
      rw [List.map_append]
      exact List.prefix_append _ _
  | redefineClass k identity =>
      have hsame : (w.redefineClass k identity).methodLabels = w.methodLabels := by
        change (w.methods.map _).map MethodInfo.label = w.methods.map _
        rw [List.map_map]
        apply List.map_congr_left
        intro i _
        simp only [Function.comp_apply]
        split
        · rfl
        · rfl
      exact hsame ▸ List.prefix_refl _
  | setInitState k state => exact List.prefix_refl _

structure Keeps (w w' : World) : Prop where
  classes : w.classLabels <+: w'.classLabels
  methods : w.methodLabels <+: w'.methodLabels

section

variable {w w' w'' : World} {k : ClassId} {m : MethodId}

theorem Keeps.refl (w : World) : w.Keeps w where
  classes := List.prefix_refl _
  methods := List.prefix_refl _

theorem Keeps.trans (h : w.Keeps w') (h' : w'.Keeps w'') : w.Keeps w'' where
  classes := h.classes.trans h'.classes
  methods := h.methods.trans h'.methods

theorem keeps_load (w : World) (event : LoadingEvent) : w.Keeps (w.load event) where
  classes := w.classLabels_load event
  methods := w.methodLabels_load event

theorem exists_class_of_loader (h : w.host.classLoader k ≠ .custom) :
    ∃ c, w.class? k = some c := by
  change ((w.class? k).map _).getD _ ≠ _ at h
  cases hc : w.class? k with
  | none =>
      rw [hc] at h
      exact absurd rfl h
  | some c => exact ⟨c, rfl⟩

theorem Keeps.class? (h : w.Keeps w') {c : ClassInfo} (hc : w.class? k = some c) :
    ∃ c', w'.class? k = some c' ∧ c'.label = c.label :=
  exists_of_map_prefix h.classes hc

theorem Keeps.method? (h : w.Keeps w') {i : MethodInfo} (hi : w.method? m = some i) :
    ∃ i', w'.method? m = some i' ∧ i'.label = i.label :=
  exists_of_map_prefix h.methods hi

theorem Keeps.class_answers (h : w.Keeps w') (hloader : w.host.classLoader k ≠ .custom) :
    w'.host.className k = w.host.className k ∧
      w'.host.classLoader k = w.host.classLoader k := by
  obtain ⟨c, hc⟩ := exists_class_of_loader hloader
  obtain ⟨c', hc', hlabel⟩ := h.class? hc
  obtain ⟨hname, hsame⟩ := Prod.mk.inj hlabel
  change w'.className k = w.className k ∧ w'.classProperty _ _ k = w.classProperty _ _ k
  unfold className classProperty
  rw [hc, hc']
  exact ⟨hname, hsame⟩

theorem Keeps.method_answers (h : w.Keeps w') {i : MethodInfo} (hi : w.method? m = some i) :
    w'.host.methodHolder m = w.host.methodHolder m ∧
      w'.host.methodName m = w.host.methodName m ∧
      w'.host.methodSignature m = w.host.methodSignature m := by
  obtain ⟨i', hi', hlabel⟩ := h.method? hi
  obtain ⟨hholder, hrest⟩ := Prod.mk.inj hlabel
  obtain ⟨hname, hsignature⟩ := Prod.mk.inj hrest
  simp [host, methodHolder, hi, hi', hholder, hname, hsignature]

theorem exists_method_of_loader (hroom : w.classes.length < 2 ^ 32)
    (h : w.host.classLoader (w.host.methodHolder m) ≠ .custom) :
    ∃ i, w.method? m = some i := by
  cases hi : w.method? m with
  | none =>
      obtain ⟨c, hc⟩ := exists_class_of_loader h
      have hholder : w.host.methodHolder m = ⟨0xFFFFFFFF⟩ := by
        simp [host, methodHolder, hi]
      rw [hholder] at hc
      have hlt := (List.getElem?_eq_some_iff.mp hc).1
      have hlast : (0xFFFFFFFF : UInt32).toNat = 2 ^ 32 - 1 := rfl
      change (0xFFFFFFFF : UInt32).toNat < _ at hlt
      omega
  | some i => exact ⟨i, rfl⟩

theorem Keeps.key_of (h : w.Keeps w') (hroom : w.classes.length < 2 ^ 32) {e : Entity}
    {key : MetaKey} (hkey : MetaKey.of w.host e = .ok key) :
    MetaKey.of w'.host e = .ok { key with identity := w'.host.entityIdentity e } := by
  have hloader := MetaKey.loader_ne_custom hkey
  cases e with
  | klass k =>
      obtain ⟨hname, hsame⟩ := h.class_answers hloader
      rw [MetaKey.of_klass hkey]
      simp only [Host.entityLoader] at hloader
      simp [MetaKey.of, Host.entityLoader, hname, hsame, hloader]
  | method m =>
      obtain ⟨i, hi⟩ := exists_method_of_loader hroom hloader
      obtain ⟨hholder, hname, hsignature⟩ := h.method_answers hi
      obtain ⟨hclass, hsame⟩ := h.class_answers hloader
      rw [MetaKey.of_method hkey]
      simp only [Host.entityLoader] at hloader
      simp [MetaKey.of, Host.entityLoader, hholder, hname, hsignature, hclass, hsame, hloader]

end

end World

/-!
## Histories
-/

structure Naming where
  world : World
  space : MetaSpace

inductive NamingEvent where
  | load (event : LoadingEvent)
  | internKey (key : MetaKey)
  | intern (e : Entity)

def NamingEvent.names? (host : Host) (e : Entity) : NamingEvent → Option MetaKey
  | .intern e' => if e' = e then (MetaKey.of host e).toOption else none
  | _ => none

namespace Naming

def step (n : Naming) : NamingEvent → Naming
  | .load event => { n with world := n.world.load event }
  | .internKey key => { n with space := (n.space.internKey key).1 }
  | .intern e => { n with space := MetaSpace.after (MetaSpace.intern n.world.host e) n.space }

def run (n : Naming) (events : List NamingEvent) : Naming :=
  events.foldl step n

/-- The key that an entity had when it was interned first. -/
def firstKey? (n : Naming) (e : Entity) : List NamingEvent → Option MetaKey
  | [] => none
  | event :: events =>
    (event.names? n.world.host e).or ((n.step event).firstKey? e events)

variable {n : Naming} {e : Entity} {key : MetaKey}

theorem firstKey?_concat (n : Naming) (e : Entity) (events : List NamingEvent)
    (event : NamingEvent) :
    n.firstKey? e (events ++ [event]) =
      (n.firstKey? e events).or (event.names? (n.run events).world.host e) := by
  induction events generalizing n with
  | nil => simp [firstKey?, run]
  | cons first events ih =>
      simp only [List.cons_append, firstKey?, ih, Option.or_assoc]
      rfl

theorem keeps_step (n : Naming) (event : NamingEvent) :
    n.world.Keeps (n.step event).world := by
  cases event with
  | load event => exact n.world.keeps_load event
  | internKey key => exact .refl _
  | intern e => exact .refl _

theorem keeps_run (n : Naming) (events : List NamingEvent) :
    n.world.Keeps (n.run events).world := by
  induction events generalizing n with
  | nil => exact .refl _
  | cons event events ih => exact (n.keeps_step event).trans (ih (n.step event))

theorem of_names? {host : Host} {event : NamingEvent} (h : event.names? host e = some key) :
    MetaKey.of host e = .ok key := by
  cases event with
  | load event => cases h
  | internKey other => cases h
  | intern e' =>
      obtain ⟨rfl, hkey⟩ := Option.ite_none_right_eq_some.mp h
      cases hof : MetaKey.of host e' with
      | error error =>
          rw [hof] at hkey
          cases hkey
      | ok key' =>
          rw [hof] at hkey
          exact congrArg _ (Option.some.inj hkey)

theorem key_of_firstKey? {events : List NamingEvent}
    (hroom : (n.run events).world.classes.length < 2 ^ 32)
    (h : n.firstKey? e events = some key) :
    MetaKey.of (n.run events).world.host e =
      .ok { key with identity := (n.run events).world.host.entityIdentity e } := by
  induction events generalizing n with
  | nil => cases h
  | cons event events ih =>
      cases Option.or_eq_some_iff.mp h with
      | inl hnow =>
          have hkept := n.keeps_run (event :: events)
          have hlength := hkept.classes.length_le
          simp only [World.classLabels, List.length_map] at hlength
          exact hkept.key_of (Nat.lt_of_le_of_lt hlength hroom) (of_names? hnow)
      | inr hlater => exact ih hroom hlater.2

/-!
## What is known of a space
-/

/-- The invariant: indices keep their keys, and an entity that was interned has the
index of the key that it had at first. -/
structure Knows (start : List MetaKey) (first : Entity → Option MetaKey) (space : MetaSpace) :
    Prop where
  distinct : space.keys.Nodup
  kept : start <+: space.keys
  interned : ∀ e, first e = none ∧ space.interned.lookup e = none ∨
    ∃ key index, first e = some key ∧ space.interned.lookup e = some index ∧
      KeyAt space.keys index key

theorem Knows.internKey {start : List MetaKey} {first : Entity → Option MetaKey}
    {space : MetaSpace} (h : Knows start first space) (key : MetaKey) :
    Knows start first (space.internKey key).1 where
  distinct := MetaSpace.nodup_internKey h.distinct key
  kept := h.kept.trans (MetaSpace.keys_prefix_internKey space key)
  interned := by
    intro e
    rw [MetaSpace.interned_internKey]
    cases h.interned e with
    | inl hnew => exact Or.inl hnew
    | inr hold =>
        obtain ⟨key', index, hfirst, hindex, hat⟩ := hold
        exact Or.inr ⟨key', index, hfirst, hindex,
          hat.mono (MetaSpace.keys_prefix_internKey space key)⟩

section

variable {start : List MetaKey} {first : Entity → Option MetaKey} {space space' : MetaSpace}
  {host : Host} {index : UInt32}

theorem or_names?_eq (h : (first e).isSome ∨ (NamingEvent.intern e).names? host e = none) :
    (fun other => (first other).or ((NamingEvent.intern e).names? host other)) = first := by
  funext other
  by_cases he : e = other
  · cases he
    cases h with
    | inl hfirst =>
        obtain ⟨key, hkey⟩ := Option.isSome_iff_exists.mp hfirst
        simp [hkey]
    | inr hnone => simp [hnone]
  · simp [NamingEvent.names?, he]

theorem Knows.intern (h : Knows start first space) (host : Host) (e : Entity) :
    Knows start (fun other => (first other).or ((NamingEvent.intern e).names? host other))
      (MetaSpace.after (MetaSpace.intern host e) space) := by
  unfold MetaSpace.after
  cases h.interned e with
  | inr hold =>
      obtain ⟨key, index, hfirst, hindex, -⟩ := hold
      rw [MetaSpace.intern_of_interned hindex, or_names?_eq (Or.inl (by simp [hfirst]))]
      exact h
  | inl hnew =>
      cases hkey : MetaKey.of host e with
      | error error =>
          have hnone : (NamingEvent.intern e).names? host e = none := by
            simp [NamingEvent.names?, hkey, Except.toOption]
          rw [MetaSpace.intern_of_unnamed hnew.2 hkey, or_names?_eq (Or.inr hnone)]
          exact h
      | ok key =>
          obtain ⟨space', hrun, hkeys, hinterned⟩ := MetaSpace.intern_of_new hnew.2 hkey
          have hknows := h.internKey key
          rw [hrun]
          constructor
          · exact hkeys ▸ hknows.distinct
          · exact hkeys ▸ hknows.kept
          · intro other
            rw [hkeys, hinterned]
            by_cases he : e = other
            · cases he
              exact Or.inr ⟨key, _, by simp [NamingEvent.names?, hkey, hnew.1, Except.toOption],
                List.lookup_cons_self, MetaSpace.keyAt_internKey space key⟩
            · have hother := hknows.interned other
              rw [MetaSpace.interned_internKey] at hother
              have hne : (other == e) = false := beq_eq_false_iff_ne.mpr (Ne.symm he)
              simpa [NamingEvent.names?, he, List.lookup_cons, hne] using hother

theorem Knows.keyAt_intern (h : Knows start first space)
    (hrun : MetaSpace.intern host e space = .ok index space') :
    ∃ key, (first e = some key ∧ space' = space ∨
        first e = none ∧ MetaKey.of host e = .ok key ∧
          space'.keys = (space.internKey key).1.keys ∧ index = (space.internKey key).2) ∧
      KeyAt space'.keys index key := by
  cases h.interned e with
  | inr hold =>
      obtain ⟨key, index', hfirst, hindex, hat⟩ := hold
      rw [MetaSpace.intern_of_interned hindex] at hrun
      cases hrun
      exact ⟨key, Or.inl ⟨hfirst, rfl⟩, hat⟩
  | inl hnew =>
      cases hkey : MetaKey.of host e with
      | error error =>
          rw [MetaSpace.intern_of_unnamed hnew.2 hkey] at hrun
          cases hrun
      | ok key =>
          obtain ⟨after, hafter, hkeys, -⟩ := MetaSpace.intern_of_new hnew.2 hkey
          rw [hafter] at hrun
          cases hrun
          exact ⟨key, Or.inr ⟨hnew.1, rfl, hkeys, rfl⟩,
            hkeys ▸ MetaSpace.keyAt_internKey space key⟩

end

theorem knows_step {start : List MetaKey} {first : Entity → Option MetaKey}
    (h : Knows start first n.space) (event : NamingEvent) :
    Knows start (fun e => (first e).or (event.names? n.world.host e)) (n.step event).space := by
  cases event with
  | load event =>
      simp only [NamingEvent.names?, Option.or_none]
      exact h
  | internKey key =>
      simp only [NamingEvent.names?, Option.or_none]
      exact h.internKey key
  | intern e => exact h.intern n.world.host e

theorem knows_run (hdistinct : n.space.keys.Nodup) (hnew : n.space.interned = [])
    (events : List NamingEvent) :
    Knows n.space.keys (fun e => n.firstKey? e events) (n.run events).space := by
  induction events using List.reverseRecOn with
  | nil =>
      constructor
      · exact hdistinct
      · exact List.prefix_refl _
      · intro e
        apply Or.inl
        simp [firstKey?, run, hnew]
  | append_singleton events event ih =>
      have hstep := knows_step ih event
      have hrun : n.run (events ++ [event]) = (n.run events).step event :=
        List.foldl_append ..
      rw [hrun]
      simpa [firstKey?_concat] using hstep

/-!
## What interning answers
-/

section

variable {start : List MetaKey} {first : Entity → Option MetaKey} {space space' : MetaSpace}
  {host : Host} {index : UInt32}

theorem length_keys_internKey_le (hroom : space.size < 2 ^ 32) (key : MetaKey) :
    (space.internKey key).1.keys.length ≤ 2 ^ 32 := by
  have hsize := space.length_keys
  rw [MetaSpace.keys_internKey]
  by_cases hmem : key ∈ space.keys
  · rw [MetaKey.addTo_of_mem hmem, hsize]
    exact hroom.le
  · rw [MetaKey.addTo_of_not_mem hmem, List.length_append, hsize]
    exact hroom

theorem Knows.keys_intern (h : Knows start first space)
    (hrun : MetaSpace.intern host e space = .ok index space') :
    space.keys <+: space'.keys ∧ space'.keys.Nodup := by
  obtain ⟨key, hcase, -⟩ := h.keyAt_intern hrun
  rcases hcase with ⟨-, rfl⟩ | ⟨-, -, hkeys, -⟩
  · exact ⟨List.prefix_refl _, h.distinct⟩
  · rw [hkeys]
    exact ⟨MetaSpace.keys_prefix_internKey space key, MetaSpace.nodup_internKey h.distinct key⟩

theorem Knows.key_eq_iff (h : Knows start first space)
    (hrun : MetaSpace.intern host e space = .ok index space') (hroom : space.size < 2 ^ 32) :
    space'.key index = MetaKey.of host e ↔
      ∀ key, first e = some key → MetaKey.of host e = .ok key := by
  obtain ⟨key, hcase, hat⟩ := h.keyAt_intern hrun
  have hsize : space'.keys.length ≤ 2 ^ 32 := by
    rcases hcase with ⟨-, rfl⟩ | ⟨-, -, hkeys, -⟩
    · exact space'.length_keys.trans_le hroom.le
    · rw [hkeys]
      exact length_keys_internKey_le hroom key
  rw [MetaSpace.key_eq_ok_iff.mpr (hat.getElem?_eq hsize)]
  rcases hcase with ⟨hfirst, -⟩ | ⟨hnone, hkey, -⟩
  · simp [hfirst, eq_comm]
  · simp [hnone, hkey]

theorem Knows.index_eq_iff (h : Knows start first space)
    (hrun : MetaSpace.intern host e space = .ok index space') (hroom : space.size < 2 ^ 32)
    {key : MetaKey} (hkey : MetaKey.of host e = .ok key) :
    index = (space.internKey key).2 ↔ ∀ key', first e = some key' → key' = key := by
  obtain ⟨key', hcase, hat⟩ := h.keyAt_intern hrun
  have hsize := length_keys_internKey_le hroom key
  have hdistinct := MetaSpace.nodup_internKey h.distinct key
  have hpresent := MetaSpace.keyAt_internKey space key
  rcases hcase with ⟨hfirst, rfl⟩ | ⟨hnone, hkey', -, hindex⟩
  · have hold := hat.mono (MetaSpace.keys_prefix_internKey space' key)
    simp only [hfirst, Option.some.injEq, forall_eq']
    constructor
    · intro heq
      have hat' := hold.getElem?_eq hsize
      rw [heq, hpresent.getElem?_eq hsize] at hat'
      exact (Option.some.inj hat').symm
    · intro heq
      exact (heq ▸ hold).index_unique hpresent hdistinct
  · rw [hkey] at hkey'
    cases hkey'
    simp [hnone, hindex]

end

/-- Whatever happens to a world and to a metaspace that starts without handles, each
key keeps its index and has one only. Interning an entity that has been interned
agrees with interning its key exactly if that is the key it had at first, and only
the identity can be another one. -/
theorem intern_agrees_iff (hdistinct : n.space.keys.Nodup) (hnew : n.space.interned = [])
    (events : List NamingEvent) {index : UInt32} {space' : MetaSpace}
    (hrun : MetaSpace.intern (n.run events).world.host e (n.run events).space =
      .ok index space') :
    n.space.keys <+: (n.run events).space.keys ∧
      (n.run events).space.keys <+: space'.keys ∧
      space'.keys.Nodup ∧
      ((n.run events).space.size < 2 ^ 32 →
        (space'.key index = MetaKey.of (n.run events).world.host e ↔
          ∀ first, n.firstKey? e events = some first →
            MetaKey.of (n.run events).world.host e = .ok first) ∧
        ∀ key, MetaKey.of (n.run events).world.host e = .ok key →
          (index = ((n.run events).space.internKey key).2 ↔
            ∀ first, n.firstKey? e events = some first → first = key)) ∧
      ((n.run events).world.classes.length < 2 ^ 32 →
        ∀ first, n.firstKey? e events = some first →
          MetaKey.of (n.run events).world.host e =
            .ok { first with identity := (n.run events).world.host.entityIdentity e }) := by
  have hknows := knows_run hdistinct hnew events
  obtain ⟨hgrown, hnodup⟩ := hknows.keys_intern hrun
  constructor
  · exact hknows.kept
  constructor
  · exact hgrown
  constructor
  · exact hnodup
  constructor
  · intro hroom
    constructor
    · exact hknows.key_eq_iff hrun hroom
    · intro key hkey
      exact hknows.index_eq_iff hrun hroom hkey
  · intro hroom first hfirst
    exact key_of_firstKey? hroom hfirst

namespace Sample

def start : Naming where
  world := ((World.empty 0).defineClass { name := "A", loader := .app, identity := some 1 }).1
  space := {}

def klass : ClassId := ⟨0⟩

def entity : Entity := .klass klass

def keyWith (identity : UInt64) : MetaKey where
  name := .klass "A"
  identity := identity
  loader := .app

def redefined (identity : UInt64) : List NamingEvent :=
  [.intern entity, .load (.redefineClass klass identity)]

end Sample

theorem intern_restored_class :
    ∃ space', MetaSpace.intern
        (Sample.start.run (Sample.redefined 7 ++ Sample.redefined 1)).world.host Sample.entity
        (Sample.start.run (Sample.redefined 7 ++ Sample.redefined 1)).space = .ok 0 space' ∧
      space'.key 0 = .ok (Sample.keyWith 1) ∧ space'.keys.Nodup := by
  refine ⟨_, rfl, ?_⟩
  have hagrees := intern_agrees_iff (n := Sample.start) (e := Sample.entity) List.nodup_nil rfl
    (Sample.redefined 7 ++ Sample.redefined 1) rfl
  obtain ⟨-, -, hnodup, hanswer, -⟩ := hagrees
  constructor
  · apply ((hanswer (by decide)).1.mpr ?_).trans
    · rfl
    · intro first hfirst
      cases hfirst
      rfl
  · exact hnodup

/-- A class that was redefined has the index of its old key, and not that of the new
one. -/
theorem intern_redefined_class :
    MetaKey.of (Sample.start.run (Sample.redefined 7)).world.host Sample.entity =
        .ok (Sample.keyWith 7) ∧
      ((Sample.start.run (Sample.redefined 7)).space.internKey (Sample.keyWith 7)).2 = 1 ∧
      ∃ space', MetaSpace.intern (Sample.start.run (Sample.redefined 7)).world.host Sample.entity
          (Sample.start.run (Sample.redefined 7)).space = .ok 0 space' ∧
        space'.key 0 = .ok (Sample.keyWith 1) ∧ space'.key 0 ≠ .ok (Sample.keyWith 7) := by
  refine ⟨rfl, by decide, _, rfl, rfl, ?_⟩
  intro h
  cases h

end Naming

end CodeCache
