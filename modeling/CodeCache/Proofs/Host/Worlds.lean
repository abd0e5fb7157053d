import CodeCache.Host.World
import CodeCache.Proofs.Host.Addresses
import CodeCache.Proofs.Host.Counterparts
import CodeCache.Proofs.Metadata.Interning

/-!
# Worlds with the same definitions

Two worlds in memory define the same classes and methods under different
handles. Then everything that the first one can name has a counterpart in the
second one, whatever their address shifts are.
-/

namespace CodeCache

/-!
## Searches that have one answer
-/

theorem findIdx?_of_nodup {α β : Type} [BEq β] [LawfulBEq β] {f : α → β}
    {as : List α} {i : Nat} {a : α} (h : (as.map f).Nodup)
    (hi : as[i]? = some a) {p : α → Bool}
    (hp : ∀ b ∈ as, p b = (f b == f a)) :
    as.findIdx? p = some i := by
  induction as generalizing i with
  | nil => cases hi
  | cons b as ih =>
      rw [List.map_cons, List.nodup_cons] at h
      have hrest := fun c hc => hp c (List.mem_cons_of_mem b hc)
      rw [List.findIdx?_cons, hp b List.mem_cons_self]
      cases i with
      | zero =>
          cases hi
          rw [beq_self_eq_true]
          rfl
      | succ i =>
          have hne : (f b == f a) = false := by
            rw [beq_eq_false_iff_ne]
            intro heq
            have hmem : a ∈ as := List.mem_of_getElem? hi
            exact h.1 (heq ▸ List.mem_map_of_mem hmem)
          rw [hne, ih h.2 hi hrest]
          rfl

theorem index_eq_of_nodup {α β : Type} {f : α → β} {as : List α} {i j : Nat}
    {a b : α} (h : (as.map f).Nodup) (hi : as[i]? = some a)
    (hj : as[j]? = some b) (heq : f a = f b) :
    i = j := by
  have hlt : i < (as.map f).length := by
    rw [List.length_map]
    exact (List.getElem?_eq_some_iff.mp hi).1
  refine (List.getElem?_inj hlt h).mp ?_
  rw [List.getElem?_map, List.getElem?_map, hi, hj]
  exact congrArg some heq

namespace World

/-- A world in which names lead back to what they name, and whose runtime
addresses do not overflow. -/
structure Regular (w : World) : Prop where
  classes_distinct : (w.classes.map fun c => (c.spec.name, c.spec.loader)).Nodup
  methods_distinct : (w.methods.map fun m => (m.holder, m.name, m.signature)).Nodup
  /-- There are fewer classes than handles: the last one is of no class. -/
  classes_lt : w.classes.length < 2 ^ 32
  loaded : ∀ c ∈ w.classes, c.unloaded = false
  /-- No class is defined by the loader that stands for that of the holder. -/
  loaders : ∀ c ∈ w.classes, c.spec.loader ≠ .holder
  clean_classes : ∀ c ∈ w.classes, NulFree c.spec.name
  clean_methods : ∀ m ∈ w.methods, NulFree m.name ∧ NulFree m.signature
  known : w.known = []
  globals : w.globals = globalsAt w.shift
  shift_fits : globalBase.toNat + w.shift.toNat +
    GlobalKind.count * globalStride.toNat + 2 ^ 32 ≤ 2 ^ 64

/-- Every class and method of the first world is one of the second world, under
the handle that the renaming gives. -/
structure DefinedIn (saved live : World) (r : Renaming) : Prop where
  classes : ∀ k c, saved.class? k = some c →
    ∃ c', live.class? (r.klass k) = some c' ∧ c'.spec.name = c.spec.name ∧
      c'.spec.loader = c.spec.loader ∧ c'.identity = c.identity ∧
      c'.spec.initState = c.spec.initState
  methods : ∀ m i, saved.method? m = some i →
    ∃ i', live.method? (r.method m) = some i' ∧
      i'.holder = r.klass i.holder ∧ i'.name = i.name ∧
      i'.signature = i.signature ∧ i'.identity = i.identity

variable {w : World}

/-!
## What a world can name
-/

theorem classProperty_eq {α : Type} {k : ClassId} {c : ClassInfo}
    (h : w.class? k = some c) (property : ClassSpec → α) (unknown : α) :
    w.classProperty property unknown k = property c.spec := by
  unfold classProperty
  rw [h]
  rfl

theorem className_eq {k : ClassId} {c : ClassInfo} (h : w.class? k = some c) :
    w.className k = c.spec.name := by
  unfold className
  rw [h]
  rfl

theorem classIdentity_eq {k : ClassId} {c : ClassInfo}
    (h : w.class? k = some c) :
    w.classIdentity k = c.identity := by
  unfold classIdentity
  rw [h]
  rfl

theorem class?_of_loader {k : ClassId}
    (h : w.host.classLoader k ≠ .custom) :
    ∃ c, w.class? k = some c ∧ w.host.classLoader k = c.spec.loader := by
  cases hc : w.class? k with
  | none =>
      refine absurd ?_ h
      show w.classProperty (·.loader) .custom k = .custom
      unfold classProperty
      rw [hc]
      rfl
  | some c => exact ⟨c, rfl, classProperty_eq hc _ _⟩

theorem loader_of_canName {host : Host} {e : Entity} (h : host.CanName e) :
    host.entityLoader e ≠ .custom := by
  rcases h with ⟨key, hkey⟩
  intro hcustom
  unfold MetaKey.of at hkey
  dsimp only at hkey
  rw [if_pos hcustom] at hkey
  cases hkey

theorem class?_of_canName {k : ClassId} (h : w.host.CanName (.klass k)) :
    ∃ c, w.class? k = some c ∧ w.host.classLoader k = c.spec.loader :=
  class?_of_loader (loader_of_canName h)

theorem method?_of_canName (hw : w.Regular) {m : MethodId}
    (h : w.host.CanName (.method m)) :
    ∃ i c, w.method? m = some i ∧ w.class? i.holder = some c ∧
      w.host.methodHolder m = i.holder ∧
      w.host.classLoader i.holder = c.spec.loader := by
  rcases class?_of_loader (loader_of_canName h) with ⟨c, hc, hloader⟩
  change w.class? (w.methodHolder m) = some c at hc
  change w.host.classLoader (w.methodHolder m) = c.spec.loader at hloader
  cases hi : w.method? m with
  | some i =>
      have hholder : w.methodHolder m = i.holder := by
        unfold methodHolder
        rw [hi]
        rfl
      rw [hholder] at hc hloader
      exact ⟨i, c, rfl, hc, hholder, hloader⟩
  | none =>
      have hholder : w.methodHolder m = ⟨0xFFFFFFFF⟩ := by
        unfold methodHolder
        rw [hi]
        rfl
      rw [hholder] at hc
      have hlt : 0xFFFFFFFF < w.classes.length :=
        (List.getElem?_eq_some_iff.mp hc).1
      have hclasses := hw.classes_lt
      omega

/-!
## Lookup
-/

theorem findClass_eq (hw : w.Regular) {k : ClassId} {c : ClassInfo}
    (h : w.class? k = some c) :
    w.findClass c.spec.name c.spec.loader = some k := by
  have hmem : c ∈ w.classes := List.mem_of_getElem? h
  have hin : w.findClassIn? c.spec.name c.spec.loader = some k := by
    unfold findClassIn?
    rw [findIdx?_of_nodup hw.classes_distinct h]
    · exact congrArg (some ∘ ClassId.mk) (UInt32.ofNat_toNat)
    · intro b hb
      rw [hw.loaded b hb]
      show (true && b.spec.loader == c.spec.loader && b.spec.name == c.spec.name) =
        (b.spec.name == c.spec.name && b.spec.loader == c.spec.loader)
      rw [Bool.true_and, Bool.and_comm]
  have hloader := hw.loaders c hmem
  unfold findClass
  have hfirst : ∃ others, visibleFrom c.spec.loader = c.spec.loader :: others := by
    cases hl : c.spec.loader with
    | holder => exact absurd hl hloader
    | _ => exact ⟨_, rfl⟩
  rcases hfirst with ⟨others, hothers⟩
  rw [hothers, List.findSome?_cons, hin]

theorem findMethod_eq (hw : w.Regular) {m : MethodId} {i : MethodInfo}
    (h : w.method? m = some i) :
    w.findMethod i.holder i.name i.signature = some m := by
  have hdeclared : w.declaredMethod i.holder i.name i.signature = some m := by
    unfold declaredMethod
    rw [findIdx?_of_nodup hw.methods_distinct h]
    · exact congrArg (some ∘ MethodId.mk) (UInt32.ofNat_toNat)
    · intro b _
      exact Bool.and_assoc _ _ _
  unfold findMethod findMethodWithin
  rw [hdeclared]

/-!
## Runtime addresses
-/

def globalStart (shift : UInt64) (g : GlobalKind) : UInt64 :=
  globalBase + shift + UInt64.ofNat g.code.val * globalStride

theorem toNat_globalStart (hw : w.Regular) (g : GlobalKind) :
    (globalStart w.shift g).toNat =
      globalBase.toNat + w.shift.toNat + g.code.val * 256 := by
  have hfits := hw.shift_fits
  have hcode := g.code.isLt
  have hbase : globalBase.toNat = 0x10_0000_0000 := rfl
  have hstride : globalStride.toNat = 256 := rfl
  have hcount : GlobalKind.count = 79 := rfl
  rw [hstride, hcount] at hfits
  have hindex : (UInt64.ofNat g.code.val).toNat = g.code.val :=
    UInt64.toNat_ofNat_of_lt' (show _ < 2 ^ 64 by omega)
  unfold globalStart
  rw [UInt64.toNat_add, UInt64.toNat_add, UInt64.toNat_mul, hindex, hstride]
  omega

theorem ranges_eq (hw : w.Regular) (g : GlobalKind) :
    w.globals.ranges g = some ⟨globalStart w.shift g,
      GlobalTable.saturatingAdd (globalStart w.shift g) globalStride⟩ := by
  rw [hw.globals]
  rfl

theorem toNat_globalFinish (hw : w.Regular) (g : GlobalKind) :
    (GlobalTable.saturatingAdd (globalStart w.shift g) globalStride).toNat =
      globalBase.toNat + w.shift.toNat + g.code.val * 256 + 256 := by
  have hfits := hw.shift_fits
  have hcode := g.code.isLt
  have hstart := toNat_globalStart hw g
  have hstride : globalStride.toNat = 256 := rfl
  have hcount : GlobalKind.count = 79 := rfl
  rw [hstride, hcount] at hfits
  unfold GlobalTable.saturatingAdd UInt64.size
  rw [if_pos (by omega), UInt64.toNat_add, hstart, hstride]
  omega

theorem toNat_address (hw : w.Regular) (g : GlobalKind) (n : UInt32) :
    (globalStart w.shift g + n.toUInt64).toNat =
      globalBase.toNat + w.shift.toNat + g.code.val * 256 + n.toNat := by
  have hfits := hw.shift_fits
  have hcode := g.code.isLt
  have hn := n.toNat_lt
  have hstart := toNat_globalStart hw g
  have hstride : globalStride.toNat = 256 := rfl
  have hcount : GlobalKind.count = 79 := rfl
  rw [hstride, hcount] at hfits
  rw [UInt64.toNat_add, UInt32.toNat_toUInt64, hstart]
  omega

theorem holds_globalRange_iff (hw : w.Regular) (g : GlobalKind) (address : UInt64) :
    (AddressRange.mk (globalStart w.shift g)
        (GlobalTable.saturatingAdd (globalStart w.shift g) globalStride)).Holds address ↔
      globalBase.toNat + w.shift.toNat + g.code.val * 256 ≤ address.toNat ∧
        address.toNat < globalBase.toNat + w.shift.toNat + g.code.val * 256 + 256 := by
  unfold AddressRange.Holds
  rw [UInt64.le_iff_toNat_le, UInt64.lt_iff_toNat_lt, toNat_globalStart hw,
    toNat_globalFinish hw]

theorem disjoint_globals (hw : w.Regular) : w.globals.Disjoint := by
  intro kind kind' r r' address hr hr' hholds hholds'
  rw [ranges_eq hw] at hr hr'
  cases hr
  cases hr'
  have hat := (holds_globalRange_iff hw kind address).mp hholds
  have hat' := (holds_globalRange_iff hw kind' address).mp hholds'
  have hcode : kind.code.val = kind'.code.val := by omega
  exact congrArg GlobalKind.mk (Fin.ext hcode)

theorem addressOf_eq_ok_iff (hw : w.Regular) {g : GlobalKind} {n : UInt32}
    {a : UInt64} :
    w.globals.addressOf g n = .ok a ↔
      a = globalStart w.shift g + n.toUInt64 ∧ n.toNat < 256 := by
  rw [GlobalTable.addressOf_eq_ok_iff, ranges_eq hw]
  simp only [Option.some.injEq, exists_eq_left']
  rw [eq_comm, and_congr_right_iff]
  intro ha
  rw [ha, UInt64.lt_iff_toNat_lt, toNat_address hw, toNat_globalFinish hw]
  omega

theorem find?_eq (hw : w.Regular) {g : GlobalKind} {n : UInt32}
    (hn : n.toNat < 256) :
    w.globals.find? (globalStart w.shift g + n.toUInt64) = some (g, n) := by
  have hholds := (holds_globalRange_iff hw g (globalStart w.shift g + n.toUInt64)).mpr
    (by rw [toNat_address hw]; omega)
  rw [(disjoint_globals hw).find?_eq (ranges_eq hw g) hholds]
  exact congrArg (fun offset => some (g, offset)) (AddressRange.offsetOf_start_add n)

/-!
## Counterparts
-/

theorem hasCleanNames (hw : w.Regular) : w.host.HasCleanNames := by
  intro e key hkey
  cases e with
  | klass k =>
      rcases class?_of_canName ⟨key, hkey⟩ with ⟨c, hc, _⟩
      rw [MetaKey.of_klass hkey]
      show NulFree (w.className k)
      rw [className_eq hc]
      exact hw.clean_classes c (List.mem_of_getElem? hc)
  | method m =>
      rcases method?_of_canName hw ⟨key, hkey⟩ with ⟨i, c, hi, hc, hholder, _⟩
      rw [MetaKey.of_method hkey, hholder]
      show NulFree (w.className i.holder) ∧
        NulFree (((w.method? m).map (·.name)).getD "") ∧
        NulFree (((w.method? m).map (·.signature)).getD "")
      rw [className_eq hc, hi]
      exact ⟨hw.clean_classes c (List.mem_of_getElem? hc),
        hw.clean_methods i (List.mem_of_getElem? hi)⟩

variable {saved live : World} {r : Renaming}

theorem resolve_klass (hlive : live.Regular)
    (h : saved.DefinedIn live r) {k : ClassId} {key : MetaKey}
    (hkey : MetaKey.of saved.host (.klass k) = .ok key) :
    key.resolve live.host = .ok (.klass (r.klass k)) := by
  rcases class?_of_canName ⟨key, hkey⟩ with ⟨c, hc, hloader⟩
  rcases h.classes k c hc with ⟨c', hc', hname, hloader', hidentity, _⟩
  have hfound := findClass_eq hlive hc'
  rw [hname, hloader'] at hfound
  rw [MetaKey.of_klass hkey]
  refine MetaKey.resolve_of_lookup ?_ ?_ ?_
  · show (live.findClass (saved.className k) (saved.host.classLoader k)).map _ =
      _
    rw [className_eq hc, hloader, hfound]
    rfl
  · show live.classIdentity (r.klass k) = saved.classIdentity k
    rw [classIdentity_eq hc', classIdentity_eq hc, hidentity]
  · show live.host.classLoader (r.klass k) = saved.host.classLoader k
    rw [hloader, ← hloader']
    exact classProperty_eq hc' _ _

theorem methodHolder_eq {m : MethodId} {i : MethodInfo}
    (h : w.method? m = some i) :
    w.methodHolder m = i.holder := by
  unfold methodHolder
  rw [h]
  rfl

theorem methodIdentity_eq {m : MethodId} {i : MethodInfo} {c : ClassInfo}
    (hi : w.method? m = some i) (hc : w.class? i.holder = some c) :
    w.methodIdentity m =
      (c.identity <<< 17 ||| c.identity >>> 47) ^^^ i.identity := by
  unfold methodIdentity
  rw [hi]
  dsimp only
  rw [classIdentity_eq hc]

theorem resolve_method (hsaved : saved.Regular) (hlive : live.Regular)
    (h : saved.DefinedIn live r) {m : MethodId} {key : MetaKey}
    (hkey : MetaKey.of saved.host (.method m) = .ok key) :
    key.resolve live.host = .ok (.method (r.method m)) := by
  rcases method?_of_canName hsaved ⟨key, hkey⟩ with
    ⟨i, c, hi, hc, hholder, hloader⟩
  rcases h.classes i.holder c hc with
    ⟨c', hc', hclass, hloader', hcidentity, _⟩
  rcases h.methods m i hi with
    ⟨i', hi', hholder', hname, hsignature, hidentity⟩
  have hfound := findClass_eq hlive hc'
  rw [hclass, hloader'] at hfound
  have hmethod := findMethod_eq hlive hi'
  rw [hholder', hname, hsignature] at hmethod
  rw [← hholder'] at hc'
  rw [MetaKey.of_method hkey, hholder]
  refine MetaKey.resolve_of_lookup ?_ ?_ ?_
  · show (live.findClass (saved.className i.holder)
        (saved.host.classLoader i.holder)).bind (fun k =>
          (live.findMethod k (((saved.method? m).map (·.name)).getD "")
            (((saved.method? m).map (·.signature)).getD "")).map
              Entity.method) = _
    rw [className_eq hc, hloader, hfound, hi]
    show (live.findMethod (r.klass i.holder) i.name i.signature).map _ = _
    rw [hmethod]
    rfl
  · show live.methodIdentity (r.method m) = saved.methodIdentity m
    rw [methodIdentity_eq hi' hc', methodIdentity_eq hi hc, hcidentity,
      hidentity]
  · show live.host.classLoader (live.methodHolder (r.method m)) =
      saved.host.classLoader i.holder
    rw [methodHolder_eq hi', hloader, ← hloader']
    exact classProperty_eq hc' _ _

theorem klass_injective (hsaved : saved.Regular) (h : saved.DefinedIn live r)
    {k₁ k₂ : ClassId} (h₁ : saved.host.CanName (.klass k₁))
    (h₂ : saved.host.CanName (.klass k₂)) (heq : r.klass k₁ = r.klass k₂) :
    k₁ = k₂ := by
  rcases class?_of_canName h₁ with ⟨c₁, hc₁, _⟩
  rcases class?_of_canName h₂ with ⟨c₂, hc₂, _⟩
  rcases h.classes k₁ c₁ hc₁ with ⟨c₁', hc₁', hname₁, hloader₁, _⟩
  rcases h.classes k₂ c₂ hc₂ with ⟨c₂', hc₂', hname₂, hloader₂, _⟩
  rw [heq, hc₂'] at hc₁'
  cases hc₁'
  have hindex : k₁.index.toNat = k₂.index.toNat := by
    refine index_eq_of_nodup hsaved.classes_distinct hc₁ hc₂ ?_
    rw [← hname₁, ← hloader₁, hname₂, hloader₂]
  rcases k₁ with ⟨i₁⟩
  rcases k₂ with ⟨i₂⟩
  exact congrArg ClassId.mk (UInt32.toNat.inj hindex)

theorem method_injective (hsaved : saved.Regular) (h : saved.DefinedIn live r)
    {m₁ m₂ : MethodId} (h₁ : saved.host.CanName (.method m₁))
    (h₂ : saved.host.CanName (.method m₂)) (heq : r.method m₁ = r.method m₂) :
    m₁ = m₂ := by
  have hk₁ := Host.Counterparts.canName_holder h₁
  have hk₂ := Host.Counterparts.canName_holder h₂
  rcases method?_of_canName hsaved h₁ with ⟨i₁, _, hi₁, _, hholder₁, _⟩
  rcases method?_of_canName hsaved h₂ with ⟨i₂, _, hi₂, _, hholder₂, _⟩
  rcases h.methods m₁ i₁ hi₁ with ⟨i₁', hi₁', hh₁, hname₁, hsignature₁, _⟩
  rcases h.methods m₂ i₂ hi₂ with ⟨i₂', hi₂', hh₂, hname₂, hsignature₂, _⟩
  rw [hholder₁] at hk₁
  rw [hholder₂] at hk₂
  rw [heq, hi₂'] at hi₁'
  cases hi₁'
  have hholder : i₁.holder = i₂.holder :=
    klass_injective hsaved h hk₁ hk₂ (hh₁.symm.trans hh₂)
  have hindex : m₁.index.toNat = m₂.index.toNat := by
    refine index_eq_of_nodup hsaved.methods_distinct hi₁ hi₂ ?_
    rw [hholder, ← hname₁, ← hsignature₁, hname₂, hsignature₂]
  rcases m₁ with ⟨j₁⟩
  rcases m₂ with ⟨j₂⟩
  exact congrArg MethodId.mk (UInt32.toNat.inj hindex)

/-- Whatever a world can name has a counterpart in a world with the same
definitions. -/
theorem counterparts (hsaved : saved.Regular) (hlive : live.Regular)
    (h : saved.DefinedIn live r) :
    saved.host.Counterparts live.host r where
  resolves := by
    intro e key hkey
    cases e with
    | klass k => exact resolve_klass hlive h hkey
    | method m => exact resolve_method hsaved hlive h hkey
  injective := by
    intro e₁ e₂ h₁ h₂ heq
    cases e₁ with
    | klass k₁ =>
        cases e₂ with
        | klass k₂ =>
            rw [klass_injective hsaved h h₁ h₂ (Entity.klass.inj heq)]
        | method m₂ => cases heq
    | method m₁ =>
        cases e₂ with
        | klass k₂ => cases heq
        | method m₂ =>
            rw [method_injective hsaved h h₁ h₂ (Entity.method.inj heq)]
  initState := by
    intro k hk
    rcases class?_of_canName hk with ⟨c, hc, _⟩
    rcases h.classes k c hc with ⟨c', hc', _, _, _, hstate⟩
    show live.classProperty (·.initState) .allocated (r.klass k) =
      saved.classProperty (·.initState) .allocated k
    rw [classProperty_eq hc', classProperty_eq hc, hstate]
  holder := by
    intro m hm
    rcases method?_of_canName hsaved hm with ⟨i, _, hi, _, hholder, _⟩
    rcases h.methods m i hi with ⟨i', hi', hh, _⟩
    show live.methodHolder (r.method m) = r.klass (saved.methodHolder m)
    rw [methodHolder_eq hi', methodHolder_eq hi, hh]
  known := by
    intro o number hknown
    change saved.knownObject o = some number at hknown
    unfold knownObject at hknown
    cases o with
    | known number' =>
        cases hknown
        rfl
    | _ =>
        rw [hsaved.known] at hknown
        cases hknown
  globals := by
    intro g n a ha
    rcases (addressOf_eq_ok_iff hsaved).mp ha with ⟨rfl, hn⟩
    exact ⟨find?_eq hsaved hn, _, (addressOf_eq_ok_iff hlive).mpr ⟨rfl, hn⟩⟩

end World

end CodeCache
