import CodeCache.Code.Assembler
import CodeCache.Host.World
import CodeCache.Proofs.Cache.Attempts
import CodeCache.Proofs.Cache.Justified
import CodeCache.Proofs.Cache.Loading
import CodeCache.Proofs.Selection.Visiting

/-!
# Why a version is passed over

A cache keeps what it ruled out by method. The versions that it means are those
of the chain that the method had when it was attempted. As long as the method
keeps its key, that is the chain that it has now.
-/

namespace CodeCache

namespace Cache

theorem Follows.sameFile {host : Host} {seen : MetaKey → Entity → Prop}
    {c s : Cache} (h : Follows host seen c s) :
    c.SameFile s :=
  ⟨h.container_eq, h.containers_eq, h.keys_eq⟩

/-- A revive would not check the version: it is ruled out, or the method does
without the cache. -/
def PassesOver (c : Cache) (m : MethodId) (version : Nat) : Prop :=
  version ∈ c.ruledOut m ∨ c.isDisabled m = true

instance (c : Cache) (m : MethodId) (version : Nat) :
    Decidable (c.PassesOver m version) :=
  inferInstanceAs (Decidable (version ∈ c.ruledOut m ∨ c.isDisabled m = true))

end Cache

namespace Process

/-!
## Runs
-/

structure Attempt where
  process : Process
  method : MethodId
  level : UInt32

namespace Attempt

def chain (a : Attempt) : List (Except Error Blob) :=
  a.process.cache.chain a.process.host a.method

/-- The attempt checked the blob as a version of the method, and the check failed
for good. -/
def Rejects (a : Attempt) (version : Nat) (b : Blob) : Prop :=
  a.process.cache.isCandidate a.process.host a.method a.level = true ∧
  ∃ status head file container state,
    a.process.cache.active? = some (file, container) ∧
    a.process.cache.find a.process.host a.method = .ok (status, some head) ∧
    Selection.Visits (a.process.cache.reviveContext a.process.host a.method)
      a.process.cache.options
      (fun v => !(a.process.cache.ruledOut a.method).contains v) 0 {}
      (container.code.versions head) file.space ⟨version, b, state⟩ ∧
    state.FailsForGood

theorem Rejects.getElem?_chain {a : Attempt} {version : Nat} {b : Blob}
    (h : a.Rejects version b) :
    a.chain[version]? = some (.ok b) := by
  rcases h with ⟨_, status, head, file, container, state, hactive, hfind,
    hvisits, _⟩
  rcases hvisits.mem with ⟨i, hi, hb⟩
  rw [Nat.zero_add] at hi
  cases hi
  unfold chain
  rw [Cache.chain_of_find hactive hfind]
  exact hb

def cacheAfter (a : Attempt) (draw : Nat) : Cache :=
  InCache.after (Cache.revive a.process.host draw a.method a.level)
    a.process.cache

theorem cacheAfter_cases (a : Attempt) (draw : Nat) :
    ((∀ m, (a.cacheAfter draw).ruledOut m = a.process.cache.ruledOut m) ∧
      ∀ m, (a.cacheAfter draw).isDisabled m = a.process.cache.isDisabled m) ∨
    (a.process.cache.isCandidate a.process.host a.method a.level = true ∧
      ∃ status head file container selection space,
        a.process.cache.active? = some (file, container) ∧
        a.process.cache.find a.process.host a.method =
          .ok (status, some head) ∧
        Cache.selecting a.process.host draw a.method a.process.cache container
          head file.space = .ok selection space ∧
        (∀ m, (a.cacheAfter draw).ruledOut m = ((a.process.cache.withSpace file
          space).taught a.method selection).ruledOut m) ∧
        ∀ m, (a.cacheAfter draw).isDisabled m = ((a.process.cache.withSpace file
          space).taught a.method selection).isDisabled m) := by
  unfold cacheAfter
  rcases Cache.after_revive a.process.host draw a.method a.level
    a.process.cache with hsame | ⟨hcandidate, status, hcounted⟩
  · rw [hsame]
    exact Or.inl ⟨fun _ => rfl, fun _ => rfl⟩
  · rw [hcounted]
    rcases Cache.after_reviveMethod a.process.host draw a.method
      a.process.cache with hsame | ⟨status, head, file, container, hactive,
        hfind, space, hspace | ⟨selection, hselect, htaught⟩⟩
    · rw [hsame]
      exact Or.inl ⟨fun _ => rfl, fun _ => rfl⟩
    · rw [hspace]
      exact Or.inl ⟨fun _ => rfl, fun _ => rfl⟩
    · rw [htaught]
      exact Or.inr ⟨hcandidate, status, head, file, container, selection, space,
        hactive, hfind, hselect, fun _ => rfl, fun _ => rfl⟩

theorem of_mem_ruledOut {a : Attempt} {draw : Nat} {m : MethodId}
    {version : Nat} (h : version ∈ (a.cacheAfter draw).ruledOut m) :
    version ∈ a.process.cache.ruledOut m ∨
      (m = a.method ∧ ∃ b, a.Rejects version b) := by
  rcases a.cacheAfter_cases draw with ⟨hsame, _⟩ | ⟨hcandidate, status, head,
    file, container, selection, space, hactive, hfind, hselect, hnotes, _⟩
  · rw [hsame] at h
    exact Or.inl h
  · rw [hnotes] at h
    rcases Cache.mem_ruledOut_taught h with hold | ⟨hm, hnew⟩
    · exact Or.inl hold
    · rcases Selection.of_mem_unusable_select hselect hnew with
        ⟨visit, hvisits, rfl, hfails⟩
      exact Or.inr ⟨hm, visit.blob, hcandidate, status, head, file, container,
        visit.state, hactive, hfind, hvisits, hfails⟩

/-- An attempt lets its method do without the cache only if it rejected all
versions that were not ruled out before. -/
theorem of_isDisabled {a : Attempt} {draw : Nat} {m : MethodId}
    (h : (a.cacheAfter draw).isDisabled m = true) :
    a.process.cache.isDisabled m = true ∨
      (m = a.method ∧ ∀ version b, a.chain[version]? = some (.ok b) →
        version ∈ a.process.cache.ruledOut m ∨ a.Rejects version b) := by
  rcases a.cacheAfter_cases draw with ⟨_, hsame⟩ | ⟨hcandidate, status, head,
    file, container, selection, space, hactive, hfind, hselect, _, hnotes⟩
  · rw [hsame] at h
    exact Or.inl h
  · rw [hnotes] at h
    rcases Cache.isDisabled_taught h with hold | ⟨rfl, hdisable⟩
    · exact Or.inl hold
    · refine Or.inr ⟨rfl, ?_⟩
      intro version b hb
      unfold chain at hb
      rw [Cache.chain_of_find hactive hfind] at hb
      rcases Selection.of_disable_select hselect hdisable hb with
        hleft | ⟨visit, hvisits, rfl, rfl, hfails⟩
      · rw [Bool.not_eq_false', List.contains_iff_mem] at hleft
        exact Or.inl hleft
      · exact Or.inr ⟨hcandidate, status, head, file, container, visit.state,
          hactive, hfind, hvisits, hfails⟩

end Attempt

/-- A run of a process that only attempts to revive methods while its host
changes, with all attempts so far, the latest first. -/
inductive Run (p₀ : Process) : List Attempt → Process → Prop where
  | start : Run p₀ [] p₀
  | evolve {past : List Attempt} {p : Process} (h : Run p₀ past p)
      (host : Host) (hsame : ∀ key e, p.seen key e →
        host.entityIdentity e = p.host.entityIdentity e ∧
          host.entityLoader e = p.host.entityLoader e) :
      Run p₀ past (p.withHost host)
  | redefine {past : List Attempt} {p : Process} (h : Run p₀ past p)
      (host : Host) :
      Run p₀ past { p.withHost host with pending := true }
  | announce {past : List Attempt} {p : Process} (h : Run p₀ past p) :
      Run p₀ past { p.withCache p.cache.redefined with pending := false }
  | revive {past : List Attempt} {p : Process} (h : Run p₀ past p)
      (hready : p.pending = false) (draw : Nat) (m : MethodId)
      (level : UInt32) :
      Run p₀ (⟨p, m, level⟩ :: past) (p.withCache
        (InCache.after (Cache.revive p.host draw m level) p.cache))

/-!
## What the past explains
-/

def WasRejected (past : List Attempt) (m : MethodId) (version : Nat) : Prop :=
  ∃ a ∈ past, a.method = m ∧ ∃ b, a.Rejects version b

theorem WasRejected.cons {past : List Attempt} {m : MethodId} {version : Nat}
    (h : WasRejected past m version) (a : Attempt) :
    WasRejected (a :: past) m version := by
  rcases h with ⟨a', ha', hrejects⟩
  exact ⟨a', List.mem_cons_of_mem a ha', hrejects⟩

structure Explained (p₀ : Process) (past : List Attempt) (p : Process) :
    Prop where
  reachable : p.Reachable
  sameFile : p₀.cache.SameFile p.cache
  past_sameFile : ∀ a ∈ past, p₀.cache.SameFile a.process.cache
  ruledOut : ∀ m version, version ∈ p.cache.ruledOut m →
    WasRejected past m version
  disabled : ∀ m, p.cache.isDisabled m = true →
    ∃ a ∈ past, a.method = m ∧ ∀ version b,
      a.chain[version]? = some (.ok b) → WasRejected past m version

namespace Explained

variable {p₀ p : Process} {past : List Attempt}

theorem of_same (h : Explained p₀ past p) {q : Process}
    (hreachable : q.Reachable) (hfile : p.cache.SameFile q.cache)
    (hunusable : q.cache.unusable = p.cache.unusable)
    (hdisabled : q.cache.disabled = p.cache.disabled) :
    Explained p₀ past q := by
  refine ⟨hreachable, h.sameFile.trans hfile, h.past_sameFile, ?_, ?_⟩
  · intro m version hversion
    refine h.ruledOut m version ?_
    unfold Cache.ruledOut at hversion ⊢
    rw [← hunusable]
    exact hversion
  · intro m hdone
    refine h.disabled m ?_
    unfold Cache.isDisabled at hdone ⊢
    rw [← hdisabled]
    exact hdone

theorem revive (h : Explained p₀ past p) (hready : p.pending = false)
    (draw : Nat) (m : MethodId) (level : UInt32) :
    Explained p₀ (⟨p, m, level⟩ :: past) (p.withCache
      (InCache.after (Cache.revive p.host draw m level) p.cache)) := by
  have hreachable := h.reachable.step (.revive p hready draw m level)
  have hfollows := InCache.inv_after (Cache.revive_ensures
    h.reachable.sound.finds_seen draw m level)
      (h.reachable.sound.follows hready)
  refine ⟨hreachable, h.sameFile.trans hfollows.sameFile, ?_, ?_, ?_⟩
  · intro a ha
    rcases List.mem_cons.mp ha with rfl | hold
    · exact h.sameFile
    · exact h.past_sameFile a hold
  · intro m' version hversion
    rcases Attempt.of_mem_ruledOut (a := ⟨p, m, level⟩) hversion with
      hold | ⟨rfl, hrejects⟩
    · exact (h.ruledOut m' version hold).cons _
    · exact ⟨_, List.mem_cons_self, rfl, hrejects⟩
  · intro m' hdone
    rcases Attempt.of_isDisabled (a := ⟨p, m, level⟩) hdone with
      hold | ⟨rfl, hall⟩
    · rcases h.disabled m' hold with ⟨a, ha, hm, hrejected⟩
      refine ⟨a, List.mem_cons_of_mem _ ha, hm, ?_⟩
      intro version b hb
      exact (hrejected version b hb).cons _
    · refine ⟨_, List.mem_cons_self, rfl, ?_⟩
      intro version b hb
      rcases hall version b hb with hold | hrejects
      · exact (h.ruledOut _ version hold).cons _
      · exact ⟨_, List.mem_cons_self, rfl, b, hrejects⟩

end Explained

theorem Run.explained {p₀ p : Process} {past : List Attempt}
    (h : Run p₀ past p) (hreachable : p₀.Reachable) {file : CacheFile}
    (hloaded : p₀.cache.Loaded file) :
    Explained p₀ past p := by
  induction h with
  | start =>
      refine ⟨hreachable, .refl _, ?_, ?_, ?_⟩
      · intro a ha
        cases ha
      · intro m version hversion
        rw [hloaded.ruledOut_eq] at hversion
        cases hversion
      · intro m hdone
        rw [hloaded.enabled] at hdone
        cases hdone
  | @evolve past p _ host hsame ih =>
      exact ih.of_same (ih.reachable.step (.evolve p host hsame)) (.refl _)
        rfl rfl
  | @redefine past p _ host ih =>
      exact ih.of_same (ih.reachable.step (.redefine p host)) (.refl _) rfl rfl
  | @announce past p _ ih =>
      exact ih.of_same (ih.reachable.step (.announce p)) ⟨rfl, rfl, rfl⟩
        rfl rfl
  | revive _ hready draw m level ih => exact ih.revive hready draw m level

theorem withCache_host (p : Process) (cache : Cache) :
    (p.withCache cache).host = p.host := rfl

def afterLoad (loader : Host) (o : Options) (roll : Nat) (files : FileTree) :
    Process :=
  let p := start loader o roll
  p.withCache (InCache.after (Cache.load p.host files) p.cache)

/-- A version that is passed over was rejected before, as long as the method had
its present key at all earlier attempts. -/
theorem passed_over_rejected {loader : Host} {o : Options} {roll : Nat}
    {files : FileTree}
    (hload : ∃ c, Cache.load loader files (Cache.start o roll) = .ok () c)
    {past : List Attempt} {p : Process}
    (h : Run (afterLoad loader o roll files) past p) {m : MethodId}
    {version : Nat} {b : Blob}
    (hb : (p.cache.chain p.host m)[version]? = some (.ok b))
    (hpassed : p.cache.PassesOver m version)
    (hkey : ∀ a ∈ past, a.method = m →
      MetaKey.of a.process.host (.method m) = MetaKey.of p.host (.method m)) :
    ∃ a ∈ past, a.method = m ∧ a.Rejects version b := by
  rcases hload with ⟨c, hload⟩
  have hcache : (afterLoad loader o roll files).cache = c := by
    change InCache.after (Cache.load loader files) (Cache.start o roll) = c
    unfold InCache.after
    rw [hload]
  rcases Cache.loaded_of_load hload with ⟨_, file, hloaded⟩
  rw [← hcache] at hloaded
  have hexplained := h.explained ((Reachable.start loader o roll).step
    (.load _ files)) hloaded
  -- every earlier attempt had the chain that the method has now
  have hchain : ∀ a ∈ past, a.method = m →
      a.chain = p.cache.chain p.host m := by
    intro a ha hm
    have hsame := hkey a ha hm
    rw [← hm] at hsame ⊢
    unfold Attempt.chain
    rw [(hexplained.past_sameFile a ha).chain_eq hsame,
      hexplained.sameFile.chain_eq rfl]
  have hrejected : WasRejected past m version := by
    rcases hpassed with hruledOut | hdone
    · exact hexplained.ruledOut m version hruledOut
    · rcases hexplained.disabled m hdone with ⟨a, ha, hm, hall⟩
      exact hall version b ((hchain a ha hm).symm ▸ hb)
  rcases hrejected with ⟨a, ha, hm, b', hrejects⟩
  have hb' := hrejects.getElem?_chain
  rw [hchain a ha hm, hb] at hb'
  cases hb'
  exact ⟨a, ha, hm, hrejects⟩

/-!
A file with code for two identities of the class `A`. In a process that has the
first one, the first version of the method is rejected and the second one is
revived. Then `A` is redefined to the other identity, and the version for that
one is passed over.
-/

namespace Renewal

def saving : World :=
  let (w, a) := (World.empty 0).defineClass { name := "A", loader := .app }
  let (w, _) := w.defineClass { name := "B", loader := .app, hasFinalizer := true }
  let (w, _) := w.defineMethod a "f" "()V"
  let (w, a) := w.defineClass { name := "A", loader := .app, identity := some 7 }
  (w.defineMethod a "f" "()V").1

def outdated : CompiledMethod :=
  Assembler.dependency (Assembler.nops (Assembler.start saving.host ⟨0⟩) 8)
    .noFinalizableSubclasses [.klass ⟨1⟩]

def plain : CompiledMethod :=
  Assembler.nops (Assembler.start saving.host ⟨0⟩) 16

def renewed : CompiledMethod :=
  Assembler.nops (Assembler.start saving.host ⟨1⟩) 24

def files : FileTree :=
  match Cache.save saving.host {} [outdated, plain, renewed]
      (Cache.start (.forSave "a") 0) with
  | .ok (_, files) _ => files
  | .error _ _ => {}

def world : World :=
  let (w, a) := (World.empty 0).defineClass { name := "A", loader := .app }
  let (w, _) := w.defineClass { name := "B", loader := .app, hasFinalizer := true }
  (w.defineMethod a "f" "()V").1

def loaded : Process :=
  afterLoad world.host (.forRestore "a") 0 files

def attempt : Attempt := ⟨loaded, ⟨0⟩, optimizingLevel⟩

def revived : Process :=
  loaded.withCache (InCache.after
    (Cache.revive loaded.host 0 ⟨0⟩ optimizingLevel) loaded.cache)

def redefined : Process :=
  { revived.withHost (world.redefineClass ⟨0⟩ 7).host with pending := true }

def announced : Process :=
  { redefined.withCache redefined.cache.redefined with pending := false }

theorem load_isOk : ∃ c, Cache.load world.host files
    (Cache.start (.forRestore "a") 0) = .ok () c :=
  ⟨_, InCache.eq_ok_after (by decide +kernel)⟩

theorem run_revived : Run loaded [attempt] revived :=
  Run.start.revive rfl 0 ⟨0⟩ optimizingLevel

theorem run_announced : Run loaded [attempt] announced :=
  (run_revived.redefine (world.redefineClass ⟨0⟩ 7).host).announce

def firstOffset (p : Process) : Option UInt32 :=
  match p.cache.chain p.host ⟨0⟩ with
  | .ok b :: _ => some b.offset
  | _ => none

theorem exists_first {p : Process} {offset : UInt32}
    (h : firstOffset p = some offset) :
    ∃ b, (p.cache.chain p.host ⟨0⟩)[0]? = some (.ok b) ∧ b.offset = offset := by
  unfold firstOffset at h
  cases hchain : p.cache.chain p.host ⟨0⟩ with
  | nil =>
      rw [hchain] at h
      cases h
  | cons blob rest =>
      rw [hchain] at h
      cases blob with
      | error e => cases h
      | ok b =>
          cases h
          exact ⟨b, rfl, rfl⟩

theorem offsets_and_notes :
    firstOffset loaded = some 0 ∧ firstOffset revived = some 0 ∧
      firstOffset announced = some 328 ∧ revived.cache.PassesOver ⟨0⟩ 0 ∧
      announced.cache.PassesOver ⟨0⟩ 0 := by
  decide +kernel

end Renewal

theorem passed_over_rejected_after_revive :
    ∃ b, (Renewal.revived.cache.chain Renewal.revived.host ⟨0⟩)[0]? =
        some (.ok b) ∧
      Renewal.revived.cache.PassesOver ⟨0⟩ 0 ∧
      ∃ a ∈ [Renewal.attempt], a.method = ⟨0⟩ ∧ a.Rejects 0 b := by
  rcases Renewal.offsets_and_notes with ⟨_, hfirst, _, hpassed, _⟩
  rcases Renewal.exists_first hfirst with ⟨b, hb, _⟩
  refine ⟨b, hb, hpassed, ?_⟩
  refine passed_over_rejected Renewal.load_isOk Renewal.run_revived hb hpassed ?_
  intro a ha _
  rw [List.mem_singleton.mp ha]
  have hhost : Renewal.revived.host = Renewal.loaded.host :=
    withCache_host Renewal.loaded _
  rw [hhost, Renewal.attempt]

/-- After `A` was redefined, a version is passed over that nobody ever checked. -/
theorem passed_over_unchecked :
    ∃ b, Run Renewal.loaded [Renewal.attempt] Renewal.announced ∧
      (Renewal.announced.cache.chain Renewal.announced.host ⟨0⟩)[0]? =
        some (.ok b) ∧
      Renewal.announced.cache.PassesOver ⟨0⟩ 0 ∧
      ∀ a ∈ [Renewal.attempt], ¬ a.Rejects 0 b := by
  rcases Renewal.offsets_and_notes with ⟨hloaded, _, hannounced, _, hpassed⟩
  rcases Renewal.exists_first hannounced with ⟨b, hb, hoffset⟩
  rcases Renewal.exists_first hloaded with ⟨b', hb', hoffset'⟩
  refine ⟨b, Renewal.run_announced, hb, hpassed, ?_⟩
  intro a ha hrejects
  rw [List.mem_singleton.mp ha] at hrejects
  have hat := hrejects.getElem?_chain
  change (Renewal.loaded.cache.chain Renewal.loaded.host ⟨0⟩)[0]? = _ at hat
  rw [hb'] at hat
  cases hat
  rw [hoffset] at hoffset'
  cases hoffset'

end Process

end CodeCache
