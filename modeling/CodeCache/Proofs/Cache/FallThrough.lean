import CodeCache.Code.Assembler
import CodeCache.Host.World
import CodeCache.Proofs.Cache.Undisturbed
import Mathlib.Data.Nat.Find
import Mathlib.Order.Bounds.Basic

/-!
# Which version is revived when the first one is wanted

A selection ends at the first version that passes its checks. If its code cannot
be rebuilt, no later version is tried: a method is revived as its first version
that can be revived alone, or not at all.
-/

namespace CodeCache.Cache

variable {host : Host} {c : Cache} {file : CacheFile} {m : MethodId}

def Passes (host : Host) (c : Cache) (m : MethodId) (version : Nat) : Prop :=
  ∃ file b state space, c.file = some file ∧
    (c.chain host m)[version]? = some (.ok b) ∧
    Selection.checkBlob (c.reviveContext host m) c.options version b
      file.space = .ok state space ∧
    state.isValid = true

/-- The version alone is revived as the code. -/
def RevivesVersion (host : Host) (c : Cache) (m : MethodId) (version : Nat)
    (nm : CompiledMethod) : Prop :=
  ∃ s, reviveVersion host m version c = .ok nm s

/-- The answer is the code of the first version that can be revived alone, if
there is one. -/
def FallsThrough (host : Host) (c : Cache) (m : MethodId)
    (nm? : Option CompiledMethod) : Prop :=
  ∀ nm, nm? = some nm ↔
    ∃ version, IsLeast {v | ∃ nm, RevivesVersion host c m v nm} version ∧
      RevivesVersion host c m version nm

/-!
## One version
-/

theorem NotFound.reviveVersion_eq (h : NotFound host c m) (version : Nat) :
    ∃ e, reviveVersion host m version c = .error e c := by
  change ∃ e, (ofExcept (c.find host m) >>= _ : InCache CompiledMethod) c = _
  cases hfind : c.find host m with
  | error e => exact ⟨e, rfl⟩
  | ok answer =>
      rcases answer with ⟨status, head?⟩
      cases head? with
      | none => exact ⟨_, rfl⟩
      | some head => exact absurd hfind (h status head)

section Found

variable {status : ReviveStatus} {head : UInt32} {container : Container}
  {version : Nat} (hactive : c.active? = some (file, container))
  (hfind : c.find host m = .ok (status, some head))
include hactive hfind

theorem reviveVersion_of_none
    (hnone : (container.code.versions head)[version]? = none) :
    reviveVersion host m version c =
      .error (.unresolved (.noVersion (host.methodDisplayName m) version)) c := by
  unfold reviveVersion
  rw [run_get_bind]
  dsimp only
  rw [run_ofExcept_bind hfind]
  dsimp only
  rw [hactive]
  dsimp only
  rw [hnone]
  rfl

theorem reviveVersion_of_version {b : Blob} {state : VersionState}
    {space : MetaSpace}
    (hb : (container.code.versions head)[version]? = some (.ok b))
    (hcheck : Selection.checkBlob (c.reviveContext host m) c.options version b
      file.space = .ok state space) :
    reviveVersion host m version c =
      ending (if state.isValid then
          b.revive (c.reviveContext host m) state.resolved
        else .error (versionError version (host.methodDisplayName m)
          state.verdict)) (c.withSpace file space) := by
  unfold reviveVersion
  rw [run_get_bind]
  dsimp only
  rw [run_ofExcept_bind hfind]
  dsimp only
  rw [hactive]
  dsimp only
  rw [hb]
  dsimp only
  rw [run_ofExcept_bind rfl, run_bind (inSpace_of_ok hcheck)]
  change (if !state.isValid then throw _ else
    ofExcept (b.revive (c.reviveContext host m) state.resolved) :
      InCache CompiledMethod) (c.withSpace file space) = _
  cases state.isValid with
  | false => rfl
  | true =>
      change (ofExcept (b.revive (c.reviveContext host m) state.resolved) :
        InCache CompiledMethod) _ =
          ending (b.revive (c.reviveContext host m) state.resolved) _
      cases b.revive (c.reviveContext host m) state.resolved with
      | error e | ok nm => rfl

end Found

namespace HasVersions

variable {container : Container} {head : UInt32} {states : List VersionState}
  (h : HasVersions host c file m container head states)
include h

theorem of_state (hc : c.Loaded file) {version : Nat} {state : VersionState}
    (hstate : states[version]? = some state) :
    ∃ b space,
      (container.code.versions head)[version]? = some (.ok b) ∧
      container.code.blob state.offset = .ok b ∧
      Selection.checkBlob (c.reviveContext host m) c.options version b
        file.space = .ok state space := by
  rcases h.outcomes with ⟨blobs, hblobs, hstates⟩
  rcases hstates.at_state hstate with ⟨b, hb, _, hoffset, hchecks⟩
  rw [Nat.zero_add] at hchecks
  rcases hchecks file.space (MetaSpace.leads_of_fresh host hc.fresh) with
    ⟨space, _, hrun⟩
  have hat : (container.code.versions head)[version]? = some (.ok b) := by
    rw [hblobs, List.getElem?_map, hb]
    rfl
  refine ⟨b, space, hat, ?_, hrun⟩
  rw [hoffset]
  exact CodeSpace.blob_of_mem_versions (List.mem_of_getElem? hat)

theorem exists_state {version : Nat} {blob : Except Error Blob}
    (hb : (container.code.versions head)[version]? = some blob) :
    ∃ state, states[version]? = some state := by
  rcases h.outcomes with ⟨blobs, hblobs, hstates⟩
  rw [hblobs, List.getElem?_map, Option.map_eq_some_iff] at hb
  rcases hb with ⟨b, hb, _⟩
  rcases hstates.at_index hb with ⟨state, hstate, _⟩
  exact ⟨state, hstate⟩

theorem passes_iff (hc : c.Loaded file) {version : Nat} :
    Passes host c m version ↔
      ∃ state, states[version]? = some state ∧ state.isValid = true := by
  constructor
  · rintro ⟨file', b, state, space, hfile, hb, hcheck, hvalid⟩
    rw [hc.file_eq] at hfile
    cases hfile
    rw [h.chain_eq] at hb
    rcases h.exists_state hb with ⟨state', hstate'⟩
    rcases h.of_state hc hstate' with ⟨b', space', hb', _, hcheck'⟩
    rw [hb] at hb'
    cases hb'
    rw [hcheck] at hcheck'
    cases hcheck'
    exact ⟨state, hstate', hvalid⟩
  · rintro ⟨state, hstate, hvalid⟩
    rcases h.of_state hc hstate with ⟨b, space, hb, _, hcheck⟩
    exact ⟨file, b, state, space, hc.file_eq, h.chain_eq ▸ hb, hcheck, hvalid⟩

theorem revivesVersion_iff (hc : c.Loaded file) {version : Nat}
    {nm : CompiledMethod} :
    RevivesVersion host c m version nm ↔
      ∃ state b, states[version]? = some state ∧ state.isValid = true ∧
        container.code.blob state.offset = .ok b ∧
        b.revive (c.reviveContext host m) state.resolved = .ok nm := by
  rcases h.found with ⟨status, hfind⟩
  constructor
  · rintro ⟨s, hrun⟩
    cases hat : (container.code.versions head)[version]? with
    | none =>
        rw [reviveVersion_of_none h.active hfind hat] at hrun
        cases hrun
    | some blob =>
        rcases h.exists_state hat with ⟨state, hstate⟩
        rcases h.of_state hc hstate with ⟨b, space, hb, hblob, hcheck⟩
        rw [reviveVersion_of_version h.active hfind hb hcheck] at hrun
        cases hvalid : state.isValid with
        | false =>
            rw [hvalid] at hrun
            cases hrun
        | true =>
            rw [hvalid, if_pos rfl] at hrun
            cases hrevive : b.revive (c.reviveContext host m) state.resolved with
            | error e =>
                rw [hrevive] at hrun
                cases hrun
            | ok code =>
                rw [hrevive] at hrun
                cases hrun
                exact ⟨state, b, hstate, hvalid, hblob, hrevive⟩
  · rintro ⟨state, b, hstate, hvalid, hblob, hrevive⟩
    rcases h.of_state hc hstate with ⟨b', space, hb, hblob', hcheck⟩
    rw [hblob] at hblob'
    cases hblob'
    refine ⟨c.withSpace file space, ?_⟩
    rw [reviveVersion_of_version h.active hfind hb hcheck, if_pos hvalid, hrevive]
    rfl

theorem isLeast_passes (hc : c.Loaded file) {state : VersionState}
    (hfirst : states.find? (·.isValid) = some state) :
    ∃ version, states[version]? = some state ∧
      IsLeast {v | Passes host c m v} version := by
  rcases List.find?_eq_some_iff_getElem.mp hfirst with
    ⟨hvalid, version, hlt, rfl, hbefore⟩
  have hat := List.getElem?_eq_getElem hlt
  refine ⟨version, hat, (h.passes_iff hc).mpr ⟨_, hat, hvalid⟩, ?_⟩
  intro other hother
  rcases (h.passes_iff hc).mp hother with ⟨state, hstate, hpasses⟩
  by_contra hless
  have hearlier := hbefore other (Nat.lt_of_not_le hless)
  rw [(List.getElem?_eq_some_iff.mp hstate).2, hpasses] at hearlier
  cases hearlier

end HasVersions

theorem answerOf_installed {container : Container} {state : VersionState}
    (henabled : c.isDisabled m = false)
    (hidentity : c.options.checkIdentity = false)
    (hinstall : c.options.failInstall = false) (nm : CompiledMethod) :
    answerOf (c.installed host m container state) = some nm ↔
      ∃ b, container.code.blob state.offset = .ok b ∧
        b.revive (c.reviveContext host m) state.resolved = .ok nm := by
  unfold installed
  rw [henabled, hidentity, hinstall]
  cases container.code.blob state.offset with
  | error e =>
      constructor
      · intro h
        cases h
      · rintro ⟨b, h, _⟩
        cases h
  | ok b =>
      change answerOf (b.revive (c.reviveContext host m) state.resolved >>=
        fun nm => pure (ReviveStatus.success, some nm)) = some nm ↔ _
      cases hrevive : b.revive (c.reviveContext host m) state.resolved with
      | error e =>
          constructor
          · intro h
            cases h
          · rintro ⟨b', hb', h⟩
            cases hb'
            rw [hrevive] at h
            cases h
      | ok code =>
          constructor
          · intro h
            cases h
            exact ⟨b, rfl, hrevive⟩
          · rintro ⟨b', hb', h⟩
            cases hb'
            rw [hrevive] at h
            cases h
            rfl

theorem not_passes_of_chain (hchain : c.chain host m = []) (version : Nat) :
    ¬ Passes host c m version := by
  rintro ⟨_, b, _, _, _, hb, _⟩
  rw [hchain] at hb
  cases hb

/-!
## The first version that passes
-/

structure Plain (o : Options) : Prop where
  policy_eq : o.revivePolicy = .first
  fatalOnFail_eq : o.fatalOnFail = false
  checkIdentity_eq : o.checkIdentity = false
  failInstall_eq : o.failInstall = false

theorem Plain.revive_eq (ho : Plain c.options) (hc : c.Loaded file)
    (hintact : Intact (c.chain host m))
    (hcandidate : c.isCandidate host m optimizingLevel = true) (draw : Nat) :
    ∃ nm? s, revive host draw m optimizingLevel c = .ok nm? s ∧
      ∀ nm, nm? = some nm ↔ ∃ version,
        IsLeast {v | Passes host c m v} version ∧
          RevivesVersion host c m version nm := by
  have hpolicy : c.options.revivePolicy ≠ .random := by
    rw [ho.policy_eq]
    exact nofun
  have hanswer : ∀ {nm? : Option CompiledMethod},
      Answers host c file draw m nm? →
        ∃ s, revive host draw m optimizingLevel c = .ok nm? s := by
    intro nm? h
    rcases h.revive_settles hc.file_eq ho.fatalOnFail_eq (hc.enabled m)
      optimizingLevel c (hc.undisturbed host) with ⟨s, _, hrun⟩
    rw [if_pos hcandidate] at hrun
    exact ⟨s, hrun⟩
  rcases find_cases host c m with h |
    ⟨status, head, loaded, container, hactive, hfind⟩
  · rcases hanswer (h.answers hc.file_eq draw) with ⟨s, hrun⟩
    refine ⟨none, s, hrun, ?_⟩
    intro nm
    constructor
    · intro hnm
      cases hnm
    · rintro ⟨version, hleast, _⟩
      exact absurd hleast.1 (not_passes_of_chain h.chain_eq version)
  · rcases hasVersions_of_intact hc.file_eq hactive hfind hintact with
      ⟨states, h⟩
    rcases hanswer (h.answers hc.file_eq hpolicy (hc.enabled m) draw) with
      ⟨s, hrun⟩
    refine ⟨_, s, hrun, ?_⟩
    rw [ho.policy_eq]
    intro nm
    change ((states.filter (·.isValid)).head?.bind fun state =>
      answerOf (c.installed host m container state)) = some nm ↔ _
    rw [List.head?_filter]
    cases hfirst : states.find? (·.isValid) with
    | none =>
        constructor
        · intro hnm
          cases hnm
        · rintro ⟨version, hleast, _⟩
          rcases (h.passes_iff hc).mp hleast.1 with ⟨state, hstate, hvalid⟩
          exact absurd hvalid (List.find?_eq_none.mp hfirst state
            (List.mem_of_getElem? hstate))
    | some state =>
        rcases h.isLeast_passes hc hfirst with ⟨version, hstate, hleast⟩
        rw [Option.bind_some, answerOf_installed (hc.enabled m)
          ho.checkIdentity_eq ho.failInstall_eq]
        constructor
        · rintro ⟨b, hb, hrevive⟩
          refine ⟨version, hleast, (h.revivesVersion_iff hc).mpr ?_⟩
          exact ⟨state, b, hstate, List.find?_some hfirst, hb, hrevive⟩
        · rintro ⟨version', hleast', hrevives⟩
          cases hleast.unique hleast'
          rcases (h.revivesVersion_iff hc).mp hrevives with
            ⟨state', b, hstate', _, hb, hrevive⟩
          rw [hstate] at hstate'
          cases hstate'
          exact ⟨b, hb, hrevive⟩

theorem RevivesVersion.passes (hc : c.Loaded file)
    (hintact : Intact (c.chain host m)) {version : Nat} {nm : CompiledMethod}
    (h : RevivesVersion host c m version nm) :
    Passes host c m version := by
  rcases find_cases host c m with hnone |
    ⟨status, head, loaded, container, hactive, hfind⟩
  · rcases hnone.reviveVersion_eq version with ⟨e, hrun⟩
    rcases h with ⟨s, hrun'⟩
    rw [hrun] at hrun'
    cases hrun'
  · rcases hasVersions_of_intact hc.file_eq hactive hfind hintact with
      ⟨states, hversions⟩
    rcases (hversions.revivesVersion_iff hc).mp h with
      ⟨state, _, hstate, hvalid, _⟩
    exact (hversions.passes_iff hc).mpr ⟨state, hstate, hvalid⟩

theorem exists_isLeast {p : Nat → Prop} {version : Nat} (h : p version) :
    ∃ first, IsLeast {v | p v} first := by
  classical
  exact ⟨Nat.find ⟨version, h⟩, Nat.find_spec _, fun _ hv => Nat.find_min' _ hv⟩

/-- When every version passes that can be revived, the first one that passes
stands for all exactly if the first one that can be revived does. -/
theorem fallsThrough_iff {nm? : Option CompiledMethod}
    (hpasses : ∀ version nm, RevivesVersion host c m version nm →
      Passes host c m version)
    (hnm : ∀ nm, nm? = some nm ↔ ∃ version,
      IsLeast {v | Passes host c m v} version ∧
        RevivesVersion host c m version nm) :
    FallsThrough host c m nm? ↔
      ((∃ version nm, RevivesVersion host c m version nm) →
        ∃ version nm, IsLeast {v | Passes host c m v} version ∧
          RevivesVersion host c m version nm) := by
  have hleast : ∀ {version : Nat} {nm : CompiledMethod},
      IsLeast {v | Passes host c m v} version →
      RevivesVersion host c m version nm →
      IsLeast {v | ∃ nm, RevivesVersion host c m v nm} version := by
    intro version nm hfirst hrevives
    refine ⟨⟨nm, hrevives⟩, ?_⟩
    rintro other ⟨nm', hother⟩
    exact hfirst.2 (hpasses other nm' hother)
  constructor
  · rintro hfalls ⟨version, nm, hrevives⟩
    rcases exists_isLeast (p := fun v => ∃ nm, RevivesVersion host c m v nm)
      ⟨nm, hrevives⟩ with ⟨first, hfirst⟩
    rcases hfirst.1 with ⟨nm', hrevives'⟩
    rcases (hnm nm').mp ((hfalls nm').mpr ⟨first, hfirst, hrevives'⟩) with
      ⟨version', hversion'⟩
    exact ⟨version', nm', hversion'⟩
  · intro hcan nm
    rw [hnm]
    constructor
    · rintro ⟨version, hfirst, hrevives⟩
      exact ⟨version, hleast hfirst hrevives, hrevives⟩
    · rintro ⟨version, hfirst, hrevives⟩
      rcases hcan ⟨version, nm, hrevives⟩ with
        ⟨version', nm', hfirst', hrevives'⟩
      cases hfirst.unique (hleast hfirst' hrevives')
      exact ⟨version, hfirst', hrevives⟩

/-- A method is revived as the first version that passes its checks, or not at
all. That is the first version that can be revived at all exactly if, where some
version can be revived, the first one that passes can. -/
theorem revive_first_passing {loader : Host} {files : FileTree} {o : Options}
    {roll : Nat} (hload : load loader files (start o roll) = .ok () c)
    (ho : Plain o) (hintact : Intact (c.chain host m))
    (hcandidate : c.isCandidate host m optimizingLevel = true) (draw : Nat) :
    ∃ nm? s, revive host draw m optimizingLevel c = .ok nm? s ∧
      (∀ nm, nm? = some nm ↔ ∃ version,
        IsLeast {v | Passes host c m v} version ∧
          RevivesVersion host c m version nm) ∧
      (FallsThrough host c m nm? ↔
        ((∃ version nm, RevivesVersion host c m version nm) →
          ∃ version nm, IsLeast {v | Passes host c m v} version ∧
            RevivesVersion host c m version nm)) := by
  rcases loaded_of_load hload with ⟨hoptions, file, hc⟩
  rw [← hoptions] at ho
  rcases ho.revive_eq hc hintact hcandidate draw with ⟨nm?, s, hrun, hnm⟩
  refine ⟨nm?, s, hrun, hnm, fallsThrough_iff ?_ hnm⟩
  intro version nm hrevives
  exact hrevives.passes hc hintact

/-!
A process that saves two versions of a method, of which only the first one calls
into the runtime. Where no addresses of the runtime are known, the second one
could be revived, but the first one passes its checks as well.
-/

namespace Sample

def world : World :=
  let (w, a) := (World.empty 0).defineClass { name := "A", loader := .app }
  (w.defineMethod a "f" "()V").1

def calling : CompiledMethod :=
  let nm := Assembler.nops (Assembler.start world.host ⟨0⟩) 8
  match Assembler.runtimeCall nm world.host .pollingPage with
  | .ok nm => nm
  | .error _ => nm

def plain : CompiledMethod :=
  Assembler.nops (Assembler.start world.host ⟨0⟩) 8

def bare : Host :=
  { world.host with globals := {} }

def files : FileTree :=
  match Cache.save world.host {} [calling, plain] (start (.forSave "a") 0) with
  | .ok (_, files) _ => files
  | .error _ _ => {}

def loaded : Cache :=
  InCache.after (load bare files) (start (.forRestore "a") 0)

theorem load_eq :
    load bare files (start (.forRestore "a") 0) = .ok () loaded :=
  InCache.eq_ok_after (by decide +kernel)

theorem second_isRevived : ∃ nm, RevivesVersion bare loaded ⟨0⟩ 1 nm := by
  have hdone : okWith (fun _ => true) (reviveVersion bare ⟨0⟩ 1 loaded) = true := by
    decide +kernel
  rcases of_okWith hdone with ⟨nm, s, hrun, -⟩
  exact ⟨nm, s, hrun⟩

end Sample

theorem revive_first_passing_without_globals :
    ∃ nm? s, revive Sample.bare 0 ⟨0⟩ optimizingLevel Sample.loaded =
        .ok nm? s ∧
      (∀ nm, nm? = some nm ↔ ∃ version,
        IsLeast {v | Passes Sample.bare Sample.loaded ⟨0⟩ v} version ∧
          RevivesVersion Sample.bare Sample.loaded ⟨0⟩ version nm) ∧
      (FallsThrough Sample.bare Sample.loaded ⟨0⟩ nm? ↔
        ((∃ version nm,
            RevivesVersion Sample.bare Sample.loaded ⟨0⟩ version nm) →
          ∃ version nm,
            IsLeast {v | Passes Sample.bare Sample.loaded ⟨0⟩ v} version ∧
              RevivesVersion Sample.bare Sample.loaded ⟨0⟩ version nm)) :=
  revive_first_passing Sample.load_eq ⟨rfl, rfl, rfl, rfl⟩
    (by decide +kernel) (by decide +kernel) 0

theorem not_fallsThrough_without_globals :
    ∃ s, revive Sample.bare 0 ⟨0⟩ optimizingLevel Sample.loaded = .ok none s ∧
      (∃ nm, RevivesVersion Sample.bare Sample.loaded ⟨0⟩ 1 nm) ∧
      ¬ FallsThrough Sample.bare Sample.loaded ⟨0⟩ none := by
  have hnone : okWith Option.isNone
      (revive Sample.bare 0 ⟨0⟩ optimizingLevel Sample.loaded) = true := by
    decide +kernel
  rcases Sample.second_isRevived with ⟨nm, hsecond⟩
  have hnot : ¬ FallsThrough Sample.bare Sample.loaded ⟨0⟩ none := by
    intro hfalls
    rcases exists_isLeast (p := fun v =>
      ∃ nm, RevivesVersion Sample.bare Sample.loaded ⟨0⟩ v nm)
      ⟨nm, hsecond⟩ with ⟨first, hfirst⟩
    rcases hfirst.1 with ⟨nm', hrevives⟩
    cases (hfalls nm').mpr ⟨first, hfirst, hrevives⟩
  rcases of_okWith hnone with ⟨nm?, s, hrun, hnone⟩
  rw [Option.isNone_iff_eq_none.mp hnone] at hrun
  exact ⟨s, hrun, ⟨nm, hsecond⟩, hnot⟩

end CodeCache.Cache
