import CodeCache.Code.Assembler
import CodeCache.Host.World
import CodeCache.Proofs.Cache.History
import CodeCache.Proofs.Host.Changes
import CodeCache.Proofs.Store.Finding

/-!
# Revived code is justified by the process at hand

Whatever file was loaded and whatever happened before, a revive answers code
whose every name, dependency and speculation was checked against the present
host.
-/

namespace CodeCache

/-!
## What reviving leaves alone
-/

/-- A cache that differs from another one only in what its metaspace remembers
and in what the process counts and rules out. -/
structure Cache.Follows (host : Host) (seen : MetaKey → Entity → Prop) (c s : Cache) :
    Prop where
  options_eq : s.options = c.options
  epoch_eq : s.epoch = c.epoch
  container_eq : s.container = c.container
  containers_eq :
    s.file.map (·.containers) = c.file.map (·.containers)
  keys_eq : s.file.map (·.space.keys) = c.file.map (·.space.keys)
  sound : ∀ file, s.file = some file →
    ∀ entry ∈ file.space.entries, entry.Sound host c.epoch seen

namespace Cache

variable {host : Host} {seen : MetaKey → Entity → Prop} {c s : Cache}

theorem Follows.refl
    (hsound : ∀ file, c.file = some file →
      ∀ entry ∈ file.space.entries, entry.Sound host c.epoch seen) :
    Follows host seen c c :=
  ⟨rfl, rfl, rfl, rfl, rfl, hsound⟩

theorem Follows.of_same {s' : Cache} (h : Follows host seen c s)
    (hoptions : s'.options = s.options) (hepoch : s'.epoch = s.epoch)
    (hcontainer : s'.container = s.container) (hfile : s'.file = s.file) :
    Follows host seen c s' := by
  constructor
  · rw [hoptions, h.options_eq]
  · rw [hepoch, h.epoch_eq]
  · rw [hcontainer, h.container_eq]
  · rw [hfile, h.containers_eq]
  · rw [hfile, h.keys_eq]
  · rw [hfile]
    exact h.sound

theorem Follows.disable (h : Follows host seen c s) (m : MethodId) :
    Follows host seen c (s.disable m) := by
  unfold Cache.disable
  split
  · exact h
  · exact h.of_same rfl rfl rfl rfl

theorem Follows.ruleOut (h : Follows host seen c s) (m : MethodId)
    (versions : List Nat) :
    Follows host seen c (s.ruleOut m versions) := by
  unfold Cache.ruleOut
  split
  · exact h
  · exact h.of_same rfl rfl rfl rfl

theorem Follows.countRevive (h : Follows host seen c s)
    (status : ReviveStatus) :
    Follows host seen c (s.countRevive status) :=
  h.of_same rfl rfl rfl rfl

theorem of_active? {file : CacheFile} {container : Container}
    (h : c.active? = some (file, container)) :
    c.file = some file ∧
      ∃ i, c.container = some i ∧ file.containers[i]? = some container := by
  unfold active? at h
  cases hfile : c.file with
  | none =>
      rw [hfile] at h
      cases h
  | some loaded =>
      cases hplace : c.container with
      | none =>
          rw [hfile, hplace] at h
          cases h
      | some i =>
          rw [hfile, hplace] at h
          change (loaded.containers[i]?.bind fun x => some (loaded, x)) = _ at h
          cases hat : loaded.containers[i]? with
          | none =>
              rw [hat] at h
              cases h
          | some found =>
              rw [hat] at h
              cases h
              exact ⟨rfl, i, rfl, hat⟩

theorem Follows.active? (h : Follows host seen c s) {file : CacheFile}
    {container : Container} (hactive : s.active? = some (file, container)) :
    ∃ loaded, c.active? = some (loaded, container) ∧
      loaded.space.keys = file.space.keys := by
  rcases of_active? hactive with ⟨hfile, i, hplace, hat⟩
  have hcontainers := h.containers_eq
  have hkeys := h.keys_eq
  rw [hfile] at hcontainers hkeys
  cases hloaded : c.file with
  | none =>
      rw [hloaded] at hkeys
      cases hkeys
  | some loaded =>
      rw [hloaded] at hcontainers hkeys
      have hsame : loaded.containers = file.containers :=
        (Option.some.inj hcontainers).symm
      refine ⟨loaded, ?_, (Option.some.inj hkeys).symm⟩
      unfold Cache.active?
      rw [hloaded, ← h.container_eq, hplace]
      change (loaded.containers[i]?.bind fun x => some (loaded, x)) = _
      rw [hsame, hat]
      rfl

theorem inSpace_ensures {α : Type} (hs : Follows host seen c s)
    {file : CacheFile} (hfile : s.file = some file) {work : InSpace α}
    {Q : α → Prop}
    (h : Ensures (MetaSpace.Sound host c.epoch seen file.space.keys) work Q) :
    Ensures (Follows host seen c) (inSpace file work) Q := by
  have hspace : MetaSpace.Sound host c.epoch seen file.space.keys file.space :=
    ⟨rfl, hs.sound file hfile⟩
  have hkeep : ∀ space,
      MetaSpace.Sound host c.epoch seen file.space.keys space →
      ∀ s', Follows host seen c s' →
      Follows host seen c { s' with file := some { file with space } } := by
    intro space hsound s' hs'
    refine ⟨hs'.options_eq, hs'.epoch_eq, hs'.container_eq, ?_, ?_, ?_⟩
    · rw [← hs.containers_eq, hfile]
      rfl
    · rw [← hs.keys_eq, hfile]
      exact congrArg some hsound.keys_eq
    · intro file' hfile' entry hentry
      cases hfile'
      exact hsound.entries_sound entry hentry
  intro s' hs'
  unfold inSpace
  cases hrun : work file.space with
  | ok a space =>
      rcases h.ok_and_post hspace hrun with ⟨hsound, ha⟩
      exact ⟨hkeep space hsound s' hs', ha⟩
  | error e space =>
      exact hkeep space (h.inv_of_error hspace hrun) s' hs'

end Cache

/-!
## What is rebuilt
-/

theorem Blob.of_revive {ctx : ReviveContext} {resolved : Resolved} {b : Blob}
    {nm : CompiledMethod} (h : b.revive ctx resolved = .ok nm) :
    nm.metadata = resolved.metadata ∧ nm.oops = resolved.oops ∧
      b.dependencies = .ok nm.dependencies ∧
      b.speculations = .ok nm.speculations := by
  unfold revive at h
  rcases of_bind_eq_ok h with ⟨_, -, h⟩
  rcases of_bind_eq_ok h with ⟨_, -, h⟩
  rcases of_bind_eq_ok h with ⟨_, -, h⟩
  rcases of_bind_eq_ok h with ⟨dependencies, hdependencies, h⟩
  rcases of_bind_eq_ok h with ⟨speculations, hspeculations, h⟩
  cases h
  exact ⟨rfl, rfl, hdependencies, hspeculations⟩

def CompiledMethod.RefersTo (nm : CompiledMethod) (e : Entity) : Prop :=
  some e ∈ nm.metadata ∨ ∃ k, e = .klass k ∧ some (.mirror k) ∈ nm.oops

/-- The code of a method, rebuilt from a blob of its chain and justified. Whether
the entities in its arrays are live is for `seen` to say. -/
structure RevivedFrom (host : Host) (seen : MetaKey → Entity → Prop) (c : Cache)
    (keys : List MetaKey) (container : Container) (m : MethodId) (b : Blob)
    (nm : CompiledMethod) : Prop where
  chained : ∃ entry ∈ container.table.entries, ∃ head key,
    0 ≤ entry.codeOffset ∧ entry.codeOffset.toUInt32 = head ∧
      keys[entry.metaIndex.toUInt32.toNat]? = some key ∧
      MetaKey.of host (.method m) = .ok key ∧
      .ok b ∈ container.code.versions head
  rebuilt : ∃ resolved, b.revive (c.reviveContext host m) resolved = .ok nm
  entities : ∃ records, TagStream.decode b.tagMeta = .ok records ∧
    List.Forall₂ ((c.reviveContext host m).NamesEntity seen keys)
      records nm.metadata
  objects : ∃ records, TagStream.decode b.tagOop = .ok records ∧
    List.Forall₂ ((c.reviveContext host m).NamesObject seen keys)
      records nm.oops
  dependencies : ∀ d ∈ nm.dependencies, d.holds host nm.metadata = .ok true
  speculations : ∀ r ∈ nm.speculations, ∃ score,
    r.score { metas := nm.metadata, host, costs := c.options.costs } = .ok score
  constants : c.options.disableConstantOpt = true →
    ∀ r ∈ nm.speculations, r.isConstantReplace = false

theorem forall₂_imp_of_mem {α β : Type} {R S : α → β → Prop} {as : List α}
    {bs : List β} (h : List.Forall₂ R as bs)
    (himp : ∀ a, ∀ b ∈ bs, R a b → S a b) :
    List.Forall₂ S as bs := by
  have hmem := (List.forall₂_and_left _ _).mpr ⟨fun b (hb : b ∈ bs) => hb, h.flip⟩
  refine hmem.flip.imp ?_
  intro a b hab
  exact himp a b hab.1 hab.2

theorem RevivedFrom.mono {host : Host} {seen seen' : MetaKey → Entity → Prop}
    {c : Cache} {keys : List MetaKey} {container : Container} {m : MethodId}
    {b : Blob} {nm : CompiledMethod}
    (h : RevivedFrom host seen c keys container m b nm)
    (hseen : ∀ e, nm.RefersTo e → ∀ key, seen key e → seen' key e) :
    RevivedFrom host seen' c keys container m b nm where
  chained := h.chained
  rebuilt := h.rebuilt
  entities := by
    rcases h.entities with ⟨records, hdecode, hnames⟩
    refine ⟨records, hdecode, forall₂_imp_of_mem hnames ?_⟩
    intro record e? he hrecord
    refine hrecord.mono ?_
    rintro e rfl
    exact hseen e (Or.inl he)
  objects := by
    rcases h.objects with ⟨records, hdecode, hnames⟩
    refine ⟨records, hdecode, forall₂_imp_of_mem hnames ?_⟩
    intro record o? ho hrecord
    refine hrecord.mono ?_
    rintro k rfl
    exact hseen (.klass k) (Or.inr ⟨k, rfl, ho⟩)
  dependencies := h.dependencies
  speculations := h.speculations
  constants := h.constants

namespace Cache

variable {host : Host} {seen : MetaKey → Entity → Prop} {c s : Cache}

def Justifies (host : Host) (seen : MetaKey → Entity → Prop) (c : Cache) (m : MethodId)
    (nm : CompiledMethod) : Prop :=
  ∃ file container b, c.active? = some (file, container) ∧
    RevivedFrom host seen c file.space.keys container m b nm

theorem Justifies.mono {seen' : MetaKey → Entity → Prop} {m : MethodId}
    {nm : CompiledMethod} (h : c.Justifies host seen m nm)
    (hseen : ∀ e, nm.RefersTo e → ∀ key, seen key e → seen' key e) :
    c.Justifies host seen' m nm := by
  rcases h with ⟨file, container, b, hactive, hrevived⟩
  exact ⟨file, container, b, hactive, hrevived.mono hseen⟩

theorem Justifies.exists_key {m : MethodId} {nm : CompiledMethod}
    (h : c.Justifies host seen m nm) {e : Entity} (he : some e ∈ nm.metadata)
    (hne : e ≠ .method m) :
    ∃ key, seen key e := by
  rcases h with ⟨file, container, b, -, hrevived⟩
  rcases hrevived.entities with ⟨records, -, hnames⟩
  have hboth := hnames.flip.imp
    fun e? record hrecord => And.intro (Exists.intro record hrecord) hrecord
  rcases ((List.forall₂_and_left _ _).mp hboth).1 _ he with ⟨record, hrecord⟩
  exact hrecord.exists_key hne

theorem of_find {m : MethodId} {status : ReviveStatus} {head : UInt32}
    {file : CacheFile} {container : Container}
    (hactive : c.active? = some (file, container))
    (h : c.find host m = .ok (status, some head)) :
    ∃ entry ∈ container.table.entries, ∃ key,
      0 ≤ entry.codeOffset ∧ entry.codeOffset.toUInt32 = head ∧
        file.space.keys[entry.metaIndex.toUInt32.toNat]? = some key ∧
        MetaKey.of host (.method m) = .ok key := by
  unfold find at h
  rw [hactive] at h
  dsimp only at h
  cases hkey : MetaKey.of host (.method m) with
  | error e =>
      rw [hkey] at h
      dsimp only at h
      split at h <;> cases h
  | ok key =>
      rw [hkey] at h
      rcases Container.of_find h with ⟨entry, hentry, hcode, hhead, hat⟩
      exact ⟨entry, hentry, key, hcode, hhead, hat, rfl⟩

theorem Follows.justifies (h : Follows host seen c s) {m : MethodId}
    {status : ReviveStatus} {head : UInt32} {file : CacheFile}
    {container : Container} (hactive : s.active? = some (file, container))
    (hfind : s.find host m = .ok (status, some head)) {b : Blob}
    (hb : .ok b ∈ container.code.versions head) {state : VersionState}
    (hpassed : Selection.Passed (c.reviveContext host m) c.options seen
      file.space.keys b state) {nm : CompiledMethod}
    (hrevive : b.revive (c.reviveContext host m) state.resolved = .ok nm) :
    c.Justifies host seen m nm := by
  rcases h.active? hactive with ⟨loaded, hloaded, hkeys⟩
  rcases of_find hactive hfind with
    ⟨entry, hentry, key, hcode, hhead, hat, hkey⟩
  rcases Blob.of_revive hrevive with ⟨hmetas, hoops, hdeps, hopts⟩
  rcases hpassed.accepted.scored with ⟨rs, hrs, hconstants, hscores⟩
  rcases hpassed.prepared.held with ⟨ds, hds, hholds⟩
  rw [hopts] at hrs
  cases hrs
  rw [hdeps] at hds
  cases hds
  refine ⟨loaded, container, b, hloaded, ?_⟩
  rw [hkeys]
  constructor
  · exact ⟨entry, hentry, head, key, hcode, hhead, hat, hkey, hb⟩
  · exact ⟨state.resolved, hrevive⟩
  · rw [hmetas]
    exact hpassed.accepted.named
  · rw [hoops]
    exact hpassed.prepared.named
  · rw [hmetas]
    exact hholds
  · rw [hmetas]
    exact hscores
  · exact hconstants

/-!
## Reviving
-/

theorem Follows.context_eq (h : Follows host seen c s) (m : MethodId) :
    s.reviveContext host m = c.reviveContext host m := by
  unfold reviveContext
  rw [h.epoch_eq]

theorem install_ensures {m : MethodId} {status : ReviveStatus} {head : UInt32}
    {file : CacheFile} {container : Container} (hs : Follows host seen c s)
    (hactive : s.active? = some (file, container))
    (hfind : s.find host m = .ok (status, some head)) {b : Blob}
    (hb : .ok b ∈ container.code.versions head) {state : VersionState}
    (hpassed : Selection.Passed (c.reviveContext host m) c.options seen
      file.space.keys b state) :
    Ensures (Follows host seen c) (install host m container state)
      (fun answer => ∀ nm, answer.2 = some nm → c.Justifies host seen m nm) := by
  have hnothing : Ensures (Follows host seen c)
      (pure (ReviveStatus.fail, none) : InCache _)
      (fun answer : ReviveStatus × Option CompiledMethod =>
        ∀ nm, answer.2 = some nm → c.Justifies host seen m nm) := by
    refine Ensures.of_pure ?_
    intro nm hnm
    cases hnm
  have hfinish : ∀ s', Follows host seen c s' →
      Ensures (Follows host seen c)
        (do
          let nm ← ofExcept (b.revive (reviveContext host s' m) state.resolved)
          return (ReviveStatus.success, some nm) : InCache _)
        (fun answer => ∀ nm, answer.2 = some nm →
          c.Justifies host seen m nm) := by
    intro s' hs'
    rw [hs'.context_eq m]
    refine (Ensures.of_ofExcept
      (Q := fun nm => c.Justifies host seen m nm) ?_).of_bind ?_
    · intro nm hrevive
      exact hs.justifies hactive hfind hb hpassed hrevive
    · intro nm hjustified
      refine Ensures.of_pure ?_
      intro nm' hnm'
      cases hnm'
      exact hjustified
  unfold install
  refine Ensures.of_get.of_bind ?_
  intro s' hs'
  refine (Ensures.of_ofExcept (Q := fun found => found = b) ?_).of_bind ?_
  · intro found hfound
    rw [hpassed.offset_eq, CodeSpace.blob_of_mem_versions hb] at hfound
    cases hfound
    rfl
  intro found hfound
  rw [hfound]
  refine Ensures.of_ite (fun _ => hnothing) fun _ => ?_
  refine Ensures.of_ite ?_ ?_
  · intro _
    refine (Ensures.of_ofExcept (Q := fun _ => True)
      fun _ _ => trivial).of_bind ?_
    intro changed _
    refine Ensures.of_ite (fun _ => hnothing) fun _ => ?_
    exact Ensures.of_ite (fun _ => hnothing) fun _ => hfinish s' hs'
  · intro _
    exact Ensures.of_ite (fun _ => hnothing) fun _ => hfinish s' hs'

theorem reviveMethod_ensures (hseen : ∀ key e, host.Finds key e → seen key e) (draw : Nat)
    (m : MethodId) :
    Ensures (Follows host seen c) (reviveMethod host draw m)
      (fun answer => ∀ nm, answer.2 = some nm → c.Justifies host seen m nm) := by
  unfold reviveMethod
  refine Ensures.of_get.of_bind ?_
  intro s hs
  refine (Ensures.of_ofExcept
    (Q := fun answer => s.find host m = .ok answer) fun _ h => h).of_bind ?_
  rintro ⟨status, head?⟩ hfind
  have hnothing : ∀ status : ReviveStatus, Ensures (Follows host seen c)
      (pure (status, none) : InCache _)
      (fun answer : ReviveStatus × Option CompiledMethod =>
        ∀ nm, answer.2 = some nm → c.Justifies host seen m nm) := by
    intro status
    refine Ensures.of_pure ?_
    intro nm hnm
    cases hnm
  cases head? with
  | none => exact hnothing status
  | some head =>
      cases hactive : s.active? with
      | none => exact hnothing status
      | some used =>
          rcases used with ⟨file, container⟩
          dsimp only
          have hfile := (of_active? hactive).1
          rw [hs.context_eq m, hs.options_eq]
          let ctx := c.reviveContext host m
          have hselect : Ensures
              (MetaSpace.Sound ctx.host ctx.epoch seen file.space.keys)
              (Selection.select ctx c.options container.code head
                (fun v => !(s.ruledOut m).contains v) draw)
              (fun selection => ∀ state, selection.selected = some state →
                ∃ b, .ok b ∈ container.code.versions head ∧
                  Selection.Passed ctx c.options seen file.space.keys b state) :=
            Selection.select_ensures hseen _ _ _ _
          refine (inSpace_ensures hs hfile hselect).of_bind ?_
          intro selection hselection
          refine (Ensures.of_modify
            fun s' hs' => Follows.ruleOut hs' m selection.unusable).of_bind ?_
          intro _ _
          have hdisable : ∀ rest : InCache (ReviveStatus × Option CompiledMethod),
              Ensures (Follows host seen c) rest
                (fun answer => ∀ nm, answer.2 = some nm → c.Justifies host seen m nm) →
              Ensures (Follows host seen c)
                (if selection.disable then modify (·.disable m) >>= fun _ => rest
                  else rest)
                (fun answer => ∀ nm, answer.2 = some nm →
                  c.Justifies host seen m nm) := by
            intro rest hrest
            refine Ensures.of_ite ?_ fun _ => hrest
            intro _
            exact (Ensures.of_modify
              fun s' hs' => Follows.disable hs' m).of_bind fun _ _ => hrest
          cases hselected : selection.selected with
          | none => exact hdisable _ (hnothing .fail)
          | some state =>
              rcases hselection state hselected with ⟨b, hb, hpassed⟩
              exact hdisable _ (install_ensures hs hactive hfind hb hpassed)

theorem revive_ensures (hseen : ∀ key e, host.Finds key e → seen key e) (draw : Nat)
    (m : MethodId) (level : UInt32) :
    Ensures (Follows host seen c) (revive host draw m level)
      (fun nm? => ∀ nm, nm? = some nm → c.Justifies host seen m nm) := by
  have hnothing : Ensures (Follows host seen c) (pure none : InCache _)
      (fun nm? => ∀ nm, nm? = some nm → c.Justifies host seen m nm) := by
    refine Ensures.of_pure ?_
    intro nm hnm
    cases hnm
  unfold revive
  refine Ensures.of_get.of_bind ?_
  intro s hs
  refine Ensures.of_ite (fun _ => hnothing) fun _ => ?_
  refine (reviveMethod_ensures hseen draw m).of_attempt.of_bind ?_
  intro result hresult
  cases result with
  | error e =>
      dsimp only
      refine (Ensures.of_modify
        fun s' hs' => Follows.countRevive hs' .fail).of_bind ?_
      intro _ _
      exact Ensures.of_ite (fun _ => Ensures.of_throw e) fun _ => hnothing
  | ok answer =>
      rcases answer with ⟨status, nm?⟩
      dsimp only
      refine (Ensures.of_modify
        fun s' hs' => Follows.countRevive hs' status).of_bind ?_
      intro _ _
      exact Ensures.of_check fun _ =>
        Ensures.of_pure (hresult (status, nm?) rfl)

theorem reviveVersion_ensures (hseen : ∀ key e, host.Finds key e → seen key e)
    (m : MethodId) (version : Nat) :
    Ensures (Follows host seen c) (reviveVersion host m version)
      (c.Justifies host seen m) := by
  unfold reviveVersion
  refine Ensures.of_get.of_bind ?_
  intro s hs
  refine (Ensures.of_ofExcept
    (Q := fun answer => s.find host m = .ok answer) fun _ h => h).of_bind ?_
  rintro ⟨status, head?⟩ hfind
  cases head? with
  | none => exact Ensures.of_throw _
  | some head =>
      cases hactive : s.active? with
      | none => exact Ensures.of_throw _
      | some used =>
          rcases used with ⟨file, container⟩
          dsimp only
          cases hversion : (container.code.versions head)[version]? with
          | none => exact Ensures.of_throw _
          | some blob =>
              dsimp only
              refine (Ensures.of_ofExcept
                (Q := fun b => blob = .ok b) fun _ h => h).of_bind ?_
              intro b hblob
              have hb : .ok b ∈ container.code.versions head := by
                rw [← hblob]
                exact List.mem_of_getElem? hversion
              rw [hs.context_eq m, hs.options_eq]
              let ctx := c.reviveContext host m
              have hcheck : Ensures
                  (MetaSpace.Sound ctx.host ctx.epoch seen file.space.keys)
                  (Selection.checkBlob ctx c.options version b)
                  (fun state => state.isValid = true →
                    Selection.Passed ctx c.options seen file.space.keys b
                      state) :=
                Selection.checkBlob_ensures hseen version b
              refine (inSpace_ensures hs (of_active? hactive).1 hcheck).of_bind ?_
              intro state hstate
              refine Ensures.of_check ?_
              intro hvalid
              have hpassed := hstate (by simpa using hvalid)
              exact Ensures.of_ofExcept fun nm hrevive =>
                hs.justifies hactive hfind hb hpassed hrevive

end Cache

/-!
## Histories
-/

namespace Process

variable {p q : Process}

theorem start_sound (host : Host) (o : Options) (roll : Nat) :
    (start host o roll).Sound := by
  constructor
  · intro key e he
    exact he
  · intro file hfile
    cases hfile
  · intro _ file hfile
    cases hfile

theorem Sound.of_reloaded (hp : p.Sound) {s : Cache}
    (hs : p.cache.Reloaded s) :
    (p.withCache s).Sound := by
  rcases hs with ⟨hepoch, hsame | ⟨loaded, hloaded, hfresh⟩⟩
  · constructor
    · exact hp.finds_seen
    · intro file hfile
      change s.file = some file at hfile
      rw [hsame] at hfile
      show ∀ entry ∈ file.space.entries, entry.Stamped s.epoch p.seen
      rw [hepoch]
      exact hp.stamped file hfile
    · intro hready file hfile
      change s.file = some file at hfile
      rw [hsame] at hfile
      show ∀ entry ∈ file.space.entries, entry.Sound p.host s.epoch p.seen
      rw [hepoch]
      exact hp.sound hready file hfile
  · constructor
    · exact hp.finds_seen
    · intro file hfile
      change s.file = some file at hfile
      rw [hloaded] at hfile
      cases hfile
      intro entry hentry
      exact (hfresh.sound p.host s.epoch p.seen entry hentry).toStamped
    · intro _ file hfile
      change s.file = some file at hfile
      rw [hloaded] at hfile
      cases hfile
      exact hfresh.sound p.host s.epoch p.seen

theorem Sound.follows (hp : p.Sound) (hready : p.pending = false) :
    p.cache.Follows p.host p.seen p.cache :=
  Cache.Follows.refl (hp.sound hready)

theorem Sound.of_follows (hp : p.Sound) {s : Cache}
    (hs : p.cache.Follows p.host p.seen s) :
    (p.withCache s).Sound := by
  have hsound : ∀ file, s.file = some file →
      ∀ entry ∈ file.space.entries, entry.Sound p.host s.epoch p.seen := by
    rw [hs.epoch_eq]
    exact hs.sound
  constructor
  · exact hp.finds_seen
  · intro file hfile entry hentry
    exact (hsound file hfile entry hentry).toStamped
  · intro _
    exact hsound

theorem Sound.of_step (hp : p.Sound) (h : Step p q) : q.Sound := by
  cases h with
  | evolve host hsame =>
      constructor
      · intro key e he
        exact Or.inr he
      · intro file hfile entry hentry
        exact (hp.stamped file hfile entry hentry).mono
          fun _ _ he => Or.inl he
      · intro hready file hfile entry hentry
        exact (hp.sound hready file hfile entry hentry).of_same
          (fun _ _ he => Or.inl he) hsame
  | redefine host =>
      constructor
      · intro key e he
        exact Or.inr he
      · intro file hfile entry hentry
        exact (hp.stamped file hfile entry hentry).mono
          fun _ _ he => Or.inl he
      · intro hready
        cases hready
  | announce =>
      have hsound : ∀ file, p.cache.file = some file →
          ∀ entry ∈ file.space.entries,
            entry.Sound p.host p.cache.epoch.advance p.seen := by
        intro file hfile entry hentry
        exact (hp.stamped file hfile entry hentry).sound_advance p.host
      constructor
      · exact hp.finds_seen
      · intro file hfile entry hentry
        exact (hsound file hfile entry hentry).toStamped
      · intro _
        exact hsound
  | load files =>
      exact hp.of_reloaded (InCache.inv_after
        (Cache.load_ensures p.host files p.cache) (.refl p.cache))
  | revive hready draw m level =>
      exact hp.of_follows (InCache.inv_after
        (Cache.revive_ensures hp.finds_seen draw m level) (hp.follows hready))
  | reviveVersion hready m version =>
      exact hp.of_follows (InCache.inv_after
        (Cache.reviveVersion_ensures hp.finds_seen m version)
        (hp.follows hready))
  | disable m =>
      exact hp.of_reloaded (p.cache.disable_reloaded m)
  | save files methods =>
      exact hp.of_reloaded (InCache.inv_after
        (Cache.save_ensures p.host files methods p.cache) (.refl p.cache))
  | merge files =>
      exact hp.of_reloaded (InCache.inv_after
        (Cache.merge_ensures p.host files p.cache) (.refl p.cache))

theorem Reachable.sound (h : Reachable p) : p.Sound := by
  induction h with
  | start host o roll => exact start_sound host o roll
  | step _ hstep ih => exact ih.of_step hstep

/-!
An entry that was resolved is not looked up again while its entity keeps the
identity and the loader of the key. So code may refer to an entity that the process
has lost in the meantime.
-/

/-- An entity that its key once led to, and does not any more: it was unloaded, or
another one took its name. -/
def Lost (p : Process) (key : MetaKey) (e : Entity) : Prop :=
  p.seen key e ∧ ¬ p.host.Finds key e

/-- In every history in which redefinitions are announced before the next revive,
revived code is justified by the process as it is now, and its keys still lead to
what it refers to, unless that was lost. -/
theorem revive_justified (h : Reachable p) (hready : p.pending = false)
    {draw : Nat} {m : MethodId} {level : UInt32} {nm : CompiledMethod}
    {s : Cache}
    (hrevive : Cache.revive p.host draw m level p.cache = .ok (some nm) s) :
    p.cache.Justifies p.host (fun key e => p.host.Finds key e ∨ p.Lost key e) m nm ∧
      ((∀ e, nm.RefersTo e → ∀ key, ¬ p.Lost key e) →
        p.cache.Justifies p.host p.host.Finds m nm) := by
  have hseen : p.cache.Justifies p.host p.seen m nm :=
    ((Cache.revive_ensures h.sound.finds_seen draw m level).ok_and_post
      (h.sound.follows hready) hrevive).2 nm rfl
  have hnamed : p.cache.Justifies p.host
      (fun key e => p.host.Finds key e ∨ p.Lost key e) m nm := by
    refine hseen.mono ?_
    intro e _ key he
    by_cases hfinds : p.host.Finds key e
    · exact Or.inl hfinds
    · exact Or.inr ⟨he, hfinds⟩
  refine ⟨hnamed, ?_⟩
  intro hkept
  refine hnamed.mono ?_
  intro e hrefers key he
  exact he.resolve_right (hkept e hrefers key)

/-!
A process saves a method which refers to the class `B` and assumes that it has no
finalizable subclasses. Another one loads the file and revives the method. It does
so again after `C` was redefined, and also after `B` was unloaded.
-/

namespace Sample

def world : World :=
  let (w, a) := (World.empty 0).defineClass { name := "A", loader := .app }
  let (w, _) := w.defineClass { name := "B", loader := .app }
  let (w, _) := w.defineClass { name := "C", loader := .boot }
  (w.defineMethod a "f" "()V").1

def code : CompiledMethod :=
  let nm := Assembler.nops (Assembler.start world.host ⟨0⟩) 8
  let nm := Assembler.metadata nm world.host (.klass ⟨1⟩) true
  Assembler.dependency nm .noFinalizableSubclasses [.klass ⟨1⟩]

def files : FileTree :=
  match Cache.save world.host {} [code] (Cache.start (.forSave "a") 0) with
  | .ok (_, files) _ => files
  | .error _ _ => {}

def loaded : Process :=
  let p := start world.host (.forRestore "a") 0
  p.withCache (InCache.after (Cache.load p.host files) p.cache)

def revived : Process :=
  loaded.withCache (InCache.after
    (Cache.revive loaded.host 0 ⟨0⟩ optimizingLevel) loaded.cache)

def announce (p : Process) : Process :=
  { p.withCache p.cache.redefined with pending := false }

def redefined : Process :=
  { revived.withHost (world.redefineClass ⟨2⟩ 7).host with pending := true }

def unloaded : Process :=
  revived.withHost (world.unloadClass ⟨1⟩).host

theorem revived_reachable : Reachable revived :=
  ((Reachable.start _ _ _).step (.load _ files)).step (.revive _ rfl 0 ⟨0⟩ _)

theorem redefined_reachable : Reachable (announce redefined) :=
  (revived_reachable.step (.redefine _ _)).step (.announce _)

theorem unloaded_reachable : Reachable (announce unloaded) := by
  refine (revived_reachable.step (.evolve _ _ ?_)).step (.announce _)
  intro key e _
  exact ⟨world.entityIdentity_unloadClass ⟨1⟩ e, world.entityLoader_unloadClass ⟨1⟩ e⟩

theorem not_lost_redefined (key : MetaKey) (e : Entity) :
    ¬ (announce redefined).Lost key e := by
  rintro ⟨hseen, hlost⟩
  rcases hseen with hbefore | hnow
  · exact hlost (World.finds_redefineClass_iff.mpr hbefore)
  · exact hlost hnow

theorem not_finds_unloaded (key : MetaKey) :
    ¬ (announce unloaded).host.Finds key (.klass ⟨1⟩) :=
  World.not_finds_unloadClass (by decide +kernel) key

theorem not_mem_subclasses_unloaded (c : ClassId) :
    ⟨1⟩ ∉ (announce unloaded).host.subclasses c :=
  world.not_mem_subclasses_unloadClass ⟨1⟩ c

end Sample

theorem revive_justified_after_redefinition :
    ∃ nm s, Cache.revive (Sample.announce Sample.redefined).host 0 ⟨0⟩
        optimizingLevel (Sample.announce Sample.redefined).cache =
          .ok (some nm) s ∧
      (Sample.announce Sample.redefined).cache.Justifies
        (Sample.announce Sample.redefined).host
        (Sample.announce Sample.redefined).host.Finds ⟨0⟩ nm := by
  have hanswer : okWith Option.isSome (Cache.revive
      (Sample.announce Sample.redefined).host 0 ⟨0⟩ optimizingLevel
      (Sample.announce Sample.redefined).cache) = true := by
    decide +kernel
  rcases of_okWith hanswer with ⟨nm?, s, hrun, hsome⟩
  rcases Option.isSome_iff_exists.mp hsome with ⟨nm, rfl⟩
  refine ⟨nm, s, hrun, ?_⟩
  exact (revive_justified Sample.redefined_reachable rfl hrun).2
    fun e _ key => Sample.not_lost_redefined key e

/-- No key leads to `B` any more and no class has it as a subclass, and code that
refers to it is revived. -/
theorem revive_not_justified_after_unloading :
    Reachable (Sample.announce Sample.unloaded) ∧
      (Sample.announce Sample.unloaded).pending = false ∧
      (∀ key, ¬ (Sample.announce Sample.unloaded).host.Finds key (.klass ⟨1⟩)) ∧
      (∀ c, ⟨1⟩ ∉ (Sample.announce Sample.unloaded).host.subclasses c) ∧
      ∃ nm s, Cache.revive (Sample.announce Sample.unloaded).host 0 ⟨0⟩
          optimizingLevel (Sample.announce Sample.unloaded).cache =
            .ok (some nm) s ∧
        some (.klass ⟨1⟩) ∈ nm.metadata ∧
        ¬ (Sample.announce Sample.unloaded).cache.Justifies
          (Sample.announce Sample.unloaded).host
          (Sample.announce Sample.unloaded).host.Finds ⟨0⟩ nm := by
  refine ⟨Sample.unloaded_reachable, rfl, Sample.not_finds_unloaded,
    Sample.not_mem_subclasses_unloaded, ?_⟩
  have hanswer : okWith (Option.any fun nm : CompiledMethod =>
      nm.metadata.contains (some (.klass ⟨1⟩))) (Cache.revive
        (Sample.announce Sample.unloaded).host 0 ⟨0⟩ optimizingLevel
        (Sample.announce Sample.unloaded).cache) = true := by
    decide +kernel
  rcases of_okWith hanswer with ⟨nm?, s, hrun, hany⟩
  rcases (Option.any_eq_true _ _).mp hany with ⟨nm, rfl, hcontains⟩
  have hmem := List.contains_iff_mem.mp hcontains
  refine ⟨nm, s, hrun, hmem, ?_⟩
  intro hjustified
  rcases hjustified.exists_key hmem nofun with ⟨key, hfinds⟩
  exact Sample.not_finds_unloaded key hfinds

end Process

end CodeCache
