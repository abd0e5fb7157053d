import CodeCache.Proofs.Cache.Attempts
import CodeCache.Proofs.Cache.Justified
import CodeCache.Proofs.Cache.Loading
import CodeCache.Proofs.Selection.Choosing

/-!
# Revives in a fixed host

As long as nothing happens to the host, attempts leave traces in a cache that
change nothing: the metaspace remembers what its keys lead to anyway, and a
version that is ruled out would not have passed its checks anyway. So every
attempt comes to what it would have come to right after the file was loaded.
-/

namespace CodeCache

namespace Cache

variable {host : Host} {c s : Cache} {file : CacheFile} {m : MethodId}

/-!
## What attempts leave behind
-/

def Fails (host : Host) (c : Cache) (file : CacheFile) (m : MethodId)
    (version : Nat) : Prop :=
  ∀ b, (c.chain host m)[version]? = some (.ok b) → ∀ state,
    Selection.Checks (c.reviveContext host m) c.options file.space.keys version
      b state → state.isValid = false

/-- A cache that only attempts to revive methods have changed since it loaded
the file. -/
structure Undisturbed (host : Host) (c : Cache) (file : CacheFile) (s : Cache) :
    Prop where
  options_eq : s.options = c.options
  isSampled_eq : s.isSampled = c.isSampled
  epoch_eq : s.epoch = c.epoch
  container_eq : s.container = c.container
  file_eq : ∃ space, s.file = some { file with space } ∧
    space.Leads host file.space.keys
  ruledOut : ∀ m version, version ∈ s.ruledOut m → Fails host c file m version
  disabled : ∀ m, s.isDisabled m = true → ∀ version, Fails host c file m version

namespace Undisturbed

theorem context_eq (h : Undisturbed host c file s) (m : MethodId) :
    s.reviveContext host m = c.reviveContext host m := by
  unfold reviveContext
  rw [h.epoch_eq]

theorem of_same {s' : Cache} (h : Undisturbed host c file s)
    (hoptions : s'.options = s.options) (hsampled : s'.isSampled = s.isSampled)
    (hepoch : s'.epoch = s.epoch) (hcontainer : s'.container = s.container)
    (hfile : s'.file = s.file) (hunusable : s'.unusable = s.unusable)
    (hdisabled : s'.disabled = s.disabled) :
    Undisturbed host c file s' := by
  constructor
  · rw [hoptions, h.options_eq]
  · rw [hsampled, h.isSampled_eq]
  · rw [hepoch, h.epoch_eq]
  · rw [hcontainer, h.container_eq]
  · rw [hfile]
    exact h.file_eq
  · intro m version hversion
    refine h.ruledOut m version ?_
    unfold Cache.ruledOut at hversion ⊢
    rw [← hunusable]
    exact hversion
  · intro m hdisable
    refine h.disabled m ?_
    unfold isDisabled at hdisable ⊢
    rw [← hdisabled]
    exact hdisable

theorem countRevive (h : Undisturbed host c file s) (status : ReviveStatus) :
    Undisturbed host c file (s.countRevive status) :=
  h.of_same rfl rfl rfl rfl rfl rfl rfl

theorem withSpace (h : Undisturbed host c file s) (space : MetaSpace)
    {space' : MetaSpace}
    (hleads : space'.Leads host file.space.keys) :
    Undisturbed host c file (s.withSpace { file with space } space') where
  options_eq := h.options_eq
  isSampled_eq := h.isSampled_eq
  epoch_eq := h.epoch_eq
  container_eq := h.container_eq
  file_eq := ⟨space', rfl, hleads⟩
  ruledOut := h.ruledOut
  disabled := h.disabled

theorem active?_eq (h : Undisturbed host c file s) (hfile : c.file = some file) :
    ∃ space, space.Leads host file.space.keys ∧
      s.active? = c.active?.map fun used => ({ file with space }, used.2) := by
  rcases h.file_eq with ⟨space, hspace, hleads⟩
  refine ⟨space, hleads, ?_⟩
  unfold active?
  rw [hspace, hfile, h.container_eq]
  cases c.container with
  | none => rfl
  | some i =>
      change (file.containers[i]?.bind fun x => some ({ file with space }, x)) =
        Option.map _ (file.containers[i]?.bind fun x => some (file, x))
      cases file.containers[i]? with
      | none | some container => rfl

theorem sameFile (h : Undisturbed host c file s) (hfile : c.file = some file) :
    c.SameFile s := by
  rcases h.file_eq with ⟨space, hspace, hleads⟩
  refine ⟨h.container_eq, ?_, ?_⟩
  · rw [hspace, hfile]
    rfl
  · rw [hspace, hfile]
    exact congrArg some hleads.keys_eq

theorem find_eq (h : Undisturbed host c file s) (hfile : c.file = some file)
    (m : MethodId) :
    s.find host m = c.find host m :=
  (h.sameFile hfile).find_eq rfl

theorem taught (h : Undisturbed host c file s) {selection : Selection}
    (hunusable : ∀ version ∈ selection.unusable, Fails host c file m version)
    (hdisable : selection.disable = true →
      ∀ version, Fails host c file m version) :
    Undisturbed host c file (s.taught m selection) := by
  have hruledOut : ∀ m' version,
      version ∈ (s.taught m selection).ruledOut m' →
        Fails host c file m' version := by
    intro m' version hversion
    rcases mem_ruledOut_taught hversion with hold | ⟨rfl, hnew⟩
    · exact h.ruledOut m' version hold
    · exact hunusable version hnew
  have hdisabled : ∀ m', (s.taught m selection).isDisabled m' = true →
      ∀ version, Fails host c file m' version := by
    intro m' hm'
    rcases isDisabled_taught hm' with hold | ⟨rfl, hnew⟩
    · exact h.disabled m' hold
    · exact hdisable hnew
  rcases taught_eq s m selection with ⟨unusable, disabled, htaught⟩
  rw [htaught] at hruledOut hdisabled ⊢
  exact ⟨h.options_eq, h.isSampled_eq, h.epoch_eq, h.container_eq, h.file_eq,
    hruledOut, hdisabled⟩

end Undisturbed

/-!
## Versions
-/

structure HasVersions (host : Host) (c : Cache) (file : CacheFile)
    (m : MethodId) (container : Container) (head : UInt32)
    (states : List VersionState) : Prop where
  active : c.active? = some (file, container)
  found : ∃ status, c.find host m = .ok (status, some head)
  outcomes : ∃ blobs, container.code.versions head = blobs.map .ok ∧
    Selection.Outcomes (c.reviveContext host m) c.options file.space.keys 0
      blobs states

def Intact (blobs : List (Except Error Blob)) : Prop :=
  ∀ blob ∈ blobs, blob.isOk = true

instance (blobs : List (Except Error Blob)) : Decidable (Intact blobs) :=
  inferInstanceAs (Decidable (∀ blob ∈ blobs, blob.isOk = true))

theorem Intact.eq_map {blobs : List (Except Error Blob)} (h : Intact blobs) :
    ∃ bs : List Blob, blobs = bs.map .ok := by
  induction blobs with
  | nil => exact ⟨[], rfl⟩
  | cons blob rest ih =>
      rcases ih fun other hother => h other (List.mem_cons_of_mem _ hother) with
        ⟨bs, rfl⟩
      cases blob with
      | error e => cases h (.error e) List.mem_cons_self
      | ok b => exact ⟨b :: bs, rfl⟩

theorem hasVersions_of_intact (hfile : c.file = some file)
    {status : ReviveStatus} {head : UInt32} {loaded : CacheFile}
    {container : Container} (hactive : c.active? = some (loaded, container))
    (hfind : c.find host m = .ok (status, some head))
    (hintact : Intact (c.chain host m)) :
    ∃ states, HasVersions host c file m container head states := by
  have hloaded := (of_active? hactive).1
  rw [hfile] at hloaded
  cases hloaded
  rw [chain_of_find hactive hfind] at hintact
  rcases hintact.eq_map with ⟨blobs, hblobs⟩
  rcases Selection.exists_outcomes (c.reviveContext host m) c.options
    file.space.keys 0 blobs with ⟨states, hstates⟩
  exact ⟨states, hactive, ⟨status, hfind⟩, blobs, hblobs, hstates⟩

namespace HasVersions

variable {container : Container} {head : UInt32} {states : List VersionState}
  (h : HasVersions host c file m container head states)
include h

theorem chain_eq : c.chain host m = container.code.versions head := by
  rcases h.found with ⟨status, hfind⟩
  exact chain_of_find h.active hfind

theorem isValid_eq_of_fails {state : VersionState} (hstate : state ∈ states)
    (hfails : Fails host c file m state.version) :
    state.isValid = false := by
  rcases h.outcomes with ⟨blobs, hblobs, hstates⟩
  rcases hstates.of_mem hstate with ⟨i, b, hb, hversion, _, hchecks⟩
  rw [Nat.zero_add] at hversion hchecks
  rw [hversion] at hfails
  refine hfails b ?_ state hchecks
  rw [h.chain_eq, hblobs, List.getElem?_map, hb]
  rfl

theorem choose_of_isDisabled (hs : Undisturbed host c file s)
    (hdone : s.isDisabled m = true) (p : RevivePolicy) (draw : Nat) :
    p.choose draw (states.filter (·.isValid)) = none := by
  have hnone : states.filter (·.isValid) = [] := by
    rw [List.filter_eq_nil_iff]
    intro state hstate hvalid
    rw [h.isValid_eq_of_fails hstate (hs.disabled m hdone _)] at hvalid
    cases hvalid
  rw [hnone, RevivePolicy.choose_nil]

end HasVersions

/-!
## Whole attempts
-/

theorem Undisturbed.fails_of_select (hs : Undisturbed host c file s)
    {container : Container} {head : UInt32} {states : List VersionState}
    (h : HasVersions host c file m container head states) {draw : Nat}
    {selection : Selection} {space space' : MetaSpace}
    (hspace : space.Leads host file.space.keys)
    (hselect : selecting host draw m s container head space =
      .ok selection space') :
    (∀ version ∈ selection.unusable, Fails host c file m version) ∧
      (selection.disable = true →
        ∀ version, Fails host c file m version) := by
  unfold selecting at hselect
  rw [hs.context_eq, hs.options_eq] at hselect
  have hvisit : ∀ (visit : Selection.Visit),
      Selection.Visits (c.reviveContext host m) c.options
        (fun v => !(s.ruledOut m).contains v) 0 {}
        (container.code.versions head) space visit →
      visit.state.FailsForGood → Fails host c file m visit.version := by
    intro visit hvisit hfails b hb state hstate
    rcases hvisit.mem with ⟨i, hi, hblob⟩
    rw [Nat.zero_add] at hi
    rw [h.chain_eq, hi, hblob] at hb
    cases hb
    cases hvisit.state_eq (ReviveContext.resolvesOneWay_of_leads _ _) hspace
      hstate
    exact hfails.isValid_eq
  constructor
  · intro version hversion
    rcases Selection.of_mem_unusable_select hselect hversion with
      ⟨visit, hvisits, rfl, hfails⟩
    exact hvisit visit hvisits hfails
  · intro hdisable version b hb
    have hblob := hb
    rw [h.chain_eq] at hblob
    rcases Selection.of_disable_select hselect hdisable hblob with
      hleft | ⟨visit, hvisits, rfl, _, hfails⟩
    · rw [Bool.not_eq_false', List.contains_iff_mem] at hleft
      exact hs.ruledOut m version hleft b hb
    · exact hvisit visit hvisits hfails b hb

theorem hasOtherIdentity_congr {space space' : MetaSpace}
    (h : space'.keys = space.keys) (b : Blob) (m : MethodId) :
    hasOtherIdentity host space' b m = hasOtherIdentity host space b m := by
  unfold hasOtherIdentity
  rw [MetaSpace.key_congr h]

theorem Undisturbed.installed_eq (h : Undisturbed host c file s)
    (hfile : c.file = some file) (hs : s.isDisabled m = false)
    (hc : c.isDisabled m = false) (container : Container)
    (state : VersionState) :
    s.installed host m container state =
      c.installed host m container state := by
  rcases h.file_eq with ⟨space, hspace, hleads⟩
  unfold installed
  rw [h.context_eq, h.options_eq, hs, hc, hfile, hspace]
  dsimp only [Option.map_some, Option.getD_some]
  simp only [hasOtherIdentity_congr hleads.keys_eq]

/-- An attempt on a method with an intact chain comes to the version that the
policy chooses among all that pass their checks. -/
theorem HasVersions.reviveMethod_settles {container : Container} {head : UInt32}
    {states : List VersionState}
    (h : HasVersions host c file m container head states)
    (hfile : c.file = some file) (hpolicy : c.options.revivePolicy ≠ .random)
    (henabled : c.isDisabled m = false) (draw : Nat) :
    Settles (Undisturbed host c file) (reviveMethod host draw m)
      (match c.options.revivePolicy.choose draw (states.filter (·.isValid)) with
      | none => .ok (.fail, none)
      | some state => c.installed host m container state) := by
  intro s hs
  rcases h.found with ⟨status, hfind⟩
  rcases h.outcomes with ⟨blobs, hblobs, hstates⟩
  rcases hs.active?_eq hfile with ⟨space, hleads, hactive⟩
  rw [h.active] at hactive
  have hfind' := (hs.find_eq hfile m).trans hfind
  have hsettles : ∃ selection,
      Settles (MetaSpace.Leads host file.space.keys)
        (Selection.select (c.reviveContext host m) c.options container.code head
          (fun v => !(s.ruledOut m).contains v) draw) (.ok selection) ∧
        selection.selected = c.options.revivePolicy.choose draw
          (states.filter (·.isValid)) := by
    refine (hstates.select_settles hpolicy hblobs ?_ draw).imp fun selection h =>
      ⟨h.1, h.2 draw⟩
    intro state hstate hout
    rw [Bool.not_eq_false', List.contains_iff_mem] at hout
    exact h.isValid_eq_of_fails hstate (hs.ruledOut m _ hout)
  rcases hsettles with ⟨selection, hselect, hselected⟩
  rcases hselect space hleads with ⟨space', hleads', hrun⟩
  have hselecting : selecting host draw m s container head space =
      .ok selection space' := by
    unfold selecting
    rw [hs.context_eq, hs.options_eq]
    exact hrun
  rcases hs.fails_of_select h hleads hselecting with ⟨hunusable, hdisable⟩
  have hafter := (hs.withSpace space hleads').taught hunusable hdisable
  refine ⟨_, hafter, ?_⟩
  rw [reviveMethod_of_select hactive hfind' hselecting, hselected]
  cases hchoose : c.options.revivePolicy.choose draw
      (states.filter (·.isValid)) with
  | none => rfl
  | some state =>
      dsimp only
      rw [hafter.installed_eq hfile ?_ henabled]
      cases hdone : (taught _ m selection).isDisabled m with
      | false => rfl
      | true =>
          rw [h.choose_of_isDisabled hafter hdone] at hchoose
          cases hchoose

def answerOf : Except Error (ReviveStatus × Option CompiledMethod) →
    Option CompiledMethod
  | .ok (_, nm?) => nm?
  | .error _ => none

structure Answers (host : Host) (c : Cache) (file : CacheFile) (draw : Nat)
    (m : MethodId) (nm? : Option CompiledMethod) : Prop where
  settles : ∃ outcome, answerOf outcome = nm? ∧
    Settles (Undisturbed host c file) (reviveMethod host draw m) outcome
  of_disabled : ∀ s, Undisturbed host c file s → s.isDisabled m = true →
    nm? = none

theorem HasVersions.answers {container : Container} {head : UInt32}
    {states : List VersionState}
    (h : HasVersions host c file m container head states)
    (hfile : c.file = some file) (hpolicy : c.options.revivePolicy ≠ .random)
    (henabled : c.isDisabled m = false) (draw : Nat) :
    Answers host c file draw m
      ((c.options.revivePolicy.choose draw (states.filter (·.isValid))).bind
        fun state => answerOf (c.installed host m container state)) := by
  refine ⟨⟨_, ?_, h.reviveMethod_settles hfile hpolicy henabled draw⟩, ?_⟩
  · cases c.options.revivePolicy.choose draw (states.filter (·.isValid)) with
    | none | some state => rfl
  · intro s hs hdone
    rw [h.choose_of_isDisabled hs hdone]
    rfl

theorem NotFound.answers (h : NotFound host c m) (hfile : c.file = some file)
    (draw : Nat) :
    Answers host c file draw m none := by
  refine ⟨⟨(c.find host m).map fun answer => (answer.1, none), ?_, ?_⟩,
    fun _ _ _ => rfl⟩
  · cases c.find host m with
    | error e | ok answer => rfl
  · intro s hs
    have hfind := hs.find_eq hfile m
    refine ⟨s, hs, ?_⟩
    rw [← hfind]
    refine reviveMethod_of_not_found ?_
    unfold NotFound
    rw [hfind]
    exact h

theorem answers_of_intact (hfile : c.file = some file)
    (hpolicy : c.options.revivePolicy ≠ .random)
    (henabled : c.isDisabled m = false) (hintact : Intact (c.chain host m))
    (draw : Nat) :
    ∃ nm?, Answers host c file draw m nm? := by
  rcases find_cases host c m with h |
    ⟨status, head, loaded, container, hactive, hfind⟩
  · exact ⟨none, h.answers hfile draw⟩
  · rcases hasVersions_of_intact hfile hactive hfind hintact with ⟨states, h⟩
    exact ⟨_, h.answers hfile hpolicy henabled draw⟩

theorem Undisturbed.isCandidate_eq (h : Undisturbed host c file s)
    (hfile : c.file = some file) (henabled : c.isDisabled m = false)
    (level : UInt32) :
    s.isCandidate host m level =
      (c.isCandidate host m level && !s.isDisabled m) := by
  rcases h.file_eq with ⟨space, hspace, _⟩
  unfold isCandidate
  rw [h.options_eq, h.isSampled_eq, hspace, hfile, henabled, Option.isSome_some,
    Option.isSome_some, Bool.not_false, Bool.and_true, Bool.and_true]

theorem Answers.revive_settles {draw : Nat} {nm? : Option CompiledMethod}
    (h : Answers host c file draw m nm?) (hfile : c.file = some file)
    (hfatal : c.options.fatalOnFail = false)
    (henabled : c.isDisabled m = false) (level : UInt32) :
    Settles (Undisturbed host c file) (revive host draw m level)
      (.ok (if c.isCandidate host m level then nm? else none)) := by
  intro s hs
  have hcandidate := hs.isCandidate_eq hfile henabled level
  cases hc : c.isCandidate host m level with
  | false =>
      rw [hc, Bool.false_and] at hcandidate
      exact ⟨s, hs, revive_of_not_candidate hcandidate⟩
  | true =>
      rw [hc, Bool.true_and] at hcandidate
      rw [if_pos rfl]
      cases hdone : s.isDisabled m with
      | true =>
          rw [hdone] at hcandidate
          rw [h.of_disabled s hs hdone]
          exact ⟨s, hs, revive_of_not_candidate hcandidate⟩
      | false =>
          rw [hdone] at hcandidate
          rw [← hs.options_eq] at hfatal
          rcases h.settles with ⟨outcome, rfl, hsettles⟩
          rcases hsettles s hs with ⟨s', hs', hrun⟩
          cases outcome with
          | error e =>
              exact ⟨_, hs'.countRevive .fail,
                revive_of_error hcandidate hfatal hrun⟩
          | ok answer =>
              exact ⟨_, hs'.countRevive answer.1,
                revive_of_ok hcandidate hfatal hrun⟩

theorem Loaded.undisturbed (h : c.Loaded file) (host : Host) :
    Undisturbed host c file c where
  options_eq := rfl
  isSampled_eq := rfl
  epoch_eq := rfl
  container_eq := rfl
  file_eq := ⟨file.space, h.file_eq, MetaSpace.leads_of_fresh host h.fresh⟩
  ruledOut := by
    intro m version hversion
    rw [h.ruledOut_eq m] at hversion
    cases hversion
  disabled := by
    intro m hdone
    rw [h.enabled m] at hdone
    cases hdone

end Cache

end CodeCache
