import CodeCache.Proofs.Metadata.Resolution
import CodeCache.Proofs.Store.Chains
import CodeCache.Proofs.Tag.Reading
import CodeCache.Selection.Basic

/-!
# What a selected version went through

A version is selected only after its names were resolved, its speculations
scored and its dependencies checked against the process at hand.
-/

namespace CodeCache

/-!
## Assumptions
-/

theorem Speculation.score_of_totalFrom {ctx : ScoreContext} {total sum : Int64}
    {rs : List Speculation} (h : totalFrom ctx total rs = .ok sum) :
    ∀ r ∈ rs, ∃ s, r.score ctx = .ok s := by
  induction rs generalizing total with
  | nil =>
      intro r hr
      cases hr
  | cons first rest ih =>
      unfold totalFrom at h
      cases hscore : first.score ctx with
      | error e =>
          rw [hscore] at h
          cases h
      | ok s =>
          rw [hscore] at h
          intro r hr
          cases hr with
          | head => exact ⟨s, hscore⟩
          | tail _ hmem => exact ih h r hmem

namespace Dependency

theorem holds_of_check {host : Host} {metas : List (Option Entity)}
    {d : Dependency} (h : d.check host metas = .ok ()) :
    d.holds host metas = .ok true := by
  unfold check at h
  cases hholds : d.holds host metas with
  | error e =>
      rw [hholds] at h
      cases h
  | ok held =>
      rw [hholds] at h
      cases held with
      | false => cases h
      | true => rfl

theorem holds_of_checkAll {host : Host} {metas : List (Option Entity)}
    {ds : List Dependency} (h : checkAll host metas ds = .ok ()) :
    ∀ d ∈ ds, d.holds host metas = .ok true := by
  induction ds with
  | nil =>
      intro d hd
      cases hd
  | cons first rest ih =>
      change (check host metas first >>= fun _ =>
        checkAll host metas rest) = .ok () at h
      cases hcheck : check host metas first with
      | error e =>
          rw [hcheck] at h
          cases h
      | ok _ =>
          rw [hcheck] at h
          intro d hd
          cases hd with
          | head => exact holds_of_check hcheck
          | tail _ hmem => exact ih h d hmem

end Dependency

namespace Selection

variable {ctx : ReviveContext} {o : Options}
  {seen : MetaKey → Entity → Prop} {keys : List MetaKey}

/-!
## The two steps
-/

structure Accepted (ctx : ReviveContext) (o : Options)
    (seen : MetaKey → Entity → Prop) (keys : List MetaKey) (b : Blob)
    (metas : List (Option Entity)) : Prop where
  named : ∃ records, TagStream.decode b.tagMeta = .ok records ∧
    List.Forall₂ (ctx.NamesEntity seen keys) records metas
  scored : ∃ rs, b.speculations = .ok rs ∧
    (o.disableConstantOpt = true → ∀ r ∈ rs, r.isConstantReplace = false) ∧
    ∀ r ∈ rs, ∃ s,
      r.score { metas, host := ctx.host, costs := o.costs } = .ok s

structure Prepared (ctx : ReviveContext) (seen : MetaKey → Entity → Prop)
    (keys : List MetaKey) (b : Blob) (resolved : Resolved) : Prop where
  held : ∃ ds, b.dependencies = .ok ds ∧
    ∀ d ∈ ds, d.holds ctx.host resolved.metadata = .ok true
  named : ∃ records, TagStream.decode b.tagOop = .ok records ∧
    List.Forall₂ (ctx.NamesObject seen keys) records resolved.oops

theorem of_acceptance {metas : List (Option Entity)} {b : Blob} {score : Int64}
    (h : acceptance ctx o metas b = .ok score) :
    ∃ rs, b.speculations = .ok rs ∧
      (o.disableConstantOpt = true → ∀ r ∈ rs, r.isConstantReplace = false) ∧
      ∀ r ∈ rs, ∃ s,
        r.score { metas, host := ctx.host, costs := o.costs } = .ok s := by
  unfold acceptance at h
  cases hrecords : b.speculations with
  | error e =>
      rw [hrecords] at h
      cases h
  | ok rs =>
      rw [hrecords] at h
      change (if o.disableConstantOpt && rs.any Speculation.isConstantReplace
        then _ else _) = _ at h
      split at h
      · cases h
      · rename_i hconstants
        refine ⟨rs, rfl, ?_, Speculation.score_of_totalFrom h⟩
        intro hdisable r hr
        cases hconstant : r.isConstantReplace with
        | false => rfl
        | true =>
            exfalso
            apply hconstants
            rw [hdisable, Bool.true_and, List.any_eq_true]
            exact ⟨r, hr, hconstant⟩

theorem of_checkDependencies {metas : List (Option Entity)} {b : Blob}
    (h : checkDependencies ctx metas b = .ok ()) :
    ∃ ds, b.dependencies = .ok ds ∧
      ∀ d ∈ ds, d.holds ctx.host metas = .ok true := by
  unfold checkDependencies at h
  cases hrecords : b.dependencies with
  | error e =>
      rw [hrecords] at h
      cases h
  | ok ds =>
      rw [hrecords] at h
      exact ⟨ds, rfl, Dependency.holds_of_checkAll h⟩

theorem resolveMetadata_ensures (hseen : ∀ key e, ctx.host.Finds key e → seen key e)
    (b : Blob) :
    Ensures (MetaSpace.Sound ctx.host ctx.epoch seen keys)
      (b.resolveMetadata ctx)
      (fun metas => ∃ records, TagStream.decode b.tagMeta = .ok records ∧
        List.Forall₂ (ctx.NamesEntity seen keys) records metas) := by
  unfold Blob.resolveMetadata
  refine (Blob.resolveArray_ensures
    (ReviveContext.entityOf_ensures hseen) ?_ _ _).mono ?_
  · intro a ha
    cases ha
  · rintro metas ⟨records, hholds, hall⟩
    exact ⟨records, hholds.decode, hall⟩

theorem resolveOops_ensures (hseen : ∀ key e, ctx.host.Finds key e → seen key e)
    (b : Blob) :
    Ensures (MetaSpace.Sound ctx.host ctx.epoch seen keys)
      (b.resolveOops ctx)
      (fun oops => ∃ records, TagStream.decode b.tagOop = .ok records ∧
        List.Forall₂ (ctx.NamesObject seen keys) records oops) := by
  unfold Blob.resolveOops
  refine (Blob.resolveArray_ensures
    (ReviveContext.objectOf_ensures hseen) ?_ _ _).mono ?_
  · intro a ha
    cases ha
  · rintro oops ⟨records, hholds, hall⟩
    exact ⟨records, hholds.decode, hall⟩

theorem resolveSites_ensures (hseen : ∀ key e, ctx.host.Finds key e → seen key e)
    (b : Blob) :
    Ensures (MetaSpace.Sound ctx.host ctx.epoch seen keys)
      (b.resolveSites ctx) (fun _ => True) := by
  unfold Blob.resolveSites
  refine Ensures.of_bind (P := fun _ => True) ?_ ?_
  · exact (Ensures.of_mapM (Q := fun _ _ => True) fun r _ =>
      ReviveContext.siteValue?_ensures hseen r.2).mono fun _ _ => trivial
  · intro values _
    split
    · exact Ensures.of_throw _
    · exact Ensures.of_pure trivial

theorem accept_ensures (hseen : ∀ key e, ctx.host.Finds key e → seen key e)
    (b : Blob) (state : VersionState) :
    Ensures (MetaSpace.Sound ctx.host ctx.epoch seen keys)
      (accept ctx o b state)
      (fun s => s.offset = state.offset ∧ s.isPrepared = state.isPrepared ∧
        (s.isAccepted = true → state.isAccepted = false →
          Accepted ctx o seen keys b s.resolved.metadata)) := by
  unfold accept
  refine (resolveMetadata_ensures hseen b).of_attempt.of_bind ?_
  intro result hresult
  cases result with
  | error e =>
      refine Ensures.of_pure ⟨rfl, rfl, ?_⟩
      intro haccepted hbefore
      rw [hbefore] at haccepted
      cases haccepted
  | ok metadata =>
      dsimp only
      cases hscore : acceptance ctx o metadata b with
      | error e =>
          refine Ensures.of_pure ⟨rfl, rfl, ?_⟩
          intro haccepted hbefore
          rw [hbefore] at haccepted
          cases haccepted
      | ok score =>
          refine Ensures.of_pure ⟨rfl, rfl, ?_⟩
          intro _ _
          exact ⟨hresult metadata rfl, of_acceptance hscore⟩

theorem prepare_ensures (hseen : ∀ key e, ctx.host.Finds key e → seen key e)
    (b : Blob) (state : VersionState) :
    Ensures (MetaSpace.Sound ctx.host ctx.epoch seen keys)
      (prepare ctx b state)
      (fun s => s.offset = state.offset ∧
        s.resolved.metadata = state.resolved.metadata ∧
        (s.isPrepared = true → state.isPrepared = false →
          Prepared ctx seen keys b s.resolved)) := by
  have hunprepared : ∀ s : VersionState, s.offset = state.offset →
      s.resolved.metadata = state.resolved.metadata →
      s.isPrepared = state.isPrepared →
      s.offset = state.offset ∧
        s.resolved.metadata = state.resolved.metadata ∧
        (s.isPrepared = true → state.isPrepared = false →
          Prepared ctx seen keys b s.resolved) := by
    intro s hoffset hmetadata hsame
    refine ⟨hoffset, hmetadata, ?_⟩
    intro hprepared hbefore
    rw [hsame, hbefore] at hprepared
    cases hprepared
  unfold prepare
  cases hdeps : checkDependencies ctx state.resolved.metadata b with
  | error e => exact Ensures.of_pure (hunprepared _ rfl rfl rfl)
  | ok _ =>
      refine (resolveOops_ensures hseen b).of_attempt.of_bind ?_
      intro result hresult
      cases result with
      | error e => exact Ensures.of_pure (hunprepared _ rfl rfl rfl)
      | ok oops =>
          refine (resolveSites_ensures hseen b).of_attempt.of_bind ?_
          intro values _
          cases values with
          | error e => exact Ensures.of_pure (hunprepared _ rfl rfl rfl)
          | ok values =>
              dsimp only
              cases knownObjects b with
              | error e => exact Ensures.of_pure (hunprepared _ rfl rfl rfl)
              | ok known =>
                  refine Ensures.of_pure ⟨rfl, rfl, ?_⟩
                  intro _ _
                  exact ⟨of_checkDependencies hdeps, hresult oops rfl⟩

structure Passed (ctx : ReviveContext) (o : Options)
    (seen : MetaKey → Entity → Prop) (keys : List MetaKey) (b : Blob)
    (state : VersionState) : Prop where
  offset_eq : state.offset = b.offset
  accepted : Accepted ctx o seen keys b state.resolved.metadata
  prepared : Prepared ctx seen keys b state.resolved

theorem checkBlob_ensures (hseen : ∀ key e, ctx.host.Finds key e → seen key e)
    (version : Nat) (b : Blob) :
    Ensures (MetaSpace.Sound ctx.host ctx.epoch seen keys)
      (checkBlob ctx o version b)
      (fun s => s.isValid = true → Passed ctx o seen keys b s) := by
  unfold checkBlob
  refine (accept_ensures hseen b _).of_bind ?_
  rintro s ⟨hoffset, hprepared, haccepted⟩
  refine Ensures.of_ite ?_ ?_
  · intro hs
    refine (prepare_ensures hseen b s).mono ?_
    rintro s' ⟨hoffset', hmetadata, hprepared'⟩ hvalid
    unfold VersionState.isValid at hvalid
    rw [Bool.and_eq_true] at hvalid
    refine ⟨hoffset'.trans hoffset, ?_, hprepared' hvalid.2 hprepared⟩
    rw [hmetadata]
    exact haccepted hs rfl
  · intro hs
    refine Ensures.of_pure ?_
    intro hvalid
    unfold VersionState.isValid at hvalid
    rw [Bool.and_eq_true] at hvalid
    exact absurd hvalid.1 hs

/-!
## The choice
-/

theorem scan_ensures (hseen : ∀ key e, ctx.host.Finds key e → seen key e)
    {usable : Nat → Bool} {chain : List (Except Error Blob)}
    (blobs : List (Except Error Blob)) (hchain : ∀ x ∈ blobs, x ∈ chain)
    (version : Nat) (s : Scan)
    (hs : ∀ state ∈ s.candidates,
      ∃ b, .ok b ∈ chain ∧ Passed ctx o seen keys b state) :
    Ensures (MetaSpace.Sound ctx.host ctx.epoch seen keys)
      (scan ctx o usable version s blobs)
      (fun s => ∀ state ∈ s.candidates,
        ∃ b, .ok b ∈ chain ∧ Passed ctx o seen keys b state) := by
  induction blobs generalizing version s with
  | nil => exact Ensures.of_pure hs
  | cons blob rest ih =>
      have hrest : ∀ x ∈ rest, x ∈ chain :=
        fun x hx => hchain x (List.mem_cons_of_mem _ hx)
      unfold scan
      refine (Ensures.of_ofExcept (Q := fun b => blob = .ok b) ?_).of_bind ?_
      · intro b hb
        exact hb
      intro b hb
      have hmem : .ok b ∈ chain := by
        rw [← hb]
        exact hchain blob List.mem_cons_self
      refine Ensures.of_ite ?_ ?_
      · intro _
        refine (checkBlob_ensures hseen version b).of_bind ?_
        intro state hstate
        have hrecord : ∀ state' ∈
            (Scan.record { s with checked := s.checked + 1 } state).candidates,
            ∃ b, .ok b ∈ chain ∧ Passed ctx o seen keys b state' := by
          unfold Scan.record
          split
          · rename_i hvalid
            intro state' hstate'
            rcases List.mem_append.mp hstate' with hold | hnew
            · exact hs state' hold
            · rw [List.mem_singleton.mp hnew]
              exact ⟨b, hmem, hstate hvalid⟩
          · split
            · exact hs
            · exact hs
        refine Ensures.of_ite ?_ ?_
        · intro _
          exact ih hrest _ _ hrecord
        · intro _
          exact Ensures.of_pure hrecord
      · intro _
        exact ih hrest _ _ hs

theorem mem_of_choose {p : RevivePolicy} {draw : Nat}
    {candidates : List VersionState} {state : VersionState}
    (h : p.choose draw candidates = some state) :
    state ∈ candidates := by
  cases p with
  | first => exact List.mem_of_head? h
  | random => exact List.mem_of_getElem? h
  | appointed n =>
      unfold RevivePolicy.choose at h
      rcases Option.or_eq_some_iff.mp h with hfound | ⟨_, hhead⟩
      · exact List.mem_of_find?_eq_some hfound
      · exact List.mem_of_head? hhead

theorem select_ensures (hseen : ∀ key e, ctx.host.Finds key e → seen key e)
    (space : CodeSpace) (head : UInt32) (usable : Nat → Bool) (draw : Nat) :
    Ensures (MetaSpace.Sound ctx.host ctx.epoch seen keys)
      (select ctx o space head usable draw)
      (fun selection => ∀ state, selection.selected = some state →
        ∃ b, .ok b ∈ space.versions head ∧ Passed ctx o seen keys b state) := by
  unfold select
  refine Ensures.of_map ?_
  refine (scan_ensures hseen _ (fun _ hx => hx) 0 {} ?_).mono ?_
  · intro state hstate
    cases hstate
  · intro s hs state hstate
    unfold conclude at hstate
    split at hstate
    · cases hstate
    · exact hs state (mem_of_choose hstate)

end Selection

end CodeCache
