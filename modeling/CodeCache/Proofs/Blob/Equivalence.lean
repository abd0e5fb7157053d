import CodeCache.Proofs.Blob.Matching
import CodeCache.Proofs.Blob.Replaying

/-!
# Replaying the same patch sites

Two replays that are at the same point go on alike: the records that they read
match, and which key an index stands for no longer matters, since every name was
resolved before.
-/

namespace CodeCache

namespace Replay

variable {keys keys' : List MetaKey}

structure Level (keys keys' : List MetaKey) (s s' : Replay) : Prop where
  code_eq : s.code = s'.code
  values_eq : s.values = s'.values
  tags : ∃ records records', TagStream.Holds s.tags records ∧
    TagStream.Holds s'.tags records' ∧
    List.Forall₂ (TagRecord.Matches keys keys') records records'

theorem write_alike (slot : UInt32) (v : UInt64) :
    Alike (Level keys keys') Eq (write slot v) (write slot v) := by
  unfold write
  refine Alike.of_get.of_bind ?_
  intro s s' hs
  rw [hs.code_eq]
  refine (Alike.of_lift (.of_eq _)).of_bind ?_
  rintro code _ rfl
  exact Alike.of_modify fun t t' ht => ⟨rfl, ht.values_eq, ht.tags⟩

theorem record_alike (site : UInt32) :
    Alike (Level keys keys') (TagRecord.Matches keys keys') (record site)
      (record site) := by
  intro s s' hs
  rcases hs.tags with ⟨records, records', hholds, hholds', hall⟩
  cases hall with
  | nil =>
      cases hholds with
      | finish hend =>
          cases hholds' with
          | finish hend' =>
              rw [record_of_end site hend, record_of_end site hend']
              exact .error rfl
  | cons hrecord hrest =>
      cases hholds with
      | cons hread hne htags =>
          cases hholds' with
          | cons hread' hne' htags' =>
              rw [record_eq site hread hne, record_eq site hread' hne']
              exact .ok ⟨hrecord, hs.code_eq, hs.values_eq, _, _, htags, htags',
                hrest⟩

theorem value_alike : Alike (Level keys keys') Eq value value := by
  unfold value
  refine Alike.of_get.of_bind ?_
  intro s s' hs
  rw [hs.values_eq]
  cases s'.values with
  | nil => exact Alike.of_throw rfl
  | cons v rest =>
      refine (Alike.of_modify fun t t' ht =>
        ⟨ht.code_eq, rfl, ht.tags⟩).of_bind ?_
      intro _ _ _
      exact Alike.of_pure rfl

theorem of_value {next : SiteValue → Replaying UInt64}
    (hnull : Alike (Level keys keys') Eq (next .null) (next .null))
    (hobject : ∀ o, Alike (Level keys keys') Eq (next (.object o)) (next (.object o)))
    (hentity : ∀ e, Alike (Level keys keys') Eq (next (.entity e)) (next (.entity e))) :
    Alike (Level keys keys') Eq (value >>= next) (value >>= next) := by
  refine value_alike.of_bind ?_
  rintro v _ rfl
  cases v with
  | null => exact hnull
  | object o => exact hobject o
  | entity e => exact hentity e

/-!
## Sites
-/

variable {ctx : ReviveContext}

theorem global_alike (site : UInt32) :
    Alike (Level keys keys') Eq (global ctx site) (global ctx site) := by
  unfold global
  refine (record_alike site).of_bind ?_
  intro r r' hrecord
  cases hrecord with
  | plain h =>
      cases r with
      | global kind offset => exact Alike.of_lift (.of_eq _)
      | _ => exact Alike.of_throw rfl
  | _ => exact Alike.of_throw rfl

theorem objectAddress_alike (site : UInt32) :
    Alike (Level keys keys') Eq (objectAddress ctx site)
      (objectAddress ctx site) := by
  unfold objectAddress
  refine (record_alike site).of_bind ?_
  intro r r' hrecord
  cases hrecord with
  | mirror hi hj =>
      exact of_value (.of_pure rfl) (fun _ => .of_pure rfl) fun _ => .of_throw rfl
  | plain h =>
      cases r with
      | loaderObject loader => exact Alike.of_pure rfl
      | nonOop | text | knownObject =>
          exact of_value (.of_pure rfl) (fun _ => .of_pure rfl) fun _ => .of_throw rfl
      | klass | mirror | method => cases h
      | _ => exact Alike.of_throw rfl
  | _ => exact Alike.of_throw rfl

theorem entityAddress_alike (site : UInt32) :
    Alike (Level keys keys') Eq (entityAddress ctx site)
      (entityAddress ctx site) := by
  unfold entityAddress
  refine (record_alike site).of_bind ?_
  intro r r' hrecord
  cases hrecord with
  | klass hi hj | method hi hj =>
      exact of_value (.of_pure rfl) (fun _ => .of_throw rfl) fun _ => .of_pure rfl
  | mirror hi hj => exact Alike.of_throw rfl
  | plain h =>
      cases r with
      | nonOop | selfMethod =>
          exact of_value (.of_pure rfl) (fun _ => .of_throw rfl) fun _ => .of_pure rfl
      | klass | mirror | method => cases h
      | _ => exact Alike.of_throw rfl

theorem internalAddress_alike (base : UInt64) (codeSize site : UInt32) :
    Alike (Level keys keys') Eq (internalAddress base codeSize site)
      (internalAddress base codeSize site) := by
  unfold internalAddress
  refine (record_alike site).of_bind ?_
  intro r r' hrecord
  cases hrecord with
  | plain h =>
      cases r with
      | internalWord offset =>
          dsimp only
          split
          · exact Alike.of_pure rfl
          · exact Alike.of_throw rfl
      | _ => exact Alike.of_throw rfl
  | _ => exact Alike.of_throw rfl

theorem pollAddress?_alike (site : UInt32) :
    Alike (Level keys keys') Eq (pollAddress? ctx site)
      (pollAddress? ctx site) := by
  unfold pollAddress?
  refine (record_alike site).of_bind ?_
  intro r r' hrecord
  cases hrecord with
  | plain h =>
      cases r with
      | skip => exact Alike.of_pure rfl
      | global kind offset =>
          refine (Alike.of_lift (.of_eq _)).of_bind ?_
          rintro address _ rfl
          exact Alike.of_pure rfl
      | _ => exact Alike.of_throw rfl
  | _ => exact Alike.of_throw rfl

theorem siteValue?_alike (resolved : Resolved) (base : UInt64)
    (codeSize : UInt32) (r : Relocation) :
    Alike (Level keys keys') Eq (siteValue? ctx resolved base codeSize r)
      (siteValue? ctx resolved base codeSize r) := by
  have hsome : ∀ {work : Replaying UInt64},
      Alike (Level keys keys') Eq work work →
      Alike (Level keys keys') Eq (do return some (← work))
        (do return some (← work)) := by
    intro work hwork
    refine hwork.of_bind ?_
    rintro v _ rfl
    exact Alike.of_pure rfl
  have hlift : ∀ x : Except Error UInt64,
      Alike (Level keys keys') Eq (liftM x : Replaying UInt64) (liftM x) :=
    fun x => Alike.of_lift (.of_eq x)
  rcases r with ⟨offset, kind⟩
  unfold siteValue?
  cases kind with
  | none => exact Alike.of_pure rfl
  | oop index immediate =>
      cases immediate with
      | false => exact hsome (hlift _)
      | true => exact hsome (objectAddress_alike _)
  | metadata index immediate =>
      cases immediate with
      | false => exact hsome (hlift _)
      | true => exact hsome (entityAddress_alike _)
  | externalWord | runtimeCall => exact hsome (global_alike _)
  | poll | pollReturn => exact pollAddress?_alike _
  | virtualCall cached =>
      refine (write_alike _ _).of_bind ?_
      intro _ _ _
      exact hsome (hlift _)
  | optVirtualCall | staticCall => exact hsome (hlift _)
  | staticStub metadata jump =>
      refine (write_alike _ _).of_bind ?_
      intro _ _ _
      refine (write_alike _ _).of_bind ?_
      intro _ _ _
      exact Alike.of_pure rfl
  | internalWord | sectionWord => exact hsome (internalAddress_alike _ _ _)

theorem site_alike (resolved : Resolved) (base : UInt64) (codeSize : UInt32)
    (r : Relocation) :
    Alike (Level keys keys') Eq (site ctx resolved base codeSize r)
      (site ctx resolved base codeSize r) := by
  unfold site
  refine (siteValue?_alike resolved base codeSize r).of_bind ?_
  rintro v _ rfl
  cases v with
  | none => exact Alike.of_pure rfl
  | some v => exact write_alike _ _

theorem finish_alike : Alike (Level keys keys') Eq finish finish := by
  unfold finish
  refine Alike.of_get.of_bind ?_
  intro s s' hs
  rcases hs.tags with ⟨records, records', hholds, hholds', hall⟩
  cases hall with
  | nil =>
      cases hholds with
      | finish hend =>
          cases hholds' with
          | finish hend' =>
              rw [Blob.decodeEnd_eq hend, Blob.decodeEnd_eq hend', hs.values_eq]
              dsimp only
              split
              · exact Alike.of_throw rfl
              · exact Alike.of_pure rfl
  | cons hrecord hrest =>
      cases hholds with
      | cons hread hne htags =>
          cases hholds' with
          | cons hread' hne' htags' =>
              rcases Blob.decodeEnd_of_record hread hne with ⟨position, rest, hend⟩
              rcases Blob.decodeEnd_of_record hread' hne' with ⟨position', rest', hend'⟩
              rw [hend, hend']
              exact Alike.of_throw rfl

theorem run_alike (resolved : Resolved) (base : UInt64) (codeSize : UInt32)
    (relocs : List Relocation) :
    Alike (Level keys keys') Eq (run ctx resolved base codeSize relocs)
      (run ctx resolved base codeSize relocs) := by
  unfold run
  refine (Alike.of_forM relocs (site_alike resolved base codeSize)).of_bind ?_
  intro _ _ _
  exact finish_alike

end Replay

theorem Blob.revive_alike {keys keys' : List MetaKey} {b b' : Blob}
    {nm : CompiledMethod}
    {metas oops sites metas' oops' sites' : List TagRecord}
    (h : b.Stores nm metas oops sites) (h' : b'.Stores nm metas' oops' sites')
    (hsites : List.Forall₂ (TagRecord.Matches keys keys') sites sites')
    (ctx : ReviveContext) (resolved : Resolved) :
    SameOutcome Eq (b.revive ctx resolved) (b'.revive ctx resolved) := by
  have hsize : b.header.codeSize = b'.header.codeSize :=
    UInt32.toNat_inj.mp (h.codeSize_eq.trans h'.codeSize_eq.symm)
  have hstart : Replay.Level keys keys'
      { code := b.code, tags := { bytes := b.tagReloc },
        values := resolved.values }
      { code := b'.code, tags := { bytes := b'.tagReloc },
        values := resolved.values } :=
    ⟨h.code_eq.trans h'.code_eq.symm, rfl, sites, sites', h.sites_held,
      h'.sites_held, hsites⟩
  have hrun := @Replay.run_alike keys keys' ctx resolved
    (ctx.host.installAddress ctx.method) b'.header.codeSize nm.relocations
    _ _ hstart
  unfold revive
  rw [h.relocations_eq, h'.relocations_eq, h.stackMaps_eq, h'.stackMaps_eq,
    h.dependencies_eq, h'.dependencies_eq, h.speculations_eq,
    h'.speculations_eq, h.entry_eq, h'.entry_eq, h.verifiedEntry_eq,
    h'.verifiedEntry_eq, hsize]
  refine hrun.of_bind ?_
  rintro ⟨_, done⟩ ⟨_, done'⟩ ⟨_, hdone⟩
  refine .ok ?_
  rw [hdone.code_eq]

end CodeCache
