import CodeCache.Host.World
import CodeCache.Proofs.Blob.Faults
import CodeCache.Proofs.Blob.Replaying

/-!
# Both phases of a revive in step

Resolving tells the records of the patch sites by their tags, replaying tells them by
the sites that they are read for. Whatever blob was resolved, each record that the
replay takes still has its own value at the front of the list.
-/

namespace CodeCache

namespace TagRecord

def Yields (answer : Option SiteValue) : TagRecord → Prop
  | .nonOop => answer = some .null
  | .selfMethod | .klass .. | .method .. => ∃ e, answer = some (.entity e)
  | .text _ | .knownObject _ | .mirror .. => ∃ o, answer = some (.object o)
  | .global .. | .internalWord _ | .skip | .loaderObject _ | .finish => answer = none

end TagRecord

/-!
## Resolving
-/

namespace ReviveContext

theorem siteValue?_yields (ctx : ReviveContext) (record : TagRecord) :
    Ensures (fun _ => True) (ctx.siteValue? record) (record.Yields ·) := by
  cases record with
  | nonOop => exact Ensures.of_pure rfl
  | selfMethod => exact Ensures.of_pure ⟨_, rfl⟩
  | text s => exact Ensures.of_pure ⟨_, rfl⟩
  | knownObject o => exact Ensures.of_pure ⟨_, rfl⟩
  | klass loader index needed =>
      have hentity : Ensures (fun _ => True) (ctx.entityOf (.klass loader index needed))
          fun answer => ∃ e, answer = some e :=
        (Ensures.of_true _).of_bind fun k _ => Ensures.of_pure ⟨_, rfl⟩
      refine hentity.of_bind ?_
      rintro _ ⟨e, rfl⟩
      exact Ensures.of_pure ⟨e, rfl⟩
  | method loader index =>
      have hentity : Ensures (fun _ => True) (ctx.entityOf (.method loader index))
          fun answer => ∃ e, answer = some e :=
        (Ensures.of_true _).of_bind fun m _ => Ensures.of_pure ⟨_, rfl⟩
      refine hentity.of_bind ?_
      rintro _ ⟨e, rfl⟩
      exact Ensures.of_pure ⟨e, rfl⟩
  | mirror loader index needed =>
      have hobject : Ensures (fun _ => True) (ctx.objectOf (.mirror loader index needed))
          fun answer => ∃ o, answer = some o :=
        (Ensures.of_true _).of_bind fun k _ => Ensures.of_pure ⟨_, rfl⟩
      refine hobject.of_bind ?_
      rintro _ ⟨o, rfl⟩
      exact Ensures.of_pure ⟨o, rfl⟩
  | global | internalWord | skip | loaderObject | finish => exact Ensures.of_pure rfl

end ReviveContext

def SiteValue.AllOf (values : List SiteValue) (records : List TagRecord) : Prop :=
  ∃ answers, List.Forall₂ (fun record answer => record.Yields answer) records answers ∧
    values = answers.filterMap id

namespace Blob

variable {b : Blob} {ctx : ReviveContext} {space space' : MetaSpace} {resolved : Resolved}

/-- A blob that could be resolved has a whole stream of records, and a value for each of
them that has one. -/
theorem holds_of_resolve (h : b.resolve ctx space = .ok resolved space') :
    ∃ records, TagStream.Holds { bytes := b.tagReloc } records ∧
      SiteValue.AllOf resolved.values records := by
  have hsites : Ensures (fun _ => True) (b.resolveSites ctx) fun values =>
      ∃ records, TagStream.Holds { bytes := b.tagReloc } records ∧
        SiteValue.AllOf values records := by
    unfold resolveSites
    refine (Ensures.of_mapM (Q := fun entry answer => entry.2.Yields answer)
      fun entry _ => ctx.siteValue?_yields entry.2).of_bind ?_
    intro answers hanswers
    cases hfault : (TagStream.scan b.tagReloc).fault with
    | some e => exact Ensures.of_throw e
    | none =>
        refine Ensures.of_pure ⟨(TagStream.scan b.tagReloc).records.map (·.2), ?_, answers,
          List.forall₂_map_left_iff.mpr hanswers, rfl⟩
        refine TagStream.holds_of_scanFrom hfault (Nat.succ_pos _) ?_
        rw [Nat.zero_add]
        exact Nat.lt_succ_self _
  have hresolve : Ensures (fun _ => True) (b.resolve ctx) fun resolved =>
      ∃ records, TagStream.Holds { bytes := b.tagReloc } records ∧
        SiteValue.AllOf resolved.values records := by
    refine (Ensures.of_true _).of_bind fun metadata _ => ?_
    refine (Ensures.of_true _).of_bind fun oops _ => ?_
    refine hsites.of_bind fun values hvalues => ?_
    exact Ensures.of_pure hvalues
  exact (hresolve.ok_and_post trivial h).2

end Blob

/-!
## Replaying
-/

namespace Replay

def Does {α : Type} (fails : Error → Prop) (before : Replay → Prop) (work : Replaying α)
    (after : α → Replay → Prop) : Prop :=
  ∀ state, before state →
    (∃ a state', work state = .ok (a, state') ∧ after a state') ∨
      ∃ e, work state = .error e ∧ fails e

namespace Does

variable {α β : Type} {fails : Error → Prop} {before : Replay → Prop}

theorem of_pure {after : α → Replay → Prop} {a : α}
    (h : ∀ state, before state → after a state) :
    Does fails before (pure a) after :=
  fun state hstate => Or.inl ⟨a, state, rfl, h state hstate⟩

theorem of_throw {after : α → Replay → Prop} {e : Error}
    (h : ∀ state, before state → fails e) :
    Does fails before (throw e) after :=
  fun state hstate => Or.inr ⟨e, rfl, h state hstate⟩

theorem of_bind {work : Replaying α} {next : α → Replaying β}
    {between : α → Replay → Prop} {after : β → Replay → Prop}
    (h : Does fails before work between)
    (hnext : ∀ a, Does fails (between a) (next a) after) :
    Does fails before (work >>= next) after := by
  intro state hstate
  show (∃ b state', (work state >>= fun x => next x.1 x.2) = _ ∧ _) ∨
    ∃ e, (work state >>= fun x => next x.1 x.2) = _ ∧ _
  rcases h state hstate with ⟨a, state', hrun, hbetween⟩ | ⟨e, hrun, he⟩
  · rw [hrun]
    exact hnext a state' hbetween
  · rw [hrun]
    exact Or.inr ⟨e, rfl, he⟩

theorem of_lift {result : Except Error α} (h : ∀ e, result = .error e → fails e) :
    Does fails before (liftM result) fun _ => before := by
  intro state hstate
  cases result with
  | ok a => exact Or.inl ⟨a, state, rfl, hstate⟩
  | error e => exact Or.inr ⟨e, rfl, h e rfl⟩

theorem of_bind_pure {work : Replaying α} {f : α → β}
    (h : Does fails before work fun _ => before) :
    Does fails before (work >>= fun a => pure (f a)) fun _ => before :=
  h.of_bind fun _ => of_pure fun _ hstate => hstate

theorem of_forM {work : α → Replaying PUnit} {as : List α}
    (h : ∀ a ∈ as, Does fails before (work a) fun _ => before) :
    Does fails before (as.forM work) fun _ => before := by
  induction as with
  | nil => exact of_pure fun _ hstate => hstate
  | cons a as ih =>
      show Does fails before (work a >>= fun _ => as.forM work) _
      refine (h a List.mem_cons_self).of_bind fun _ => ?_
      exact ih fun b hb => h b (List.mem_cons_of_mem a hb)

end Does

end Replay

def Relocation.places (r : Relocation) : List UInt32 :=
  r.offset :: match r.kind with
    | .virtualCall cachedValueOffset => [cachedValueOffset]
    | .staticStub metadataOffset jumpOffset => [metadataOffset, jumpOffset]
    | _ => []

namespace Replay

/-- What can be wrong with a patch site, other than that the phases have lost step: the
stream ends or names something else, a runtime address is not registered, an array is
too short, or a slot is not in the code. -/
inductive SiteFault (records : List TagRecord) (r : Relocation) : Error → Prop where
  | streamEnds : SiteFault records r (.corruption (.streamEnds r.offset))
  | globalSite {record : TagRecord} (h : record ∈ records) :
    SiteFault records r (.corruption (.globalSite record r.offset))
  | oopSite {record : TagRecord} (h : record ∈ records) :
    SiteFault records r (.corruption (.oopSite record r.offset))
  | metadataSite {record : TagRecord} (h : record ∈ records) :
    SiteFault records r (.corruption (.metadataSite record r.offset))
  | pollSite {record : TagRecord} (h : record ∈ records) :
    SiteFault records r (.corruption (.pollSite record r.offset))
  | internalSite {record : TagRecord} {codeSize : UInt32} (h : record ∈ records) :
    SiteFault records r (.corruption (.internalSite record r.offset codeSize))
  | globalMissing (kind : GlobalKind) :
    SiteFault records r (.unresolved (.globalMissing kind))
  | globalOffset {kind : GlobalKind} {offset : UInt32}
      (h : .global kind offset ∈ records ∨ offset = 0) :
    SiteFault records r (.corruption (.globalOffset offset kind))
  | arrayIndex {what : String} {index : UInt32} {count : Nat}
      (h : r.kind = .oop index false ∨ r.kind = .metadata index false) :
    SiteFault records r (.corruption (.arrayIndex what index count))
  | patchSlot {slot : UInt32} {size : Nat} (hslot : slot ∈ r.places)
      (hsize : size < slot.toNat + 8) :
    SiteFault records r (.corruption (.patchSlot slot.toNat size))

def InStep (records : List TagRecord) (state : Replay) : Prop :=
  ∃ left, left ⊆ records ∧ TagStream.Holds state.tags left ∧
    SiteValue.AllOf state.values left

def Took (records : List TagRecord) (record : TagRecord) (state : Replay) : Prop :=
  record ∈ records ∧ ∃ answer values, record.Yields answer ∧
    state.values = answer.toList ++ values ∧ InStep records { state with values := values }

variable {records : List TagRecord} {ctx : ReviveContext} {r : Relocation}

theorem Took.inStep {record : TagRecord} {state : Replay} (h : Took records record state)
    (hnone : ∀ answer, record.Yields answer → answer = none) :
    InStep records state := by
  rcases h with ⟨-, answer, values, hyields, hvalues, hstep⟩
  cases hnone answer hyields
  rw [Option.toList_none, List.nil_append] at hvalues
  subst hvalues
  exact hstep

theorem record_does :
    Does (SiteFault records r) (InStep records) (record r.offset) (Took records) := by
  rintro state ⟨left, hsub, hholds, answers, hall, hvalues⟩
  cases hall with
  | nil =>
      cases hholds with
      | finish hend => exact Or.inr ⟨_, record_of_end r.offset hend, .streamEnds⟩
  | @cons record answer left answers hyields hrest =>
      cases hholds with
      | cons hread hne htags =>
          refine Or.inl ⟨record, _, record_eq r.offset hread hne,
            hsub List.mem_cons_self, answer, answers.filterMap id, hyields, ?_, left, ?_,
            htags, answers, hrest, rfl⟩
          · rw [hvalues]
            cases answer with
            | none => rfl
            | some v => rfl
          · exact List.Subset.trans (List.subset_cons_self record left) hsub

theorem value_does {fails : Error → Prop} {record : TagRecord} {Q : SiteValue → Prop}
    (h : ∀ answer, record.Yields answer → ∃ v, answer = some v ∧ Q v) :
    Does fails (Took records record) value fun v state => Q v ∧ InStep records state := by
  rintro state ⟨-, answer, values, hyields, hvalues, hstep⟩
  rcases h answer hyields with ⟨v, rfl, hv⟩
  refine Or.inl ⟨v, { state with values := values }, ?_, hv, hstep⟩
  unfold value
  rw [run_get_bind, hvalues]
  rfl

theorem write_does {slot : UInt32} (hslot : slot ∈ r.places) (v : UInt64) :
    Does (SiteFault records r) (InStep records) (write slot v) fun _ => InStep records := by
  intro state hstate
  unfold write
  show (∃ a state', ((state.code.writeSlot slot.toNat v >>= fun code =>
    pure (code, state)) >>= fun result => _) = _ ∧ _) ∨
    ∃ e, ((state.code.writeSlot slot.toNat v >>= fun code =>
      pure (code, state)) >>= fun result => _) = _ ∧ _
  cases hwrite : state.code.writeSlot slot.toNat v with
  | ok code => exact Or.inl ⟨(), { state with code := code }, rfl, hstate⟩
  | error e =>
      refine Or.inr ⟨e, rfl, ?_⟩
      unfold Bytes.writeSlot at hwrite
      split at hwrite
      · cases hwrite
      · rename_i hout
        cases hwrite
        exact .patchSlot hslot (Nat.lt_of_not_le hout)

/-!
## Sites
-/

theorem siteFault_of_addressOf {globals : GlobalTable} {kind : GlobalKind}
    {offset : UInt32} (h : .global kind offset ∈ records ∨ offset = 0) (e : Error)
    (hrun : globals.addressOf kind offset = .error e) :
    SiteFault records r e := by
  unfold GlobalTable.addressOf at hrun
  split at hrun
  · cases hrun
    exact .globalMissing kind
  · dsimp only at hrun
    split at hrun
    · cases hrun
      exact .globalOffset h
    · cases hrun

theorem siteFault_of_entryAddress {α : Type} {address : α → UInt64} {what : String}
    {entries : List (Option α)} {index : UInt32}
    (h : r.kind = .oop index false ∨ r.kind = .metadata index false) (e : Error)
    (hrun : entryAddress address what entries index = .error e) :
    SiteFault records r e := by
  unfold entryAddress at hrun
  split at hrun
  · cases hrun
  · cases hrun
    exact .arrayIndex h

theorem Does.of_value {fails : Error → Prop} {record : TagRecord} {Q : SiteValue → Prop}
    {next : SiteValue → Replaying UInt64}
    (h : ∀ answer, record.Yields answer → ∃ v, answer = some v ∧ Q v)
    (hnext : ∀ v, Q v → ∃ address, next v = pure address) :
    Does fails (Took records record) (value >>= next) fun _ => InStep records := by
  refine (value_does h).of_bind fun v => ?_
  rintro state ⟨hv, hstate⟩
  rcases hnext v hv with ⟨address, haddress⟩
  rw [haddress]
  exact Or.inl ⟨address, state, rfl, hstate⟩

theorem global_does :
    Does (SiteFault records r) (InStep records) (global ctx r.offset)
      fun _ => InStep records := by
  unfold global
  refine record_does.of_bind fun record => ?_
  cases record with
  | global kind offset =>
      intro state hstate
      exact Does.of_lift (siteFault_of_addressOf (Or.inl hstate.1)) state
        (hstate.inStep fun _ h => h)
  | _ => exact .of_throw fun _ h => .globalSite h.1

theorem objectAddress_does :
    Does (SiteFault records r) (InStep records) (objectAddress ctx r.offset)
      fun _ => InStep records := by
  unfold objectAddress
  refine record_does.of_bind fun record => ?_
  cases record with
  | loaderObject loader => exact .of_pure fun _ h => h.inStep fun _ h => h
  | nonOop =>
      refine Does.of_value (Q := fun v => v = .null) (fun _ h => ⟨_, h, rfl⟩) ?_
      rintro _ rfl
      exact ⟨_, rfl⟩
  | text | knownObject | mirror =>
      refine Does.of_value (Q := fun v => ∃ o, v = .object o)
        (fun _ h => h.elim fun o h => ⟨_, h, o, rfl⟩) ?_
      rintro _ ⟨o, rfl⟩
      exact ⟨_, rfl⟩
  | _ => exact .of_throw fun _ h => .oopSite h.1

theorem entityAddress_does :
    Does (SiteFault records r) (InStep records) (entityAddress ctx r.offset)
      fun _ => InStep records := by
  unfold entityAddress
  refine record_does.of_bind fun record => ?_
  cases record with
  | nonOop =>
      refine Does.of_value (Q := fun v => v = .null) (fun _ h => ⟨_, h, rfl⟩) ?_
      rintro _ rfl
      exact ⟨_, rfl⟩
  | selfMethod | klass | method =>
      refine Does.of_value (Q := fun v => ∃ e, v = .entity e)
        (fun _ h => h.elim fun e h => ⟨_, h, e, rfl⟩) ?_
      rintro _ ⟨e, rfl⟩
      exact ⟨_, rfl⟩
  | _ => exact .of_throw fun _ h => .metadataSite h.1

theorem internalAddress_does (base : UInt64) (codeSize : UInt32) :
    Does (SiteFault records r) (InStep records) (internalAddress base codeSize r.offset)
      fun _ => InStep records := by
  unfold internalAddress
  refine record_does.of_bind fun record => ?_
  cases record with
  | internalWord offset =>
      dsimp only
      split
      · exact .of_pure fun _ h => h.inStep fun _ h => h
      · exact .of_throw fun _ h => .internalSite h.1
  | _ => exact .of_throw fun _ h => .internalSite h.1

theorem pollAddress?_does :
    Does (SiteFault records r) (InStep records) (pollAddress? ctx r.offset)
      fun _ => InStep records := by
  unfold pollAddress?
  refine record_does.of_bind fun record => ?_
  cases record with
  | skip => exact .of_pure fun _ h => h.inStep fun _ h => h
  | global kind offset =>
      intro state hstate
      exact (Does.of_lift (siteFault_of_addressOf (Or.inl hstate.1))).of_bind_pure state
        (hstate.inStep fun _ h => h)
  | _ => exact .of_throw fun _ h => .pollSite h.1

theorem siteValue?_does (resolved : Resolved) (base : UInt64) (codeSize : UInt32)
    (r : Relocation) :
    Does (SiteFault records r) (InStep records) (siteValue? ctx resolved base codeSize r)
      fun _ => InStep records := by
  have hcall : ∀ kind, Does (SiteFault records r) (InStep records)
      (liftM (ctx.host.globals.addressOf kind 0)) fun _ => InStep records :=
    fun kind => .of_lift (siteFault_of_addressOf (Or.inr rfl))
  rcases r with ⟨offset, kind⟩
  unfold siteValue?
  cases kind with
  | none => exact .of_pure fun _ h => h
  | oop index immediate =>
      cases immediate with
      | false => exact (Does.of_lift (siteFault_of_entryAddress (Or.inl rfl))).of_bind_pure
      | true => exact objectAddress_does.of_bind_pure
  | metadata index immediate =>
      cases immediate with
      | false => exact (Does.of_lift (siteFault_of_entryAddress (Or.inr rfl))).of_bind_pure
      | true => exact entityAddress_does.of_bind_pure
  | externalWord | runtimeCall => exact global_does.of_bind_pure
  | poll | pollReturn => exact pollAddress?_does
  | virtualCall cached =>
      have hcached : cached ∈ Relocation.places ⟨offset, .virtualCall cached⟩ := by
        simp [Relocation.places]
      refine (write_does hcached _).of_bind fun _ => ?_
      exact (hcall _).of_bind_pure
  | optVirtualCall | staticCall => exact (hcall _).of_bind_pure
  | staticStub metadata jump =>
      have hplaces : metadata ∈ Relocation.places ⟨offset, .staticStub metadata jump⟩ ∧
          jump ∈ Relocation.places ⟨offset, .staticStub metadata jump⟩ := by
        simp [Relocation.places]
      refine (write_does hplaces.1 _).of_bind fun _ => ?_
      refine (write_does hplaces.2 _).of_bind fun _ => ?_
      exact .of_pure fun _ h => h
  | internalWord | sectionWord => exact (internalAddress_does base codeSize).of_bind_pure

theorem site_does (resolved : Resolved) (base : UInt64) (codeSize : UInt32)
    (r : Relocation) :
    Does (SiteFault records r) (InStep records) (site ctx resolved base codeSize r)
      fun _ => InStep records := by
  unfold site
  refine (siteValue?_does resolved base codeSize r).of_bind fun v => ?_
  cases v with
  | none => exact .of_pure fun _ h => h
  | some v => exact write_does List.mem_cons_self v

/-!
## Whole blobs
-/

inductive Fault (records : List TagRecord) (relocs : List Relocation) : Error → Prop where
  | site {r : Relocation} {e : Error} (hr : r ∈ relocs) (h : SiteFault records r e) :
    Fault records relocs e
  | tagNotEnd {position : Nat} {record : TagRecord} (h : record ∈ records) :
    Fault records relocs (.corruption (.tagNotEnd position record))

theorem Does.mono {α : Type} {fails fails' : Error → Prop} {before : Replay → Prop}
    {work : Replaying α} {after : α → Replay → Prop} (h : Does fails before work after)
    (hfails : ∀ e, fails e → fails' e) :
    Does fails' before work after := by
  intro state hstate
  exact (h state hstate).imp id fun ⟨e, hrun, he⟩ => ⟨e, hrun, hfails e he⟩

theorem finish_does {relocs : List Relocation} :
    Does (Fault records relocs) (InStep records) finish fun _ _ => True := by
  rintro state ⟨left, hsub, hholds, answers, hall, hvalues⟩
  unfold finish
  rw [run_get_bind]
  cases hall with
  | nil =>
      cases hholds with
      | finish hend =>
          rw [Blob.decodeEnd_eq hend, hvalues]
          exact Or.inl ⟨(), state, rfl, trivial⟩
  | @cons record answer left answers hyields hrest =>
      cases hholds with
      | cons hread hne htags =>
          rcases Blob.decodeEnd_of_record hread hne with ⟨position, rest, hend⟩
          rw [hend]
          exact Or.inr ⟨_, rfl, .tagNotEnd (hsub List.mem_cons_self)⟩

theorem run_does (ctx : ReviveContext) (resolved : Resolved) (base : UInt64)
    (codeSize : UInt32) (relocs : List Relocation) :
    Does (Fault records relocs) (InStep records) (run ctx resolved base codeSize relocs)
      fun _ _ => True := by
  unfold run
  have hsites : ∀ r ∈ relocs, Does (Fault records relocs) (InStep records)
      (site ctx resolved base codeSize r) fun _ => InStep records :=
    fun r hr => (site_does resolved base codeSize r).mono fun _ => .site hr
  exact (Does.of_forM hsites).of_bind fun _ => finish_does

end Replay

/-- What a replay reports that has lost step: the values have run out, one is of the
other sort, or some are left. -/
inductive Error.OutOfStep : Error → Prop where
  | streamOverruns : OutOfStep (.corruption .streamOverruns)
  | metadataAtOopSite (site : UInt32) : OutOfStep (.corruption (.metadataAtOopSite site))
  | objectAtMetadataSite (site : UInt32) :
    OutOfStep (.corruption (.objectAtMetadataSite site))
  | valuesUnused (count : Nat) : OutOfStep (.corruption (.valuesUnused count))

namespace Blob

/-- What can be wrong with a blob that could be resolved: a section that cannot be read,
or a fault of the replay. -/
inductive ReviveFault (b : Blob) : Error → Prop where
  | relocations {e : Error} (hrun : b.relocations = .error e) (h : Relocation.Fault e) :
    ReviveFault b e
  | replay {records : List TagRecord} {relocs : List Relocation} {e : Error}
      (hholds : TagStream.Holds { bytes := b.tagReloc } records)
      (hrelocs : b.relocations = .ok relocs) (h : Replay.Fault records relocs e) :
    ReviveFault b e
  | stackMaps {e : Error} (hrun : b.stackMaps = .error e) (h : StackMap.Fault e) :
    ReviveFault b e
  | dependencies {e : Error} (hrun : b.dependencies = .error e) (h : Wire.Fault e) :
    ReviveFault b e
  | speculations {e : Error} (hrun : b.speculations = .error e) (h : Wire.Fault e) :
    ReviveFault b e

variable {b : Blob} {ctx : ReviveContext} {space space' : MetaSpace} {resolved : Resolved}
  {e : Error}

theorem ReviveFault.not_outOfStep (h : b.ReviveFault e) : ¬ e.OutOfStep := by
  intro hout
  cases h with
  | relocations _ h => cases h <;> cases hout
  | replay _ _ h =>
      cases h with
      | site _ h => cases h <;> cases hout
      | tagNotEnd _ => cases hout
  | stackMaps _ h => cases h <;> cases hout
  | dependencies _ h | speculations _ h =>
      cases h
      cases hout

theorem fault_of_sections {α : Type}
    {result : List StackMap → List Dependency → List Speculation → α}
    (h : (do
      let stackMaps ← b.stackMaps
      let dependencies ← b.dependencies
      let speculations ← b.speculations
      return result stackMaps dependencies speculations) = .error e) :
    b.ReviveFault e := by
  cases hstackMaps : b.stackMaps with
  | error e' =>
      rw [hstackMaps] at h
      cases h
      exact .stackMaps hstackMaps (fault_of_stackMaps hstackMaps)
  | ok stackMaps =>
      rw [hstackMaps] at h
      change (b.dependencies >>= _) = _ at h
      cases hdependencies : b.dependencies with
      | error e' =>
          rw [hdependencies] at h
          cases h
          exact .dependencies hdependencies (fault_of_dependencies hdependencies)
      | ok dependencies =>
          rw [hdependencies] at h
          change (b.speculations >>= _) = _ at h
          cases hspeculations : b.speculations with
          | error e' =>
              rw [hspeculations] at h
              cases h
              exact .speculations hspeculations (fault_of_speculations hspeculations)
          | ok speculations =>
              rw [hspeculations] at h
              cases h

/-- Whatever a blob holds that could be resolved, its replay never loses step: a failure
says what is wrong with the blob itself, or which runtime address is missing. -/
theorem revive_in_step (hresolve : b.resolve ctx space = .ok resolved space')
    (h : b.revive ctx resolved = .error e) :
    b.ReviveFault e ∧ ¬ e.OutOfStep := by
  have hfault : b.ReviveFault e := by
    rcases holds_of_resolve hresolve with ⟨records, hholds, hvalues⟩
    have hstart : Replay.InStep records
        { code := b.code, tags := { bytes := b.tagReloc }, values := resolved.values } :=
      ⟨records, List.Subset.refl records, hholds, hvalues⟩
    unfold revive at h
    cases hrelocs : b.relocations with
    | error e' =>
        rw [hrelocs] at h
        cases h
        exact .relocations hrelocs (fault_of_relocations hrelocs)
    | ok relocs =>
        rw [hrelocs] at h
        change (Replay.run ctx _ _ _ _ _ >>= _) = _ at h
        rcases Replay.run_does ctx resolved (ctx.host.installAddress ctx.method)
          b.header.codeSize relocs _ hstart with ⟨_, done, hrun, -⟩ | ⟨e', hrun, he⟩
        · rw [hrun] at h
          exact fault_of_sections h
        · rw [hrun] at h
          cases h
          exact .replay hholds hrelocs he
  exact ⟨hfault, hfault.not_outOfStep⟩

def misread : Blob :=
  let header : BlobHeader :=
    { size := 152, codeSize := 8, relocStart := 96, relocCount := 1,
      deps := ⟨152, 0⟩, opts := ⟨152, 0⟩, tagMeta := ⟨128, 8⟩, tagOop := ⟨136, 8⟩,
      tagReloc := ⟨112, 16⟩, stackMaps := ⟨144, 8⟩, nextVersion := -1 }
  { header, offset := 0,
    bytes := header.encode ++ Bytes.ofUInt64 0 ++ Relocation.encode ⟨0, .oop 0 true⟩ ++
      TagStream.encode [.skip] ++ TagStream.encode [] ++ TagStream.encode [] ++
      StackMap.encodeAll [] }

def idle : ReviveContext where
  host := (World.empty 0).host
  epoch := {}
  method := ⟨0⟩

theorem revive_in_step_misread :
    Blob.parse misread.bytes 0 = .ok misread ∧
      misread.resolve idle {} = .ok {} {} ∧
      misread.revive idle {} = .error (.corruption (.oopSite .skip 0)) ∧
      misread.ReviveFault (.corruption (.oopSite .skip 0)) ∧
      ¬ Error.OutOfStep (.corruption (.oopSite .skip 0)) := by
  have hresolve : misread.resolve idle {} = .ok {} {} := by rfl
  have hrevive : misread.revive idle {} = .error (.corruption (.oopSite .skip 0)) := by rfl
  have hparse : Blob.parse misread.bytes 0 = .ok misread :=
    eq_ok_of_valueWith (by decide +kernel)
  exact ⟨hparse, hresolve, hrevive, revive_in_step hresolve hrevive⟩

def unmapped : Blob :=
  let header : BlobHeader :=
    { size := 128, codeSize := 8, relocStart := 96, relocCount := 0,
      deps := ⟨128, 0⟩, opts := ⟨128, 0⟩, tagMeta := ⟨104, 8⟩, tagOop := ⟨112, 8⟩,
      tagReloc := ⟨96, 8⟩, stackMaps := ⟨120, 8⟩, nextVersion := -1 }
  { header, offset := 0,
    bytes := header.encode ++ Bytes.ofUInt64 0 ++ TagStream.encode [] ++
      TagStream.encode [] ++ TagStream.encode [] ++ Bytes.ofUInt32 8 ++ Bytes.ofUInt32 0 }

theorem revive_fails_behind_replay :
    Blob.parse unmapped.bytes 0 = .ok unmapped ∧
      unmapped.resolve idle {} = .ok {} {} ∧
      unmapped.revive idle {} = .error (.corruption (.stackMapSize 8 0)) ∧
      ¬ Relocation.Fault (.corruption (.stackMapSize 8 0)) ∧
      ∀ records relocs,
        ¬ Replay.Fault records relocs (.corruption (.stackMapSize 8 0)) := by
  have hparse : Blob.parse unmapped.bytes 0 = .ok unmapped :=
    eq_ok_of_valueWith (by decide +kernel)
  refine ⟨hparse, by rfl, by rfl, nofun, ?_⟩
  rintro records relocs ⟨-, h⟩
  cases h

end Blob

end CodeCache
