import CodeCache.Proofs.Blob.Matching
import CodeCache.Selection.Basic

/-!
# Checks do not depend on what was resolved before

As long as the host stays as it is, an entry of the metaspace is resolved again to
what it is resolved to now; where the entries hold what their keys lead to, that is
told by the keys alone. So a version passes or fails its checks the same way
whatever was resolved in between.
-/

namespace CodeCache

/-!
## Single entries
-/

namespace MetaSpace

variable {live : Host} {keys : List MetaKey} {epoch : Epoch}

theorem resolveEntry_of_error {entry : MetaEntry} {error : Error}
    (hentry : ∀ e, entry.live = some e → entry.key.resolve live = .ok e)
    (h : entry.key.resolve live = .error error) :
    resolveEntry live epoch entry = (.error error, entry) := by
  have hlive : entry.live = none := by
    cases hlive : entry.live with
    | none => rfl
    | some e =>
        have hresolve := hentry e hlive
        rw [h] at hresolve
        cases hresolve
  have hcurrent : entry.current? epoch = none := by
    unfold MetaEntry.current?
    rw [hlive]
    exact ite_self none
  unfold resolveEntry
  rw [hcurrent, hlive]
  simp only [Option.filter_none, h, Option.isSome_none, Bool.false_eq_true,
    if_false]

def leadsTo (live : Host) (keys : List MetaKey) (index : UInt32) :
    Except Error Entity :=
  match keys[index.toNat]? with
  | some key => key.resolve live
  | none => .error (.corruption (.metaIndex index keys.length))

theorem resolve_settles (index : UInt32) :
    Settles (Leads live keys) (resolve live epoch index)
      (leadsTo live keys index) := by
  unfold leadsTo
  cases hkey : keys[index.toNat]? with
  | none =>
      intro space hspace
      have hentry : space.entry? index = none := by
        rw [← hspace.keys_eq, MetaSpace.keys, List.getElem?_map,
          Option.map_eq_none_iff] at hkey
        exact hkey
      have hsize : space.size = keys.length := by
        rw [← hspace.keys_eq]
        exact (List.length_map _).symm
      refine ⟨space, hspace, ?_⟩
      rw [resolve_apply, hentry, hsize]
      rfl
  | some key =>
      dsimp only
      cases hresolve : key.resolve live with
      | ok e =>
          intro space hspace
          rcases resolve_gives hkey hresolve space hspace with
            ⟨space', hrun, hspace'⟩
          exact ⟨space', hspace', hrun⟩
      | error e =>
          intro space hspace
          have hat := hkey
          rw [← hspace.keys_eq, MetaSpace.keys, List.getElem?_map,
            Option.map_eq_some_iff] at hat
          rcases hat with ⟨entry, hentry, rfl⟩
          have hsame := @resolveEntry_of_error live epoch entry e
            (hspace.live_eq entry (List.mem_of_getElem? hentry)) hresolve
          have hset : space.setEntry index entry = space := by
            rcases List.getElem?_eq_some_iff.mp hentry with ⟨hlt, hget⟩
            unfold setEntry
            rw [← hget, List.set_getElem_self]
          refine ⟨space, hspace, ?_⟩
          rw [resolve_apply, show space.entry? index = some entry from hentry]
          dsimp only
          rw [hsame, hset]
          rfl

theorem resolve_steady (index : UInt32) :
    Steady (Leads live keys) (resolve live epoch index) :=
  ⟨_, resolve_settles index⟩

/-!
The same holds of a space in any state, whatever its entries were resolved to.
-/

theorem resolveEntry_of_checked (live : Host) (epoch : Epoch) (key : MetaKey)
    (e : Entity) :
    (resolveEntry live epoch ⟨key, some e, .of epoch.value⟩).1 = .ok e := by
  have hcurrent : MetaEntry.current? ⟨key, some e, .of epoch.value⟩ epoch =
      some e := by
    unfold MetaEntry.current? Stamp.isCurrent Stamp.of
    rw [beq_self_eq_true]
    rfl
  unfold resolveEntry
  rw [hcurrent]

theorem resolveEntry_again (live : Host) (epoch : Epoch) (entry : MetaEntry) :
    (resolveEntry live epoch (resolveEntry live epoch entry).2).1 =
      (resolveEntry live epoch entry).1 := by
  fun_cases resolveEntry live epoch entry with
  | case1 e hcurrent =>
      unfold resolveEntry
      rw [hcurrent]
  | case2 hcurrent e hfits =>
      rw [(Option.filter_eq_some_iff.mp hfits).1]
      exact resolveEntry_of_checked live epoch entry.key e
  | case3 hcurrent hfits cleared e hfound =>
      exact resolveEntry_of_checked live epoch cleared.key e
  | case4 hcurrent hfits cleared error hfound =>
      have hkey : cleared.key = entry.key := by
        unfold cleared
        split <;> rfl
      have hlive : cleared.live = none := by
        unfold cleared
        split
        · rfl
        · rename_i hsome
          exact Option.not_isSome_iff_eq_none.mp hsome
      have hgone : resolveEntry live epoch cleared = (.error error, cleared) := by
        refine resolveEntry_of_error ?_ (hkey ▸ hfound)
        intro e he
        rw [hlive] at he
        cases he
      rw [hgone]

def answers (live : Host) (epoch : Epoch) (space : MetaSpace) :
    List (Except Error Entity) :=
  space.entries.map fun entry => (resolveEntry live epoch entry).1

theorem answers_setEntry {space : MetaSpace} {index : UInt32} {entry : MetaEntry}
    (hentry : space.entry? index = some entry) :
    (space.setEntry index (resolveEntry live epoch entry).2).answers live epoch =
      space.answers live epoch := by
  have hat : (space.answers live epoch)[index.toNat]? =
      some (resolveEntry live epoch entry).1 := by
    unfold answers
    rw [List.getElem?_map, show space.entries[index.toNat]? = _ from hentry]
    rfl
  rcases List.getElem?_eq_some_iff.mp hat with ⟨hlt, hget⟩
  unfold answers at hlt hget ⊢
  unfold setEntry
  rw [List.map_set, resolveEntry_again, ← hget, List.set_getElem_self]

/-- Resolving answers the same and changes no answer, however often it is done. -/
theorem resolve_settles_answers (answers : List (Except Error Entity))
    (index : UInt32) :
    Settles (fun space => space.answers live epoch = answers)
      (resolve live epoch index)
      (answers[index.toNat]?.getD
        (.error (.corruption (.metaIndex index answers.length)))) := by
  intro space hspace
  have hat : answers[index.toNat]? =
      (space.entry? index).map fun entry => (resolveEntry live epoch entry).1 := by
    rw [← hspace]
    exact List.getElem?_map
  have hsize : answers.length = space.size := by
    rw [← hspace]
    exact List.length_map _
  rw [resolve_apply, hat, hsize]
  cases hentry : space.entry? index with
  | none => exact ⟨space, hspace, rfl⟩
  | some entry =>
      refine ⟨_, (answers_setEntry hentry).trans hspace, ?_⟩
      dsimp only
      show _ = ending (resolveEntry live epoch entry).1 _
      cases (resolveEntry live epoch entry).1 with
      | ok e => rfl
      | error error => rfl

end MetaSpace

/-!
## Records
-/

def ReviveContext.ResolvesOneWay (ctx : ReviveContext) (inv : MetaSpace → Prop) :
    Prop :=
  ∀ index, Steady inv (MetaSpace.resolve ctx.host ctx.epoch index)

theorem ReviveContext.resolvesOneWay_of_leads (ctx : ReviveContext)
    (keys : List MetaKey) :
    ctx.ResolvesOneWay (MetaSpace.Leads ctx.host keys) :=
  fun index => MetaSpace.resolve_steady index

theorem ReviveContext.resolvesOneWay_of_answers (ctx : ReviveContext)
    (answers : List (Except Error Entity)) :
    ctx.ResolvesOneWay fun space =>
      space.answers ctx.host ctx.epoch = answers :=
  fun index => ⟨_, MetaSpace.resolve_settles_answers answers index⟩

namespace ReviveContext

variable {ctx : ReviveContext} {inv : MetaSpace → Prop}
  (hinv : ctx.ResolvesOneWay inv)
include hinv

theorem klassAt_steady (index : UInt32) (needed : InitState) :
    Steady inv (ctx.klassAt index needed) := by
  unfold klassAt
  refine (hinv index).of_bind ?_
  intro e
  cases e with
  | klass k => exact (Steady.of_ofExcept _).of_bind fun _ => .of_pure k
  | method m => exact .of_throw _

theorem methodAt_steady (index : UInt32) : Steady inv (ctx.methodAt index) := by
  unfold methodAt
  refine (hinv index).of_bind ?_
  intro e
  cases e with
  | klass k => exact .of_throw _
  | method m => exact (Steady.of_ofExcept _).of_bind fun _ => .of_pure m

theorem entityOf_steady (r : TagRecord) : Steady inv (ctx.entityOf r) := by
  cases r with
  | nonOop | selfMethod => exact .of_pure _
  | klass loader index needed =>
      exact (klassAt_steady hinv index needed).of_bind_pure _
  | method loader index => exact (methodAt_steady hinv index).of_bind_pure _
  | _ => exact .of_throw _

theorem objectOf_steady (r : TagRecord) : Steady inv (ctx.objectOf r) := by
  cases r with
  | nonOop | text | knownObject => exact .of_pure _
  | mirror loader index needed =>
      exact (klassAt_steady hinv index needed).of_bind_pure _
  | loaderObject loader =>
      cases loader with
      | holder => exact .of_pure _
      | _ => exact .of_throw _
  | _ => exact .of_throw _

theorem siteValue?_steady (r : TagRecord) : Steady inv (ctx.siteValue? r) := by
  cases r with
  | selfMethod | klass | method => exact (entityOf_steady hinv _).of_bind_pure _
  | text | knownObject | mirror => exact (objectOf_steady hinv _).of_bind_pure _
  | _ => exact .of_pure _

end ReviveContext

/-!
## Arrays and sites
-/

namespace Blob

variable {inv : MetaSpace → Prop}

theorem readFrom_steady {α : Type} (reader : Read α) (c : Cursor) :
    Steady inv (readFrom reader c) := by
  unfold readFrom
  cases reader c with
  | ok a next => exact .of_pure _
  | error e next => exact .of_throw e

theorem resolveArray_steady {α : Type} {value : TagRecord → InSpace α}
    (h : ∀ r, Steady inv (value r)) (n : Nat) (c : Cursor) :
    Steady inv (resolveArray value n c) := by
  induction n generalizing c with
  | zero => exact (readFrom_steady _ c).of_bind fun _ => .of_pure []
  | succ n ih =>
      refine (readFrom_steady TagRecord.decode c).of_bind ?_
      rintro ⟨record, next⟩
      exact (h record).of_bind fun a => (ih next).of_bind_pure _

variable {ctx : ReviveContext} (hinv : ctx.ResolvesOneWay inv)
include hinv

theorem resolveMetadata_steady (b : Blob) : Steady inv (b.resolveMetadata ctx) :=
  resolveArray_steady (ReviveContext.entityOf_steady hinv) _ _

theorem resolveOops_steady (b : Blob) : Steady inv (b.resolveOops ctx) :=
  resolveArray_steady (ReviveContext.objectOf_steady hinv) _ _

theorem resolveSites_steady (b : Blob) : Steady inv (b.resolveSites ctx) := by
  unfold resolveSites
  refine (Steady.of_mapM
    (fun r : Nat × TagRecord =>
      ReviveContext.siteValue?_steady hinv r.2) _).of_bind ?_
  intro values
  cases (TagStream.scan b.tagReloc).fault with
  | none => exact .of_pure _
  | some e => exact .of_throw e

end Blob

/-!
## Versions

A check does not fail, it answers a verdict.
-/

namespace Selection

variable {ctx : ReviveContext} {inv : MetaSpace → Prop}

def SamePlace (state state' : VersionState) : Prop :=
  state'.version = state.version ∧ state'.offset = state.offset

theorem accept_returns (o : Options) (b : Blob) (state : VersionState) :
    Returns (accept ctx o b state) (SamePlace state) := by
  unfold accept
  refine (Returns.of_attempt _).of_bind ?_
  intro metadata _
  cases metadata with
  | error e => exact .of_pure ⟨rfl, rfl⟩
  | ok metadata =>
      dsimp only
      cases acceptance ctx o metadata b with
      | error e => exact .of_pure ⟨rfl, rfl⟩
      | ok score => exact .of_pure ⟨rfl, rfl⟩

theorem accept_steady (hinv : ctx.ResolvesOneWay inv) (o : Options) (b : Blob)
    (state : VersionState) :
    Steady inv (accept ctx o b state) := by
  unfold accept
  refine (Blob.resolveMetadata_steady hinv b).of_attempt.of_bind ?_
  intro metadata
  cases metadata with
  | error e => exact .of_pure _
  | ok metadata =>
      dsimp only
      cases acceptance ctx o metadata b with
      | error e => exact .of_pure _
      | ok score => exact .of_pure _

theorem prepare_returns (b : Blob) (state : VersionState) :
    Returns (prepare ctx b state) (SamePlace state) := by
  unfold prepare
  cases checkDependencies ctx state.resolved.metadata b with
  | error e => exact .of_pure ⟨rfl, rfl⟩
  | ok _ =>
      refine (Returns.of_attempt _).of_bind ?_
      intro oops _
      cases oops with
      | error e => exact .of_pure ⟨rfl, rfl⟩
      | ok oops =>
          refine (Returns.of_attempt _).of_bind ?_
          intro values _
          cases values with
          | error e => exact .of_pure ⟨rfl, rfl⟩
          | ok values =>
              dsimp only
              cases knownObjects b with
              | error e => exact .of_pure ⟨rfl, rfl⟩
              | ok known => exact .of_pure ⟨rfl, rfl⟩

theorem prepare_steady (hinv : ctx.ResolvesOneWay inv) (b : Blob)
    (state : VersionState) :
    Steady inv (prepare ctx b state) := by
  unfold prepare
  cases checkDependencies ctx state.resolved.metadata b with
  | error e => exact .of_pure _
  | ok _ =>
      refine (Blob.resolveOops_steady hinv b).of_attempt.of_bind ?_
      intro oops
      cases oops with
      | error e => exact .of_pure _
      | ok oops =>
          refine (Blob.resolveSites_steady hinv b).of_attempt.of_bind ?_
          intro values
          cases values with
          | error e => exact .of_pure _
          | ok values =>
              dsimp only
              cases knownObjects b with
              | error e => exact .of_pure _
              | ok known => exact .of_pure _

theorem checkBlob_returns (ctx : ReviveContext) (o : Options) (version : Nat)
    (b : Blob) :
    Returns (checkBlob ctx o version b)
      (SamePlace { version, offset := b.offset }) := by
  unfold checkBlob
  refine (accept_returns o b _).of_bind ?_
  rintro state ⟨hversion, hoffset⟩
  split
  · refine (prepare_returns b state).mono ?_
    rintro state' ⟨hversion', hoffset'⟩
    exact ⟨hversion'.trans hversion, hoffset'.trans hoffset⟩
  · exact .of_pure ⟨hversion, hoffset⟩

theorem checkBlob_steady (hinv : ctx.ResolvesOneWay inv) (o : Options)
    (version : Nat) (b : Blob) :
    Steady inv (checkBlob ctx o version b) := by
  unfold checkBlob
  refine (accept_steady hinv o b _).of_bind ?_
  intro state
  split
  · exact prepare_steady hinv b state
  · exact .of_pure state

theorem exists_settles (hinv : ctx.ResolvesOneWay inv) {space : MetaSpace}
    (hspace : inv space) (o : Options) (version : Nat) (b : Blob) :
    ∃ state, Settles inv (checkBlob ctx o version b) (.ok state) ∧
      state.version = version ∧ state.offset = b.offset := by
  rcases checkBlob_steady hinv o version b with ⟨outcome, hsettles⟩
  rcases hsettles space hspace with ⟨after, _, hrun⟩
  rcases checkBlob_returns ctx o version b space with
    ⟨state, after', hrun', hplace⟩
  rw [hrun'] at hrun
  cases outcome with
  | ok state' =>
      cases hrun
      exact ⟨state, hsettles, hplace⟩
  | error e => cases hrun

def Checks (ctx : ReviveContext) (o : Options) (keys : List MetaKey)
    (version : Nat) (b : Blob) (state : VersionState) : Prop :=
  Settles (MetaSpace.Leads ctx.host keys) (checkBlob ctx o version b) (.ok state)

theorem leads_ofKeys (live : Host) (keys : List MetaKey) :
    (MetaSpace.ofKeys keys).Leads live keys := by
  have h := MetaSpace.leads_of_fresh live (MetaSpace.fresh_ofKeys keys)
  rw [MetaSpace.keys_ofKeys] at h
  exact h

theorem exists_checks (ctx : ReviveContext) (o : Options) (keys : List MetaKey)
    (version : Nat) (b : Blob) :
    ∃ state, Checks ctx o keys version b state ∧ state.version = version ∧
      state.offset = b.offset :=
  exists_settles (ctx.resolvesOneWay_of_leads keys) (leads_ofKeys ctx.host keys)
    o version b

end Selection

end CodeCache
