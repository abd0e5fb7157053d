import CodeCache.Blob.Resolve
import CodeCache.Proofs.Work

/-!
# What resolution trusts

Resolving an entry of a metaspace answers the live entity that was found before,
as long as no redefinition was announced since. This module holds the invariant
that makes the shortcut safe, and what every resolution answers under it: an
entity with the identity and the loader of the key.
-/

namespace CodeCache

def Host.Finds (host : Host) (key : MetaKey) (e : Entity) : Prop :=
  key.lookup host = some e

namespace MetaKey

theorem of_resolve {host : Host} {key : MetaKey} {e : Entity}
    (h : key.resolve host = .ok e) :
    key.lookup host = some e ∧ key.fits host e = true := by
  unfold resolve at h
  cases hfound : key.lookup host with
  | none =>
      rw [hfound] at h
      cases h
  | some found =>
      rw [hfound] at h
      dsimp only at h
      split at h
      · cases h
      · rename_i hloader
        split at h
        · cases h
        · rename_i hidentity
          cases h
          refine ⟨rfl, ?_⟩
          unfold fits
          rw [Bool.and_eq_true, beq_iff_eq, beq_iff_eq]
          exact ⟨Decidable.not_not.mp hidentity, Decidable.not_not.mp hloader⟩

theorem fits_iff {host : Host} {key : MetaKey} {e : Entity} :
    key.fits host e = true ↔
      host.entityIdentity e = key.identity ∧ host.entityLoader e = key.loader := by
  unfold fits
  rw [Bool.and_eq_true, beq_iff_eq, beq_iff_eq]

variable {host : Host} {key : MetaKey}

theorem of_klass {k : ClassId} (h : of host (.klass k) = .ok key) :
    key = ⟨.klass (host.className k), host.classIdentity k,
      host.classLoader k⟩ := by
  unfold of at h
  dsimp only at h
  split at h
  · cases h
  · cases h
    rfl

theorem of_method {m : MethodId} (h : of host (.method m) = .ok key) :
    key = ⟨.method (host.className (host.methodHolder m)) (host.methodName m)
        (host.methodSignature m),
      host.methodIdentity m, host.classLoader (host.methodHolder m)⟩ := by
  unfold of at h
  dsimp only at h
  split at h
  · cases h
  · cases h
    rfl

theorem loader_of {e : Entity} (h : of host e = .ok key) :
    key.loader = host.entityLoader e := by
  cases e with
  | klass k =>
      rw [of_klass h]
      rfl
  | method m =>
      rw [of_method h]
      rfl

theorem resolve_of_lookup {e : Entity} (hlookup : key.lookup host = some e)
    (hidentity : host.entityIdentity e = key.identity)
    (hloader : host.entityLoader e = key.loader) :
    key.resolve host = .ok e := by
  unfold resolve
  rw [hlookup]
  dsimp only
  rw [if_neg (not_not_intro hloader), if_neg (not_not_intro hidentity)]

end MetaKey

/-!
## One entry
-/

/-- What survives a redefinition that is not announced yet. The host may have lost
the entity by now: nothing tells an entry of that. -/
structure MetaEntry.Stamped (epoch : Epoch) (seen : MetaKey → Entity → Prop)
    (entry : MetaEntry) : Prop where
  stamp_le : entry.checked.value ≤ epoch.value
  live_seen : ∀ e, entry.live = some e → seen entry.key e

structure MetaEntry.Sound (host : Host) (epoch : Epoch)
    (seen : MetaKey → Entity → Prop) (entry : MetaEntry) : Prop
    extends MetaEntry.Stamped epoch seen entry where
  current_fits :
    ∀ e, entry.current? epoch = some e → entry.key.fits host e = true

namespace MetaEntry

theorem sound_of_key (host : Host) (epoch : Epoch)
    (seen : MetaKey → Entity → Prop) (key : MetaKey) :
    Sound host epoch seen { key } where
  stamp_le := Nat.zero_le _
  live_seen := by
    intro e h
    cases h
  current_fits := by
    intro e h
    unfold current? at h
    split at h <;> cases h

theorem current?_of_checked {entry : MetaEntry} {epoch : Epoch} {e : Entity}
    (h : entry.current? epoch = some e) :
    entry.live = some e := by
  unfold current? at h
  split at h
  · exact h
  · cases h

theorem Stamped.mono {epoch : Epoch} {seen seen' : MetaKey → Entity → Prop}
    {entry : MetaEntry} (h : entry.Stamped epoch seen)
    (hseen : ∀ key e, seen key e → seen' key e) :
    entry.Stamped epoch seen' :=
  ⟨h.stamp_le, fun e he => hseen entry.key e (h.live_seen e he)⟩

theorem Sound.of_same {host host' : Host} {epoch : Epoch}
    {seen seen' : MetaKey → Entity → Prop} {entry : MetaEntry}
    (h : entry.Sound host epoch seen) (hseen : ∀ key e, seen key e → seen' key e)
    (hsame : ∀ key e, seen key e →
      host'.entityIdentity e = host.entityIdentity e ∧
        host'.entityLoader e = host.entityLoader e) :
    entry.Sound host' epoch seen' := by
  refine ⟨h.toStamped.mono hseen, ?_⟩
  intro e he
  have hlive := h.live_seen e (current?_of_checked he)
  have hfits := MetaKey.fits_iff.mp (h.current_fits e he)
  rcases hsame entry.key e hlive with ⟨hidentity, hloader⟩
  apply MetaKey.fits_iff.mpr
  rw [hidentity, hloader]
  exact hfits

theorem Stamped.sound_advance {epoch : Epoch} {seen : MetaKey → Entity → Prop}
    {entry : MetaEntry} (h : entry.Stamped epoch seen) (host : Host) :
    entry.Sound host epoch.advance seen := by
  have hle := h.stamp_le
  refine ⟨⟨?_, h.live_seen⟩, ?_⟩
  · exact Nat.le_trans hle (Nat.le_add_right _ _)
  · intro e he
    unfold current? Stamp.isCurrent at he
    split at he
    · rename_i hcurrent
      rw [beq_iff_eq] at hcurrent
      unfold Epoch.advance at hcurrent
      dsimp only at hcurrent
      omega
    · cases he

/-- Resolving keeps the invariant and the key, and answers only what was found by
name and fits the key. -/
theorem resolveEntry_sound {host : Host} {epoch : Epoch}
    {seen : MetaKey → Entity → Prop} {entry : MetaEntry}
    (hseen : ∀ key e, host.Finds key e → seen key e)
    (h : entry.Sound host epoch seen) :
    (MetaSpace.resolveEntry host epoch entry).2.Sound host epoch seen ∧
      (MetaSpace.resolveEntry host epoch entry).2.key = entry.key ∧
      ∀ e, (MetaSpace.resolveEntry host epoch entry).1 = .ok e →
        seen entry.key e ∧ entry.key.fits host e = true := by
  unfold MetaSpace.resolveEntry
  cases hcurrent : entry.current? epoch with
  | some live =>
      refine ⟨h, rfl, ?_⟩
      intro e he
      cases he
      exact ⟨h.live_seen live (current?_of_checked hcurrent),
        h.current_fits live hcurrent⟩
  | none =>
      cases hfits : entry.live.filter (entry.key.fits host) with
      | some live =>
          rcases Option.filter_eq_some_iff.mp hfits with ⟨hlive, hfit⟩
          refine ⟨⟨⟨Nat.le_refl _, h.live_seen⟩, ?_⟩, rfl, ?_⟩
          · intro e he
            have hsame := current?_of_checked he
            rw [hlive] at hsame
            cases hsame
            exact hfit
          · intro e he
            cases he
            exact ⟨h.live_seen live hlive, hfit⟩
      | none =>
          have hcleared : Sound host epoch seen
              (if entry.live.isSome then
                { entry with live := none, checked := .never } else entry) := by
            split
            · refine ⟨⟨Nat.zero_le _, ?_⟩, ?_⟩
              · intro e he
                cases he
              · intro e he
                have hnone := current?_of_checked he
                cases hnone
            · exact h
          have hkey : (if entry.live.isSome then
              { entry with live := none, checked := .never }
              else entry).key = entry.key := by
            split <;> rfl
          cases hfound : entry.key.resolve host with
          | error e =>
              refine ⟨hcleared, hkey, ?_⟩
              intro e he
              cases he
          | ok live =>
              rcases MetaKey.of_resolve hfound with ⟨hlookup, hfit⟩
              refine ⟨⟨⟨Nat.le_refl _, ?_⟩, ?_⟩, hkey, ?_⟩
              · intro e he
                cases he
                rw [hkey]
                exact hseen entry.key live hlookup
              · intro e he
                have hsame := current?_of_checked he
                cases hsame
                rw [hkey]
                exact hfit
              · intro e he
                cases he
                exact ⟨hseen entry.key live hlookup, hfit⟩

end MetaEntry

/-!
## The whole metaspace
-/

namespace MetaSpace

structure Sound (host : Host) (epoch : Epoch)
    (seen : MetaKey → Entity → Prop) (keys : List MetaKey) (space : MetaSpace) :
    Prop where
  keys_eq : space.keys = keys
  entries_sound : ∀ entry ∈ space.entries, entry.Sound host epoch seen

variable {host : Host} {epoch : Epoch} {seen : MetaKey → Entity → Prop}
  {keys : List MetaKey}

theorem keys_setEntry {space : MetaSpace} {index : UInt32}
    {entry old : MetaEntry} (hold : space.entry? index = some old)
    (hkey : entry.key = old.key) :
    (space.setEntry index entry).keys = space.keys := by
  unfold entry? at hold
  unfold keys setEntry
  rw [List.map_set, hkey]
  apply List.ext_getElem?
  intro i
  rw [List.getElem?_set]
  split
  · rename_i hi
    subst hi
    rw [List.getElem?_map, hold]
    have hlt := (List.getElem?_eq_some_iff.mp hold).1
    simp [hlt]
  · rfl

theorem resolve_apply (host : Host) (epoch : Epoch) (index : UInt32)
    (space : MetaSpace) :
    resolve host epoch index space =
      match space.entry? index with
      | none => .error (.corruption (.metaIndex index space.size)) space
      | some entry =>
        match (resolveEntry host epoch entry).1 with
        | .ok live =>
          .ok live (space.setEntry index (resolveEntry host epoch entry).2)
        | .error e =>
          .error e (space.setEntry index (resolveEntry host epoch entry).2) := by
  unfold resolve
  rw [run_get_bind]
  cases space.entry? index with
  | none => rfl
  | some entry =>
      dsimp only
      rw [run_set_bind]
      cases (resolveEntry host epoch entry).1 with
      | ok live => rfl
      | error e => rfl

theorem resolve_ensures (hseen : ∀ key e, host.Finds key e → seen key e)
    (index : UInt32) :
    Ensures (Sound host epoch seen keys) (resolve host epoch index)
      (fun e => ∃ key, keys[index.toNat]? = some key ∧ seen key e ∧
        key.fits host e = true) := by
  intro space hspace
  rw [resolve_apply]
  cases hentry : space.entry? index with
  | none => exact hspace
  | some entry =>
      have hmem : entry ∈ space.entries := List.mem_of_getElem? hentry
      rcases MetaEntry.resolveEntry_sound hseen
        (hspace.entries_sound entry hmem) with ⟨hsound, hkey, hfits⟩
      have hspace' : Sound host epoch seen keys
          (space.setEntry index (resolveEntry host epoch entry).2) := by
        refine ⟨?_, ?_⟩
        · rw [keys_setEntry hentry hkey]
          exact hspace.keys_eq
        · intro other hother
          rcases List.mem_or_eq_of_mem_set hother with hold | hnew
          · exact hspace.entries_sound other hold
          · rw [hnew]
            exact hsound
      have hat : keys[index.toNat]? = some entry.key := by
        rw [← hspace.keys_eq, MetaSpace.keys, List.getElem?_map]
        show Option.map _ (space.entry? index) = _
        rw [hentry]
        rfl
      cases hanswer : (resolveEntry host epoch entry).1 with
      | ok live =>
          simp only [hanswer]
          rcases hfits live hanswer with ⟨hlive, hfit⟩
          exact ⟨hspace', entry.key, hat, hlive, hfit⟩
      | error e =>
          simp only [hanswer]
          exact hspace'

end MetaSpace

/-!
## Records of a tag stream
-/

namespace ReviveContext

variable {ctx : ReviveContext} {seen : MetaKey → Entity → Prop}
  {keys : List MetaKey}

/-- The entity has the identity and the loader of the key at an index, and was seen
under that key. Whether the key still leads to it is for `seen` to say. -/
def Names (ctx : ReviveContext) (seen : MetaKey → Entity → Prop)
    (keys : List MetaKey) (index : UInt32) (e : Entity) : Prop :=
  ∃ key, keys[index.toNat]? = some key ∧ seen key e ∧
    ctx.host.entityIdentity e = key.identity ∧ ctx.host.entityLoader e = key.loader

structure NamesClass (ctx : ReviveContext) (seen : MetaKey → Entity → Prop)
    (keys : List MetaKey) (index : UInt32) (needed : InitState) (k : ClassId) :
    Prop where
  named : ctx.Names seen keys index (.klass k)
  not_failed : ctx.host.initState k ≠ .failed
  initialized : needed.code ≤ (ctx.host.initState k).code ∨
    (ctx.host.isPureInterface k = true ∧
      InitState.linked.code ≤ (ctx.host.initState k).code)

inductive NamesEntity (ctx : ReviveContext) (seen : MetaKey → Entity → Prop)
    (keys : List MetaKey) :
    TagRecord → Option Entity → Prop where
  | nonOop : NamesEntity ctx seen keys .nonOop none
  | selfMethod : NamesEntity ctx seen keys .selfMethod (some (.method ctx.method))
  | klass {loader : Loader} {index : UInt32} {needed : InitState} {k : ClassId}
      (h : ctx.NamesClass seen keys index needed k) :
      NamesEntity ctx seen keys (.klass loader index needed) (some (.klass k))
  | method {loader : Loader} {index : UInt32} {m : MethodId}
      (h : ctx.Names seen keys index (.method m)) :
      NamesEntity ctx seen keys (.method loader index) (some (.method m))

inductive NamesObject (ctx : ReviveContext) (seen : MetaKey → Entity → Prop)
    (keys : List MetaKey) :
    TagRecord → Option Object → Prop where
  | nonOop : NamesObject ctx seen keys .nonOop none
  | text (s : String) : NamesObject ctx seen keys (.text s) (some (.text s))
  | known (o : KnownObject) :
      NamesObject ctx seen keys (.knownObject o) (some (.known o))
  | mirror {loader : Loader} {index : UInt32} {needed : InitState} {k : ClassId}
      (h : ctx.NamesClass seen keys index needed k) :
      NamesObject ctx seen keys (.mirror loader index needed) (some (.mirror k))
  | loader : NamesObject ctx seen keys (.loaderObject .holder)
      (some (.loader ctx.holderLoader))

variable {seen' : MetaKey → Entity → Prop} {record : TagRecord}

theorem Names.mono {index : UInt32} {e : Entity} (h : ctx.Names seen keys index e)
    (hseen : ∀ key, seen key e → seen' key e) :
    ctx.Names seen' keys index e := by
  rcases h with ⟨key, hkey, he, hsame⟩
  exact ⟨key, hkey, hseen key he, hsame⟩

theorem NamesClass.mono {index : UInt32} {needed : InitState} {k : ClassId}
    (h : ctx.NamesClass seen keys index needed k)
    (hseen : ∀ key, seen key (.klass k) → seen' key (.klass k)) :
    ctx.NamesClass seen' keys index needed k :=
  ⟨h.named.mono hseen, h.not_failed, h.initialized⟩

theorem NamesEntity.mono {e? : Option Entity}
    (h : ctx.NamesEntity seen keys record e?)
    (hseen : ∀ e, e? = some e → ∀ key, seen key e → seen' key e) :
    ctx.NamesEntity seen' keys record e? := by
  cases h with
  | nonOop => exact .nonOop
  | selfMethod => exact .selfMethod
  | klass hk => exact .klass (hk.mono (hseen _ rfl))
  | method hm => exact .method (hm.mono (hseen _ rfl))

theorem NamesObject.mono {o? : Option Object}
    (h : ctx.NamesObject seen keys record o?)
    (hseen : ∀ k, o? = some (.mirror k) →
      ∀ key, seen key (.klass k) → seen' key (.klass k)) :
    ctx.NamesObject seen' keys record o? := by
  cases h with
  | nonOop => exact .nonOop
  | text s => exact .text s
  | known o => exact .known o
  | mirror hk => exact .mirror (hk.mono (hseen _ rfl))
  | loader => exact .loader

theorem NamesEntity.exists_key {e : Entity}
    (h : ctx.NamesEntity seen keys record (some e)) (hne : e ≠ .method ctx.method) :
    ∃ key, seen key e := by
  cases h with
  | selfMethod => exact absurd rfl hne
  | klass hk =>
      rcases hk.named with ⟨key, -, hseen, -⟩
      exact ⟨key, hseen⟩
  | method hm =>
      rcases hm with ⟨key, -, hseen, -⟩
      exact ⟨key, hseen⟩

theorem of_checkReady {host : Host} {k : ClassId} {needed : InitState}
    (h : checkReady host k needed = .ok ()) :
    host.initState k ≠ .failed ∧
      (needed.code ≤ (host.initState k).code ∨
        (host.isPureInterface k = true ∧
          InitState.linked.code ≤ (host.initState k).code)) := by
  unfold checkReady at h
  split at h
  · rename_i hready
    simpa [isReady] using hready
  · cases h

theorem klassAt_ensures (hseen : ∀ key e, ctx.host.Finds key e → seen key e)
    (index : UInt32) (needed : InitState) :
    Ensures (MetaSpace.Sound ctx.host ctx.epoch seen keys)
      (ctx.klassAt index needed) (ctx.NamesClass seen keys index needed) := by
  unfold klassAt
  refine (MetaSpace.resolve_ensures hseen index).of_bind ?_
  intro e he
  rcases he with ⟨key, hkey, hlive, hfits⟩
  have hsame := MetaKey.fits_iff.mp hfits
  cases e with
  | method m => exact Ensures.of_throw _
  | klass k =>
      refine (Ensures.of_ofExcept (Q := fun _ =>
        checkReady ctx.host k needed = .ok ()) ?_).of_bind ?_
      · intro _ h
        exact h
      · intro _ hready
        rcases of_checkReady hready with ⟨hfailed, hinit⟩
        exact Ensures.of_pure ⟨⟨key, hkey, hlive, hsame⟩, hfailed, hinit⟩

theorem methodAt_ensures (hseen : ∀ key e, ctx.host.Finds key e → seen key e)
    (index : UInt32) :
    Ensures (MetaSpace.Sound ctx.host ctx.epoch seen keys)
      (ctx.methodAt index) (fun m => ctx.Names seen keys index (.method m)) := by
  unfold methodAt
  refine (MetaSpace.resolve_ensures hseen index).of_bind ?_
  intro e he
  rcases he with ⟨key, hkey, hlive, hfits⟩
  have hsame := MetaKey.fits_iff.mp hfits
  cases e with
  | klass k => exact Ensures.of_throw _
  | method m =>
      refine (Ensures.of_ofExcept (Q := fun _ => True) ?_).of_bind ?_
      · intro _ _
        trivial
      · intro _ _
        exact Ensures.of_pure ⟨key, hkey, hlive, hsame⟩

theorem entityOf_ensures (hseen : ∀ key e, ctx.host.Finds key e → seen key e)
    (record : TagRecord) :
    Ensures (MetaSpace.Sound ctx.host ctx.epoch seen keys)
      (ctx.entityOf record) (ctx.NamesEntity seen keys record) := by
  cases record with
  | nonOop => exact Ensures.of_pure .nonOop
  | selfMethod => exact Ensures.of_pure .selfMethod
  | klass loader index needed =>
      refine (klassAt_ensures hseen index needed).of_bind ?_
      intro k hk
      exact Ensures.of_pure (.klass hk)
  | method loader index =>
      refine (methodAt_ensures hseen index).of_bind ?_
      intro m hm
      exact Ensures.of_pure (.method hm)
  | _ => exact Ensures.of_throw _

theorem objectOf_ensures (hseen : ∀ key e, ctx.host.Finds key e → seen key e)
    (record : TagRecord) :
    Ensures (MetaSpace.Sound ctx.host ctx.epoch seen keys)
      (ctx.objectOf record) (ctx.NamesObject seen keys record) := by
  cases record with
  | nonOop => exact Ensures.of_pure .nonOop
  | text s => exact Ensures.of_pure (.text s)
  | knownObject o => exact Ensures.of_pure (.known o)
  | mirror loader index needed =>
      refine (klassAt_ensures hseen index needed).of_bind ?_
      intro k hk
      exact Ensures.of_pure (.mirror hk)
  | loaderObject loader =>
      cases loader with
      | holder => exact Ensures.of_pure .loader
      | _ => exact Ensures.of_throw _
  | _ => exact Ensures.of_throw _

theorem siteValue?_ensures (hseen : ∀ key e, ctx.host.Finds key e → seen key e)
    (record : TagRecord) :
    Ensures (MetaSpace.Sound ctx.host ctx.epoch seen keys)
      (ctx.siteValue? record) (fun _ => True) := by
  cases record with
  | selfMethod | klass _ _ _ | method _ _ =>
      refine (entityOf_ensures hseen _).of_bind ?_
      intro _ _
      exact Ensures.of_pure trivial
  | text _ | knownObject _ | mirror _ _ _ =>
      refine (objectOf_ensures hseen _).of_bind ?_
      intro _ _
      exact Ensures.of_pure trivial
  | _ => exact Ensures.of_pure trivial

end ReviveContext

end CodeCache
