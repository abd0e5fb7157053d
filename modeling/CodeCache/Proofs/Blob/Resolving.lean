import CodeCache.Proofs.Blob.Emitting
import CodeCache.Proofs.Blob.Layout
import CodeCache.Proofs.Host.Counterparts
import CodeCache.Proofs.Tag.Reading

/-!
# Resolving an emitted blob

In a process with a counterpart of everything that a blob names, every record is
resolved to the counterpart of what it describes.
-/

namespace CodeCache

/-!
## Single entries
-/

namespace MetaSpace

/-- A space with the given keys in which every live entity is the one that its
key leads to. -/
structure Leads (live : Host) (keys : List MetaKey) (space : MetaSpace) :
    Prop where
  keys_eq : space.keys = keys
  live_eq : ∀ entry ∈ space.entries, ∀ e, entry.live = some e →
    entry.key.resolve live = .ok e

theorem leads_of_fresh {space : MetaSpace} (live : Host) (h : space.Fresh) :
    space.Leads live space.keys := by
  constructor
  · rfl
  · intro entry hentry e he
    rw [h entry hentry] at he
    cases he

variable {live : Host} {keys : List MetaKey} {epoch : Epoch}

theorem resolveEntry_eq (epoch : Epoch) {entry : MetaEntry} {e : Entity}
    (hentry : ∀ e, entry.live = some e → entry.key.resolve live = .ok e)
    (h : entry.key.resolve live = .ok e) :
    (resolveEntry live epoch entry).1 = .ok e ∧
      (resolveEntry live epoch entry).2.key = entry.key ∧
      ∀ other, (resolveEntry live epoch entry).2.live = some other →
        other = e := by
  have hsame : ∀ other, entry.live = some other → other = e := by
    intro other hother
    have hresolve := hentry other hother
    rw [h] at hresolve
    cases hresolve
    rfl
  unfold resolveEntry
  cases hcurrent : entry.current? epoch with
  | some other =>
      have hother := hsame other (MetaEntry.current?_of_checked hcurrent)
      rw [hother]
      exact ⟨rfl, rfl, hsame⟩
  | none =>
      cases hfits : entry.live.filter (entry.key.fits live) with
      | some other =>
          have hother := hsame other (Option.filter_eq_some_iff.mp hfits).1
          rw [hother]
          exact ⟨rfl, rfl, hsame⟩
      | none =>
          simp only [h]
          refine ⟨trivial, ?_, ?_⟩
          · split <;> rfl
          · intro other hother
            cases hother
            rfl

theorem resolve_gives {index : UInt32} {key : MetaKey} {e : Entity}
    (hkey : keys[index.toNat]? = some key) (h : key.resolve live = .ok e) :
    Gives (Leads live keys) (resolve live epoch index) e := by
  intro space hspace
  have hat := hkey
  rw [← hspace.keys_eq, MetaSpace.keys, List.getElem?_map,
    Option.map_eq_some_iff] at hat
  rcases hat with ⟨entry, hentry, rfl⟩
  have hmem : entry ∈ space.entries := List.mem_of_getElem? hentry
  rcases resolveEntry_eq epoch (hspace.live_eq entry hmem) h with
    ⟨hanswer, hsame, hlive⟩
  rw [resolve_apply, show space.entry? index = some entry from hentry]
  dsimp only
  rw [hanswer]
  refine ⟨_, rfl, ?_, ?_⟩
  · rw [keys_setEntry hentry hsame]
    exact hspace.keys_eq
  · intro other hother f hf
    rcases List.mem_or_eq_of_mem_set hother with hold | hnew
    · exact hspace.live_eq other hold f hf
    · rw [hnew] at hf ⊢
      rw [hsame, hlive f hf]
      exact h

end MetaSpace

namespace ReviveContext

variable {saved : Host} {r : Renaming} {ctx : ReviveContext}
  {keys : List MetaKey} {self : MethodId}

theorem ofExcept_checkReady_gives {inv : MetaSpace → Prop} {k : ClassId}
    {needed : InitState} (h : isReady ctx.host k needed = true) :
    Gives inv (ofExcept (checkReady ctx.host k needed) : InSpace Unit) () := by
  unfold checkReady
  rw [if_pos h]
  exact Gives.of_pure ()

theorem klassAt_gives (h : saved.Counterparts ctx.host r)
    (hsize : keys.length ≤ 2 ^ 32) {k : ClassId} {index : UInt32}
    (hnamed : Emit.IsNamed saved keys (.klass k) index)
    (husable : saved.IsUsable (.klass k)) :
    Gives (MetaSpace.Leads ctx.host keys)
      (ctx.klassAt index (Emit.klassState saved k)) (r.klass k) := by
  rcases hnamed with ⟨key, hkey, hat⟩
  have hneeded : (Emit.klassState saved k).code ≤ (saved.initState k).code := by
    unfold Emit.klassState
    split
    · exact UInt32.le_refl _
    · exact UInt32.zero_le
  have hready := h.isReady_klass ⟨key, hkey⟩ husable hneeded
  unfold klassAt
  refine (MetaSpace.resolve_gives (hat.getElem?_eq hsize)
    (h.resolves _ key hkey)).of_bind ?_
  exact (ofExcept_checkReady_gives hready).of_bind (Gives.of_pure _)

theorem methodAt_gives (h : saved.Counterparts ctx.host r)
    (hsize : keys.length ≤ 2 ^ 32) {m : MethodId} {index : UInt32}
    (hnamed : Emit.IsNamed saved keys (.method m) index)
    (husable : saved.IsUsable (.method m)) :
    Gives (MetaSpace.Leads ctx.host keys) (ctx.methodAt index)
      (r.method m) := by
  rcases hnamed with ⟨key, hkey, hat⟩
  have hready := h.isReady_holder ⟨key, hkey⟩ husable
  unfold methodAt
  refine (MetaSpace.resolve_gives (hat.getElem?_eq hsize)
    (h.resolves _ key hkey)).of_bind ?_
  exact (ofExcept_checkReady_gives hready).of_bind (Gives.of_pure _)

theorem entityOf_gives (h : saved.Counterparts ctx.host r)
    (hsize : keys.length ≤ 2 ^ 32) (hself : ctx.method = r.method self)
    {entity : Option Entity} {record : TagRecord}
    (hrecord : Emit.DescribesEntity saved self keys entity record)
    (husable : ∀ e, entity = some e → e ≠ .method self → saved.IsUsable e) :
    Gives (MetaSpace.Leads ctx.host keys) (ctx.entityOf record)
      (entity.map r.entity) := by
  cases hrecord with
  | absent => exact Gives.of_pure none
  | self =>
      unfold entityOf
      rw [hself]
      exact Gives.of_pure _
  | @klass k index hnamed =>
      have hk := husable (.klass k) rfl Entity.noConfusion
      exact (klassAt_gives h hsize hnamed hk).of_bind_pure
  | @method m index hne hnamed =>
      have hm := husable (.method m) rfl (fun heq => hne (Entity.method.inj heq))
      exact (methodAt_gives h hsize hnamed hm).of_bind_pure

theorem objectOf_gives (h : saved.Counterparts ctx.host r)
    (hsize : keys.length ≤ 2 ^ 32) (hself : ctx.method = r.method self)
    (hname : saved.CanName (.method self)) {object : Option Object}
    {record : TagRecord}
    (hrecord : Emit.DescribesObject saved self keys object record)
    (husable : ∀ k, object = some (.mirror k) → saved.IsUsable (.klass k)) :
    Gives (MetaSpace.Leads ctx.host keys) (ctx.objectOf record)
      (object.map r.object) := by
  cases hrecord with
  | absent => exact Gives.of_pure none
  | known hknown =>
      rw [h.known _ _ hknown]
      exact Gives.of_pure _
  | text s => exact Gives.of_pure _
  | @mirror k index hnamed =>
      exact (klassAt_gives h hsize hnamed (husable k rfl)).of_bind_pure
  | loader =>
      have hloader : ctx.holderLoader = saved.entityLoader (.method self) := by
        unfold holderLoader
        rw [hself]
        exact h.loader hname
      unfold objectOf
      rw [hloader]
      exact Gives.of_pure _

end ReviveContext

/-!
## Patch sites
-/

namespace Renaming

def entityValue (r : Renaming) : Option Entity → SiteValue
  | none => .null
  | some e => .entity (r.entity e)

def objectValue? (r : Renaming) : Option Object → Option SiteValue
  | none => some .null
  | some (.loader _) => none
  | some o => some (.object (r.object o))

def siteValue? (r : Renaming) (nm : CompiledMethod) (site : Relocation) :
    Option SiteValue :=
  match site.kind with
  | .oop index true => (nm.oops[index.toNat - 1]?).bind r.objectValue?
  | .metadata index true =>
    (nm.metadata[index.toNat - 1]?).map r.entityValue
  | _ => none

def resolved (r : Renaming) (nm : CompiledMethod) : Resolved where
  metadata := nm.metadata.map (·.map r.entity)
  oops := nm.oops.map (·.map r.object)
  values := nm.relocations.filterMap (r.siteValue? nm)

variable {r : Renaming} {nm : CompiledMethod} {offset index : UInt32}

theorem siteValue?_oop {object : Option Object}
    (h : Emit.IsEntry nm.oops index object) :
    r.siteValue? nm ⟨offset, .oop index true⟩ = r.objectValue? object := by
  show (nm.oops[index.toNat - 1]?).bind r.objectValue? = _
  rw [h.2]
  rfl

theorem siteValue?_metadata {entity : Option Entity}
    (h : Emit.IsEntry nm.metadata index entity) :
    r.siteValue? nm ⟨offset, .metadata index true⟩ =
      some (r.entityValue entity) := by
  show (nm.metadata[index.toNat - 1]?).map r.entityValue = _
  rw [h.2]
  rfl

end Renaming

namespace CompiledMethod

def References (nm : CompiledMethod) (e : Entity) : Prop :=
  (some e ∈ nm.metadata ∧ e ≠ .method nm.method) ∨
    ∃ k, e = .klass k ∧ some (.mirror k) ∈ nm.oops

end CompiledMethod

namespace ReviveContext

variable {saved : Host} {r : Renaming} {ctx : ReviveContext}
  {keys : List MetaKey} {nm : CompiledMethod}

structure Revives (saved : Host) (r : Renaming) (keys : List MetaKey)
    (nm : CompiledMethod) (ctx : ReviveContext) : Prop where
  counterparts : saved.Counterparts ctx.host r
  size_le : keys.length ≤ 2 ^ 32
  method_eq : ctx.method = r.method nm.method
  named : saved.CanName (.method nm.method)
  usable : ∀ e, nm.References e → saved.IsUsable e

namespace Revives

variable (h : Revives saved r keys nm ctx)
include h

theorem entityOf_gives {entity : Option Entity} {record : TagRecord}
    (hmem : entity ∈ nm.metadata)
    (hrecord : Emit.DescribesEntity saved nm.method keys entity record) :
    Gives (MetaSpace.Leads ctx.host keys) (ctx.entityOf record)
      (entity.map r.entity) := by
  refine ReviveContext.entityOf_gives h.counterparts h.size_le h.method_eq
    hrecord ?_
  intro e he hne
  rw [he] at hmem
  exact h.usable e (Or.inl ⟨hmem, hne⟩)

theorem objectOf_gives {object : Option Object} {record : TagRecord}
    (hmem : object ∈ nm.oops)
    (hrecord : Emit.DescribesObject saved nm.method keys object record) :
    Gives (MetaSpace.Leads ctx.host keys) (ctx.objectOf record)
      (object.map r.object) := by
  refine ReviveContext.objectOf_gives h.counterparts h.size_le h.method_eq
    h.named hrecord ?_
  intro k hk
  rw [hk] at hmem
  exact h.usable (.klass k) (Or.inr ⟨k, rfl, hmem⟩)

theorem siteValue?_of_entity {entity : Option Entity} {record : TagRecord}
    (hmem : entity ∈ nm.metadata)
    (hrecord : Emit.DescribesEntity saved nm.method keys entity record) :
    Gives (MetaSpace.Leads ctx.host keys) (ctx.siteValue? record)
      (some (r.entityValue entity)) := by
  have hentity := h.entityOf_gives hmem hrecord
  cases hrecord with
  | absent => exact Gives.of_pure _
  | self => exact hentity.of_bind_pure
  | klass _ => exact hentity.of_bind_pure
  | method _ _ => exact hentity.of_bind_pure

theorem siteValue?_of_object {object : Option Object} {record : TagRecord}
    (hmem : object ∈ nm.oops)
    (hrecord : Emit.DescribesObject saved nm.method keys object record) :
    Gives (MetaSpace.Leads ctx.host keys) (ctx.siteValue? record)
      (r.objectValue? object) := by
  have hobject := h.objectOf_gives hmem hrecord
  cases hrecord with
  | absent => exact Gives.of_pure _
  | known hknown =>
      rw [h.counterparts.known _ _ hknown] at hobject ⊢
      exact hobject.of_bind_pure
  | text s => exact hobject.of_bind_pure
  | mirror _ => exact hobject.of_bind_pure
  | loader => exact Gives.of_pure _

theorem siteValue?_gives {site : Relocation} {record : TagRecord}
    (hrecord : Emit.DescribesSite saved nm keys site (some record)) :
    Gives (MetaSpace.Leads ctx.host keys) (ctx.siteValue? record)
      (r.siteValue? nm site) := by
  cases hrecord with
  | oop hentry hrecord =>
      rw [Renaming.siteValue?_oop hentry]
      exact h.siteValue?_of_object (List.mem_of_getElem? hentry.2) hrecord
  | metadata hentry hrecord =>
      rw [Renaming.siteValue?_metadata hentry]
      exact h.siteValue?_of_entity (List.mem_of_getElem? hentry.2) hrecord
  | global hkind =>
      rcases hkind with rfl | rfl <;> exact Gives.of_pure _
  | @poll _ _ usesPage hkind =>
      rcases hkind with rfl | rfl <;> cases usesPage <;> exact Gives.of_pure _
  | internal hkind =>
      rcases hkind with rfl | rfl <;> exact Gives.of_pure _

end Revives

theorem siteValue?_of_plain {site : Relocation}
    (h : Emit.DescribesSite saved nm keys site none) :
    r.siteValue? nm site = none := by
  rcases site with ⟨offset, kind⟩
  cases h with
  | plain hkind =>
      cases kind with
      | oop index immediate =>
          cases immediate with
          | false => rfl
          | true => cases hkind
      | metadata index immediate =>
          cases immediate with
          | false => rfl
          | true => cases hkind
      | _ => rfl

end ReviveContext

/-!
## Whole blobs
-/

namespace Blob

open ReviveContext

variable {inv : MetaSpace → Prop}

theorem resolveArray_gives {α : Type} {value : TagRecord → InSpace α}
    {c : Cursor} {records : List TagRecord} {as : List α}
    (hholds : TagStream.Holds c records)
    (h : List.Forall₂ (fun record a => Gives inv (value record) a)
      records as) :
    Gives inv (resolveArray value as.length c) as := by
  have hread : ∀ {β : Type} {reader : Read β} {c next : Cursor} {b : β},
      reader c = .ok b next → Gives inv (readFrom reader c) (b, next) := by
    intro β reader c next b hrun space hspace
    rw [readFrom_apply, hrun]
    exact ⟨space, rfl, hspace⟩
  induction hholds generalizing as with
  | @finish c next hfinish =>
      cases h
      exact (hread (decodeEnd_eq hfinish)).of_bind (Gives.of_pure [])
  | cons hrecord _ _ ih =>
      cases h with
      | cons hvalue hrest =>
          refine (hread hrecord).of_bind ?_
          exact hvalue.of_bind (ih hrest).of_bind_pure

theorem resolveArray_of_describes {α β : Type}
    {value : TagRecord → InSpace β} {f : α → β}
    {describes : α → TagRecord → Prop} {c : Cursor} {records : List TagRecord}
    {as : List α} (hholds : TagStream.Holds c records)
    (hall : List.Forall₂ describes as records)
    (h : ∀ a ∈ as, ∀ record, describes a record →
      Gives inv (value record) (f a)) :
    Gives inv (resolveArray value as.length c) (as.map f) := by
  have hmem : List.Forall₂ (fun a record => a ∈ as ∧ describes a record)
      as records :=
    (List.forall₂_and_left _ _).mpr ⟨fun _ ha => ha, hall⟩
  have hvalues : List.Forall₂ (fun record b => Gives inv (value record) b)
      records (as.map f) := by
    rw [List.forall₂_map_right_iff]
    refine (hmem.imp ?_).flip
    intro a record ha
    exact h a ha.1 record ha.2
  rw [← List.length_map f]
  exact resolveArray_gives hholds hvalues

theorem resolveSites_gives {ctx : ReviveContext} {b : Blob}
    {records : List TagRecord} {values : List (Option SiteValue)}
    (hholds : TagStream.Holds { bytes := b.tagReloc } records)
    (h : List.Forall₂ (fun record v => Gives inv (ctx.siteValue? record) v)
      records values) :
    Gives inv (b.resolveSites ctx) (values.filterMap id) := by
  rcases hholds.scan with ⟨hfault, hrecords⟩
  rw [← hrecords, List.forall₂_map_left_iff] at h
  unfold resolveSites
  refine (Gives.of_mapM h).of_bind ?_
  rw [hfault]
  exact Gives.of_pure _

theorem siteValues_of_describes {saved : Host} {r : Renaming}
    {keys : List MetaKey} {nm : CompiledMethod} {ctx : ReviveContext}
    (h : Revives saved r keys nm ctx) {relocs : List Relocation}
    {sites : List (Option TagRecord)}
    (hsites : List.Forall₂ (Emit.DescribesSite saved nm keys) relocs sites) :
    ∃ values, List.Forall₂ (fun record v =>
        Gives (MetaSpace.Leads ctx.host keys) (ctx.siteValue? record) v)
        (sites.filterMap id) values ∧
      values.filterMap id = relocs.filterMap (r.siteValue? nm) := by
  induction hsites with
  | nil => exact ⟨[], .nil, rfl⟩
  | @cons site record? relocs sites hsite _ ih =>
      rcases ih with ⟨values, hvalues, heq⟩
      cases record? with
      | none =>
          refine ⟨values, hvalues, ?_⟩
          rw [List.filterMap_cons_none (siteValue?_of_plain hsite), heq]
      | some record =>
          refine ⟨r.siteValue? nm site :: values,
            .cons (h.siteValue?_gives hsite) hvalues, ?_⟩
          rw [List.filterMap_cons, List.filterMap_cons, heq]
          rfl

theorem resolve_gives {saved : Host} {r : Renaming} {keys : List MetaKey}
    {nm : CompiledMethod} {ctx : ReviveContext} {b : Blob}
    {metas oops : List TagRecord} {sites : List (Option TagRecord)}
    (h : Revives saved r keys nm ctx)
    (hstores : b.Stores nm metas oops (sites.filterMap id))
    (hmetas : List.Forall₂ (Emit.DescribesEntity saved nm.method keys)
      nm.metadata metas)
    (hoops : List.Forall₂ (Emit.DescribesObject saved nm.method keys)
      nm.oops oops)
    (hsites : List.Forall₂ (Emit.DescribesSite saved nm keys)
      nm.relocations sites) :
    Gives (MetaSpace.Leads ctx.host keys) (b.resolve ctx) (r.resolved nm) := by
  have hmetadata : Gives (MetaSpace.Leads ctx.host keys) (b.resolveMetadata ctx)
      (nm.metadata.map (·.map r.entity)) := by
    unfold resolveMetadata
    rw [hstores.metaCount_eq]
    exact resolveArray_of_describes hstores.metas_held hmetas
      fun _ hmem _ hrecord => h.entityOf_gives hmem hrecord
  have hobjects : Gives (MetaSpace.Leads ctx.host keys) (b.resolveOops ctx)
      (nm.oops.map (·.map r.object)) := by
    unfold resolveOops
    rw [hstores.oopCount_eq]
    exact resolveArray_of_describes hstores.oops_held hoops
      fun _ hmem _ hrecord => h.objectOf_gives hmem hrecord
  rcases siteValues_of_describes h hsites with ⟨values, hvalues, heq⟩
  have hvalues' := resolveSites_gives hstores.sites_held hvalues
  rw [heq] at hvalues'
  unfold resolve
  refine hmetadata.of_bind ?_
  refine hobjects.of_bind ?_
  exact hvalues'.of_bind_pure

end Blob

end CodeCache
