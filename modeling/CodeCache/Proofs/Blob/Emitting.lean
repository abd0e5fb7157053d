import CodeCache.Blob.Emit
import CodeCache.Proofs.Metadata.Interning

/-!
# What an emitted blob says

Each entry of the two arrays of a method and each patch site with a record of its
own is described by its record: a class or method by an index at which its key
stands, everything else by what it is.
-/

namespace CodeCache

def RelocKind.hasRecord : RelocKind → Bool
  | oop _ immediate => immediate
  | metadata _ immediate => immediate
  | externalWord | runtimeCall | poll _ | pollReturn _ => true
  | internalWord | sectionWord => true
  | _ => false

namespace Emit

def IsEntry {α : Type} (entries : List α) (index : UInt32) (a : α) : Prop :=
  index ≠ 0 ∧ entries[index.toNat - 1]? = some a

def IsNamed (host : Host) (keys : List MetaKey) (e : Entity) (index : UInt32) :
    Prop :=
  ∃ key, MetaKey.of host e = .ok key ∧ KeyAt keys index key

inductive DescribesEntity (host : Host) (self : MethodId)
    (keys : List MetaKey) : Option Entity → TagRecord → Prop where
  | absent : DescribesEntity host self keys none .nonOop
  | self : DescribesEntity host self keys (some (.method self)) .selfMethod
  | klass {k : ClassId} {index : UInt32}
      (h : IsNamed host keys (.klass k) index) :
      DescribesEntity host self keys (some (.klass k))
        (.klass (host.classLoader k) index (klassState host k))
  | method {m : MethodId} {index : UInt32} (hne : m ≠ self)
      (h : IsNamed host keys (.method m) index) :
      DescribesEntity host self keys (some (.method m))
        (.method (host.entityLoader (.method m)) index)

inductive DescribesObject (host : Host) (self : MethodId)
    (keys : List MetaKey) : Option Object → TagRecord → Prop where
  | absent : DescribesObject host self keys none .nonOop
  | known {object : Object} {known : KnownObject}
      (h : host.knownObject object = some known) :
      DescribesObject host self keys (some object) (.knownObject known)
  | text (s : String) : DescribesObject host self keys (some (.text s)) (.text s)
  | mirror {k : ClassId} {index : UInt32}
      (h : IsNamed host keys (.klass k) index) :
      DescribesObject host self keys (some (.mirror k))
        (.mirror (host.classLoader k) index (klassState host k))
  | loader :
      DescribesObject host self keys
        (some (.loader (host.entityLoader (.method self))))
        (.loaderObject .holder)

inductive DescribesSite (host : Host) (nm : CompiledMethod)
    (keys : List MetaKey) : Relocation → Option TagRecord → Prop where
  | oop {offset index : UInt32} {object : Option Object} {record : TagRecord}
      (hentry : IsEntry nm.oops index object)
      (h : DescribesObject host nm.method keys object record) :
      DescribesSite host nm keys ⟨offset, .oop index true⟩ (some record)
  | metadata {offset index : UInt32} {entity : Option Entity}
      {record : TagRecord} (hentry : IsEntry nm.metadata index entity)
      (h : DescribesEntity host nm.method keys entity record) :
      DescribesSite host nm keys ⟨offset, .metadata index true⟩ (some record)
  | global {offset : UInt32} {kind : RelocKind} {address : UInt64}
      {g : GlobalKind} {n : UInt32}
      (hkind : kind = .externalWord ∨ kind = .runtimeCall)
      (hslot : nm.code.readSlot offset.toNat = .ok address)
      (h : host.globals.find? address = some (g, n)) :
      DescribesSite host nm keys ⟨offset, kind⟩ (some (.global g n))
  | poll {offset : UInt32} {kind : RelocKind} {usesPage : Bool}
      (hkind : kind = .poll usesPage ∨ kind = .pollReturn usesPage) :
      DescribesSite host nm keys ⟨offset, kind⟩ (some (pollRecord usesPage))
  | internal {offset : UInt32} {kind : RelocKind} {address : UInt64}
      (hkind : kind = .internalWord ∨ kind = .sectionWord)
      (hslot : nm.code.readSlot offset.toNat = .ok address)
      (hlow : nm.base ≤ address)
      (hhigh : address ≤ nm.base + UInt64.ofNat nm.code.length) :
      DescribesSite host nm keys ⟨offset, kind⟩
        (some (.internalWord (address - nm.base).toUInt32))
  | plain {r : Relocation} (hkind : r.kind.hasRecord = false) :
      DescribesSite host nm keys r none

variable {host : Host} {self : MethodId} {nm : CompiledMethod}
  {keys : List MetaKey}

/-!
## No record is an end mark
-/

theorem DescribesEntity.ne_finish {entity : Option Entity} {record : TagRecord}
    (h : DescribesEntity host self keys entity record) :
    record ≠ .finish := by
  cases h <;> intro heq <;> cases heq

theorem DescribesObject.ne_finish {object : Option Object} {record : TagRecord}
    (h : DescribesObject host self keys object record) :
    record ≠ .finish := by
  cases h <;> intro heq <;> cases heq

theorem DescribesSite.ne_finish {r : Relocation} {record : TagRecord}
    (h : DescribesSite host nm keys r (some record)) :
    record ≠ .finish := by
  cases h with
  | oop hentry h => exact h.ne_finish
  | metadata hentry h => exact h.ne_finish
  | @poll _ _ usesPage hkind =>
      cases usesPage <;> intro heq <;> cases heq
  | _ => intro heq; cases heq

/-!
## The record of a site, by kind
-/

namespace DescribesSite

variable {offset : UInt32} {kind : RelocKind} {record? : Option TagRecord}

theorem of_plain {r : Relocation} (h : DescribesSite host nm keys r record?)
    (hkind : r.kind.hasRecord = false) :
    record? = none := by
  cases h with
  | plain => rfl
  | oop => cases hkind
  | metadata => cases hkind
  | global hglobal => rcases hglobal with rfl | rfl <;> cases hkind
  | poll hpoll => rcases hpoll with rfl | rfl <;> cases hkind
  | internal hinternal => rcases hinternal with rfl | rfl <;> cases hkind

theorem of_oop {index : UInt32}
    (h : DescribesSite host nm keys ⟨offset, .oop index true⟩ record?) :
    ∃ object record, IsEntry nm.oops index object ∧
      DescribesObject host nm.method keys object record ∧
      record? = some record := by
  cases h with
  | oop hentry h => exact ⟨_, _, hentry, h, rfl⟩
  | plain hkind => cases hkind
  | global hkind => rcases hkind with hkind | hkind <;> cases hkind
  | poll hkind => rcases hkind with hkind | hkind <;> cases hkind
  | internal hkind => rcases hkind with hkind | hkind <;> cases hkind

theorem of_metadata {index : UInt32}
    (h : DescribesSite host nm keys ⟨offset, .metadata index true⟩ record?) :
    ∃ entity record, IsEntry nm.metadata index entity ∧
      DescribesEntity host nm.method keys entity record ∧
      record? = some record := by
  cases h with
  | metadata hentry h => exact ⟨_, _, hentry, h, rfl⟩
  | plain hkind => cases hkind
  | global hkind => rcases hkind with hkind | hkind <;> cases hkind
  | poll hkind => rcases hkind with hkind | hkind <;> cases hkind
  | internal hkind => rcases hkind with hkind | hkind <;> cases hkind

theorem of_global (h : DescribesSite host nm keys ⟨offset, kind⟩ record?)
    (hkind : kind = .externalWord ∨ kind = .runtimeCall) :
    ∃ address g n, nm.code.readSlot offset.toNat = .ok address ∧
      host.globals.find? address = some (g, n) ∧
      record? = some (.global g n) := by
  cases h with
  | global _ hslot h => exact ⟨_, _, _, hslot, h, rfl⟩
  | plain hplain => rcases hkind with rfl | rfl <;> cases hplain
  | oop => rcases hkind with hkind | hkind <;> cases hkind
  | metadata => rcases hkind with hkind | hkind <;> cases hkind
  | poll hpoll =>
      rcases hkind with rfl | rfl <;> rcases hpoll with hpoll | hpoll <;>
        cases hpoll
  | internal hinternal =>
      rcases hkind with rfl | rfl <;>
        rcases hinternal with hinternal | hinternal <;> cases hinternal

theorem of_poll {usesPage : Bool}
    (h : DescribesSite host nm keys ⟨offset, kind⟩ record?)
    (hkind : kind = .poll usesPage ∨ kind = .pollReturn usesPage) :
    record? = some (pollRecord usesPage) := by
  cases h with
  | poll hpoll =>
      rcases hkind with rfl | rfl <;> rcases hpoll with hpoll | hpoll <;>
        cases hpoll <;> rfl
  | plain hplain => rcases hkind with rfl | rfl <;> cases hplain
  | oop => rcases hkind with hkind | hkind <;> cases hkind
  | metadata => rcases hkind with hkind | hkind <;> cases hkind
  | global hglobal =>
      rcases hkind with rfl | rfl <;> rcases hglobal with hglobal | hglobal <;>
        cases hglobal
  | internal hinternal =>
      rcases hkind with rfl | rfl <;>
        rcases hinternal with hinternal | hinternal <;> cases hinternal

theorem of_internal (h : DescribesSite host nm keys ⟨offset, kind⟩ record?)
    (hkind : kind = .internalWord ∨ kind = .sectionWord) :
    ∃ address, nm.code.readSlot offset.toNat = .ok address ∧
      nm.base ≤ address ∧ address ≤ nm.base + UInt64.ofNat nm.code.length ∧
      record? = some (.internalWord (address - nm.base).toUInt32) := by
  cases h with
  | internal _ hslot hlow hhigh => exact ⟨_, hslot, hlow, hhigh, rfl⟩
  | plain hplain => rcases hkind with rfl | rfl <;> cases hplain
  | oop => rcases hkind with hkind | hkind <;> cases hkind
  | metadata => rcases hkind with hkind | hkind <;> cases hkind
  | global hglobal =>
      rcases hkind with rfl | rfl <;> rcases hglobal with hglobal | hglobal <;>
        cases hglobal
  | poll hpoll =>
      rcases hkind with rfl | rfl <;> rcases hpoll with hpoll | hpoll <;>
        cases hpoll

end DescribesSite

/-!
## Emitting
-/

theorem isEntry_of_entryAt {α : Type} {entries : List α} {index : UInt32}
    {missing : Unresolved} {a : α} (h : entryAt entries index missing = .ok a) :
    IsEntry entries index a := by
  unfold entryAt at h
  by_cases hzero : index = 0
  · rw [if_pos hzero] at h
    cases h
  · rw [if_neg hzero] at h
    refine ⟨hzero, ?_⟩
    cases hentry : entries[index.toNat - 1]? with
    | none =>
        rw [hentry] at h
        cases h
    | some b =>
        rw [hentry] at h
        cases h
        rfl

theorem entityRecord_interns (e : Entity) :
    Interns host keys (entityRecord host self e)
      (DescribesEntity host self keys (some e)) := by
  unfold entityRecord
  by_cases hself : e = .method self
  · rw [if_pos hself, hself]
    exact Interns.of_pure .self
  · rw [if_neg hself]
    refine (Interns.of_intern e).of_bind fun index => ?_
    cases e with
    | klass k => exact Interns.of_pure fun h => .klass h
    | method m =>
        refine Interns.of_pure fun h => .method ?_ h
        intro hm
        rw [hm] at hself
        exact hself rfl

theorem objectRecord_interns (o : Object) :
    Interns host keys (objectRecord host self o)
      (DescribesObject host self keys (some o)) := by
  unfold objectRecord
  cases hknown : host.knownObject o with
  | some known => exact Interns.of_pure (.known hknown)
  | none =>
      cases o with
      | text s => exact Interns.of_pure (.text s)
      | mirror k =>
          refine (Interns.of_intern (.klass k)).of_bind fun index => ?_
          exact Interns.of_pure fun h => .mirror h
      | loader l =>
          dsimp only
          split
          · rename_i hl
            rw [hl]
            exact Interns.of_pure .loader
          · exact Interns.of_throw _
      | known o => exact Interns.of_throw _
      | unnamed address => exact Interns.of_throw _

theorem orNone_interns {α : Type} {record : α → InSpace TagRecord}
    {describes : Option α → TagRecord → Prop} (habsent : describes none .nonOop)
    (h : ∀ a, Interns host keys (record a) (describes (some a)))
    (a? : Option α) :
    Interns host keys (orNone record a?) (describes a?) := by
  cases a? with
  | none => exact Interns.of_pure habsent
  | some a => exact h a

theorem of_globalRecord {code : Bytes} {what : String} {site : UInt32}
    {record : TagRecord} (h : globalRecord host code what site = .ok record) :
    ∃ address g n, code.readSlot site.toNat = .ok address ∧
      host.globals.find? address = some (g, n) ∧ record = .global g n := by
  unfold globalRecord at h
  simp only [bind, Except.bind] at h
  cases hslot : code.readSlot site.toNat with
  | error e =>
      rw [hslot] at h
      cases h
  | ok address =>
      rw [hslot] at h
      dsimp only at h
      cases hfind : host.globals.find? address with
      | none =>
          rw [hfind] at h
          cases h
      | some found =>
          rw [hfind] at h
          cases h
          exact ⟨address, found.1, found.2, rfl, hfind, rfl⟩

theorem of_internalRecord {site : UInt32} {record : TagRecord}
    (h : internalRecord nm site = .ok record) :
    ∃ address, nm.code.readSlot site.toNat = .ok address ∧
      nm.base ≤ address ∧ address ≤ nm.base + UInt64.ofNat nm.code.length ∧
      record = .internalWord (address - nm.base).toUInt32 := by
  unfold internalRecord at h
  simp only [bind, Except.bind] at h
  cases hslot : nm.code.readSlot site.toNat with
  | error e =>
      rw [hslot] at h
      cases h
  | ok address =>
      rw [hslot] at h
      dsimp only at h
      split at h
      · cases h
      · rename_i hinside
        cases h
        simp only [Bool.or_eq_true, decide_eq_true_eq, not_or,
          UInt64.not_lt] at hinside
        exact ⟨address, rfl, hinside.1, hinside.2, rfl⟩

theorem siteRecord?_interns (r : Relocation) :
    Interns host keys (siteRecord? host nm r) (DescribesSite host nm keys r) := by
  have hglobal : ∀ (what : String) (offset : UInt32) (kind : RelocKind),
      kind = .externalWord ∨ kind = .runtimeCall →
      Interns host keys
        (some <$> ofExcept (globalRecord host nm.code what offset))
        (DescribesSite host nm keys ⟨offset, kind⟩) := by
    intro what offset kind hkind
    refine (Interns.of_ofExcept fun record hrecord => ?_).of_map
    rcases of_globalRecord hrecord with ⟨address, g, n, hslot, hfind, heq⟩
    rw [heq]
    exact .global hkind hslot hfind
  have hinternal : ∀ (offset : UInt32) (kind : RelocKind),
      kind = .internalWord ∨ kind = .sectionWord →
      Interns host keys (some <$> ofExcept (internalRecord nm offset))
        (DescribesSite host nm keys ⟨offset, kind⟩) := by
    intro offset kind hkind
    refine (Interns.of_ofExcept fun record hrecord => ?_).of_map
    rcases of_internalRecord hrecord with ⟨address, hslot, hlow, hhigh, heq⟩
    rw [heq]
    exact .internal hkind hslot hlow hhigh
  rcases r with ⟨offset, kind⟩
  cases kind with
  | oop index immediate =>
      cases immediate with
      | false => exact Interns.of_pure (.plain rfl)
      | true =>
          refine (Interns.of_ofExcept fun object hobject =>
            isEntry_of_entryAt hobject).of_bind fun object => ?_
          refine Interns.of_map ?_
          refine (orNone_interns .absent
            objectRecord_interns object).mono ?_
          intro record h hentry
          exact .oop hentry h
  | metadata index immediate =>
      cases immediate with
      | false => exact Interns.of_pure (.plain rfl)
      | true =>
          refine (Interns.of_ofExcept fun entity hentity =>
            isEntry_of_entryAt hentity).of_bind fun entity => ?_
          refine Interns.of_map ?_
          refine (orNone_interns .absent
            entityRecord_interns entity).mono ?_
          intro record h hentry
          exact .metadata hentry h
  | externalWord => exact hglobal _ offset _ (Or.inl rfl)
  | runtimeCall => exact hglobal _ offset _ (Or.inr rfl)
  | poll usesPage => exact Interns.of_pure (.poll (Or.inl rfl))
  | pollReturn usesPage => exact Interns.of_pure (.poll (Or.inr rfl))
  | internalWord => exact hinternal offset _ (Or.inl rfl)
  | sectionWord => exact hinternal offset _ (Or.inr rfl)
  | _ => exact Interns.of_pure (.plain rfl)

structure Describes (host : Host) (keys : List MetaKey) (nm : CompiledMethod)
    (blob : EmittedBlob) (metas oops : List TagRecord)
    (sites : List (Option TagRecord)) : Prop where
  assembled : ∃ methodIndex, IsNamed host keys (.method nm.method) methodIndex ∧
    blob = assemble nm methodIndex (TagStream.encode metas)
      (TagStream.encode oops) (TagStream.encode (sites.filterMap id))
  metas : List.Forall₂ (DescribesEntity host nm.method keys) nm.metadata metas
  oops : List.Forall₂ (DescribesObject host nm.method keys) nm.oops oops
  sites : List.Forall₂ (DescribesSite host nm keys) nm.relocations sites

theorem Describes.ne_finish {blob : EmittedBlob} {metas oops : List TagRecord}
    {sites : List (Option TagRecord)}
    (h : Describes host keys nm blob metas oops sites) :
    ∀ record ∈ metas ++ oops ++ sites.filterMap id, record ≠ .finish := by
  intro record hrecord
  rw [List.mem_append, List.mem_append] at hrecord
  rcases hrecord with (hmeta | hoop) | hsite
  · rcases exists_of_mem_right h.metas hmeta with ⟨entity, _, hdescribes⟩
    exact hdescribes.ne_finish
  · rcases exists_of_mem_right h.oops hoop with ⟨object, _, hdescribes⟩
    exact hdescribes.ne_finish
  · rcases List.mem_filterMap.mp hsite with ⟨record?, hmem, heq⟩
    rw [id_eq] at heq
    rw [heq] at hmem
    rcases exists_of_mem_right h.sites hmem with ⟨site, _, hdescribes⟩
    exact hdescribes.ne_finish

end Emit

theorem CompiledMethod.emit_interns {host : Host} {keys : List MetaKey}
    (nm : CompiledMethod) :
    Interns host keys (nm.emit host)
      (fun blob => ∃ metas oops sites,
        Emit.Describes host keys nm blob metas oops sites) := by
  unfold CompiledMethod.emit
  refine (Interns.of_intern (.method nm.method)).of_bind
    fun methodIndex => ?_
  refine (Interns.of_mapM (Emit.orNone_interns .absent
    Emit.entityRecord_interns) nm.metadata).of_bind fun metas => ?_
  refine (Interns.of_mapM (Emit.orNone_interns .absent
    Emit.objectRecord_interns) nm.oops).of_bind fun oops => ?_
  refine (Interns.of_mapM Emit.siteRecord?_interns
    nm.relocations).of_bind fun sites => ?_
  refine Interns.of_pure ?_
  intro hsites hoops hmetas hindex
  exact ⟨metas, oops, sites, ⟨methodIndex, hindex, rfl⟩, hmetas, hoops, hsites⟩

end CodeCache
