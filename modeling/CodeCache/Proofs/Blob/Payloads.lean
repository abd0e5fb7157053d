import CodeCache.Proofs.Blob.Contents
import CodeCache.Proofs.Blob.Emitting

/-!
# What the records of a method take

A stored record is one word of eight bytes, and a record of a class, a mirror or
a string has a payload behind it. Which payload a record has is settled by the
entry or the patch site that it is of, whatever the metaspace holds. So the
lengths of the three tag streams can be told from the method.
-/

namespace CodeCache

structure TagRecord.OfSize (record : TagRecord) (size : Nat) : Prop where
  ne_finish : record ≠ .finish
  size_eq : record.encodedSize = size

namespace Emit

/-!
## Payloads
-/

def entityPayload : Option Entity → Nat
  | some (.klass _) => 8
  | _ => 0

/-- What the record of an object takes behind its word: the text of a string, or
the index and the state of the class of a mirror. An object that is known to every
process is told by its number. -/
def objectPayload (host : Host) : Option Object → Nat
  | some object =>
    match host.knownObject object, object with
    | none, .text s => alignUp (Utf8.encode s).length
    | none, .mirror _ => 8
    | _, _ => 0
  | none => 0

def slotAt {α : Type} (entries : List (Option α)) (index : UInt32) : Option α :=
  if index = 0 then none else entries[index.toNat - 1]?.join

/-- What the record of a patch site takes behind its word: an immediate site
repeats its entry. -/
def sitePayload (host : Host) (nm : CompiledMethod) : RelocKind → Nat
  | .oop index true => objectPayload host (slotAt nm.oops index)
  | .metadata index true => entityPayload (slotAt nm.metadata index)
  | _ => 0

end Emit

namespace CompiledMethod

def recordCount (nm : CompiledMethod) : Nat :=
  nm.metadata.length + nm.oops.length +
    nm.relocations.countP fun r => r.kind.hasRecord

def payload (host : Host) (nm : CompiledMethod) : Nat :=
  (nm.metadata.map Emit.entityPayload).sum +
    (nm.oops.map (Emit.objectPayload host)).sum +
    (nm.relocations.map fun r => Emit.sitePayload host nm r.kind).sum

end CompiledMethod

namespace Emit

variable {host : Host} {self : MethodId} {nm : CompiledMethod}

theorem slotAt_of_isEntry {α : Type} {entries : List (Option α)} {index : UInt32}
    {a? : Option α} (h : IsEntry entries index a?) :
    slotAt entries index = a? := by
  rcases h with ⟨hindex, hentry⟩
  unfold slotAt
  rw [if_neg hindex, hentry]
  rfl

theorem sitePayload_of_plain {kind : RelocKind} (h : kind.hasRecord = false) :
    sitePayload host nm kind = 0 := by
  cases kind with
  | oop index immediate =>
      cases immediate with
      | false => rfl
      | true => cases h
  | metadata index immediate =>
      cases immediate with
      | false => rfl
      | true => cases h
  | _ => rfl

/-!
## Records of the arrays and of the sites
-/

theorem entityRecord_ensures (e : Entity) :
    Ensures (fun _ => True) (entityRecord host self e)
      (·.OfSize (8 + entityPayload (some e))) := by
  unfold entityRecord
  refine .of_ite (fun hself => ?_) fun _ => ?_
  · rw [hself]
    exact .of_pure ⟨nofun, rfl⟩
  · refine .of_bind (.of_true _) fun index _ => ?_
    cases e with
    | method m | klass k => exact .of_pure ⟨nofun, rfl⟩

theorem objectRecord_ensures (o : Object) :
    Ensures (fun _ => True) (objectRecord host self o)
      (·.OfSize (8 + objectPayload host (some o))) := by
  unfold objectRecord
  dsimp only [objectPayload]
  cases host.knownObject o with
  | some known => exact .of_pure ⟨nofun, rfl⟩
  | none =>
      cases o with
      | text s =>
          refine .of_pure ⟨nofun, ?_⟩
          show alignUp (8 + _) = 8 + alignUp _
          unfold alignUp
          omega
      | mirror k =>
          exact .of_bind (.of_true _) fun index _ => .of_pure ⟨nofun, rfl⟩
      | loader l =>
          exact .of_ite (fun _ => .of_pure ⟨nofun, rfl⟩) fun _ => .of_throw _
      | known o => exact .of_throw _
      | unnamed address => exact .of_throw _

theorem orNone_ensures {α : Type} {record : α → InSpace TagRecord}
    {payload : Option α → Nat} (hnone : payload none = 0)
    (h : ∀ a, Ensures (fun _ => True) (record a) (·.OfSize (8 + payload (some a))))
    (a? : Option α) :
    Ensures (fun _ => True) (orNone record a?) (·.OfSize (8 + payload a?)) := by
  cases a? with
  | none =>
      rw [hnone]
      exact .of_pure ⟨nofun, rfl⟩
  | some a => exact h a

def SiteOfSize (host : Host) (nm : CompiledMethod) (kind : RelocKind) :
    Option TagRecord → Prop
  | some record =>
    kind.hasRecord = true ∧ record.OfSize (8 + sitePayload host nm kind)
  | none => kind.hasRecord = false

theorem siteRecord?_ensures (r : Relocation) :
    Ensures (fun _ => True) (siteRecord? host nm r) (SiteOfSize host nm r.kind) := by
  have hsome : ∀ {kind : RelocKind} {work : InSpace TagRecord},
      kind.hasRecord = true →
      Ensures (fun _ => True) work (·.OfSize (8 + sitePayload host nm kind)) →
      Ensures (fun _ => True) (some <$> work) (SiteOfSize host nm kind) := by
    intro kind work hkind hwork
    exact (hwork.mono fun record hrecord => ⟨hkind, hrecord⟩).of_map
  have hglobal : ∀ what offset, Ensures (fun _ => True)
      (ofExcept (globalRecord host nm.code what offset) : InSpace _)
      (·.OfSize 8) := by
    intro what offset
    refine .of_ofExcept fun record hrecord => ?_
    rcases of_globalRecord hrecord with ⟨_, _, _, _, _, rfl⟩
    exact ⟨nofun, rfl⟩
  have hinternal : ∀ offset, Ensures (fun _ => True)
      (ofExcept (internalRecord nm offset) : InSpace _) (·.OfSize 8) := by
    intro offset
    refine .of_ofExcept fun record hrecord => ?_
    rcases of_internalRecord hrecord with ⟨_, _, _, _, rfl⟩
    exact ⟨nofun, rfl⟩
  have hpoll : ∀ usesPage, (pollRecord usesPage).OfSize 8 := by
    intro usesPage
    cases usesPage <;> exact ⟨nofun, rfl⟩
  rcases r with ⟨offset, kind⟩
  cases kind with
  | oop index immediate =>
      cases immediate with
      | false => exact .of_pure rfl
      | true =>
          refine .of_bind (.of_ofExcept fun _ => isEntry_of_entryAt)
            fun object hentry => hsome rfl ?_
          dsimp only [sitePayload]
          rw [slotAt_of_isEntry hentry]
          exact orNone_ensures rfl objectRecord_ensures object
  | metadata index immediate =>
      cases immediate with
      | false => exact .of_pure rfl
      | true =>
          refine .of_bind (.of_ofExcept fun _ => isEntry_of_entryAt)
            fun entity hentry => hsome rfl ?_
          dsimp only [sitePayload]
          rw [slotAt_of_isEntry hentry]
          exact orNone_ensures rfl entityRecord_ensures entity
  | externalWord => exact hsome rfl (hglobal _ offset)
  | runtimeCall => exact hsome rfl (hglobal _ offset)
  | poll usesPage => exact .of_pure ⟨rfl, hpoll usesPage⟩
  | pollReturn usesPage => exact .of_pure ⟨rfl, hpoll usesPage⟩
  | internalWord => exact hsome rfl (hinternal offset)
  | sectionWord => exact hsome rfl (hinternal offset)
  | _ => exact .of_pure rfl

/-!
## The whole method
-/

structure Weighed (host : Host) (nm : CompiledMethod) (blob : EmittedBlob)
    (metas oops : List TagRecord) (sites : List (Option TagRecord)) : Prop where
  assembled : blob = assemble nm blob.methodIndex (TagStream.encode metas)
    (TagStream.encode oops) (TagStream.encode (sites.filterMap id))
  metas : List.Forall₂ (fun e r => r.OfSize (8 + entityPayload e)) nm.metadata metas
  oops : List.Forall₂ (fun o r => r.OfSize (8 + objectPayload host o)) nm.oops oops
  sites : List.Forall₂ (fun r => SiteOfSize host nm r.kind) nm.relocations sites

theorem sum_sizes {α : Type} {payload : α → Nat} {as : List α}
    {records : List TagRecord}
    (h : List.Forall₂ (fun a r => r.OfSize (8 + payload a)) as records) :
    (records.map TagRecord.encodedSize).sum =
      8 * as.length + (as.map payload).sum := by
  induction h with
  | nil => rfl
  | cons hrecord _ ih =>
      rw [List.map_cons, List.sum_cons, ih, hrecord.size_eq, List.length_cons,
        List.map_cons, List.sum_cons]
      omega

theorem sum_site_sizes {relocs : List Relocation} {sites : List (Option TagRecord)}
    (h : List.Forall₂ (fun r => SiteOfSize host nm r.kind) relocs sites) :
    ((sites.filterMap id).map TagRecord.encodedSize).sum =
      8 * (relocs.countP fun r => r.kind.hasRecord) +
        (relocs.map fun r => sitePayload host nm r.kind).sum := by
  induction h with
  | nil => rfl
  | @cons r record? _ sites hsite _ ih =>
      cases record? with
      | none =>
          have hplain : r.kind.hasRecord = false := hsite
          rw [show (none :: sites).filterMap id = sites.filterMap id from rfl, ih]
          simp [hplain, sitePayload_of_plain hplain]
      | some record =>
          rcases hsite with ⟨hkind, hrecord⟩
          rw [show (some record :: sites).filterMap id =
              record :: sites.filterMap id from rfl, List.map_cons, List.sum_cons, ih,
            hrecord.size_eq, List.countP_cons, if_pos hkind, List.map_cons,
            List.sum_cons]
          omega

namespace Weighed

variable {blob : EmittedBlob} {metas oops : List TagRecord}
  {sites : List (Option TagRecord)}

def content (_ : Weighed host nm blob metas oops sites) : Content :=
  ⟨nm, blob.methodIndex, metas, oops, sites.filterMap id⟩

theorem sound (h : Weighed host nm blob metas oops sites) : h.content.Sound := by
  constructor
  · exact h.metas.length_eq.symm
  · exact h.oops.length_eq.symm
  · intro record hrecord
    simp only [content, List.mem_append, List.mem_filterMap, id_eq,
      exists_eq_right] at hrecord
    rcases hrecord with (hmem | hmem) | hmem
    · rcases exists_of_mem_right h.metas hmem with ⟨_, -, hrecord⟩
      exact hrecord.ne_finish
    · rcases exists_of_mem_right h.oops hmem with ⟨_, -, hrecord⟩
      exact hrecord.ne_finish
    · rcases exists_of_mem_right h.sites hmem with ⟨_, -, _, hrecord⟩
      exact hrecord.ne_finish

theorem bytes_eq (h : Weighed host nm blob metas oops sites) :
    blob.bytes = h.content.bytes (-1) :=
  congrArg EmittedBlob.bytes h.assembled

/-- The three streams are their records, each a word and its payload, and three
end marks. -/
theorem length_streams (h : Weighed host nm blob metas oops sites) :
    (TagStream.encode metas).length + (TagStream.encode oops).length +
        (TagStream.encode (sites.filterMap id)).length =
      8 * (nm.recordCount + 3) + nm.payload host := by
  rw [TagStream.length_encode, TagStream.length_encode, TagStream.length_encode,
    sum_sizes h.metas, sum_sizes h.oops, sum_site_sizes h.sites]
  unfold CompiledMethod.recordCount CompiledMethod.payload
  omega

end Weighed

end Emit

theorem CompiledMethod.emit_weighed (host : Host) (nm : CompiledMethod) :
    Ensures (fun _ => True) (nm.emit host) (fun blob =>
      ∃ metas oops sites, Emit.Weighed host nm blob metas oops sites) := by
  unfold CompiledMethod.emit
  refine .of_bind (.of_true _) fun index _ => ?_
  refine .of_bind (.of_mapM fun a _ =>
    Emit.orNone_ensures rfl Emit.entityRecord_ensures a) fun metas hmetas => ?_
  refine .of_bind (.of_mapM fun a _ =>
    Emit.orNone_ensures rfl Emit.objectRecord_ensures a) fun oops hoops => ?_
  refine .of_bind (.of_mapM fun r _ => Emit.siteRecord?_ensures r)
    fun sites hsites => ?_
  exact .of_pure ⟨metas, oops, sites, rfl, hmetas, hoops, hsites⟩

end CodeCache
