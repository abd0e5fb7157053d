import CodeCache.Proofs.Blob.Payloads
import CodeCache.Proofs.Blob.RoundTrip
import Mathlib.Algebra.BigOperators.Ring.List
import Mathlib.Algebra.Order.BigOperators.Group.Finset

/-!
# Room for the tag streams

How long the tag streams may become is estimated before a record is made. The
estimate has a word for every record, two words more for every entry and every
immediate site, and twice the length of every string of the object array: once
for its entry, and once for a site.

So the streams stay below the estimate exactly if their payloads fit into what it
has besides the words, and they do if no string is used by two immediate sites, as
in every method that an assembler builds. A string is stored again at each site
that uses it, but only one of them is allowed for.
-/

namespace CodeCache

/-- The three tag streams of an emitted blob: it was put together from them, and
below the limit of its offsets they are what is read from it. -/
structure EmittedBlob.HasStreams (emitted : EmittedBlob) (nm : CompiledMethod)
    (tagMeta tagOop tagReloc : Bytes) : Prop where
  assembled : emitted =
    Emit.assemble nm emitted.methodIndex tagMeta tagOop tagReloc
  read_back : emitted.bytes.length < 2 ^ 32 →
    ∃ b, Blob.parse emitted.bytes 0 = .ok b ∧ b.tagMeta = tagMeta ∧
      b.tagOop = tagOop ∧ b.tagReloc = tagReloc

namespace Emit

def immediateOop? : RelocKind → Option UInt32
  | .oop index true => some index
  | _ => none

def siteRoom : RelocKind → Nat
  | .oop _ true => 16
  | .metadata _ true => 16
  | _ => 0

def textLength : Option Object → Nat
  | some (.text s) => (Utf8.encode s).length
  | _ => 0

end Emit

namespace CompiledMethod

def textSize (nm : CompiledMethod) : Nat :=
  (nm.oops.map Emit.textLength).sum

def oopSites (nm : CompiledMethod) : List UInt32 :=
  nm.relocations.filterMap fun r => Emit.immediateOop? r.kind

def textSites (nm : CompiledMethod) : List UInt32 :=
  nm.oopSites.filter fun index => Emit.textLength (Emit.slotAt nm.oops index) != 0

/-- What the estimate has besides a word for every record and every end mark. -/
def room (nm : CompiledMethod) : Nat :=
  16 * (nm.metadata.length + nm.oops.length) +
    (nm.relocations.map fun r => Emit.siteRoom r.kind).sum + 2 * nm.textSize

/-!
## The estimate
-/

theorem siteEstimate_eq (kind : RelocKind) :
    siteEstimate kind = (if kind.hasRecord then 8 else 0) + Emit.siteRoom kind := by
  cases kind with
  | oop index immediate => cases immediate <;> rfl
  | metadata index immediate => cases immediate <;> rfl
  | _ => rfl

theorem sum_siteEstimate (relocs : List Relocation) :
    (relocs.map fun r => siteEstimate r.kind).sum =
      8 * (relocs.countP fun r => r.kind.hasRecord) +
        (relocs.map fun r => Emit.siteRoom r.kind).sum := by
  induction relocs with
  | nil => rfl
  | cons r relocs ih =>
      rw [List.map_cons, List.sum_cons, ih, siteEstimate_eq, List.countP_cons,
        List.map_cons, List.sum_cons]
      split <;> omega

theorem textEstimate_eq (object : Option Object) :
    textEstimate object = 2 * Emit.textLength object := by
  cases object with
  | none => rfl
  | some object => cases object <;> rfl

theorem sum_textEstimate (objects : List (Option Object)) :
    (objects.map textEstimate).sum = 2 * (objects.map Emit.textLength).sum := by
  rw [← List.sum_map_mul_left]
  exact congrArg List.sum (List.map_congr_left fun object _ => textEstimate_eq object)

theorem estimateTagSize_eq (nm : CompiledMethod) :
    nm.estimateTagSize = 8 * (nm.recordCount + 3) + nm.room := by
  have hestimate : nm.estimateTagSize =
      (nm.oops.length + nm.metadata.length) * 24 +
        (nm.relocations.map fun r => siteEstimate r.kind).sum +
        (nm.oops.map textEstimate).sum + 3 * 8 := rfl
  rw [hestimate, sum_siteEstimate, sum_textEstimate]
  unfold recordCount room textSize
  omega

end CompiledMethod

namespace Emit

variable {host : Host} {nm : CompiledMethod}

/-!
## Payloads against the room
-/

theorem entityPayload_le (e : Option Entity) : entityPayload e ≤ 16 := by
  unfold entityPayload
  split <;> decide

theorem objectPayload_le (host : Host) (o : Option Object) :
    objectPayload host o ≤ 16 + textLength o := by
  cases o with
  | none => exact Nat.zero_le _
  | some object =>
      dsimp only [objectPayload]
      split
      · rename_i s _
        have hlt := alignUp_lt (Utf8.encode s).length
        dsimp only [textLength]
        omega
      · omega
      · omega

def siteText (nm : CompiledMethod) (kind : RelocKind) : Nat :=
  (immediateOop? kind).elim 0 fun index => textLength (slotAt nm.oops index)

theorem sitePayload_le (host : Host) (nm : CompiledMethod) (kind : RelocKind) :
    sitePayload host nm kind ≤ siteRoom kind + siteText nm kind := by
  cases kind with
  | oop index immediate =>
      cases immediate with
      | false => exact Nat.zero_le _
      | true => exact objectPayload_le host _
  | metadata index immediate =>
      cases immediate with
      | false => exact Nat.zero_le _
      | true => exact entityPayload_le _
  | _ => exact Nat.zero_le _

theorem sum_map_le_add {α : Type} {f g h : α → Nat} (as : List α)
    (hle : ∀ a, f a ≤ g a + h a) :
    (as.map f).sum ≤ (as.map g).sum + (as.map h).sum := by
  rw [← List.sum_map_add]
  exact List.sum_le_sum fun a _ => hle a

theorem sum_siteText (relocs : List Relocation) :
    (relocs.map fun r => siteText nm r.kind).sum =
      ((relocs.filterMap fun r => immediateOop? r.kind).map fun index =>
        textLength (slotAt nm.oops index)).sum := by
  induction relocs with
  | nil => rfl
  | cons r relocs ih =>
      rw [List.map_cons, List.sum_cons, ih, List.filterMap_cons]
      unfold siteText
      cases immediateOop? r.kind with
      | none => exact Nat.zero_add _
      | some index => rfl

/-!
## Entries that are used once
-/

theorem sum_le_sum_range {size : Nat → Nat} {bound : Nat} {places : List Nat}
    (hnodup : places.Nodup) (hlt : ∀ i ∈ places, i < bound) :
    (places.map size).sum ≤ ((List.range bound).map size).sum := by
  rw [← List.sum_toFinset size hnodup, ← List.sum_toFinset size List.nodup_range]
  apply Finset.sum_le_sum_of_subset
  intro i hi
  rw [List.mem_toFinset] at hi ⊢
  exact List.mem_range.mpr (hlt i hi)

theorem map_eq_map_range {α : Type} (entries : List (Option α))
    (size : Option α → Nat) :
    entries.map size =
      (List.range entries.length).map fun i => size entries[i]?.join := by
  apply List.ext_getElem
  · simp
  · intro i hi _
    rw [List.length_map] at hi
    simp [hi]

theorem slotAt_cases {α : Type} (entries : List (Option α)) (index : UInt32) :
    slotAt entries index = none ∨
      0 < index.toNat ∧ index.toNat - 1 < entries.length ∧
        slotAt entries index = entries[index.toNat - 1]?.join := by
  unfold slotAt
  by_cases hzero : index = 0
  · exact Or.inl (if_pos hzero)
  · rw [if_neg hzero]
    by_cases hlt : index.toNat - 1 < entries.length
    · have hpos : 0 < index.toNat :=
        Nat.pos_of_ne_zero fun h => hzero (UInt32.toNat_inj.mp h)
      exact Or.inr ⟨hpos, hlt, rfl⟩
    · rw [List.getElem?_eq_none (Nat.not_lt.mp hlt)]
      exact Or.inl rfl

theorem sum_slotAt_le_of_nodup {α : Type} {entries : List (Option α)}
    {size : Option α → Nat} (hnone : size none = 0) {indices : List UInt32}
    (hnodup : indices.Nodup)
    (hused : ∀ index ∈ indices, size (slotAt entries index) ≠ 0) :
    (indices.map fun index => size (slotAt entries index)).sum ≤
      (entries.map size).sum := by
  have hplace : ∀ index ∈ indices, 0 < index.toNat ∧
      index.toNat - 1 < entries.length ∧
      slotAt entries index = entries[index.toNat - 1]?.join := by
    intro index hindex
    rcases slotAt_cases entries index with hempty | hplace
    · have hsize := hused index hindex
      rw [hempty] at hsize
      exact absurd hnone hsize
    · exact hplace
  have hplaces : (indices.map fun index => index.toNat - 1).Nodup := by
    apply hnodup.map_on
    intro i hi j hj heq
    have hi_pos := (hplace i hi).1
    have hj_pos := (hplace j hj).1
    exact UInt32.toNat_inj.mp (by omega)
  have hmap : (indices.map fun index => size (slotAt entries index)) =
      (indices.map fun index => index.toNat - 1).map
        fun i => size entries[i]?.join := by
    rw [List.map_map]
    apply List.map_congr_left
    intro index hindex
    exact congrArg size (hplace index hindex).2.2
  rw [hmap, map_eq_map_range]
  apply sum_le_sum_range hplaces
  intro i hi
  rcases List.mem_map.mp hi with ⟨index, hindex, rfl⟩
  exact (hplace index hindex).2.1

theorem sum_slotAt_le {α : Type} {entries : List (Option α)} {size : Option α → Nat}
    (hnone : size none = 0) {indices : List UInt32}
    (hnodup : (indices.filter fun index =>
      size (slotAt entries index) != 0).Nodup) :
    (indices.map fun index => size (slotAt entries index)).sum ≤
      (entries.map size).sum := by
  rw [← List.sum_filter_bne_zero (indices.map _), List.filter_map]
  apply sum_slotAt_le_of_nodup hnone hnodup
  intro index hindex
  exact bne_iff_ne.mp (List.mem_filter.mp hindex).2

end Emit

namespace CompiledMethod

variable {host : Host} {nm : CompiledMethod}

theorem payload_le (host : Host) (nm : CompiledMethod) :
    nm.payload host + nm.textSize ≤ nm.room +
      (nm.oopSites.map fun index => Emit.textLength (Emit.slotAt nm.oops index)).sum := by
  have hmetas := Emit.sum_map_le_add (h := fun _ => 0) nm.metadata Emit.entityPayload_le
  have hoops := Emit.sum_map_le_add nm.oops (Emit.objectPayload_le host)
  have hsites := Emit.sum_map_le_add nm.relocations
    fun r => Emit.sitePayload_le host nm r.kind
  rw [Emit.sum_siteText] at hsites
  simp only [List.map_const', List.sum_replicate_nat] at hmetas hoops
  unfold payload room oopSites textSize
  omega

theorem payload_le_room (hnodup : nm.textSites.Nodup) :
    nm.payload host ≤ nm.room := by
  have hsites : (nm.oopSites.map fun index =>
      Emit.textLength (Emit.slotAt nm.oops index)).sum ≤ nm.textSize :=
    Emit.sum_slotAt_le rfl hnodup
  have hle := nm.payload_le host
  omega

end CompiledMethod

/-!
## What an assembler builds

An assembler gives each reference to an object an entry of its own.
-/

namespace Assembler

structure UsesOnce (nm : CompiledMethod) : Prop where
  nodup : nm.oopSites.Nodup
  le : ∀ index ∈ nm.oopSites, index.toNat ≤ nm.oops.length

theorem oopSites_relocation (nm : CompiledMethod) (r : Relocation) :
    (relocation nm r).oopSites =
      nm.oopSites ++ (Emit.immediateOop? r.kind).toList := by
  unfold CompiledMethod.oopSites
  change List.filterMap _ (nm.relocations ++ [r]) = _
  rw [List.filterMap_append]
  cases hkind : Emit.immediateOop? r.kind <;> simp [hkind]

theorem oopSites_site {nm : CompiledMethod} {value : UInt64} {kind : RelocKind}
    (hkind : Emit.immediateOop? kind = none) :
    (site nm value kind).oopSites = nm.oopSites := by
  have hsites := oopSites_relocation (slot nm value) ⟨offset nm, kind⟩
  rw [hkind, Option.toList_none, List.append_nil] at hsites
  exact hsites

theorem oopSites_addMetadata (nm : CompiledMethod) (entity : Option Entity) :
    (addMetadata nm entity).1.oopSites = nm.oopSites := by
  unfold addMetadata
  cases nm.metadata.idxOf? entity <;> rfl

theorem oopSites_addEntities (nm : CompiledMethod) (entities : List Entity) :
    (addEntities nm entities).1.oopSites = nm.oopSites := by
  induction entities generalizing nm with
  | nil => rfl
  | cons entity entities ih =>
      exact (ih _).trans (oopSites_addMetadata nm (some entity))

namespace UsesOnce

variable {host : Host} {nm nm' : CompiledMethod}

theorem of_start (host : Host) (m : MethodId) : UsesOnce (start host m) := by
  constructor
  · exact List.nodup_nil
  · exact fun _ hindex => nomatch hindex

theorem of_oopSites_eq (h : UsesOnce nm) (hoops : nm.oops <+: nm'.oops)
    (hsites : nm'.oopSites = nm.oopSites) : UsesOnce nm' := by
  constructor
  · rw [hsites]
    exact h.nodup
  · intro index hindex
    rw [hsites] at hindex
    exact Nat.le_trans (h.le index hindex) hoops.length_le

theorem oop (h : UsesOnce nm) {object : Object} {immediate : Bool}
    (hlt : (Assembler.oop nm host object immediate).oops.length < 2 ^ 32) :
    UsesOnce (Assembler.oop nm host object immediate) := by
  cases immediate with
  | false =>
      apply h.of_oopSites_eq
      · exact List.prefix_append _ _
      · exact oopSites_site rfl
  | true =>
      have hlength : (Assembler.oop nm host object true).oops.length =
          nm.oops.length + 1 := List.length_append
      have hindex : (UInt32.ofNat (nm.oops.length + 1)).toNat = nm.oops.length + 1 :=
        UInt32.toNat_ofNat_of_lt' (hlength ▸ hlt)
      have hsites : (Assembler.oop nm host object true).oopSites =
          nm.oopSites ++ [UInt32.ofNat (nm.oops.length + 1)] :=
        oopSites_relocation _ _
      constructor
      · rw [hsites, ← List.concat_eq_append]
        apply List.Nodup.concat _ h.nodup
        intro hused
        have hle := h.le _ hused
        omega
      · intro index hused
        rw [hsites, List.mem_append, List.mem_singleton] at hused
        rcases hused with hused | rfl
        · have hle := h.le index hused
          omega
        · omega

end UsesOnce

theorem Step.run_usesOnce {host : Host} {nm nm' : CompiledMethod} {step : Step}
    (hrun : step.run host nm = .ok nm') (hlt : nm'.oops.length < 2 ^ 32)
    (h : UsesOnce nm) : UsesOnce nm' := by
  have hoops := (Step.run_extends hrun).oops
  have hglobal : ∀ {value : Except Error UInt64} {before : CompiledMethod}
      {kind : RelocKind}, Emit.immediateOop? kind = none →
      before.oopSites = nm.oopSites →
      (value >>= fun v => pure (site before v kind)) = .ok nm' → UsesOnce nm' := by
    intro value before kind hkind hbefore hrun
    rcases bind_pure_eq_ok_iff.mp hrun with ⟨v, _, rfl⟩
    exact h.of_oopSites_eq hoops ((oopSites_site hkind).trans hbefore)
  cases step with
  | oop object immediate =>
      cases hrun
      exact h.oop hlt
  | externalWord kind offset => exact hglobal rfl rfl hrun
  | runtimeCall kind => exact hglobal rfl rfl hrun
  | poll usesPage => exact hglobal rfl rfl hrun
  | pollReturn usesPage => exact hglobal rfl rfl hrun
  | optVirtualCall => exact hglobal rfl rfl hrun
  | staticCall => exact hglobal rfl rfl hrun
  | virtualCall => exact @hglobal _ (slot nm nonOopWord) _ rfl rfl hrun
  | metadata entity immediate =>
      cases hrun
      exact h.of_oopSites_eq hoops
        ((oopSites_site rfl).trans (oopSites_addMetadata nm (some entity)))
  | dependency kind entities =>
      cases hrun
      exact h.of_oopSites_eq hoops (oopSites_addEntities nm entities)
  | addMetadata entity =>
      cases hrun
      exact h.of_oopSites_eq hoops (oopSites_addMetadata nm entity)
  | staticStub =>
      cases hrun
      refine h.of_oopSites_eq hoops ?_
      exact (oopSites_relocation _ _).trans (List.append_nil _)
  | internalWord target =>
      cases hrun
      exact h.of_oopSites_eq hoops (oopSites_site rfl)
  | sectionWord target =>
      cases hrun
      exact h.of_oopSites_eq hoops (oopSites_site rfl)
  | _ =>
      cases hrun
      exact h.of_oopSites_eq hoops rfl

theorem assemble_usesOnce {host : Host} {m : MethodId} {program : List Step}
    {nm : CompiledMethod} (hassemble : assemble host m program = .ok nm)
    (hlt : nm.oops.length < 2 ^ 32) : UsesOnce nm := by
  have hrun := of_foldlM_eq_ok
    (P := fun nm => nm.oops.length < 2 ^ 32 → UsesOnce nm) ?_
    (fun _ => UsesOnce.of_start host m) hassemble
  · exact hrun hlt
  · intro before step _ after hbefore hstep hafter
    have hle := (Step.run_extends hstep).oops.length_le
    exact Step.run_usesOnce hstep hafter (hbefore (Nat.lt_of_le_of_lt hle hafter))

end Assembler

/-!
## The streams of a blob
-/

namespace Emit

theorem Weighed.hasStreams {host : Host} {nm : CompiledMethod} {blob : EmittedBlob}
    {metas oops : List TagRecord} {sites : List (Option TagRecord)}
    (h : Weighed host nm blob metas oops sites) :
    blob.HasStreams nm (TagStream.encode metas) (TagStream.encode oops)
      (TagStream.encode (sites.filterMap id)) := by
  refine ⟨h.assembled, ?_⟩
  intro hsize
  rw [h.bytes_eq, Content.length_bytes] at hsize
  rw [h.bytes_eq]
  have hfilled := h.content.filled hsize (-1)
  exact ⟨h.content.blob (-1) 0, Content.parse_own hsize (-1),
    Blob.part_eq_of_placed (b := h.content.blob (-1) 0) hfilled.tagMeta,
    Blob.part_eq_of_placed (b := h.content.blob (-1) 0) hfilled.tagOop,
    Blob.part_eq_of_placed (b := h.content.blob (-1) 0) hfilled.tagReloc⟩

end Emit

namespace CompiledMethod

variable {host : Host} {nm : CompiledMethod} {emitted : EmittedBlob}
  {space space' : MetaSpace}

theorem exists_streams (hemit : nm.emit host space = .ok emitted space') :
    ∃ tagMeta tagOop tagReloc, emitted.HasStreams nm tagMeta tagOop tagReloc ∧
      tagMeta.length + tagOop.length + tagReloc.length =
        8 * (nm.recordCount + 3) + nm.payload host := by
  rcases ((nm.emit_weighed host).ok_and_post trivial hemit).2 with
    ⟨metas, oops, sites, h⟩
  exact ⟨_, _, _, h.hasStreams, h.length_streams⟩

theorem assembled_tags_within_estimate {builder : Host} {m : MethodId}
    {program : List Assembler.Step}
    (hassemble : Assembler.assemble builder m program = .ok nm)
    (hlt : nm.oops.length < 2 ^ 32)
    (hemit : nm.emit host space = .ok emitted space') :
    ∃ tagMeta tagOop tagReloc, emitted.HasStreams nm tagMeta tagOop tagReloc ∧
      tagMeta.length + tagOop.length + tagReloc.length ≤ nm.estimateTagSize := by
  have honce := Assembler.assemble_usesOnce hassemble hlt
  have hfit : nm.payload host ≤ nm.room := payload_le_room (honce.nodup.filter _)
  rcases exists_streams hemit with ⟨tagMeta, tagOop, tagReloc, hstreams, hlength⟩
  refine ⟨tagMeta, tagOop, tagReloc, hstreams, ?_⟩
  rw [hlength, nm.estimateTagSize_eq]
  exact Nat.add_le_add_left hfit _

/-- The tag streams stay below the estimate exactly if the payloads of their
records fit into its room, and always if no string is used by two immediate
sites. -/
theorem tags_within_estimate_iff (hemit : nm.emit host space = .ok emitted space') :
    ∃ tagMeta tagOop tagReloc, emitted.HasStreams nm tagMeta tagOop tagReloc ∧
      (tagMeta.length + tagOop.length + tagReloc.length ≤ nm.estimateTagSize ↔
        nm.payload host ≤ nm.room) ∧
      (nm.textSites.Nodup →
        tagMeta.length + tagOop.length + tagReloc.length ≤ nm.estimateTagSize) := by
  rcases exists_streams hemit with ⟨tagMeta, tagOop, tagReloc, hstreams, hlength⟩
  refine ⟨tagMeta, tagOop, tagReloc, hstreams, ?_⟩
  rw [hlength, nm.estimateTagSize_eq, Nat.add_le_add_iff_left]
  exact ⟨Iff.rfl, payload_le_room⟩

def repeating (s : String) : CompiledMethod :=
  { method := ⟨0⟩, base := 0x1000, code := Bytes.zeros 16,
    relocations := [⟨0, .oop 1 true⟩, ⟨8, .oop 1 true⟩],
    oops := [some (.text s)] }

theorem tags_within_estimate_of_short_string :
    ∃ emitted space tagMeta tagOop tagReloc,
      (repeating "short").emit World.Sample.saved.host {} = .ok emitted space ∧
      ¬ (repeating "short").textSites.Nodup ∧
      emitted.HasStreams (repeating "short") tagMeta tagOop tagReloc ∧
      tagMeta.length + tagOop.length + tagReloc.length ≤
        (repeating "short").estimateTagSize := by
  have hdone : okWith (fun _ => true)
      ((repeating "short").emit World.Sample.saved.host {}) = true := by
    decide +kernel
  rcases of_okWith hdone with ⟨emitted, space, hemit, -⟩
  rcases tags_within_estimate_iff hemit with
    ⟨tagMeta, tagOop, tagReloc, hstreams, hfit, -⟩
  refine ⟨emitted, space, tagMeta, tagOop, tagReloc, hemit, by decide +kernel,
    hstreams, hfit.mpr ?_⟩
  decide +kernel

def longMessage : String :=
  "Cannot convert the value of the field: it is outside of its type"

theorem tags_outgrow_estimate :
    ∃ emitted space b,
      (repeating longMessage).emit World.Sample.saved.host {} = .ok emitted space ∧
      Blob.parse emitted.bytes 0 = .ok b ∧
      (repeating longMessage).estimateTagSize = 224 ∧
      b.tagMeta.length + b.tagOop.length + b.tagReloc.length = 240 := by
  have hdone : okWith (fun emitted => valueWith (fun b =>
      b.tagMeta.length + b.tagOop.length + b.tagReloc.length == 240)
        (Blob.parse emitted.bytes 0))
      ((repeating longMessage).emit World.Sample.saved.host {}) = true := by
    decide +kernel
  rcases of_okWith hdone with ⟨emitted, space, hemit, hparsed⟩
  rcases of_valueWith hparsed with ⟨b, hparse, hlength⟩
  exact ⟨emitted, space, b, hemit, hparse, by decide +kernel, beq_iff_eq.mp hlength⟩

end CompiledMethod

end CodeCache
