import CodeCache.Proofs.Blob.Payloads
import CodeCache.Proofs.Blob.RoundTrip

/-!
# Emitted blobs are read back

A blob that was emitted is accepted where it starts, and each of its sections
gives back the part of the method that went into it. Nothing is asked of the host
or the metaspace: only the length of the blob matters, which its header counts in
32 bits.
-/

namespace CodeCache

theorem CompiledMethod.emit_ensures (host : Host) (nm : CompiledMethod) :
    Ensures (fun _ => True) (nm.emit host) (fun blob =>
      ∃ content : Emit.Content, content.Sound ∧ content.method = nm ∧
        content.index = blob.methodIndex ∧ blob.bytes = content.bytes (-1)) := by
  refine (nm.emit_weighed host).mono ?_
  rintro blob ⟨metas, oops, sites, h⟩
  exact ⟨h.content, h.sound, rfl, rfl, h.bytes_eq⟩

/-!
## Reading the sections
-/

namespace Blob

/-- The blob is what the emitted bytes hold, and all sections give the parts of
the method. -/
structure Returns (b : Blob) (emitted : EmittedBlob) (nm : CompiledMethod) : Prop where
  bytes_eq : b.bytes = emitted.bytes
  size_eq : b.header.size.toNat = emitted.bytes.length
  no_next : b.header.next? = none
  methodIndex_eq : b.header.methodIndex = emitted.methodIndex
  code_eq : b.code = nm.code
  entry_eq : b.header.entry = nm.entry
  verifiedEntry_eq : b.header.verifiedEntry = nm.verifiedEntry
  relocations_eq : b.relocations = .ok nm.relocations
  dependencies_eq : b.dependencies = .ok nm.dependencies
  speculations_eq : b.speculations = .ok nm.speculations
  stackMaps_eq : b.stackMaps = .ok nm.stackMaps
  metaCount_eq : b.header.metaCount.toNat = nm.metadata.length
  oopCount_eq : b.header.oopCount.toNat = nm.oops.length
  metas_counted : ∃ records, TagStream.decode b.tagMeta = .ok records ∧
    records.length = b.header.metaCount.toNat
  oops_counted : ∃ records, TagStream.decode b.tagOop = .ok records ∧
    records.length = b.header.oopCount.toNat

end Blob

namespace CompiledMethod

variable {host : Host} {nm : CompiledMethod} {emitted : EmittedBlob}
  {space space' : MetaSpace}

/-- Every blob that is emitted and takes less than 4 GiB is accepted, and all its
sections give back what the method holds. -/
theorem parse_of_emit (hemit : nm.emit host space = .ok emitted space')
    (hsize : emitted.bytes.length < 2 ^ 32) :
    ∃ b, Blob.parse emitted.bytes 0 = .ok b ∧ b.Returns emitted nm := by
  rcases ((nm.emit_ensures host).ok_and_post trivial hemit).2 with
    ⟨content, hsound, hmethod, hindex, hbytes⟩
  have hlength : content.size = emitted.bytes.length := by
    rw [hbytes, content.length_bytes]
  rw [← hlength] at hsize
  have hpart : emitted.bytes.HasPart (0 : UInt32).toNat (content.bytes (-1)) := by
    refine ⟨[], [], ?_, rfl⟩
    rw [List.nil_append, List.append_nil, hbytes]
  have hstores := hsound.stores hsize (-1) 0
  rw [hmethod] at hstores
  refine ⟨content.blob (-1) 0, content.parse_eq hsize hpart rfl, ?_⟩
  exact
    { bytes_eq := hbytes.symm
      size_eq := by
        rw [hbytes]
        exact (content.filled hsize (-1)).size_eq
      no_next := rfl
      methodIndex_eq := hindex
      code_eq := hstores.code_eq
      entry_eq := hstores.entry_eq
      verifiedEntry_eq := hstores.verifiedEntry_eq
      relocations_eq := hstores.relocations_eq
      dependencies_eq := hstores.dependencies_eq
      speculations_eq := hstores.speculations_eq
      stackMaps_eq := hstores.stackMaps_eq
      metaCount_eq := hstores.metaCount_eq
      oopCount_eq := hstores.oopCount_eq
      metas_counted := by
        refine ⟨content.metas, hstores.metas_held.decode, ?_⟩
        rw [hsound.metas_length, hmethod, hstores.metaCount_eq]
      oops_counted := by
        refine ⟨content.oops, hstores.oops_held.decode, ?_⟩
        rw [hsound.oops_length, hmethod, hstores.oopCount_eq] }

theorem parse_of_emit_program :
    ∃ nm emitted space b,
      Assembler.assemble World.Sample.saved.host ⟨0⟩ World.Sample.program = .ok nm ∧
      nm.emit World.Sample.saved.host {} = .ok emitted space ∧
      emitted.bytes.length < 2 ^ 32 ∧
      Blob.parse emitted.bytes 0 = .ok b ∧ b.Returns emitted nm := by
  rcases World.Sample.program_emits with ⟨nm, emitted, space, hassemble, hemit, hsize, -, -⟩
  rcases parse_of_emit hemit hsize with ⟨b, hparse, hreturns⟩
  exact ⟨nm, emitted, space, b, hassemble, hemit, hsize, hparse, hreturns⟩

end CompiledMethod

end CodeCache
