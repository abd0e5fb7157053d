import CodeCache.Code.Assembler
import CodeCache.Proofs.Blob.Emitting
import CodeCache.Proofs.Host.Counterparts

/-!
# Programs of assembler steps

The same program is assembled in two processes. Both methods have the same
layout, their arrays correspond, and their code differs at patch sites only,
where each holds what its own process reports.
-/

namespace CodeCache

namespace Assembler

inductive Step where
  | bytes (bs : Bytes)
  | nops (count : Nat)
  | setEntries (entry verifiedEntry : UInt32)
  | oop (object : Object) (immediate : Bool)
  | metadata (entity : Entity) (immediate : Bool)
  | externalWord (kind : GlobalKind) (offset : UInt32)
  | runtimeCall (kind : GlobalKind)
  | poll (usesPage : Bool)
  | pollReturn (usesPage : Bool)
  | virtualCall
  | optVirtualCall
  | staticCall
  | staticStub
  | internalWord (target : UInt32)
  | sectionWord (target : UInt32)
  | stackMap (valueCount : UInt32) (data : Bytes)
  | dependency (kind : DependencyKind) (entities : List Entity)
  | speculation (r : Speculation)
  | addOop (object : Option Object)
  | addMetadata (entity : Option Entity)

namespace Step

def run (host : Host) (nm : CompiledMethod) :
    Step → Except Error CompiledMethod
  | bytes bs => .ok (Assembler.bytes nm bs)
  | nops count => .ok (Assembler.nops nm count)
  | setEntries entry verifiedEntry =>
    .ok (Assembler.setEntries nm entry verifiedEntry)
  | oop object immediate => .ok (Assembler.oop nm host object immediate)
  | metadata entity immediate =>
    .ok (Assembler.metadata nm host entity immediate)
  | externalWord kind offset => Assembler.externalWord nm host kind offset
  | runtimeCall kind => Assembler.runtimeCall nm host kind
  | poll usesPage => Assembler.poll nm host usesPage
  | pollReturn usesPage => Assembler.pollReturn nm host usesPage
  | virtualCall => Assembler.virtualCall nm host
  | optVirtualCall => Assembler.optVirtualCall nm host
  | staticCall => Assembler.staticCall nm host
  | staticStub => .ok (Assembler.staticStub nm)
  | internalWord target => .ok (Assembler.internalWord nm target)
  | sectionWord target => .ok (Assembler.sectionWord nm target)
  | stackMap valueCount data => .ok (Assembler.stackMap nm valueCount data)
  | dependency kind entities => .ok (Assembler.dependency nm kind entities)
  | speculation r => .ok (Assembler.speculation nm r)
  | addOop object => .ok (Assembler.addOop nm object).1
  | addMetadata entity => .ok (Assembler.addMetadata nm entity).1

def rename (r : Renaming) : Step → Step
  | oop object immediate => oop (r.object object) immediate
  | metadata entity immediate => metadata (r.entity entity) immediate
  | dependency kind entities => dependency kind (entities.map r.entity)
  | addOop object => addOop (object.map r.object)
  | addMetadata entity => addMetadata (entity.map r.entity)
  | step => step

end Step

def assemble (host : Host) (m : MethodId) (program : List Step) :
    Except Error CompiledMethod :=
  program.foldlM (Step.run host) (start host m)

/-!
## What no step takes away
-/

structure Extends (nm nm' : CompiledMethod) : Prop where
  method_eq : nm'.method = nm.method
  base_eq : nm'.base = nm.base
  oops : nm.oops <+: nm'.oops
  metadata : nm.metadata <+: nm'.metadata

namespace Extends

theorem refl (nm : CompiledMethod) : Extends nm nm :=
  ⟨rfl, rfl, List.prefix_refl _, List.prefix_refl _⟩

theorem trans {nm₁ nm₂ nm₃ : CompiledMethod} (h : Extends nm₁ nm₂)
    (h' : Extends nm₂ nm₃) :
    Extends nm₁ nm₃ where
  method_eq := h'.method_eq.trans h.method_eq
  base_eq := h'.base_eq.trans h.base_eq
  oops := h.oops.trans h'.oops
  metadata := h.metadata.trans h'.metadata

theorem of_addOop (nm : CompiledMethod) (object : Option Object) :
    Extends nm (addOop nm object).1 :=
  ⟨rfl, rfl, List.prefix_append _ _, List.prefix_refl _⟩

theorem of_addMetadata (nm : CompiledMethod) (entity : Option Entity) :
    Extends nm (addMetadata nm entity).1 := by
  unfold addMetadata
  cases nm.metadata.idxOf? entity with
  | some i => exact refl nm
  | none => exact ⟨rfl, rfl, List.prefix_refl _, List.prefix_append _ _⟩

theorem of_addEntities (nm : CompiledMethod) (entities : List Entity) :
    Extends nm (addEntities nm entities).1 := by
  induction entities generalizing nm with
  | nil => exact refl nm
  | cons entity entities ih =>
      exact (of_addMetadata nm (some entity)).trans (ih _)

theorem slot {nm nm' : CompiledMethod} (h : Extends nm nm') (value : UInt64) :
    Extends nm (Assembler.slot nm' value) :=
  ⟨h.method_eq, h.base_eq, h.oops, h.metadata⟩

theorem site {nm nm' : CompiledMethod} (h : Extends nm nm') (value : UInt64)
    (kind : RelocKind) :
    Extends nm (Assembler.site nm' value kind) :=
  ⟨h.method_eq, h.base_eq, h.oops, h.metadata⟩

end Extends

theorem Step.run_extends {host : Host} {nm nm' : CompiledMethod} {step : Step}
    (h : step.run host nm = .ok nm') :
    Extends nm nm' := by
  have hrefl := Extends.refl nm
  have hglobal : ∀ {value : Except Error UInt64} {kind : RelocKind},
      (value >>= fun v => pure (site nm v kind)) = .ok nm' →
      Extends nm nm' := by
    intro value kind hrun
    cases value with
    | error e => cases hrun
    | ok v =>
        cases hrun
        exact hrefl.site v kind
  cases step with
  | oop object immediate =>
      cases h
      exact (Extends.of_addOop nm (some object)).site _ _
  | metadata entity immediate =>
      cases h
      exact (Extends.of_addMetadata nm (some entity)).site _ _
  | dependency kind entities =>
      cases h
      have hentities := Extends.of_addEntities nm entities
      exact ⟨hentities.method_eq, hentities.base_eq, hentities.oops,
        hentities.metadata⟩
  | addOop object =>
      cases h
      exact Extends.of_addOop nm object
  | addMetadata entity =>
      cases h
      exact Extends.of_addMetadata nm entity
  | externalWord kind offset => exact hglobal h
  | runtimeCall kind => exact hglobal h
  | poll usesPage => exact hglobal h
  | pollReturn usesPage => exact hglobal h
  | optVirtualCall => exact hglobal h
  | staticCall => exact hglobal h
  | virtualCall =>
      change (host.globals.addressOf .resolveVirtualCall 0 >>= fun v =>
        pure (site (slot nm nonOopWord) v (.virtualCall (offset nm)))) = _ at h
      cases hvalue : host.globals.addressOf .resolveVirtualCall 0 with
      | error e =>
          rw [hvalue] at h
          cases h
      | ok v =>
          rw [hvalue] at h
          cases h
          exact (hrefl.slot nonOopWord).site v _
  | _ =>
      cases h
      exact ⟨rfl, rfl, List.prefix_refl _, List.prefix_refl _⟩

theorem assemble_extends {host : Host} {m : MethodId} {program : List Step}
    {nm : CompiledMethod} (h : assemble host m program = .ok nm) :
    Extends (start host m) nm := by
  refine of_foldlM_eq_ok ?_ (Extends.refl _) h
  intro before step _ after hbefore hstep
  exact hbefore.trans (Step.run_extends hstep)

end Assembler

end CodeCache
