import CodeCache.Proofs.Code.Program
import Mathlib.Data.List.Induction

/-!
# One program in two processes

While the same program is assembled in two processes, the two methods stay
twins: their arrays correspond, and their code is made of the same pieces, which
differ in the slots of patch sites only.
-/

namespace CodeCache

namespace Assembler

/-!
## Pieces of code
-/

/-- The values that the slot of a patch site of this kind holds in a process and
in another one, whose code starts at `base`. -/
inductive SlotPair (saved live : Host) (r : Renaming) (nm : CompiledMethod)
    (base : UInt64) : RelocKind → UInt64 → UInt64 → Prop where
  | oop {index : UInt32} {object : Object} {immediate : Bool}
      (h : Emit.IsEntry nm.oops index (some object)) :
      SlotPair saved live r nm base (.oop index immediate)
        (saved.objectAddress object) (live.objectAddress (r.object object))
  | metadata {index : UInt32} {entity : Entity} {immediate : Bool}
      (h : Emit.IsEntry nm.metadata index (some entity)) :
      SlotPair saved live r nm base (.metadata index immediate)
        (saved.metadataAddress entity) (live.metadataAddress (r.entity entity))
  | global {kind : RelocKind} {g : GlobalKind} {n : UInt32} {v v' : UInt64}
      (hkind : kind = .externalWord ∨ kind = .runtimeCall)
      (hsaved : saved.globals.addressOf g n = .ok v)
      (hlive : live.globals.addressOf g n = .ok v') :
      SlotPair saved live r nm base kind v v'
  | poll {kind : RelocKind} {usesPage : Bool} {v v' : UInt64}
      (hkind : kind = .poll usesPage ∨ kind = .pollReturn usesPage)
      (hsaved : pollValue saved usesPage = .ok v)
      (hlive : pollValue live usesPage = .ok v') :
      SlotPair saved live r nm base kind v v'
  | optVirtualCall {v v' : UInt64}
      (h : live.globals.addressOf .resolveOptVirtualCall 0 = .ok v') :
      SlotPair saved live r nm base .optVirtualCall v v'
  | staticCall {v v' : UInt64}
      (h : live.globals.addressOf .resolveStaticCall 0 = .ok v') :
      SlotPair saved live r nm base .staticCall v v'
  | internal {kind : RelocKind} (target : UInt32)
      (hkind : kind = .internalWord ∨ kind = .sectionWord) :
      SlotPair saved live r nm base kind (nm.base + target.toUInt64)
        (base + target.toUInt64)

inductive Piece (saved live : Host) (r : Renaming) (nm : CompiledMethod)
    (base : UInt64) (at' : Nat) : Bytes → Bytes → List Relocation → Prop where
  | plain (bs : Bytes) : Piece saved live r nm base at' bs bs []
  | slot {kind : RelocKind} {v v' : UInt64}
      (h : SlotPair saved live r nm base kind v v') :
      Piece saved live r nm base at' (Bytes.ofUInt64 v) (Bytes.ofUInt64 v')
        [⟨UInt32.ofNat at', kind⟩]
  | virtualCall {v v' : UInt64}
      (h : live.globals.addressOf .resolveVirtualCall 0 = .ok v') :
      Piece saved live r nm base at'
        (Bytes.ofUInt64 nonOopWord ++ Bytes.ofUInt64 v)
        (Bytes.ofUInt64 nonOopWord ++ Bytes.ofUInt64 v')
        [⟨UInt32.ofNat (at' + 8), .virtualCall (UInt32.ofNat at')⟩]
  | staticStub :
      Piece saved live r nm base at'
        (Bytes.ofUInt64 0 ++
          Bytes.ofUInt64 (nm.base + (UInt32.ofNat at').toUInt64 + 8))
        (Bytes.ofUInt64 0 ++
          Bytes.ofUInt64 (base + (UInt32.ofNat at').toUInt64 + 8))
        [⟨UInt32.ofNat at',
          .staticStub (UInt32.ofNat at') (UInt32.ofNat (at' + 8))⟩]

inductive Pieces (saved live : Host) (r : Renaming) (nm : CompiledMethod)
    (base : UInt64) : Bytes → Bytes → List Relocation → Prop where
  | nil : Pieces saved live r nm base [] [] []
  | snoc {code code' part part' : Bytes} {relocs more : List Relocation}
      (h : Pieces saved live r nm base code code' relocs)
      (hpart : Piece saved live r nm base code.length part part' more) :
      Pieces saved live r nm base (code ++ part) (code' ++ part')
        (relocs ++ more)

variable {saved live : Host} {r : Renaming} {nm nm' : CompiledMethod}
  {base : UInt64}

theorem isEntry_mono {α : Type} {entries more : List α} {index : UInt32} {a : α}
    (h : Emit.IsEntry entries index a) (hmore : entries <+: more) :
    Emit.IsEntry more index a := by
  rcases hmore with ⟨rest, rfl⟩
  refine ⟨h.1, ?_⟩
  rw [List.getElem?_append_left (List.getElem?_eq_some_iff.mp h.2).1]
  exact h.2

theorem SlotPair.mono {kind : RelocKind} {v v' : UInt64}
    (h : SlotPair saved live r nm base kind v v') (hmore : Extends nm nm') :
    SlotPair saved live r nm' base kind v v' := by
  cases h with
  | oop h => exact .oop (isEntry_mono h hmore.oops)
  | metadata h => exact .metadata (isEntry_mono h hmore.metadata)
  | global hkind hsaved hlive => exact .global hkind hsaved hlive
  | poll hkind hsaved hlive => exact .poll hkind hsaved hlive
  | optVirtualCall h => exact .optVirtualCall h
  | staticCall h => exact .staticCall h
  | internal target hkind =>
      rw [← hmore.base_eq]
      exact .internal target hkind

theorem Piece.mono {at' : Nat} {part part' : Bytes} {relocs : List Relocation}
    (h : Piece saved live r nm base at' part part' relocs)
    (hmore : Extends nm nm') :
    Piece saved live r nm' base at' part part' relocs := by
  cases h with
  | plain bs => exact .plain _
  | slot h => exact .slot (h.mono hmore)
  | virtualCall h => exact .virtualCall h
  | staticStub =>
      rw [← hmore.base_eq]
      exact .staticStub

theorem Pieces.mono {code code' : Bytes} {relocs : List Relocation}
    (h : Pieces saved live r nm base code code' relocs)
    (hmore : Extends nm nm') :
    Pieces saved live r nm' base code code' relocs := by
  induction h with
  | nil => exact .nil
  | snoc _ hpart ih => exact .snoc ih (hpart.mono hmore)

theorem Piece.length_eq {at' : Nat} {part part' : Bytes}
    {relocs : List Relocation}
    (h : Piece saved live r nm base at' part part' relocs) :
    part'.length = part.length := by
  cases h with
  | plain bs => rfl
  | _ => simp only [List.length_append, Bytes.length_ofUInt64]

theorem Pieces.length_eq {code code' : Bytes} {relocs : List Relocation}
    (h : Pieces saved live r nm base code code' relocs) :
    code'.length = code.length := by
  induction h with
  | nil => rfl
  | snoc _ hpart ih =>
      rw [List.length_append, List.length_append, ih, hpart.length_eq]

/-!
## Twins
-/

/-- The methods that one program gives in two processes. -/
structure Twins (saved live : Host) (r : Renaming) (nm twin : CompiledMethod) :
    Prop where
  method_eq : twin.method = r.method nm.method
  entry_eq : twin.entry = nm.entry
  verifiedEntry_eq : twin.verifiedEntry = nm.verifiedEntry
  relocations_eq : twin.relocations = nm.relocations
  oops_eq : twin.oops = nm.oops.map (·.map r.object)
  metadata_eq : twin.metadata = nm.metadata.map (·.map r.entity)
  stackMaps_eq : twin.stackMaps = nm.stackMaps
  dependencies_eq : twin.dependencies = nm.dependencies
  speculations_eq : twin.speculations = nm.speculations
  level_eq : twin.level = optimizingLevel
  isOsr_eq : twin.isOsr = false
  hasCallSiteTarget_eq : twin.hasCallSiteTarget = false
  pieces : Pieces saved live r nm twin.base nm.code twin.code nm.relocations

namespace Twins

variable {twin : CompiledMethod}

theorem of_start (saved live : Host) (r : Renaming) (m : MethodId) :
    Twins saved live r (start saved m) (start live (r.method m)) where
  method_eq := rfl
  entry_eq := rfl
  verifiedEntry_eq := rfl
  relocations_eq := rfl
  oops_eq := rfl
  metadata_eq := rfl
  stackMaps_eq := rfl
  dependencies_eq := rfl
  speculations_eq := rfl
  level_eq := rfl
  isOsr_eq := rfl
  hasCallSiteTarget_eq := rfl
  pieces := .nil

theorem eq_twin (h : Twins saved live r nm twin) :
    { method := r.method nm.method
      code := twin.code
      base := twin.base
      entry := nm.entry
      verifiedEntry := nm.verifiedEntry
      relocations := nm.relocations
      oops := nm.oops.map (·.map r.object)
      metadata := nm.metadata.map (·.map r.entity)
      stackMaps := nm.stackMaps
      dependencies := nm.dependencies
      speculations := nm.speculations } = twin := by
  have hosr := h.isOsr_eq
  have htarget := h.hasCallSiteTarget_eq
  rw [← h.method_eq, ← h.entry_eq, ← h.verifiedEntry_eq, ← h.relocations_eq,
    ← h.oops_eq, ← h.metadata_eq, ← h.stackMaps_eq, ← h.dependencies_eq,
    ← h.speculations_eq, ← h.level_eq]
  cases twin
  cases hosr
  cases htarget
  rfl

theorem append (h : Twins saved live r nm twin) {part part' : Bytes}
    {relocs : List Relocation}
    (hpart : Piece saved live r nm twin.base nm.code.length part part' relocs) :
    Twins saved live r
      { nm with code := nm.code ++ part, relocations := nm.relocations ++ relocs }
      { twin with
        code := twin.code ++ part'
        relocations := twin.relocations ++ relocs } where
  method_eq := h.method_eq
  entry_eq := h.entry_eq
  verifiedEntry_eq := h.verifiedEntry_eq
  relocations_eq := by rw [h.relocations_eq]
  oops_eq := h.oops_eq
  metadata_eq := h.metadata_eq
  stackMaps_eq := h.stackMaps_eq
  dependencies_eq := h.dependencies_eq
  speculations_eq := h.speculations_eq
  level_eq := h.level_eq
  isOsr_eq := h.isOsr_eq
  hasCallSiteTarget_eq := h.hasCallSiteTarget_eq
  pieces := .snoc (h.pieces.mono ⟨rfl, rfl, List.prefix_refl _,
    List.prefix_refl _⟩) (hpart.mono ⟨rfl, rfl, List.prefix_refl _,
    List.prefix_refl _⟩)

theorem offset_eq (h : Twins saved live r nm twin) : offset twin = offset nm := by
  unfold offset
  rw [h.pieces.length_eq]

theorem site (h : Twins saved live r nm twin) {kind : RelocKind} {v v' : UInt64}
    (hpair : SlotPair saved live r nm twin.base kind v v') :
    Twins saved live r (Assembler.site nm v kind)
      (Assembler.site twin v' kind) := by
  unfold Assembler.site Assembler.relocation Assembler.slot Assembler.bytes
  rw [h.offset_eq]
  exact h.append (.slot hpair)

theorem addOop (h : Twins saved live r nm twin) (object : Option Object) :
    Twins saved live r (Assembler.addOop nm object).1
      (Assembler.addOop twin (object.map r.object)).1 where
  method_eq := h.method_eq
  entry_eq := h.entry_eq
  verifiedEntry_eq := h.verifiedEntry_eq
  relocations_eq := h.relocations_eq
  oops_eq := by
    show twin.oops ++ [_] = (nm.oops ++ [_]).map _
    rw [h.oops_eq, List.map_append]
    rfl
  metadata_eq := h.metadata_eq
  stackMaps_eq := h.stackMaps_eq
  dependencies_eq := h.dependencies_eq
  speculations_eq := h.speculations_eq
  level_eq := h.level_eq
  isOsr_eq := h.isOsr_eq
  hasCallSiteTarget_eq := h.hasCallSiteTarget_eq
  pieces := h.pieces.mono (Extends.of_addOop nm object)

theorem appendMetadata (h : Twins saved live r nm twin)
    (entity : Option Entity) :
    Twins saved live r { nm with metadata := nm.metadata ++ [entity] }
      { twin with metadata := twin.metadata ++ [entity.map r.entity] } where
  method_eq := h.method_eq
  entry_eq := h.entry_eq
  verifiedEntry_eq := h.verifiedEntry_eq
  relocations_eq := h.relocations_eq
  oops_eq := h.oops_eq
  metadata_eq := by
    show twin.metadata ++ [_] = (nm.metadata ++ [_]).map _
    rw [h.metadata_eq, List.map_append]
    rfl
  stackMaps_eq := h.stackMaps_eq
  dependencies_eq := h.dependencies_eq
  speculations_eq := h.speculations_eq
  level_eq := h.level_eq
  isOsr_eq := h.isOsr_eq
  hasCallSiteTarget_eq := h.hasCallSiteTarget_eq
  pieces := h.pieces.mono ⟨rfl, rfl, List.prefix_refl _, List.prefix_append _ _⟩

end Twins

/-!
## Entries of the arrays
-/

/-- A method that can be emitted, as far as its arrays go: everything in them has
a key, and their indices do not wrap around. -/
structure Emittable (host : Host) (nm : CompiledMethod) : Prop where
  named : ∀ e, some e ∈ nm.metadata → host.CanName e
  oops_lt : nm.oops.length < 2 ^ 32
  metadata_lt : nm.metadata.length < 2 ^ 32

theorem Emittable.of_extends {host : Host} (h : Emittable host nm')
    (hmore : Extends nm nm') :
    Emittable host nm where
  named := by
    intro e he
    exact h.named e (hmore.metadata.subset he)
  oops_lt := Nat.lt_of_le_of_lt hmore.oops.length_le h.oops_lt
  metadata_lt := Nat.lt_of_le_of_lt hmore.metadata.length_le h.metadata_lt

theorem isEntry_of_getElem? {α : Type} {entries : List α} {i : Nat} {a : α}
    (h : entries[i]? = some a) (hlt : i + 1 < 2 ^ 32) :
    Emit.IsEntry entries (UInt32.ofNat (i + 1)) a := by
  have hindex : (UInt32.ofNat (i + 1)).toNat = i + 1 :=
    UInt32.toNat_ofNat_of_lt' hlt
  constructor
  · intro hzero
    rw [hzero] at hindex
    cases hindex
  · rw [hindex]
    exact h

theorem isEntry_addOop (nm : CompiledMethod) (object : Option Object)
    (hlt : (addOop nm object).1.oops.length < 2 ^ 32) :
    Emit.IsEntry (addOop nm object).1.oops (addOop nm object).2 object := by
  have hlength : nm.oops.length + 1 < 2 ^ 32 := by
    change (nm.oops ++ [object]).length < 2 ^ 32 at hlt
    rwa [List.length_append] at hlt
  exact isEntry_of_getElem? List.getElem?_concat_length hlength

theorem getElem?_of_idxOf? {α : Type} [BEq α] [LawfulBEq α] {as : List α}
    {a : α} {i : Nat} (h : as.idxOf? a = some i) :
    as[i]? = some a := by
  rcases List.findIdx?_eq_some_iff_getElem.mp h with ⟨hlt, heq, _⟩
  rw [List.getElem?_eq_getElem hlt]
  exact congrArg some (beq_iff_eq.mp heq)

theorem isEntry_addMetadata (nm : CompiledMethod) (entity : Option Entity)
    (hlt : (addMetadata nm entity).1.metadata.length < 2 ^ 32) :
    Emit.IsEntry (addMetadata nm entity).1.metadata
      (addMetadata nm entity).2 entity := by
  unfold addMetadata at hlt ⊢
  cases hfound : nm.metadata.idxOf? entity with
  | some i =>
      rw [hfound] at hlt
      have hi := getElem?_of_idxOf? hfound
      have hbound := (List.getElem?_eq_some_iff.mp hi).1
      exact isEntry_of_getElem? hi (Nat.lt_of_le_of_lt hbound hlt)
  | none =>
      rw [hfound] at hlt
      change (nm.metadata ++ [entity]).length < 2 ^ 32 at hlt
      rw [List.length_append] at hlt
      exact isEntry_of_getElem? List.getElem?_concat_length hlt

theorem idxOf?_map {α β : Type} [BEq α] [LawfulBEq α] [BEq β] [LawfulBEq β]
    {f : α → β} {as : List α} {a : α} (h : ∀ b ∈ as, f b = f a → b = a) :
    (as.map f).idxOf? (f a) = as.idxOf? a := by
  induction as with
  | nil => rfl
  | cons b as ih =>
      have hrest := ih fun c hc => h c (List.mem_cons_of_mem b hc)
      have hhead : (f b == f a) = (b == a) := by
        rw [Bool.eq_iff_iff, beq_iff_eq, beq_iff_eq]
        exact ⟨h b List.mem_cons_self, congrArg f⟩
      rw [List.map_cons, List.idxOf?_cons, List.idxOf?_cons, hhead, hrest]

namespace Twins

variable {twin : CompiledMethod} (hhosts : saved.Counterparts live r)
include hhosts

theorem addMetadata (h : Twins saved live r nm twin) {entity : Option Entity}
    (hout : Emittable saved (Assembler.addMetadata nm entity).1) :
    Twins saved live r (Assembler.addMetadata nm entity).1
        (Assembler.addMetadata twin (entity.map r.entity)).1 ∧
      (Assembler.addMetadata twin (entity.map r.entity)).2 =
        (Assembler.addMetadata nm entity).2 := by
  have hentity : entity ∈ (Assembler.addMetadata nm entity).1.metadata :=
    List.mem_of_getElem? (isEntry_addMetadata nm entity hout.metadata_lt).2
  have hmore := Extends.of_addMetadata nm entity
  have hinjective : ∀ other ∈ nm.metadata,
      other.map r.entity = entity.map r.entity → other = entity := by
    intro other hother heq
    cases other with
    | none =>
        cases entity with
        | none => rfl
        | some e => cases heq
    | some e₁ =>
        cases entity with
        | none => cases heq
        | some e₂ =>
            have h₁ := hout.named e₁ (hmore.metadata.subset hother)
            have h₂ := hout.named e₂ hentity
            rw [hhosts.injective e₁ e₂ h₁ h₂ (Option.some.inj heq)]
  have hfound : twin.metadata.idxOf? (entity.map r.entity) =
      nm.metadata.idxOf? entity := by
    rw [h.metadata_eq]
    exact idxOf?_map hinjective
  have hlength : twin.metadata.length = nm.metadata.length := by
    rw [h.metadata_eq, List.length_map]
  unfold Assembler.addMetadata
  rw [hfound, hlength]
  cases nm.metadata.idxOf? entity with
  | some i => exact ⟨h, rfl⟩
  | none => exact ⟨h.appendMetadata entity, rfl⟩

theorem addEntities (h : Twins saved live r nm twin) {entities : List Entity}
    (hout : Emittable saved (Assembler.addEntities nm entities).1) :
    Twins saved live r (Assembler.addEntities nm entities).1
        (Assembler.addEntities twin (entities.map r.entity)).1 ∧
      (Assembler.addEntities twin (entities.map r.entity)).2 =
        (Assembler.addEntities nm entities).2 := by
  induction entities generalizing nm twin with
  | nil => exact ⟨h, rfl⟩
  | cons entity entities ih =>
      have hmore := Extends.of_addEntities
        (Assembler.addMetadata nm (some entity)).1 entities
      rcases h.addMetadata hhosts (hout.of_extends hmore) with ⟨htwins, hindex⟩
      rcases ih htwins hout with ⟨hrest, hindices⟩
      exact ⟨hrest, List.cons_eq_cons.mpr ⟨hindex, hindices⟩⟩

end Twins

/-!
## Steps
-/

namespace Twins

variable {twin : CompiledMethod}

theorem bytes (h : Twins saved live r nm twin) (bs : Bytes) :
    Twins saved live r (Assembler.bytes nm bs) (Assembler.bytes twin bs) := by
  have happend := h.append (.plain bs)
  rw [List.append_nil, List.append_nil] at happend
  exact happend

theorem setEntries (h : Twins saved live r nm twin)
    (entry verifiedEntry : UInt32) :
    Twins saved live r (Assembler.setEntries nm entry verifiedEntry)
      (Assembler.setEntries twin entry verifiedEntry) :=
  { h with
    entry_eq := rfl
    verifiedEntry_eq := rfl
    pieces := h.pieces.mono ⟨rfl, rfl, List.prefix_refl _, List.prefix_refl _⟩ }

theorem stackMap (h : Twins saved live r nm twin) (valueCount : UInt32)
    (data : Bytes) :
    Twins saved live r (Assembler.stackMap nm valueCount data)
      (Assembler.stackMap twin valueCount data) :=
  { h with
    stackMaps_eq := by
      unfold Assembler.stackMap
      rw [h.offset_eq, h.stackMaps_eq]
    pieces := h.pieces.mono ⟨rfl, rfl, List.prefix_refl _, List.prefix_refl _⟩ }

theorem speculation (h : Twins saved live r nm twin) (s : Speculation) :
    Twins saved live r (Assembler.speculation nm s)
      (Assembler.speculation twin s) :=
  { h with
    speculations_eq := by
      unfold Assembler.speculation
      rw [h.speculations_eq]
    pieces := h.pieces.mono ⟨rfl, rfl, List.prefix_refl _, List.prefix_refl _⟩ }

theorem virtualCall (h : Twins saved live r nm twin) {v v' : UInt64}
    (hlive : live.globals.addressOf .resolveVirtualCall 0 = .ok v') :
    Twins saved live r
      (Assembler.site (slot nm nonOopWord) v (.virtualCall (offset nm)))
      (Assembler.site (slot twin nonOopWord) v' (.virtualCall (offset twin))) := by
  have happend := h.append (.virtualCall (v := v) hlive)
  have hoffset : offset (slot nm nonOopWord) =
      UInt32.ofNat (nm.code.length + 8) := by
    unfold offset slot Assembler.bytes
    rw [List.length_append, Bytes.length_ofUInt64]
  have hoffset' : offset (slot twin nonOopWord) =
      UInt32.ofNat (nm.code.length + 8) := by
    unfold offset slot Assembler.bytes
    rw [List.length_append, Bytes.length_ofUInt64, h.pieces.length_eq]
  unfold Assembler.site
  rw [hoffset, hoffset', h.offset_eq]
  simp only [← List.append_assoc] at happend
  exact happend

theorem staticStub (h : Twins saved live r nm twin) :
    Twins saved live r (Assembler.staticStub nm) (Assembler.staticStub twin) := by
  have happend := h.append .staticStub
  have hoffset : offset (slot nm 0) = UInt32.ofNat (nm.code.length + 8) := by
    unfold offset slot Assembler.bytes
    rw [List.length_append, Bytes.length_ofUInt64]
  have hoffset' : offset (slot twin 0) = UInt32.ofNat (nm.code.length + 8) := by
    unfold offset slot Assembler.bytes
    rw [List.length_append, Bytes.length_ofUInt64, h.pieces.length_eq]
  unfold Assembler.staticStub
  dsimp only
  rw [hoffset, hoffset', h.offset_eq]
  simp only [← List.append_assoc] at happend
  exact happend

theorem oop (h : Twins saved live r nm twin) (object : Object)
    (immediate : Bool)
    (hout : Emittable saved (Assembler.oop nm saved object immediate)) :
    Twins saved live r (Assembler.oop nm saved object immediate)
      (Assembler.oop twin live (r.object object) immediate) := by
  have hindex : (Assembler.addOop twin (some (r.object object))).2 =
      (Assembler.addOop nm (some object)).2 := by
    unfold Assembler.addOop
    rw [h.oops_eq, List.length_map]
  have hentry := isEntry_addOop nm (some object) hout.oops_lt
  unfold Assembler.oop
  dsimp only
  rw [hindex]
  exact (h.addOop (some object)).site (.oop hentry)

theorem metadata (hhosts : saved.Counterparts live r)
    (h : Twins saved live r nm twin) (entity : Entity) (immediate : Bool)
    (hout : Emittable saved (Assembler.metadata nm saved entity immediate)) :
    Twins saved live r (Assembler.metadata nm saved entity immediate)
      (Assembler.metadata twin live (r.entity entity) immediate) := by
  have harrays : Emittable saved (Assembler.addMetadata nm (some entity)).1 :=
    ⟨hout.named, hout.oops_lt, hout.metadata_lt⟩
  have hentry := isEntry_addMetadata nm (some entity) hout.metadata_lt
  rcases h.addMetadata hhosts harrays with ⟨htwins, hindex⟩
  change (Assembler.addMetadata twin (some (r.entity entity))).2 = _ at hindex
  unfold Assembler.metadata
  dsimp only
  rw [hindex]
  exact htwins.site (.metadata hentry)

theorem dependency (hhosts : saved.Counterparts live r)
    (h : Twins saved live r nm twin) (kind : DependencyKind)
    (entities : List Entity)
    (hout : Emittable saved (Assembler.dependency nm kind entities)) :
    Twins saved live r (Assembler.dependency nm kind entities)
      (Assembler.dependency twin kind (entities.map r.entity)) := by
  have harrays : Emittable saved (Assembler.addEntities nm entities).1 :=
    ⟨hout.named, hout.oops_lt, hout.metadata_lt⟩
  rcases h.addEntities hhosts harrays with ⟨htwins, hargs⟩
  exact
    { htwins with
      dependencies_eq := by
        unfold Assembler.dependency
        dsimp only
        rw [htwins.dependencies_eq, hargs]
      pieces := htwins.pieces.mono
        ⟨rfl, rfl, List.prefix_refl _, List.prefix_refl _⟩ }

theorem site_of_value (h : Twins saved live r nm twin)
    {value value' : Except Error UInt64} {kind : RelocKind}
    (hvalue : ∀ v, value = .ok v → ∃ v', value' = .ok v' ∧
      SlotPair saved live r nm twin.base kind v v')
    (hrun : (value >>= fun v => pure (Assembler.site nm v kind)) = .ok nm') :
    ∃ twin', (value' >>= fun v => pure (Assembler.site twin v kind)) = .ok twin' ∧
      Twins saved live r nm' twin' := by
  rcases bind_pure_eq_ok_iff.mp hrun with ⟨v, hv, rfl⟩
  rcases hvalue v hv with ⟨v', rfl, hpair⟩
  exact ⟨_, rfl, h.site hpair⟩

end Twins

theorem exists_pollValue (hhosts : saved.Counterparts live r) {usesPage : Bool}
    {v : UInt64} (hv : pollValue saved usesPage = .ok v) :
    ∃ v', pollValue live usesPage = .ok v' := by
  cases usesPage with
  | false => exact ⟨0, rfl⟩
  | true => exact (hhosts.globals _ _ v hv).2

theorem Step.run_twins (hhosts : saved.Counterparts live r)
    {twin : CompiledMethod} (h : Twins saved live r nm twin) {step : Step}
    (hrun : step.run saved nm = .ok nm') (hout : Emittable saved nm') :
    ∃ twin', (step.rename r).run live twin = .ok twin' ∧
      Twins saved live r nm' twin' := by
  cases step with
  | bytes bs =>
      cases hrun
      exact ⟨_, rfl, h.bytes bs⟩
  | nops count =>
      cases hrun
      exact ⟨_, rfl, h.bytes _⟩
  | setEntries entry verifiedEntry =>
      cases hrun
      exact ⟨_, rfl, h.setEntries entry verifiedEntry⟩
  | oop object immediate =>
      cases hrun
      exact ⟨_, rfl, h.oop object immediate hout⟩
  | metadata entity immediate =>
      cases hrun
      exact ⟨_, rfl, h.metadata hhosts entity immediate hout⟩
  | externalWord kind offset =>
      refine h.site_of_value ?_ hrun
      intro v hv
      rcases (hhosts.globals kind offset v hv).2 with ⟨v', hv'⟩
      exact ⟨v', hv', .global (Or.inl rfl) hv hv'⟩
  | runtimeCall kind =>
      refine h.site_of_value ?_ hrun
      intro v hv
      rcases (hhosts.globals kind 0 v hv).2 with ⟨v', hv'⟩
      exact ⟨v', hv', .global (Or.inr rfl) hv hv'⟩
  | poll usesPage =>
      refine h.site_of_value ?_ hrun
      intro v hv
      rcases exists_pollValue hhosts hv with ⟨v', hv'⟩
      exact ⟨v', hv', .poll (Or.inl rfl) hv hv'⟩
  | pollReturn usesPage =>
      refine h.site_of_value ?_ hrun
      intro v hv
      rcases exists_pollValue hhosts hv with ⟨v', hv'⟩
      exact ⟨v', hv', .poll (Or.inr rfl) hv hv'⟩
  | optVirtualCall =>
      refine h.site_of_value ?_ hrun
      intro v hv
      rcases (hhosts.globals _ 0 v hv).2 with ⟨v', hv'⟩
      exact ⟨v', hv', .optVirtualCall hv'⟩
  | staticCall =>
      refine h.site_of_value ?_ hrun
      intro v hv
      rcases (hhosts.globals _ 0 v hv).2 with ⟨v', hv'⟩
      exact ⟨v', hv', .staticCall hv'⟩
  | virtualCall =>
      change (saved.globals.addressOf .resolveVirtualCall 0 >>= fun v =>
        pure (site (slot nm nonOopWord) v (.virtualCall (offset nm)))) =
          _ at hrun
      cases hv : saved.globals.addressOf .resolveVirtualCall 0 with
      | error e =>
          rw [hv] at hrun
          cases hrun
      | ok v =>
          rw [hv] at hrun
          cases hrun
          rcases (hhosts.globals _ 0 v hv).2 with ⟨v', hv'⟩
          refine ⟨_, ?_, h.virtualCall hv'⟩
          show (live.globals.addressOf .resolveVirtualCall 0 >>= fun v =>
            pure (site (slot twin nonOopWord) v
              (.virtualCall (offset twin)))) = _
          rw [hv']
          rfl
  | staticStub =>
      cases hrun
      exact ⟨_, rfl, h.staticStub⟩
  | internalWord target =>
      cases hrun
      exact ⟨_, rfl, h.site (.internal target (Or.inl rfl))⟩
  | sectionWord target =>
      cases hrun
      exact ⟨_, rfl, h.site (.internal target (Or.inr rfl))⟩
  | stackMap valueCount data =>
      cases hrun
      exact ⟨_, rfl, h.stackMap valueCount data⟩
  | dependency kind entities =>
      cases hrun
      exact ⟨_, rfl, h.dependency hhosts kind entities hout⟩
  | speculation s =>
      cases hrun
      exact ⟨_, rfl, h.speculation s⟩
  | addOop object =>
      cases hrun
      exact ⟨_, rfl, h.addOop object⟩
  | addMetadata entity =>
      cases hrun
      exact ⟨_, rfl, (h.addMetadata hhosts hout).1⟩

/-- A program that succeeds in one process succeeds in the other one and gives
twins. -/
theorem assemble_twins (hhosts : saved.Counterparts live r) {m : MethodId}
    {program : List Step} (hrun : assemble saved m program = .ok nm)
    (hout : Emittable saved nm) :
    ∃ twin, assemble live (r.method m) (program.map (Step.rename r)) =
        .ok twin ∧
      Twins saved live r nm twin := by
  unfold assemble at hrun ⊢
  induction program using List.reverseRecOn generalizing nm with
  | nil =>
      cases hrun
      exact ⟨_, rfl, Twins.of_start saved live r m⟩
  | append_singleton program step ih =>
      rw [List.foldlM_append] at hrun
      change (program.foldlM (Step.run saved) (start saved m) >>= fun nm =>
        Step.run saved nm step >>= pure) = _ at hrun
      cases hinit : program.foldlM (Step.run saved) (start saved m) with
      | error e =>
          rw [hinit] at hrun
          cases hrun
      | ok before =>
          rw [hinit] at hrun
          change Step.run saved before step >>= pure = _ at hrun
          rw [bind_pure] at hrun
          have hmore := Step.run_extends hrun
          rcases ih hinit (hout.of_extends hmore) with ⟨twin, hlive, htwins⟩
          rcases Step.run_twins hhosts htwins hrun hout with
            ⟨twin', hstep, htwins'⟩
          refine ⟨twin', ?_, htwins'⟩
          rw [List.map_append, List.foldlM_append, hlive]
          show (step.rename r).run live twin >>= pure = _
          rw [bind_pure]
          exact hstep

end Assembler

end CodeCache
