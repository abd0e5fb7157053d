import CodeCache.Proofs.Blob.Contents
import CodeCache.Proofs.Blob.Replaying
import CodeCache.Proofs.Host.Worlds

/-!
# From one process to another

A method that was assembled and emitted in one process is revived in another one
as the same program would have been assembled there.
-/

namespace CodeCache

namespace Emit

variable {saved : Host} {keys : List MetaKey} {nm : CompiledMethod}
  {blob : EmittedBlob} {metas oops : List TagRecord}
  {sites : List (Option TagRecord)}

theorem Describes.canName (h : Describes saved keys nm blob metas oops sites) :
    saved.CanName (.method nm.method) := by
  rcases h.assembled with ⟨_, ⟨key, hkey, _⟩, _⟩
  exact ⟨key, hkey⟩

theorem Describes.named (h : Describes saved keys nm blob metas oops sites)
    {e : Entity} (he : some e ∈ nm.metadata) :
    saved.CanName e := by
  have hdescribed : ∃ record, DescribesEntity saved nm.method keys (some e)
      record := by
    rcases exists_of_mem_right h.metas.flip he with ⟨record, _, hrecord⟩
    exact ⟨record, hrecord⟩
  rcases hdescribed with ⟨record, hrecord⟩
  cases hrecord with
  | self => exact h.canName
  | klass hnamed =>
      rcases hnamed with ⟨key, hkey, _⟩
      exact ⟨key, hkey⟩
  | method _ hnamed =>
      rcases hnamed with ⟨key, hkey, _⟩
      exact ⟨key, hkey⟩

theorem Describes.exists_content
    (h : Describes saved keys nm blob metas oops sites) :
    ∃ c : Content, c.Sound ∧ c.method = nm ∧ c.metas = metas ∧ c.oops = oops ∧
      c.sites = sites.filterMap id ∧
      IsNamed saved keys (.method nm.method) blob.methodIndex ∧
      blob.bytes = c.bytes (-1) := by
  rcases h.assembled with ⟨methodIndex, hnamed, rfl⟩
  refine ⟨⟨nm, methodIndex, metas, oops, sites.filterMap id⟩, ?_, rfl, rfl, rfl,
    rfl, hnamed, rfl⟩
  exact ⟨h.metas.length_eq.symm, h.oops.length_eq.symm, h.ne_finish⟩

theorem Describes.parse (h : Describes saved keys nm blob metas oops sites)
    (hsize : blob.bytes.length < 2 ^ 32) :
    ∃ b, Blob.parse blob.bytes 0 = .ok b ∧
      b.Stores nm metas oops (sites.filterMap id) := by
  rcases h.exists_content with
    ⟨c, hsound, rfl, rfl, rfl, hsites, -, hbytes⟩
  rw [hbytes, c.length_bytes] at hsize
  rw [hbytes, ← hsites]
  exact ⟨_, c.parse_own hsize (-1), hsound.stores hsize _ _⟩

theorem Describes.emittable (h : Describes saved keys nm blob metas oops sites)
    {b : Blob} (hstores : b.Stores nm metas oops (sites.filterMap id)) :
    Assembler.Emittable saved nm where
  named _ he := h.named he
  oops_lt := by
    rw [← hstores.oopCount_eq]
    exact UInt32.toNat_lt _
  metadata_lt := by
    rw [← hstores.metaCount_eq]
    exact UInt32.toNat_lt _

end Emit

theorem MetaSpace.Tidy.decode_encode {host : Host} {space : MetaSpace}
    (h : space.Tidy host) (hsize : space.size < 2 ^ 32) :
    ∃ loaded, MetaSpace.decode space.encode = .ok loaded ∧
      loaded.keys = space.keys ∧ loaded.Fresh := by
  have hread : MetaSpace.decode space.encode =
      .ok (MetaSpace.ofKeys space.keys) :=
    (MetaSpace.decoder_reads h.clean h.distinct hsize).run_eq
  exact ⟨_, hread, MetaSpace.keys_ofKeys _, MetaSpace.fresh_of_decode hread⟩

/-- A method that was assembled and emitted in one process is revived in another
one as the same program would have been assembled there, provided that
everything the first one can name has a counterpart. -/
theorem CompiledMethod.revive_of_emit {saved live : Host} {r : Renaming}
    (hhosts : saved.Counterparts live r) (hclean : saved.HasCleanNames)
    {m : MethodId} {program : List Assembler.Step} {nm : CompiledMethod}
    (hassemble : Assembler.assemble saved m program = .ok nm)
    (husable : ∀ e, nm.References e → saved.IsUsable e)
    {space space' : MetaSpace} {blob : EmittedBlob}
    (hgrown : space.Grown saved)
    (hemit : nm.emit saved space = .ok blob space')
    (hblob : blob.bytes.length < 2 ^ 32) (hsize : space'.size < 2 ^ 32) :
    ∃ twin b loaded,
      Assembler.assemble live (r.method m)
        (program.map (Assembler.Step.rename r)) = .ok twin ∧
      Blob.parse blob.bytes 0 = .ok b ∧
      MetaSpace.decode space'.encode = .ok loaded ∧
      ∀ epoch, ∃ resolved loaded',
        b.resolve ⟨live, epoch, r.method m⟩ loaded = .ok resolved loaded' ∧
        b.revive ⟨live, epoch, r.method m⟩ resolved = .ok twin := by
  have hinterns := @CompiledMethod.emit_interns saved space'.keys nm space
    hgrown.coherent
  rw [hemit] at hinterns
  rcases hinterns with ⟨hcoherent, _, hdescribes⟩
  rcases hdescribes (List.prefix_refl _) with ⟨metas, oops, sites, hdescribes⟩
  rcases hdescribes.parse hblob with ⟨b, hparse, hstores⟩
  rcases (hcoherent.tidy hclean).decode_encode hsize with ⟨loaded, hdecode, hkeys, hfresh⟩
  rcases Assembler.assemble_twins hhosts hassemble
    (hdescribes.emittable hstores) with ⟨twin, hlive, htwins⟩
  have hmethod : nm.method = m := (Assembler.assemble_extends hassemble).method_eq
  have hbase : twin.base = live.installAddress (r.method m) :=
    (Assembler.assemble_extends hlive).base_eq
  have hcode : nm.code.length < 2 ^ 32 := by
    rw [← hstores.codeSize_eq]
    exact UInt32.toNat_lt _
  have hlength : space'.keys.length ≤ 2 ^ 32 := by
    have hmap := space'.length_keys
    omega
  refine ⟨twin, b, loaded, hlive, hparse, hdecode, ?_⟩
  intro epoch
  have hrevives : ReviveContext.Revives saved r space'.keys nm
      ⟨live, epoch, r.method m⟩ := by
    refine ⟨hhosts, hlength, ?_, hdescribes.canName, husable⟩
    rw [hmethod]
  have hleads : loaded.Leads live space'.keys := by
    rw [← hkeys]
    exact MetaSpace.leads_of_fresh live hfresh
  rcases Blob.resolve_gives hrevives hstores hdescribes.metas hdescribes.oops
    hdescribes.sites loaded hleads with ⟨loaded', hresolve, _⟩
  exact ⟨_, loaded', hresolve,
    Blob.revive_eq_twin hrevives hcode htwins hbase hstores hdescribes.sites⟩

namespace World

/-- Between two worlds with the same definitions, whatever their handles and
address shifts are, code is revived as it would have been assembled there. -/
theorem revived_as_assembled {saved live : World} {r : Renaming}
    (hsaved : saved.Regular) (hlive : live.Regular)
    (hsame : saved.DefinedIn live r) {m : MethodId}
    {program : List Assembler.Step} {nm : CompiledMethod}
    (hassemble : Assembler.assemble saved.host m program = .ok nm)
    (husable : ∀ e, nm.References e → saved.host.IsUsable e)
    {space space' : MetaSpace} {blob : EmittedBlob}
    (hgrown : space.Grown saved.host)
    (hemit : nm.emit saved.host space = .ok blob space')
    (hblob : blob.bytes.length < 2 ^ 32) (hsize : space'.size < 2 ^ 32) :
    ∃ twin b loaded,
      Assembler.assemble live.host (r.method m)
        (program.map (Assembler.Step.rename r)) = .ok twin ∧
      Blob.parse blob.bytes 0 = .ok b ∧
      MetaSpace.decode space'.encode = .ok loaded ∧
      ∀ epoch, ∃ resolved loaded',
        b.resolve ⟨live.host, epoch, r.method m⟩ loaded =
          .ok resolved loaded' ∧
        b.revive ⟨live.host, epoch, r.method m⟩ resolved = .ok twin :=
  CompiledMethod.revive_of_emit (counterparts hsaved hlive hsame)
    (hasCleanNames hsaved) hassemble husable hgrown hemit hblob hsize

/-!
Two worlds that define the classes `A` and `B` in opposite orders, at different
addresses.
-/

namespace Sample

def saved : World :=
  let (w, a) := (World.empty 0).defineClass { name := "A", loader := .app }
  let (w, b) := w.defineClass { name := "B", loader := .boot }
  let (w, _) := w.defineMethod a "f" "()V"
  (w.defineMethod b "g" "()I").1

def live : World :=
  let (w, b) :=
    (World.empty 0x1000_0000).defineClass { name := "B", loader := .boot }
  let (w, a) := w.defineClass { name := "A", loader := .app }
  let (w, _) := w.defineMethod b "g" "()I"
  (w.defineMethod a "f" "()V").1

def swapped : Renaming where
  klass k := ⟨1 - k.index⟩
  method m := ⟨1 - m.index⟩

def program : List Assembler.Step :=
  [.nops 8, .setEntries 0 4, .oop (.mirror ⟨1⟩) true, .oop (.text "x") false,
    .metadata (.klass ⟨0⟩) true, .metadata (.method ⟨1⟩) false,
    .metadata (.method ⟨0⟩) true, .externalWord ⟨⟨4, by decide⟩⟩ 16,
    .runtimeCall ⟨⟨9, by decide⟩⟩, .poll true, .pollReturn false, .virtualCall,
    .optVirtualCall, .staticCall, .staticStub, .internalWord 8, .sectionWord 0,
    .stackMap 1 [1, 2, 3],
    .dependency .noFinalizableSubclasses [.klass ⟨1⟩],
    .speculation (.inlined 3 2 7)]

theorem saved_regular : saved.Regular where
  classes_distinct := by decide +kernel
  methods_distinct := by decide +kernel
  classes_lt := by decide
  loaded := by decide +kernel
  loaders := by decide +kernel
  clean_classes := by decide +kernel
  clean_methods := by decide +kernel
  known := rfl
  globals := rfl
  shift_fits := by decide

theorem live_regular : live.Regular where
  classes_distinct := by decide +kernel
  methods_distinct := by decide +kernel
  classes_lt := by decide
  loaded := by decide +kernel
  loaders := by decide +kernel
  clean_classes := by decide +kernel
  clean_methods := by decide +kernel
  known := rfl
  globals := rfl
  shift_fits := by decide

theorem index_eq {i : UInt32} (h : i.toNat < 2) : i = 0 ∨ i = 1 := by
  have hcases : i.toNat = 0 ∨ i.toNat = 1 := by omega
  rcases hcases with hzero | hone
  · exact Or.inl (UInt32.toNat.inj hzero)
  · exact Or.inr (UInt32.toNat.inj hone)

theorem saved_definedIn_live : saved.DefinedIn live swapped where
  classes := by
    rintro ⟨i⟩ c hc
    have hlt : i.toNat < 2 := (List.getElem?_eq_some_iff.mp hc).1
    rcases index_eq hlt with rfl | rfl
    · cases hc
      exact ⟨_, rfl, by decide +kernel⟩
    · cases hc
      exact ⟨_, rfl, by decide +kernel⟩
  methods := by
    rintro ⟨i⟩ m hm
    have hlt : i.toNat < 2 := (List.getElem?_eq_some_iff.mp hm).1
    rcases index_eq hlt with rfl | rfl
    · cases hm
      exact ⟨_, rfl, by decide +kernel⟩
    · cases hm
      exact ⟨_, rfl, by decide +kernel⟩

def isEmitted : Bool :=
  match Assembler.assemble saved.host ⟨0⟩ program with
  | .error _ => false
  | .ok nm =>
    match nm.emit saved.host {} with
    | .error _ _ => false
    | .ok blob space =>
      nm.metadata == [some (.klass ⟨0⟩), some (.method ⟨1⟩),
        some (.method ⟨0⟩), some (.klass ⟨1⟩)] &&
      nm.oops == [some (.mirror ⟨1⟩), some (.text "x")] &&
      decide (blob.bytes.length < 2 ^ 32) && decide (space.size < 2 ^ 32)

theorem program_emits :
    ∃ nm blob space, Assembler.assemble saved.host ⟨0⟩ program = .ok nm ∧
      nm.emit saved.host {} = .ok blob space ∧
      blob.bytes.length < 2 ^ 32 ∧ space.size < 2 ^ 32 ∧
      ∀ e, nm.References e → saved.host.IsUsable e := by
  have hemitted : isEmitted = true := by
    decide +kernel
  unfold isEmitted at hemitted
  cases hrun : Assembler.assemble saved.host ⟨0⟩ program with
  | error e =>
      rw [hrun] at hemitted
      contradiction
  | ok nm =>
      cases hemit : nm.emit saved.host {} with
      | error e space =>
          simp only [hrun, hemit, Bool.false_eq_true] at hemitted
      | ok blob space =>
          simp only [hrun, hemit, Bool.and_eq_true, beq_iff_eq,
            decide_eq_true_eq] at hemitted
          rcases hemitted with ⟨⟨⟨hmetadata, hoops⟩, hblob⟩, hsize⟩
          refine ⟨nm, blob, space, rfl, hemit, hblob, hsize, ?_⟩
          rintro e (⟨he, _⟩ | ⟨k, rfl, hk⟩)
          · rw [hmetadata] at he
            simp only [List.mem_cons, Option.some.injEq, List.not_mem_nil,
              or_false] at he
            rcases he with rfl | rfl | rfl | rfl
            · show saved.host.initState ⟨0⟩ ≠ .failed
              decide
            · exact ⟨by decide, by decide⟩
            · exact ⟨by decide, by decide⟩
            · show saved.host.initState ⟨1⟩ ≠ .failed
              decide
          · rw [hoops] at hk
            simp only [List.mem_cons, Option.some.injEq, Object.mirror.injEq,
              reduceCtorEq, List.not_mem_nil, or_false] at hk
            subst hk
            show saved.host.initState ⟨1⟩ ≠ .failed
            decide

end Sample

open Sample in
theorem revived_as_assembled_between_samples :
    ∃ nm blob space twin b loaded,
      Assembler.assemble saved.host ⟨0⟩ program = .ok nm ∧
      nm.emit saved.host {} = .ok blob space ∧
      Assembler.assemble live.host ⟨1⟩
        (program.map (Assembler.Step.rename swapped)) = .ok twin ∧
      Blob.parse blob.bytes 0 = .ok b ∧
      MetaSpace.decode space.encode = .ok loaded ∧
      ∀ epoch, ∃ resolved loaded',
        b.resolve ⟨live.host, epoch, ⟨1⟩⟩ loaded = .ok resolved loaded' ∧
        b.revive ⟨live.host, epoch, ⟨1⟩⟩ resolved = .ok twin := by
  rcases program_emits with
    ⟨nm, blob, space, hassemble, hemit, hblob, hsize, husable⟩
  rcases revived_as_assembled saved_regular live_regular saved_definedIn_live
    hassemble husable .empty hemit hblob hsize with
    ⟨twin, b, loaded, hlive, hparse, hdecode, hrevive⟩
  exact ⟨nm, blob, space, twin, b, loaded, hassemble, hemit, hlive, hparse,
    hdecode, hrevive⟩

end World

end CodeCache
