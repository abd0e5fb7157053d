import CodeCache.Proofs.Blob.Emitting
import CodeCache.Proofs.Cache.FallThrough
import CodeCache.Proofs.Cache.Loading
import CodeCache.Proofs.Cache.Saving
import CodeCache.Proofs.Host.Worlds
import CodeCache.Proofs.Store.Listing
import CodeCache.Proofs.Store.Reloading

/-!
# Saved files can be loaded

Whatever was passed over while a file was saved, every process of the same build
can load it, provided that something was saved. Without any version the file has
no container, and a file without containers cannot be loaded.
-/

namespace CodeCache

/-!
## The methods of a container
-/

namespace Container

def Registered (keys : List MetaKey) (c : Container) : Prop :=
  ∀ e ∈ c.table.entries, e.isEmpty = false →
    ∃ key, KeyAt keys e.metaIndex.toUInt32 key

variable {keys : List MetaKey} {c c' : Container}

theorem registered_sized (keys : List MetaKey) (fingerprint : Fingerprint)
    (expected : Nat) :
    (sized fingerprint expected).Registered keys := by
  intro e he hfull
  rw [List.eq_of_mem_replicate he] at hfull
  cases hfull

theorem Registered.mono {more : List MetaKey} (h : c.Registered keys)
    (hmore : keys <+: more) :
    c.Registered more := by
  intro e he hfull
  rcases h e he hfull with ⟨key, hkey⟩
  exact ⟨key, hkey.mono hmore⟩

theorem Registered.addVersion (h : c.Registered keys) {index offset : UInt32}
    {name : String} {blob : Bytes} {key : MetaKey}
    (hkey : KeyAt keys index key)
    (hadd : c.addVersion index name blob = .ok (c', offset)) :
    c'.Registered keys := by
  intro e he hfull
  rcases metaIndex_of_addVersion hadd he with hnew | ⟨e₀, he₀, hold⟩
  · rw [hnew, UInt32.toUInt32_toInt32]
    exact ⟨key, hkey⟩
  · rw [hold]
    refine h e₀ he₀ ?_
    rw [← hfull]
    unfold TableEntry.isEmpty
    rw [hold]

theorem Registered.in_range (h : c.Registered keys)
    (hsize : keys.length ≤ 2 ^ 32) {entry : UInt32 × UInt32}
    (hentry : entry ∈ c.methods) :
    entry.1.toNat < keys.length := by
  rcases of_mem_methods hentry with ⟨place, hplace, hfull, -, rfl⟩
  rcases h _ (LookupTable.entryAt_mem hplace) hfull with ⟨key, hkey⟩
  rcases List.getElem?_eq_some_iff.mp (hkey.getElem?_eq hsize) with ⟨hlt, -⟩
  exact hlt

end Container

/-!
## What a save keeps
-/

structure Saving.Orderly (host : Host) (s : Saving) : Prop where
  identity_eq : s.file.buildIdentity = host.buildIdentity
  tidy : s.file.space.Tidy host
  saved : SavedTo (.capture host.settings) s.report.versions s.file.containers
  registered : ∀ c ∈ s.file.containers, c.Registered s.file.space.keys

namespace Saving

variable {host : Host} {o : Options} {s s' : Saving} {nm : CompiledMethod}

theorem orderly_start (host : Host) (stats : Statistics) :
    Orderly host { file := { buildIdentity := host.buildIdentity }, stats } :=
  ⟨rfl, MetaSpace.tidy_empty host, .nothing, nofun⟩

theorem Orderly.addMethod (hclean : host.HasCleanNames) (hs : s.Orderly host)
    (h : addMethod host o (.capture host.settings) s nm = .ok s') :
    s'.Orderly host := by
  have hsaved := addMethod_savedTo hs.saved h
  rcases addMethod_cases h with
    ⟨rfl, -⟩ | ⟨e, space, hemit, rfl⟩ | ⟨key, blob, space, hemit, -, -, -, hadd⟩
  · exact ⟨hs.identity_eq, hs.tidy, hs.saved, hs.registered⟩
  · have hinterns := @CompiledMethod.emit_interns host s.file.space.keys nm
      s.file.space hs.tidy.toCoherent
    rw [hemit] at hinterns
    rcases hinterns with ⟨hcoherent, hgrow⟩
    exact ⟨hs.identity_eq, hcoherent.tidy hclean, hs.saved,
      fun c hc => (hs.registered c hc).mono hgrow⟩
  · have hinterns := @CompiledMethod.emit_interns host space.keys nm
      s.file.space hs.tidy.toCoherent
    rw [hemit] at hinterns
    rcases hinterns with ⟨hcoherent, hgrow, hdescribes⟩
    rcases hdescribes (List.prefix_refl _) with ⟨metas, oops, sites, hdescribes⟩
    rcases hdescribes.assembled with ⟨index, ⟨named, -, hat⟩, rfl⟩
    rcases addBlob_cases (s := { s with file := { s.file with space } }) hs.saved
      hadd with ⟨c, c', offset, hcontainer, -, hversion, hfile, -⟩
    refine ⟨?_, ?_, hsaved, ?_⟩
    · rw [hfile]
      exact hs.identity_eq
    · rw [hfile]
      exact hcoherent.tidy hclean
    · rw [hfile]
      intro d hd
      rw [List.mem_singleton.mp hd]
      refine Container.Registered.addVersion ?_ hat hversion
      rcases hcontainer with ⟨-, rfl⟩ | hone
      · exact Container.registered_sized _ _ _
      · refine (hs.registered c ?_).mono hgrow
        change s.file.containers = [c] at hone
        rw [hone]
        exact List.mem_singleton_self c

theorem Orderly.storable (hs : s.Orderly host)
    (hidentity : NulFree host.buildIdentity)
    (hsize : s.file.encode.length < 2 ^ 32) (hsome : 0 < s.report.versions) :
    s.file.WellFormed ∧ s.file.Storable := by
  rw [CacheFile.length_encode] at hsize
  rcases hs.saved.exists_stocked hsome with ⟨c, hc, hstocked⟩
  constructor
  · refine ⟨hs.tidy.distinct, ?_⟩
    rw [hc]
    intro d hd
    rw [List.mem_singleton.mp hd]
    exact hstocked.wellFormed
  · have hkeys : s.file.space.keys.length = s.file.space.size :=
      List.length_map _
    have hlt := CacheFile.size_lt_of_small hsize
    refine CacheFile.storable_of_small hsize (hs.identity_eq ▸ hidentity)
      hs.tidy.clean ?_ ?_ ?_
    · rw [hc]
      exact List.cons_ne_nil c []
    · rw [hc]
      exact Nat.le_of_lt (by decide : 1 < FileHeader.maxContainers)
    · intro d hd entry hentry
      rw [← hkeys]
      exact (hs.registered d hd).in_range (by omega) hentry

end Saving

/-!
## Loading what was saved
-/

namespace Cache

variable {host loader : Host} {files files' : FileTree}
  {methods : List CompiledMethod} {c c' : Cache} {report : SaveReport}
  {o : Options}

theorem load_of_orderly {done : Saving} (hdone : done.Orderly host)
    (hidentity : NulFree host.buildIdentity) {path : String}
    (hat : files'.at? path = some (.file done.file.encode))
    (hsmall : done.file.encode.length < 2 ^ 32)
    (hsome : 0 < done.report.versions)
    (hbuild : loader.buildIdentity = host.buildIdentity)
    (hpath : outputPath o = .ok path) (roll : Nat) :
    ∃ d file, load loader files' (start o roll) = .ok () d ∧
      d.file = some file ∧
      d.container = file.selectContainer loader.settings ∧
      file.space.keys = done.file.space.keys ∧
      file.containers = done.file.containers := by
  rcases hdone.storable hidentity hsmall hsome with ⟨hwell, hstorable⟩
  have hexpected : expectedBuild loader o = none ∨
      expectedBuild loader o = some done.file.buildIdentity := by
    rw [hdone.identity_eq, ← hbuild]
    unfold expectedBuild
    cases o.checkBuild with
    | true => exact Or.inr rfl
    | false => exact Or.inl rfl
  have hread := (CacheFile.load_eq_ok_iff hat).mpr
    ⟨_, CacheFile.decode_encode hwell hstorable hexpected, rfl⟩
  refine ⟨_, _, load_eq_ok_iff.mpr ⟨path, _, hpath, hread, fun _ => ?_, rfl⟩,
    rfl, rfl, MetaSpace.keys_ofKeys _, rfl⟩
  refine CacheFile.printAssumptions_eq_ok fun container hcontainer => ?_
  exact ⟨_, _, _, hdone.saved.stocked_of_mem hcontainer⟩

/-- Every process of the same build can load a file that was saved, exactly if
at least one version is in it. -/
theorem loads_saved_iff (hclean : host.HasCleanNames)
    (hidentity : NulFree host.buildIdentity)
    (hsave : save host files methods c = .ok (report, files') c')
    (hbytes : 0 < report.bytes) (hsmall : report.bytes < 2 ^ 32)
    (hbuild : loader.buildIdentity = host.buildIdentity)
    (hpath : o.file = c.options.file) (roll : Nat) :
    (∃ d, load loader files' (start o roll) = .ok () d) ↔
      0 < report.versions := by
  rcases of_save hsave with
    ⟨path, hfile, ⟨-, rfl, -⟩ | ⟨-, done, bytes, hfold, hwrite, rfl⟩⟩
  · exact absurd hbytes (Nat.lt_irrefl 0)
  rcases CacheFile.of_write hwrite with ⟨hat, rfl⟩
  have hdone : done.Orderly host :=
    of_foldlM_eq_ok (fun _ _ _ _ hs hstep => hs.addMethod hclean hstep)
      (Saving.orderly_start host c.stats) hfold
  have houtput : outputPath o = .ok path := by
    unfold outputPath
    rw [hpath, hfile]
  constructor
  · rintro ⟨d, hload⟩
    rcases load_eq_ok_iff.mp hload with ⟨path', file, hpath', hread, -, -⟩
    change outputPath o = .ok path' at hpath'
    rw [houtput] at hpath'
    cases hpath'
    rcases (CacheFile.load_eq_ok_iff hat).mp hread with ⟨g, hdecode, -⟩
    refine Nat.pos_of_ne_zero fun hnone => ?_
    change done.report.versions = 0 at hnone
    have hempty := (hnone ▸ hdone.saved).eq_nil
    have hsame := CacheFile.containers_of_decode (f := done.file)
      (by rw [hempty]; exact nofun) hdecode
    exact CacheFile.containers_ne_nil_of_decode hdecode (hsame.trans hempty)
  · intro hsome
    rcases load_of_orderly hdone hidentity hat hsmall hsome hbuild houtput roll
      with ⟨d, _, hload, -⟩
    exact ⟨d, hload⟩

/-!
Code that is entered in a loop is not saved, but the method next to it is. If
there is none, the file is written all the same.
-/

namespace Sample

def looping : CompiledMethod :=
  { plain with isOsr := true }

theorem world_regular : world.Regular where
  classes_distinct := by decide
  methods_distinct := by decide
  classes_lt := by decide
  loaded := by decide
  loaders := by decide
  clean_classes := by decide +kernel
  clean_methods := by decide +kernel
  known := rfl
  globals := rfl
  shift_fits := by decide

end Sample

theorem loads_saved_iff_of_one_version :
    ∃ report files' c',
      save Sample.world.host {} [Sample.looping, Sample.plain]
        (start (.forSave "a") 0) = .ok (report, files') c' ∧
      report.skipped = 1 ∧
      ∃ d, load Sample.world.host files' (start (.forRestore "a") 0) =
        .ok () d := by
  have hdone : okWith (fun saved => decide (saved.1.skipped = 1 ∧ 0 < saved.1.bytes ∧
      saved.1.bytes < 2 ^ 32 ∧ 0 < saved.1.versions))
      (save Sample.world.host {} [Sample.looping, Sample.plain]
        (start (.forSave "a") 0)) = true := by
    decide +kernel
  rcases of_okWith hdone with ⟨saved, c, hsave, hreport⟩
  rcases of_decide_eq_true hreport with ⟨hskipped, hbytes, hsmall, hsome⟩
  have hloads := loads_saved_iff (o := .forRestore "a")
    (World.hasCleanNames Sample.world_regular) (by decide +kernel) hsave
    hbytes hsmall rfl rfl 0
  exact ⟨_, _, _, hsave, hskipped, hloads.mpr hsome⟩

theorem saved_not_loaded_without_versions :
    ∃ report files' c',
      save Sample.world.host {} [Sample.looping] (start (.forSave "a") 0) =
        .ok (report, files') c' ∧
      0 < report.bytes ∧
      ¬ ∃ d, load Sample.world.host files' (start (.forRestore "a") 0) =
        .ok () d := by
  have hdone : okWith (fun saved => decide (0 < saved.1.bytes) &&
      errorWith (fun _ => true)
        (load Sample.world.host saved.2 (start (.forRestore "a") 0)))
      (save Sample.world.host {} [Sample.looping] (start (.forSave "a") 0)) = true := by
    decide +kernel
  rcases of_okWith hdone with ⟨saved, c, hsave, hreport⟩
  rcases Bool.and_eq_true_iff.mp hreport with ⟨hbytes, hload⟩
  refine ⟨_, _, _, hsave, of_decide_eq_true hbytes, ?_⟩
  rintro ⟨d, hrun⟩
  rw [hrun] at hload
  cases hload

end Cache

end CodeCache
