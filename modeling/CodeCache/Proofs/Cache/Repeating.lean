import CodeCache.Proofs.Cache.PassedOver
import CodeCache.Proofs.Cache.Saving
import CodeCache.Proofs.Cache.Undisturbed
import CodeCache.Proofs.Store.Reloading

/-!
# Revives do not disturb each other

The chains of a file that was written by saving or by merging are intact. So what
a revive of a loaded file answers is settled by the host and the file alone: it
is the same after any other revives as right after the load.
-/

namespace CodeCache

/-!
## Files that a cache wrote
-/

/-- The contents of a file that was written by saving or by merging. No
fingerprint takes gigabytes. -/
inductive Written : Bytes → Prop where
  | saved {bytes : Bytes} (h : Saved bytes) : Written bytes
  | merged {host : Host} {files files' : FileTree} {c c' : Cache}
      {report : MergeReport} {path : String} {bytes : Bytes}
      (hflags : ∀ input file, CacheFile.load files input none = .ok file →
        ∀ container ∈ file.containers,
          container.fingerprint.flags.length < 2 ^ 28)
      (hmerge : Cache.merge host files c = .ok (report, files') c')
      (hpath : c.options.file = some path)
      (hat : files'.at? path = some (.file bytes)) :
      Written bytes

/-- The container can be stored, and its chains are intact. -/
structure Container.Sturdy (c : Container) : Prop where
  storable : c.Storable
  intact : ∀ e ∈ c.table.entries, 0 ≤ e.codeOffset →
    Cache.Intact (c.code.versions e.codeOffset.toUInt32)

theorem Container.Stocked.sturdy {c : Container} {kind : Blob.Image → Prop}
    {fingerprint : Fingerprint} {buckets count : Nat}
    (h : c.Stocked kind fingerprint buckets count)
    (hbuckets : buckets ≤ count + LookupTable.minBuckets)
    (hflags : fingerprint.flags.length < 2 ^ 28) :
    c.Sturdy := by
  refine ⟨h.storable hbuckets hflags, ?_⟩
  intro e he hcode
  rcases h.versions_eq he hcode with ⟨blobs, hblobs, -⟩
  rw [hblobs]
  intro blob hblob
  rw [List.mem_map] at hblob
  rcases hblob with ⟨b, -, rfl⟩
  rfl

theorem Written.exists_file {bytes : Bytes} (h : Written bytes) :
    ∃ f : CacheFile, bytes = f.encode ∧ ∀ c ∈ f.containers, c.Sturdy := by
  cases h with
  | saved h =>
      rcases h.exists_file with ⟨f, fingerprint, n, rfl, hflags, hsaved⟩
      exact ⟨f, rfl, fun c hc =>
        (hsaved.stocked_of_mem hc).sturdy (Nat.le_add_left _ _) hflags⟩
  | @merged host _ _ c _ _ path _ hflags hmerge hpath hat =>
      rcases Cache.of_merge hmerge with ⟨-, hrun⟩
      rcases Merge.of_run hrun with ⟨output, paths, first, f, built, size,
        houtput, -, -, hbuild, hwrite, -⟩
      rw [hpath] at houtput
      cases houtput
      rw [(CacheFile.of_write hwrite).1] at hat
      cases hat
      refine ⟨f, rfl, ?_⟩
      intro c hc
      rcases Merge.stocked_of_build hbuild c hc with ⟨input, hinput, source,
        hsource, buckets, count, hbuckets, hstocked⟩
      exact hstocked.sturdy hbuckets
        (hflags _ _ (Merge.load_of_mem_readInputs hinput) source hsource)

namespace Cache

variable {host : Host} {files : FileTree} {o : Options} {roll : Nat}
  {path : String} {bytes : Bytes} {c : Cache}

/-!
## Loading such a file
-/

theorem intact_of_sturdy {file : CacheFile} (hfile : c.file = some file)
    (hsturdy : ∀ container ∈ file.containers, container.Sturdy)
    (m : MethodId) :
    Intact (c.chain host m) := by
  rcases find_cases host c m with h |
    ⟨status, head, loaded, container, hactive, hfind⟩
  · rw [h.chain_eq]
    intro blob hblob
    cases hblob
  · rw [chain_of_find hactive hfind]
    rcases of_active? hactive with ⟨hloaded, i, -, hat⟩
    have hmem := List.mem_of_getElem? hat
    rw [hfile] at hloaded
    cases hloaded
    unfold find at hfind
    rw [hactive] at hfind
    dsimp only at hfind
    split at hfind
    · rcases Container.of_find hfind with ⟨e, he, hcode, rfl, -⟩
      exact (hsturdy container hmem).intact e he hcode
    · split at hfind <;> cases hfind

theorem loaded_of_written (hwritten : Written bytes)
    (hat : files.at? path = some (.file bytes)) (hpath : o.file = some path)
    (hload : load host files (start o roll) = .ok () c) :
    c.options = o ∧ ∃ file, c.Loaded file ∧
      ∀ container ∈ file.containers, container.Sturdy := by
  rcases hwritten.exists_file with ⟨f, rfl, hsturdy⟩
  rcases loaded_of_load hload with ⟨hoptions, file, hloaded⟩
  refine ⟨hoptions, file, hloaded, ?_⟩
  rcases load_eq_ok_iff.mp hload with ⟨path', file', hpath', hread, -, hc⟩
  have hfile := hloaded.file_eq
  rw [hc] at hfile
  cases hfile
  have hsame : path' = path := by
    have hsome := eq_some_of_outputPath hpath'
    change o.file = some path' at hsome
    rw [hpath] at hsome
    exact (Option.some_inj.mp hsome).symm
  subst hsame
  rcases (CacheFile.load_eq_ok_iff hat).mp hread with ⟨g, hdecode, rfl⟩
  intro container hcontainer
  have hcontainers := CacheFile.containers_of_decode
    (fun c hc => (hsturdy c hc).storable) hdecode
  change container ∈ g.containers at hcontainer
  rw [hcontainers] at hcontainer
  exact hsturdy container hcontainer

/-!
## Any number of revives
-/

structure Request where
  draw : Nat := 0
  method : MethodId
  level : UInt32 := optimizingLevel
  deriving DecidableEq, Repr

def Request.ask (host : Host) (r : Request) : InCache (Option CompiledMethod) :=
  revive host r.draw r.method r.level

/-- After a written file was loaded, every revive answers what it would have
answered had it been the first, whichever revives came before it. -/
theorem revives_undisturbed (hwritten : Written bytes)
    (hat : files.at? path = some (.file bytes)) (hpath : o.file = some path)
    (hload : load host files (start o roll) = .ok () c)
    (hpolicy : o.revivePolicy ≠ .random) (hfatal : o.fatalOnFail = false)
    (requests : List Request) :
    ∃ answers c', requests.mapM (Request.ask host) c = .ok answers c' ∧
      List.Forall₂ (fun r answer => ∃ alone, r.ask host c = .ok answer alone)
        requests answers := by
  rcases loaded_of_written hwritten hat hpath hload with
    ⟨hoptions, file, hloaded, hsturdy⟩
  rw [← hoptions] at hpolicy hfatal
  have hfile := hloaded.file_eq
  have hstart := hloaded.undisturbed host
  have hsettles : ∀ r : Request, ∃ nm?,
      Settles (Undisturbed host c file) (r.ask host) (.ok nm?) := by
    intro r
    have henabled := hloaded.enabled r.method
    rcases answers_of_intact hfile hpolicy henabled
      (intact_of_sturdy hfile hsturdy r.method) r.draw with ⟨nm?, hanswers⟩
    exact ⟨_, hanswers.revive_settles hfile hfatal henabled r.level⟩
  choose answer hanswer using hsettles
  rcases Settles.of_mapM hanswer requests c hstart with ⟨c', -, hrun⟩
  refine ⟨requests.map answer, c', hrun, ?_⟩
  rw [List.forall₂_map_right_iff, List.forall₂_same]
  intro r _
  rcases hanswer r c hstart with ⟨alone, -, halone⟩
  exact ⟨alone, halone⟩

/-!
The method of a saved class is revived twice under the policy that appoints its
second version. The first version is ruled out by the first revive.
-/

namespace Sample

def appointing : Options :=
  { Options.forRestore "a" with revivePolicy := .appointed 1 }

def twice : List Request :=
  [{ method := ⟨0⟩ }, { method := ⟨0⟩ }]

def appointed : Cache :=
  InCache.after (load Process.Renewal.world.host Process.Renewal.files)
    (start appointing 0)

theorem appointed_eq :
    load Process.Renewal.world.host Process.Renewal.files (start appointing 0) =
      .ok () appointed :=
  InCache.eq_ok_after (by decide +kernel)

theorem renewal_written : ∃ bytes, Written bytes ∧
    Process.Renewal.files.at? "a" = some (.file bytes) := by
  have hdone : okWith (fun _ => true) (save Process.Renewal.saving.host {}
      [Process.Renewal.outdated, Process.Renewal.plain, Process.Renewal.renewed]
      (start (.forSave "a") 0)) = true := by
    decide +kernel
  rcases of_okWith hdone with ⟨⟨report, files⟩, c, hsave, -⟩
  unfold Process.Renewal.files
  rw [hsave]
  rcases of_save hsave with
    ⟨path, hpath, ⟨hnot, -⟩ | ⟨-, done, size, -, hwrite, -⟩⟩
  · cases hnot
  · cases hpath
    have hat := (CacheFile.of_write hwrite).1
    exact ⟨_, .saved (.save (by decide) hsave rfl rfl hat), hat⟩

end Sample

theorem revives_undisturbed_when_appointed :
    ∃ answers c', Sample.twice.mapM (Request.ask Process.Renewal.world.host)
        Sample.appointed = .ok answers c' ∧
      List.Forall₂ (fun r answer => ∃ alone,
        Request.ask Process.Renewal.world.host r Sample.appointed =
          .ok answer alone) Sample.twice answers := by
  rcases Sample.renewal_written with ⟨bytes, hwritten, hat⟩
  exact revives_undisturbed hwritten hat rfl Sample.appointed_eq nofun rfl
    Sample.twice

end Cache

end CodeCache
