import CodeCache.Proofs.Cache.FallThrough
import CodeCache.Proofs.Cache.Loading
import CodeCache.Proofs.Cache.Saving
import CodeCache.Proofs.Merge.Preserving

/-!
# Merged files

A merge of files that were saved writes a file that means what they mean. Whoever
reads the file finds one container for each group that was kept, and in it the
selected blobs of every method.
-/

namespace CodeCache

/-!
## Saved inputs
-/

namespace Merge

variable {files : FileTree} {input : Input} {bytes : Bytes}

theorem Input.sound_of_saved
    (hload : CacheFile.load files input.path none = .ok input.file)
    (hat : files.at? input.path = some (.file bytes)) (h : Saved bytes) :
    input.Sound := by
  have hfresh := CacheFile.fresh_of_load hload
  rcases (CacheFile.load_eq_ok_iff hat).mp hload with ⟨f, hdecode, hfile⟩
  rcases h.of_decode hdecode with ⟨fingerprint, n, hflags, hsaved⟩
  have hcontainers : input.file.containers = f.containers := by rw [hfile]
  have hspace : input.file.space = f.space := by rw [hfile]
  rw [← hcontainers] at hsaved
  have hstocked := fun c (hc : c ∈ input.file.containers) =>
    hsaved.stocked_of_mem hc
  constructor
  · exact fun c hc => ⟨_, _, _, hstocked c hc⟩
  · intro c hc
    rw [(hstocked c hc).fingerprint_eq]
    exact hflags
  · exact hfresh
  · rw [hspace]
    exact (CacheFile.clean_of_decode hdecode).2.all

/-!
## Reading the output
-/

section

variable {o : Options} {inputs : List Input} {f g : CacheFile}
  {report : MergeReport} {output identity : String} {paths : List String}
  {expected : Option String} (hinputs : ∀ input ∈ inputs, Input.Sound input)
  (h : build o output paths inputs identity = .ok (f, report))

include hinputs h

theorem containers_of_build (hdecode : CacheFile.decode f.encode expected = .ok g) :
    g.containers = f.containers := by
  refine CacheFile.containers_of_decode (fun c hc => ?_) hdecode
  rcases stocked_of_build h c hc with ⟨input, hinput, source, hsource, buckets,
    count, hbuckets, hstocked⟩
  exact hstocked.storable hbuckets
    ((hinputs input hinput).flags_lt source hsource)

theorem keeps_of_decode (hsize : Numberable inputs)
    (hdecode : CacheFile.decode f.encode expected = .ok g) :
    List.Forall₂ (Keeps o inputs g.space)
      (keptGroups o inputs.length (groups inputs)) g.containers := by
  rcases keeps_of_build hinputs hsize h with ⟨hkeyed, hkeeps⟩
  have hclean : ∀ key ∈ f.space.keys, key.name.NulFree := by
    intro key hkey
    rcases hkeyed.all key hkey with ⟨input, hinput, hmem⟩
    exact (hinputs input hinput).clean key hmem
  have hlength := f.space.length_keys
  have hlt := hsize.keys_lt hkeyed
  have hspace := CacheFile.keys_of_decode hclean hkeyed.distinct (by omega)
    hdecode
  rw [containers_of_build hinputs h hdecode]
  exact hkeeps g.space (CacheFile.fresh_of_decode hdecode) hspace

end

end Merge

namespace Cache

variable {host : Host} {files files' : FileTree} {c c' : Cache}
  {report : MergeReport} {inputs : List Merge.Input} {output : String}

def mergeInputs (host : Host) (files : FileTree) (c : Cache) :
    Except Error (List Merge.Input) :=
  Merge.readInputs files c.options.checkBuild (expectedBuild host c.options) <$>
    Merge.inputFiles c.options files

theorem written_of_merge (hmerge : merge host files c = .ok (report, files') c')
    (houtput : c.options.file = some output)
    (hread : c.mergeInputs host files = .ok inputs) :
    (∀ input ∈ inputs,
      CacheFile.load files input.path none = .ok input.file) ∧
    ∃ paths, ∃ first ∈ inputs, ∃ f built,
      Merge.build c.options output paths inputs first.file.buildIdentity =
        .ok (f, built) ∧
      files'.at? output = some (.file f.encode) ∧
      report = { built with fileSize := f.encodedSize } := by
  rcases of_merge hmerge with ⟨-, hrun⟩
  rcases Merge.of_run hrun with ⟨output', paths, first, f, built, size, houtput',
    hpaths, hfirst, hbuild, hwrite, rfl⟩
  rw [houtput] at houtput'
  cases houtput'
  unfold mergeInputs at hread
  rw [hpaths] at hread
  cases hread
  rcases CacheFile.of_write hwrite with ⟨hat, rfl⟩
  rw [CacheFile.length_encode]
  exact ⟨fun _ hinput => Merge.load_of_mem_readInputs hinput, paths, first, hfirst,
    f, built, hbuild, hat, rfl⟩

/-- A merge of saved files, all of whose keys can be numbered, writes a file that
can be read back, unless it takes gigabytes, has too many containers or has none.
Whoever reads it finds the kept groups: each container has the fingerprint of its
group, and for every method the selected blobs in their order, which mean what
they meant in their own files. -/
theorem merge_preserves (hmerge : merge host files c = .ok (report, files') c')
    (houtput : c.options.file = some output)
    (hread : c.mergeInputs host files = .ok inputs)
    (hsaved : ∀ input ∈ inputs, ∃ bytes,
      files.at? input.path = some (.file bytes) ∧ Saved bytes)
    (hkeys : Merge.Numberable inputs) :
    (report.fileSize < 2 ^ 32 → 0 < report.keptGroups →
      report.keptGroups ≤ FileHeader.maxContainers →
      ∃ input ∈ inputs, ∃ merged, CacheFile.load files' output
        (some input.file.buildIdentity) = .ok merged) ∧
    ∀ expected merged, CacheFile.load files' output expected = .ok merged →
      List.Forall₂ (Merge.Keeps c.options inputs merged.space)
        (Merge.keptGroups c.options inputs.length (Merge.groups inputs))
        merged.containers := by
  rcases written_of_merge hmerge houtput hread with
    ⟨hloads, paths, first, hfirst, f, built, hbuild, hat, rfl⟩
  have hsound : ∀ input ∈ inputs, Merge.Input.Sound input := by
    intro input hinput
    rcases hsaved input hinput with ⟨bytes, hinputAt, h⟩
    exact Merge.Input.sound_of_saved (hloads input hinput) hinputAt h
  constructor
  · intro hsmall hsome hfew
    rcases hsaved first hfirst with ⟨bytes, hfirstAt, -⟩
    rcases (CacheFile.load_eq_ok_iff hfirstAt).mp (hloads first hfirst) with
      ⟨g, hdecode, hfile⟩
    have hidentity : NulFree first.file.buildIdentity := by
      rw [hfile]
      exact (CacheFile.clean_of_decode hdecode).1
    rcases Merge.storable_of_build hsound hkeys hbuild hidentity hsmall hsome hfew
      with ⟨hwell, hstorable⟩
    have hsame := (Merge.of_build hbuild).1
    exact ⟨first, hfirst, _, (CacheFile.load_eq_ok_iff hat).mpr
      ⟨_, CacheFile.decode_encode hwell hstorable (Or.inr (hsame ▸ rfl)), rfl⟩⟩
  · intro expected merged hload
    rcases (CacheFile.load_eq_ok_iff hat).mp hload with ⟨g, hdecode, rfl⟩
    have hkeeps := Merge.keeps_of_decode hsound hbuild hkeys hdecode
    exact hkeeps

/-!
Two processes save methods of one class. The second one has one method more, whose
key comes first in its metaspace, so that a copy has to be told by other indices
than the blob that it was made from.
-/

namespace Sample

def pair : World :=
  (world.defineMethod ⟨0⟩ "g" "()V").1

def naming (m : MethodId) : CompiledMethod :=
  Assembler.metadata (Assembler.start pair.host m) pair.host (.method ⟨0⟩) false

def saved (methods : List CompiledMethod) : Bytes :=
  match save pair.host {} methods (start (.forSave "a") 0) with
  | .ok (_, files) _ => (files.read? "a").getD []
  | .error _ _ => []

def one : Bytes :=
  saved [naming ⟨0⟩]

def two : Bytes :=
  saved [naming ⟨1⟩, naming ⟨0⟩]

def shelf : FileTree where
  nodes := [(["a.csa"], .file one), (["b.csa"], .file two),
    (["list"], .file (Utf8.encode "a.csa\nb.csa"))]

def merging : Cache :=
  start { Options.forMerge "all.csa" with inputListFile := some "list" } 0

theorem saved_saved {methods : List CompiledMethod}
    (h : okWith (fun done => decide (done.2.at? "a" = some (.file (saved methods))))
      (save pair.host {} methods (start (.forSave "a") 0)) = true) :
    Saved (saved methods) := by
  rcases of_okWith h with ⟨⟨report, files⟩, c, hsave, hat⟩
  exact .save (by decide) hsave rfl rfl (of_decide_eq_true hat)

theorem merging_eq : ∃ report files' c' inputs,
    merge pair.host shelf merging = .ok (report, files') c' ∧
    mergeInputs pair.host shelf merging = .ok inputs ∧
    inputs.map (·.path) = ["a.csa", "b.csa"] ∧ Merge.Numberable inputs ∧
    report.keptGroups = 1 ∧ report.fileSize < 2 ^ 32 := by
  have hmerge : okWith (fun done => decide (done.1.keptGroups = 1 ∧
      done.1.fileSize < 2 ^ 32)) (merge pair.host shelf merging) = true := by
    decide +kernel
  have hread : valueWith (fun inputs => decide (inputs.map (·.path) = ["a.csa", "b.csa"] ∧
      (inputs.map fun i => i.file.space.size).sum = 3))
        (mergeInputs pair.host shelf merging) = true := by
    decide +kernel
  rcases of_okWith hmerge with ⟨⟨report, files'⟩, c', hmerge, hreport⟩
  rcases of_valueWith hread with ⟨inputs, hread, hinputs⟩
  rcases of_decide_eq_true hreport with ⟨hkept, hsmall⟩
  rcases of_decide_eq_true hinputs with ⟨hpaths, hsize⟩
  refine ⟨report, files', c', inputs, hmerge, hread, hpaths, ?_, hkept, hsmall⟩
  unfold Merge.Numberable
  omega

theorem shelf_saved {path : String} (h : path ∈ ["a.csa", "b.csa"]) :
    ∃ bytes, shelf.at? path = some (.file bytes) ∧ Saved bytes := by
  rcases List.mem_cons.mp h with rfl | hsecond
  · exact ⟨one, by decide +kernel, saved_saved (by decide +kernel)⟩
  · rw [List.mem_singleton.mp hsecond]
    exact ⟨two, by decide +kernel, saved_saved (by decide +kernel)⟩

end Sample

theorem merge_preserves_two_saves :
    ∃ (report : MergeReport) (files' : FileTree) (c' : Cache)
      (inputs : List Merge.Input) (input : Merge.Input) (merged : CacheFile),
      merge Sample.pair.host Sample.shelf Sample.merging =
        .ok (report, files') c' ∧
      mergeInputs Sample.pair.host Sample.shelf Sample.merging = .ok inputs ∧
      report.keptGroups = 1 ∧
      CacheFile.load files' "all.csa" (some input.file.buildIdentity) =
        .ok merged ∧
      List.Forall₂ (Merge.Keeps Sample.merging.options inputs merged.space)
        (Merge.keptGroups Sample.merging.options inputs.length
          (Merge.groups inputs)) merged.containers := by
  rcases Sample.merging_eq with
    ⟨report, files', c', inputs, hmerge, hread, hpaths, hkeys, hkept, hsmall⟩
  have hsaved : ∀ input ∈ inputs, ∃ bytes,
      Sample.shelf.at? input.path = some (.file bytes) ∧ Saved bytes := by
    intro input hinput
    refine Sample.shelf_saved ?_
    rw [← hpaths]
    exact List.mem_map_of_mem hinput
  rcases merge_preserves hmerge rfl hread hsaved hkeys with ⟨hloads, hkeeps⟩
  rcases hloads hsmall (by omega) (by rw [hkept]; decide) with
    ⟨input, -, merged, hload⟩
  exact ⟨report, files', c', inputs, input, merged, hmerge, hread, hkept, hload,
    hkeeps _ _ hload⟩

end Cache

end CodeCache
