import CodeCache.Proofs.FileTree
import CodeCache.Proofs.Merge.Filling
import CodeCache.Proofs.Merge.Keeping

/-!
# The output of a merge

A merge reads its inputs, builds one file from them and writes it. Each container
of that file was filled for a group, so it has the fingerprint of a container of
the inputs and no more buckets than it needs.
-/

namespace CodeCache

namespace CacheFile

variable {files files' : FileTree} {path : String} {f : CacheFile}

theorem of_write {limit size : Nat}
    (h : f.write files path limit = .ok (files', size)) :
    files'.at? path = some (.file f.encode) ∧ size = f.encode.length := by
  unfold write at h
  dsimp only at h
  split at h
  · cases h
  · cases hwrite : files.write path f.encode with
    | none =>
        rw [hwrite] at h
        cases h
    | some written =>
        rw [hwrite] at h
        cases h
        exact ⟨FileTree.at?_write hwrite, rfl⟩

theorem load_none_of_load {expected : Option String}
    (h : load files path expected = .ok f) :
    load files path none = .ok f := by
  unfold load at h ⊢
  rcases of_bind_eq_ok h with ⟨bytes, hview, h⟩
  rcases of_bind_eq_ok h with ⟨file, hdecode, h⟩
  have hnone : decode bytes none = .ok file := by
    unfold decode at hdecode ⊢
    by_cases hshort : bytes.length < FileHeader.fixedSize
    · rw [if_pos hshort] at hdecode
      cases hdecode
    · rw [if_neg hshort] at hdecode ⊢
      rcases of_bind_eq_ok hdecode with ⟨header, hheader, hdecode⟩
      rcases of_bind_eq_ok hdecode with ⟨_, hcheck, hdecode⟩
      rcases of_bind_eq_ok hdecode with ⟨_, _, hdecode⟩
      rw [hheader]
      show (header.check bytes.length >>= fun _ => _) = _
      rw [hcheck]
      exact hdecode
  rw [hview]
  show (decode bytes none >>= fun _ => _) = _
  rw [hnone]
  exact h

end CacheFile

namespace Merge

variable {o : Options} {files files' : FileTree} {inputs : List Input}
  {file : CacheFile} {report : MergeReport}

theorem load_of_mem_readInputs {checkBuild : Bool} {identity : Option String}
    {paths : List String} {input : Input}
    (h : input ∈ readInputs files checkBuild identity paths) :
    CacheFile.load files input.path none = .ok input.file := by
  induction paths generalizing identity with
  | nil => cases h
  | cons path paths ih =>
      unfold readInputs at h
      split at h
      · exact ih h
      · rename_i loaded hload
        rcases List.mem_cons.mp h with rfl | hmem
        · exact CacheFile.load_none_of_load hload
        · exact ih hmem

theorem of_build {output identity : String} {paths : List String}
    (h : build o output paths inputs identity = .ok (file, report)) :
    file.buildIdentity = identity ∧
      report.keptGroups = (keptGroups o inputs.length (groups inputs)).length ∧
      copyGroups inputs {} ((keptGroups o inputs.length (groups inputs)).map
        fun g => (g, keep o inputs g)) = .ok (file.containers, file.space) := by
  unfold build at h
  dsimp only at h
  split at h
  · cases h
  · rcases of_bind_eq_ok h with ⟨⟨containers, space⟩, hcopy, hdone⟩
    cases hdone
    refine ⟨rfl, rfl, ?_⟩
    rw [List.map_prod_left_eq_zip]
    exact hcopy

theorem of_run {expected : Option String}
    (h : run o expected files = .ok (files', report)) :
    ∃ output paths first file built size,
      o.file = some output ∧ inputFiles o files = .ok paths ∧
      first ∈ readInputs files o.checkBuild expected paths ∧
      build o output paths (readInputs files o.checkBuild expected paths)
        first.file.buildIdentity = .ok (file, built) ∧
      file.write files output o.maxFileSize = .ok (files', size) ∧
      report = { built with fileSize := size } := by
  unfold run at h
  cases houtput : o.file with
  | none =>
      rw [houtput] at h
      cases h
  | some output =>
      rw [houtput] at h
      dsimp only at h
      rcases of_bind_eq_ok h with ⟨paths, hpaths, h⟩
      cases hfirst : (readInputs files o.checkBuild expected paths).head? with
      | none =>
          rw [hfirst] at h
          cases h
      | some first =>
          rw [hfirst] at h
          dsimp only at h
          rcases of_bind_eq_ok h with ⟨⟨file, built⟩, hbuild, h⟩
          rcases of_bind_eq_ok h with ⟨⟨written, size⟩, hwrite, hdone⟩
          cases hdone
          exact ⟨output, paths, first, file, built, size, rfl, hpaths,
            List.mem_of_head? hfirst, hbuild, hwrite, rfl⟩

theorem stocked_of_build {output identity : String} {paths : List String}
    (h : build o output paths inputs identity = .ok (file, report)) :
    ∀ c ∈ file.containers, ∃ input ∈ inputs, ∃ source ∈ input.file.containers,
      ∃ buckets count, buckets ≤ count + LookupTable.minBuckets ∧
        c.Stocked (fun _ => True) source.fingerprint buckets count := by
  have hcopy := (of_build h).2.2
  have hplaces : ∀ g ∈ (keptGroups o inputs.length (groups inputs)).map
      (fun g => (g, keep o inputs g)), ∀ k ∈ g.2, k.places ≠ [] := by
    intro g hg k hk
    rw [List.mem_map] at hg
    rcases hg with ⟨group, -, rfl⟩
    exact places_ne_nil_of_mem_keep hk
  intro c hc
  rcases exists_of_mem_right (copyGroups_stocked hplaces hcopy) hc with
    ⟨g, hg, hstocked⟩
  rw [List.mem_map] at hg
  rcases hg with ⟨group, hgroup, rfl⟩
  rcases (of_mem_keptGroups hgroup).first with ⟨⟨member, source⟩, hentry, heq⟩
  rcases mem_containersOf hentry with ⟨input, hinput, hsource⟩
  rw [← heq] at hstocked
  refine ⟨input, List.mem_of_getElem? hinput, source, List.mem_of_getElem? hsource,
    _, _, ?_, hstocked⟩
  exact Nat.max_le.mpr ⟨Nat.le_add_right _ _, Nat.le_add_left _ _⟩

end Merge

end CodeCache
