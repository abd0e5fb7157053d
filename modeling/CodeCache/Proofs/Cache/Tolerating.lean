import CodeCache.Proofs.Cache.Planning
import CodeCache.Proofs.Merge.Surviving

/-!
# Malformed versions in the inputs of a merge

A version that cannot be read is left out of a merge, and all the others are
merged as if it were not there. A version can also be readable but have no room
for a copy of itself; only then do its contents make the whole merge fail.
-/

namespace CodeCache

namespace Cache

variable {host : Host} {files : FileTree} {c : Cache} {inputs : List Merge.Input}

/-- A merge whose inputs can be read does not fail because a version is
malformed: it comes out as if no chain of the inputs held one, and all others
can be copied. What is counted needs room for its tag streams, all keys must have
numbers, and a file must stay below four gigabytes. -/
theorem merge_tolerates_malformed
    (hread : c.mergeInputs host files = .ok inputs)
    (hroomy : Merge.RoomyInputs inputs) (hkeys : Merge.Numberable inputs)
    (hlimit : c.options.maxFileSize < 2 ^ 32) :
    (∀ fault c', merge host files c ≠ .error (.corruption fault) c') ∧
    merge host files c = mergeWith Merge.soundPlan host files c ∧
    ∀ space b, Merge.VersionOf inputs space b → Merge.Accepted space b →
      ∀ index merged, ∃ bytes merged',
        Merge.copyBlob space index b merged = .ok (bytes, merged') := by
  constructor
  · rcases readInputs_of_mergeInputs hread with ⟨paths, hpaths, rfl⟩
    intro fault c' h
    rcases of_merge_error h with hmode | hrun
    · cases hmode
    · exact (Merge.run_tolerates hpaths hroomy hkeys hlimit).ne_corruption fault hrun
  constructor
  · apply merge_eq_mergeWith hread
    exact Merge.plan_alike_soundPlan hkeys c.options
  · intro space b hb haccepted index merged
    exact hroomy.exists_copyBlob hb haccepted index merged

theorem merge_tolerates_malformed_of_two_saves :
    ∃ inputs : List Merge.Input,
      mergeInputs Sample.pair.host Sample.shelf Sample.merging = .ok inputs ∧
      (∀ fault c', merge Sample.pair.host Sample.shelf Sample.merging ≠
        .error (.corruption fault) c') ∧
      merge Sample.pair.host Sample.shelf Sample.merging =
        mergeWith Merge.soundPlan Sample.pair.host Sample.shelf Sample.merging ∧
      ∀ space b, Merge.VersionOf inputs space b → Merge.Accepted space b →
        ∀ index merged, ∃ bytes merged',
          Merge.copyBlob space index b merged = .ok (bytes, merged') := by
  rcases Sample.merging_eq with ⟨_, _, _, inputs, -, hread, -, hkeys, -, -⟩
  have hroomy : valueWith (fun inputs => decide (Merge.RoomyInputs inputs))
      (mergeInputs Sample.pair.host Sample.shelf Sample.merging) = true := by
    decide +kernel
  rw [hread] at hroomy
  exact ⟨inputs, hread, merge_tolerates_malformed hread (of_decide_eq_true hroomy)
    hkeys (by decide)⟩

/-!
The second file is changed where its first blob tells the length of its stream for
metadata. The stream still holds an end mark, which is all that a reader looks
for, but there is no room for the eight bytes that a writer makes of it.
-/

namespace Sample

def cutShelf : FileTree where
  nodes := [(["a.csa"], .file one),
    (["b.csa"], .file (two.overwrite 396 (Bytes.ofUInt32 4))),
    (["list"], .file (Utf8.encode "a.csa\nb.csa"))]

def isCut : Error → Bool
  | .corruption (.reindexedSize 8 4) => true
  | _ => false

theorem eq_of_isCut {e : Error} (h : isCut e = true) :
    e = .corruption (.reindexedSize 8 4) := by
  unfold isCut at h
  split at h
  · rfl
  · cases h

def copyFails (v : MetaSpace × Blob) : Bool :=
  match Merge.copyBlob v.1 0 v.2 {} with
  | .error e => isCut e
  | .ok _ => false

theorem copyBlob_eq_of_copyFails {space : MetaSpace} {b : Blob}
    (h : copyFails (space, b) = true) :
    Merge.copyBlob space 0 b {} = .error (.corruption (.reindexedSize 8 4)) := by
  unfold copyFails at h
  cases hcopy : Merge.copyBlob space 0 b {} with
  | error e =>
      rw [hcopy] at h
      rw [eq_of_isCut h]
  | ok copied =>
      rw [hcopy] at h
      cases h

end Sample

/-- Both files can be read, every version of them is counted, and one of them makes
the merge fail. -/
theorem merge_fails_of_cut_section :
    ∃ (inputs : List Merge.Input) (c' : Cache),
      mergeInputs Sample.pair.host Sample.cutShelf Sample.merging = .ok inputs ∧
      inputs.map (·.path) = ["a.csa", "b.csa"] ∧
      (∀ space b, Merge.VersionOf inputs space b → Merge.Accepted space b) ∧
      (∃ space b, Merge.VersionOf inputs space b ∧
        Merge.copyBlob space 0 b {} = .error (.corruption (.reindexedSize 8 4))) ∧
      merge Sample.pair.host Sample.cutShelf Sample.merging =
        .error (.corruption (.reindexedSize 8 4)) c' := by
  have hread : valueWith (fun inputs => decide
      (inputs.map (·.path) = ["a.csa", "b.csa"] ∧
        (∀ v ∈ Merge.versionsOf inputs, Merge.isCountable v.1 v.2 = true) ∧
        ∃ v ∈ Merge.versionsOf inputs, Sample.copyFails v = true))
      (mergeInputs Sample.pair.host Sample.cutShelf Sample.merging) = true := by
    decide +kernel
  have hmerge : errorWith Sample.isCut
      (merge Sample.pair.host Sample.cutShelf Sample.merging) = true := by
    decide +kernel
  rcases of_valueWith hread with ⟨inputs, hread, hinputs⟩
  rcases of_decide_eq_true hinputs with ⟨hpaths, hcountable, ⟨⟨space, b⟩, hb, hfails⟩⟩
  rcases of_errorWith hmerge with ⟨e, c, hmerge, hcut⟩
  rw [Sample.eq_of_isCut hcut] at hmerge
  refine ⟨inputs, c, hread, hpaths, ?_, ?_, hmerge⟩
  · intro space b hb
    have hcounted := hcountable (space, b) (Merge.mem_versionsOf.mpr hb)
    exact ⟨0, [], Merge.isCountable_iff.mp hcounted 0 []⟩
  · exact ⟨space, b, Merge.mem_versionsOf.mp hb, Sample.copyBlob_eq_of_copyFails hfails⟩

end Cache

end CodeCache
