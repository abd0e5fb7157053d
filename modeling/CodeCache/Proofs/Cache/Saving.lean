import CodeCache.Cache.Save
import CodeCache.Proofs.Blob.Readback
import CodeCache.Proofs.Merge.Output
import CodeCache.Proofs.Merge.Keeping
import CodeCache.Proofs.Store.Reloading

/-!
# Saved files

A save adds the blobs of its methods, one by one, to a single container, which is
made when the first of them is added.
-/

namespace CodeCache

/-!
## One method
-/

inductive SavedTo (fingerprint : Fingerprint) : Nat → List Container → Prop where
  | nothing : SavedTo fingerprint 0 []
  | versions {n : Nat} {c : Container}
      (h : c.Stocked Blob.Image.OfMethod fingerprint LookupTable.minBuckets
        (n + 1)) :
      SavedTo fingerprint (n + 1) [c]

namespace SavedTo

variable {fingerprint : Fingerprint} {n : Nat} {containers : List Container}

theorem eq_nil (h : SavedTo fingerprint 0 containers) : containers = [] := by
  cases h
  rfl

theorem exists_stocked (h : SavedTo fingerprint n containers) (hn : 0 < n) :
    ∃ c, containers = [c] ∧
      c.Stocked Blob.Image.OfMethod fingerprint LookupTable.minBuckets n := by
  cases h with
  | nothing => exact absurd hn (Nat.lt_irrefl 0)
  | versions h => exact ⟨_, rfl, h⟩

theorem stocked_of_mem (h : SavedTo fingerprint n containers) {c : Container}
    (hc : c ∈ containers) :
    c.Stocked Blob.Image.OfMethod fingerprint LookupTable.minBuckets n := by
  cases h with
  | nothing => cases hc
  | versions h =>
      rw [List.mem_singleton.mp hc]
      exact h

end SavedTo

namespace Saving

variable {host : Host} {o : Options} {fingerprint : Fingerprint}
  {s s' : Saving} {nm : CompiledMethod}

theorem eq_of_skipAfter {e : Error} (h : s.skipAfter e = .ok s') :
    s' = s.skip := by
  unfold skipAfter at h
  split at h
  · cases h
    rfl
  · cases h

/-- What saving a method comes to: it is passed over, it is passed over after a
part of it was interned, or its blob is added. -/
theorem addMethod_cases (h : addMethod host o fingerprint s nm = .ok s') :
    (s' = s.skip ∧ (isEligible host nm = false ∨
      (∃ e, MetaKey.of host (.method nm.method) = .error e) ∨
      ∃ key, MetaKey.of host (.method nm.method) = .ok key ∧
        s.isFull o key = true)) ∨
    (∃ e space, nm.emit host s.file.space = .error e space ∧
      s' = skip { s with file := { s.file with space } }) ∨
    (∃ key blob space, nm.emit host s.file.space = .ok blob space ∧
      isEligible host nm = true ∧
      MetaKey.of host (.method nm.method) = .ok key ∧
      s.isFull o key = false ∧
      addBlob fingerprint key blob { s with file := { s.file with space } } =
        .ok s') := by
  unfold addMethod at h
  cases heligible : isEligible host nm with
  | false =>
      rw [heligible] at h
      cases h
      exact Or.inl ⟨rfl, Or.inl rfl⟩
  | true =>
      rw [heligible] at h
      cases hkey : MetaKey.of host (.method nm.method) with
      | error e =>
          rw [hkey] at h
          exact Or.inl ⟨eq_of_skipAfter h, Or.inr (Or.inl ⟨e, rfl⟩)⟩
      | ok key =>
          rw [hkey] at h
          cases hfull : s.isFull o key with
          | true =>
              dsimp only at h
              rw [hfull] at h
              cases h
              exact Or.inl ⟨rfl, Or.inr (Or.inr ⟨key, rfl, hfull⟩)⟩
          | false =>
              dsimp only at h
              rw [hfull] at h
              unfold CacheFile.inSpace at h
              cases hemit : nm.emit host s.file.space with
              | error e space =>
                  rw [hemit] at h
                  exact Or.inr (Or.inl ⟨e, space, rfl, eq_of_skipAfter h⟩)
              | ok blob space =>
                  rw [hemit] at h
                  exact Or.inr (Or.inr ⟨key, blob, space, rfl, rfl, rfl, hfull, h⟩)

theorem containerFor_cases {f : CacheFile} {n : Nat}
    (h : SavedTo fingerprint n f.containers) :
    ∃ c, (f.containers = [] ∧ c = .sized fingerprint 0 ∨ f.containers = [c]) ∧
      f.containerFor fingerprint = ({ f with containers := [c] }, 0) ∧
      c.Stocked Blob.Image.OfMethod fingerprint LookupTable.minBuckets n := by
  rcases f with ⟨path, buildIdentity, space, containers⟩
  dsimp only at h
  cases h with
  | nothing =>
      exact ⟨_, Or.inl ⟨rfl, rfl⟩, rfl, .of_sized _ fingerprint 0⟩
  | @versions n c h =>
      refine ⟨c, Or.inr rfl, ?_, h⟩
      have hsame : c.fingerprint.identical fingerprint = true := by
        rw [h.fingerprint_eq]
        exact fingerprint.identical_self
      unfold CacheFile.containerFor
      rw [List.findIdx?_cons, hsame]
      rfl

theorem addBlob_cases {key : MetaKey} {blob : EmittedBlob} {n : Nat}
    (hs : SavedTo fingerprint n s.file.containers)
    (h : addBlob fingerprint key blob s = .ok s') :
    ∃ c c' offset,
      (s.file.containers = [] ∧ c = .sized fingerprint 0 ∨
        s.file.containers = [c]) ∧
      c.Stocked Blob.Image.OfMethod fingerprint LookupTable.minBuckets n ∧
      c.addVersion blob.methodIndex (s.file.space.name blob.methodIndex)
        blob.bytes = .ok (c', offset) ∧
      s'.file = { s.file with containers := [c'] } ∧
      s'.report.versions = s.report.versions + 1 ∧
      s'.report.skipped = s.report.skipped ∧
      s'.versions =
        (key, s.versionsOf key + 1) :: s.versions.filter (·.1 != key) := by
  rcases containerFor_cases hs with ⟨c, hcontainer, hfor, hstocked⟩
  unfold addBlob at h
  rw [hfor] at h
  dsimp only at h
  rcases of_bind_eq_ok h with ⟨⟨file, offset⟩, hadd, hdone⟩
  rcases of_bind_eq_ok hadd with ⟨⟨c', offset'⟩, hversion, hset⟩
  cases hset
  cases hdone
  exact ⟨c, c', offset, hcontainer, hstocked, hversion, rfl, rfl, rfl, rfl⟩

theorem addMethod_savedTo
    (hs : SavedTo fingerprint s.report.versions s.file.containers)
    (h : addMethod host o fingerprint s nm = .ok s') :
    SavedTo fingerprint s'.report.versions s'.file.containers := by
  rcases addMethod_cases h with
    ⟨rfl, -⟩ | ⟨e, space, _, rfl⟩ | ⟨key, blob, space, hemit, -, -, -, hadd⟩
  · exact hs
  · exact hs
  · rcases addBlob_cases (s := { s with file := { s.file with space } }) hs
      hadd with
      ⟨c, c', offset, _, hstocked, hversion, hfile, hcount, -⟩
    rcases ((nm.emit_ensures host).ok_and_post trivial hemit).2 with
      ⟨content, hsound, -, -, hbytes⟩
    rw [hbytes] at hversion
    have hsize := Container.size_lt_of_addVersion hversion
    rw [← content.bytes_image] at hversion
    rw [hcount, hfile]
    exact .versions (hstocked.addVersion (Emit.Content.sound_image hsize)
      ⟨content, hsound, hsize, rfl⟩ hversion)

end Saving

/-!
## Whole saves
-/

namespace Cache

variable {host : Host} {files files' : FileTree}
  {methods : List CompiledMethod} {c c' : Cache} {report : SaveReport}

theorem eq_some_of_outputPath {o : Options} {path : String}
    (h : outputPath o = .ok path) :
    o.file = some path := by
  unfold outputPath at h
  split at h
  · rename_i path' heq
    cases h
    exact heq
  · cases h

theorem of_save (h : save host files methods c = .ok (report, files') c') :
    ∃ path, c.options.file = some path ∧
      ((c.isSampled = false ∧ report = {} ∧ files' = files) ∨
      (c.isSampled = true ∧ ∃ done bytes,
        methods.foldlM (Saving.addMethod host c.options
          (.capture host.settings))
          { file := { buildIdentity := host.buildIdentity }, stats := c.stats } =
            .ok done ∧
        done.file.write files path c.options.maxFileSize = .ok (files', bytes) ∧
        report =
          { done.report with methods := done.versions.length, bytes })) := by
  unfold save at h
  rcases of_bind_run h with ⟨_, _, hget, h⟩
  cases hget
  dsimp only at h
  split at h
  · cases h
  · rcases of_bind_run h with ⟨path, s, hpath, h⟩
    rcases of_ofExcept_run hpath with ⟨hpath, hs⟩
    rw [hs] at h
    refine ⟨path, eq_some_of_outputPath hpath, ?_⟩
    cases hsampled : c.isSampled with
    | false =>
        rw [hsampled] at h
        cases h
        exact Or.inl ⟨rfl, rfl, rfl⟩
    | true =>
        rw [hsampled] at h
        rcases of_bind_run h with ⟨done, s, hfold, h⟩
        rcases of_ofExcept_run hfold with ⟨hfold, -⟩
        rcases of_bind_run h with ⟨_, _, _, h⟩
        rcases of_bind_run h with ⟨⟨written, bytes⟩, _, hwrite, h⟩
        rcases of_ofExcept_run hwrite with ⟨hwrite, -⟩
        rcases of_bind_run h with ⟨_, _, _, h⟩
        cases h
        exact Or.inr ⟨rfl, done, bytes, hfold, hwrite, rfl⟩

theorem of_merge {merged : MergeReport}
    (h : merge host files c = .ok (merged, files') c') :
    c.options.merge = true ∧
      Merge.run c.options (if c.options.checkBuild then
        some host.buildIdentity else none) files = .ok (files', merged) := by
  unfold merge at h
  rcases of_bind_run h with ⟨_, _, hget, h⟩
  cases hget
  dsimp only at h
  cases hmerge : c.options.merge with
  | false =>
      rw [hmerge] at h
      cases h
  | true =>
      rw [hmerge] at h
      rcases of_bind_run h with ⟨⟨written, report⟩, _, hrun, h⟩
      rcases of_ofExcept_run hrun with ⟨hrun, -⟩
      rcases of_bind_run h with ⟨_, _, _, h⟩
      cases h
      exact ⟨rfl, hrun⟩

end Cache

/-- The contents of a file that was saved. No fingerprint takes gigabytes. -/
inductive Saved : Bytes → Prop where
  | save {host : Host} {files files' : FileTree}
      {methods : List CompiledMethod} {c c' : Cache} {report : SaveReport}
      {path : String} {bytes : Bytes}
      (hflags : host.settings.flags.length < 2 ^ 28)
      (hsave : Cache.save host files methods c = .ok (report, files') c')
      (hsampled : c.isSampled = true) (hpath : c.options.file = some path)
      (hat : files'.at? path = some (.file bytes)) :
      Saved bytes

namespace Saved

theorem length_capture_le (s : Settings) :
    (Fingerprint.capture s).flags.length ≤ s.flags.length := by
  unfold Fingerprint.capture Fingerprint.captureFlags
  dsimp only
  rw [List.length_map]
  refine Nat.le_trans (List.length_filter_le _ _) ?_
  rw [List.length_mapIdx]

variable {bytes : Bytes}

theorem exists_file (h : Saved bytes) :
    ∃ (f : CacheFile) (fingerprint : Fingerprint) (n : Nat), bytes = f.encode ∧
      fingerprint.flags.length < 2 ^ 28 ∧
      SavedTo fingerprint n f.containers := by
  cases h with
  | @save host _ _ methods c _ _ path _ hflags hsave hsampled hpath hat =>
      rcases Cache.of_save hsave with
        ⟨path', hpath', ⟨hnot, -⟩ | ⟨-, done, size, hfold, hwrite, -⟩⟩
      · rw [hsampled] at hnot
        cases hnot
      · rw [hpath] at hpath'
        cases hpath'
        rw [(CacheFile.of_write hwrite).1] at hat
        cases hat
        refine ⟨done.file, .capture host.settings, done.report.versions, rfl,
          Nat.lt_of_le_of_lt (length_capture_le host.settings) hflags, ?_⟩
        exact of_foldlM_eq_ok (P := fun s : Saving => SavedTo
            (.capture host.settings) s.report.versions s.file.containers)
          (fun _ _ _ _ hs hstep => Saving.addMethod_savedTo hs hstep) .nothing
          hfold

theorem of_decode (h : Saved bytes) {expected : Option String} {g : CacheFile}
    (hdecode : CacheFile.decode bytes expected = .ok g) :
    ∃ (fingerprint : Fingerprint) (n : Nat),
      fingerprint.flags.length < 2 ^ 28 ∧
      SavedTo fingerprint n g.containers := by
  rcases h.exists_file with ⟨f, fingerprint, n, rfl, hflags, hsaved⟩
  have hstorable : ∀ c ∈ f.containers, c.Storable := fun c hc =>
    (hsaved.stocked_of_mem hc).storable (Nat.le_add_left _ _) hflags
  rw [← CacheFile.containers_of_decode hstorable hdecode] at hsaved
  exact ⟨fingerprint, n, hflags, hsaved⟩

end Saved

end CodeCache
