import CodeCache.Proofs.Cache.History

/-!
# Loading a file

A load that succeeds sets the file and the container in use, and nothing else.
Nothing of the file is resolved yet, and nothing is ruled out.
-/

namespace CodeCache.Cache

variable {host : Host} {files : FileTree} {c c₀ : Cache} {file : CacheFile}

def expectedBuild (host : Host) (o : Options) : Option String :=
  if o.checkBuild then some host.buildIdentity else none

theorem load_of_file_error {path : String} {e : Error}
    (hpath : outputPath c₀.options = .ok path)
    (hload : CacheFile.load files path (expectedBuild host c₀.options) =
      .error e) :
    load host files c₀ = .error e c₀ := by
  change (ofExcept (outputPath c₀.options) >>= fun path =>
    ofExcept (CacheFile.load files path (expectedBuild host c₀.options)) >>= _ :
      InCache Unit) c₀ = _
  rw [hpath]
  change (ofExcept (CacheFile.load files path _) >>= _ : InCache Unit) c₀ = _
  rw [hload]
  rfl

theorem load_of_file {path : String} (hpath : outputPath c₀.options = .ok path)
    (hload : CacheFile.load files path (expectedBuild host c₀.options) =
      .ok file) :
    load host files c₀ =
      (if c₀.options.printAssumptions then
        ofExcept file.printAssumptions >>= fun _ =>
          modify fun c : Cache => { c with file := some file }
      else modify fun c : Cache => { c with file := some file } : InCache Unit)
        { c₀ with container := file.selectContainer host.settings } := by
  change (ofExcept (outputPath c₀.options) >>= fun path =>
    ofExcept (CacheFile.load files path (expectedBuild host c₀.options)) >>= _ :
      InCache Unit) c₀ = _
  rw [hpath]
  change (ofExcept (CacheFile.load files path _) >>= _ : InCache Unit) c₀ = _
  rw [hload]
  rfl

theorem load_eq_ok_iff :
    load host files c₀ = .ok () c ↔ ∃ path file,
      outputPath c₀.options = .ok path ∧
      CacheFile.load files path (expectedBuild host c₀.options) = .ok file ∧
      (c₀.options.printAssumptions = true →
        ∃ listing, file.printAssumptions = .ok listing) ∧
      c = { c₀ with
        file := some file, container := file.selectContainer host.settings } := by
  constructor
  · intro h
    cases hpath : outputPath c₀.options with
    | error e =>
        change (ofExcept (outputPath c₀.options) >>= _ : InCache Unit) c₀ = _ at h
        rw [hpath] at h
        cases h
    | ok path =>
        cases hload : CacheFile.load files path (expectedBuild host c₀.options) with
        | error e =>
            rw [load_of_file_error hpath hload] at h
            cases h
        | ok file =>
            rw [load_of_file hpath hload] at h
            refine ⟨path, file, rfl, hload, ?_⟩
            cases hprint : c₀.options.printAssumptions with
            | false =>
                rw [hprint] at h
                cases h
                exact ⟨fun h => absurd h Bool.false_ne_true, rfl⟩
            | true =>
                rw [hprint, if_pos rfl] at h
                cases hlisting : file.printAssumptions with
                | error e =>
                    rw [hlisting] at h
                    cases h
                | ok listing =>
                    rw [hlisting] at h
                    cases h
                    exact ⟨fun _ => ⟨listing, rfl⟩, rfl⟩
  · rintro ⟨path, file, hpath, hload, hprint, rfl⟩
    rw [load_of_file hpath hload]
    split
    · rename_i hask
      rcases hprint hask with ⟨listing, hlisting⟩
      rw [hlisting]
      rfl
    · rfl

structure Loaded (c : Cache) (file : CacheFile) : Prop where
  file_eq : c.file = some file
  fresh : file.space.Fresh
  disabled_eq : c.disabled = []
  unusable_eq : c.unusable = []

namespace Loaded

theorem enabled (h : c.Loaded file) (m : MethodId) : c.isDisabled m = false := by
  unfold isDisabled
  rw [h.disabled_eq]
  rfl

theorem ruledOut_eq (h : c.Loaded file) (m : MethodId) : c.ruledOut m = [] := by
  unfold ruledOut
  rw [h.unusable_eq]
  rfl

end Loaded

theorem loaded_of_load {o : Options} {roll : Nat}
    (h : load host files (start o roll) = .ok () c) :
    c.options = o ∧ ∃ file, c.Loaded file := by
  rcases load_eq_ok_iff.mp h with ⟨path, file, _, hload, _, rfl⟩
  exact ⟨rfl, file, rfl, CacheFile.fresh_of_load hload, rfl, rfl⟩

end CodeCache.Cache
