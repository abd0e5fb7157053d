import CodeCache.Proofs.Cache.Merging
import CodeCache.Proofs.Merge.Planning

/-!
# Merges by another plan

What a merge answers only depends on what is kept of its inputs. So it can be told
from a plan that is easier to survey than its own.
-/

namespace CodeCache

namespace Cache

variable {host : Host} {files files' : FileTree} {c c' : Cache}
  {report : MergeReport} {inputs : List Merge.Input}

def mergeWith (plan : Options → List Merge.Input → List (Merge.Group × List Merge.Kept))
    (host : Host) (files : FileTree) : InCache (MergeReport × FileTree) := do
  let c ← get
  if !c.options.merge then
    throw (.config .mergeDisabled)
  let (files, report) ← ofExcept
    (Merge.runWith (plan c.options) c.options (expectedBuild host c.options) files)
  modify fun c => { c with stats := c.stats.recordTime .merge 0 }
  return (report, files)

theorem readInputs_of_mergeInputs (hread : c.mergeInputs host files = .ok inputs) :
    ∃ paths, Merge.inputFiles c.options files = .ok paths ∧
      inputs = Merge.readInputs files c.options.checkBuild
        (expectedBuild host c.options) paths := by
  unfold mergeInputs at hread
  cases hpaths : Merge.inputFiles c.options files with
  | error e =>
      rw [hpaths] at hread
      cases hread
  | ok paths =>
      rw [hpaths] at hread
      cases hread
      exact ⟨paths, rfl, rfl⟩

theorem merge_eq_mergeWith
    {plan : Options → List Merge.Input → List (Merge.Group × List Merge.Kept)}
    (hread : c.mergeInputs host files = .ok inputs)
    (h : List.Forall₂ Merge.Alike (Merge.plan c.options inputs)
      (plan c.options inputs)) :
    merge host files c = mergeWith plan host files c := by
  rcases readInputs_of_mergeInputs hread with ⟨paths, hpaths, rfl⟩
  have hrun := Merge.run_eq_runWith hpaths h
  change (if !c.options.merge then _ else
    (ofExcept (Merge.run c.options (expectedBuild host c.options) files) >>= _) :
      InCache (MergeReport × FileTree)) c = _
  rw [hrun]
  rfl

theorem of_merge_error {e : Error} (h : merge host files c = .error e c') :
    e = .config .mergeDisabled ∨
      Merge.run c.options (expectedBuild host c.options) files = .error e := by
  change (if !c.options.merge then _ else _ : InCache (MergeReport × FileTree)) c =
    .error e c' at h
  cases hmode : c.options.merge with
  | false =>
      rw [hmode] at h
      cases h
      exact Or.inl rfl
  | true =>
      rw [hmode] at h
      change (ofExcept (Merge.run c.options (expectedBuild host c.options) files) >>=
        _ : InCache (MergeReport × FileTree)) c = .error e c' at h
      cases hrun : Merge.run c.options (expectedBuild host c.options) files with
      | ok done =>
          rw [hrun] at h
          cases h
      | error e' =>
          rw [hrun] at h
          cases h
          exact Or.inr rfl

end Cache

end CodeCache
