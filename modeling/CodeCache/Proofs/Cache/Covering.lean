import CodeCache.Proofs.Cache.Planning
import CodeCache.Proofs.Merge.Weighing

/-!
# The weight of a merged file

Groups are kept until enough files are covered. Where every file has one
container, the kept groups also have their share of everything that was seen.
-/

namespace CodeCache

namespace Cache

variable {host : Host} {files files' : FileTree} {c c' : Cache}
  {report : MergeReport} {inputs : List Merge.Input}

theorem reported_of_merge (hmerge : merge host files c = .ok (report, files') c')
    (hread : c.mergeInputs host files = .ok inputs) :
    Merge.Reported c.options inputs report := by
  rcases of_merge hmerge with ⟨-, hrun⟩
  rcases Merge.of_run hrun with ⟨_, _, _, _, _, size, -, hpaths, -, hbuild, -, rfl⟩
  unfold mergeInputs at hread
  rw [hpaths] at hread
  cases hread
  exact Merge.reported_of_build hbuild size

/-- Where every input has one container and the limit for containers is not
reached, the kept groups have their share of the weight of the inputs, unless a
group of few files was seen more often for each of them. If all files must be
covered, nothing is lost. -/
theorem merge_covers (hmerge : merge host files c = .ok (report, files') c')
    (hread : c.mergeInputs host files = .ok inputs)
    (hcoverage : c.options.coverage ≤ 100)
    (hlimit : report.keptGroups < c.options.maxContainers)
    (hversions : ∀ g ∈ Merge.groups inputs, ∀ m ∈ (Merge.collect inputs g).methods,
      m.versions.length ≤ c.options.maxVersions)
    (hsingle : ∀ input ∈ inputs, input.file.containers.length ≤ 1) :
    (∀ m ∈ report.containers.flatten, (m.versions.map (·.count)).sum = m.count) ∧
    (Merge.Proportionate c.options inputs →
      c.options.coverage * Merge.weight inputs ≤ report.weight * 100) ∧
    (c.options.coverage = 100 →
      report.keptGroups = report.groups ∧ report.weight = Merge.weight inputs) := by
  have hreported := reported_of_merge hmerge hread
  rw [hreported.keptGroups] at hlimit
  constructor
  · exact hreported.whole hversions
  constructor
  · intro hweights
    rw [hreported.weight_eq]
    exact Merge.share_of_keptGroups hsingle hlimit hcoverage hweights
  · intro hall
    have hsum := Merge.sum_kept_add_sum_dropped c.options inputs.length
      (Merge.groups inputs)
    simp only [Merge.droppedGroups_eq_nil hsingle hlimit hall, List.map_nil,
      List.sum_nil, Nat.add_zero] at hsum
    constructor
    · rw [hreported.keptGroups, hreported.groups]
      simpa using hsum fun _ => 1
    · rw [hreported.weight_eq]
      exact hsum (Merge.Group.weight inputs)

theorem merge_eq_of_orderly (hread : c.mergeInputs host files = .ok inputs)
    (h : Merge.Orderly inputs) :
    merge host files c = mergeWith Merge.orderlyPlan host files c := by
  apply merge_eq_mergeWith hread
  rw [h.plan_eq]
  exact List.forall₂_same.mpr fun p _ => Merge.Alike.refl p

/-!
A third process saves a method with objects aligned more widely, so that its file
has a container of another group. Without it, three of four versions are kept.
-/

namespace Sample

def wideHost : Host :=
  { pair.host with settings := { pair.host.settings with objectAlignment := 16 } }

def wide : Bytes :=
  match save wideHost {} [naming ⟨0⟩] (start (.forSave "a") 0) with
  | .ok (_, files) _ => (files.read? "a").getD []
  | .error _ _ => []

def mixedShelf : FileTree where
  nodes := [(["a.csa"], .file one), (["b.csa"], .file two), (["c.csa"], .file wide),
    (["list"], .file (Utf8.encode "a.csa\nb.csa\nc.csa")),
    (["again"], .file (Utf8.encode "all.csa"))]

def mergingMost : Cache :=
  start { Options.forMerge "all.csa" with
    inputListFile := some "list", coverage := 60 } 0

def merges (files : FileTree) (c : Cache)
    (test : MergeReport → FileTree → List Merge.Input → Bool) : Bool :=
  match mergeWith Merge.orderlyPlan pair.host files c,
    mergeInputs pair.host files c with
  | .ok (report, files') _, .ok inputs =>
    decide (Merge.Orderly inputs) && test report files' inputs
  | _, _ => false

theorem of_merges {test : MergeReport → FileTree → List Merge.Input → Bool}
    (h : merges files c test = true) :
    ∃ report files' c' inputs, merge pair.host files c = .ok (report, files') c' ∧
      mergeInputs pair.host files c = .ok inputs ∧ Merge.Orderly inputs ∧
      test report files' inputs = true := by
  unfold merges at h
  split at h
  · rename_i report files' c' inputs hmerge hread
    rw [Bool.and_eq_true] at h
    have horder := of_decide_eq_true h.1
    exact ⟨report, files', c', inputs,
      (merge_eq_of_orderly hread horder).trans hmerge, hread, horder, h.2⟩
  · cases h

end Sample

theorem merge_covers_two_of_three :
    ∃ (report : MergeReport) (files' : FileTree) (c' : Cache)
      (inputs : List Merge.Input),
      merge Sample.pair.host Sample.mixedShelf Sample.mergingMost =
        .ok (report, files') c' ∧
      mergeInputs Sample.pair.host Sample.mixedShelf Sample.mergingMost =
        .ok inputs ∧
      report.groups = 2 ∧ report.keptGroups = 1 ∧ Merge.weight inputs = 4 ∧
      60 * Merge.weight inputs ≤ report.weight * 100 := by
  have hdone : Sample.merges Sample.mixedShelf Sample.mergingMost
      (fun report _ inputs => decide
        (report.groups = 2 ∧ report.keptGroups = 1 ∧ Merge.weight inputs = 4 ∧
          (∀ g ∈ Merge.groups inputs, ∀ m ∈ (Merge.collect inputs g).methods,
            m.versions.length ≤ 16) ∧
          (∀ input ∈ inputs, input.file.containers.length ≤ 1) ∧
          ∀ k ∈ Merge.firstGroups Sample.mergingMost.options inputs,
            ∀ d ∈ (Merge.groups inputs).drop
              (Merge.firstGroups Sample.mergingMost.options inputs).length,
              d.weight inputs * k.fileCount ≤ k.weight inputs * d.fileCount)) =
      true := by
    decide +kernel
  rcases Sample.of_merges hdone with
    ⟨report, files', c, inputs, hmerge, hread, horder, htest⟩
  rcases of_decide_eq_true htest with
    ⟨hgroups, hkept, hweight, hversions, hsingle, hweights⟩
  have hlimit : report.keptGroups < Sample.mergingMost.options.maxContainers := by
    rw [hkept]
    decide
  rcases merge_covers hmerge hread (by decide) hlimit hversions hsingle with
    ⟨-, hshare, -⟩
  exact ⟨report, files', c, inputs, hmerge, hread, hgroups, hkept, hweight,
    hshare (horder.proportionate hweights)⟩

/-!
The merge of all three files has two containers. As an input it is one file, which
counts as covered with the first of them.
-/

namespace Sample

def mergingAgain : Cache :=
  start { Options.forMerge "again.csa" with inputListFile := some "again" } 0

end Sample

theorem remerge_loses_group :
    ∃ (first second : MergeReport) (files files' : FileTree) (c c' : Cache)
      (inputs : List Merge.Input),
      merge Sample.pair.host Sample.mixedShelf Sample.merging =
        .ok (first, files) c ∧
      first.groups = 2 ∧ first.keptGroups = 2 ∧
      merge Sample.pair.host files Sample.mergingAgain =
        .ok (second, files') c' ∧
      mergeInputs Sample.pair.host files Sample.mergingAgain = .ok inputs ∧
      Sample.mergingAgain.options.coverage = 100 ∧
      second.keptGroups < Sample.mergingAgain.options.maxContainers ∧
      (∀ g ∈ Merge.groups inputs, ∀ m ∈ (Merge.collect inputs g).methods,
        m.versions.length ≤ Sample.mergingAgain.options.maxVersions) ∧
      second.groups = 2 ∧ second.keptGroups = 1 ∧
      second.weight * 100 < 100 * Merge.weight inputs := by
  have hdone : Sample.merges Sample.mixedShelf Sample.merging
      (fun first files _ => decide (first.groups = 2 ∧ first.keptGroups = 2) &&
        Sample.merges files Sample.mergingAgain fun second _ inputs => decide
          (Sample.mergingAgain.options.coverage = 100 ∧
            second.keptGroups < Sample.mergingAgain.options.maxContainers ∧
            (∀ g ∈ Merge.groups inputs, ∀ m ∈ (Merge.collect inputs g).methods,
              m.versions.length ≤ Sample.mergingAgain.options.maxVersions) ∧
            second.groups = 2 ∧ second.keptGroups = 1 ∧
            second.weight * 100 < 100 * Merge.weight inputs)) = true := by
    decide +kernel
  rcases Sample.of_merges hdone with ⟨first, files, c, _, hfirst, -, -, htest⟩
  rw [Bool.and_eq_true] at htest
  rcases of_decide_eq_true htest.1 with ⟨hgroups, hkept⟩
  rcases Sample.of_merges htest.2 with
    ⟨second, files', c', inputs, hsecond, hread, -, hlost⟩
  exact ⟨first, second, files, files', c, c', inputs, hfirst, hgroups, hkept, hsecond,
    hread, of_decide_eq_true hlost⟩

end Cache

end CodeCache
