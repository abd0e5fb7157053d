import CodeCache.Proofs.Merge.Weighing
import CodeCache.Proofs.Store.Reloading
import Mathlib.Algebra.BigOperators.Group.Finset.Piecewise
import Mathlib.Algebra.Order.BigOperators.Group.Finset

/-!
# How many files are covered

Groups are kept until enough files are covered, where the files of each group are
counted anew. So a file with containers in several kept groups counts once for each
of these.
-/

namespace CodeCache

theorem CacheFile.containers_ne_nil_of_load {files : FileTree} {path : String}
    {expected : Option String} {f : CacheFile}
    (h : load files path expected = .ok f) :
    f.containers ≠ [] := by
  rcases of_bind_eq_ok h with ⟨bs, -, h⟩
  rcases of_bind_eq_ok h with ⟨g, hdecode, hdone⟩
  have hne := containers_ne_nil_of_decode hdecode
  cases hdone
  exact hne

namespace Merge

variable {inputs : List Input} {o : Options} {gs : List Group} {g : Group}

def Group.files (g : Group) : List Nat :=
  g.members.map (·.1)

/-- The inputs with a container in some of the groups. -/
def filesOf (gs : List Group) : Finset Nat :=
  (gs.flatMap Group.files).toFinset

/-- How many of the groups have a container of the input. -/
def shares (gs : List Group) (file : Nat) : Nat :=
  gs.countP fun g => decide (file ∈ g.files)

theorem mem_filesOf {file : Nat} : file ∈ filesOf gs ↔ ∃ g ∈ gs, file ∈ g.files := by
  unfold filesOf
  rw [List.mem_toFinset, List.mem_flatMap]

/-!
## Members in order
-/

theorem mem_withoutRepeats {n : Nat} {ns : List Nat} :
    n ∈ withoutRepeats ns ↔ n ∈ ns := by
  induction ns with
  | nil => rfl
  | cons first ns ih =>
      cases ns with
      | nil => rfl
      | cons second ns =>
          unfold withoutRepeats
          split
          · rename_i hsame
            rw [ih, hsame]
            simp
          · rw [List.mem_cons, ih, List.mem_cons (a := n) (b := first)]

theorem nodup_withoutRepeats {ns : List Nat} (h : ns.Pairwise (· ≤ ·)) :
    (withoutRepeats ns).Nodup := by
  induction ns with
  | nil => exact List.nodup_nil
  | cons first ns ih =>
      rcases List.pairwise_cons.mp h with ⟨hfirst, hrest⟩
      cases ns with
      | nil => exact List.nodup_singleton first
      | cons second ns =>
          unfold withoutRepeats
          split
          · exact ih hrest
          · rename_i hne
            refine List.nodup_cons.mpr ⟨?_, ih hrest⟩
            rw [mem_withoutRepeats]
            intro hmem
            have hle := hfirst second List.mem_cons_self
            have hge : second ≤ first := by
              rcases List.mem_cons.mp hmem with rfl | hlater
              · exact Nat.le_refl _
              · exact (List.pairwise_cons.mp hrest).1 first hlater
            exact hne (Nat.le_antisymm hle hge)

/-- Repeats in order are neighbours, so every file is counted once. -/
theorem Group.fileCount_eq (h : g.files.Pairwise (· ≤ ·)) :
    g.fileCount = g.files.toFinset.card := by
  have hsame : g.files.toFinset = (withoutRepeats g.files).toFinset := by
    ext n
    rw [List.mem_toFinset, List.mem_toFinset, mem_withoutRepeats]
  rw [hsame, List.toFinset_card_of_nodup (nodup_withoutRepeats h)]
  rfl

theorem sublist_addToGroups {fingerprint : Fingerprint} {member : Nat × Nat}
    {members : List (Nat × Nat)} (h : ∀ g ∈ gs, g.members.Sublist members) :
    ∀ g ∈ addToGroups fingerprint member gs,
      g.members.Sublist (members ++ [member]) := by
  induction gs with
  | nil =>
      intro g hg
      rw [List.mem_singleton.mp hg]
      exact List.sublist_append_right members [member]
  | cons first gs ih =>
      rcases List.forall_mem_cons.mp h with ⟨hfirst, hrest⟩
      unfold addToGroups
      split
      · refine List.forall_mem_cons.mpr ⟨hfirst.append (List.Sublist.refl _), ?_⟩
        exact fun g hg => (hrest g hg).trans (List.sublist_append_left _ _)
      · refine List.forall_mem_cons.mpr ⟨?_, ih hrest⟩
        exact hfirst.trans (List.sublist_append_left _ _)

theorem sublist_groups (inputs : List Input) :
    ∀ g ∈ groups inputs, g.members.Sublist ((containersOf inputs).map (·.1)) := by
  refine groups_induction
    (P := fun entries gs => ∀ g ∈ gs, g.members.Sublist (entries.map (·.1))) nofun ?_
    inputs
  intro entries gs member c h
  rw [List.map_append]
  exact sublist_addToGroups h

theorem sorted_containersOf (inputs : List Input) :
    ((containersOf inputs).map (·.1.1)).Pairwise (· ≤ ·) := by
  unfold containersOf
  rw [List.pairwise_map, List.pairwise_flatten]
  have hmember : ∀ {f : Nat} {input : Input} {entry : (Nat × Nat) × Container},
      entry ∈ input.file.containers.mapIdx (fun n c => ((f, n), c)) →
        entry.1.1 = f := by
    intro f input entry hentry
    rcases List.mem_mapIdx.mp hentry with ⟨n, hn, rfl⟩
    rfl
  constructor
  · intro entries hentries
    rcases List.mem_mapIdx.mp hentries with ⟨f, hf, rfl⟩
    refine List.pairwise_of_forall_mem_list fun a ha b hb => ?_
    rw [hmember ha, hmember hb]
  · rw [List.pairwise_iff_getElem]
    intro i j hi hj hlt a ha b hb
    rw [List.getElem_mapIdx] at ha hb
    rw [hmember ha, hmember hb]
    exact Nat.le_of_lt hlt

theorem sorted_files (hg : g ∈ groups inputs) : g.files.Pairwise (· ≤ ·) := by
  have hsublist := (sublist_groups inputs g hg).map (·.1)
  rw [List.map_map] at hsublist
  exact (sorted_containersOf inputs).sublist hsublist

/-!
## Counting files
-/

theorem shares_cons (g : Group) (gs : List Group) (file : Nat) :
    shares (g :: gs) file = shares gs file + if file ∈ g.files then 1 else 0 := by
  unfold shares
  rw [List.countP_cons]
  simp

theorem shares_pos {file : Nat} (h : file ∈ filesOf gs) : 0 < shares gs file := by
  rcases mem_filesOf.mp h with ⟨g, hg, hfile⟩
  exact List.countP_pos_iff.mpr ⟨g, hg, decide_eq_true hfile⟩

/-- Counting the files of each group counts each file as often as groups share it. -/
theorem sum_fileCount (h : ∀ g ∈ gs, g.files.Pairwise (· ≤ ·)) {files : Finset Nat}
    (hfiles : filesOf gs ⊆ files) :
    (gs.map (·.fileCount)).sum = ∑ file ∈ files, shares gs file := by
  induction gs with
  | nil => simp [shares]
  | cons g gs ih =>
      rcases List.forall_mem_cons.mp h with ⟨hg, hgs⟩
      have hrest : filesOf gs ⊆ files := by
        intro file hfile
        rcases mem_filesOf.mp hfile with ⟨g', hg', hmem⟩
        exact hfiles (mem_filesOf.mpr ⟨g', List.mem_cons_of_mem g hg', hmem⟩)
      have hfirst : files.filter (· ∈ g.files) = g.files.toFinset := by
        ext file
        rw [Finset.mem_filter, List.mem_toFinset]
        refine and_iff_right_of_imp fun hmem => ?_
        exact hfiles (mem_filesOf.mpr ⟨g, List.mem_cons_self, hmem⟩)
      simp only [shares_cons, Finset.sum_add_distrib]
      rw [List.map_cons, List.sum_cons, ih hgs hrest, Group.fileCount_eq hg, ← hfirst,
        Finset.card_filter, Nat.add_comm]

theorem exists_mem_addToGroups {fingerprint : Fingerprint} {member m : Nat × Nat} :
    (∃ g ∈ addToGroups fingerprint member gs, m ∈ g.members) ↔
      m = member ∨ ∃ g ∈ gs, m ∈ g.members := by
  induction gs with
  | nil => simp [addToGroups]
  | cons g gs ih =>
      unfold addToGroups
      split
      · simp only [List.mem_cons, exists_eq_or_imp, List.mem_append, List.not_mem_nil,
          or_false]
        rw [or_assoc, or_left_comm]
      · simp only [List.mem_cons, exists_eq_or_imp, ih]
        rw [or_left_comm]

theorem exists_group_of_mem {member : Nat × Nat} {c : Container}
    (h : (member, c) ∈ containersOf inputs) :
    ∃ g ∈ groups inputs, member ∈ g.members :=
  foldl_reaches (P := fun _ => True)
    (Q := fun gs : List Group => ∃ g ∈ gs, member ∈ g.members)
    (fun _ _ _ _ => trivial)
    (fun _ _ _ _ h => exists_mem_addToGroups.mpr (Or.inr h)) trivial h
    (fun _ _ => exists_mem_addToGroups.mpr (Or.inl rfl))

theorem exists_group {file : Nat} {input : Input} (hinput : inputs[file]? = some input)
    (hne : input.file.containers ≠ []) :
    ∃ g ∈ groups inputs, file ∈ g.files := by
  rcases List.exists_mem_of_ne_nil _ hne with ⟨c, hc⟩
  rcases List.mem_iff_getElem.mp hc with ⟨n, hn, rfl⟩
  have hentry : ((file, n), input.file.containers[n]) ∈ containersOf inputs := by
    rcases List.getElem?_eq_some_iff.mp hinput with ⟨hfile, rfl⟩
    exact List.mem_flatten.mpr
      ⟨_, List.mem_mapIdx.mpr ⟨file, hfile, rfl⟩, List.mem_mapIdx.mpr ⟨n, hn, rfl⟩⟩
  rcases exists_group_of_mem hentry with ⟨g, hg, hmem⟩
  exact ⟨g, hg, List.mem_map_of_mem hmem⟩

theorem card_filesOf_le (gs : List Group) :
    (filesOf gs).card ≤ ∑ file ∈ filesOf gs, shares gs file := by
  rw [Finset.card_eq_sum_ones]
  exact Finset.sum_le_sum fun file hfile => shares_pos hfile

/-!
## Covered files
-/

def coveredFiles (o : Options) (inputs : List Input) : Finset Nat :=
  filesOf (keptGroups o inputs.length (groups inputs))

def keptShares (o : Options) (inputs : List Input) (file : Nat) : Nat :=
  shares (keptGroups o inputs.length (groups inputs)) file

theorem sum_keptShares (o : Options) (inputs : List Input) :
    ((keptGroups o inputs.length (groups inputs)).map (·.fileCount)).sum =
      ∑ file ∈ coveredFiles o inputs, keptShares o inputs file :=
  sum_fileCount (fun _ hg => sorted_files (mem_of_mem_keptGroups hg))
    (Finset.Subset.refl _)

section

variable (hloaded : ∀ input ∈ inputs, ∃ files path expected,
  CacheFile.load files path expected = .ok input.file)

include hloaded

theorem card_coveredFiles
    (hdropped : droppedGroups o inputs.length (groups inputs) = []) :
    (coveredFiles o inputs).card = inputs.length := by
  have happend := keptGroups_append_droppedGroups o inputs.length (groups inputs)
  rw [hdropped, List.append_nil] at happend
  have hperm : (keptGroups o inputs.length (groups inputs)).Perm (groups inputs) := by
    rw [happend]
    exact List.mergeSort_perm _ _
  have hall : coveredFiles o inputs = Finset.range inputs.length := by
    ext file
    unfold coveredFiles
    rw [mem_filesOf, Finset.mem_range]
    constructor
    · rintro ⟨g, hg, hfile⟩
      rcases List.mem_map.mp hfile with ⟨member, hmember, rfl⟩
      rcases (of_mem_keptGroups hg).members member hmember with ⟨c, hc, -⟩
      rcases mem_containersOf hc with ⟨input, hinput, -⟩
      exact (List.getElem?_eq_some_iff.mp hinput).1
    · intro hlt
      rcases hloaded _ (List.getElem_mem hlt) with ⟨files, path, expected, hload⟩
      rcases exists_group (List.getElem?_eq_getElem hlt)
        (CacheFile.containers_ne_nil_of_load hload) with ⟨g, hg, hfile⟩
      exact ⟨g, hperm.mem_iff.mpr hg, hfile⟩
  rw [hall, Finset.card_range]

/-- The kept groups have their share of the files if each file counts once for every
kept group with a container of it. So they have their share of the files themselves
where no kept groups have a file in common, and where no group is dropped. -/
theorem keptGroups_cover_files (hcoverage : o.coverage ≤ 100)
    (hlimit :
      (keptGroups o inputs.length (groups inputs)).length < o.maxContainers) :
    o.coverage * inputs.length ≤
        (∑ file ∈ coveredFiles o inputs, keptShares o inputs file) * 100 ∧
      ((∀ file ∈ coveredFiles o inputs, keptShares o inputs file = 1) ∨
          droppedGroups o inputs.length (groups inputs) = [] →
        o.coverage * inputs.length ≤ (coveredFiles o inputs).card * 100) := by
  by_cases hdropped : droppedGroups o inputs.length (groups inputs) = []
  · have hcard := card_coveredFiles hloaded hdropped
    have hall : o.coverage * inputs.length ≤ (coveredFiles o inputs).card * 100 := by
      rw [hcard, Nat.mul_comm]
      exact Nat.mul_le_mul_left _ hcoverage
    refine ⟨hall.trans (Nat.mul_le_mul_right _ ?_), fun _ => hall⟩
    exact card_filesOf_le _
  · have hcovered := covered_of_dropped hlimit hdropped
    rw [sum_keptShares] at hcovered
    refine ⟨hcovered, fun h => ?_⟩
    rcases h with hone | hnone
    · rwa [Finset.sum_congr rfl hone, ← Finset.card_eq_sum_ones] at hcovered
    · exact absurd hnone hdropped

end

namespace Sample

def withAlignments (alignments : List UInt32) : CacheFile :=
  alignments.foldl (fun f n => (f.containerFor (.capture { objectAlignment := n })).1)
    { buildIdentity := "" }

def shelf (alignments : List UInt32) : FileTree where
  nodes := [(["a.csa"], .file (withAlignments alignments).encode)]

def loaded (alignments : List UInt32) : CacheFile :=
  match CacheFile.load (shelf alignments) "a.csa" none with
  | .ok f => f
  | .error _ => { buildIdentity := "" }

def filesWith (alignments : List (List UInt32)) : List Input :=
  alignments.map fun as => { path := "a.csa", file := loaded as }

theorem load_of_mem_filesWith {alignments : List (List UInt32)}
    (h : ∀ as ∈ alignments, (CacheFile.load (shelf as) "a.csa" none).isOk = true) :
    ∀ input ∈ filesWith alignments, ∃ files path expected,
      CacheFile.load files path expected = .ok input.file := by
  intro input hinput
  rcases List.mem_map.mp hinput with ⟨as, has, rfl⟩
  refine ⟨shelf as, "a.csa", none, ?_⟩
  have hok := h as has
  unfold loaded
  cases hload : CacheFile.load (shelf as) "a.csa" none with
  | ok f => rfl
  | error e =>
      rw [hload] at hok
      cases hok

def apart : List Input :=
  filesWith [[8], [8], [16]]

def most : Options :=
  { coverage := 60 }

def shared : List Input :=
  filesWith [[8, 16], [32]]

end Sample

theorem keptGroups_cover_files_apart :
    (coveredFiles Sample.most Sample.apart).card = 2 ∧
      60 * Sample.apart.length ≤
        (coveredFiles Sample.most Sample.apart).card * 100 := by
  have horder : Orderly Sample.apart := by decide +kernel
  have hkept := horder.keptGroups_eq Sample.most
  have hcard : (coveredFiles Sample.most Sample.apart).card = 2 := by
    unfold coveredFiles
    rw [hkept]
    decide +kernel
  refine ⟨hcard, (keptGroups_cover_files (o := Sample.most) ?_ ?_ ?_).2 (Or.inl ?_)⟩
  · exact Sample.load_of_mem_filesWith (by decide +kernel)
  · decide
  · rw [hkept]
    decide +kernel
  · unfold coveredFiles keptShares
    rw [hkept]
    decide +kernel

/-- Two groups of one file are kept, and the group of the other file is dropped,
although all files must be covered and no limit is reached. -/
theorem keptGroups_cover_one_of_two :
    (∀ input ∈ Sample.shared, ∃ files path expected,
        CacheFile.load files path expected = .ok input.file) ∧
      ({} : Options).coverage = 100 ∧
      (keptGroups {} Sample.shared.length (groups Sample.shared)).length <
        ({} : Options).maxContainers ∧
      (coveredFiles {} Sample.shared).card * 100 <
        ({} : Options).coverage * Sample.shared.length := by
  have horder : Orderly Sample.shared := by decide +kernel
  have hkept := horder.keptGroups_eq {}
  refine ⟨Sample.load_of_mem_filesWith (by decide +kernel), rfl, ?_, ?_⟩
  · rw [hkept]
    decide +kernel
  · unfold coveredFiles
    rw [hkept]
    decide +kernel

end Merge

end CodeCache
