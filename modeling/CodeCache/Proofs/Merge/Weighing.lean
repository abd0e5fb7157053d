import CodeCache.Proofs.Merge.Planning
import Mathlib.Algebra.BigOperators.Ring.List
import Mathlib.Tactic.Ring

/-!
# How much of the inputs a merge keeps

A merge keeps groups until enough files are covered. What it loses can be told in
files, and also in how often versions were seen. This module relates the two.
-/

namespace CodeCache

namespace MethodVersions

variable {m : MethodVersions} {versions versions' : List MethodVersion} {limit : Nat}

/-!
## Versions
-/

theorem sum_of_countOne? {test : MethodVersion → Bool}
    (h : countOne? test versions = some versions') :
    (versions'.map (·.count)).sum = (versions.map (·.count)).sum + 1 := by
  rcases countOne?_eq_some h with ⟨front, v, back, rfl, -, rfl⟩
  simp only [List.map_append, List.map_cons, List.sum_append, List.sum_cons]
  omega

theorem keptCount_eq_sum (m : MethodVersions) :
    m.keptCount = (m.versions.map (·.count)).sum :=
  rfl

theorem keptCount_add (m : MethodVersions) (speculations : List Speculation)
    (dependencies : List Dependency) (place : BlobPlace) :
    (m.add speculations dependencies place).keptCount = m.keptCount + 1 := by
  rw [keptCount_eq_sum, keptCount_eq_sum]
  unfold MethodVersions.add
  dsimp only
  split
  · rename_i versions hcount
    exact sum_of_countOne? hcount
  · simp

theorem combineDown_of_length_le {method : UInt32} (h : versions.length ≤ limit)
    (i : Nat) :
    combineDown method limit i versions = versions := by
  cases i with
  | zero => rfl
  | succ i =>
      unfold combineDown
      rw [if_pos h]

theorem keptCount_selectBest (policy : MergePolicy)
    (h : m.versions.length ≤ limit) :
    (m.selectBest policy limit).keptCount = m.keptCount := by
  have hranked : ∀ vs : List MethodVersion, vs.Perm m.versions →
      (((ranked vs).take limit).map (·.count)).sum = m.keptCount := by
    intro vs hvs
    have hperm : (ranked vs).Perm m.versions :=
      (List.mergeSort_perm vs rankedBefore).trans hvs
    rw [List.take_of_length_le (hperm.length_eq ▸ h)]
    exact (hperm.map _).sum_eq
  unfold selectBest
  cases policy with
  | simple => exact hranked _ (List.Perm.refl _)
  | coverage =>
      have hperm := List.mergeSort_perm m.versions rankedBefore
      unfold combine
      dsimp only
      rw [combineDown_of_length_le (show (ranked m.versions).length ≤ limit from
        hperm.length_eq ▸ h)]
      exact hranked _ hperm

end MethodVersions

namespace Merge

namespace Collected

variable {s : Collected}

/-!
## Collected methods
-/

theorem methods_numbering {α : Type} (s : Collected) (work : Numbering α) :
    (s.numbering work).2.methods = s.methods := by
  unfold numbering
  split <;> rfl

section

variable {P : MethodVersions → Prop} (hempty : ∀ n, P { method := n })
  (hadd : ∀ m speculations dependencies place, P m →
    P (m.add speculations dependencies place))

include hempty hadd

theorem forall_addBlob (hs : ∀ m ∈ s.methods, P m) (space : MetaSpace)
    (member : Nat × Nat) (method : UInt32) (b : Blob) :
    ∀ m ∈ (s.addBlob space member method b).methods, P m := by
  have hmethods := s.methods_numbering (normalize space method b)
  unfold addBlob
  cases hresult : s.numbering (normalize space method b) with
  | mk result s' =>
      rw [hresult] at hmethods
      dsimp only at hmethods
      cases result with
      | error e => exact hmethods ▸ hs
      | ok answer =>
          intro m hm
          dsimp only at hm
          rw [hmethods] at hm
          rcases mem_changeMethod hm with hold | ⟨m₀, hm₀, -, rfl⟩ | rfl
          · exact hs m hold
          · exact hadd m₀ _ _ _ (hs m₀ hm₀)
          · exact hadd _ _ _ _ (hempty method)

theorem forall_addChain (hs : ∀ m ∈ s.methods, P m) (space : MetaSpace)
    (member : Nat × Nat) (method : UInt32) (blobs : List (Except Error Blob)) :
    ∀ m ∈ (addChain space member method s blobs).methods, P m := by
  induction blobs generalizing s with
  | nil => exact hs
  | cons blob blobs ih =>
      cases blob with
      | error e => exact hs
      | ok b =>
          apply ih
          exact forall_addBlob hempty hadd hs space member method b

theorem forall_addMethod (hs : ∀ m ∈ s.methods, P m) (space : MetaSpace)
    (member : Nat × Nat) (c : Container) (entry : UInt32 × UInt32) :
    ∀ m ∈ (addMethod space member c s entry).methods, P m := by
  unfold addMethod
  split
  · exact hs
  · rename_i key hkey
    have hmethods := s.methods_numbering (number key)
    split
    · rename_i s' hresult
      rw [hresult] at hmethods
      exact hmethods ▸ hs
    · rename_i method s' hresult
      rw [hresult] at hmethods
      apply forall_addChain hempty hadd
      exact hmethods ▸ hs

theorem forall_addMember (inputs : List Input) (hs : ∀ m ∈ s.methods, P m)
    (member : Nat × Nat) :
    ∀ m ∈ (addMember inputs s member).methods, P m := by
  unfold addMember
  split
  · exact hs
  · split
    · exact hs
    · rename_i c _
      exact List.foldlRecOn c.methods _
        (motive := fun s : Collected => ∀ m ∈ s.methods, P m) hs
        fun s hs entry _ => forall_addMethod hempty hadd hs _ member _ entry

theorem forall_collect (inputs : List Input) (g : Group) :
    ∀ m ∈ (collect inputs g).methods, P m :=
  List.foldlRecOn g.members _
    (motive := fun s : Collected => ∀ m ∈ s.methods, P m)
    (fun _ hm => absurd hm List.not_mem_nil)
    fun _ hs member _ => forall_addMember hempty hadd inputs hs member

end

end Collected

variable {o : Options} {inputs : List Input} {g : Group} {gs : List Group}

theorem keptCount_of_mem_collect {m : MethodVersions}
    (h : m ∈ (collect inputs g).methods) :
    m.keptCount = m.count := by
  revert m
  apply Collected.forall_collect (P := fun m => m.keptCount = m.count)
  · intro n
    rfl
  · intro m speculations dependencies place hm
    rw [MethodVersions.keptCount_add, hm]
    rfl

theorem counts_keep (o : Options) (inputs : List Input) (g : Group) :
    (keep o inputs g).map (·.versions.count) =
      (collect inputs g).methods.map (·.count) := by
  have hproper := collect_proper inputs g
  have hkeyed : ∀ m ∈ (collect inputs g).methods,
      ∃ key, (collect inputs g).keys[m.method.toNat]? = some key := by
    intro m hm
    rcases List.exists_mem_of_ne_nil _ (hproper.versions_ne_nil m hm) with ⟨v, hv⟩
    rcases (hproper.counted m hm).places v hv with ⟨key, ⟨n, hn, hsame⟩, -⟩
    have hlt : m.method.toNat < (collect inputs g).keys.length := by
      rw [← hsame, UInt32.toNat_ofNat']
      exact Nat.lt_of_le_of_lt (Nat.mod_le n _) (List.getElem?_eq_some_iff.mp hn).1
    exact ⟨_, List.getElem?_eq_getElem hlt⟩
  unfold keep
  dsimp only
  rw [List.map_filterMap, ← List.filterMap_eq_map]
  apply List.filterMap_congr
  intro m hm
  rcases hkeyed m hm with ⟨key, hkey⟩
  rw [hkey]
  rfl

/-!
## Groups and files
-/

theorem length_withoutRepeats_le (ns : List Nat) :
    (withoutRepeats ns).length ≤ ns.length := by
  induction ns with
  | nil => exact Nat.le_refl 0
  | cons m ns ih =>
      cases ns with
      | nil => exact Nat.le_refl 1
      | cons n ns =>
          unfold withoutRepeats
          split
          · exact Nat.le_succ_of_le ih
          · exact Nat.succ_le_succ ih

theorem withoutRepeats_ne_nil {ns : List Nat} (h : ns ≠ []) :
    withoutRepeats ns ≠ [] := by
  induction ns with
  | nil => exact absurd rfl h
  | cons m ns ih =>
      cases ns with
      | nil => exact h
      | cons n ns =>
          unfold withoutRepeats
          split
          · exact ih (List.cons_ne_nil n ns)
          · exact List.cons_ne_nil _ _

theorem Group.fileCount_le (g : Group) :
    g.fileCount ≤ g.members.length := by
  unfold fileCount
  simpa using length_withoutRepeats_le (g.members.map (·.1))

theorem Group.fileCount_pos (h : g.members ≠ []) : 0 < g.fileCount := by
  unfold fileCount
  apply List.length_pos_iff.mpr
  apply withoutRepeats_ne_nil
  simpa using h

theorem sum_members_addToGroups (fingerprint : Fingerprint) (member : Nat × Nat)
    (gs : List Group) :
    ((addToGroups fingerprint member gs).map (·.members.length)).sum =
      (gs.map (·.members.length)).sum + 1 := by
  induction gs with
  | nil => rfl
  | cons g gs ih =>
      unfold addToGroups
      split
      · simp only [List.map_cons, List.sum_cons, List.length_append,
          List.length_singleton]
        omega
      · simp only [List.map_cons, List.sum_cons, ih]
        omega

theorem members_addToGroups {fingerprint : Fingerprint} {member : Nat × Nat}
    (h : ∀ g ∈ gs, g.members ≠ []) :
    ∀ g ∈ addToGroups fingerprint member gs, g.members ≠ [] := by
  induction gs with
  | nil => simp [addToGroups]
  | cons first gs ih =>
      rcases List.forall_mem_cons.mp h with ⟨hfirst, hrest⟩
      unfold addToGroups
      split
      · simpa using hrest
      · exact List.forall_mem_cons.mpr ⟨hfirst, ih hrest⟩

theorem sum_members_groups (inputs : List Input) :
    ((groups inputs).map (·.members.length)).sum =
      (inputs.map (·.file.containers.length)).sum := by
  have hsum := groups_induction
    (P := fun entries gs => (gs.map (·.members.length)).sum = entries.length) rfl
    (fun entries gs member c h => by
      rw [sum_members_addToGroups, h, List.length_append, List.length_singleton]) inputs
  have hlength : (containersOf inputs).length =
      (inputs.map (·.file.containers.length)).sum := by
    unfold containersOf
    rw [List.length_flatten]
    congr 1
    apply List.ext_getElem <;> simp
  exact hsum.trans hlength

theorem members_groups (inputs : List Input) :
    ∀ g ∈ groups inputs, g.members ≠ [] :=
  List.foldlRecOn (containersOf inputs) _
    (motive := fun gs : List Group => ∀ g ∈ gs, g.members ≠ [])
    (fun _ hg => absurd hg List.not_mem_nil)
    fun _ hgs _ _ => members_addToGroups hgs

/-!
## Kept and dropped groups
-/

def rankedGroups (gs : List Group) : List Group :=
  gs.mergeSort fun a b => decide (b.fileCount ≤ a.fileCount)

def droppedGroups (o : Options) (inputCount : Nat) (gs : List Group) :
    List Group :=
  (rankedGroups gs).drop (keptGroups o inputCount gs).length

/-- Covering stops at the end, at as many containers as allowed, or when enough
files are covered. -/
theorem exists_rest_of_coveringGroups (o : Options) (inputCount covered kept : Nat)
    (gs : List Group) :
    ∃ rest, coveringGroups o inputCount covered kept gs ++ rest = gs ∧
      (rest = [] ∨
        o.maxContainers ≤
          kept + (coveringGroups o inputCount covered kept gs).length ∨
        o.coverage * inputCount ≤ (covered +
          ((coveringGroups o inputCount covered kept gs).map (·.fileCount)).sum) *
            100) := by
  induction gs generalizing covered kept with
  | nil => exact ⟨[], rfl, Or.inl rfl⟩
  | cons g gs ih =>
      unfold coveringGroups
      split
      · rename_i hstop
        refine ⟨g :: gs, rfl, Or.inr ?_⟩
        simpa using hstop
      · rcases ih (covered + g.fileCount) (kept + 1) with ⟨rest, hrest, hstop⟩
        refine ⟨rest, congrArg (g :: ·) hrest, ?_⟩
        simp only [List.length_cons, List.map_cons, List.sum_cons]
        rw [Nat.add_assoc, Nat.add_comm 1] at hstop
        rw [Nat.add_assoc covered] at hstop
        exact hstop

theorem keptGroups_append_droppedGroups (o : Options) (inputCount : Nat)
    (gs : List Group) :
    keptGroups o inputCount gs ++ droppedGroups o inputCount gs =
      rankedGroups gs := by
  rcases exists_rest_of_coveringGroups o inputCount 0 0 (rankedGroups gs) with
    ⟨rest, hrest, -⟩
  change keptGroups o inputCount gs ++ rest = rankedGroups gs at hrest
  unfold droppedGroups
  rw [← hrest, List.drop_left]

/-- Unless there are as many containers as allowed, groups are only dropped when
enough files are covered. -/
theorem covered_of_dropped {inputCount : Nat}
    (hlimit : (keptGroups o inputCount gs).length < o.maxContainers)
    (hdropped : droppedGroups o inputCount gs ≠ []) :
    o.coverage * inputCount ≤
      ((keptGroups o inputCount gs).map (·.fileCount)).sum * 100 := by
  rcases exists_rest_of_coveringGroups o inputCount 0 0 (rankedGroups gs) with
    ⟨rest, hrest, hstop⟩
  change keptGroups o inputCount gs ++ rest = rankedGroups gs at hrest
  rcases hstop with rfl | hmany | hcovered
  · rw [← keptGroups_append_droppedGroups o inputCount gs] at hrest
    exact absurd (List.append_cancel_left hrest).symm hdropped
  · rw [Nat.zero_add] at hmany
    exact absurd hlimit (Nat.not_lt.mpr hmany)
  · rw [Nat.zero_add] at hcovered
    exact hcovered

/-!
## Weights
-/

/-- How often versions were seen in the containers of a group. -/
def Group.weight (inputs : List Input) (g : Group) : Nat :=
  ((collect inputs g).methods.map (·.count)).sum

def weight (inputs : List Input) : Nat :=
  ((groups inputs).map (Group.weight inputs)).sum

/-- No dropped group was seen more often, for each of its files, than a kept one
was for each of its own. -/
def Proportionate (o : Options) (inputs : List Input) : Prop :=
  ∀ k ∈ keptGroups o inputs.length (groups inputs),
    ∀ d ∈ droppedGroups o inputs.length (groups inputs),
      d.weight inputs * k.fileCount ≤ k.weight inputs * d.fileCount

theorem sum_kept_add_sum_dropped (o : Options) (inputCount : Nat) (gs : List Group)
    (f : Group → Nat) :
    ((keptGroups o inputCount gs).map f).sum +
      ((droppedGroups o inputCount gs).map f).sum = (gs.map f).sum := by
  rw [← List.sum_append, ← List.map_append, keptGroups_append_droppedGroups]
  exact ((List.mergeSort_perm gs _).map f).sum_eq

theorem sum_mul_sum_le {α : Type} {f w : α → Nat} {ks ds : List α}
    (h : ∀ k ∈ ks, ∀ d ∈ ds, w d * f k ≤ w k * f d) :
    (ds.map w).sum * (ks.map f).sum ≤ (ks.map w).sum * (ds.map f).sum := by
  have hone : ∀ k ∈ ks, (ds.map w).sum * f k ≤ w k * (ds.map f).sum := by
    intro k hk
    rw [← List.sum_map_mul_right, ← List.sum_map_mul_left]
    exact List.sum_le_sum (h k hk)
  rw [← List.sum_map_mul_left, ← List.sum_map_mul_right]
  exact List.sum_le_sum hone

theorem share_of_weight {coverage kept dropped keptWeight droppedWeight : Nat}
    (hcoverage : coverage ≤ 100) (hdropped : 0 < dropped)
    (hcovered : coverage * (kept + dropped) ≤ kept * 100)
    (hcross : droppedWeight * kept ≤ keptWeight * dropped) :
    coverage * (keptWeight + droppedWeight) ≤ keptWeight * 100 := by
  rcases Nat.exists_eq_add_of_le hcoverage with ⟨rest, hrest⟩
  rw [hrest, Nat.mul_add, Nat.mul_add, Nat.mul_comm kept coverage] at hcovered
  have hfiles : coverage * dropped ≤ kept * rest := Nat.le_of_add_le_add_left hcovered
  have hlost : coverage * droppedWeight ≤ keptWeight * rest := by
    apply Nat.le_of_mul_le_mul_right _ hdropped
    calc coverage * droppedWeight * dropped
        = coverage * dropped * droppedWeight := Nat.mul_right_comm _ _ _
      _ ≤ kept * rest * droppedWeight := Nat.mul_le_mul_right _ hfiles
      _ = droppedWeight * kept * rest := by ring
      _ ≤ keptWeight * dropped * rest := Nat.mul_le_mul_right _ hcross
      _ = keptWeight * rest * dropped := Nat.mul_right_comm _ _ _
  rw [hrest, Nat.mul_add, Nat.mul_add, Nat.mul_comm keptWeight coverage]
  exact Nat.add_le_add_left hlost _

section

variable (hsingle : ∀ input ∈ inputs, input.file.containers.length ≤ 1)

include hsingle

theorem sum_fileCount_le :
    ((groups inputs).map (·.fileCount)).sum ≤ inputs.length := by
  calc ((groups inputs).map (·.fileCount)).sum
      ≤ ((groups inputs).map (·.members.length)).sum :=
        List.sum_le_sum fun g _ => g.fileCount_le
    _ = (inputs.map (·.file.containers.length)).sum := sum_members_groups inputs
    _ ≤ (inputs.map fun _ => 1).sum := List.sum_le_sum hsingle
    _ = inputs.length := by simp

variable (hlimit :
  (keptGroups o inputs.length (groups inputs)).length < o.maxContainers)

include hlimit

theorem share_of_files
    (hdropped : droppedGroups o inputs.length (groups inputs) ≠ []) :
    0 < ((droppedGroups o inputs.length (groups inputs)).map (·.fileCount)).sum ∧
      o.coverage *
          (((keptGroups o inputs.length (groups inputs)).map (·.fileCount)).sum +
            ((droppedGroups o inputs.length (groups inputs)).map
              (·.fileCount)).sum) ≤
        ((keptGroups o inputs.length (groups inputs)).map (·.fileCount)).sum *
          100 := by
  constructor
  · rcases List.exists_mem_of_ne_nil _ hdropped with ⟨d, hd⟩
    have hmem : d ∈ groups inputs := by
      apply (List.mergeSort_perm (groups inputs) _).mem_iff.mp
      exact List.mem_of_mem_drop hd
    apply Nat.lt_of_lt_of_le (Group.fileCount_pos (members_groups inputs d hmem))
    exact List.le_sum_of_mem (List.mem_map_of_mem hd)
  · rw [sum_kept_add_sum_dropped]
    exact Nat.le_trans (Nat.mul_le_mul_left _ (sum_fileCount_le hsingle))
      (covered_of_dropped hlimit hdropped)

theorem share_of_keptGroups (hcoverage : o.coverage ≤ 100)
    (hweights : Proportionate o inputs) :
    o.coverage * weight inputs ≤
      ((keptGroups o inputs.length (groups inputs)).map
        (Group.weight inputs)).sum * 100 := by
  have hsum := sum_kept_add_sum_dropped o inputs.length (groups inputs)
    (Group.weight inputs)
  unfold weight
  rw [← hsum]
  by_cases hdropped : droppedGroups o inputs.length (groups inputs) = []
  · rw [hdropped, Nat.mul_comm]
    exact Nat.mul_le_mul_left _ hcoverage
  · rcases share_of_files hsingle hlimit hdropped with ⟨hpos, hcovered⟩
    exact share_of_weight hcoverage hpos hcovered (sum_mul_sum_le hweights)

theorem droppedGroups_eq_nil (hcoverage : o.coverage = 100) :
    droppedGroups o inputs.length (groups inputs) = [] := by
  by_contra hdropped
  rcases share_of_files hsingle hlimit hdropped with ⟨hpos, hcovered⟩
  rw [hcoverage] at hcovered
  omega

end

/-!
## Groups that come ranked
-/

def Orderly (inputs : List Input) : Prop :=
  (groups inputs).Pairwise fun a b => b.fileCount ≤ a.fileCount

instance (inputs : List Input) : Decidable (Orderly inputs) :=
  inferInstanceAs (Decidable (List.Pairwise _ _))

def firstGroups (o : Options) (inputs : List Input) : List Group :=
  coveringGroups o inputs.length 0 0 (groups inputs)

def orderlyPlan (o : Options) (inputs : List Input) : List (Group × List Kept) :=
  (firstGroups o inputs).map fun g => (g, keep o inputs g)

theorem Orderly.rankedGroups_eq (h : Orderly inputs) :
    rankedGroups (groups inputs) = groups inputs := by
  apply List.mergeSort_of_pairwise
  exact h.imp fun hle => decide_eq_true hle

theorem Orderly.keptGroups_eq (h : Orderly inputs) (o : Options) :
    keptGroups o inputs.length (groups inputs) = firstGroups o inputs :=
  congrArg (coveringGroups o inputs.length 0 0) h.rankedGroups_eq

theorem Orderly.plan_eq (h : Orderly inputs) (o : Options) :
    plan o inputs = orderlyPlan o inputs := by
  unfold plan orderlyPlan
  rw [h.keptGroups_eq o]

theorem Orderly.proportionate (h : Orderly inputs)
    (hweights : ∀ k ∈ firstGroups o inputs,
      ∀ d ∈ (groups inputs).drop (firstGroups o inputs).length,
        d.weight inputs * k.fileCount ≤ k.weight inputs * d.fileCount) :
    Proportionate o inputs := by
  unfold Proportionate droppedGroups
  rw [h.rankedGroups_eq, h.keptGroups_eq o]
  exact hweights

/-!
## The report
-/

structure Reported (o : Options) (inputs : List Input) (report : MergeReport) :
    Prop where
  groups : report.groups = (groups inputs).length
  keptGroups : report.keptGroups =
    (keptGroups o inputs.length (Merge.groups inputs)).length
  containers : report.containers =
    (Merge.keptGroups o inputs.length (Merge.groups inputs)).map
      fun g => (keep o inputs g).map Kept.report

theorem reported_of_build {f : CacheFile} {report : MergeReport}
    {output identity : String} {paths : List String}
    (h : build o output paths inputs identity = .ok (f, report)) (size : Nat) :
    Reported o inputs { report with fileSize := size } := by
  unfold build at h
  dsimp only at h
  split at h
  · cases h
  · rcases of_bind_eq_ok h with ⟨⟨containers, space⟩, -, hdone⟩
    cases hdone
    exact ⟨rfl, rfl, List.map_map⟩

end Merge

def MergeReport.weight (r : MergeReport) : Nat :=
  (r.containers.flatten.map (·.count)).sum

namespace Merge

namespace Reported

variable {o : Options} {inputs : List Input} {report : MergeReport}

theorem weight_eq (h : Reported o inputs report) :
    report.weight = ((Merge.keptGroups o inputs.length (Merge.groups inputs)).map
      (Group.weight inputs)).sum := by
  unfold MergeReport.weight
  rw [h.containers, List.map_flatten, List.sum_flatten, List.map_map, List.map_map]
  congr 1
  apply List.map_congr_left
  intro g _
  dsimp only [Function.comp_apply, Group.weight]
  rw [List.map_map, ← counts_keep o inputs g]
  rfl

theorem whole (h : Reported o inputs report)
    (hversions : ∀ g ∈ Merge.groups inputs, ∀ m ∈ (collect inputs g).methods,
      m.versions.length ≤ o.maxVersions) :
    ∀ m ∈ report.containers.flatten, (m.versions.map (·.count)).sum = m.count := by
  intro reported hreported
  rw [h.containers, List.mem_flatten] at hreported
  rcases hreported with ⟨ms, hms, hmem⟩
  rcases List.mem_map.mp hms with ⟨g, hg, rfl⟩
  rcases List.mem_map.mp hmem with ⟨k, hk, rfl⟩
  rcases of_mem_keep hk with ⟨m, hm, -, hkept⟩
  have hfew : m.versions.length ≤ max o.maxVersions 1 :=
    Nat.le_trans (hversions g (mem_of_mem_keptGroups hg) m hm) (Nat.le_max_left _ _)
  have hwhole : k.versions.keptCount = k.versions.count := by
    rw [hkept, MethodVersions.keptCount_selectBest _ hfew,
      keptCount_of_mem_collect hm]
    rfl
  unfold Kept.report
  rw [List.map_map]
  exact hwhole

end Reported

end Merge

end CodeCache
