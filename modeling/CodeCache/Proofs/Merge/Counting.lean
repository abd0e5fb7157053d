import CodeCache.Proofs.Assumption.Decisions
import CodeCache.Proofs.Merge.Reducing
import CodeCache.Proofs.Merge.Renaming
import Mathlib.Data.Multiset.Count
import Mathlib.Data.Multiset.MapFold

/-!
# Counting blobs by what they assume

Blobs that assume the same count as one version: those that make the same decisions
and have the same dependencies, each as often, in whatever order. The search for
equal records takes the first match that is left, which is as good as any other,
since equivalent records tell of one decision.
-/

namespace CodeCache

structure Assumptions where
  decisions : Multiset Decision
  dependencies : Multiset Dependency
  deriving DecidableEq

def Assumptions.of (speculations : List Speculation)
    (dependencies : List Dependency) : Assumptions where
  decisions := speculations.map Speculation.decision
  dependencies := dependencies

namespace MethodVersion

def assumptions (v : MethodVersion) : Assumptions :=
  .of v.speculations v.dependencies

/-!
## Equal assumptions
-/

theorem of_takeOut?_eq_some {α : Type} {test : α → Bool} {as rest : List α}
    (h : takeOut? test as = some rest) :
    ∃ a, test a = true ∧ as.Perm (a :: rest) := by
  induction as generalizing rest with
  | nil => cases h
  | cons a as ih =>
      unfold takeOut? at h
      split at h
      · rename_i ha
        cases h
        exact ⟨a, ha, .refl _⟩
      · rw [Option.map_eq_some_iff] at h
        rcases h with ⟨rest, hrest, rfl⟩
        rcases ih hrest with ⟨b, hb, hperm⟩
        exact ⟨b, hb, (hperm.cons a).trans (.swap b a rest)⟩

theorem of_takeOut?_eq_none {α : Type} {test : α → Bool} {as : List α}
    (h : takeOut? test as = none) :
    ∀ a ∈ as, test a = false := by
  induction as with
  | nil => exact nofun
  | cons a as ih =>
      unfold takeOut? at h
      split at h
      · cases h
      · rename_i ha
        rw [Option.map_eq_none_iff] at h
        exact List.forall_mem_cons.mpr ⟨Bool.eq_false_iff.mpr ha, ih h⟩

theorem sameSpeculations_iff (as bs : List Speculation) :
    sameSpeculations as bs = true ↔
      (as.map Speculation.decision).Perm (bs.map Speculation.decision) := by
  induction as generalizing bs with
  | nil =>
      unfold sameSpeculations
      rw [List.isEmpty_iff, List.map_nil, List.nil_perm, List.map_eq_nil_iff]
  | cons a as ih =>
      unfold sameSpeculations
      cases htake : takeOut? a.equivalent bs with
      | some rest =>
          -- any record of the same decision may be taken out
          rcases of_takeOut?_eq_some htake with ⟨b, hb, hperm⟩
          have hbs : (bs.map Speculation.decision).Perm
              (a.decision :: rest.map Speculation.decision) := by
            rw [Speculation.decision_eq_iff.mpr hb]
            exact hperm.map _
          dsimp only
          rw [ih, List.map_cons, hbs.congr_right, List.perm_cons]
      | none =>
          have hnone := of_takeOut?_eq_none htake
          refine iff_of_false Bool.false_ne_true fun hperm => ?_
          have hmem := hperm.subset (List.mem_cons_self)
          rcases List.mem_map.mp hmem with ⟨b, hb, hsame⟩
          have hequivalent := Speculation.decision_eq_iff.mp hsame.symm
          rw [hnone b hb] at hequivalent
          cases hequivalent

theorem hasAssumptions_iff {v : MethodVersion} (hv : Sorted v.dependencies)
    (speculations : List Speculation) (dependencies : List Dependency) :
    v.hasAssumptions speculations (sorted dependencies) = true ↔
      v.assumptions = .of speculations dependencies := by
  unfold hasAssumptions assumptions Assumptions.of
  rw [Bool.and_eq_true, sameSpeculations_iff, sameDependencies_sorted_iff hv,
    Assumptions.mk.injEq, Multiset.coe_eq_coe, Multiset.coe_eq_coe]

end MethodVersion

namespace MethodVersions

abbrev BlobToCount := List Speculation × List Dependency × BlobPlace

namespace BlobToCount

def assumed (b : BlobToCount) : Assumptions :=
  .of b.1 b.2.1

def kept (b : BlobToCount) : List Speculation × List Dependency × BlobPlace :=
  (b.1, MethodVersion.sorted b.2.1, b.2.2)

def version (b : BlobToCount) (id : Nat) : MethodVersion :=
  { id, count := 1, place := b.2.2, speculations := b.1,
    dependencies := MethodVersion.sorted b.2.1 }

theorem assumptions_version (b : BlobToCount) (id : Nat) :
    (b.version id).assumptions = b.assumed :=
  congrArg (Assumptions.mk _)
    (Multiset.coe_eq_coe.mpr (MethodVersion.perm_sorted b.2.1))

end BlobToCount

def classes (versions : List MethodVersion) : List (Assumptions × Nat) :=
  versions.map fun v => (v.assumptions, v.count)

/-!
## Counting one blob
-/

/-- The versions are what the blobs assume: each differs from the others, was seen
as often as blobs assume it, and is the first of these. -/
structure Classify (blobs : List BlobToCount) (versions : List MethodVersion) :
    Prop where
  distinct : (versions.map (·.assumptions)).Nodup
  complete : ∀ b ∈ blobs, b.assumed ∈ versions.map (·.assumptions)
  counts : ∀ v ∈ versions,
    v.count = (blobs.map BlobToCount.assumed).count v.assumptions
  first : ∀ v ∈ versions,
    (blobs.find? fun b => decide (b.assumed = v.assumptions)).map BlobToCount.kept =
      some (v.speculations, v.dependencies, v.place)

variable {m : MethodVersions} {blobs blobs' : List BlobToCount} {b : BlobToCount}
  {versions versions' : List MethodVersion} {v : MethodVersion}

theorem classify_nil : Classify [] [] :=
  ⟨List.nodup_nil, nofun, nofun, nofun⟩

theorem Classify.of_perm (h : Classify blobs versions)
    (hperm : versions'.Perm versions) :
    Classify blobs versions' := by
  have hassumptions := hperm.map (·.assumptions)
  constructor
  · exact hassumptions.nodup_iff.mpr h.distinct
  · exact fun b hb => hassumptions.mem_iff.mpr (h.complete b hb)
  · exact fun v hv => h.counts v (hperm.mem_iff.mp hv)
  · exact fun v hv => h.first v (hperm.mem_iff.mp hv)

theorem Classify.sorted (h : Classify blobs versions) (hv : v ∈ versions) :
    MethodVersion.Sorted v.dependencies := by
  have hfirst := h.first v hv
  rw [Option.map_eq_some_iff] at hfirst
  rcases hfirst with ⟨b, -, hkept⟩
  have hdependencies : MethodVersion.sorted b.2.1 = v.dependencies :=
    congrArg (·.2.1) hkept
  rw [← hdependencies]
  exact MethodVersion.sorted_sorted b.2.1

theorem count_concat (blobs : List BlobToCount) (b : BlobToCount)
    (a : Assumptions) :
    ((blobs ++ [b]).map BlobToCount.assumed).count a =
      (blobs.map BlobToCount.assumed).count a +
        if b.assumed = a then 1 else 0 := by
  rw [List.map_append, List.count_append, List.map_singleton, List.count_singleton]
  simp only [beq_iff_eq]

theorem find?_concat_of_isSome {test : BlobToCount → Bool}
    (h : (blobs.find? test).isSome = true) (b : BlobToCount) :
    (blobs ++ [b]).find? test = blobs.find? test := by
  rw [List.find?_append, Option.or_of_isSome h]

theorem Classify.first_concat (h : Classify blobs versions) (hv : v ∈ versions)
    (b : BlobToCount) :
    ((blobs ++ [b]).find? fun b => decide (b.assumed = v.assumptions)).map
        BlobToCount.kept = some (v.speculations, v.dependencies, v.place) := by
  have hfirst := h.first v hv
  have hsome := congrArg Option.isSome hfirst
  rw [Option.isSome_map] at hsome
  rw [find?_concat_of_isSome hsome]
  exact hfirst

theorem Classify.again {rest : List MethodVersion}
    (h : Classify blobs (v :: rest)) (hv : v.assumptions = b.assumed) :
    Classify (blobs ++ [b]) ({ v with count := v.count + 1 } :: rest) := by
  have hdistinct := h.distinct
  rw [List.map_cons, List.nodup_cons] at hdistinct
  constructor
  · exact h.distinct
  · intro c hc
    rcases List.mem_append.mp hc with hold | hnew
    · exact h.complete c hold
    · rw [List.mem_singleton.mp hnew, ← hv]
      exact List.mem_cons_self
  · refine List.forall_mem_cons.mpr ⟨?_, fun w hw => ?_⟩
    · change v.count + 1 = List.count v.assumptions _
      rw [count_concat, if_pos hv.symm, ← h.counts v List.mem_cons_self]
    · have hne : b.assumed ≠ w.assumptions := by
        intro heq
        rw [hv, heq] at hdistinct
        exact hdistinct.1 (List.mem_map_of_mem hw)
      rw [count_concat, if_neg hne, Nat.add_zero]
      exact h.counts w (List.mem_cons_of_mem v hw)
  · refine List.forall_mem_cons.mpr ⟨?_, fun w hw => ?_⟩
    · exact h.first_concat List.mem_cons_self b
    · exact h.first_concat (List.mem_cons_of_mem v hw) b

theorem Classify.new (h : Classify blobs versions)
    (hnew : b.assumed ∉ versions.map (·.assumptions)) (id : Nat) :
    Classify (blobs ++ [b]) (b.version id :: versions) := by
  have hsame := b.assumptions_version id
  have hnone : ∀ c ∈ blobs, c.assumed ≠ b.assumed :=
    fun c hc heq => hnew (heq ▸ h.complete c hc)
  constructor
  · rw [List.map_cons, hsame]
    exact List.nodup_cons.mpr ⟨hnew, h.distinct⟩
  · intro c hc
    rw [List.map_cons, hsame]
    rcases List.mem_append.mp hc with hold | hlast
    · exact List.mem_cons_of_mem _ (h.complete c hold)
    · rw [List.mem_singleton.mp hlast]
      exact List.mem_cons_self
  · refine List.forall_mem_cons.mpr ⟨?_, fun w hw => ?_⟩
    · rw [hsame, count_concat, if_pos rfl, List.count_eq_zero_of_not_mem]
      · rfl
      · intro hmem
        rcases List.mem_map.mp hmem with ⟨c, hc, heq⟩
        exact hnone c hc heq
    · have hne : b.assumed ≠ w.assumptions :=
        fun heq => hnew (heq ▸ List.mem_map_of_mem hw)
      rw [count_concat, if_neg hne, Nat.add_zero]
      exact h.counts w hw
  · refine List.forall_mem_cons.mpr ⟨?_, fun w hw => h.first_concat hw b⟩
    have hfind : (blobs.find? fun c => decide (c.assumed = b.assumed)) = none :=
      List.find?_eq_none.mpr fun c hc heq => hnone c hc (of_decide_eq_true heq)
    have hlast : [b].find? (fun c => decide (c.assumed = b.assumed)) = some b :=
      List.find?_cons_of_pos (decide_eq_true (rfl : b.assumed = b.assumed))
    rw [hsame, List.find?_append, hfind, Option.none_or, hlast]
    rfl

theorem Classify.add (h : Classify blobs m.versions) (b : BlobToCount) :
    Classify (blobs ++ [b]) (m.add b.1 b.2.1 b.2.2).versions := by
  have htest : ∀ v ∈ m.versions,
      v.hasAssumptions b.1 (MethodVersion.sorted b.2.1) = true ↔
        v.assumptions = b.assumed :=
    fun v hv => MethodVersion.hasAssumptions_iff (h.sorted hv) b.1 b.2.1
  rw [add_eq]
  dsimp only
  split
  · rename_i counted hcounted
    rcases countOne?_eq_some hcounted with ⟨front, v, back, hversions, hv, rfl⟩
    rw [hversions] at h htest
    have hmiddle : (front ++ v :: back).Perm (v :: (front ++ back)) :=
      List.perm_middle
    have hsame := (htest v (hmiddle.mem_iff.mpr List.mem_cons_self)).mp hv
    exact ((h.of_perm hmiddle.symm).again hsame).of_perm List.perm_middle
  · rename_i hnone
    suffices hnew : b.assumed ∉ m.versions.map (·.assumptions) from
      (h.new hnew m.versions.length).of_perm List.perm_append_comm
    intro hmem
    rcases List.mem_map.mp hmem with ⟨v, hv, heq⟩
    have hfails := countOne?_eq_none hnone v hv
    rw [(htest v hv).mpr heq] at hfails
    cases hfails

/-!
## Counting all blobs
-/

theorem classify_counted (method : UInt32) (blobs : List BlobToCount) :
    Classify blobs (counted method blobs).versions := by
  -- blobs are counted from the left, each behind those before it
  have hfrom : ∀ (before : List BlobToCount) (m : MethodVersions),
      Classify before m.versions →
        Classify (before ++ blobs)
          (blobs.foldl (fun m b => m.add b.1 b.2.1 b.2.2) m).versions := by
    induction blobs with
    | nil =>
        intro before m hm
        rw [List.append_nil]
        exact hm
    | cons b blobs ih =>
        intro before m hm
        rw [List.append_cons]
        exact ih (before ++ [b]) _ (hm.add b)
  exact hfrom [] { method } classify_nil

theorem Classify.mem_classes_iff (h : Classify blobs versions) (a : Assumptions)
    (n : Nat) :
    (a, n) ∈ classes versions ↔
      a ∈ blobs.map BlobToCount.assumed ∧
        n = (blobs.map BlobToCount.assumed).count a := by
  unfold classes
  rw [List.mem_map]
  constructor
  · rintro ⟨v, hv, hclass⟩
    cases hclass
    refine ⟨?_, h.counts v hv⟩
    have hfirst := h.first v hv
    rw [Option.map_eq_some_iff] at hfirst
    rcases hfirst with ⟨b, hfind, -⟩
    have htest := List.find?_some hfind
    have hsame : b.assumed = v.assumptions := of_decide_eq_true htest
    exact hsame ▸ List.mem_map_of_mem (List.mem_of_find?_eq_some hfind)
  · rintro ⟨hmem, rfl⟩
    rcases List.mem_map.mp hmem with ⟨b, hb, rfl⟩
    rcases List.mem_map.mp (h.complete b hb) with ⟨v, hv, hsame⟩
    exact ⟨v, hv, by rw [h.counts v hv, hsame]⟩

theorem Classify.nodup_classes (h : Classify blobs versions) :
    (classes versions).Nodup := by
  have hfst : (classes versions).map Prod.fst = versions.map (·.assumptions) :=
    List.map_map
  exact List.Nodup.of_map Prod.fst (hfst ▸ h.distinct)

theorem Classify.perm_classes (h : Classify blobs versions)
    (h' : Classify blobs' versions') (hperm : blobs.Perm blobs') :
    (classes versions).Perm (classes versions') := by
  have hassumed := hperm.map BlobToCount.assumed
  rw [List.perm_ext_iff_of_nodup h.nodup_classes h'.nodup_classes]
  rintro ⟨a, n⟩
  rw [h.mem_classes_iff, h'.mem_classes_iff, hassumed.mem_iff, hassumed.count_eq]

/-- However blobs of a method are counted, no two versions assume the same. Each was
seen as often as a blob assumes what it does and keeps what the first of these
blobs tells. Together they were seen as often as blobs were counted, and blobs in
another order give the same classes, each as often. -/
theorem counted_by_assumptions (method : UInt32) (blobs : List BlobToCount) :
    ((counted method blobs).versions.map (·.assumptions)).Nodup ∧
    (∀ v ∈ (counted method blobs).versions,
      v.count = (blobs.map BlobToCount.assumed).count v.assumptions ∧
      (blobs.find? fun b => decide (b.assumed = v.assumptions)).map
        BlobToCount.kept = some (v.speculations, v.dependencies, v.place)) ∧
    (∀ b ∈ blobs, ∃ v ∈ (counted method blobs).versions,
      v.assumptions = b.assumed) ∧
    (counts (counted method blobs).versions).sum = (counted method blobs).count ∧
    (counted method blobs).count = blobs.length ∧
    ∀ blobs', blobs.Perm blobs' →
      (classes (counted method blobs).versions).Perm
        (classes (counted method blobs').versions) := by
  have h := classify_counted method blobs
  refine ⟨h.distinct, fun v hv => ⟨h.counts v hv, h.first v hv⟩, ?_, ?_,
    count_counted method blobs, ?_⟩
  · exact fun b hb => List.mem_map.mp (h.complete b hb)
  · rw [count_counted]
    exact keptCount_counted method blobs
  · exact fun blobs' hperm => h.perm_classes (classify_counted method blobs') hperm

def receiversEitherWay : List BlobToCount :=
  let leaf : Dependency := { kind := .leafType, args := [1] }
  let redefined : Dependency := { kind := .evolMethod, args := [0] }
  [([.deVirtual 0 4 1 (some 2) 2 false], [leaf, redefined], ⟨0, 0, 0, 96⟩),
    ([.deVirtual 0 4 2 (some 1) 2 false], [redefined, leaf], ⟨1, 0, 0, 96⟩),
    ([.deVirtual 0 4 1 (some 1) 2 false], [leaf, redefined], ⟨1, 0, 96, 96⟩)]

theorem counted_by_assumptions_of_receivers_either_way :
    counts (counted 0 receiversEitherWay).versions = [2, 1] ∧
      (classes (counted 0 receiversEitherWay).versions).Perm
        (classes (counted 0 receiversEitherWay.reverse).versions) := by
  have hclasses := (counted_by_assumptions 0 receiversEitherWay).2.2.2.2.2
  have hcounts : counts (counted 0 receiversEitherWay).versions = [2, 1] := by
    -- sorting does not evaluate, but there is only one order
    have hsorted : ∀ ds, ds.Perm [⟨.evolMethod, [0]⟩, ⟨.leafType, [1]⟩] →
        MethodVersion.sorted ds = [⟨.evolMethod, [0]⟩, ⟨.leafType, [1]⟩] :=
      fun ds h => (MethodVersion.sorted_sorted ds).eq_of_perm
        (by unfold MethodVersion.Sorted; decide +kernel)
        ((MethodVersion.perm_sorted ds).trans h)
    simp only [receiversEitherWay, counted, List.foldl, add_eq,
      hsorted _ (.refl _), hsorted _ (.swap _ _ _)]
    decide +kernel
  exact ⟨hcounts, hclasses _ (List.reverse_perm _).symm⟩

end MethodVersions

end CodeCache
