import CodeCache.Proofs.Assumption.Decisions
import CodeCache.Proofs.Merge.Ranking
import Mathlib.Data.List.Perm.Basic
import Mathlib.Data.List.Sort
import Mathlib.Logic.Function.Basic

/-!
# Versions under other numbers

The numbers of methods and classes only tell them apart. Whatever a merge does
with versions, it does the same after a renaming that keeps different numbers
different, and zero, which stands for no class, zero.
-/

namespace CodeCache

variable {f : UInt32 → UInt32}

/-!
## Speculations
-/

namespace Speculation

def rename (f : UInt32 → UInt32) : Speculation → Speculation
  | deVirtual method bci klass1 klass2 morphism missIsTrap =>
    deVirtual (f method) bci (f klass1) (klass2.map f) morphism missIsTrap
  | inlined caller callee bci => inlined (f caller) (f callee) bci
  | profiledReceiver method bci klass => profiledReceiver (f method) bci (f klass)
  | unstableIf method bci takenTrap => unstableIf (f method) bci takenTrap
  | constantReplace klass offset type value => constantReplace (f klass) offset type value

@[simp]
theorem owner?_rename (f : UInt32 → UInt32) (r : Speculation) :
    (r.rename f).owner? = r.owner?.map f := by
  cases r <;> rfl

@[simp]
theorem rename_id (r : Speculation) : r.rename id = r := by
  cases r <;> simp [rename]

variable {g h : UInt32 → UInt32} {r s : Speculation}

theorem rename_rename_eq (heq : ∀ i ∈ r.indices, g (f i) = h i) :
    (r.rename f).rename g = r.rename h := by
  cases r with
  | deVirtual _ _ _ klass2 => cases klass2 <;> simp_all [rename, indices]
  | _ => simp_all [rename, indices]

/-- Equivalent records differ in the order of receivers or in the type of a constant, and
no renaming sees either. -/
theorem equivalent_rename_of_equivalent (f : UInt32 → UInt32)
    (hequivalent : r.equivalent s = true) :
    (r.rename f).equivalent (s.rename f) = true := by
  rcases equivalent_cases hequivalent with rfl | hswap | hretype
  · exact equivalent_refl _
  · rcases hswap with ⟨method, bci, k, l, morphism, trap, rfl, rfl⟩
    exact equivalent_swap (f method) bci (f k) (f l) morphism trap
  · rcases hretype with ⟨klass, offset, type, type', value, rfl, rfl⟩
    exact equivalent_retype (f klass) offset type type' value

theorem equivalent_of_rename (hr : ∀ i ∈ r.indices, g (f i) = id i)
    (hs : ∀ i ∈ s.indices, g (f i) = id i)
    (hrenamed : (r.rename f).equivalent (s.rename f) = true) :
    r.equivalent s = true := by
  have hback := equivalent_rename_of_equivalent g hrenamed
  rw [rename_rename_eq hr, rename_rename_eq hs, rename_id, rename_id] at hback
  exact hback

variable (hf : Function.Injective f)

include hf

theorem belongsTo_rename (m : UInt32) (r : Speculation) :
    (r.rename f).belongsTo (f m) = r.belongsTo m := by
  unfold belongsTo
  rw [owner?_rename, ← Option.map_some, Bool.eq_iff_iff, beq_iff_eq, beq_iff_eq]
  exact (Option.map_injective hf).eq_iff

theorem equivalent_rename (r s : Speculation) :
    (r.rename f).equivalent (s.rename f) = r.equivalent s := by
  have hback := Function.leftInverse_invFun hf
  rw [Bool.eq_iff_iff]
  constructor
  · exact equivalent_of_rename (fun i _ => hback i) (fun i _ => hback i)
  · exact equivalent_rename_of_equivalent f

end Speculation

/-!
## Dependencies
-/

namespace Dependency

def rename (f : UInt32 → UInt32) (d : Dependency) : Dependency :=
  { d with args := d.args.map f }

theorem rename_injective (hf : Function.Injective f) :
    Function.Injective (rename f) := by
  intro d e h
  cases d
  cases e
  simp only [rename, mk.injEq, (List.map_injective_iff.mpr hf).eq_iff] at h
  rw [h.1, h.2]

def sortKey (d : Dependency) : List Nat :=
  d.kind.index :: d.args.length :: d.args.map UInt32.toNat

theorem sortKey_injective : Function.Injective sortKey := by
  rintro ⟨kind, args⟩ ⟨kind', args'⟩ h
  injection h with hkind h
  injection h with _ hargs
  dsimp only at hkind hargs
  have hindex := DependencyKind.ofIndex?_index kind
  rw [hkind, DependencyKind.ofIndex?_index, Option.some_inj] at hindex
  have hsame := List.map_injective_iff.mpr
    (fun _ _ => UInt32.toNat_inj.mp : Function.Injective UInt32.toNat) hargs
  rw [hindex, hsame]

end Dependency

namespace MethodVersion

theorem compareDependencies_eq (d e : Dependency) :
    compareDependencies d e = compare d.sortKey e.sortKey := by
  have hword : ∀ a b : UInt32,
      Dependency.compareOption compare (Dependency.argKey (fun slot => slot) a)
        (Dependency.argKey (fun slot => slot) b) =
          compare a.toNat b.toNat := by
    intro a b
    have hzero : ∀ w : UInt32, w ≠ 0 → 0 < w.toNat := by
      intro w hw
      rw [Nat.pos_iff_ne_zero]
      exact fun h => hw (UInt32.toNat_inj.mp h)
    unfold Dependency.argKey
    split <;> rename_i ha <;> split <;> rename_i hb
    · rw [ha, hb]
      rfl
    · rw [ha]
      exact (Nat.compare_eq_lt.mpr (hzero b hb)).symm
    · rw [hb]
      exact (Nat.compare_eq_gt.mpr (hzero a ha)).symm
    · change compareOfLessAndEq a b = compareOfLessAndEq a.toNat b.toNat
      unfold compareOfLessAndEq
      simp only [UInt32.lt_iff_toNat_lt, UInt32.toNat_inj]
  have hargs : ∀ as bs : List UInt32,
      Dependency.compareList (Dependency.compareOption compare)
          (as.map (Dependency.argKey fun slot => slot))
          (bs.map (Dependency.argKey fun slot => slot)) =
        List.compareLex compare (as.map UInt32.toNat) (bs.map UInt32.toNat) := by
    intro as
    induction as with
    | nil =>
        intro bs
        cases bs <;> rfl
    | cons a as ih =>
        intro bs
        cases bs with
        | nil => rfl
        | cons b bs =>
            simp only [List.map_cons, List.compareLex_cons_cons,
              Dependency.compareList, hword, ih]
  unfold compareDependencies Dependency.compareBy Dependency.sortKey
  rw [hargs, List.compare_eq_compareLex, List.compareLex_cons_cons,
    List.compareLex_cons_cons]

def Sorted (ds : List Dependency) : Prop :=
  ds.Pairwise fun d e => (compareDependencies d e).isLE = true

def sorted (ds : List Dependency) : List Dependency :=
  ds.mergeSort fun d e => (compareDependencies d e).isLE

theorem sorted_sorted (ds : List Dependency) : Sorted (sorted ds) := by
  apply List.pairwise_mergeSort
  · intro a b c hab hbc
    rw [compareDependencies_eq] at hab hbc ⊢
    exact Std.TransCmp.isLE_trans hab hbc
  · intro a b
    have hswap : compare b.sortKey a.sortKey =
        (compare a.sortKey b.sortKey).swap :=
      Std.OrientedCmp.eq_swap
    rw [compareDependencies_eq, compareDependencies_eq, hswap]
    cases compare a.sortKey b.sortKey <;> rfl

theorem perm_sorted (ds : List Dependency) : (sorted ds).Perm ds :=
  List.mergeSort_perm _ _

theorem Sorted.eq_of_perm {ds es : List Dependency} (hds : Sorted ds)
    (hes : Sorted es) (h : ds.Perm es) : ds = es := by
  apply List.Perm.eq_of_pairwise _ hds hes h
  intro d e _ _ hde hed
  rw [compareDependencies_eq] at hde hed
  apply Dependency.sortKey_injective
  exact Std.LawfulEqCmp.eq_of_compare (Std.OrientedCmp.isLE_antisymm hde hed)

theorem sameDependencies_iff (as bs : List Dependency) :
    sameDependencies as bs = true ↔ as = bs := by
  have hsame : ∀ d e : Dependency,
      (compareDependencies d e == .eq) = (d == e) := by
    intro d e
    rw [compareDependencies_eq, Bool.eq_iff_iff, beq_iff_eq, beq_iff_eq,
      Std.compare_eq_iff_eq]
    exact Dependency.sortKey_injective.eq_iff
  induction as generalizing bs with
  | nil => cases bs <;> simp [sameDependencies]
  | cons a as ih =>
      cases bs with
      | nil => simp [sameDependencies]
      | cons b bs =>
          have hrest := ih bs
          simp only [sameDependencies, hsame, Bool.and_eq_true, beq_iff_eq]
            at hrest
          simp [sameDependencies, hsame, ← hrest, and_left_comm]

/-- Dependencies in order are compared as if there was no order. -/
theorem sameDependencies_sorted_iff {ds : List Dependency} (hds : Sorted ds)
    (es : List Dependency) :
    sameDependencies ds (sorted es) = true ↔ ds.Perm es := by
  rw [sameDependencies_iff]
  constructor
  · rintro rfl
    exact perm_sorted es
  · intro h
    exact hds.eq_of_perm (sorted_sorted es) (h.trans (perm_sorted es).symm)

theorem sameDependencies_rename (hf : Function.Injective f)
    {ds : List Dependency} (hds : Sorted ds) (es : List Dependency) :
    sameDependencies (sorted (ds.map (·.rename f))) (sorted (es.map (·.rename f))) =
      sameDependencies ds (sorted es) := by
  rw [Bool.eq_iff_iff, sameDependencies_sorted_iff (sorted_sorted _),
    sameDependencies_sorted_iff hds, (perm_sorted _).congr_left]
  exact List.map_perm_map_iff (Dependency.rename_injective hf)

/-!
## Versions
-/

def rename (f : UInt32 → UInt32) (v : MethodVersion) : MethodVersion :=
  { v with
    speculations := v.speculations.map (·.rename f)
    dependencies := sorted (v.dependencies.map (·.rename f)) }

theorem takeOut?_map {α : Type} {test test' : α → Bool} {g : α → α}
    (h : ∀ a, test' (g a) = test a) (as : List α) :
    takeOut? test' (as.map g) = (takeOut? test as).map (List.map g) := by
  induction as with
  | nil => rfl
  | cons a as ih =>
      unfold takeOut?
      rw [List.map_cons]
      dsimp only
      rw [h, ih]
      split
      · rfl
      · cases takeOut? test as <;> rfl

section

variable (hf : Function.Injective f)

include hf

theorem sameSpeculations_rename (as bs : List Speculation) :
    sameSpeculations (as.map (·.rename f)) (bs.map (·.rename f)) =
      sameSpeculations as bs := by
  induction as generalizing bs with
  | nil => cases bs <;> rfl
  | cons a as ih =>
      have htake := @takeOut?_map _ a.equivalent _ _
        (Speculation.equivalent_rename hf a) bs
      unfold sameSpeculations
      rw [List.map_cons]
      dsimp only
      rw [htake]
      cases takeOut? a.equivalent bs with
      | none => rfl
      | some rest => exact ih rest

theorem hasAssumptions_rename {v : MethodVersion} (hv : Sorted v.dependencies)
    (speculations : List Speculation) (dependencies : List Dependency) :
    (v.rename f).hasAssumptions (speculations.map (·.rename f))
        (sorted (dependencies.map (·.rename f))) =
      v.hasAssumptions speculations (sorted dependencies) := by
  unfold hasAssumptions
  exact congrArg₂ and (sameSpeculations_rename hf _ _)
    (sameDependencies_rename hf hv _)

theorem contains_rename (as : List UInt32) (a : UInt32) :
    (as.map f).contains (f a) = as.contains a := by
  rw [Bool.eq_iff_iff]
  simp [hf.eq_iff]

theorem nextInlined?_rename (records : List Speculation) (visited : List UInt32) :
    nextInlined? (records.map (·.rename f)) (visited.map f) =
      (nextInlined? records visited).map f := by
  unfold nextInlined?
  rw [List.findSome?_map, List.map_findSome?]
  congr 1
  funext r
  cases r with
  | inlined caller callee bci =>
      have hcontains := contains_rename hf visited callee
      simp only [Function.comp_apply, Speculation.rename, hcontains]
      split <;> rfl
  | _ => rfl

theorem membersFrom_rename (records : List Speculation) (steps : Nat)
    (visited : List UInt32) (m : UInt32) :
    membersFrom (records.map (·.rename f)) steps (visited.map f) (f m) =
      (membersFrom records steps visited m).map f := by
  induction steps generalizing visited m with
  | zero => rfl
  | succ steps ih =>
      have hnext := nextInlined?_rename hf records (m :: visited)
      rw [List.map_cons] at hnext
      unfold membersFrom
      rw [List.map_cons, hnext]
      cases nextInlined? records (m :: visited) with
      | none => rfl
      | some callee => exact congrArg (f m :: ·) (ih (m :: visited) callee)

theorem members_rename (v : MethodVersion) (m : UInt32) :
    (v.rename f).members (f m) = (v.members m).map f := by
  unfold members
  rw [rename, List.length_map]
  exact membersFrom_rename hf v.speculations _ [] m

theorem filter_belongsTo_rename (records : List Speculation) (m : UInt32) :
    (records.map (·.rename f)).filter (·.belongsTo (f m)) =
      (records.filter (·.belongsTo m)).map (·.rename f) := by
  have hbelongs := Speculation.belongsTo_rename hf m
  rw [List.filter_map]
  simp only [Function.comp_def, hbelongs]

theorem decidesLess_rename (v w : MethodVersion) (m : UInt32) :
    (v.rename f).decidesLess (w.rename f) (f m) = v.decidesLess w m := by
  unfold decidesLess rename
  simp only [filter_belongsTo_rename hf, List.all_map, List.any_map,
    Function.comp_def, Speculation.equivalent_rename hf]

theorem covers_rename (v w : MethodVersion) (m : UInt32) :
    (v.rename f).covers (f m) (w.rename f) = v.covers m w := by
  unfold covers
  rw [members_rename hf, List.all_map]
  congr 1
  funext m
  exact decidesLess_rename hf v w m

end

end MethodVersion

/-!
## Methods
-/

namespace MethodVersions

def rename (f : UInt32 → UInt32) (m : MethodVersions) : MethodVersions :=
  { m with method := f m.method, versions := m.versions.map (·.rename f) }

theorem add_eq (m : MethodVersions) (speculations : List Speculation)
    (dependencies : List Dependency) (place : BlobPlace) :
    m.add speculations dependencies place =
      { m with
        count := m.count + 1
        versions :=
          match countOne? (·.hasAssumptions speculations
            (MethodVersion.sorted dependencies)) m.versions with
          | some versions => versions
          | none => m.versions ++
            [{ id := m.versions.length, count := 1, place, speculations,
               dependencies := MethodVersion.sorted dependencies }] } :=
  rfl

def Sorted (m : MethodVersions) : Prop :=
  ∀ v ∈ m.versions, MethodVersion.Sorted v.dependencies

theorem mem_countOne? {test : MethodVersion → Bool}
    {versions counted : List MethodVersion}
    (h : countOne? test versions = some counted) {v : MethodVersion}
    (hv : v ∈ counted) :
    ∃ w ∈ versions, v.dependencies = w.dependencies := by
  rcases countOne?_eq_some h with ⟨front, w, back, rfl, -, rfl⟩
  rcases List.mem_append.mp hv with hfront | hback
  · exact ⟨v, List.mem_append_left _ hfront, rfl⟩
  · rcases List.mem_cons.mp hback with rfl | hback
    · exact ⟨w, List.mem_append_right _ List.mem_cons_self, rfl⟩
    · exact ⟨v, List.mem_append_right _ (List.mem_cons_of_mem w hback), rfl⟩

theorem Sorted.add {m : MethodVersions} (h : m.Sorted)
    (speculations : List Speculation) (dependencies : List Dependency)
    (place : BlobPlace) :
    (m.add speculations dependencies place).Sorted := by
  rw [add_eq]
  intro v hv
  dsimp only at hv
  split at hv
  · rename_i counted hcounted
    rcases mem_countOne? hcounted hv with ⟨w, hw, hsame⟩
    rw [hsame]
    exact h w hw
  · rcases List.mem_append.mp hv with hold | hnew
    · exact h v hold
    · rw [List.mem_singleton.mp hnew]
      exact MethodVersion.sorted_sorted dependencies

theorem countOne?_rename {test test' : MethodVersion → Bool}
    {versions : List MethodVersion}
    (h : ∀ v ∈ versions, test' (v.rename f) = test v) :
    countOne? test' (versions.map (·.rename f)) =
      (countOne? test versions).map (List.map (·.rename f)) := by
  induction versions with
  | nil => rfl
  | cons v versions ih =>
      unfold countOne?
      rw [List.map_cons]
      dsimp only
      rw [h v List.mem_cons_self, ih fun w hw => h w (List.mem_cons_of_mem v hw)]
      split
      · rfl
      · cases countOne? test versions <;> rfl

theorem ranked_rename (f : UInt32 → UInt32) (versions : List MethodVersion) :
    ranked (versions.map (·.rename f)) = (ranked versions).map (·.rename f) := by
  unfold ranked
  rw [List.map_mergeSort]
  intro v _ w _
  rfl

section

variable (hf : Function.Injective f)

include hf

theorem add_rename {m : MethodVersions} (hm : m.Sorted)
    (speculations : List Speculation) (dependencies : List Dependency)
    (place : BlobPlace) :
    (m.rename f).add (speculations.map (·.rename f))
        (dependencies.map (·.rename f)) place =
      (m.add speculations dependencies place).rename f := by
  have hcount : countOne? (fun v => v.hasAssumptions
        (speculations.map (·.rename f))
        (MethodVersion.sorted (dependencies.map (·.rename f))))
      (m.versions.map (·.rename f)) =
        (countOne? (fun v => v.hasAssumptions speculations
          (MethodVersion.sorted dependencies)) m.versions).map
            (List.map (·.rename f)) :=
    countOne?_rename fun v hv =>
      MethodVersion.hasAssumptions_rename hf (hm v hv) _ _
  have hsorted : MethodVersion.sorted
        ((MethodVersion.sorted dependencies).map (·.rename f)) =
      MethodVersion.sorted (dependencies.map (·.rename f)) := by
    apply (MethodVersion.sorted_sorted _).eq_of_perm (MethodVersion.sorted_sorted _)
    apply (MethodVersion.perm_sorted _).trans
    apply List.Perm.trans ((MethodVersion.perm_sorted _).map _)
    exact (MethodVersion.perm_sorted _).symm
  rw [add_eq, add_eq, rename]
  dsimp only
  rw [hcount]
  cases countOne? _ m.versions with
  | some versions => rfl
  | none => simp [rename, MethodVersion.rename, hsorted]

theorem foldInto?_rename (m : UInt32) (v : MethodVersion)
    (versions : List MethodVersion) :
    foldInto? (f m) (v.rename f) (versions.map (·.rename f)) =
      (foldInto? m v versions).map (List.map (·.rename f)) := by
  induction versions with
  | nil => rfl
  | cons w versions ih =>
      unfold foldInto?
      rw [List.map_cons]
      dsimp only
      rw [MethodVersion.covers_rename hf, MethodVersion.covers_rename hf, ih]
      split
      · rfl
      · split
        · rfl
        · cases foldInto? m v versions <;> rfl

theorem combineDown_rename (m : UInt32) (limit i : Nat)
    (versions : List MethodVersion) :
    combineDown (f m) limit i (versions.map (·.rename f)) =
      (combineDown m limit i versions).map (·.rename f) := by
  induction i generalizing versions with
  | zero => rfl
  | succ i ih =>
      unfold combineDown
      rw [List.length_map, List.getElem?_map, ← List.map_take, ← List.map_drop]
      split
      · rfl
      · cases versions[i + 1]? with
        | none => exact ih versions
        | some v =>
            dsimp only [Option.map_some, Option.bind_some]
            rw [foldInto?_rename hf]
            cases foldInto? m v (versions.take (i + 1)) with
            | none => exact ih versions
            | some front =>
                dsimp only [Option.map_some]
                rw [← List.map_append]
                exact ih _

/-- The same versions are kept under other numbers. -/
theorem selectBest_rename (policy : MergePolicy) (limit : Nat)
    (m : MethodVersions) :
    (m.rename f).selectBest policy limit =
      (m.selectBest policy limit).rename f := by
  unfold selectBest
  cases policy with
  | simple =>
      simp only [rename, ranked_rename, List.map_take]
  | coverage =>
      simp only [rename, combine, ranked_rename, combineDown_rename hf,
        List.length_map, List.map_take]

end

end MethodVersions

end CodeCache
