import CodeCache.Proofs.Merge.Ranking
import CodeCache.Proofs.Merge.Weighing
import Mathlib.Data.List.Sort

/-!
# Reducing the versions of a method

A method keeps its most frequent versions. Folding versions first keeps all counts:
a version that takes the place of two stands for the blobs of both. So the largest
counts never get less, and folding first loses no more than keeping the most
frequent versions as they are.
-/

namespace CodeCache

/-!
## The largest numbers of a list
-/

/-- The greatest sum of at most so many of the numbers. -/
def heaviest : Nat → List Nat → Nat
  | _, [] => 0
  | 0, _ => 0
  | n + 1, x :: xs => max (x + heaviest n xs) (heaviest (n + 1) xs)

theorem heaviest_zero (xs : List Nat) : heaviest 0 xs = 0 := by
  cases xs with
  | nil | cons => rfl

theorem heaviest_cons (n x : Nat) (xs : List Nat) :
    heaviest (n + 1) (x :: xs) = max (x + heaviest n xs) (heaviest (n + 1) xs) :=
  rfl

theorem heaviest_le_succ (n : Nat) (xs : List Nat) :
    heaviest n xs ≤ heaviest (n + 1) xs := by
  induction xs generalizing n with
  | nil => exact Nat.le_refl _
  | cons x xs ih =>
      cases n with
      | zero => exact Nat.zero_le _
      | succ n =>
          have hwith := ih n
          have hwithout := ih (n + 1)
          rw [heaviest_cons, heaviest_cons]
          omega

theorem heaviest_perm {xs ys : List Nat} (h : xs.Perm ys) (n : Nat) :
    heaviest n xs = heaviest n ys := by
  induction h generalizing n with
  | nil => rfl
  | cons x _ ih =>
      cases n with
      | zero => rfl
      | succ n => rw [heaviest_cons, heaviest_cons, ih, ih]
  | swap x y xs =>
      cases n with
      | zero => rfl
      | succ n =>
          cases n with
          | zero =>
              simp only [heaviest_cons, heaviest_zero]
              omega
          | succ n =>
              simp only [heaviest_cons]
              omega
  | trans _ _ ih ih' => exact (ih n).trans (ih' n)

theorem heaviest_le_add (n x y : Nat) (xs : List Nat) :
    heaviest n (x :: y :: xs) ≤ heaviest n ((x + y) :: xs) := by
  cases n with
  | zero => exact Nat.zero_le _
  | succ n =>
      cases n with
      | zero =>
          simp only [heaviest_cons, heaviest_zero]
          omega
      | succ n =>
          have hmore := heaviest_le_succ n xs
          simp only [heaviest_cons]
          omega

theorem heaviest_succ_le {b : Nat} {xs : List Nat} (h : ∀ x ∈ xs, x ≤ b)
    (n : Nat) :
    heaviest (n + 1) xs ≤ b + heaviest n xs := by
  induction xs generalizing n with
  | nil => exact Nat.zero_le _
  | cons x xs ih =>
      have hx := h x List.mem_cons_self
      have hrest := fun n => ih (fun y hy => h y (List.mem_cons_of_mem x hy)) n
      cases n with
      | zero =>
          have hzero := hrest 0
          rw [heaviest_cons, heaviest_zero] at *
          omega
      | succ n =>
          have hwith := hrest n
          have hwithout := hrest (n + 1)
          rw [heaviest_cons, heaviest_cons]
          omega

theorem heaviest_of_sorted {xs : List Nat} (h : xs.Pairwise (· ≥ ·)) (n : Nat) :
    heaviest n xs = (xs.take n).sum := by
  induction xs generalizing n with
  | nil =>
      rw [List.take_nil]
      rfl
  | cons x xs ih =>
      rcases List.pairwise_cons.mp h with ⟨hx, hxs⟩
      cases n with
      | zero => rfl
      | succ n =>
          have hfirst := heaviest_succ_le hx n
          rw [heaviest_cons, List.take_succ_cons, List.sum_cons, ← ih hxs]
          omega

namespace MethodVersions

/-!
## Counts
-/

def counts (versions : List MethodVersion) : List Nat :=
  versions.map (·.count)

def counted (method : UInt32)
    (blobs : List (List Speculation × List Dependency × BlobPlace)) :
    MethodVersions :=
  blobs.foldl (fun m b => m.add b.1 b.2.1 b.2.2) { method }

variable {m : MethodVersions} {versions versions' : List MethodVersion} {limit : Nat}

theorem Fold.sum_counts (h : Fold versions versions') :
    (counts versions').sum = (counts versions).sum := by
  rcases h with ⟨kept, dropped, rest, hbefore, hafter⟩
  have hold := (hbefore.map (·.count)).sum_eq
  have hnew := (hafter.map (·.count)).sum_eq
  unfold counts
  simp only [List.map_cons, List.sum_cons] at hold hnew
  omega

theorem Fold.heaviest_le (h : Fold versions versions') (n : Nat) :
    heaviest n (counts versions) ≤ heaviest n (counts versions') := by
  rcases h with ⟨kept, dropped, rest, hbefore, hafter⟩
  unfold counts
  rw [heaviest_perm (hbefore.map (·.count)), heaviest_perm (hafter.map (·.count))]
  exact heaviest_le_add n kept.count dropped.count _

theorem sum_counts_combine (method : UInt32) (limit : Nat)
    (versions : List MethodVersion) :
    (counts (combine method limit versions)).sum = (counts versions).sum := by
  refine forall_combine (R := fun vs => (counts vs).sum = (counts versions).sum)
    ?_ ?_ method limit rfl
  · intro vs vs' hperm hvs
    have hsum := (hperm.map (·.count)).sum_eq
    exact hsum.symm.trans hvs
  · intro vs vs' hfold hvs
    exact hfold.sum_counts.trans hvs

theorem heaviest_le_combine (method : UInt32) (limit : Nat)
    (versions : List MethodVersion) (n : Nat) :
    heaviest n (counts versions) ≤
      heaviest n (counts (combine method limit versions)) := by
  refine forall_combine
    (R := fun vs => heaviest n (counts versions) ≤ heaviest n (counts vs))
    ?_ ?_ method limit (Nat.le_refl _)
  · intro vs vs' hperm hvs
    exact Nat.le_trans hvs (Nat.le_of_eq (heaviest_perm (hperm.map _) n))
  · intro vs vs' hfold hvs
    exact Nat.le_trans hvs (hfold.heaviest_le n)

/-!
## What is kept
-/

theorem sorted_counts_ranked (h : (ids versions).Nodup) :
    (counts (ranked versions)).Pairwise (· ≥ ·) := by
  refine List.pairwise_map.mpr ((pairwise_ranked h).imp ?_)
  intro a b hbefore
  rcases hbefore with hlt | ⟨heq, -⟩
  · exact Nat.le_of_lt hlt
  · exact Nat.le_of_eq heq.symm

theorem sum_counts_take_ranked (h : (ids versions).Nodup) (limit : Nat) :
    (counts ((ranked versions).take limit)).sum =
      heaviest limit (counts versions) := by
  have hperm := (List.mergeSort_perm versions rankedBefore).map (·.count)
  unfold counts
  rw [List.map_take, ← heaviest_perm hperm]
  exact (heaviest_of_sorted (sorted_counts_ranked h) limit).symm

theorem sum_take_sorted (xs : List Nat) (n : Nat) :
    ((xs.mergeSort (· ≥ ·)).take n).sum = heaviest n xs := by
  rw [← heaviest_of_sorted (List.pairwise_mergeSort' (· ≥ ·) xs) n]
  exact heaviest_perm (List.mergeSort_perm xs _) n

/-!
## Counted blobs
-/

section

variable (method : UInt32)
  (blobs : List (List Speculation × List Dependency × BlobPlace))

theorem counted_counted : Counted (fun _ => True) (counted method blobs).versions := by
  refine List.foldlRecOn blobs _
    (motive := fun m : MethodVersions => Counted _ m.versions) (counted_nil _) ?_
  intro m hm b _
  exact (hm.add b.1 b.2.1 trivial).1

theorem method_counted : (counted method blobs).method = method := by
  refine List.foldlRecOn blobs _
    (motive := fun m : MethodVersions => m.method = method) rfl ?_
  intro m hm b _
  exact (method_add m b.1 b.2.1 b.2.2).trans hm

theorem ids_nodup_counted : (ids (counted method blobs).versions).Nodup := by
  rw [(counted_counted method blobs).ids_eq]
  exact List.nodup_range

theorem measure_counted (measure : MethodVersions → Nat)
    (hadd : ∀ m speculations dependencies place,
      measure (m.add speculations dependencies place) = measure m + 1) :
    measure (counted method blobs) = measure { method } + blobs.length := by
  have hfrom : ∀ m : MethodVersions,
      measure (blobs.foldl (fun m b => m.add b.1 b.2.1 b.2.2) m) =
        measure m + blobs.length := by
    induction blobs with
    | nil => exact fun _ => rfl
    | cons b blobs ih =>
        intro m
        rw [List.foldl_cons, ih, hadd, List.length_cons]
        omega
  exact hfrom { method }

theorem keptCount_counted : (counted method blobs).keptCount = blobs.length := by
  rw [measure_counted method blobs keptCount keptCount_add]
  exact Nat.zero_add _

theorem count_counted : (counted method blobs).count = blobs.length := by
  rw [measure_counted method blobs count fun _ _ _ _ => rfl]
  exact Nat.zero_add _

/-- However blobs of a method were counted, reducing its versions keeps originals,
not more than there may be. Without folding they are those with the largest counts.
Folding keeps the counts of all blobs, and what is kept after it stands for no fewer
blobs. -/
theorem selectBest_conserves (limit : Nat) (policy : MergePolicy) :
    Reduced limit (counted method blobs).versions
      ((counted method blobs).selectBest policy limit).versions ∧
    (∀ v ∈ ((counted method blobs).selectBest .simple limit).versions,
      v ∈ (counted method blobs).versions) ∧
    ((counted method blobs).selectBest .simple limit).keptCount =
      (((counts (counted method blobs).versions).mergeSort (· ≥ ·)).take
        limit).sum ∧
    (counts (combine method limit (counted method blobs).versions)).sum =
      blobs.length ∧
    ((counted method blobs).selectBest .simple limit).keptCount ≤
      ((counted method blobs).selectBest .coverage limit).keptCount := by
  have hids := ids_nodup_counted method blobs
  have hsimple := sum_counts_take_ranked hids limit
  have hcoverage :=
    sum_counts_take_ranked (ids_nodup_combine method limit hids) limit
  refine ⟨reduced_selectBest hids policy limit, ?_, ?_, ?_, ?_⟩
  · intro v hv
    exact mem_ranked.mp (List.mem_of_mem_take hv)
  · rw [sum_take_sorted]
    exact hsimple
  · rw [sum_counts_combine]
    exact keptCount_counted method blobs
  · -- Both sides are largest counts, which folding does not make less.
    have hle := heaviest_le_combine method limit (counted method blobs).versions limit
    rw [← hsimple, ← hcoverage] at hle
    unfold selectBest
    rw [method_counted]
    exact hle

end

end MethodVersions

end CodeCache
