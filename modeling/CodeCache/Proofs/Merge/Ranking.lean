import CodeCache.Merge.Version
import Mathlib.Algebra.Ring.Nat
import Mathlib.Data.List.Nodup

/-!
# The versions that are kept of a method

Versions are numbered in the order in which they are first seen. Counting keeps
the numbers, folding drops some, and what is kept is ranked by how often it was
seen and then by its number.
-/

namespace CodeCache

namespace MethodVersions

def ids (versions : List MethodVersion) : List Nat :=
  versions.map (·.id)

structure Proper (P : BlobPlace → Prop) (versions : List MethodVersion) :
    Prop where
  ne_nil : versions ≠ []
  ids_nodup : (ids versions).Nodup
  places : ∀ v ∈ versions, P v.place

structure Counted (P : BlobPlace → Prop) (versions : List MethodVersion) :
    Prop where
  ids_eq : ids versions = List.range versions.length
  places : ∀ v ∈ versions, P v.place

variable {P Q : BlobPlace → Prop} {versions versions' : List MethodVersion}
  {v : MethodVersion}

/-!
## Counting
-/

theorem counted_nil (P : BlobPlace → Prop) : Counted P [] :=
  ⟨rfl, fun _ hv => absurd hv List.not_mem_nil⟩

theorem Counted.imp (h : Counted P versions) (hPQ : ∀ p, P p → Q p) :
    Counted Q versions :=
  ⟨h.ids_eq, fun v hv => hPQ _ (h.places v hv)⟩

theorem Counted.proper (h : Counted P versions) (hne : versions ≠ []) :
    Proper P versions :=
  ⟨hne, h.ids_eq ▸ List.nodup_range, h.places⟩

theorem countOne?_eq_some {test : MethodVersion → Bool}
    (h : countOne? test versions = some versions') :
    ∃ front v back, versions = front ++ v :: back ∧ test v = true ∧
      versions' = front ++ { v with count := v.count + 1 } :: back := by
  induction versions generalizing versions' with
  | nil => cases h
  | cons v rest ih =>
      unfold countOne? at h
      split at h
      · rename_i hv
        cases h
        exact ⟨[], v, rest, rfl, hv, rfl⟩
      · rw [Option.map_eq_some_iff] at h
        rcases h with ⟨rest', hrest, rfl⟩
        rcases ih hrest with ⟨front, w, back, rfl, hw, rfl⟩
        exact ⟨v :: front, w, back, rfl, hw, rfl⟩

theorem countOne?_eq_none {test : MethodVersion → Bool}
    (h : countOne? test versions = none) :
    ∀ v ∈ versions, test v = false := by
  induction versions with
  | nil => exact nofun
  | cons v rest ih =>
      unfold countOne? at h
      split at h
      · cases h
      · rename_i hv
        rw [Option.map_eq_none_iff] at h
        exact List.forall_mem_cons.mpr ⟨Bool.eq_false_iff.mpr hv, ih h⟩

theorem of_countOne? {test : MethodVersion → Bool}
    (h : countOne? test versions = some versions') :
    ids versions' = ids versions ∧
      versions'.map (·.place) = versions.map (·.place) := by
  rcases countOne?_eq_some h with ⟨front, v, back, rfl, -, rfl⟩
  constructor
  · simp [ids]
  · simp

theorem Counted.add {m : MethodVersions} (hm : Counted P m.versions)
    (speculations : List Speculation) (dependencies : List Dependency)
    {place : BlobPlace} (hplace : P place) :
    Counted P (m.add speculations dependencies place).versions ∧
      (m.add speculations dependencies place).versions ≠ [] := by
  unfold MethodVersions.add
  dsimp only
  split
  · rename_i versions hcount
    rcases of_countOne? hcount with ⟨hids, hplaces⟩
    have hlength : versions.length = m.versions.length := by
      have h := congrArg List.length hids
      unfold ids at h
      rw [List.length_map, List.length_map] at h
      exact h
    refine ⟨⟨?_, ?_⟩, ?_⟩
    · rw [hids, hm.ids_eq, hlength]
    · intro v hv
      have hmem := List.mem_map_of_mem (f := fun v : MethodVersion => v.place) hv
      rw [hplaces, List.mem_map] at hmem
      rcases hmem with ⟨w, hw, heq⟩
      rw [← heq]
      exact hm.places w hw
    · rintro rfl
      cases hold : m.versions with
      | nil =>
          rw [hold] at hcount
          cases hcount
      | cons v rest =>
          rw [hold] at hlength
          cases hlength
  · refine ⟨⟨?_, ?_⟩, List.concat_ne_nil _ _⟩
    · unfold ids
      rw [List.map_append, List.length_append, List.length_singleton,
        List.range_succ]
      exact congrArg (· ++ [m.versions.length]) hm.ids_eq
    · intro v hv
      rcases List.mem_append.mp hv with hold | hnew
      · exact hm.places v hold
      · rw [List.mem_singleton.mp hnew]
        exact hplace

theorem method_add (m : MethodVersions) (speculations : List Speculation)
    (dependencies : List Dependency) (place : BlobPlace) :
    (m.add speculations dependencies place).method = m.method :=
  rfl

/-!
## Ranking
-/

def Before (a b : MethodVersion) : Prop :=
  b.count < a.count ∨ (a.count = b.count ∧ a.id < b.id)

theorem rankedBefore_iff {a b : MethodVersion} :
    rankedBefore a b = true ↔
      b.count < a.count ∨ (a.count = b.count ∧ a.id ≤ b.id) := by
  unfold rankedBefore
  rw [Ordering.isLE_then_iff_or]
  simp only [Nat.compare_eq_lt, Nat.compare_eq_eq, Nat.isLE_compare]
  omega

theorem mem_ranked : v ∈ ranked versions ↔ v ∈ versions :=
  (List.mergeSort_perm versions rankedBefore).mem_iff

theorem ids_ranked (versions : List MethodVersion) :
    (ids (ranked versions)).Perm (ids versions) :=
  (List.mergeSort_perm versions rankedBefore).map _

theorem pairwise_ranked (h : (ids versions).Nodup) :
    (ranked versions).Pairwise Before := by
  have hsorted : (ranked versions).Pairwise (rankedBefore · ·) := by
    refine List.pairwise_mergeSort ?_ ?_ versions
    · intro a b c hab hbc
      rw [rankedBefore_iff] at hab hbc ⊢
      omega
    · intro a b
      rw [Bool.or_eq_true, rankedBefore_iff, rankedBefore_iff]
      omega
  have hdistinct : (ranked versions).Pairwise (·.id ≠ ·.id) :=
    List.pairwise_map.mp ((ids_ranked versions).nodup_iff.mpr h)
  refine (hsorted.and hdistinct).imp ?_
  rintro a b ⟨hranked, hne⟩
  rw [rankedBefore_iff] at hranked
  unfold Before
  omega

/-!
## Folding
-/

/-- One version takes the place of two and stands for the blobs of both. -/
inductive Fold (versions versions' : List MethodVersion) : Prop where
  | intro (kept dropped : MethodVersion) (rest : List MethodVersion)
      (hbefore : versions.Perm (kept :: dropped :: rest))
      (hafter : versions'.Perm
        ({ kept with count := kept.count + dropped.count } :: rest))

theorem Fold.of_perm {more : List MethodVersion} (h : Fold versions versions')
    (hperm : more.Perm versions) :
    Fold more versions' := by
  rcases h with ⟨kept, dropped, rest, hbefore, hafter⟩
  exact ⟨kept, dropped, rest, hperm.trans hbefore, hafter⟩

theorem Fold.append (h : Fold versions versions') (more : List MethodVersion) :
    Fold (versions ++ more) (versions' ++ more) := by
  rcases h with ⟨kept, dropped, rest, hbefore, hafter⟩
  exact ⟨kept, dropped, rest ++ more, hbefore.append_right more,
    hafter.append_right more⟩

theorem Fold.cons (h : Fold versions versions') (w : MethodVersion) :
    Fold (w :: versions) (w :: versions') := by
  rcases h with ⟨kept, dropped, rest, hbefore, hafter⟩
  refine ⟨kept, dropped, w :: rest, ?_, ?_⟩
  · refine (hbefore.cons w).trans (List.Perm.trans (.swap kept w _) ?_)
    exact (List.Perm.swap dropped w rest).cons kept
  · exact (hafter.cons w).trans (.swap _ w rest)

theorem fold_of_foldInto? {method : UInt32}
    (h : foldInto? method v versions = some versions') :
    Fold (v :: versions) versions' := by
  induction versions generalizing versions' with
  | nil => cases h
  | cons w rest ih =>
      unfold foldInto? at h
      split at h
      · cases h
        exact ⟨w, v, rest, .swap w v rest, .refl _⟩
      · split at h
        · cases h
          exact ⟨v, w, rest, .refl _, .refl _⟩
        · rw [Option.map_eq_some_iff] at h
          rcases h with ⟨rest', hfold, rfl⟩
          exact ((ih hfold).cons w).of_perm (.swap w v rest)

theorem forall_combineDown {R : List MethodVersion → Prop}
    (hfold : ∀ vs vs', Fold vs vs' → R vs → R vs') {method : UInt32} {limit : Nat}
    (i : Nat) (h : R versions) :
    R (combineDown method limit i versions) := by
  induction i generalizing versions with
  | zero => exact h
  | succ i ih =>
      unfold combineDown
      split
      · exact h
      · split
        · rename_i front hfront
          rw [Option.bind_eq_some_iff] at hfront
          rcases hfront with ⟨v, hv, hfront⟩
          have hsplit : versions.Perm
              (v :: versions.take (i + 1) ++ versions.drop (i + 2)) := by
            rcases List.getElem?_eq_some_iff.mp hv with ⟨hlt, heq⟩
            have hparts := List.take_append_drop (i + 1) versions
            rw [List.drop_eq_getElem_cons hlt, heq] at hparts
            conv_lhs => rw [← hparts]
            exact List.perm_middle
          have hstep := ((fold_of_foldInto? hfront).append
            (versions.drop (i + 2))).of_perm hsplit
          exact ih (hfold _ _ hstep h)
        · exact ih h

theorem forall_combine {R : List MethodVersion → Prop}
    (hperm : ∀ vs vs' : List MethodVersion, vs.Perm vs' → R vs → R vs')
    (hfold : ∀ vs vs', Fold vs vs' → R vs → R vs') (method : UInt32) (limit : Nat)
    (h : R versions) :
    R (combine method limit versions) :=
  forall_combineDown hfold _
    (hperm _ _ (List.mergeSort_perm versions rankedBefore).symm h)

theorem Fold.ids_nodup (h : Fold versions versions') (hids : (ids versions).Nodup) :
    (ids versions').Nodup := by
  rcases h with ⟨kept, dropped, rest, hbefore, hafter⟩
  have hold : (ids (kept :: dropped :: rest)).Nodup :=
    (hbefore.map _).nodup_iff.mp hids
  refine (hafter.map _).nodup_iff.mpr ?_
  exact hold.sublist (.cons_cons _ (.cons _ (.refl _)))

theorem ids_nodup_combine (method : UInt32) (limit : Nat)
    (h : (ids versions).Nodup) :
    (ids (combine method limit versions)).Nodup :=
  forall_combine (fun _ _ hperm hvs => (hperm.map _).nodup_iff.mp hvs)
    (fun _ _ hfold hvs => hfold.ids_nodup hvs) method limit h

theorem Fold.ne_nil (h : Fold versions versions') : versions' ≠ [] := by
  rcases h with ⟨kept, dropped, rest, -, hafter⟩
  rintro rfl
  exact List.cons_ne_nil _ _ hafter.symm.eq_nil

theorem combine_ne_nil (method : UInt32) (limit : Nat) (h : versions ≠ []) :
    combine method limit versions ≠ [] := by
  refine forall_combine (R := (· ≠ [])) ?_ (fun _ _ hfold _ => hfold.ne_nil)
    method limit h
  rintro vs vs' hperm hvs rfl
  exact hvs hperm.eq_nil

/-- Every version is one of the others, with its own place and assumptions; only its
count may be another one. -/
def Originals (versions versions' : List MethodVersion) : Prop :=
  ∀ v ∈ versions', ∃ w ∈ versions, v = { w with count := v.count }

theorem originals_combine (method : UInt32) (limit : Nat)
    (versions : List MethodVersion) :
    Originals versions (combine method limit versions) := by
  refine forall_combine (R := Originals versions) ?_ ?_ method limit
    fun v hv => ⟨v, hv, rfl⟩
  · intro vs vs' hperm hvs v hv
    exact hvs v (hperm.mem_iff.mpr hv)
  · rintro vs vs' ⟨kept, dropped, rest, hbefore, hafter⟩ hvs v hv
    rcases List.mem_cons.mp (hafter.mem_iff.mp hv) with rfl | hmem
    · rcases hvs kept (hbefore.mem_iff.mpr List.mem_cons_self) with
        ⟨w, hw, heq⟩
      refine ⟨w, hw, ?_⟩
      rw [heq]
    · exact hvs v (hbefore.mem_iff.mpr
        (List.mem_cons_of_mem _ (List.mem_cons_of_mem _ hmem)))

/-!
## Selecting
-/

/-- What may be kept of some versions: not more than so many, all of them originals,
each at most once and in their order. -/
structure Reduced (limit : Nat) (versions kept : List MethodVersion) : Prop where
  length_le : kept.length ≤ limit
  originals : Originals versions kept
  ids_nodup : (ids kept).Nodup
  ordered : kept.Pairwise Before

variable {m : MethodVersions} {limit : Nat}

theorem reduced_take_ranked (hids : (ids versions').Nodup)
    (horiginal : Originals versions versions') :
    Reduced limit versions ((ranked versions').take limit) := by
  refine ⟨List.length_take_le _ _, ?_, ?_, (pairwise_ranked hids).take⟩
  · intro v hv
    exact horiginal v (mem_ranked.mp (List.mem_of_mem_take hv))
  · exact ((ids_ranked versions').nodup_iff.mpr hids).sublist
      ((List.take_sublist _ _).map _)

theorem reduced_selectBest (h : (ids m.versions).Nodup) (policy : MergePolicy)
    (limit : Nat) :
    Reduced limit m.versions (m.selectBest policy limit).versions := by
  cases policy with
  | simple => exact reduced_take_ranked h fun v hv => ⟨v, hv, rfl⟩
  | coverage =>
      exact reduced_take_ranked (ids_nodup_combine m.method limit h)
        (originals_combine m.method limit m.versions)

theorem selectBest_ne_nil (h : m.versions ≠ []) (policy : MergePolicy)
    (hlimit : 0 < limit) :
    (m.selectBest policy limit).versions ≠ [] := by
  have htake : ∀ {vs : List MethodVersion}, vs ≠ [] →
      (ranked vs).take limit ≠ [] := by
    intro vs hvs hnil
    rcases List.take_eq_nil_iff.mp hnil with hzero | hnil
    · omega
    · have hperm := List.mergeSort_perm vs rankedBefore
      rw [show vs.mergeSort rankedBefore = [] from hnil] at hperm
      exact hvs hperm.symm.eq_nil
  cases policy with
  | simple => exact htake h
  | coverage => exact htake (combine_ne_nil m.method limit h)

theorem Proper.selectBest (h : Proper P m.versions) (policy : MergePolicy)
    (hlimit : 0 < limit) :
    Proper P (m.selectBest policy limit).versions ∧
      (m.selectBest policy limit).versions.Pairwise Before := by
  have hreduced := reduced_selectBest h.ids_nodup policy limit
  refine ⟨⟨selectBest_ne_nil h.ne_nil policy hlimit, hreduced.ids_nodup, ?_⟩,
    hreduced.ordered⟩
  intro v hv
  rcases hreduced.originals v hv with ⟨w, hw, heq⟩
  rw [heq]
  exact h.places w hw

end MethodVersions

end CodeCache
