import CodeCache.FileTree

/-!
# Written files

A file that was written is found again at the path that it was written to. The
path leads through directories only, and none of them gives way to the file.
-/

namespace CodeCache

namespace FileTree

variable {t t' : FileTree} {place : Place} {node : FileNode}

theorem node?_setNode_of_ne {q : Place} (h : q ≠ place) :
    (t.setNode place node).node? q = t.node? q := by
  have hfilter : ∀ nodes : List (Place × FileNode),
      (nodes.filter (·.1 != place)).lookup q = nodes.lookup q := by
    intro nodes
    induction nodes with
    | nil => rfl
    | cons entry nodes ih =>
        rcases entry with ⟨p, n⟩
        by_cases hp : p = place
        · have hq : (q == p) = false := by
            rw [beq_eq_false_iff_ne, hp]
            exact h
          rw [List.filter_cons_of_neg (by simp [hp]), ih, List.lookup_cons, hq]
        · rw [List.filter_cons_of_pos (by simp [hp]), List.lookup_cons,
            List.lookup_cons, ih]
  unfold node? setNode
  split
  · rfl
  · rw [List.lookup_cons, beq_eq_false_iff_ne.mpr h]
    exact hfilter t.nodes

theorem follow_setNode (hplace : t.isDirectoryAt place = false) {start q : Place}
    {parts : List String} (h : t.follow start parts = some q) :
    (t.setNode place node).follow start parts = some q := by
  induction parts generalizing start with
  | nil => exact h
  | cons part parts ih =>
      unfold follow at h ⊢
      split at h
      · rename_i hpasses
        have hdirectory := (Bool.and_eq_true_iff.mp hpasses).1
        have hne : start ≠ place := by
          intro heq
          rw [heq, hplace] at hdirectory
          cases hdirectory
        have hsame : (t.setNode place node).isDirectoryAt start =
            t.isDirectoryAt start := by
          unfold isDirectoryAt
          rw [node?_setNode_of_ne hne]
        rw [hsame, if_pos hpasses]
        exact ih h
      · cases h

theorem at?_write {path : String} {bytes : Bytes}
    (h : t.write path bytes = some t') :
    t'.at? path = some (.file bytes) := by
  unfold write at h
  cases hplace : t.place? path with
  | none =>
      rw [hplace] at h
      cases h
  | some place =>
      rw [hplace] at h
      dsimp only at h
      split at h
      · cases h
      · rename_i hdirectory
        rw [Bool.not_eq_true] at hdirectory
        cases h
        have hgiven : isGiven place = false := by
          rw [← Bool.not_eq_true]
          intro hgiven
          unfold isDirectoryAt node? at hdirectory
          rw [if_pos hgiven] at hdirectory
          cases hdirectory
        have hsame : (t.setNode place (.file bytes)).place? path = some place := by
          unfold place? at hplace ⊢
          split at hplace
          · cases hplace
          · rename_i hpath
            rw [if_neg hpath]
            exact follow_setNode hdirectory hplace
        unfold at?
        rw [hsame]
        exact node?_setNode_self hgiven

end FileTree

end CodeCache
