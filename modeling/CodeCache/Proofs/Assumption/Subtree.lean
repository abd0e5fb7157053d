import CodeCache.Assumption.Hierarchy
import Mathlib.Data.List.Nodup
import Mathlib.Data.List.Perm.Subperm
import Mathlib.Logic.Relation

/-!
# The classes below a class

The walk through the hierarchy lists the classes that can be reached from its
context, each once. It never runs out of steps: every class that it lists has a
handle of its own.
-/

namespace CodeCache.Hierarchy

/-- A class is the context, or is reached from it over direct subclasses and
implementors. -/
def Below (host : Host) (context k : ClassId) : Prop :=
  Relation.ReflTransGen (fun parent child => child ∈ host.subclasses parent) context k

theorem mem_of_handleCount_le {seen : List ClassId} (hnodup : seen.Nodup)
    (hlength : handleCount ≤ seen.length) (k : ClassId) :
    k ∈ seen := by
  by_contra hk
  have hinjective : Function.Injective fun k : ClassId => k.index.toNat := by
    rintro ⟨i⟩ ⟨j⟩ h
    exact congrArg ClassId.mk (UInt32.toNat_inj.mp h)
  have hindices : ((k :: seen).map fun k => k.index.toNat).Nodup :=
    (List.nodup_cons.mpr ⟨hk, hnodup⟩).map hinjective
  have hrange : ((k :: seen).map fun k => k.index.toNat) ⊆ List.range handleCount := by
    intro n hn
    rcases List.mem_map.mp hn with ⟨k, -, rfl⟩
    exact List.mem_range.mpr k.index.toNat_lt
  have hle := (hindices.subperm hrange).length_le
  rw [List.length_map, List.length_cons, List.length_range] at hle
  omega

section Walk

variable {next : ClassId → List ClassId} {steps : Nat} {seen stack : List ClassId}

/-- What a step of the walk finds: classes that were seen on top of the stack, and
the first one that was not. -/
theorem dropWhile_cases (seen stack : List ClassId) :
    (stack.dropWhile (seen.contains ·) = [] ∧ stack ⊆ seen) ∨
      ∃ k rest, stack.dropWhile (seen.contains ·) = k :: rest ∧ k ∉ seen ∧
        k ∈ stack ∧ rest ⊆ stack ∧ ∀ a ∈ stack, a ∈ seen ∨ a = k ∨ a ∈ rest := by
  induction stack with
  | nil => exact Or.inl ⟨rfl, List.nil_subset _⟩
  | cons a stack ih =>
      by_cases ha : a ∈ seen
      · rw [List.dropWhile_cons_of_pos (List.contains_iff_mem.mpr ha)]
        rcases ih with ⟨hnil, hseen⟩ | ⟨k, rest, hdrop, hk, hmem, hrest, hall⟩
        · exact Or.inl ⟨hnil, List.cons_subset.mpr ⟨ha, hseen⟩⟩
        · refine Or.inr ⟨k, rest, hdrop, hk, List.mem_cons_of_mem a hmem,
            List.subset_cons_of_subset a hrest, ?_⟩
          exact List.forall_mem_cons.mpr ⟨Or.inl ha, hall⟩
      · rw [List.dropWhile_cons_of_neg (by simpa using ha)]
        refine Or.inr ⟨a, stack, rfl, ha, List.mem_cons_self,
          List.subset_cons_self a stack, ?_⟩
        intro b hb
        exact Or.inr (List.mem_cons.mp hb)

theorem walk_nodup :
    (walk next steps seen stack).Nodup ∧ ∀ k ∈ walk next steps seen stack, k ∉ seen := by
  induction steps generalizing seen stack with
  | zero => exact ⟨List.nodup_nil, nofun⟩
  | succ steps ih =>
      unfold walk
      rcases dropWhile_cases seen stack with ⟨hdrop, -⟩ | ⟨k, rest, hdrop, hk, -⟩
      · rw [hdrop]
        exact ⟨List.nodup_nil, nofun⟩
      · rw [hdrop]
        rcases @ih (k :: seen) ((next k).reverse ++ rest) with ⟨hnodup, hfresh⟩
        constructor
        · exact List.nodup_cons.mpr
            ⟨fun hmem => hfresh k hmem List.mem_cons_self, hnodup⟩
        · refine List.forall_mem_cons.mpr ⟨hk, ?_⟩
          intro a ha hseen
          exact hfresh a ha (List.mem_cons_of_mem k hseen)

theorem exists_of_mem_walk {k : ClassId} (h : k ∈ walk next steps seen stack) :
    ∃ a ∈ stack, Relation.ReflTransGen (fun p c => c ∈ next p) a k := by
  induction steps generalizing seen stack with
  | zero => cases h
  | succ steps ih =>
      unfold walk at h
      rcases dropWhile_cases seen stack with
        ⟨hdrop, -⟩ | ⟨first, rest, hdrop, -, hfirst, hrest, -⟩
      · rw [hdrop] at h
        cases h
      · rw [hdrop] at h
        rcases List.mem_cons.mp h with rfl | h
        · exact ⟨k, hfirst, .refl⟩
        · rcases ih h with ⟨a, ha, hreach⟩
          rcases List.mem_append.mp ha with hchild | hlater
          · exact ⟨first, hfirst, .head (List.mem_reverse.mp hchild) hreach⟩
          · exact ⟨a, hrest hlater, hreach⟩

/-- Where the classes below each class seen are on the stack at least, the walk
completes what was seen: nothing leads out of it. -/
theorem walk_closes (hnodup : seen.Nodup) (hsteps : handleCount ≤ seen.length + steps)
    (hopen : ∀ p ∈ seen, ∀ k ∈ next p, k ∈ seen ∨ k ∈ stack) :
    (∀ k ∈ stack, k ∈ seen ∨ k ∈ walk next steps seen stack) ∧
      ∀ p, p ∈ seen ∨ p ∈ walk next steps seen stack →
        ∀ k ∈ next p, k ∈ seen ∨ k ∈ walk next steps seen stack := by
  induction steps generalizing seen stack with
  | zero =>
      have hall := mem_of_handleCount_le hnodup hsteps
      exact ⟨fun k _ => Or.inl (hall k), fun _ _ k _ => Or.inl (hall k)⟩
  | succ steps ih =>
      unfold walk
      rcases dropWhile_cases seen stack with
        ⟨hdrop, hseen⟩ | ⟨first, rest, hdrop, hfirst, -, -, hall⟩
      · rw [hdrop]
        refine ⟨fun k hk => Or.inl (hseen hk), ?_⟩
        rintro p (hp | hp) k hk
        · exact Or.inl ((hopen p hp k hk).elim id fun hk => hseen hk)
        · cases hp
      · rw [hdrop]
        have hopen' : ∀ p ∈ first :: seen, ∀ k ∈ next p,
            k ∈ first :: seen ∨ k ∈ (next first).reverse ++ rest := by
          intro p hp k hk
          rcases List.mem_cons.mp hp with rfl | hp
          · exact Or.inr (List.mem_append_left rest (List.mem_reverse.mpr hk))
          · rcases hopen p hp k hk with hk | hk
            · exact Or.inl (List.mem_cons_of_mem first hk)
            · rcases hall k hk with hk | rfl | hk
              · exact Or.inl (List.mem_cons_of_mem first hk)
              · exact Or.inl List.mem_cons_self
              · exact Or.inr (List.mem_append_right _ hk)
        rcases ih (List.nodup_cons.mpr ⟨hfirst, hnodup⟩)
          (by rw [List.length_cons]; omega) hopen' with ⟨hstack, hclosed⟩
        -- the class just listed counts as seen from here on
        have hmove : ∀ k {listed : List ClassId},
            (k ∈ first :: seen ∨ k ∈ listed) ↔ (k ∈ seen ∨ k ∈ first :: listed) := by
          intro k listed
          simp only [List.mem_cons]
          tauto
        constructor
        · intro k hk
          rcases hall k hk with hk | rfl | hk
          · exact Or.inl hk
          · exact Or.inr List.mem_cons_self
          · exact (hmove k).mp (hstack k (List.mem_append_right _ hk))
        · intro p hp k hk
          exact (hmove k).mp (hclosed p ((hmove p).mpr hp) k hk)

end Walk

variable {host : Host} {context k : ClassId}

theorem nodup_subtree (host : Host) (context : ClassId) : (subtree host context).Nodup :=
  walk_nodup.1

/-- The walk lists exactly the classes below its context. -/
theorem mem_subtree_iff : k ∈ subtree host context ↔ Below host context k := by
  constructor
  · intro h
    rcases exists_of_mem_walk h with ⟨a, ha, hreach⟩
    rw [List.mem_singleton.mp ha] at hreach
    exact hreach
  · intro h
    have hcloses := @walk_closes host.subclasses handleCount [] [context] List.nodup_nil
      (Nat.le_add_left _ _) nofun
    have hmem : k ∈ ([] : List ClassId) ∨ k ∈ subtree host context := by
      induction h with
      | refl => exact hcloses.1 context List.mem_cons_self
      | tail _ hchild ih => exact hcloses.2 _ ih _ hchild
    exact hmem.elim nofun id

theorem mem_concreteSubtypes_iff :
    k ∈ concreteSubtypes host context ↔ Below host context k ∧ host.isConcrete k = true := by
  unfold concreteSubtypes
  rw [List.mem_filter, mem_subtree_iff]

theorem nodup_concreteSubtypes (host : Host) (context : ClassId) :
    (concreteSubtypes host context).Nodup :=
  (nodup_subtree host context).filter _

theorem concreteSubtypes_eq_singleton_iff :
    concreteSubtypes host context = [k] ↔ ∀ l, l ∈ concreteSubtypes host context ↔ l = k := by
  constructor
  · intro h l
    rw [h, List.mem_singleton]
  · intro h
    refine List.perm_singleton.mp ((List.perm_ext_iff_of_nodup
      (nodup_concreteSubtypes host context) (List.nodup_singleton k)).mpr ?_)
    intro l
    rw [h, List.mem_singleton]

theorem mem_concreteMethods_iff {m found : MethodId} :
    found ∈ concreteMethods host context m ↔
      (∃ k, Below host context k ∧
        host.declaredMethod k (host.methodName m) (host.methodSignature m) = some found) ∧
      host.isAbstractMethod found = false := by
  unfold concreteMethods
  simp only [List.mem_filter, List.mem_filterMap, mem_subtree_iff, Bool.not_eq_true']

end CodeCache.Hierarchy
