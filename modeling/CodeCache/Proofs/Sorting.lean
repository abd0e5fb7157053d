import Mathlib.Algebra.Ring.Nat
import Mathlib.Data.List.Forall2

/-!
# Sorting and ties

A comparison of which only the order laws are known may tie records that differ. The
sorted list then depends on the order of storage, yet only within ties, where it keeps
that order. So what is shown of a sorted list does not depend on storage exactly if what
ties is shown alike.
-/

namespace CodeCache

variable {α β : Type} {cmp : α → α → Ordering}

def sortedBy (cmp : α → α → Ordering) (as : List α) : List α :=
  as.mergeSort fun a b => (cmp a b).isLE

def ties (cmp : α → α → Ordering) (a b : α) : Bool :=
  cmp a b == .eq

theorem ties_iff {a b : α} : ties cmp a b = true ↔ cmp a b = .eq :=
  beq_iff_eq

theorem sortedBy_perm (cmp : α → α → Ordering) (as : List α) : (sortedBy cmp as).Perm as :=
  List.mergeSort_perm as _

theorem map_eq_of_forall₂ {f : α → β} {as bs : List α}
    (h : List.Forall₂ (fun a b => cmp a b = .eq) as bs)
    (hf : ∀ a ∈ as, ∀ b ∈ bs, cmp a b = .eq → f a = f b) :
    as.map f = bs.map f := by
  induction h with
  | nil => rfl
  | @cons a b as bs hab _ ih =>
      have hhead := hf a List.mem_cons_self b List.mem_cons_self hab
      have htail := ih fun c hc d hd =>
        hf c (List.mem_cons_of_mem a hc) d (List.mem_cons_of_mem b hd)
      rw [List.map_cons, List.map_cons, hhead, htail]

variable [Std.TransCmp cmp]

theorem ties_self (a : α) : ties cmp a a = true :=
  ties_iff.mpr Std.ReflCmp.compare_self

theorem ties_congr {a b : α} (h : cmp a b = .eq) (c : α) : ties cmp c a = ties cmp c b := by
  unfold ties
  rw [Std.TransCmp.congr_right h]

theorem isLE_of_isLE_of_isLE (a b c : α) (hab : (cmp a b).isLE = true)
    (hbc : (cmp b c).isLE = true) :
    (cmp a c).isLE = true :=
  Std.TransCmp.isLE_trans hab hbc

theorem isLE_or_isLE (a b : α) : ((cmp a b).isLE || (cmp b a).isLE) = true := by
  have hswap : cmp a b = (cmp b a).swap := Std.OrientedCmp.eq_swap
  rw [hswap]
  cases cmp b a <;> rfl

theorem pairwise_sortedBy (as : List α) :
    (sortedBy cmp as).Pairwise fun a b => (cmp a b).isLE = true :=
  List.pairwise_mergeSort isLE_of_isLE_of_isLE isLE_or_isLE as

/-- Sorting is stable: what ties with one another stays in its order. -/
theorem filter_sortedBy (a : α) (as : List α) :
    (sortedBy cmp as).filter (ties cmp a) = as.filter (ties cmp a) := by
  have hties : (as.filter (ties cmp a)).Pairwise fun b c => (cmp b c).isLE = true := by
    refine List.pairwise_of_forall_mem_list fun b hb c hc => ?_
    have hab := ties_iff.mp (List.mem_filter.mp hb).2
    have hac := ties_iff.mp (List.mem_filter.mp hc).2
    rw [← Std.TransCmp.congr_left hab, hac]
    rfl
  have hsub := (List.sublist_mergeSort isLE_of_isLE_of_isLE isLE_or_isLE hties
    List.filter_sublist).filter (ties cmp a)
  rw [List.filter_filter] at hsub
  simp only [Bool.and_self] at hsub
  refine (hsub.eq_of_length ?_).symm
  exact ((sortedBy_perm cmp as).symm.filter _).length_eq

theorem isLE_head {a b : α} {as : List α}
    (h : (a :: as).Pairwise fun b c => (cmp b c).isLE = true) (hb : b ∈ a :: as) :
    (cmp a b).isLE = true := by
  rcases List.mem_cons.mp hb with rfl | hmem
  · exact Std.ReflCmp.isLE_rfl
  · exact List.rel_of_pairwise_cons h hmem

theorem isLE_head_of_countP {a b : α} {as bs : List α}
    (has : (a :: as).Pairwise fun b c => (cmp b c).isLE = true)
    (hcount : (a :: as).countP (ties cmp b) = (b :: bs).countP (ties cmp b)) :
    (cmp a b).isLE = true := by
  have hpos : 0 < (a :: as).countP (ties cmp b) := by
    rw [hcount, List.countP_pos_iff]
    exact ⟨b, List.mem_cons_self, ties_self b⟩
  obtain ⟨c, hc, htie⟩ := List.countP_pos_iff.mp hpos
  rw [Std.TransCmp.congr_right (ties_iff.mp htie)]
  exact isLE_head has hc

theorem forall₂_of_countP {as bs : List α}
    (has : as.Pairwise fun a b => (cmp a b).isLE = true)
    (hbs : bs.Pairwise fun a b => (cmp a b).isLE = true)
    (hcount : ∀ a, as.countP (ties cmp a) = bs.countP (ties cmp a)) :
    List.Forall₂ (fun a b => cmp a b = .eq) as bs := by
  induction as generalizing bs with
  | nil =>
      cases bs with
      | nil => exact .nil
      | cons b bs =>
          have hb := hcount b
          rw [List.countP_cons_of_pos (ties_self b)] at hb
          cases hb
  | cons a as ih =>
      cases bs with
      | nil =>
          have ha := hcount a
          rw [List.countP_cons_of_pos (ties_self a)] at ha
          cases ha
      | cons b bs =>
          have hab : cmp a b = .eq :=
            Std.OrientedCmp.isLE_antisymm (isLE_head_of_countP has (hcount b))
              (isLE_head_of_countP hbs (hcount a).symm)
          refine .cons hab (ih has.of_cons hbs.of_cons fun c => ?_)
          have hc := hcount c
          rw [List.countP_cons, List.countP_cons, ties_congr hab] at hc
          exact Nat.add_right_cancel hc

theorem forall₂_sortedBy {as bs : List α} (h : bs.Perm as) :
    List.Forall₂ (fun a b => cmp a b = .eq) (sortedBy cmp bs) (sortedBy cmp as) := by
  have hperm := ((sortedBy_perm cmp bs).trans h).trans (sortedBy_perm cmp as).symm
  exact forall₂_of_countP (pairwise_sortedBy bs) (pairwise_sortedBy as) fun a =>
    hperm.countP_eq _

theorem map_filter_eq {f : α → β} {as bs : List α}
    (h : List.Forall₂ (fun a b => cmp a b = .eq) as bs) (hf : as.map f = bs.map f) (c : α) :
    (as.filter (ties cmp c)).map f = (bs.filter (ties cmp c)).map f := by
  induction h with
  | nil => rfl
  | @cons a b as bs hab _ ih =>
      rw [List.map_cons, List.map_cons, List.cons.injEq] at hf
      have htail := ih hf.2
      rw [List.filter_cons, List.filter_cons, ties_congr hab]
      split
      · rw [List.map_cons, List.map_cons, hf.1, htail]
      · exact htail

/-- What is shown of a sorted list is the same for every order of storage exactly if
ties are shown alike: of two ties the one that is stored first is shown first. -/
theorem map_sortedBy_eq_iff {f : α → β} {as : List α} :
    (∀ bs, bs.Perm as → (sortedBy cmp bs).map f = (sortedBy cmp as).map f) ↔
      ∀ a ∈ as, ∀ b ∈ as, cmp a b = .eq → f a = f b := by
  constructor
  · intro h a ha b hb hab
    by_cases hsame : a = b
    · rw [hsame]
    · obtain ⟨before, after, rfl⟩ := List.append_of_mem ha
      have hb' : b ∈ before ++ after := by
        rcases List.mem_append.mp hb with hb | hb
        · exact List.mem_append_left _ hb
        · rcases List.mem_cons.mp hb with hb | hb
          · exact absurd hb.symm hsame
          · exact List.mem_append_right _ hb
      obtain ⟨before', after', hsplit⟩ := List.append_of_mem hb'
      have hperm : (a :: b :: (before' ++ after')).Perm (before ++ a :: after) := by
        refine List.Perm.trans ?_ List.perm_middle.symm
        rw [hsplit]
        exact List.perm_middle.symm.cons a
      have hswap := (List.Perm.swap a b (before' ++ after')).trans hperm
      have hshown := (h _ hperm).trans (h _ hswap).symm
      have hwithin := map_filter_eq
        (forall₂_sortedBy (hperm.trans hswap.symm)) hshown a
      rw [filter_sortedBy, filter_sortedBy,
        List.filter_cons_of_pos (ties_self a), List.filter_cons_of_pos (ties_iff.mpr hab),
        List.filter_cons_of_pos (ties_iff.mpr hab)] at hwithin
      exact (List.cons.inj hwithin).1
  · intro h bs hbs
    refine map_eq_of_forall₂ (forall₂_sortedBy hbs) fun a ha b hb => ?_
    have ha' := hbs.mem_iff.mp ((sortedBy_perm cmp bs).mem_iff.mp ha)
    exact h a ha' b ((sortedBy_perm cmp as).mem_iff.mp hb)

end CodeCache
