import CodeCache.Proofs.Sorting
import CodeCache.Store.File

/-!
# Listings of speculations

A listing shows speculations by sort, and then by the names behind their slots, yet not
by all of them: the receivers of a call and the edge of a branch are shown and not
compared. What is shown of a record is made of what is compared and of these, so records
that tie are shown alike exactly if they agree in these.
-/

namespace CodeCache

namespace Speculation

/-!
## The order of records
-/

@[simp] def ownerName (name : UInt32 → String) (r : Speculation) : String :=
  (r.owner?.map name).getD ""

@[simp] def morphism : Speculation → Int32
  | deVirtual _ _ _ _ morphism _ => morphism
  | _ => 0

@[simp] def missRank : Speculation → Nat
  | deVirtual _ _ _ _ _ missIsTrap => (!missIsTrap).toNat
  | _ => 0

@[simp] def calleeName (name : UInt32 → String) : Speculation → String
  | inlined _ callee _ => name callee
  | _ => ""

@[simp] def offset : Speculation → UInt32
  | constantReplace _ offset _ _ => offset
  | _ => 0

@[simp] def typeIndex : Speculation → Nat
  | constantReplace _ _ type _ => type.index
  | _ => 0

@[simp] def value : Speculation → Int64
  | constantReplace _ _ _ value => value
  | _ => 0

@[simp] def holderName (name : UInt32 → String) : Speculation → String
  | constantReplace klass _ _ _ => name klass
  | _ => ""

def compareParts (name : UInt32 → String) : Speculation → Speculation → Ordering :=
  compareLex (compareOn ordinal) <| compareLex (compareOn offset) <|
    compareLex (compareOn typeIndex) <| compareLex (compareOn value) <|
    compareLex (compareOn (holderName name)) <| compareLex (compareOn (ownerName name)) <|
    compareLex (compareOn bci) <| compareLex (compareOn morphism) <|
    compareLex (compareOn missRank) (compareOn (calleeName name))

instance (name : UInt32 → String) : Std.TransCmp (compareParts name) := by
  unfold compareParts
  infer_instance

theorem compareBool_eq (s t : Bool) :
    compareBool t s = compare (!s).toNat (!t).toNat := by
  cases s <;> cases t <;> rfl

theorem then_of_ne_eq {o : Ordering} (h : o ≠ .eq) (p : Ordering) : o.then p = o := by
  cases o with
  | eq => exact absurd rfl h
  | _ => rfl

theorem compareByName_eq (name : UInt32 → String) (a b : Speculation) :
    compareByName name a b = compareParts name a b := by
  by_cases hsort : a.ordinal = b.ordinal
  · cases a with
    | deVirtual =>
        cases b with
        | deVirtual =>
            simp [compareByName, compareParts, compareLex, compareOn, ordinal, owner?, bci,
              compareBool_eq]
        | _ => cases hsort
    | inlined =>
        cases b with
        | inlined =>
            simp [compareByName, compareParts, compareLex, compareOn, ordinal, owner?, bci]
        | _ => cases hsort
    | profiledReceiver =>
        cases b with
        | profiledReceiver =>
            simp [compareByName, compareParts, compareLex, compareOn, ordinal, owner?, bci]
        | _ => cases hsort
    | unstableIf =>
        cases b with
        | unstableIf =>
            simp [compareByName, compareParts, compareLex, compareOn, ordinal, owner?, bci]
        | _ => cases hsort
    | constantReplace =>
        cases b with
        | constantReplace =>
            simp [compareByName, compareParts, compareLex, compareOn, ordinal, owner?, bci]
        | _ => cases hsort
  · have hne : compare a.ordinal b.ordinal ≠ .eq := by
      simpa using hsort
    have hleft : compareByName name a b = compare a.ordinal b.ordinal := then_of_ne_eq hne _
    have hright : compareParts name a b = compare a.ordinal b.ordinal := then_of_ne_eq hne _
    rw [hleft, hright]

instance (name : UInt32 → String) : Std.TransCmp (compareByName name) := by
  have heq : compareByName name = compareParts name := by
    funext a b
    exact compareByName_eq name a b
  rw [heq]
  infer_instance

/-!
## What is shown of a record
-/

/-- What is shown of a record and not compared. -/
def unranked (name : UInt32 → String) : Speculation → String
  | deVirtual _ _ klass1 klass2 _ _ =>
    name klass1 ++ (klass2.map fun k => "  klass2: " ++ name k).getD ""
  | profiledReceiver _ _ klass => name klass
  | unstableIf _ _ takenTrap => if takenTrap then "taken" else "untaken"
  | _ => ""

def front (name : UInt32 → String) (r : Speculation) : String :=
  let owner := ownerName name r
  match r.ordinal with
  | 0 => s!"DeVirtual at method={owner} bci={r.bci.toInt} morphism={r.morphism.toInt}"
      ++ "  klass1: "
  | 1 => s!"Inline at method={owner} bci={r.bci.toInt} callee: {calleeName name r}"
  | 2 => s!"ProfiledReceiver at method={owner} bci={r.bci.toInt} klass: "
  | 3 => s!"ProfiledUnstableIf at method={owner} bci={r.bci.toInt} uncommon trap: "
  | _ => s!"ConstantReplace at klass: {holderName name r} field offset: {r.offset}"

def back (r : Speculation) : String :=
  match r.ordinal with
  | 0 => if r.missRank = 0 then "  default: trap" else "  default: virtual call"
  | 3 => " edge"
  | _ => ""

theorem describe_eq (name : UInt32 → String) (r : Speculation) :
    r.describe name = r.front name ++ r.unranked name ++ r.back := by
  cases r with
  | deVirtual method bci klass1 klass2 morphism missIsTrap =>
      unfold unranked
      rw [← String.append_assoc]
      cases missIsTrap <;> rfl
  | profiledReceiver => exact String.append_empty.symm
  | unstableIf => rfl
  | _ =>
      change _ = _ ++ "" ++ ""
      rw [String.append_empty, String.append_empty]
      rfl

theorem front_eq_and_back_eq {name : UInt32 → String} {a b : Speculation}
    (h : compareByName name a b = .eq) :
    a.front name = b.front name ∧ a.back = b.back := by
  rw [compareByName_eq] at h
  simp only [compareParts, compareLex, compareOn, Ordering.then_eq_eq,
    Std.compare_eq_iff_eq] at h
  obtain ⟨hsort, hoffset, -, -, hholder, howner, hbci, hmorphism, hmiss, hcallee⟩ := h
  unfold front back
  rw [hsort, hoffset, hholder, howner, hbci, hmorphism, hmiss, hcallee]
  exact ⟨rfl, rfl⟩

theorem describe_eq_iff {name : UInt32 → String} {a b : Speculation}
    (h : compareByName name a b = .eq) :
    a.describe name = b.describe name ↔ a.unranked name = b.unranked name := by
  obtain ⟨hfront, hback⟩ := front_eq_and_back_eq h
  rw [describe_eq, describe_eq, hfront, hback, String.append_left_inj,
    String.append_right_inj]

/-!
## Listings
-/

def listing (name : UInt32 → String) (rs : List Speculation) : List String :=
  (sortedBy (compareByName name) rs).map (describe name)

/-- The order of records is a total preorder. A listing is the same for every order of
storage exactly if ties do not differ in what is shown of them and not compared. -/
theorem listing_ignores_storage_iff (name : UInt32 → String) :
    ((∀ a, compareByName name a a = .eq) ∧
      (∀ a b, compareByName name a b = (compareByName name b a).swap) ∧
      ∀ a b c, (compareByName name a b).isLE = true → (compareByName name b c).isLE = true →
        (compareByName name a c).isLE = true) ∧
    ∀ rs, (∀ rs', rs'.Perm rs → listing name rs' = listing name rs) ↔
      ∀ a ∈ rs, ∀ b ∈ rs, compareByName name a b = .eq →
        a.unranked name = b.unranked name := by
  refine ⟨⟨?_, ?_, isLE_of_isLE_of_isLE⟩, fun rs => ?_⟩
  · exact fun a => Std.ReflCmp.compare_self
  · exact fun a b => Std.OrientedCmp.eq_swap
  · unfold listing
    rw [map_sortedBy_eq_iff]
    refine forall₂_congr fun a ha => forall₂_congr fun b hb => ?_
    exact forall_congr' describe_eq_iff

theorem listing_of_pairwise {name : UInt32 → String} {rs : List Speculation}
    (h : rs.Pairwise fun a b => (compareByName name a b).isLE = true) :
    listing name rs = rs.map (describe name) := by
  unfold listing sortedBy
  rw [List.mergeSort_of_pairwise h]

def receivers : List Speculation :=
  [.profiledReceiver 1 3 2, .profiledReceiver 1 3 3]

theorem listing_shows_storage :
    receivers.reverse.Perm receivers ∧
      listing (fun slot => toString slot.toNat) receivers.reverse ≠
        listing (fun slot => toString slot.toNat) receivers := by
  refine ⟨List.reverse_perm receivers, ?_⟩
  rw [listing_of_pairwise (by decide +kernel), listing_of_pairwise (by decide +kernel)]
  decide +kernel

end Speculation

theorem CacheFile.printVersion_eq (space : MetaSpace) (method : String) (version : Nat)
    (b : Blob) :
    printVersion space method version b = do
      let name := nameOfSlot (← slotNames space method b)
      let dependencies ← b.dependencies
      let dependencies := dependencies.mergeSort fun a b => (a.compareBy compare name b).isLE
      let lines := Speculation.listing name (← b.speculations)
      return Layout.lines <|
        [s!"    version {version} @{b.offset}: {dependencies.length} dependencies, "
          ++ s!"{lines.length} opt records"]
        ++ dependencies.map (fun d => "      dep " ++ d.describe name)
        ++ lines.map ("      opt " ++ ·) := by
  unfold printVersion Speculation.listing sortedBy
  simp only [List.map_map, List.length_map]
  rfl

end CodeCache
