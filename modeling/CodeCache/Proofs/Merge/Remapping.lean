import CodeCache.Proofs.Merge.Renaming
import CodeCache.Proofs.Work
import Mathlib.Data.List.Nodup

/-!
# Records over new indices

A merge compares records of different blobs. Each record refers to the slots of its own
blob, so before that it is brought to the numbers that a list gives to the slots. The
numbers replace the slots one by one and leave the rest of the record alone, so records
that tell of the same decision still do. If no number stands for two slots, the slots can
be found again, and no other records come to tell of the same decision.
-/

namespace CodeCache.Speculation

variable {f : UInt32 → UInt32} {r r' : Speculation}

/-!
## Indices
-/

def shape (r : Speculation) : Speculation :=
  r.rename fun _ => 0

@[simp]
theorem indices_rename (f : UInt32 → UInt32) (r : Speculation) :
    (r.rename f).indices = r.indices.map f := by
  cases r with
  | deVirtual _ _ _ klass2 => cases klass2 <;> rfl
  | _ => rfl

@[simp]
theorem shape_rename (f : UInt32 → UInt32) (r : Speculation) :
    (r.rename f).shape = r.shape := by
  cases r with
  | deVirtual _ _ _ klass2 => cases klass2 <;> rfl
  | _ => rfl

theorem indices_mapIndicesM {m : Type → Type} [Monad m] [LawfulMonad m]
    (work : UInt32 → m UInt32) (r : Speculation) :
    indices <$> r.mapIndicesM work = r.indices.mapM work := by
  cases r with
  | deVirtual _ _ _ klass2 => cases klass2 <;> simp [mapIndicesM, indices]
  | _ => simp [mapIndicesM, indices]

theorem mapIndicesM_eq_ok_rename {ε : Type} {work : UInt32 → Except ε UInt32}
    (h : ∀ i ∈ r.indices, work i = .ok (f i)) :
    r.mapIndicesM work = .ok (r.rename f) := by
  cases r with
  | deVirtual _ _ _ klass2 =>
      cases klass2 <;> simp_all [mapIndicesM, indices, rename] <;> rfl
  | _ => simp_all [mapIndicesM, indices, rename] <;> rfl

/-!
## Slots
-/

variable {dest : List UInt32} {i j : UInt32}

/-- An index of a slot, counted from one. -/
def InRange (dest : List UInt32) (i : UInt32) : Prop :=
  1 ≤ i.toNat ∧ i.toNat ≤ dest.length

def entry (dest : List UInt32) (i : UInt32) : UInt32 :=
  dest.getD (i.toNat - 1) 0

def slotOf (dest : List UInt32) (j : UInt32) : UInt32 :=
  UInt32.ofNat (dest.idxOf j + 1)

theorem remapIndex_eq_ok_iff :
    remapIndex dest i = .ok j ↔ InRange dest i ∧ j = entry dest i := by
  unfold remapIndex InRange entry
  by_cases hzero : i = 0
  · subst hzero
    simp
  · have hpos : 1 ≤ i.toNat := by
      rw [Nat.one_le_iff_ne_zero]
      intro h
      exact hzero (UInt32.toNat_inj.mp h)
    rw [if_neg hzero]
    cases hfound : dest[i.toNat - 1]? with
    | none =>
        rw [List.getElem?_eq_none_iff] at hfound
        have hlong : ¬ i.toNat ≤ dest.length := by omega
        simp [hlong]
    | some new =>
        have hlt := (List.getElem?_eq_some_iff.mp hfound).1
        have hle : i.toNat ≤ dest.length := by omega
        simp [hpos, hle, hfound, eq_comm]

theorem slotOf_entry (hnodup : dest.Nodup) (h : InRange dest i) :
    slotOf dest (entry dest i) = i := by
  have hlt : i.toNat - 1 < dest.length := Nat.sub_one_lt_of_le h.1 h.2
  unfold slotOf entry
  rw [List.getD_eq_getElem?_getD, List.getElem?_eq_getElem hlt, Option.getD_some,
    hnodup.idxOf_getElem, Nat.sub_add_cancel h.1, UInt32.ofNat_toNat]

theorem entry_map (f : UInt32 → UInt32) (h : InRange dest i) :
    entry (dest.map f) i = f (entry dest i) := by
  have hlt : i.toNat - 1 < dest.length := Nat.sub_one_lt_of_le h.1 h.2
  unfold entry
  rw [List.getD_eq_getElem?_getD, List.getD_eq_getElem?_getD, List.getElem?_map,
    List.getElem?_eq_getElem hlt]
  rfl

theorem remap_eq_ok_iff :
    r.remap dest = .ok r' ↔
      (∀ i ∈ r.indices, InRange dest i) ∧ r' = r.rename (entry dest) := by
  have hrename (h : ∀ i ∈ r.indices, InRange dest i) :
      r.remap dest = .ok (r.rename (entry dest)) := by
    apply mapIndicesM_eq_ok_rename
    intro i hi
    exact remapIndex_eq_ok_iff.mpr ⟨h i hi, rfl⟩
  constructor
  · intro h
    have hindices : r.indices.mapM (remapIndex dest) = .ok r'.indices := by
      rw [← indices_mapIndicesM]
      change indices <$> r.remap dest = _
      rw [h]
      rfl
    have hrange : ∀ i ∈ r.indices, InRange dest i := by
      intro i hi
      rcases exists_of_mem_left (forall₂_of_mapM hindices) hi with ⟨j, _, hj⟩
      exact (remapIndex_eq_ok_iff.mp hj).1
    constructor
    · exact hrange
    · rw [hrename hrange] at h
      cases h
      rfl
  · intro h
    rcases h with ⟨hrange, rfl⟩
    exact hrename hrange

/-- What a record is over new indices: each index is replaced by the entry of its slot, in
its place, and so is the method that the record belongs to. -/
structure Renumbered (dest : List UInt32) (r r' : Speculation) : Prop where
  indices : r'.indices = r.indices.map (entry dest)
  owner : r'.owner? = r.owner?.map (entry dest)
  belongsTo : ∀ m, r'.belongsTo m = true ↔ ∃ i, r.belongsTo i = true ∧ entry dest i = m
  shape : r'.shape = r.shape

theorem renumbered_rename (dest : List UInt32) (r : Speculation) :
    Renumbered dest r (r.rename (entry dest)) where
  indices := indices_rename (entry dest) r
  owner := owner?_rename (entry dest) r
  belongsTo := by
    intro m
    simp [Speculation.belongsTo]
  shape := shape_rename (entry dest) r

/-- Re-indexing succeeds if each index is one of a slot, and then replaces the indices and
nothing else. Equivalent records stay equivalent, and over entries that differ no records
become equivalent. -/
theorem remap_natural (dest : List UInt32) :
    (∀ r : Speculation,
        (∃ r', r.remap dest = .ok r') ↔ ∀ i ∈ r.indices, InRange dest i) ∧
      (∀ r r' : Speculation, r.remap dest = .ok r' → Renumbered dest r r') ∧
      (∀ r s r' s' : Speculation, r.remap dest = .ok r' → s.remap dest = .ok s' →
        r.equivalent s = true → r'.equivalent s' = true) ∧
      (dest.Nodup →
        ∀ r s r' s' : Speculation, r.remap dest = .ok r' → s.remap dest = .ok s' →
          r'.equivalent s' = true → r.equivalent s = true) := by
  simp only [remap_eq_ok_iff]
  refine ⟨?_, ?_, ?_, ?_⟩
  · intro r
    constructor
    · intro h
      rcases h with ⟨r', hrange, _⟩
      exact hrange
    · intro hrange
      exact ⟨_, hrange, rfl⟩
  · intro r r' h
    rw [h.2]
    exact renumbered_rename dest r
  · intro r s r' s' hr hs h
    rw [hr.2, hs.2]
    exact equivalent_rename_of_equivalent (entry dest) h
  · intro hnodup r s r' s' hr hs h
    rw [hr.2, hs.2] at h
    apply equivalent_of_rename (g := slotOf dest) _ _ h
    · intro i hi
      exact slotOf_entry hnodup (hr.1 i hi)
    · intro i hi
      exact slotOf_entry hnodup (hs.1 i hi)

/-!
Two receivers in either order.
-/

namespace Bimorphic

def numbers : List UInt32 :=
  [9, 4, 7]

def first : Speculation :=
  .deVirtual 1 0 2 (some 3) 2 true

def second : Speculation :=
  .deVirtual 1 0 3 (some 2) 2 true

theorem remap_natural_when_bimorphic :
    numbers.Nodup ∧ first.remap numbers = .ok (.deVirtual 9 0 4 (some 7) 2 true) ∧
      second.remap numbers = .ok (.deVirtual 9 0 7 (some 4) 2 true) ∧
      (∀ i ∈ first.indices, InRange numbers i) ∧
      Renumbered numbers first (.deVirtual 9 0 4 (some 7) 2 true) ∧
      (first.equivalent second = true ↔
        (deVirtual 9 0 4 (some 7) 2 true).equivalent
          (.deVirtual 9 0 7 (some 4) 2 true) = true) := by
  have hnodup : numbers.Nodup := by decide
  have hfirst : first.remap numbers = .ok (.deVirtual 9 0 4 (some 7) 2 true) := rfl
  have hsecond : second.remap numbers = .ok (.deVirtual 9 0 7 (some 4) 2 true) := rfl
  rcases remap_natural numbers with ⟨hrange, hrenumbered, hkept, hreflected⟩
  refine ⟨hnodup, hfirst, hsecond, (hrange first).mp ⟨_, hfirst⟩,
    hrenumbered _ _ hfirst, ?_⟩
  constructor
  · exact hkept _ _ _ _ hfirst hsecond
  · exact hreflected hnodup _ _ _ _ hfirst hsecond

/-- Where two slots have the same entry, records of different receivers fall together. -/
example :
    (profiledReceiver 1 0 2).equivalent (profiledReceiver 1 0 3) = false ∧
      (profiledReceiver 1 0 2).remap [9, 4, 4] = (profiledReceiver 1 0 3).remap [9, 4, 4] :=
  ⟨rfl, rfl⟩

end Bimorphic

end CodeCache.Speculation
