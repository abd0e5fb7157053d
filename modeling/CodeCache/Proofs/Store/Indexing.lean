import CodeCache.Proofs.Store.Rows
import Mathlib.Data.List.Dedup

/-!
# Tables as chained hash indexes

A table that grew by insertions and by code offsets, and stayed below 2 GiB, is an
index of the methods inserted, however their names collide: each of them keeps one
entry, and a lookup tells apart all the methods whose names have the wanted hash.
-/

namespace CodeCache

namespace LookupTable

inductive Call where
  | inserted (index : UInt32) (place : Nat)
  | coded (place : Nat) (offset : UInt32)

def handles : List Call → List (UInt32 × Nat)
  | [] => []
  | .inserted index place :: calls => (index, place) :: handles calls
  | .coded _ _ :: calls => handles calls

def codeOf (place : Nat) : List Call → Option UInt32
  | [] => none
  | .inserted _ _ :: calls => codeOf place calls
  | .coded p offset :: calls =>
      if p = place then some offset else codeOf place calls

/-- The calls, the latest first, lead from a new table to this one. A method is
always inserted under its name, and code is set at places that insertions
answered. -/
inductive Filled (name : UInt32 → String) (expected : Nat) :
    LookupTable → List Call → Prop where
  | new (hfits : (sized expected).Addressable) :
      Filled name expected (sized expected) []
  | inserted {t t' : LookupTable} {calls : List Call} {index : UInt32}
      {place : Nat} (h : Filled name expected t calls)
      (hindex : index.toNat < 2 ^ 31)
      (hinsert : t.insert index (name index) = .ok (t', place))
      (hfits : t'.Addressable) :
      Filled name expected t' (.inserted index place :: calls)
  | coded {t : LookupTable} {calls : List Call} {index offset : UInt32}
      {place : Nat} (h : Filled name expected t calls)
      (hplace : (index, place) ∈ handles calls)
      (hoffset : offset.toNat < 2 ^ 31) :
      Filled name expected (t.setCodeOffset place offset)
        (.coded place offset :: calls)

variable {name : UInt32 → String} {t t' : LookupTable} {calls : List Call}

/-!
## What the calls keep
-/

structure Keeps (name : UInt32 → String) (t : LookupTable) (calls : List Call) :
    Prop where
  tidy : t.Tidy
  index_lt : ∀ index place, (index, place) ∈ handles calls →
    index.toNat < 2 ^ 31
  has : ∀ index place, (index, place) ∈ handles calls →
    t.Has (name index) index place
  listed : ∀ p, (t.entryAt p).isEmpty = false →
    ∃ index, (index, p) ∈ handles calls
  uncoded : ∀ p, (t.entryAt p).isEmpty = true → t.codeOffset? p = none
  codes : ∀ p, t.codeOffset? p = codeOf p calls

theorem keeps_new {expected : Nat} (hfits : (sized expected).Addressable) :
    Keeps name (sized expected) [] := by
  have hnone : ∀ p, (sized expected).codeOffset? p = none := by
    intro p
    apply codeOffset?_eq_none
    rw [entryAt_sized]
  constructor
  · apply tidy_sized
    unfold Addressable at hfits
    rwa [show (sized expected).entries.length = _ from List.length_replicate]
      at hfits
  · intro index place hmem
    cases hmem
  · intro index place hmem
    cases hmem
  · intro p hp
    rw [entryAt_sized] at hp
    exact absurd hp (by decide)
  · intro p _
    exact hnone p
  · exact hnone

namespace Keeps

variable {index : UInt32} {place : Nat}

theorem absent (h : Keeps name t calls) (hindex : index.toNat < 2 ^ 31)
    (hnew : ∀ p, (index, p) ∉ handles calls) :
    ∀ p, p < t.entries.length → (t.entryAt p).metaIndex ≠ index.toInt32 := by
  refine @absent_of_listed t _ Prod.fst (handles calls) ?_ index hindex ?_
  · intro p hp
    rcases h.listed p hp with ⟨i, hmem⟩
    exact ⟨(i, p), hmem, (h.has i p hmem).metaIndex_eq⟩
  · rintro ⟨i, p⟩ hmem rfl
    exact hnew p hmem

theorem insert_again (h : Keeps name t calls)
    (hmem : (index, place) ∈ handles calls) :
    t.insert index (name index) = .ok (t, place) :=
  h.tidy.insert_has (h.has _ _ hmem) (h.index_lt _ _ hmem)

theorem room (h : Keeps name t calls)
    (habsent : ∀ p, p < t.entries.length →
      (t.entryAt p).metaIndex ≠ index.toInt32)
    (hinsert : t.insert index (name index) = .ok (t', place))
    (hfits : t'.Addressable)
    (hhead : (t.entryAt (t.bucket (nameHash (name index)))).isEmpty = false) :
    headerSize + (t.entries.length + 1) * TableEntry.byteSize < 2 ^ 31 := by
  have hlink := h.tidy.insert_eq_linkBehind habsent hhead
  rw [hlink] at hinsert
  cases hinsert
  unfold Addressable at hfits
  rwa [length_linkBehind] at hfits

theorem inserted_new (h : Keeps name t calls) (hindex : index.toNat < 2 ^ 31)
    (hnew : ∀ p, (index, p) ∉ handles calls)
    (hinsert : t.insert index (name index) = .ok (t', place))
    (hfits : t'.Addressable) :
    Keeps name t' (.inserted index place :: calls) := by
  have habsent := h.absent hindex hnew
  rcases h.tidy.insert_absent hindex habsent
      (h.room habsent hinsert hfits) with
    ⟨t'', place', hinsert', htidy, hhas, hputs, hkept⟩
  cases hinsert'.symm.trans hinsert
  have hcode : ∀ p, t'.codeOffset? p = t.codeOffset? p := by
    intro p
    by_cases hp : p = place
    · rw [hp, codeOffset?_eq_none hputs.no_code, h.uncoded _ hputs.was_empty]
    · exact codeOffset?_congr (hputs.elsewhere p hp).2.2
  constructor
  · exact htidy
  · intro i p hmem
    rcases List.mem_cons.mp hmem with heq | hold
    · cases heq
      exact hindex
    · exact h.index_lt i p hold
  · intro i p hmem
    rcases List.mem_cons.mp hmem with heq | hold
    · cases heq
      exact hhas
    · exact hkept _ i p (h.index_lt i p hold) (h.has i p hold)
  · intro p hp
    rcases hputs.old_or_new hp with rfl | ⟨-, -, hold⟩
    · exact ⟨index, List.mem_cons_self⟩
    · rcases h.listed p hold with ⟨i, hmem⟩
      exact ⟨i, List.mem_cons_of_mem _ hmem⟩
  · intro p hp
    rw [hcode p]
    apply h.uncoded
    by_cases hplace : p = place
    · rw [hplace]
      exact hputs.was_empty
    · unfold TableEntry.isEmpty at hp ⊢
      rwa [(hputs.elsewhere p hplace).1] at hp
  · intro p
    rw [hcode p]
    exact h.codes p

theorem inserted (h : Keeps name t calls) (hindex : index.toNat < 2 ^ 31)
    (hinsert : t.insert index (name index) = .ok (t', place))
    (hfits : t'.Addressable) :
    Keeps name t' (.inserted index place :: calls) := by
  by_cases hnew : ∀ p, (index, p) ∉ handles calls
  · exact h.inserted_new hindex hnew hinsert hfits
  · rw [not_forall_not] at hnew
    rcases hnew with ⟨p, hmem⟩
    cases (h.insert_again hmem).symm.trans hinsert
    have hold : ∀ i q, (i, q) ∈ handles (.inserted index place :: calls) →
        (i, q) ∈ handles calls := by
      intro i q hq
      rcases List.mem_cons.mp hq with heq | hq
      · cases heq
        exact hmem
      · exact hq
    constructor
    · exact h.tidy
    · exact fun i q hq => h.index_lt i q (hold i q hq)
    · exact fun i q hq => h.has i q (hold i q hq)
    · intro q hq
      rcases h.listed q hq with ⟨i, hi⟩
      exact ⟨i, List.mem_cons_of_mem _ hi⟩
    · exact h.uncoded
    · exact h.codes

theorem coded (h : Keeps name t calls) {offset : UInt32}
    (hmem : (index, place) ∈ handles calls) (hoffset : offset.toNat < 2 ^ 31) :
    Keeps name (t.setCodeOffset place offset) (.coded place offset :: calls) := by
  have hhas := h.has index place hmem
  have hfull := isEmpty_of_metaIndex hhas.metaIndex_eq (h.index_lt _ _ hmem)
  constructor
  · exact h.tidy.setCodeOffset _ _
  · exact h.index_lt
  · exact fun i p hp => (h.has i p hp).setCodeOffset _ _ h.tidy
  · intro p hp
    rw [isEmpty_setCodeOffset] at hp
    exact h.listed p hp
  · intro p hp
    rw [isEmpty_setCodeOffset] at hp
    have hne : p ≠ place := by
      rintro rfl
      rw [hfull] at hp
      cases hp
    rw [codeOffset?_setCodeOffset_ne hne]
    exact h.uncoded p hp
  · intro p
    by_cases hp : p = place
    · rw [hp, codeOffset?_setCodeOffset_self hhas.lt_length hoffset]
      exact (if_pos rfl).symm
    · rw [codeOffset?_setCodeOffset_ne hp, h.codes p]
      exact (if_neg (Ne.symm hp)).symm

end Keeps

theorem Filled.keeps {expected : Nat} (h : Filled name expected t calls) :
    Keeps name t calls := by
  induction h with
  | new hfits => exact keeps_new hfits
  | inserted _ hindex hinsert hfits ih => exact ih.inserted hindex hinsert hfits
  | coded _ hplace hoffset ih => exact ih.coded hplace hoffset

/-!
## Lookups
-/

def Meets (name : UInt32 → String) (calls : List Call) (wanted : String)
    (compare : UInt32 → KeyMatch) (m : KeyMatch) (place : Nat) : Prop :=
  ∃ index, (index, place) ∈ handles calls ∧
    nameHash (name index) = nameHash wanted ∧ compare index = m

/-- The answer that a lookup owes: a method that is the wanted one; if there is
none, whether there is one of its name. -/
structure Answers (name : UInt32 → String) (calls : List Call) (wanted : String)
    (compare : UInt32 → KeyMatch) (answer : Except Error Lookup) : Prop where
  found : (∃ p, Meets name calls wanted compare .exact p) →
    ∃ p, Meets name calls wanted compare .exact p ∧ answer = .ok (.found p)
  foundWithName : (¬ ∃ p, Meets name calls wanted compare .exact p) →
    (∃ p, Meets name calls wanted compare .nameOnly p) →
    answer = .ok .foundWithName
  notFound : (¬ ∃ p, Meets name calls wanted compare .exact p) →
    (¬ ∃ p, Meets name calls wanted compare .nameOnly p) →
    answer = .ok .notFound

namespace Keeps

theorem metaIndex_eq (h : Keeps name t calls) {index : UInt32} {place : Nat}
    (hmem : (index, place) ∈ handles calls) : t.metaIndex place = index := by
  unfold metaIndex
  rw [(h.has _ _ hmem).metaIndex_eq, UInt32.toUInt32_toInt32]

theorem meets_iff (h : Keeps name t calls) {wanted : String}
    {compare : UInt32 → KeyMatch} {m : KeyMatch} {places : List Nat}
    (hleads : t.Leads (t.bucket (nameHash wanted)) places) {p : Nat} :
    Meets name calls wanted compare m p ↔
      p ∈ t.candidates (nameHash wanted)
          (t.bucket (nameHash wanted) :: places) ∧
        compare (t.metaIndex p) = m := by
  rw [mem_candidates]
  constructor
  · rintro ⟨index, hmem, hhash, hcompare⟩
    have hhas := h.has index p hmem
    have hchain := hhas.in_chain
    rw [hhash, h.tidy.chain_eq hleads, List.mem_map] at hchain
    rcases hchain with ⟨q, hq, heq⟩
    cases heq
    have hfull := isEmpty_of_metaIndex hhas.metaIndex_eq (h.index_lt _ _ hmem)
    rw [h.metaIndex_eq hmem]
    exact ⟨⟨hq, hfull, hhas.hash_eq.trans hhash⟩, hcompare⟩
  · rintro ⟨⟨-, hfull, hhash⟩, hcompare⟩
    rcases h.listed p hfull with ⟨index, hmem⟩
    rw [h.metaIndex_eq hmem] at hcompare
    exact ⟨index, hmem, (h.has index p hmem).hash_eq.symm.trans hhash, hcompare⟩

theorem answers (h : Keeps name t calls) (wanted : String)
    (compare : UInt32 → KeyMatch) :
    Answers name calls wanted compare (t.find wanted compare) := by
  rcases h.tidy.leads _ (h.tidy.bucket_lt (nameHash wanted)) with
    ⟨places, hleads⟩
  have hfind : t.find wanted compare = .ok (t.outcome compare false
      (t.candidates (nameHash wanted)
        (t.bucket (nameHash wanted) :: places))) := by
    unfold find
    rw [h.tidy.chain_eq hleads]
    exact t.search_eq_outcome _ _ _ _
  have hmeets := fun m p => @meets_iff _ _ _ h wanted compare m _ hleads p
  rw [hfind]
  generalize t.candidates (nameHash wanted)
    (t.bucket (nameHash wanted) :: places) = met at hmeets
  unfold outcome
  cases hexact : met.find? fun p => compare (t.metaIndex p) == .exact with
  | some p =>
      have hp : Meets name calls wanted compare .exact p := by
        rw [hmeets]
        exact ⟨List.mem_of_find?_eq_some hexact, by
          simpa using List.find?_some hexact⟩
      constructor
      · exact fun _ => ⟨p, hp, rfl⟩
      · exact fun hnone => absurd ⟨p, hp⟩ hnone
      · exact fun hnone => absurd ⟨p, hp⟩ hnone
  | none =>
      rw [List.find?_eq_none] at hexact
      have hany : (met.any fun p => compare (t.metaIndex p) == .nameOnly) =
          true ↔ ∃ p, Meets name calls wanted compare .nameOnly p := by
        simp only [List.any_eq_true, beq_iff_eq, hmeets]
      constructor
      · rintro ⟨p, hp⟩
        rcases (hmeets _ _).mp hp with ⟨hmem, hcompare⟩
        exact absurd (beq_iff_eq.mpr hcompare) (hexact p hmem)
      · intro _ hname
        dsimp only
        rw [hany.mpr hname]
        rfl
      · intro _ hname
        dsimp only
        rw [Bool.eq_false_iff.mpr (mt hany.mp hname)]
        rfl

end Keeps

/-!
## The index
-/

structure Indexes (name : UInt32 → String) (t : LookupTable)
    (calls : List Call) : Prop where
  insert_ok : ∀ index, index.toNat < 2 ^ 31 →
    ∃ t' place, t.insert index (name index) = .ok (t', place)
  insert_again : ∀ index place, (index, place) ∈ handles calls →
    t.insert index (name index) = .ok (t, place)
  one_entry : ∀ index place, (index, place) ∈ handles calls → ∀ p,
    (p < t.entries.length ∧ (t.entryAt p).isEmpty = false ∧
      t.metaIndex p = index) ↔ p = place
  code : ∀ place, t.codeOffset? place = codeOf place calls
  occupied : (t.occupied.map fun entry =>
    (entry.2.metaIndex.toUInt32, entry.1)).Perm (handles calls).dedup
  listed_once : (t.occupied.map fun entry =>
    entry.2.metaIndex.toUInt32).Nodup
  size_eq : t.size = ((handles calls).map Prod.fst).dedup.length
  find : ∀ wanted compare,
    Answers name calls wanted compare (t.find wanted compare)
  stored : decode t.encode = .ok t

namespace Keeps

theorem insert_ok (h : Keeps name t calls) (index : UInt32)
    (hindex : index.toNat < 2 ^ 31) :
    ∃ t' place, t.insert index (name index) = .ok (t', place) := by
  by_cases hnew : ∀ p, (index, p) ∉ handles calls
  · cases hhead : (t.entryAt (t.bucket (nameHash (name index)))).isEmpty with
    | true =>
        rcases @Tidy.insert_into_empty t h.tidy (name index) index hhead with
          ⟨t', hinsert, -, -⟩
        exact ⟨t', _, hinsert⟩
    | false =>
        exact ⟨_, _, h.tidy.insert_eq_linkBehind (h.absent hindex hnew) hhead⟩
  · rw [not_forall_not] at hnew
    rcases hnew with ⟨place, hmem⟩
    exact ⟨t, place, h.insert_again hmem⟩

theorem isEmpty_eq (h : Keeps name t calls) {index : UInt32} {place : Nat}
    (hmem : (index, place) ∈ handles calls) :
    (t.entryAt place).isEmpty = false :=
  isEmpty_of_metaIndex (h.has _ _ hmem).metaIndex_eq (h.index_lt _ _ hmem)

theorem one_entry (h : Keeps name t calls) (index : UInt32) (place : Nat)
    (hmem : (index, place) ∈ handles calls) (p : Nat) :
    (p < t.entries.length ∧ (t.entryAt p).isEmpty = false ∧
      t.metaIndex p = index) ↔ p = place := by
  have hhas := h.has index place hmem
  constructor
  · rintro ⟨hp, -, rfl⟩
    refine h.tidy.eq_of_has hhas (h.index_lt _ _ hmem) hp ?_
    exact (Int32.toInt32_toUInt32 _).symm
  · rintro rfl
    exact ⟨hhas.lt_length, h.isEmpty_eq hmem, h.metaIndex_eq hmem⟩

theorem mem_occupied_iff (h : Keeps name t calls) (index : UInt32)
    (place : Nat) :
    (index, place) ∈ (t.occupied.map fun entry =>
        (entry.2.metaIndex.toUInt32, entry.1)) ↔
      (index, place) ∈ handles calls := by
  rw [List.mem_map]
  constructor
  · rintro ⟨entry, hentry, heq⟩
    rcases entry with ⟨p, e⟩
    rcases mem_occupied.mp hentry with ⟨hp, hfull, rfl⟩
    cases heq
    rcases h.listed p hfull with ⟨i, hmem⟩
    have hindex : (t.entryAt p).metaIndex.toUInt32 = i :=
      h.metaIndex_eq hmem
    rwa [hindex]
  · intro hmem
    refine ⟨(place, t.entryAt place), mem_occupied.mpr
      ⟨(h.has _ _ hmem).lt_length, h.isEmpty_eq hmem, rfl⟩, ?_⟩
    exact congrArg (·, place) (h.metaIndex_eq hmem)

theorem listed_once (h : Keeps name t calls) :
    (t.occupied.map fun entry => entry.2.metaIndex.toUInt32).Nodup := by
  unfold List.Nodup
  rw [List.pairwise_map]
  apply h.tidy.occupied_pairwise.imp
  intro x y hne hsame
  have hback := congrArg UInt32.toInt32 hsame
  rw [Int32.toInt32_toUInt32, Int32.toInt32_toUInt32] at hback
  exact hne hback

theorem occupied_perm (h : Keeps name t calls) :
    (t.occupied.map fun entry =>
      (entry.2.metaIndex.toUInt32, entry.1)).Perm (handles calls).dedup := by
  have hnodup : (t.occupied.map fun entry =>
      (entry.2.metaIndex.toUInt32, entry.1)).Nodup := by
    apply List.Nodup.of_map Prod.fst
    rw [List.map_map]
    exact h.listed_once
  rw [List.perm_ext_iff_of_nodup hnodup (List.nodup_dedup _)]
  rintro ⟨index, place⟩
  rw [List.mem_dedup]
  exact h.mem_occupied_iff index place

theorem size_eq (h : Keeps name t calls) :
    t.size = ((handles calls).map Prod.fst).dedup.length := by
  have hperm : (t.occupied.map fun entry =>
      entry.2.metaIndex.toUInt32).Perm
        ((handles calls).map Prod.fst).dedup := by
    rw [List.perm_ext_iff_of_nodup h.listed_once (List.nodup_dedup _)]
    intro index
    rw [List.mem_dedup, List.mem_map, List.mem_map]
    constructor
    · rintro ⟨entry, hentry, rfl⟩
      exact ⟨_, (h.mem_occupied_iff _ _).mp (List.mem_map_of_mem hentry), rfl⟩
    · rintro ⟨entry, hentry, rfl⟩
      rcases List.mem_map.mp ((h.mem_occupied_iff _ _).mpr hentry) with
        ⟨found, hfound, heq⟩
      exact ⟨found, hfound, congrArg Prod.fst heq⟩
  have hlength := hperm.length_eq
  rwa [List.length_map] at hlength

theorem stored (h : Keeps name t calls) : decode t.encode = .ok t := by
  apply decode_encode h.tidy.shaped
  have hfits := h.tidy.addressable
  unfold Addressable at hfits
  unfold encodedSize
  omega

end Keeps

/-- However the names collide, a table that was filled is an index of the methods
inserted. -/
theorem Filled.indexes {expected : Nat} (h : Filled name expected t calls) :
    Indexes name t calls where
  insert_ok := h.keeps.insert_ok
  insert_again _ _ := h.keeps.insert_again
  one_entry := h.keeps.one_entry
  code := h.keeps.codes
  occupied := h.keeps.occupied_perm
  listed_once := h.keeps.listed_once
  size_eq := h.keeps.size_eq
  find := h.keeps.answers
  stored := h.keeps.stored

/-!
Two methods of one name, a third whose name has another hash but the same bucket,
and code that is set twice.
-/

namespace Sample

def display (index : UInt32) : String :=
  if index = 2 then "B.g()V" else "A.f()V"

def put (t : LookupTable) (index : UInt32) : LookupTable :=
  match t.insert index (display index) with
  | .ok (t', _) => t'
  | .error _ => t

def pair : LookupTable :=
  (put (put (sized 3) 0) 1).setCodeOffset 2 64

def table : LookupTable :=
  ((put (put pair 2) 0).setCodeOffset 10 128).setCodeOffset 2 32

def made : List Call :=
  [.coded 2 32, .coded 10 128, .inserted 0 2, .inserted 2 11, .coded 2 64,
    .inserted 1 10, .inserted 0 2]

theorem filled_put {t : LookupTable} {calls : List Call}
    (h : Filled display 3 t calls) {index : UInt32} {place : Nat}
    (hindex : index.toNat < 2 ^ 31)
    (hinsert : valueWith (fun r => decide (r = (put t index, place)))
      (t.insert index (display index)) = true)
    (hfits : (put t index).Addressable) :
    Filled display 3 (put t index) (.inserted index place :: calls) :=
  .inserted h hindex (eq_ok_of_valueWith hinsert) hfits

theorem filled : Filled display 3 table made := by
  have h₀ : Filled display 3 (sized 3) [] :=
    .new (show _ < _ by decide)
  have h₁ := @filled_put _ _ h₀ 0 2 (by decide) (by decide +kernel)
    (show _ < _ by decide +kernel)
  have h₂ := @filled_put _ _ h₁ 1 10 (by decide) (by decide +kernel)
    (show _ < _ by decide +kernel)
  have h₃ : Filled display 3 pair _ :=
    @Filled.coded _ _ _ _ 0 64 2 h₂ (by decide) (by decide)
  have h₄ := @filled_put _ _ h₃ 2 11 (by decide) (by decide +kernel)
    (show _ < _ by decide +kernel)
  have h₅ := @filled_put _ _ h₄ 0 2 (by decide) (by decide +kernel)
    (show _ < _ by decide +kernel)
  have h₆ := @Filled.coded _ _ _ _ 1 128 10 h₅ (by decide) (by decide)
  exact @Filled.coded _ _ _ _ 0 32 2 h₆ (by decide) (by decide)

end Sample

theorem indexes_colliding_names :
    Filled Sample.display 3 Sample.table Sample.made ∧
      Indexes Sample.display Sample.table Sample.made ∧
      Sample.table.codeOffset? 2 = some 32 ∧
      Sample.table.bucket (nameHash "B.g()V") =
        Sample.table.bucket (nameHash "A.f()V") :=
  ⟨Sample.filled, Filled.indexes Sample.filled, by decide +kernel,
    by decide +kernel⟩

end LookupTable

end CodeCache
