import CodeCache.Proofs.Store.Finding
import CodeCache.Proofs.Store.Storage
import CodeCache.Proofs.Work
import Mathlib.Data.List.Perm.Subperm

/-!
# Tables that were filled by insertion

In such a table every bucket is the head of a path through entries behind the
buckets, and no method has two entries. A lookup therefore finds a method that
was inserted, and inserting it again leads to the same entry.
-/

namespace CodeCache

namespace LookupTable

variable {t t' : LookupTable}

/-!
## Paths
-/

inductive Path (t : LookupTable) : List Nat → Prop where
  | last {place : Nat} (hplace : place < t.entries.length)
      (hnext : (t.entryAt place).next = 0) : Path t [place]
  | cons {place next : Nat} {places : List Nat}
      (hplace : place < t.entries.length)
      (hnext : (t.entryAt place).next = offsetOf next)
      (rest : Path t (next :: places)) : Path t (place :: next :: places)

structure Leads (t : LookupTable) (head : Nat) (places : List Nat) : Prop where
  path : t.Path (head :: places)
  distinct : places.Nodup
  behind : ∀ p ∈ places, t.bucketCount ≤ p

/-- All offsets, that of one more entry included, are positive numbers. -/
def Addressable (t : LookupTable) : Prop :=
  headerSize + t.entries.length * TableEntry.byteSize < 2 ^ 31

theorem toInt_offsetOf {place : Nat}
    (h : headerSize + place * TableEntry.byteSize < 2 ^ 31) :
    (offsetOf place).toInt = (headerSize + place * TableEntry.byteSize : Nat) :=
  Int32.toInt_ofNat_of_lt h

theorem offsetOf_ne_zero {place : Nat}
    (h : headerSize + place * TableEntry.byteSize < 2 ^ 31) :
    offsetOf place ≠ 0 := by
  intro hzero
  have hint := toInt_offsetOf h
  rw [hzero, Int32.toInt_zero] at hint
  unfold headerSize at hint
  omega

theorem placeOf_offsetOf {place : Nat}
    (h : headerSize + place * TableEntry.byteSize < 2 ^ 31) :
    placeOf (offsetOf place) = .ok place := by
  unfold placeOf
  rw [toInt_offsetOf h]
  unfold headerSize TableEntry.byteSize at h ⊢
  have hoffset : (((8 + place * 16 : Nat) : Int) % UInt64.size).toNat =
      8 + place * 16 := by
    unfold UInt64.size
    omega
  rw [hoffset, if_neg (by omega)]
  congr 1
  omega

theorem getElem?_eq_entryAt {place : Nat} (h : place < t.entries.length) :
    t.entries[place]? = some (t.entryAt place) := by
  unfold entryAt
  rw [List.getD_eq_getElem?_getD, List.getElem?_eq_getElem h, Option.getD_some]

theorem Path.lt_length {places : List Nat} (h : t.Path places) :
    ∀ p ∈ places, p < t.entries.length := by
  induction h with
  | last hplace hnext =>
      intro p hp
      rw [List.mem_singleton.mp hp]
      exact hplace
  | cons hplace hnext rest ih =>
      intro p hp
      rcases List.mem_cons.mp hp with rfl | hmem
      · exact hplace
      · exact ih p hmem

theorem Path.congr {places : List Nat} (h : t.Path places)
    (hlength : t.entries.length ≤ t'.entries.length)
    (hsame : ∀ p ∈ places, (t'.entryAt p).next = (t.entryAt p).next) :
    t'.Path places := by
  induction h with
  | last hplace hnext =>
      exact .last (Nat.lt_of_lt_of_le hplace hlength)
        ((hsame _ List.mem_cons_self).trans hnext)
  | cons hplace hnext rest ih =>
      exact .cons (Nat.lt_of_lt_of_le hplace hlength)
        ((hsame _ List.mem_cons_self).trans hnext)
        (ih fun p hp => hsame p (List.mem_cons_of_mem _ hp))

theorem Path.chainFrom_eq {places : List Nat} (h : t.Path places)
    (haddressable : t.Addressable) {steps : Nat}
    (hsteps : places.length ≤ steps) :
    ∀ first ∈ places.head?, t.chainFrom steps first = places.map .ok := by
  induction h generalizing steps with
  | last hplace hnext =>
      intro first hfirst
      cases hfirst
      cases steps with
      | zero => cases hsteps
      | succ steps =>
          unfold chainFrom
          rw [getElem?_eq_entryAt hplace]
          dsimp only
          rw [if_pos hnext]
          rfl
  | @cons place next places hplace hnext rest ih =>
      intro first hfirst
      cases hfirst
      cases steps with
      | zero => cases hsteps
      | succ steps =>
          have hlt := rest.lt_length next List.mem_cons_self
          have hoffset :
              headerSize + next * TableEntry.byteSize < 2 ^ 31 := by
            unfold Addressable TableEntry.byteSize at haddressable
            unfold TableEntry.byteSize
            omega
          have hrest := ih (Nat.le_of_succ_le_succ hsteps) next rfl
          unfold chainFrom
          rw [getElem?_eq_entryAt hplace]
          dsimp only
          rw [hnext, if_neg (offsetOf_ne_zero hoffset),
            placeOf_offsetOf hoffset]
          dsimp only
          rw [hrest]
          rfl

/-!
## Tidy tables
-/

structure Tidy (t : LookupTable) : Prop where
  shaped : t.Shaped
  addressable : t.Addressable
  leads : ∀ head, head < t.bucketCount → ∃ places, t.Leads head places
  unique : ∀ p q, p < t.entries.length → q < t.entries.length →
    (t.entryAt p).isEmpty = false →
    (t.entryAt p).metaIndex = (t.entryAt q).metaIndex → p = q
  empty_ends : ∀ p, (t.entryAt p).isEmpty = true → (t.entryAt p).next = 0

structure Has (t : LookupTable) (name : String) (index : UInt32) (place : Nat) :
    Prop where
  in_chain : .ok place ∈ t.chain (nameHash name)
  metaIndex_eq : (t.entryAt place).metaIndex = index.toInt32
  hash_eq : (t.entryAt place).hash = nameHash name

theorem Has.lt_length {name : String} {index : UInt32} {place : Nat}
    (h : t.Has name index place) :
    place < t.entries.length :=
  lt_of_mem_chainFrom h.in_chain

theorem isEmpty_of_metaIndex {e : TableEntry} {index : UInt32}
    (h : e.metaIndex = index.toInt32) (hindex : index.toNat < 2 ^ 31) :
    e.isEmpty = false := by
  have hnat : index = UInt32.ofNat index.toNat := UInt32.ofNat_toNat.symm
  have hint : index.toInt32.toInt = index.toNat := by
    rw [hnat, UInt32.toInt32_ofNat', Int32.toInt_ofNat_of_lt hindex,
      ← hnat]
  unfold TableEntry.isEmpty
  rw [h, decide_eq_false_iff_not, Int32.lt_iff_toInt_lt, hint, Int32.toInt_zero]
  omega

namespace Tidy

theorem bucket_lt (h : t.Tidy) (hash : UInt32) :
    t.bucket hash < t.bucketCount :=
  Nat.mod_lt _ h.shaped.has_buckets

theorem chain_eq (h : t.Tidy) {hash : UInt32} {places : List Nat}
    (hleads : t.Leads (t.bucket hash) places) :
    t.chain hash = (t.bucket hash :: places).map .ok := by
  have hlt := hleads.path.lt_length
  have hbucket := h.bucket_lt hash
  have hdistinct : (t.bucket hash :: places).Nodup := by
    rw [List.nodup_cons]
    refine ⟨?_, hleads.distinct⟩
    intro hmem
    exact absurd (hleads.behind _ hmem) (Nat.not_le.mpr hbucket)
  have hlength : (t.bucket hash :: places).length ≤ t.entries.length := by
    have hsubset : t.bucket hash :: places ⊆ List.range t.entries.length :=
      fun p hp => List.mem_range.mpr (hlt p hp)
    have hle := (hdistinct.subperm hsubset).length_le
    rwa [List.length_range] at hle
  exact hleads.path.chainFrom_eq h.addressable hlength _ rfl

theorem places_eq_nil (h : t.Tidy) {head : Nat} {places : List Nat}
    (hleads : t.Leads head places)
    (hempty : (t.entryAt head).isEmpty = true) :
    places = [] := by
  have hend := h.empty_ends head hempty
  have hlt := hleads.path.lt_length
  have haddressable := h.addressable
  cases hleads.path with
  | last hplace hnext => rfl
  | @cons _ next _ hplace hnext rest =>
      have hnextlt := hlt next (List.mem_cons_of_mem _ List.mem_cons_self)
      have hoffset : headerSize + next * TableEntry.byteSize < 2 ^ 31 := by
        unfold Addressable TableEntry.byteSize at haddressable
        unfold TableEntry.byteSize
        omega
      exact absurd (hnext.symm.trans hend) (offsetOf_ne_zero hoffset)

theorem eq_of_has (h : t.Tidy) {name : String} {index : UInt32} {place p : Nat}
    (hhas : t.Has name index place) (hindex : index.toNat < 2 ^ 31)
    (hp : p < t.entries.length)
    (hsame : (t.entryAt p).metaIndex = index.toInt32) :
    p = place :=
  (h.unique place p hhas.lt_length hp
    (isEmpty_of_metaIndex hhas.metaIndex_eq hindex)
    (hhas.metaIndex_eq.trans hsame.symm)).symm

theorem occupied_pairwise (h : t.Tidy) :
    t.occupied.Pairwise fun x y => x.2.metaIndex ≠ y.2.metaIndex := by
  unfold occupied
  rw [List.pairwise_filter, List.pairwise_iff_getElem]
  intro i j hi hj hij hfull _ hsame
  rw [List.length_mapIdx] at hi hj
  rw [List.getElem_mapIdx] at hfull hsame
  rw [List.getElem_mapIdx] at hsame
  dsimp only at hfull hsame
  rw [← entryAt_eq_getElem hi] at hfull hsame
  rw [← entryAt_eq_getElem hj] at hsame
  have heq := h.unique i j hi hj (by simpa using hfull) hsame
  omega

/-!
## Finding
-/

theorem search_eq (h : t.Tidy) {name : String} {index : UInt32} {place : Nat}
    (hhas : t.Has name index place) (hindex : index.toNat < 2 ^ 31)
    {compare : UInt32 → KeyMatch} (hexact : compare index = .exact)
    (honly : ∀ i, compare i = .exact → i = index) {places : List Nat}
    (hmem : place ∈ places) (hlt : ∀ p ∈ places, p < t.entries.length)
    (nameSeen : Bool) :
    t.search (nameHash name) compare nameSeen (places.map .ok) =
      .ok (.found place) := by
  induction places generalizing nameSeen with
  | nil => cases hmem
  | cons p places ih =>
      rw [List.map_cons]
      by_cases hp : p = place
      · have hempty := isEmpty_of_metaIndex hhas.metaIndex_eq hindex
        unfold search
        dsimp only
        rw [hp, hempty, hhas.hash_eq, hhas.metaIndex_eq,
          UInt32.toUInt32_toInt32, hexact, bne_self_eq_false]
        rfl
      · have hrest : place ∈ places := by
          rcases List.mem_cons.mp hmem with heq | hmem
          · exact absurd heq.symm hp
          · exact hmem
        have hnext := fun nameSeen =>
          ih hrest (fun q hq => hlt q (List.mem_cons_of_mem _ hq)) nameSeen
        have hne : compare (t.entryAt p).metaIndex.toUInt32 ≠ .exact := by
          intro heq
          have hsame : (t.entryAt p).metaIndex = index.toInt32 := by
            rw [← honly _ heq, Int32.toInt32_toUInt32]
          exact hp (h.eq_of_has hhas hindex (hlt p List.mem_cons_self) hsame)
        unfold search
        dsimp only
        split
        · exact hnext _
        · split
          · rename_i heq
            exact absurd heq hne
          · exact hnext _
          · exact hnext _

theorem find_eq (h : t.Tidy) {name : String} {index : UInt32} {place : Nat}
    (hhas : t.Has name index place) (hindex : index.toNat < 2 ^ 31)
    {compare : UInt32 → KeyMatch} (hexact : compare index = .exact)
    (honly : ∀ i, compare i = .exact → i = index) :
    t.find name compare = .ok (.found place) := by
  rcases h.leads _ (h.bucket_lt (nameHash name)) with ⟨places, hleads⟩
  have hmem := hhas.in_chain
  rw [h.chain_eq hleads, List.mem_map] at hmem
  rcases hmem with ⟨p, hp, heq⟩
  cases heq
  unfold find
  rw [h.chain_eq hleads]
  exact h.search_eq hhas hindex hexact honly hp hleads.path.lt_length false

/-!
## Inserting
-/

theorem firstOf_eq (h : t.Tidy) {name : String} {index : UInt32} {place : Nat}
    (hhas : t.Has name index place) (hindex : index.toNat < 2 ^ 31)
    {places : List Nat} (hmem : place ∈ places)
    (hlt : ∀ p ∈ places, p < t.entries.length) :
    firstOf (fun place => (t.entryAt place).metaIndex == index.toInt32)
      (places.map .ok) = .ok (some place) := by
  induction places with
  | nil => cases hmem
  | cons p places ih =>
      rw [List.map_cons]
      unfold firstOf
      by_cases hsame : (t.entryAt p).metaIndex = index.toInt32
      · rw [if_pos (beq_iff_eq.mpr hsame),
          h.eq_of_has hhas hindex (hlt p List.mem_cons_self) hsame]
      · rw [if_neg (by rw [beq_iff_eq]; exact hsame)]
        refine ih ?_ fun q hq => hlt q (List.mem_cons_of_mem _ hq)
        rcases List.mem_cons.mp hmem with heq | hmem
        · rw [heq] at hhas
          exact absurd hhas.metaIndex_eq hsame
        · exact hmem

theorem insert_has (h : t.Tidy) {name : String} {index : UInt32} {place : Nat}
    (hhas : t.Has name index place) (hindex : index.toNat < 2 ^ 31) :
    t.insert index name = .ok (t, place) := by
  rcases h.leads _ (h.bucket_lt (nameHash name)) with ⟨places, hleads⟩
  have hmem := hhas.in_chain
  rw [h.chain_eq hleads, List.mem_map] at hmem
  rcases hmem with ⟨p, hp, heq⟩
  cases heq
  have hhead : (t.entryAt (t.bucket (nameHash name))).isEmpty = false := by
    cases hempty : (t.entryAt (t.bucket (nameHash name))).isEmpty with
    | false => rfl
    | true =>
        rw [h.places_eq_nil hleads hempty] at hp
        rw [← List.mem_singleton.mp hp,
          isEmpty_of_metaIndex hhas.metaIndex_eq hindex] at hempty
        exact absurd hempty Bool.false_ne_true
  unfold insert
  dsimp only
  rw [hhead, h.chain_eq hleads,
    h.firstOf_eq hhas hindex hp hleads.path.lt_length]
  rfl

end Tidy

structure Puts (t t' : LookupTable) (index : UInt32) (hash : UInt32)
    (place : Nat) : Prop where
  bucketCount_eq : t'.bucketCount = t.bucketCount
  length_le : t.entries.length ≤ t'.entries.length
  le_length : t'.entries.length ≤ t.entries.length + 1
  place_lt : place < t'.entries.length
  was_empty : (t.entryAt place).isEmpty = true
  metaIndex_eq : (t'.entryAt place).metaIndex = index.toInt32
  hash_eq : (t'.entryAt place).hash = hash
  no_code : (t'.entryAt place).codeOffset = -1
  elsewhere : ∀ p, p ≠ place →
    (t'.entryAt p).metaIndex = (t.entryAt p).metaIndex ∧
      (t'.entryAt p).hash = (t.entryAt p).hash ∧
      (t'.entryAt p).codeOffset = (t.entryAt p).codeOffset

theorem entryAt_of_length_le {p : Nat} (h : t.entries.length ≤ p) :
    t.entryAt p = {} := by
  unfold entryAt
  rw [List.getD_eq_getElem?_getD, List.getElem?_eq_none h, Option.getD_none]

theorem entryAt_setEntry_self {place : Nat} (h : place < t.entries.length)
    (e : TableEntry) :
    (t.setEntry place e).entryAt place = e := by
  unfold setEntry entryAt
  rw [List.getD_eq_getElem?_getD, List.getElem?_set_self h, Option.getD_some]

theorem entryAt_setEntry_ne {place p : Nat} (h : p ≠ place) (e : TableEntry) :
    (t.setEntry place e).entryAt p = t.entryAt p := by
  unfold setEntry entryAt
  rw [List.getD_eq_getElem?_getD, List.getElem?_set_ne h.symm,
    List.getD_eq_getElem?_getD]

namespace Puts

variable {index hash : UInt32} {place : Nat}

theorem old_or_new (h : Puts t t' index hash place) {p : Nat}
    (hp : (t'.entryAt p).isEmpty = false) :
    p = place ∨ p ≠ place ∧ p < t.entries.length ∧
      (t.entryAt p).isEmpty = false := by
  by_cases hplace : p = place
  · exact Or.inl hplace
  · have hsame := (h.elsewhere p hplace).1
    have hold : (t.entryAt p).isEmpty = false := by
      unfold TableEntry.isEmpty at hp ⊢
      rwa [hsame] at hp
    refine Or.inr ⟨hplace, ?_, hold⟩
    rcases Nat.lt_or_ge p t.entries.length with hlt | hge
    · exact hlt
    · rw [entryAt_of_length_le hge] at hold
      exact absurd hold (by decide)

theorem unique (h : Puts t t' index hash place) (ht : t.Tidy)
    (habsent : ∀ p, p < t.entries.length →
      (t.entryAt p).metaIndex ≠ index.toInt32) :
    ∀ p q, p < t'.entries.length → q < t'.entries.length →
      (t'.entryAt p).isEmpty = false →
      (t'.entryAt p).metaIndex = (t'.entryAt q).metaIndex → p = q := by
  intro p q _ _ hp hsame
  have hq : (t'.entryAt q).isEmpty = false := by
    unfold TableEntry.isEmpty at hp ⊢
    rwa [hsame] at hp
  rcases h.old_or_new hp with rfl | ⟨hpne, hplt, hpold⟩
  · rcases h.old_or_new hq with rfl | ⟨hqne, hqlt, hqold⟩
    · rfl
    · rw [h.metaIndex_eq, (h.elsewhere q hqne).1] at hsame
      exact absurd hsame.symm (habsent q hqlt)
  · rcases h.old_or_new hq with rfl | ⟨hqne, hqlt, hqold⟩
    · rw [h.metaIndex_eq, (h.elsewhere p hpne).1] at hsame
      exact absurd hsame (habsent p hplt)
    · rw [(h.elsewhere p hpne).1, (h.elsewhere q hqne).1] at hsame
      exact ht.unique p q hplt hqlt hpold hsame

end Puts

structure Grows (t t' : LookupTable) (head place : Nat) : Prop where
  addressable : t'.Addressable
  leads : ∀ h places, h < t.bucketCount → t.Leads h places →
    ∃ places', t'.Leads h places' ∧ places ⊆ places' ∧
      (h = head → place ∈ h :: places')
  empty_ends : ∀ p, (t'.entryAt p).isEmpty = true → (t'.entryAt p).next = 0

theorem length_setEntry (t : LookupTable) (place : Nat) (e : TableEntry) :
    (t.setEntry place e).entries.length = t.entries.length :=
  List.length_set

theorem puts_setEntry {head : Nat} (hlt : head < t.entries.length)
    (hhead : (t.entryAt head).isEmpty = true) (index hash : UInt32) :
    Puts t (t.setEntry head { metaIndex := index.toInt32, hash }) index hash
      head := by
  have hself := entryAt_setEntry_self hlt { metaIndex := index.toInt32, hash }
  have hlength := t.length_setEntry head { metaIndex := index.toInt32, hash }
  constructor
  · rfl
  · exact Nat.le_of_eq hlength.symm
  · rw [hlength]
    exact Nat.le_succ _
  · rw [hlength]
    exact hlt
  · exact hhead
  · rw [hself]
  · rw [hself]
  · rw [hself]
  · intro p hp
    rw [entryAt_setEntry_ne hp]
    exact ⟨rfl, rfl, rfl⟩

theorem Tidy.insert_into_empty (h : t.Tidy) {name : String} {index : UInt32}
    (hhead : (t.entryAt (t.bucket (nameHash name))).isEmpty = true) :
    ∃ t', t.insert index name = .ok (t', t.bucket (nameHash name)) ∧
      Puts t t' index (nameHash name) (t.bucket (nameHash name)) ∧
      Grows t t' (t.bucket (nameHash name)) (t.bucket (nameHash name)) := by
  have hlt : t.bucket (nameHash name) < t.entries.length :=
    Nat.lt_of_lt_of_le (h.bucket_lt _) h.shaped.buckets_le
  have hinsert : t.insert index name = .ok
      (t.setEntry (t.bucket (nameHash name))
        { metaIndex := index.toInt32, hash := nameHash name },
        t.bucket (nameHash name)) := by
    unfold insert
    dsimp only
    rw [hhead]
    rfl
  generalize t.bucket (nameHash name) = head at hhead hlt hinsert ⊢
  have hlength := t.length_setEntry head
    { metaIndex := index.toInt32, hash := nameHash name }
  -- The entry was the end of its chain, as the one that replaces it is.
  have hnext : ∀ p, ((t.setEntry head
      { metaIndex := index.toInt32, hash := nameHash name }).entryAt p).next =
        (t.entryAt p).next := by
    intro p
    by_cases hp : p = head
    · rw [hp, entryAt_setEntry_self hlt, h.empty_ends head hhead]
    · rw [entryAt_setEntry_ne hp]
  refine ⟨_, hinsert, puts_setEntry hlt hhead index _, ?_⟩
  constructor
  · have haddressable := h.addressable
    unfold Addressable at haddressable ⊢
    rw [hlength]
    exact haddressable
  · intro bucket places _ hleads
    refine ⟨places, ⟨?_, hleads.distinct, hleads.behind⟩, List.Subset.refl _, ?_⟩
    · exact hleads.path.congr (Nat.le_of_eq hlength.symm) fun p _ => hnext p
    · intro hbucket
      rw [hbucket]
      exact List.mem_cons_self
  · intro p hp
    rw [hnext]
    by_cases hph : p = head
    · rw [hph]
      exact h.empty_ends head hhead
    · rw [entryAt_setEntry_ne hph] at hp
      exact h.empty_ends p hp

theorem firstOf_eq_none {test : Nat → Bool} {places : List Nat}
    (h : ∀ p ∈ places, test p = false) :
    firstOf test (places.map .ok) = .ok none := by
  induction places with
  | nil => rfl
  | cons p places ih =>
      rw [List.map_cons]
      unfold firstOf
      rw [h p List.mem_cons_self]
      exact ih fun q hq => h q (List.mem_cons_of_mem _ hq)

/-- The table with a new entry behind all others, between a bucket and the rest
of its chain. -/
def linkBehind (t : LookupTable) (head : Nat) (index hash : UInt32) :
    LookupTable :=
  setEntry
    { t with
      entries := t.entries ++ [{ metaIndex := index.toInt32, hash := hash,
                                 next := (t.entryAt head).next }] }
    head { t.entryAt head with next := offsetOf t.entries.length }

theorem length_linkBehind (t : LookupTable) (head : Nat) (index hash : UInt32) :
    (t.linkBehind head index hash).entries.length = t.entries.length + 1 := by
  unfold linkBehind setEntry
  rw [List.length_set, List.length_append, List.length_singleton]

/-- What an insertion that succeeds comes to: the entry goes into its bucket, it is there
already, or it goes behind all others. -/
theorem insert_cases {index : UInt32} {name : String} {place : Nat}
    (h : t.insert index name = .ok (t', place)) :
    ((t.entryAt (t.bucket (nameHash name))).isEmpty = true ∧
      place = t.bucket (nameHash name) ∧
      t' = t.setEntry place { metaIndex := index.toInt32, hash := nameHash name }) ∨
    (t.entryAt (t.bucket (nameHash name))).isEmpty = false ∧
      (firstOf (fun p => (t.entryAt p).metaIndex == index.toInt32)
          (t.chain (nameHash name)) = .ok (some place) ∧
        t' = t ∨
      firstOf (fun p => (t.entryAt p).metaIndex == index.toInt32)
          (t.chain (nameHash name)) = .ok none ∧
        place = t.entries.length ∧
        t' = t.linkBehind (t.bucket (nameHash name)) index (nameHash name)) := by
  unfold insert at h
  dsimp only at h
  split at h
  · rename_i hempty
    cases h
    exact Or.inl ⟨hempty, rfl, rfl⟩
  · rename_i hfull
    rcases of_bind_eq_ok h with ⟨found, hfound, h⟩
    refine Or.inr ⟨by simpa using hfull, ?_⟩
    cases found with
    | some p =>
        cases h
        exact Or.inl ⟨hfound, rfl⟩
    | none =>
        cases h
        exact Or.inr ⟨hfound, rfl, rfl⟩

theorem entryAt_linkBehind_of_ne {head : Nat} (index hash : UInt32) {p : Nat}
    (hp : p ≠ head)
    (hnew : p ≠ t.entries.length) :
    (t.linkBehind head index hash).entryAt p = t.entryAt p := by
  unfold linkBehind
  rw [entryAt_setEntry_ne hp]
  rcases Nat.lt_or_ge p t.entries.length with hold | hge
  · unfold entryAt
    rw [List.getD_eq_getElem?_getD, List.getElem?_append_left hold,
      List.getD_eq_getElem?_getD]
  · rw [entryAt_of_length_le hge, entryAt_of_length_le]
    rw [List.length_append, List.length_singleton]
    omega

theorem leads_linkBehind_of_ne {head : Nat} (index hash : UInt32)
    (hbucket : head < t.bucketCount) {other : Nat} (hne : other ≠ head)
    (hother : other < t.bucketCount) {places : List Nat}
    (h : t.Leads other places) :
    (t.linkBehind head index hash).Leads other places := by
  have hlength := t.length_linkBehind head index hash
  refine ⟨?_, h.distinct, h.behind⟩
  refine h.path.congr (by omega) ?_
  intro p hp
  have hold := h.path.lt_length p hp
  have hphead : p ≠ head := by
    rcases List.mem_cons.mp hp with rfl | hmem
    · exact hne
    · have hbehind := h.behind p hmem
      omega
  rw [entryAt_linkBehind_of_ne index hash hphead (by omega)]

section

variable {head : Nat} (hlt : head < t.entries.length) (index hash : UInt32)
include hlt

theorem entryAt_linkBehind_head :
    (t.linkBehind head index hash).entryAt head =
      { t.entryAt head with next := offsetOf t.entries.length } := by
  unfold linkBehind
  apply entryAt_setEntry_self
  rw [List.length_append]
  exact Nat.lt_add_right _ hlt

theorem entryAt_linkBehind_new :
    (t.linkBehind head index hash).entryAt t.entries.length =
      { metaIndex := index.toInt32, hash := hash,
        next := (t.entryAt head).next } := by
  unfold linkBehind
  rw [entryAt_setEntry_ne (Nat.ne_of_gt hlt)]
  unfold entryAt
  rw [List.getD_eq_getElem?_getD, List.getElem?_concat_length, Option.getD_some]

theorem puts_linkBehind :
    Puts t (t.linkBehind head index hash) index hash t.entries.length := by
  have hlength := t.length_linkBehind head index hash
  have hnew := entryAt_linkBehind_new hlt index hash
  constructor
  · rfl
  · omega
  · omega
  · omega
  · rw [entryAt_of_length_le (Nat.le_refl _)]
    rfl
  · rw [hnew]
  · rw [hnew]
  · rw [hnew]
  · intro p hp
    by_cases hhead : p = head
    · rw [hhead, entryAt_linkBehind_head hlt]
      exact ⟨rfl, rfl, rfl⟩
    · rw [entryAt_linkBehind_of_ne index hash hhead hp]
      exact ⟨rfl, rfl, rfl⟩

theorem leads_linkBehind (hbucket : head < t.bucketCount)
    (hle : t.bucketCount ≤ t.entries.length) {places : List Nat}
    (h : t.Leads head places) :
    (t.linkBehind head index hash).Leads head
      (t.entries.length :: places) := by
  have hlength := t.length_linkBehind head index hash
  have hheadnext : ((t.linkBehind head index hash).entryAt head).next =
      offsetOf t.entries.length := by
    rw [entryAt_linkBehind_head hlt]
  have hnewnext :
      ((t.linkBehind head index hash).entryAt t.entries.length).next =
        (t.entryAt head).next := by
    rw [entryAt_linkBehind_new hlt]
  have hplaces : ∀ p ∈ places, ((t.linkBehind head index hash).entryAt p).next =
      (t.entryAt p).next := by
    intro p hp
    have hold := h.path.lt_length p (List.mem_cons_of_mem _ hp)
    have hbehind := h.behind p hp
    rw [entryAt_linkBehind_of_ne index hash (by omega) (by omega)]
  have hpath : (t.linkBehind head index hash).Path
      (t.entries.length :: places) := by
    cases h.path with
    | last hplace hnext => exact .last (by omega) (hnewnext.trans hnext)
    | cons hplace hnext rest =>
        exact .cons (by omega) (hnewnext.trans hnext)
          (rest.congr (by omega) hplaces)
  constructor
  · exact .cons (by omega) hheadnext hpath
  · rw [List.nodup_cons]
    refine ⟨?_, h.distinct⟩
    intro hmem
    exact Nat.lt_irrefl _
      (h.path.lt_length _ (List.mem_cons_of_mem _ hmem))
  · intro p hp
    rcases List.mem_cons.mp hp with rfl | hmem
    · exact hle
    · exact h.behind p hmem

end

theorem Tidy.insert_eq_linkBehind (h : t.Tidy) {name : String} {index : UInt32}
    (habsent : ∀ p, p < t.entries.length →
      (t.entryAt p).metaIndex ≠ index.toInt32)
    (hhead : (t.entryAt (t.bucket (nameHash name))).isEmpty = false) :
    t.insert index name = .ok
      (t.linkBehind (t.bucket (nameHash name)) index (nameHash name),
        t.entries.length) := by
  rcases h.leads _ (h.bucket_lt (nameHash name)) with ⟨places, hleads⟩
  have hnone : firstOf
      (fun place => (t.entryAt place).metaIndex == index.toInt32)
      (t.chain (nameHash name)) = .ok none := by
    rw [h.chain_eq hleads]
    refine firstOf_eq_none ?_
    intro p hp
    rw [beq_eq_false_iff_ne]
    exact habsent p (hleads.path.lt_length p hp)
  unfold insert
  dsimp only
  rw [hhead, hnone]
  rfl

theorem Tidy.insert_behind (h : t.Tidy) {name : String} {index : UInt32}
    (hindex : index.toNat < 2 ^ 31)
    (habsent : ∀ p, p < t.entries.length →
      (t.entryAt p).metaIndex ≠ index.toInt32)
    (hroom : headerSize + (t.entries.length + 1) * TableEntry.byteSize <
      2 ^ 31)
    (hhead : (t.entryAt (t.bucket (nameHash name))).isEmpty = false) :
    ∃ t', t.insert index name = .ok (t', t.entries.length) ∧
      Puts t t' index (nameHash name) t.entries.length ∧
      Grows t t' (t.bucket (nameHash name)) t.entries.length := by
  have hbucket := h.bucket_lt (nameHash name)
  have hle := h.shaped.buckets_le
  have hlt : t.bucket (nameHash name) < t.entries.length :=
    Nat.lt_of_lt_of_le hbucket hle
  have hinsert := h.insert_eq_linkBehind habsent hhead
  generalize t.bucket (nameHash name) = head at hbucket hlt hhead hinsert ⊢
  have hlength := t.length_linkBehind head index (nameHash name)
  refine ⟨_, hinsert, puts_linkBehind hlt index _, ?_⟩
  constructor
  · unfold Addressable
    rw [hlength]
    exact hroom
  · intro other places hother hleads
    by_cases hne : other = head
    · subst hne
      refine ⟨_, leads_linkBehind hlt index _ hbucket hle hleads,
        List.subset_cons_self _ _, ?_⟩
      intro _
      exact List.mem_cons_of_mem _ List.mem_cons_self
    · refine ⟨_, leads_linkBehind_of_ne index _ hbucket hne hother hleads,
        List.Subset.refl _, ?_⟩
      intro heq
      exact absurd heq hne
  · intro p hp
    by_cases hphead : p = head
    · rw [hphead, entryAt_linkBehind_head hlt] at hp
      unfold TableEntry.isEmpty at hp hhead
      dsimp only at hp
      rw [hhead] at hp
      exact absurd hp Bool.false_ne_true
    · by_cases hpnew : p = t.entries.length
      · have hfull := @isEmpty_of_metaIndex
          ((t.linkBehind head index (nameHash name)).entryAt t.entries.length)
          index (by rw [entryAt_linkBehind_new hlt]) hindex
        rw [hpnew, hfull] at hp
        exact absurd hp Bool.false_ne_true
      · rw [entryAt_linkBehind_of_ne index _ hphead hpnew] at hp ⊢
        exact h.empty_ends p hp

section Inserted

variable {index hash : UInt32} {head place : Nat}
  (hputs : Puts t t' index hash place) (hgrows : Grows t t' head place)
include hputs

theorem Puts.bucket_eq (other : UInt32) : t'.bucket other = t.bucket other := by
  unfold bucket
  rw [hputs.bucketCount_eq]

include hgrows

theorem Puts.tidy (h : t.Tidy)
    (habsent : ∀ p, p < t.entries.length →
      (t.entryAt p).metaIndex ≠ index.toInt32) :
    t'.Tidy := by
  constructor
  · have hle := Nat.le_trans h.shaped.buckets_le hputs.length_le
    rw [← hputs.bucketCount_eq] at hle
    refine ⟨?_, hle⟩
    rw [hputs.bucketCount_eq]
    exact h.shaped.has_buckets
  · exact hgrows.addressable
  · intro bucket hbucket
    rw [hputs.bucketCount_eq] at hbucket
    rcases h.leads bucket hbucket with ⟨places, hleads⟩
    rcases hgrows.leads bucket places hbucket hleads with ⟨places', hleads', _⟩
    exact ⟨places', hleads'⟩
  · exact hputs.unique h habsent
  · exact hgrows.empty_ends

theorem Puts.chain_grows (h : t.Tidy) (h' : t'.Tidy) (other : UInt32) :
    ∃ places places',
      t.chain other = (t.bucket other :: places).map .ok ∧
      t'.chain other = (t.bucket other :: places').map .ok ∧
      places ⊆ places' ∧
      (t.bucket other = head → place ∈ t.bucket other :: places') := by
  rcases h.leads _ (h.bucket_lt other) with ⟨places, hleads⟩
  rcases hgrows.leads _ places (h.bucket_lt other) hleads with
    ⟨places', hleads', hsubset, hplace⟩
  refine ⟨places, places', h.chain_eq hleads, ?_, hsubset, hplace⟩
  rw [← hputs.bucket_eq] at hleads' ⊢
  exact h'.chain_eq hleads'

theorem Puts.has_of_has (h : t.Tidy) (h' : t'.Tidy) {name : String} {i : UInt32}
    {p : Nat} (hi : i.toNat < 2 ^ 31) (hhas : t.Has name i p) :
    t'.Has name i p := by
  have hp : p ≠ place := by
    intro heq
    have hfull := isEmpty_of_metaIndex hhas.metaIndex_eq hi
    rw [heq, hputs.was_empty] at hfull
    exact absurd hfull.symm Bool.false_ne_true
  rcases hputs.elsewhere p hp with ⟨hmeta, hhash, _⟩
  refine ⟨?_, hmeta.trans hhas.metaIndex_eq, hhash.trans hhas.hash_eq⟩
  rcases hputs.chain_grows hgrows h h' (nameHash name) with
    ⟨places, places', hold, hnew, hsubset, _⟩
  have hmem := hhas.in_chain
  rw [hold, List.mem_map] at hmem
  rcases hmem with ⟨q, hq, heq⟩
  cases heq
  rw [hnew]
  exact List.mem_map_of_mem (List.cons_subset_cons _ hsubset hq)

end Inserted

/-- Inserting a new method puts it in the chain of its name. One more entry is
needed only where the bucket is occupied. -/
theorem Tidy.insert_absent (h : t.Tidy) {name : String} {index : UInt32}
    (hindex : index.toNat < 2 ^ 31)
    (habsent : ∀ p, p < t.entries.length →
      (t.entryAt p).metaIndex ≠ index.toInt32)
    (hroom : (t.entryAt (t.bucket (nameHash name))).isEmpty = false →
      headerSize + (t.entries.length + 1) * TableEntry.byteSize < 2 ^ 31) :
    ∃ t' place, t.insert index name = .ok (t', place) ∧ t'.Tidy ∧
      t'.Has name index place ∧ Puts t t' index (nameHash name) place ∧
      ∀ other i p, i.toNat < 2 ^ 31 → t.Has other i p → t'.Has other i p := by
  have hstep : ∃ t' place, t.insert index name = .ok (t', place) ∧
      Puts t t' index (nameHash name) place ∧
      Grows t t' (t.bucket (nameHash name)) place := by
    cases hhead : (t.entryAt (t.bucket (nameHash name))).isEmpty with
    | true =>
        rcases h.insert_into_empty hhead with ⟨t', hinsert, hputs, hgrows⟩
        exact ⟨t', _, hinsert, hputs, hgrows⟩
    | false =>
        rcases h.insert_behind hindex habsent (hroom hhead) hhead with
          ⟨t', hinsert, hputs, hgrows⟩
        exact ⟨t', _, hinsert, hputs, hgrows⟩
  rcases hstep with ⟨t', place, hinsert, hputs, hgrows⟩
  have htidy := hputs.tidy hgrows h habsent
  refine ⟨t', place, hinsert, htidy, ⟨?_, hputs.metaIndex_eq, hputs.hash_eq⟩,
    hputs, fun _ _ _ => hputs.has_of_has hgrows h htidy⟩
  rcases hputs.chain_grows hgrows h htidy (nameHash name) with
    ⟨places, places', _, hnew, _, hplace⟩
  rw [hnew]
  exact List.mem_map_of_mem (hplace rfl)

/-!
## Code offsets
-/

theorem entryAt_setCodeOffset (t : LookupTable) (place : Nat) (offset : UInt32)
    (p : Nat) :
    (t.setCodeOffset place offset).entryAt p = t.entryAt p ∨
      p = place ∧ place < t.entries.length ∧
        (t.setCodeOffset place offset).entryAt p =
          { t.entryAt p with codeOffset := offset.toInt32 } := by
  unfold setCodeOffset
  by_cases hp : p = place
  · rcases Nat.lt_or_ge place t.entries.length with hlt | hge
    · right
      rw [hp, entryAt_setEntry_self hlt]
      exact ⟨rfl, hlt, rfl⟩
    · left
      have hlength : ∀ e, (t.setEntry place e).entries.length ≤ place := by
        intro e
        unfold setEntry
        rw [List.length_set]
        exact hge
      rw [hp, entryAt_of_length_le (hlength _), entryAt_of_length_le hge]
  · exact Or.inl (entryAt_setEntry_ne hp _)

section

variable (place : Nat) (offset : UInt32)

theorem metaIndex_setCodeOffset (p : Nat) :
    ((t.setCodeOffset place offset).entryAt p).metaIndex =
      (t.entryAt p).metaIndex := by
  rcases t.entryAt_setCodeOffset place offset p with heq | ⟨_, _, heq⟩
  · rw [heq]
  · rw [heq]

theorem hash_setCodeOffset (p : Nat) :
    ((t.setCodeOffset place offset).entryAt p).hash = (t.entryAt p).hash := by
  rcases t.entryAt_setCodeOffset place offset p with heq | ⟨_, _, heq⟩
  · rw [heq]
  · rw [heq]

theorem next_setCodeOffset (p : Nat) :
    ((t.setCodeOffset place offset).entryAt p).next = (t.entryAt p).next := by
  rcases t.entryAt_setCodeOffset place offset p with heq | ⟨_, _, heq⟩
  · rw [heq]
  · rw [heq]

theorem length_setCodeOffset :
    (t.setCodeOffset place offset).entries.length = t.entries.length :=
  List.length_set

theorem isEmpty_setCodeOffset (p : Nat) :
    ((t.setCodeOffset place offset).entryAt p).isEmpty =
      (t.entryAt p).isEmpty := by
  unfold TableEntry.isEmpty
  rw [metaIndex_setCodeOffset]

theorem Leads.setCodeOffset {head : Nat} {places : List Nat}
    (h : t.Leads head places) :
    (t.setCodeOffset place offset).Leads head places :=
  ⟨h.path.congr (Nat.le_of_eq (length_setCodeOffset place offset).symm)
    fun p _ => next_setCodeOffset place offset p, h.distinct, h.behind⟩

theorem Tidy.setCodeOffset (h : t.Tidy) :
    (t.setCodeOffset place offset).Tidy := by
  have hlength := @length_setCodeOffset t place offset
  constructor
  · refine ⟨h.shaped.has_buckets, ?_⟩
    rw [hlength]
    exact h.shaped.buckets_le
  · have haddressable := h.addressable
    unfold Addressable at haddressable ⊢
    rw [hlength]
    exact haddressable
  · intro head hhead
    rcases h.leads head hhead with ⟨places, hleads⟩
    exact ⟨places, hleads.setCodeOffset place offset⟩
  · intro p q hp hq hfull hsame
    rw [hlength] at hp hq
    rw [isEmpty_setCodeOffset] at hfull
    rw [metaIndex_setCodeOffset, metaIndex_setCodeOffset] at hsame
    exact h.unique p q hp hq hfull hsame
  · intro p hp
    rw [isEmpty_setCodeOffset] at hp
    rw [next_setCodeOffset]
    exact h.empty_ends p hp

theorem Has.setCodeOffset (ht : t.Tidy) {name : String} {index : UInt32}
    {p : Nat} (h : t.Has name index p) :
    (t.setCodeOffset place offset).Has name index p := by
  rcases ht.leads _ (ht.bucket_lt (nameHash name)) with ⟨places, hleads⟩
  have hsame : (t.setCodeOffset place offset).chain (nameHash name) =
      t.chain (nameHash name) := by
    rw [ht.chain_eq hleads]
    exact (ht.setCodeOffset place offset).chain_eq
      (hleads.setCodeOffset place offset)
  constructor
  · rw [hsame]
    exact h.in_chain
  · rw [metaIndex_setCodeOffset]
    exact h.metaIndex_eq
  · rw [hash_setCodeOffset]
    exact h.hash_eq

end

theorem codeOffset?_setCodeOffset_self {place : Nat} {offset : UInt32}
    (hplace : place < t.entries.length) (hoffset : offset.toNat < 2 ^ 31) :
    (t.setCodeOffset place offset).codeOffset? place = some offset := by
  have hpos : 0 ≤ offset.toInt32 := by
    have hnat : offset = UInt32.ofNat offset.toNat := UInt32.ofNat_toNat.symm
    rw [Int32.le_iff_toInt_le, hnat, UInt32.toInt32_ofNat',
      Int32.toInt_ofNat_of_lt hoffset, Int32.toInt_zero]
    omega
  unfold setCodeOffset
  rw [codeOffset?_eq_some_iff, entryAt_setEntry_self hplace]
  exact ⟨hpos, UInt32.toUInt32_toInt32 offset⟩

theorem codeOffset?_setCodeOffset_ne {place p : Nat} (hp : p ≠ place)
    (offset : UInt32) :
    (t.setCodeOffset place offset).codeOffset? p = t.codeOffset? p := by
  apply codeOffset?_congr
  unfold setCodeOffset
  rw [entryAt_setEntry_ne hp]

structure Gains (t t' : LookupTable) (name : String) (index : UInt32)
    (place : Nat) (head : UInt32) : Prop where
  tidy : t'.Tidy
  has : t'.Has name index place
  codeOffset?_eq : t'.codeOffset? place = some head
  bucketCount_eq : t'.bucketCount = t.bucketCount
  le_length : t'.entries.length ≤ t.entries.length + 1
  kept : ∀ other i p, i.toNat < 2 ^ 31 → t.Has other i p →
    t'.Has other i p ∧ t'.codeOffset? p = t.codeOffset? p
  old_or_new : ∀ p, (t'.entryAt p).isEmpty = false →
    (t'.entryAt p).metaIndex = index.toInt32 ∨
      (t.entryAt p).isEmpty = false ∧
        (t'.entryAt p).metaIndex = (t.entryAt p).metaIndex

theorem Tidy.insert_gains (h : t.Tidy) {name : String} {index : UInt32}
    (hindex : index.toNat < 2 ^ 31)
    (habsent : ∀ p, p < t.entries.length →
      (t.entryAt p).metaIndex ≠ index.toInt32)
    (hroom : headerSize + (t.entries.length + 1) * TableEntry.byteSize <
      2 ^ 31) :
    ∃ t' place, t.insert index name = .ok (t', place) ∧
      t'.codeOffset? place = none ∧ ∀ head : UInt32, head.toNat < 2 ^ 31 →
        Gains t (t'.setCodeOffset place head) name index place head := by
  rcases h.insert_absent hindex habsent fun _ => hroom with
    ⟨t', place, hinsert, htidy, hhas, hputs, hkept⟩
  refine ⟨t', place, hinsert, ?_, ?_⟩
  · exact codeOffset?_eq_none hputs.no_code
  · intro head hhead
    constructor
    · exact htidy.setCodeOffset _ _
    · exact hhas.setCodeOffset _ _ htidy
    · exact codeOffset?_setCodeOffset_self hputs.place_lt hhead
    · exact hputs.bucketCount_eq
    · rw [length_setCodeOffset]
      exact hputs.le_length
    · intro other i p hi hold
      have hp : p ≠ place := by
        intro heq
        have hfull := isEmpty_of_metaIndex hold.metaIndex_eq hi
        rw [heq, hputs.was_empty] at hfull
        exact absurd hfull.symm Bool.false_ne_true
      refine ⟨(hkept other i p hi hold).setCodeOffset _ _ htidy, ?_⟩
      rw [codeOffset?_setCodeOffset_ne hp]
      exact codeOffset?_congr (hputs.elsewhere p hp).2.2
    · intro p hp
      rw [isEmpty_setCodeOffset] at hp
      rw [metaIndex_setCodeOffset]
      rcases hputs.old_or_new hp with rfl | ⟨hne, _, hold⟩
      · exact Or.inl hputs.metaIndex_eq
      · exact Or.inr ⟨hold, (hputs.elsewhere p hne).1⟩

end LookupTable

end CodeCache
