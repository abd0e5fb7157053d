import CodeCache.Proofs.Blob.Parsing
import CodeCache.Proofs.Bytes.Bounds
import CodeCache.Proofs.Store.Finding
import CodeCache.Proofs.Work
import CodeCache.Store.Container

/-!
# Walks through chains

Tables and code spaces come from files, so a chain in them may be broken, or may run
in a circle. A walk is bounded by what there is room for: it meets no more entries
than the table has, and no more versions than there are headers in the code. It ends
at the end of the chain, or with what is corrupt about it.
-/

namespace CodeCache

inductive Walk {α : Type} : List (Except Error α) → Prop where
  | done : Walk []
  | broken {e : Error} (h : e.isCorruption = true) : Walk [.error e]
  | step (a : α) {rest : List (Except Error α)} (h : Walk rest) : Walk (.ok a :: rest)

namespace Walk

variable {α : Type} {steps : List (Except Error α)}

theorem isCorruption (h : Walk steps) {e : Error} (he : .error e ∈ steps) :
    e.isCorruption = true := by
  induction h with
  | done => cases he
  | broken hcorrupt =>
      cases List.mem_singleton.mp he
      exact hcorrupt
  | step a h ih => exact ih (List.mem_of_ne_of_mem (by simp) he)

theorem exists_eq (h : Walk steps) :
    ∃ met : List α, steps = met.map .ok ∨
      ∃ e : Error, e.isCorruption = true ∧ steps = met.map .ok ++ [.error e] := by
  induction h with
  | done => exact ⟨[], Or.inl rfl⟩
  | broken hcorrupt => exact ⟨[], Or.inr ⟨_, hcorrupt, rfl⟩⟩
  | step a h ih =>
      obtain ⟨met, hmet⟩ := ih
      refine ⟨a :: met, ?_⟩
      cases hmet with
      | inl hall => exact Or.inl (by simp [hall])
      | inr hbroken =>
          obtain ⟨e, he, hall⟩ := hbroken
          exact Or.inr ⟨e, he, by simp [hall]⟩

end Walk

/-!
## Lookups
-/

namespace LookupTable

variable (t : LookupTable)

theorem isCorruption_of_placeOf {offset : Int32} {e : Error} (h : placeOf offset = .error e) :
    e.isCorruption = true := by
  unfold placeOf at h
  dsimp only at h
  split at h
  · cases h
    rfl
  · cases h

theorem length_chainFrom_le (steps place : Nat) :
    (t.chainFrom steps place).length ≤ steps + 1 := by
  induction steps generalizing place with
  | zero =>
      unfold chainFrom
      cases t.entries[place]? <;> simp
  | succ steps ih =>
      unfold chainFrom
      cases t.entries[place]? with
      | none => simp
      | some e =>
          dsimp only
          by_cases hlast : e.next = 0
          · simp [hlast]
          · rw [if_neg hlast]
            cases placeOf e.next with
            | error fault => simp
            | ok next => simpa using ih next

theorem walk_chainFrom (steps place : Nat) : Walk (t.chainFrom steps place) := by
  induction steps generalizing place with
  | zero =>
      unfold chainFrom
      cases t.entries[place]? with
      | none => exact .broken rfl
      | some e => exact .broken rfl
  | succ steps ih =>
      unfold chainFrom
      cases t.entries[place]? with
      | none => exact .broken rfl
      | some e =>
          dsimp only
          by_cases hlast : e.next = 0
          · rw [if_pos hlast]
            exact .step place .done
          · rw [if_neg hlast]
            cases hnext : placeOf e.next with
            | error fault => exact .broken (isCorruption_of_placeOf hnext)
            | ok next => exact .step place (ih next)

def countedSearch (hash : UInt32) (compare : UInt32 → KeyMatch) :
    Bool → List (Except Error Nat) → Except Error Lookup × Nat
  | nameSeen, [] => (.ok (if nameSeen then .foundWithName else .notFound), 0)
  | _, .error e :: _ => (.error e, 1)
  | nameSeen, .ok place :: rest =>
    let e := t.entryAt place
    if e.isEmpty || e.hash != hash then
      (countedSearch hash compare nameSeen rest).map id (· + 1)
    else
      match compare e.metaIndex.toUInt32 with
      | .exact => (.ok (.found place), 1)
      | .nameOnly => (countedSearch hash compare true rest).map id (· + 1)
      | .different => (countedSearch hash compare nameSeen rest).map id (· + 1)

variable (hash : UInt32) (compare : UInt32 → KeyMatch)

theorem countedSearch_fst (nameSeen : Bool) (steps : List (Except Error Nat)) :
    (t.countedSearch hash compare nameSeen steps).1 = t.search hash compare nameSeen steps := by
  induction steps generalizing nameSeen with
  | nil => rfl
  | cons step rest ih =>
      cases step with
      | error e => rfl
      | ok place =>
          unfold countedSearch search
          dsimp only
          split
          · exact ih nameSeen
          · cases compare (t.entryAt place).metaIndex.toUInt32 with
            | exact => rfl
            | nameOnly => exact ih true
            | different => exact ih nameSeen

theorem countedSearch_snd_le (nameSeen : Bool) (steps : List (Except Error Nat)) :
    (t.countedSearch hash compare nameSeen steps).2 ≤ steps.length := by
  induction steps generalizing nameSeen with
  | nil => exact Nat.le_refl 0
  | cons step rest ih =>
      cases step with
      | error e => simp [countedSearch]
      | ok place =>
          unfold countedSearch
          dsimp only
          split
          · exact Nat.succ_le_succ (ih nameSeen)
          · split
            · simp
            · exact Nat.succ_le_succ (ih true)
            · exact Nat.succ_le_succ (ih nameSeen)

theorem mem_of_search_eq_error {nameSeen : Bool} {steps : List (Except Error Nat)} {e : Error}
    (h : t.search hash compare nameSeen steps = .error e) :
    .error e ∈ steps := by
  induction steps generalizing nameSeen with
  | nil => cases h
  | cons step rest ih =>
      cases step with
      | error e' =>
          cases h
          exact List.mem_cons_self
      | ok place =>
          apply List.mem_cons_of_mem
          unfold search at h
          dsimp only at h
          split at h
          · exact ih h
          · split at h
            · cases h
            · exact ih h
            · exact ih h

def countedFind (name : String) : Except Error Lookup × Nat :=
  t.countedSearch (nameHash name) compare false (t.chain (nameHash name))

theorem countedFind_fst (name : String) :
    (t.countedFind compare name).1 = t.find name compare :=
  countedSearch_fst ..

theorem countedFind_snd_le (name : String) :
    (t.countedFind compare name).2 ≤ t.entries.length + 1 :=
  Nat.le_trans (countedSearch_snd_le ..) (length_chainFrom_le ..)

theorem isCorruption_of_find {name : String} {e : Error} (h : t.find name compare = .error e) :
    e.isCorruption = true :=
  (t.walk_chainFrom _ _).isCorruption (mem_of_search_eq_error _ _ _ h)

end LookupTable

/-!
## Versions
-/

theorem Blob.isCorruption_of_parse {space : Bytes} {offset : UInt32} {e : Error}
    (h : parse space offset = .error e) :
    e.isCorruption = true := by
  unfold parse at h
  simp only [bind, Except.bind] at h
  split at h
  · cases h
    rfl
  · split at h
    · cases h
      rfl
    · rename_i hroom
      have hlength : (space.window offset.toNat BlobHeader.byteSize).length =
          BlobHeader.byteSize :=
        Bytes.length_window (Nat.not_lt.mp hroom)
      obtain ⟨header, hheader⟩ := BlobHeader.decode_takes.run hlength
      rw [hheader] at h
      dsimp only at h
      split at h
      · cases h
        rfl
      · split at h
        · cases h
          rfl
        · split at h
          · cases h
            rfl
          · cases h

namespace CodeSpace

variable (space : CodeSpace)

theorem length_versionsFrom_le (steps : Nat) (offset : UInt32) :
    (space.versionsFrom steps offset).length ≤ steps + 1 := by
  induction steps generalizing offset with
  | zero => simp [versionsFrom]
  | succ steps ih =>
      unfold versionsFrom
      cases space.blob offset with
      | error e => simp
      | ok b =>
          cases hnext : b.header.next? with
          | none => simp [hnext]
          | some next => simpa [hnext] using ih next

theorem walk_versionsFrom (steps : Nat) (offset : UInt32) :
    Walk (space.versionsFrom steps offset) := by
  induction steps generalizing offset with
  | zero => exact .broken rfl
  | succ steps ih =>
      unfold versionsFrom
      cases hblob : space.blob offset with
      | error e => exact .broken (Blob.isCorruption_of_parse hblob)
      | ok b =>
          apply Walk.step
          cases b.header.next? with
          | none => exact .done
          | some next => exact ih next

end CodeSpace

/-!
## Containers
-/

/-- The chains of a container can be walked: there is a bucket for every hash, lookups
and version walks are bounded, and either ends or meets something corrupt. -/
structure Container.Walkable (c : Container) : Prop where
  has_buckets : 0 < c.table.bucketCount
  places_lt : ∀ hash place, .ok place ∈ c.table.chain hash → place < c.table.entries.length
  find_steps : ∀ name compare,
    (c.table.countedFind compare name).1 = c.table.find name compare ∧
      (c.table.countedFind compare name).2 ≤ c.table.entries.length + 1
  find_ends : ∀ name compare,
    (∃ found, c.table.find name compare = .ok found) ∨
      ∃ e, c.table.find name compare = .error e ∧ e.isCorruption = true
  versions_length : ∀ head,
    (c.code.versions head).length ≤ c.code.size / BlobHeader.byteSize + 2
  versions_end : ∀ head, ∃ blobs : List Blob,
    c.code.versions head = blobs.map .ok ∨
      ∃ e : Error, e.isCorruption = true ∧
        c.code.versions head = blobs.map .ok ++ [.error e]

theorem Container.walkable {c : Container} (hbuckets : 0 < c.table.bucketCount) :
    c.Walkable where
  has_buckets := hbuckets
  places_lt := fun _ _ h => LookupTable.lt_of_mem_chainFrom h
  find_steps := fun name compare =>
    ⟨c.table.countedFind_fst compare name, c.table.countedFind_snd_le compare name⟩
  find_ends := by
    intro name compare
    cases hfind : c.table.find name compare with
    | ok found => exact Or.inl ⟨found, rfl⟩
    | error e => exact Or.inr ⟨e, rfl, c.table.isCorruption_of_find compare hfind⟩
  versions_length := fun head => c.code.length_versionsFrom_le _ head
  versions_end := fun head => (c.code.walk_versionsFrom _ head).exists_eq

end CodeCache
