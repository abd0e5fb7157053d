import CodeCache.Proofs.Metadata.Interning
import CodeCache.Proofs.Store.FileStorage
import CodeCache.Proofs.Store.Tables

/-!
# Built files

However a file was built, its keys are distinct, its tables have their buckets
and its code spaces stay below the limit of their links.
-/

namespace CodeCache

/-!
## Tables
-/

namespace LookupTable

variable {t t' : LookupTable} {place : Nat}

theorem shaped_sized (expected : Nat) : (sized expected).Shaped := by
  have hpos : 0 < max expected minBuckets :=
    Nat.lt_of_lt_of_le (by decide) (Nat.le_max_right _ _)
  constructor
  · exact hpos
  · exact Nat.le_of_eq List.length_replicate.symm

theorem Shaped.setEntry (h : t.Shaped) (place : Nat) (e : TableEntry) :
    (t.setEntry place e).Shaped := by
  constructor
  · exact h.has_buckets
  · rw [length_setEntry]
    exact h.buckets_le

theorem Shaped.append (h : t.Shaped) (e : TableEntry) :
    Shaped { t with entries := t.entries ++ [e] } := by
  constructor
  · exact h.has_buckets
  · have hle := h.buckets_le
    rw [List.length_append]
    exact Nat.le_trans hle (Nat.le_add_right _ _)

theorem Shaped.of_insert (h : t.Shaped) {metaIndex : UInt32} {name : String}
    (hinsert : t.insert metaIndex name = .ok (t', place)) :
    t'.Shaped := by
  rcases insert_cases hinsert with
    ⟨-, -, rfl⟩ | ⟨-, ⟨-, rfl⟩ | ⟨-, -, rfl⟩⟩
  · exact h.setEntry _ _
  · exact h
  · exact (h.append _).setEntry _ _

end LookupTable

/-!
## Containers
-/

namespace Container

theorem wellFormed_sized (fingerprint : Fingerprint) (expected : Nat) :
    (sized fingerprint expected).WellFormed :=
  ⟨LookupTable.shaped_sized expected, Nat.two_pow_pos 31⟩

theorem addVersion_cases {c c' : Container} {index offset : UInt32} {name : String}
    {blob : Bytes}
    (hadd : c.addVersion index name blob = .ok (c', offset)) :
    ∃ table place, c.table.insert index name = .ok (table, place) ∧
      ((∃ code, table.codeOffset? place = none ∧
        c.code.appendVersion none blob = .ok (code, offset) ∧
        c' = { c with table := table.setCodeOffset place offset, code }) ∨
      (∃ head code, table.codeOffset? place = some head ∧
        c.code.appendVersion (some head) blob = .ok (code, offset) ∧
        c' = { c with table, code })) := by
  unfold Container.addVersion at hadd
  rcases of_bind_eq_ok hadd with ⟨⟨table, place⟩, hinsert, hadd⟩
  rcases of_bind_eq_ok hadd with ⟨⟨code, place'⟩, happend, hdone⟩
  refine ⟨table, place, hinsert, ?_⟩
  dsimp only at happend hdone
  cases hhead : table.codeOffset? place with
  | none =>
      rw [hhead] at happend hdone
      cases hdone
      exact Or.inl ⟨code, rfl, happend, rfl⟩
  | some head =>
      rw [hhead] at happend hdone
      cases hdone
      exact Or.inr ⟨head, code, rfl, happend, rfl⟩

theorem WellFormed.of_addVersion {c c' : Container} (h : c.WellFormed)
    {metaIndex offset : UInt32} {name : String} {blob : Bytes}
    (hadd : c.addVersion metaIndex name blob = .ok (c', offset)) :
    c'.WellFormed := by
  rcases addVersion_cases hadd with ⟨table, place, hinsert, hcases⟩
  have hshaped := h.shaped.of_insert hinsert
  rcases hcases with ⟨code, -, happend, rfl⟩ | ⟨head, code, -, happend, rfl⟩
  · exact ⟨hshaped.setEntry _ _, (CodeSpace.size_of_appendVersion happend).2⟩
  · exact ⟨hshaped, (CodeSpace.size_of_appendVersion happend).2⟩

end Container

/-!
## Files
-/

namespace CacheFile

theorem addVersion_eq_ok_iff {f g : CacheFile} {place : Nat}
    {metaIndex offset : UInt32} {name : String} {blob : Bytes} :
    f.addVersion place metaIndex name blob = .ok (g, offset) ↔
      ∃ c c', f.containers[place]? = some c ∧
        c.addVersion metaIndex name blob = .ok (c', offset) ∧
        g = { f with containers := f.containers.set place c' } := by
  unfold CacheFile.addVersion
  cases f.containers[place]? with
  | none =>
      constructor
      · intro h
        cases h
      · rintro ⟨c, c', hc, -⟩
        cases hc
  | some c =>
      constructor
      · intro h
        rcases of_bind_eq_ok h with ⟨⟨c', offset'⟩, hadd, hdone⟩
        cases hdone
        exact ⟨c, c', rfl, hadd, rfl⟩
      · rintro ⟨_, c', hc, hadd, rfl⟩
        cases hc
        dsimp only
        rw [hadd]
        rfl

/-- The files that can be built. An addition that fails at its blob leaves the
entry of its method in the table; that entry has no code. -/
inductive Built : CacheFile → Prop where
  | new (buildIdentity : String) : Built { buildIdentity }
  | internKey {f : CacheFile} (h : Built f) (key : MetaKey) :
      Built { f with space := (f.space.internKey key).1 }
  | containerFor {f : CacheFile} (h : Built f) (fingerprint : Fingerprint) :
      Built (f.containerFor fingerprint).1
  | addVersion {f g : CacheFile} (h : Built f) {place : Nat}
      {metaIndex offset : UInt32} {name : String} {blob : Bytes}
      (hadd : f.addVersion place metaIndex name blob = .ok (g, offset)) :
      Built g
  | addEntry {f : CacheFile} (h : Built f) {place entry : Nat} {c : Container}
      (hc : f.containers[place]? = some c) {metaIndex : UInt32} {name : String}
      {table : LookupTable}
      (hinsert : c.table.insert metaIndex name = .ok (table, entry)) :
      Built { f with containers := f.containers.set place { c with table } }

theorem Built.wellFormed {f : CacheFile} (h : f.Built) : f.WellFormed := by
  induction h with
  | new buildIdentity =>
      refine ⟨List.nodup_nil, ?_⟩
      intro c hc
      cases hc
  | internKey h key ih => exact ⟨MetaSpace.nodup_internKey ih.distinct key, ih.containers⟩
  | containerFor h fingerprint ih =>
      unfold CacheFile.containerFor
      split
      · exact ih
      · refine ⟨ih.distinct, ?_⟩
        intro c hc
        rcases List.mem_append.mp hc with hold | hnew
        · exact ih.containers c hold
        · rw [List.mem_singleton.mp hnew]
          exact Container.wellFormed_sized fingerprint 0
  | @addVersion f g h place metaIndex offset name blob hadd ih =>
      rcases addVersion_eq_ok_iff.mp hadd with ⟨c, c', hc, hinner, rfl⟩
      refine ⟨ih.distinct, ?_⟩
      intro d hd
      rcases List.mem_or_eq_of_mem_set hd with hold | hnew
      · exact ih.containers d hold
      · rw [hnew]
        exact (ih.containers c (List.mem_of_getElem? hc)).of_addVersion hinner
  | @addEntry f h place entry c hc metaIndex name table hinsert ih =>
      have hmem : c ∈ f.containers := List.mem_of_getElem? hc
      refine ⟨ih.distinct, ?_⟩
      intro d hd
      rcases List.mem_or_eq_of_mem_set hd with hold | hnew
      · exact ih.containers d hold
      · rw [hnew]
        exact ⟨(ih.containers c hmem).shaped.of_insert hinsert,
          (ih.containers c hmem).code_lt⟩

/-- A file takes exactly the room that was announced. Its build, and whoever does
not ask, reads back the same keys at the same indices and the same containers. -/
theorem built_file_round_trip {f : CacheFile} (hf : f.Built) (h : f.Storable) :
    f.encode.length = f.encodedSize ∧
      ∀ expected : Option String,
        expected = none ∨ expected = some f.buildIdentity →
        ∃ g, decode f.encode expected = .ok g ∧
          g.buildIdentity = f.buildIdentity ∧ g.space.keys = f.space.keys ∧
          g.containers = f.containers := by
  refine ⟨f.length_encode, ?_⟩
  intro expected hexpected
  refine ⟨_, decode_encode hf.wellFormed h hexpected, rfl, ?_, rfl⟩
  exact MetaSpace.keys_ofKeys f.space.keys

/-!
A file with two methods, each in a container of its own.
-/

namespace Sample

def keyed : CacheFile :=
  let f : CacheFile := { buildIdentity := "build" }
  let f := { f with
    space := (f.space.internKey ⟨.method "A" "f" "()V", 7, .app⟩).1 }
  { f with space := (f.space.internKey ⟨.method "B" "g" "(I)I", 8, .boot⟩).1 }

def withContainers : CacheFile :=
  let f := (keyed.containerFor (.capture {})).1
  (f.containerFor (.capture { objectAlignment := 16 })).1

def withVersion (f : CacheFile) (place : Nat) (metaIndex : UInt32) (name : String)
    (blob : Bytes) : CacheFile :=
  match f.addVersion place metaIndex name blob with
  | .ok (g, _) => g
  | .error _ => f

theorem withVersion_built {f : CacheFile} (h : f.Built) (place : Nat)
    (metaIndex : UInt32) (name : String) (blob : Bytes) :
    (withVersion f place metaIndex name blob).Built := by
  unfold withVersion
  split
  · rename_i hadd
    exact h.addVersion hadd
  · exact h

def file : CacheFile :=
  withVersion (withVersion withContainers 0 0 "A.f()V" [1, 2, 3]) 1 1
    "B.g(I)I" [4, 5]

theorem file_built : file.Built := by
  have hkeyed : keyed.Built := ((Built.new "build").internKey _).internKey _
  have hcontainers : withContainers.Built :=
    (hkeyed.containerFor _).containerFor _
  exact withVersion_built (withVersion_built hcontainers 0 0 _ _) 1 1 _ _

theorem file_storable : file.Storable := by
  constructor
  case in_range =>
    have hall : (file.containers.all fun c => c.methods.all fun entry =>
        decide (entry.1.toNat < file.space.size)) = true := by
      decide +kernel
    simpa only [List.all_eq_true, decide_eq_true_eq] using hall
  all_goals decide +kernel

end Sample

theorem built_file_round_trip_of_two_containers :
    Sample.file.containers.length = 2 ∧
      (∀ c ∈ Sample.file.containers, c.methodCount = 1) ∧
      Sample.file.encode.length = Sample.file.encodedSize ∧
      ∀ expected : Option String,
        expected = none ∨ expected = some Sample.file.buildIdentity →
        ∃ g, decode Sample.file.encode expected = .ok g ∧
          g.buildIdentity = Sample.file.buildIdentity ∧
          g.space.keys = Sample.file.space.keys ∧
          g.containers = Sample.file.containers :=
  ⟨by decide +kernel, by decide +kernel,
    built_file_round_trip Sample.file_built Sample.file_storable⟩

end CacheFile

end CodeCache
