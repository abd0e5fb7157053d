import CodeCache.Store.Container
import Mathlib.Algebra.Ring.Nat

/-!
# What a lookup finds

A lookup walks the chain of a hash and stops at the first entry whose key is the
wanted one, so what it answers hangs off a table entry with that very key. Of the
metaspace it reads nothing but keys.
-/

namespace CodeCache

namespace LookupTable

theorem lt_of_mem_chainFrom {t : LookupTable} {steps start place : Nat}
    (h : .ok place ∈ t.chainFrom steps start) :
    place < t.entries.length := by
  induction steps generalizing start with
  | zero =>
      unfold chainFrom at h
      cases hentry : t.entries[start]? with
      | none | some e =>
          rw [hentry, List.mem_singleton] at h
          cases h
  | succ steps ih =>
      unfold chainFrom at h
      cases hentry : t.entries[start]? with
      | none =>
          rw [hentry, List.mem_singleton] at h
          cases h
      | some e =>
          rw [hentry] at h
          have hstart : start < t.entries.length :=
            (List.getElem?_eq_some_iff.mp hentry).1
          dsimp only at h
          split at h
          · cases List.mem_singleton.mp h
            exact hstart
          · split at h
            · rw [List.mem_singleton] at h
              cases h
            · cases h with
              | head => exact hstart
              | tail _ hmem => exact ih hmem

theorem entryAt_eq_getElem {t : LookupTable} {place : Nat}
    (h : place < t.entries.length) :
    t.entryAt place = t.entries[place] := by
  unfold entryAt
  rw [List.getD_eq_getElem?_getD, List.getElem?_eq_getElem h, Option.getD_some]

theorem entryAt_mem {t : LookupTable} {place : Nat}
    (h : place < t.entries.length) :
    t.entryAt place ∈ t.entries := by
  rw [entryAt_eq_getElem h]
  exact List.getElem_mem h

theorem mem_occupied {t : LookupTable} {place : Nat} {e : TableEntry} :
    (place, e) ∈ t.occupied ↔ place < t.entries.length ∧
      (t.entryAt place).isEmpty = false ∧ e = t.entryAt place := by
  unfold occupied
  rw [List.mem_filter, List.mem_mapIdx]
  constructor
  · rintro ⟨⟨place, hplace, heq⟩, hfull⟩
    cases heq
    rw [entryAt_eq_getElem hplace]
    exact ⟨hplace, by simpa using hfull, rfl⟩
  · rintro ⟨hplace, hfull, rfl⟩
    refine ⟨⟨place, hplace, ?_⟩, by simpa using hfull⟩
    rw [entryAt_eq_getElem hplace]

theorem codeOffset?_eq_some_iff {t : LookupTable} {place : Nat} {head : UInt32} :
    t.codeOffset? place = some head ↔
      0 ≤ (t.entryAt place).codeOffset ∧
        (t.entryAt place).codeOffset.toUInt32 = head := by
  unfold codeOffset?
  by_cases hcode : 0 ≤ (t.entryAt place).codeOffset <;> simp [hcode]

theorem codeOffset?_eq_none {t : LookupTable} {place : Nat}
    (h : (t.entryAt place).codeOffset = -1) :
    t.codeOffset? place = none := by
  unfold codeOffset?
  rw [h]
  exact if_neg (show ¬ (0 : Int32) ≤ -1 by decide)

theorem codeOffset?_congr {t t' : LookupTable} {place : Nat}
    (h : (t'.entryAt place).codeOffset = (t.entryAt place).codeOffset) :
    t'.codeOffset? place = t.codeOffset? place := by
  unfold codeOffset?
  rw [h]

theorem of_search {t : LookupTable} {hash : UInt32}
    {compare : UInt32 → KeyMatch} {nameSeen : Bool}
    {places : List (Except Error Nat)} {place : Nat}
    (h : t.search hash compare nameSeen places = .ok (.found place)) :
    .ok place ∈ places ∧
      compare (t.entryAt place).metaIndex.toUInt32 = .exact := by
  induction places generalizing nameSeen with
  | nil =>
      unfold search at h
      cases nameSeen <;> cases h
  | cons first rest ih =>
      cases first with
      | error e =>
          unfold search at h
          cases h
      | ok candidate =>
          have hlater : ∀ nameSeen,
              t.search hash compare nameSeen rest = .ok (.found place) →
              .ok place ∈ .ok candidate :: rest ∧
                compare (t.entryAt place).metaIndex.toUInt32 = .exact := by
            intro nameSeen hrest
            rcases ih hrest with ⟨hmem, hexact⟩
            exact ⟨List.mem_cons_of_mem _ hmem, hexact⟩
          rw [search] at h
          split at h
          · exact hlater _ h
          · split at h
            · rename_i hexact
              cases h
              exact ⟨List.mem_cons_self, hexact⟩
            · exact hlater _ h
            · exact hlater _ h

def candidates (t : LookupTable) (hash : UInt32) (places : List Nat) : List Nat :=
  places.filter fun p => !(t.entryAt p).isEmpty && (t.entryAt p).hash == hash

theorem mem_candidates {t : LookupTable} {hash : UInt32} {places : List Nat}
    {p : Nat} :
    p ∈ t.candidates hash places ↔ p ∈ places ∧
      (t.entryAt p).isEmpty = false ∧ (t.entryAt p).hash = hash := by
  simp [candidates]

/-- What a search answers that meets these entries: the first exact match, and
without one whether the name was met. -/
def outcome (t : LookupTable) (compare : UInt32 → KeyMatch) (nameSeen : Bool)
    (places : List Nat) : Lookup :=
  match places.find? fun p => compare (t.metaIndex p) == .exact with
  | some p => .found p
  | none =>
    if nameSeen || places.any fun p => compare (t.metaIndex p) == .nameOnly
    then .foundWithName else .notFound

theorem search_eq_outcome (t : LookupTable) (hash : UInt32)
    (compare : UInt32 → KeyMatch) (places : List Nat) (nameSeen : Bool) :
    t.search hash compare nameSeen (places.map .ok) =
      .ok (t.outcome compare nameSeen (t.candidates hash places)) := by
  induction places generalizing nameSeen with
  | nil => cases nameSeen <;> rfl
  | cons p places ih =>
      rw [List.map_cons, search]
      unfold candidates at ih ⊢
      by_cases hskip : (t.entryAt p).isEmpty || (t.entryAt p).hash != hash
      · have hnot : (!(t.entryAt p).isEmpty && (t.entryAt p).hash == hash) =
            false := by
          cases hempty : (t.entryAt p).isEmpty <;> simp_all
        rw [if_pos hskip, ih, List.filter_cons, hnot]
        rfl
      · have hin : (!(t.entryAt p).isEmpty && (t.entryAt p).hash == hash) =
            true := by
          cases hempty : (t.entryAt p).isEmpty <;> simp_all
        rw [if_neg hskip, List.filter_cons, if_pos hin, outcome, List.find?_cons,
          List.any_cons]
        rw [show (t.entryAt p).metaIndex.toUInt32 = t.metaIndex p from rfl]
        cases hcompare : compare (t.metaIndex p) with
        | exact => rfl
        | nameOnly =>
            rw [show t.search hash compare true _ = _ from ih true]
            cases nameSeen <;> rfl
        | different => exact ih nameSeen

end LookupTable

namespace Container

theorem compareKey_eq (space : MetaSpace) (key : MetaKey) (index : UInt32) :
    compareKey space key index =
      match space.keys[index.toNat]? with
      | some k =>
          if k = key then .exact
          else if k.name = key.name then .nameOnly else .different
      | none => .different := by
  unfold compareKey MetaSpace.entry? MetaSpace.keys
  rw [List.getElem?_map]
  cases space.entries[index.toNat]? <;> rfl

theorem compareKey_eq_exact_iff {space : MetaSpace} {key : MetaKey}
    {index : UInt32} :
    compareKey space key index = .exact ↔
      space.keys[index.toNat]? = some key := by
  rw [compareKey_eq]
  cases space.keys[index.toNat]? with
  | none => simp
  | some k =>
      by_cases hkey : k = key
      · simp [hkey]
      · by_cases hname : k.name = key.name <;> simp [hkey, hname]

theorem compareKey_eq_nameOnly_iff {space : MetaSpace} {key : MetaKey}
    {index : UInt32} :
    compareKey space key index = .nameOnly ↔
      ∃ k, space.keys[index.toNat]? = some k ∧ k ≠ key ∧ k.name = key.name := by
  rw [compareKey_eq]
  cases space.keys[index.toNat]? with
  | none => simp
  | some k =>
      by_cases hkey : k = key
      · simp [hkey]
      · by_cases hname : k.name = key.name <;> simp [hkey, hname]

theorem find_of_found {c : Container} {space : MetaSpace} {key : MetaKey} {place : Nat}
    {head : UInt32}
    (hfound : c.table.find key.name.display (compareKey space key) = .ok (.found place))
    (hhead : c.table.codeOffset? place = some head) :
    c.find space key = .ok (.success, some head) := by
  unfold find
  rw [hfound]
  dsimp only [bind, Except.bind]
  rw [hhead]
  rfl

theorem of_find {c : Container} {space : MetaSpace} {key : MetaKey}
    {status : ReviveStatus} {head : UInt32}
    (h : c.find space key = .ok (status, some head)) :
    ∃ entry ∈ c.table.entries, 0 ≤ entry.codeOffset ∧
      entry.codeOffset.toUInt32 = head ∧
      space.keys[entry.metaIndex.toUInt32.toNat]? = some key := by
  unfold find at h
  cases hfound : c.table.find key.name.display (compareKey space key) with
  | error e =>
      rw [hfound] at h
      cases h
  | ok outcome =>
      rw [hfound] at h
      cases outcome with
      | foundWithName | notFound => cases h
      | found place =>
          rcases LookupTable.of_search hfound with ⟨hmem, hexact⟩
          have hplace := LookupTable.lt_of_mem_chainFrom hmem
          dsimp only [bind, Except.bind] at h
          cases hoffset : c.table.codeOffset? place with
          | none =>
              rw [hoffset] at h
              cases h
          | some first =>
              rw [hoffset] at h
              cases h
              rcases LookupTable.codeOffset?_eq_some_iff.mp hoffset with
                ⟨hcode, hhead⟩
              exact ⟨_, LookupTable.entryAt_mem hplace, hcode, hhead,
                compareKey_eq_exact_iff.mp hexact⟩

end Container

/-!
## Lookups only read keys
-/

namespace Container

theorem compareKey_congr {space space' : MetaSpace}
    (h : space'.keys = space.keys) (key : MetaKey) :
    compareKey space' key = compareKey space key := by
  funext index
  rw [compareKey_eq, compareKey_eq, h]

theorem find_congr (c : Container) {space space' : MetaSpace}
    (h : space'.keys = space.keys) (key : MetaKey) :
    c.find space' key = c.find space key := by
  unfold find
  rw [compareKey_congr h]

end Container

end CodeCache
