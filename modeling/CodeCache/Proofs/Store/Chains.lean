import CodeCache.Proofs.Blob.Parsing
import CodeCache.Proofs.Work
import CodeCache.Store.CodeSpace

/-!
# Chains of versions

The versions of a method are blobs that link to each other. Adding a version puts
a blob behind all others and changes one link.
-/

namespace CodeCache

namespace CodeSpace

variable {space : CodeSpace}

theorem of_mem_versionsFrom {steps : Nat} {offset : UInt32} {b : Blob}
    (h : .ok b ∈ space.versionsFrom steps offset) :
    ∃ fewer first rest, steps = fewer + 1 ∧ space.blob offset = .ok first ∧
      space.versionsFrom steps offset = .ok first :: rest ∧
      (b = first ∨ ∃ next, rest = space.versionsFrom fewer next ∧
        .ok b ∈ space.versionsFrom fewer next) := by
  cases steps with
  | zero =>
      rw [versionsFrom, List.mem_singleton] at h
      cases h
  | succ fewer =>
      rw [versionsFrom] at h ⊢
      cases hparse : space.blob offset with
      | error e =>
          rw [hparse] at h
          rw [List.mem_singleton] at h
          cases h
      | ok first =>
          rw [hparse] at h
          refine ⟨fewer, first, _, rfl, rfl, rfl, ?_⟩
          cases h with
          | head => exact Or.inl rfl
          | tail _ hmem =>
              cases hnext : first.header.next? with
              | none =>
                  rw [hnext] at hmem
                  cases hmem
              | some next =>
                  rw [hnext] at hmem
                  exact Or.inr ⟨next, rfl, hmem⟩

theorem blob_of_mem_versionsFrom {steps : Nat} {offset : UInt32} {b : Blob}
    (h : .ok b ∈ space.versionsFrom steps offset) :
    space.blob b.offset = .ok b := by
  induction steps generalizing offset with
  | zero =>
      rcases of_mem_versionsFrom h with ⟨_, _, _, hsteps, -⟩
      cases hsteps
  | succ steps ih =>
      rcases of_mem_versionsFrom h with ⟨_, first, _, hsteps, hparse, -, rfl | hrest⟩
      · rw [(Blob.liesAt_of_parse hparse).offset_eq]
        exact hparse
      · rcases hrest with ⟨next, -, hmem⟩
        cases hsteps
        exact ih hmem

theorem blob_of_mem_versions {head : UInt32} {b : Blob}
    (h : .ok b ∈ space.versions head) :
    space.blob b.offset = .ok b :=
  blob_of_mem_versionsFrom h

theorem intact_of_mem_versionsFrom {steps : Nat} {offset : UInt32} {b : Blob}
    (h : .ok b ∈ space.versionsFrom steps offset) :
    ∃ front back,
      space.versionsFrom steps offset = List.map .ok front ++ .ok b :: back := by
  induction steps generalizing offset with
  | zero =>
      rcases of_mem_versionsFrom h with ⟨_, _, _, hsteps, -⟩
      cases hsteps
  | succ steps ih =>
      rcases of_mem_versionsFrom h with
        ⟨_, first, rest, hsteps, -, hversions, rfl | ⟨next, rfl, hmem⟩⟩
      · exact ⟨[], rest, hversions⟩
      · cases hsteps
        rcases ih hmem with ⟨front, back, hrest⟩
        rw [hversions, hrest]
        exact ⟨first :: front, back, rfl⟩

theorem intact_of_mem_versions {head : UInt32} {b : Blob}
    (h : .ok b ∈ space.versions head) :
    ∃ front back, space.versions head = List.map .ok front ++ .ok b :: back :=
  intact_of_mem_versionsFrom h

theorem versionsFrom_ne_nil (space : CodeSpace) (steps : Nat) (offset : UInt32) :
    space.versionsFrom steps offset ≠ [] := by
  cases steps with
  | zero =>
      unfold versionsFrom
      exact List.cons_ne_nil _ _
  | succ steps =>
      unfold versionsFrom
      split <;> exact List.cons_ne_nil _ _

theorem chain_eq_ok_iff {head : UInt32} {blobs : List Blob} :
    space.chain head = .ok blobs ↔ space.versions head = blobs.map .ok :=
  mapM_id_eq_ok_iff

theorem blob_of_lastVersion {head tail : UInt32}
    (h : space.lastVersion head = .ok tail) :
    ∃ b, space.blob tail = .ok b := by
  unfold lastVersion at h
  cases hchain : space.chain head with
  | error e =>
      rw [hchain] at h
      cases h
  | ok blobs =>
      rw [hchain] at h
      have hversions := chain_eq_ok_iff.mp hchain
      cases hlast : blobs.getLast? with
      | none =>
          exfalso
          rw [List.getLast?_eq_none_iff] at hlast
          rw [hlast] at hversions
          exact versionsFrom_ne_nil _ _ _ hversions
      | some b =>
          change Except.ok ((blobs.getLast?.map (·.offset)).getD head) = _ at h
          rw [hlast] at h
          cases h
          have hmem : .ok b ∈ space.versions head := by
            rw [hversions]
            exact List.mem_map_of_mem (List.mem_of_getLast? hlast)
          exact ⟨b, blob_of_mem_versions hmem⟩

/-!
## Sizes
-/

theorem size_of_append {blob : Bytes} {space' : CodeSpace} {offset : UInt32}
    (h : space.append blob = .ok (space', offset)) :
    space'.size = alignUp space.size + alignUp blob.length ∧
      space'.size < 2 ^ 31 := by
  unfold append at h
  dsimp only at h
  split at h
  · cases h
  · rename_i hfits
    cases h
    have hsize : (⟨space.bytes.padded ++ blob.padded⟩ : CodeSpace).size =
        alignUp space.size + alignUp blob.length := by
      unfold size
      rw [List.length_append, Bytes.length_padded, Bytes.length_padded]
    rw [hsize]
    exact ⟨rfl, by omega⟩

theorem size_setLink {offset next : UInt32}
    (h : offset.toNat + BlobHeader.byteSize ≤ space.size) :
    (space.setLink offset next).size = space.size := by
  unfold setLink size
  apply Bytes.length_overwrite
  rw [Bytes.length_ofInt32]
  unfold BlobHeader.nextVersionOffset
  unfold BlobHeader.byteSize size at h
  omega

theorem size_of_appendVersion {head : Option UInt32} {blob : Bytes}
    {space' : CodeSpace} {offset : UInt32}
    (h : space.appendVersion head blob = .ok (space', offset)) :
    space'.size = alignUp space.size + alignUp blob.length ∧
      space'.size < 2 ^ 31 := by
  unfold appendVersion at h
  simp only [bind, Except.bind] at h
  split at h
  · cases h
  · rename_i tail? htail
    split at h
    · cases h
    · rename_i appended happend
      rcases appended with ⟨grown, place⟩
      rcases size_of_append happend with ⟨hsize, hlt⟩
      dsimp only at h
      cases tail? with
      | none =>
          cases h
          exact ⟨hsize, hlt⟩
      | some tail =>
          cases h
          cases head with
          | none => cases htail
          | some head =>
              change (space.lastVersion head >>= fun a => pure (some a)) = _
                at htail
              cases hlast : space.lastVersion head with
              | error e =>
                  rw [hlast] at htail
                  cases htail
              | ok last =>
                  rw [hlast] at htail
                  cases htail
                  rcases blob_of_lastVersion hlast with ⟨b, hb⟩
                  have hfits := (Blob.liesAt_of_parse hb).header_fits
                  have hle := le_alignUp space.size
                  rw [size_setLink]
                  · exact ⟨hsize, hlt⟩
                  · rw [hsize]
                    change tail.toNat + BlobHeader.byteSize ≤ space.size at hfits
                    omega

end CodeSpace

end CodeCache
