import CodeCache.Proofs.Merge.Collecting
import CodeCache.Proofs.Merge.Filling
import CodeCache.Proofs.Merge.Reindexing
import CodeCache.Proofs.Store.Rows

/-!
# Copies of methods

The container that a merge fills holds one row for each kept method: the copies
of the selected blobs, in their order. The keys of the copies are told by those
of the merged metaspace as it is in the end.
-/

namespace CodeCache

namespace Merge

structure Stands (inputs : List Input) (place : BlobPlace) (c : Emit.Content)
    (space : MetaSpace) : Prop where
  found : ∃ next offset, blobAt inputs place = .ok (c.blob next offset, space)
  sound : c.Sound
  size_lt : c.size < 2 ^ 32

theorem Stands.hasKey {inputs : List Input} {place : BlobPlace}
    {c : Emit.Content} {space : MetaSpace} (h : Stands inputs place c space) :
    ∀ key ∈ space.keys, HasKey inputs key := by
  rcases h.found with ⟨next, offset, hat⟩
  rcases of_blobAt hat with ⟨input, code, hinput, rfl, -⟩
  exact fun key hkey => ⟨input, hinput, hkey⟩

/-- A copy of the blob at a place, for the final keys and with the index of its
method. -/
structure CopyOf (inputs : List Input) (final : List MetaKey) (index : UInt32)
    (place : BlobPlace) (image : Blob.Image) : Prop where
  made : ∃ c space copy, Stands inputs place c space ∧
    c.Matches space.keys final copy ∧ copy.Sound ∧ copy.size < 2 ^ 32 ∧
    copy.index = index ∧ image = copy.image

structure RowOf (inputs : List Input) (final : List MetaKey) (k : Kept)
    (r : Row) : Prop where
  name_eq : r.name = k.key.name.display
  key_at : final[r.index.toNat]? = some k.key
  copies : List.Forall₂ (CopyOf inputs final r.index) k.places r.images

variable {inputs : List Input} {c c' : Container} {merged merged' : MetaSpace}
  {final : List MetaKey}

/-!
## One method
-/

/-- What copying the first of some blobs does. That it is a copy is only told
once the final keys are known. -/
theorem copyVersions_cases {index : UInt32} {name : String} {place : BlobPlace}
    {places : List BlobPlace}
    (hplaces : ∀ p ∈ place :: places, ∃ content space,
      Stands inputs p content space)
    (hmerged : merged.KeyedBy (HasKey inputs))
    (h : copyVersions inputs index name (c, merged) (place :: places) =
      .ok (c', merged')) :
    ∃ image grown added offset, image.Sound ∧ grown.KeyedBy (HasKey inputs) ∧
      merged.keys <+: grown.keys ∧
      c.addVersion index name (image.bytes (-1)) = .ok (added, offset) ∧
      copyVersions inputs index name (added, grown) places =
        .ok (c', merged') ∧
      ∀ final, grown.keys <+: final → final.length ≤ 2 ^ 32 →
        CopyOf inputs final index place image := by
  rcases of_copyVersions_cons h with
    ⟨b, space', bytes, grown, added, offset, hat, hcopy, hadd, htail⟩
  rcases hplaces place List.mem_cons_self with ⟨content, space, hstands⟩
  rcases hstands.found with ⟨next, _, hfound⟩
  rw [hfound] at hat
  cases hat
  rcases of_copyBlob hstands.sound hstands.size_lt hstands.hasKey hmerged hcopy with
    ⟨hkeyed, hkeys, copy, hsound, hindex, rfl, hmatches⟩
  have hsize := Container.size_lt_of_addVersion hadd
  rw [← copy.bytes_image] at hadd
  refine ⟨copy.image, grown, added, offset, Emit.Content.sound_image hsize, hkeyed,
    hkeys, hadd, htail, ?_⟩
  intro final hfinal hlength
  exact ⟨content, space', copy, hstands, hmatches final hfinal hlength, hsound,
    hsize, hindex, rfl⟩

theorem copyVersions_keys {index : UInt32} {name : String}
    {places : List BlobPlace}
    (hplaces : ∀ p ∈ places, ∃ content space, Stands inputs p content space)
    (hmerged : merged.KeyedBy (HasKey inputs))
    (h : copyVersions inputs index name (c, merged) places =
      .ok (c', merged')) :
    merged'.KeyedBy (HasKey inputs) ∧ merged.keys <+: merged'.keys := by
  induction places generalizing c merged with
  | nil =>
      cases h
      exact ⟨hmerged, List.prefix_refl _⟩
  | cons place places ih =>
      rcases copyVersions_cases hplaces hmerged h with
        ⟨image, grown, added, offset, _, hkeyed, hkeys, _, htail, _⟩
      rcases ih (fun p hp => hplaces p (List.mem_cons_of_mem _ hp)) hkeyed
        htail with ⟨hkeyed', hkeys'⟩
      exact ⟨hkeyed', hkeys.trans hkeys'⟩

theorem copyVersions_again {rows : List Row} {index : UInt32} {name : String}
    {images : List Blob.Image} {places : List BlobPlace}
    (hplaces : ∀ p ∈ places, ∃ content space, Stands inputs p content space)
    (hmerged : merged.KeyedBy (HasKey inputs))
    (harranged : c.Arranged (rows ++ [⟨index, name, images⟩]))
    (h : copyVersions inputs index name (c, merged) places =
      .ok (c', merged'))
    (hfinal : merged'.keys <+: final) (hsize : final.length ≤ 2 ^ 32) :
    c'.table.bucketCount = c.table.bucketCount ∧
      ∃ more, c'.Arranged (rows ++ [⟨index, name, images ++ more⟩]) ∧
        List.Forall₂ (CopyOf inputs final index) places more := by
  induction places generalizing c merged images with
  | nil =>
      cases h
      refine ⟨rfl, [], ?_, .nil⟩
      rw [List.append_nil]
      exact harranged
  | cons place places ih =>
      rcases copyVersions_cases hplaces hmerged h with
        ⟨image, grown, added, offset, hsound, hkeyed, _, hadd, htail, hcopy⟩
      have hrest := fun p hp => hplaces p (List.mem_cons_of_mem place hp)
      rcases harranged.addAgain hsound hadd with ⟨hadded, hbuckets⟩
      rcases ih hrest hkeyed hadded htail with ⟨hbuckets', more, hmore, hall⟩
      have hgrown := (copyVersions_keys hrest hkeyed htail).2
      refine ⟨hbuckets'.trans hbuckets, image :: more, ?_,
        .cons (hcopy _ (hgrown.trans hfinal) hsize) hall⟩
      rw [List.append_assoc, List.singleton_append] at hmore
      exact hmore

theorem copyVersions_row {rows : List Row} {index : UInt32} {name : String}
    {places : List BlobPlace}
    (hplaces : ∀ p ∈ places, ∃ content space, Stands inputs p content space)
    (hne : places ≠ []) (hmerged : merged.KeyedBy (HasKey inputs)) (harranged : c.Arranged rows)
    (hindex : index.toNat < 2 ^ 31) (hnew : ∀ r ∈ rows, r.index ≠ index)
    (hroom : LookupTable.headerSize +
      (c.table.bucketCount + rows.length + 1) * TableEntry.byteSize < 2 ^ 31)
    (h : copyVersions inputs index name (c, merged) places =
      .ok (c', merged'))
    (hfinal : merged'.keys <+: final) (hsize : final.length ≤ 2 ^ 32) :
    c'.table.bucketCount = c.table.bucketCount ∧
      ∃ images, c'.Arranged (rows ++ [⟨index, name, images⟩]) ∧
        List.Forall₂ (CopyOf inputs final index) places images := by
  cases places with
  | nil => exact absurd rfl hne
  | cons place places =>
      rcases copyVersions_cases hplaces hmerged h with
        ⟨image, grown, added, offset, hsound, hkeyed, _, hadd, htail, hcopy⟩
      have hrest := fun p hp => hplaces p (List.mem_cons_of_mem place hp)
      rcases harranged.addFirst hindex hnew hroom hsound hadd with
        ⟨hadded, hbuckets⟩
      rcases copyVersions_again hrest hkeyed hadded htail hfinal hsize with
        ⟨hbuckets', more, hmore, hall⟩
      have hgrown := (copyVersions_keys hrest hkeyed htail).2
      exact ⟨hbuckets'.trans hbuckets, image :: more, hmore,
        .cons (hcopy _ (hgrown.trans hfinal) hsize) hall⟩

/-!
## All methods of a group
-/

structure Copyable (inputs : List Input) (k : Kept) : Prop where
  hasKey : HasKey inputs k.key
  places_ne_nil : k.places ≠ []
  stands : ∀ p ∈ k.places, ∃ content space, Stands inputs p content space

theorem copyMethods_keys {ks : List Kept} (hks : ∀ k ∈ ks, Copyable inputs k)
    (hmerged : merged.KeyedBy (HasKey inputs))
    (h : copyMethods inputs (c, merged) ks = .ok (c', merged')) :
    merged'.KeyedBy (HasKey inputs) ∧ merged.keys <+: merged'.keys := by
  induction ks generalizing c merged with
  | nil =>
      cases h
      exact ⟨hmerged, List.prefix_refl _⟩
  | cons k ks ih =>
      have hk := hks k List.mem_cons_self
      unfold copyMethods at h
      rcases of_bind_eq_ok h with ⟨⟨copied, grown⟩, hcopy, hrest⟩
      rcases copyVersions_keys hk.stands (hmerged.internKey hk.hasKey) hcopy with
        ⟨hkeyed, hkeys⟩
      rcases ih (fun k hk => hks k (List.mem_cons_of_mem _ hk)) hkeyed hrest with
        ⟨hkeyed', hkeys'⟩
      exact ⟨hkeyed', (MetaSpace.keys_prefix_internKey _ _).trans
        (hkeys.trans hkeys')⟩

theorem copyMethods_rows {done ks : List Kept} {rows : List Row}
    (hks : ∀ k ∈ ks, Copyable inputs k)
    (hdistinct : ((done ++ ks).map (·.key)).Nodup) (hmerged : merged.KeyedBy (HasKey inputs))
    (harranged : c.Arranged rows)
    (hdone : List.Forall₂ (RowOf inputs final) done rows)
    (hroom : LookupTable.headerSize +
      (c.table.bucketCount + (done ++ ks).length) * TableEntry.byteSize <
        2 ^ 31)
    (h : copyMethods inputs (c, merged) ks = .ok (c', merged'))
    (hfinal : merged'.keys <+: final) (hsize : final.length < 2 ^ 31) :
    ∃ rows', c'.Arranged rows' ∧
      List.Forall₂ (RowOf inputs final) (done ++ ks) rows' := by
  induction ks generalizing c merged done rows with
  | nil =>
      cases h
      rw [List.append_nil]
      exact ⟨rows, harranged, hdone⟩
  | cons k ks ih =>
      have hk := hks k List.mem_cons_self
      have hrestCopyable := fun k' hk' => hks k' (List.mem_cons_of_mem k hk')
      unfold copyMethods at h
      rcases of_bind_eq_ok h with ⟨⟨copied, grown⟩, hcopy, hrest⟩
      have hinterned := hmerged.internKey hk.hasKey
      rcases copyVersions_keys hk.stands hinterned hcopy with ⟨hkeyed, hkeys⟩
      have hkeys' := (copyMethods_keys hrestCopyable hkeyed hrest).2
      have hat : final[(merged.internKey k.key).2.toNat]? = some k.key :=
        ((MetaSpace.keyAt_internKey merged k.key).mono
          (hkeys.trans (hkeys'.trans hfinal))).getElem?_eq (by omega)
      have hindex : (merged.internKey k.key).2.toNat < 2 ^ 31 :=
        Nat.lt_trans (List.getElem?_eq_some_iff.mp hat).1 hsize
      have hnew : ∀ r ∈ rows, r.index ≠ (merged.internKey k.key).2 := by
        intro r hr heq
        rcases exists_of_mem_right hdone hr with ⟨d, hd, hrow⟩
        have hsame := hrow.key_at
        rw [heq, hat, Option.some_inj] at hsame
        rw [List.map_append, List.nodup_append] at hdistinct
        exact hdistinct.2.2 _ (List.mem_map_of_mem hd) _ (by
          rw [List.map_cons]
          exact List.mem_cons_self) hsame.symm
      have hrows : rows.length = done.length := hdone.length_eq.symm
      have hfits : LookupTable.headerSize +
          (c.table.bucketCount + rows.length + 1) * TableEntry.byteSize <
            2 ^ 31 := by
        refine Nat.lt_of_le_of_lt (Nat.add_le_add_left
          (Nat.mul_le_mul_right _ ?_) _) hroom
        rw [hrows, List.length_append, List.length_cons]
        omega
      rcases copyVersions_row hk.stands hk.places_ne_nil hinterned harranged
        hindex hnew hfits hcopy (hkeys'.trans hfinal) (Nat.le_of_lt (by omega))
        with ⟨hbuckets, images, hadded, hall⟩
      have hdone' : List.Forall₂ (RowOf inputs final) (done ++ [k])
          (rows ++ [⟨(merged.internKey k.key).2, k.key.name.display,
            images⟩]) :=
        List.rel_append hdone (.cons ⟨rfl, hat, hall⟩ .nil)
      have hsplit : done ++ k :: ks = done ++ [k] ++ ks := by
        rw [List.append_assoc, List.singleton_append]
      rw [hsplit] at hdistinct hroom ⊢
      rw [← hbuckets] at hroom
      exact ih hrestCopyable hdistinct hkeyed hadded hdone' hroom hrest

/-!
## All groups
-/

structure Filled (inputs : List Input) (final : List MetaKey)
    (g : Group × List Kept) (container : Container) : Prop where
  fingerprint_eq : container.fingerprint = g.1.fingerprint
  rows : ∃ rows, container.Arranged rows ∧
    List.Forall₂ (RowOf inputs final) g.2 rows

structure AllCopyable (inputs : List Input) (ks : List Kept) : Prop where
  copyable : ∀ k ∈ ks, Copyable inputs k
  distinct : (ks.map (·.key)).Nodup

theorem copyGroup_filled {g : Group} {ks : List Kept}
    (hks : AllCopyable inputs ks) (hmerged : merged.KeyedBy (HasKey inputs))
    (h : copyMethods inputs (.sized g.fingerprint ks.length, merged) ks =
      .ok (c', merged')) (hfinal : merged'.keys <+: final)
    (hsize : final.length < 2 ^ 31) :
    Filled inputs final (g, ks) c' := by
  have hstocked := copyMethods_stocked
    (fun k hk => (hks.copyable k hk).places_ne_nil)
    (.of_sized _ g.fingerprint ks.length) h
  have hcount := hstocked.count_lt
  rw [Nat.zero_add] at hcount
  have hbuckets : max ks.length LookupTable.minBuckets ≤
      ks.length + LookupTable.minBuckets :=
    Nat.max_le.mpr ⟨Nat.le_add_right _ _, Nat.le_add_left _ _⟩
  unfold BlobHeader.byteSize at hcount
  unfold LookupTable.minBuckets at hbuckets
  have hroom : LookupTable.headerSize +
      (max ks.length LookupTable.minBuckets + ks.length) *
        TableEntry.byteSize < 2 ^ 31 := by
    unfold LookupTable.headerSize LookupTable.minBuckets TableEntry.byteSize
    omega
  have hsized : LookupTable.headerSize +
      max ks.length LookupTable.minBuckets * TableEntry.byteSize < 2 ^ 31 :=
    Nat.lt_of_le_of_lt (Nat.add_le_add_left
      (Nat.mul_le_mul_right _ (Nat.le_add_right _ _)) _) hroom
  rcases @copyMethods_rows inputs _ _ _ _ final [] ks [] hks.copyable
    hks.distinct hmerged (.of_sized g.fingerprint hsized) .nil hroom h hfinal
    hsize with ⟨rows, harranged, hall⟩
  exact ⟨hstocked.fingerprint_eq, rows, harranged, hall⟩

theorem copyGroups_filled {gs : List (Group × List Kept)}
    (hgs : ∀ g ∈ gs, AllCopyable inputs g.2) (hmerged : merged.KeyedBy (HasKey inputs))
    {containers : List Container}
    (h : copyGroups inputs merged gs = .ok (containers, merged')) :
    merged'.KeyedBy (HasKey inputs) ∧ merged.keys <+: merged'.keys ∧
      ∀ final, merged'.keys <+: final → final.length < 2 ^ 31 →
        List.Forall₂ (Filled inputs final) gs containers := by
  induction gs generalizing merged containers with
  | nil =>
      cases h
      exact ⟨hmerged, List.prefix_refl _, fun _ _ _ => .nil⟩
  | cons g gs ih =>
      rcases g with ⟨g, ks⟩
      unfold copyGroups at h
      rcases of_bind_eq_ok h with ⟨⟨container, grown⟩, hcopy, h₁⟩
      rcases of_bind_eq_ok h₁ with ⟨⟨rest, last⟩, hrest, hdone⟩
      cases hdone
      have hks := hgs _ List.mem_cons_self
      rcases copyMethods_keys hks.copyable hmerged hcopy with ⟨hkeyed, hkeys⟩
      rcases ih (fun g hg => hgs g (List.mem_cons_of_mem _ hg)) hkeyed hrest with
        ⟨hkeyed', hkeys', hall⟩
      refine ⟨hkeyed', hkeys.trans hkeys', ?_⟩
      intro final hfinal hsize
      exact .cons
        (copyGroup_filled hks hmerged hcopy (hkeys'.trans hfinal) hsize)
        (hall final hfinal hsize)

end Merge

end CodeCache
