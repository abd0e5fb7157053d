import CodeCache.Proofs.Merge.Collecting
import CodeCache.Proofs.Merge.Remapping
import Mathlib.Data.FinEnum
import Mathlib.Data.Fintype.Sum

/-!
# Numbers given in two orders

The number of a key depends on what was numbered before. Whether a blob is
counted does not, and what is counted for it is the same under other numbers.
-/

namespace CodeCache

/-!
## Slots
-/

variable {slots slots' : List UInt32} {f : UInt32 → UInt32}

theorem Speculation.remap_follows (hlength : slots'.length = slots.length)
    (r : Speculation) :
    Follows (fun new new' => ∀ f, slots' = slots.map f → new' = new.rename f)
      (r.remap slots) (r.remap slots') := by
  intro new h
  rcases remap_eq_ok_iff.mp h with ⟨hrange, rfl⟩
  have hrange' : ∀ i ∈ r.indices, InRange slots' i := by
    intro i hi
    unfold InRange
    rw [hlength]
    exact hrange i hi
  refine ⟨r.rename (entry slots'), remap_eq_ok_iff.mpr ⟨hrange', rfl⟩, ?_⟩
  intro f hslots
  rw [hslots]
  symm
  apply rename_rename_eq
  intro i hi
  rw [entry_map f (hrange i hi)]

theorem Dependency.remapArg_follows (hlength : slots'.length = slots.length)
    (arg : UInt32) :
    Follows (fun new new' => ∀ f, f 0 = 0 → slots' = slots.map f → new' = f new)
      (remapArg slots arg) (remapArg slots' arg) := by
  intro new h
  unfold remapArg at h ⊢
  split at h
  · rename_i hzero
    cases h
    rw [if_pos hzero]
    exact ⟨0, rfl, fun f hf _ => hf.symm⟩
  · rename_i hzero
    rw [if_neg hzero]
    split at h
    · rename_i hfound
      cases h
      rcases List.getElem?_eq_some_iff.mp hfound with ⟨hlt, heq⟩
      rw [List.getElem?_eq_getElem (hlength ▸ hlt)]
      refine ⟨_, rfl, ?_⟩
      rintro f - rfl
      rw [List.getElem_map, heq]
    · cases h

theorem eq_map_of_forall₂ {α β : Type} {g : α → β} {as : List α} {bs : List β}
    (h : List.Forall₂ (fun a b => b = g a) as bs) :
    bs = as.map g := by
  induction h with
  | nil => rfl
  | cons hab _ ih => rw [List.map_cons, hab, ih]

theorem Dependency.remap_follows (hlength : slots'.length = slots.length)
    (d : Dependency) :
    Follows (fun new new' => ∀ f, f 0 = 0 → slots' = slots.map f →
        new' = new.rename f)
      (d.remap slots) (d.remap slots') := by
  unfold remap
  apply (Follows.of_mapM (remapArg_follows hlength) d.args).of_bind
  intro args args' hall
  apply Follows.of_pure
  intro f hzero hf
  rw [eq_map_of_forall₂ (hall.imp fun _ _ h => h f hzero hf)]
  rfl

namespace Merge

variable {inputs : List Input} {keys₀ keys keys₀' keys' : List MetaKey}
  {space : MetaSpace}

/-!
## Two lists of keys
-/

/-- The function takes the number of a key in the first list to its number in the
second one. -/
structure Renames (f : UInt32 → UInt32) (keys₀ keys : List MetaKey) : Prop where
  injective : Function.Injective f
  zero : f 0 = 0
  empty : f emptySlot = emptySlot
  key : ∀ key i j, KeyAt keys₀ i key → KeyAt keys j key → f i = j

theorem Renames.mono (h : Renames f keys₀' keys') (h₀ : keys₀ <+: keys₀')
    (h₁ : keys <+: keys') :
    Renames f keys₀ keys := by
  constructor
  · exact h.injective
  · exact h.zero
  · exact h.empty
  · intro key i j hi hj
    exact h.key key i j (hi.mono h₀) (hj.mono h₁)

/-- All keys of the first list are in the second one, and both begin with the
same key. -/
structure Aligned (keys₀ keys : List MetaKey) : Prop where
  subset : keys₀ ⊆ keys
  head_eq : keys₀.head? = keys.head?

theorem aligned_nil : Aligned [] [] :=
  ⟨List.Subset.refl _, rfl⟩

theorem head?_append {α : Type} {as : List α} (h : as ≠ []) (bs : List α) :
    (as ++ bs).head? = as.head? := by
  cases as with
  | nil => exact absurd rfl h
  | cons a as => rfl

theorem Aligned.grow (h : Aligned keys₀ keys) (hne : keys ≠ [])
    (hmore : keys <+: keys') :
    Aligned keys₀ keys' := by
  rcases hmore with ⟨rest, rfl⟩
  constructor
  · exact List.Subset.trans h.subset (List.subset_append_left _ _)
  · rw [head?_append hne]
    exact h.head_eq

theorem Aligned.concat (h : Aligned keys₀ keys) (key : MetaKey) :
    Aligned (keys₀ ++ [key]) (keys ++ [key]) := by
  constructor
  · exact List.append_subset.mpr ⟨List.subset_append_of_subset_left _ h.subset,
      List.subset_append_right _ _⟩
  · rw [List.head?_append, List.head?_append, h.head_eq]

def counterpart (keys₀ keys : List MetaKey) (i : UInt32) : UInt32 :=
  match keys₀[i.toNat]? with
  | some key => UInt32.ofNat (keys.idxOf key)
  | none => emptySlot

theorem counterpart_eq {key : MetaKey} {i j : UInt32} (hnodup : keys.Nodup)
    (hi : keys₀[i.toNat]? = some key) (hj : KeyAt keys j key) :
    counterpart keys₀ keys i = j := by
  rcases hj with ⟨n, hn, rfl⟩
  rcases List.getElem?_eq_some_iff.mp hn with ⟨hlt, rfl⟩
  unfold counterpart
  rw [hi]
  dsimp only
  rw [hnodup.idxOf_getElem]

theorem counterpart_emptySlot (hsize : keys₀.length < 2 ^ 31) :
    counterpart keys₀ keys emptySlot = emptySlot := by
  have hlarge : emptySlot.toNat = 2 ^ 32 - 1 := rfl
  unfold counterpart
  rw [List.getElem?_eq_none (by omega)]

theorem Aligned.counterpart_injOn (h : Aligned keys₀ keys) (hnodup₀ : keys₀.Nodup)
    (hsize₀ : keys₀.length < 2 ^ 31) (hsize : keys.length < 2 ^ 31) :
    Set.InjOn (counterpart keys₀ keys)
      {i | i.toNat < keys₀.length ∨ i = emptySlot} := by
  have hempty := @counterpart_emptySlot keys₀ keys hsize₀
  have hnumber : ∀ i : UInt32, i.toNat < keys₀.length →
      ∃ key, keys₀[i.toNat]? = some key ∧ key ∈ keys ∧
        (counterpart keys₀ keys i).toNat = keys.idxOf key := by
    intro i hi
    have hkey := List.getElem?_eq_getElem hi
    have hmem := h.subset (List.getElem_mem hi)
    have hlt := List.idxOf_lt_length_of_mem hmem
    refine ⟨_, hkey, hmem, ?_⟩
    unfold counterpart
    rw [hkey]
    exact UInt32.toNat_ofNat_of_lt' (by change _ < 2 ^ 32; omega)
  have hne : ∀ i : UInt32, i.toNat < keys₀.length →
      counterpart keys₀ keys i ≠ emptySlot := by
    intro i hi heq
    rcases hnumber i hi with ⟨key, -, hmem, hindex⟩
    have hlt := List.idxOf_lt_length_of_mem hmem
    have hlarge : emptySlot.toNat = 2 ^ 32 - 1 := rfl
    rw [heq] at hindex
    omega
  intro i hi j hj hsame
  rcases hi with hi | rfl
  · rcases hj with hj | rfl
    · rcases hnumber i hi with ⟨key, hkey, hmem, hindex⟩
      rcases hnumber j hj with ⟨key', hkey', -, hindex'⟩
      rw [hsame, hindex', eq_comm, List.idxOf_inj hmem] at hindex
      rw [← hindex, ← hkey, List.getElem?_inj hj hnodup₀] at hkey'
      exact UInt32.toNat_inj.mp hkey'.symm
    · exact absurd (hsame.trans hempty) (hne i hi)
  · rcases hj with hj | rfl
    · exact absurd (hsame.symm.trans hempty) (hne j hj)
    · rfl

theorem Aligned.exists_renames (h : Aligned keys₀ keys) (hnodup₀ : keys₀.Nodup)
    (hnodup : keys.Nodup) (hsize : keys.length < 2 ^ 31) :
    ∃ f, Renames f keys₀ keys := by
  have hle := (List.subperm_of_subset hnodup₀ h.subset).length_le
  have hsize₀ : keys₀.length < 2 ^ 31 := Nat.lt_of_le_of_lt hle hsize
  cases keys₀ with
  | nil =>
      refine ⟨id, Function.injective_id, rfl, rfl, ?_⟩
      rintro key i j ⟨n, hn, -⟩
      cases hn
  | cons first rest =>
      have hinj := h.counterpart_injOn hnodup₀ hsize₀ hsize
      have hmaps := Set.mapsTo_univ (counterpart (first :: rest) keys)
        {i | i.toNat < (first :: rest).length ∨ i = emptySlot}
      rw [← Finset.coe_univ] at hmaps
      rcases hmaps.exists_equiv_extend_of_card_eq Finset.card_univ.symm hinj
        with ⟨g, hg⟩
      have hat : ∀ key i j, KeyAt (first :: rest) i key → KeyAt keys j key →
          (g i : UInt32) = j := by
        intro key i j hi hj
        have hkey := hi.getElem?_eq (by omega)
        have hlt := (List.getElem?_eq_some_iff.mp hkey).1
        rw [hg i (Or.inl hlt)]
        exact counterpart_eq hnodup hkey hj
      refine ⟨fun i => g i, ?_, ?_, ?_, hat⟩
      · intro i j hsame
        exact g.injective (Subtype.ext hsame)
      · apply hat first 0 0 ⟨0, rfl, rfl⟩
        refine ⟨0, ?_, rfl⟩
        rw [← List.head?_eq_getElem?, ← h.head_eq]
        rfl
      · rw [hg emptySlot (Or.inr rfl)]
        exact counterpart_emptySlot hsize₀

theorem mem_of_keyAt {index : UInt32} {key : MetaKey} (h : KeyAt keys index key) :
    key ∈ keys := by
  rcases h with ⟨n, hn, -⟩
  exact List.mem_of_getElem? hn

theorem number_twice (key : MetaKey) (keys₀ keys : List MetaKey) :
    ∃ i keys₀' j keys', number key keys₀ = .ok i keys₀' ∧
      number key keys = .ok j keys' ∧
      KeyAt keys₀' i key ∧ KeyAt keys' j key ∧
      keys₀ <+: keys₀' ∧ keys <+: keys' ∧
      (Aligned keys₀ keys → Aligned keys₀' keys') := by
  rcases number_eq key keys₀ with ⟨i, keys₀', hrun₀, hat₀, hcases₀⟩
  rcases number_eq key keys with ⟨j, keys', hrun, hat, hcases⟩
  have hmore₀ : keys₀ <+: keys₀' := by
    rcases hcases₀ with rfl | ⟨-, rfl⟩
    · exact List.prefix_refl _
    · exact List.prefix_append _ _
  have hmore : keys <+: keys' := by
    rcases hcases with rfl | ⟨-, rfl⟩
    · exact List.prefix_refl _
    · exact List.prefix_append _ _
  refine ⟨i, keys₀', j, keys', hrun₀, hrun, hat₀, hat, hmore₀, hmore, ?_⟩
  intro haligned
  rcases hcases₀ with rfl | ⟨hnew₀, rfl⟩
  · have hknown : key ∈ keys := haligned.subset (mem_of_keyAt hat₀)
    rcases hcases with rfl | ⟨hnew, -⟩
    · exact haligned
    · exact absurd hknown hnew
  · rcases hcases with rfl | ⟨-, rfl⟩
    · have hknown := mem_of_keyAt hat
      have hne : keys₀ ≠ [] := by
        rintro rfl
        have hhead := haligned.head_eq.symm
        rw [List.head?_nil, List.head?_eq_none_iff] at hhead
        rw [hhead] at hknown
        cases hknown
      constructor
      · exact List.append_subset.mpr ⟨haligned.subset,
          List.cons_subset.mpr ⟨hknown, List.nil_subset _⟩⟩
      · rw [head?_append hne]
        exact haligned.head_eq
    · exact haligned.concat key

/-!
## One blob
-/

theorem slotNumber_twice {m m' : UInt32} {r : TagRecord} {i : UInt32}
    (h : slotNumber space m r keys₀ = .ok i keys₀') (keys : List MetaKey) :
    ∃ j keys', slotNumber space m' r keys = .ok j keys' ∧
      keys₀ <+: keys₀' ∧ keys <+: keys' ∧
      (Aligned keys₀ keys → Aligned keys₀' keys') ∧
      ∀ f, Renames f keys₀' keys' → f m = m' → j = f i := by
  have hkey : ∀ index, (do number (← ofExcept (space.key index)) :
        Numbering UInt32) keys₀ = .ok i keys₀' →
      ∃ j keys', (do number (← ofExcept (space.key index)) :
          Numbering UInt32) keys = .ok j keys' ∧
        keys₀ <+: keys₀' ∧ keys <+: keys' ∧
        (Aligned keys₀ keys → Aligned keys₀' keys') ∧
        ∀ f, Renames f keys₀' keys' → f m = m' → j = f i := by
    intro index hrun
    rcases of_bind_run hrun with ⟨key, middle, hexcept, hnumber⟩
    rcases of_ofExcept_run hexcept with ⟨hkey, rfl⟩
    rcases number_twice key middle keys with
      ⟨i', keys₀'', j, keys', hrun₀, hrun', hat₀, hat, hmore₀, hmore, haligned⟩
    rw [hrun₀] at hnumber
    cases hnumber
    refine ⟨j, keys', ?_, hmore₀, hmore, haligned, ?_⟩
    · rw [hkey]
      exact hrun'
    · intro f hf _
      exact (hf.key key _ _ hat₀ hat).symm
  cases r with
  | selfMethod =>
      cases h
      exact ⟨m', keys, rfl, List.prefix_refl _, List.prefix_refl _, id,
        fun f _ hm => hm.symm⟩
  | nonOop =>
      cases h
      exact ⟨emptySlot, keys, rfl, List.prefix_refl _, List.prefix_refl _, id,
        fun f hf _ => hf.empty.symm⟩
  | klass _ index _ => exact hkey index h
  | method _ index => exact hkey index h
  | _ => cases h

theorem slotNumbers_twice {m m' : UInt32} {records : List TagRecord}
    {slots : List UInt32}
    (h : records.mapM (slotNumber space m) keys₀ = .ok slots keys₀')
    (keys : List MetaKey) :
    ∃ slots' keys', records.mapM (slotNumber space m') keys = .ok slots' keys' ∧
      slots'.length = slots.length ∧ keys₀ <+: keys₀' ∧ keys <+: keys' ∧
      (Aligned keys₀ keys → Aligned keys₀' keys') ∧
      ∀ f, Renames f keys₀' keys' → f m = m' → slots' = slots.map f := by
  induction records generalizing keys₀ keys slots with
  | nil =>
      cases h
      exact ⟨[], keys, rfl, rfl, List.prefix_refl _, List.prefix_refl _, id,
        fun _ _ _ => rfl⟩
  | cons r records ih =>
      rw [List.mapM_cons] at h
      rcases of_bind_run h with ⟨i, middle₀, hfirst, h⟩
      rcases of_bind_run h with ⟨rest, last, hrest, hdone⟩
      cases hdone
      rcases @slotNumber_twice _ _ _ m m' r i hfirst keys with
        ⟨j, middle, hrun, hmore₀, hmore, haligned, hnumber⟩
      rcases ih hrest middle with
        ⟨rest', last', hruns, hlength, hmores₀, hmores, haligneds, hnumbers⟩
      refine ⟨j :: rest', last', ?_, congrArg (· + 1) hlength,
        hmore₀.trans hmores₀, hmore.trans hmores, haligneds ∘ haligned, ?_⟩
      · rw [List.mapM_cons, run_bind hrun, run_bind hruns]
        rfl
      · intro f hf hm
        rw [hnumber f (hf.mono hmores₀ hmores) hm, hnumbers f hf hm]
        rfl

structure Readable (space : MetaSpace) (b : Blob) (records : List TagRecord)
    (rs : List Speculation) (ds : List Dependency) : Prop where
  metas : TagStream.checkIndices space.size b.tagMeta = .ok ()
  oops : TagStream.checkIndices space.size b.tagOop = .ok ()
  sites : TagStream.checkIndices space.size b.tagReloc = .ok ()
  records_eq : TagStream.decode b.tagMeta = .ok records
  speculations_eq : b.speculations = .ok rs
  dependencies_eq : b.dependencies = .ok ds

theorem of_normalize {m : UInt32} {b : Blob}
    {answer : List Speculation × List Dependency}
    (h : normalize space m b keys = .ok answer keys') :
    ∃ records rs ds slots, Readable space b records rs ds ∧
      records.mapM (slotNumber space m) keys = .ok slots keys' ∧
      rs.mapM (·.remap slots) = .ok answer.1 ∧
      ds.mapM (·.remap slots) = .ok answer.2 := by
  unfold normalize at h
  rcases of_bind_run h with ⟨_, s₁, hrun₁, h₁⟩
  rcases of_ofExcept_run hrun₁ with ⟨hmetas, rfl⟩
  rcases of_bind_run h₁ with ⟨_, s₂, hrun₂, h₂⟩
  rcases of_ofExcept_run hrun₂ with ⟨hoops, rfl⟩
  rcases of_bind_run h₂ with ⟨_, s₃, hrun₃, h₃⟩
  rcases of_ofExcept_run hrun₃ with ⟨hsites, rfl⟩
  rcases of_bind_run h₃ with ⟨records, s₄, hrun₄, h₄⟩
  rcases of_ofExcept_run hrun₄ with ⟨hrecords, rfl⟩
  rcases of_bind_run h₄ with ⟨slots, s₅, hslots, h₅⟩
  rcases of_bind_run h₅ with ⟨speculations, s₆, hrun₆, h₆⟩
  rcases of_ofExcept_run hrun₆ with ⟨hspeculations, rfl⟩
  rcases of_bind_run h₆ with ⟨dependencies, s₇, hrun₇, hdone⟩
  rcases of_ofExcept_run hrun₇ with ⟨hdependencies, rfl⟩
  rcases of_bind_eq_ok hspeculations with ⟨rs, hrs, hspeculations⟩
  rcases of_bind_eq_ok hdependencies with ⟨ds, hds, hdependencies⟩
  cases hdone
  exact ⟨records, rs, ds, slots, ⟨hmetas, hoops, hsites, hrecords, hrs, hds⟩,
    hslots, hspeculations, hdependencies⟩

theorem normalize_eq {m : UInt32} {b : Blob} {records : List TagRecord}
    {rs : List Speculation} {ds : List Dependency} {slots : List UInt32}
    {speculations : List Speculation} {dependencies : List Dependency}
    (hreadable : Readable space b records rs ds)
    (hslots : records.mapM (slotNumber space m) keys = .ok slots keys')
    (hspeculations : rs.mapM (·.remap slots) = .ok speculations)
    (hdependencies : ds.mapM (·.remap slots) = .ok dependencies) :
    normalize space m b keys = .ok (speculations, dependencies) keys' := by
  unfold normalize
  rw [hreadable.metas, hreadable.oops, hreadable.sites, hreadable.records_eq,
    hreadable.speculations_eq, hreadable.dependencies_eq]
  change (records.mapM (slotNumber space m) >>= _) keys = _
  rw [run_bind hslots]
  change (ofExcept (rs.mapM (·.remap slots)) >>= fun speculations =>
    ofExcept (ds.mapM (·.remap slots)) >>= fun dependencies =>
      pure (speculations, dependencies) : Numbering _) keys' = _
  rw [hspeculations, hdependencies]
  rfl

/-- A blob that is counted under some numbers is counted under all others, and
what is counted for it differs by the numbers only. -/
theorem normalize_twice {m m' : UInt32} {b : Blob}
    {answer : List Speculation × List Dependency}
    (h : normalize space m b keys₀ = .ok answer keys₀') (keys : List MetaKey) :
    ∃ answer' keys', normalize space m' b keys = .ok answer' keys' ∧
      keys₀ <+: keys₀' ∧ keys <+: keys' ∧
      (Aligned keys₀ keys → Aligned keys₀' keys') ∧
      ∀ f, Renames f keys₀' keys' → f m = m' →
        answer' = (answer.1.map (·.rename f), answer.2.map (·.rename f)) := by
  rcases of_normalize h with
    ⟨records, rs, ds, slots, hreadable, hslots, hspeculations, hdependencies⟩
  rcases @slotNumbers_twice _ _ _ m m' records slots hslots keys with
    ⟨slots', keys', hrun, hlength, hmore₀, hmore, haligned, hslots'⟩
  rcases Follows.of_mapM (Speculation.remap_follows hlength) rs _ hspeculations with
    ⟨speculations', hspeculations', hall⟩
  rcases Follows.of_mapM (Dependency.remap_follows hlength) ds _ hdependencies with
    ⟨dependencies', hdependencies', hall'⟩
  refine ⟨(speculations', dependencies'), keys',
    normalize_eq hreadable hrun hspeculations' hdependencies', hmore₀, hmore,
    haligned, ?_⟩
  intro f hf hm
  have hmap := hslots' f hf hm
  exact Prod.ext
    (eq_map_of_forall₂ (hall.imp fun _ _ h => h f hmap))
    (eq_map_of_forall₂ (hall'.imp fun _ _ h => h f hf.zero hmap))

theorem Accepted.countable {b : Blob} (h : Accepted space b) :
    Countable space b := by
  rcases h with ⟨m, keys₀, answer, keys₀', hrun⟩
  intro m' keys
  rcases @normalize_twice _ _ _ m m' b answer hrun keys with
    ⟨answer', keys', hrun', -⟩
  exact ⟨answer', keys', hrun'⟩

end Merge

end CodeCache
