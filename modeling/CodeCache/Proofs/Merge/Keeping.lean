import CodeCache.Proofs.Merge.Collecting
import CodeCache.Proofs.Metadata.Loading
import CodeCache.Proofs.Store.Fingerprints
import Mathlib.Data.List.Induction

/-!
# What a merge keeps

A group is made of containers with one fingerprint. Of every method that was
collected in it something is kept, under the key of the method.
-/

namespace CodeCache

namespace Merge

variable {inputs : List Input} {o : Options}

/-!
## Methods
-/

/-- The keys of all inputs together can be numbered. -/
def Numberable (inputs : List Input) : Prop :=
  (inputs.map fun i => i.file.space.size).sum < 2 ^ 31

theorem Numberable.length_lt (h : Numberable inputs) {base keys : List MetaKey}
    (hkeys : Numbered inputs base keys) :
    keys.length < 2 ^ 31 :=
  Nat.lt_of_le_of_lt hkeys.length_le h

theorem Numberable.keys_lt (h : Numberable inputs) {space : MetaSpace}
    (hspace : space.KeyedBy (HasKey inputs)) :
    space.keys.length < 2 ^ 31 :=
  h.length_lt ⟨List.nil_prefix, hspace.distinct, hspace.all⟩

section

variable {g : Group} {k : Kept}

theorem of_mem_keep (h : k ∈ keep o inputs g) :
    ∃ m ∈ (collect inputs g).methods,
      (collect inputs g).keys[m.method.toNat]? = some k.key ∧
        k.versions = m.selectBest o.mergePolicy (max o.maxVersions 1) := by
  unfold keep at h
  rw [List.mem_filterMap] at h
  rcases h with ⟨m, hm, hkey⟩
  rw [Option.map_eq_some_iff] at hkey
  rcases hkey with ⟨key, hkey, rfl⟩
  exact ⟨m, hm, hkey, rfl⟩

theorem hasKey_of_mem_keep (h : k ∈ keep o inputs g) :
    HasKey inputs k.key := by
  rcases of_mem_keep h with ⟨m, -, hkey, -⟩
  exact (collect_proper inputs g).numbered.hasKey _ (List.mem_of_getElem? hkey)

theorem nodup_keep (o : Options) (inputs : List Input) (g : Group) :
    ((keep o inputs g).map (·.key)).Nodup := by
  have hproper := collect_proper inputs g
  unfold keep
  refine List.pairwise_map.mpr (List.pairwise_filterMap.mpr ?_)
  refine (List.pairwise_map.mp hproper.methods_nodup).imp ?_
  intro m m' hne k hk k' hk' hsame
  rw [Option.map_eq_some_iff] at hk hk'
  rcases hk with ⟨key, hkey, rfl⟩
  rcases hk' with ⟨key', hkey', rfl⟩
  change key = key' at hsame
  subst hsame
  have hplace := (List.getElem?_inj
    (List.getElem?_eq_some_iff.mp hkey).1 hproper.numbered.nodup).mp
    (hkey.trans hkey'.symm)
  exact hne (UInt32.toNat_inj.mp hplace)

theorem proper_of_mem_keep (h : k ∈ keep o inputs g) :
    ∃ number : UInt32, (collect inputs g).keys[number.toNat]? = some k.key ∧
      MethodVersions.Proper (fun place => ∃ key,
          KeyAt (collect inputs g).keys number key ∧ Tallied inputs g key place)
        k.versions.versions ∧
      k.versions.versions.Pairwise MethodVersions.Before := by
  rcases of_mem_keep h with ⟨m, hm, hkey, hversions⟩
  have hproper := collect_tallied inputs g
  have hcounted := (hproper.counted m hm).proper (hproper.versions_ne_nil m hm)
  refine ⟨m.method, hkey, ?_⟩
  rw [hversions]
  exact hcounted.selectBest o.mergePolicy
    (Nat.lt_of_lt_of_le Nat.one_pos (Nat.le_max_right o.maxVersions 1))

theorem places_ne_nil_of_mem_keep (h : k ∈ keep o inputs g) :
    k.places ≠ [] := by
  rcases proper_of_mem_keep h with ⟨_, -, hproper, -⟩
  exact fun hnil => hproper.ne_nil (List.map_eq_nil_iff.mp hnil)

/-- Unless numbers are used twice, every version that is kept stands for a blob
of the method, which was counted. -/
theorem tallied_of_mem_keep (hsize : Numberable inputs)
    (h : k ∈ keep o inputs g) :
    ∀ place ∈ k.places, Tallied inputs g k.key place := by
  rcases proper_of_mem_keep h with ⟨number, hkey, hproper, -⟩
  have hlt := hsize.length_lt (collect_proper inputs g).numbered
  intro place hplace
  rcases List.mem_map.mp hplace with ⟨v, hv, rfl⟩
  rcases hproper.places v hv with ⟨key, hat, htallied⟩
  have hsame := hat.getElem?_eq (by omega)
  rw [hkey] at hsame
  cases hsame
  exact htallied

theorem visited_of_mem_keep (hsize : Numberable inputs)
    (h : k ∈ keep o inputs g) :
    ∀ place ∈ k.places, Visited inputs g k.key place :=
  fun place hplace => (tallied_of_mem_keep hsize h place hplace).visited

theorem exists_mem_keep (o : Options) (hsize : Numberable inputs)
    {key : MetaKey} (h : Offered inputs g key) :
    ∃ k ∈ keep o inputs g, k.key = key := by
  rcases covers_of_offered h with ⟨m, hm, hat⟩
  have hlt := hsize.length_lt (collect_proper inputs g).numbered
  have hkey := hat.getElem?_eq (by omega)
  refine ⟨{ key, versions := m.selectBest o.mergePolicy (max o.maxVersions 1) },
    ?_, rfl⟩
  unfold keep
  rw [List.mem_filterMap]
  refine ⟨m, hm, ?_⟩
  rw [hkey]
  rfl

end

/-!
## Groups
-/

theorem mem_containersOf {member : Nat × Nat} {c : Container}
    (h : (member, c) ∈ containersOf inputs) :
    ∃ input, inputs[member.1]? = some input ∧
      input.file.containers[member.2]? = some c := by
  unfold containersOf at h
  rw [List.mem_flatten] at h
  rcases h with ⟨entries, hentries, hmem⟩
  rw [List.mem_mapIdx] at hentries
  rcases hentries with ⟨f, hf, rfl⟩
  rw [List.mem_mapIdx] at hmem
  rcases hmem with ⟨n, hn, heq⟩
  cases heq
  exact ⟨_, List.getElem?_eq_getElem hf, List.getElem?_eq_getElem hn⟩

structure Group.Of (entries : List ((Nat × Nat) × Container)) (g : Group) :
    Prop where
  first : ∃ entry ∈ entries, entry.2.fingerprint = g.fingerprint
  members : ∀ member ∈ g.members, ∃ c, (member, c) ∈ entries ∧
    g.fingerprint.identical c.fingerprint = true

variable {entries : List ((Nat × Nat) × Container)} {g : Group}

theorem addToGroups_of {gs : List Group} (hgs : ∀ g ∈ gs, Group.Of entries g)
    {member : Nat × Nat} {c : Container} (hentry : (member, c) ∈ entries) :
    ∀ g ∈ addToGroups c.fingerprint member gs, Group.Of entries g := by
  induction gs with
  | nil =>
      intro g hg
      rw [List.mem_singleton.mp hg]
      refine ⟨⟨_, hentry, rfl⟩, ?_⟩
      intro m hm
      rw [List.mem_singleton.mp hm]
      exact ⟨c, hentry, c.fingerprint.identical_self⟩
  | cons first rest ih =>
      have hfirst := hgs first List.mem_cons_self
      have hrest := fun g hg => hgs g (List.mem_cons_of_mem first hg)
      unfold addToGroups
      split
      · rename_i hidentical
        intro g hg
        rcases List.mem_cons.mp hg with rfl | hmem
        · refine ⟨hfirst.first, ?_⟩
          intro m hm
          rcases List.mem_append.mp hm with hold | hnew
          · exact hfirst.members m hold
          · rw [List.mem_singleton.mp hnew]
            exact ⟨c, hentry, hidentical⟩
        · exact hrest g hmem
      · intro g hg
        rcases List.mem_cons.mp hg with rfl | hmem
        · exact hfirst
        · exact ih hrest g hmem

/-- What holds of no groups, and after each container if it held of the containers
before, holds of all groups. -/
theorem groups_induction {P : List ((Nat × Nat) × Container) → List Group → Prop}
    (hnone : P [] [])
    (hadd : ∀ entries gs member c, P entries gs →
      P (entries ++ [(member, c)]) (addToGroups c.fingerprint member gs))
    (inputs : List Input) :
    P (containersOf inputs) (groups inputs) := by
  unfold groups
  generalize containersOf inputs = entries
  induction entries using List.reverseRecOn with
  | nil => exact hnone
  | append_singleton entries entry ih =>
      rcases entry with ⟨member, c⟩
      rw [List.foldl_append]
      exact hadd entries _ member c ih

theorem groups_of (inputs : List Input) :
    ∀ g ∈ groups inputs, Group.Of (containersOf inputs) g :=
  List.foldlRecOn (containersOf inputs) _
    (motive := fun gs => ∀ g ∈ gs, Group.Of (containersOf inputs) g)
    (fun _ hg => absurd hg List.not_mem_nil)
    fun _ hgs _ hentry => addToGroups_of hgs hentry

theorem mem_of_mem_coveringGroups {o : Options} {inputCount covered kept : Nat}
    {gs : List Group} (h : g ∈ coveringGroups o inputCount covered kept gs) :
    g ∈ gs := by
  induction gs generalizing covered kept with
  | nil => cases h
  | cons first rest ih =>
      unfold coveringGroups at h
      split at h
      · cases h
      · rcases List.mem_cons.mp h with rfl | hmem
        · exact List.mem_cons_self
        · exact List.mem_cons_of_mem first (ih hmem)

theorem mem_of_mem_keptGroups {o : Options} {inputCount : Nat} {gs : List Group}
    (h : g ∈ keptGroups o inputCount gs) :
    g ∈ gs :=
  (List.mergeSort_perm gs _).mem_iff.mp (mem_of_mem_coveringGroups h)

theorem of_mem_keptGroups {o : Options} {inputCount : Nat}
    (h : g ∈ keptGroups o inputCount (groups inputs)) :
    Group.Of (containersOf inputs) g :=
  groups_of inputs g (mem_of_mem_keptGroups h)

end Merge

end CodeCache
